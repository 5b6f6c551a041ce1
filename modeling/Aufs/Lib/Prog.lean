-- SUMMARY: Programs that change a state and may fail, with weakest preconditions for both ways they end.
import Mathlib.Logic.Basic

/-!
# Programs that may fail

A program runs from a state, answers with a value or an error, and leaves a
state in both cases: what was changed before the error stays changed. Code that
undoes its own work on an error is written with `attempt`, which hands the error
to the rest of the program.
-/

/-- A program over states `σ` with errors `ε`. -/
def Prog (σ ε α : Type) : Type := σ → Except ε α × σ

namespace Prog

variable {σ ε α β : Type}

/-- Return a value and change nothing. -/
def ret (a : α) : Prog σ ε α := fun s => (.ok a, s)

/-- Fail and change nothing. -/
def fail (e : ε) : Prog σ ε α := fun s => (.error e, s)

/-- Run `x`, then `f` on its value; an error of `x` ends the program. -/
def andThen (x : Prog σ ε α) (f : α → Prog σ ε β) : Prog σ ε β := fun s =>
  match x s with
  | (.ok a, t) => f a t
  | (.error e, t) => (.error e, t)

instance : Monad (Prog σ ε) where
  pure := ret
  bind := andThen

/-- The state. -/
def state : Prog σ ε σ := fun s => (.ok s, s)

/-- Change the state. -/
def update (f : σ → σ) : Prog σ ε Unit := fun s => (.ok (), f s)

/-- Run `x` and go on with what it answered, be it an error. -/
def attempt (x : Prog σ ε α) : Prog σ ε (Except ε α) := fun s => (.ok (x s).1, (x s).2)

/-- Go on with an answer as if it had just been given. -/
def ofExcept : Except ε α → Prog σ ε α
  | .ok a => ret a
  | .error e => fail e

-- ---------------------------------------------------------------------------
-- Weakest preconditions
-- ---------------------------------------------------------------------------

/-- From `s` the program ends with a value and a state in `Q`, or with an error and a state
in `E`. -/
def wp (x : Prog σ ε α) (Q : α → σ → Prop) (E : ε → σ → Prop) (s : σ) : Prop :=
  match x s with
  | (.ok a, t) => Q a t
  | (.error e, t) => E e t

variable {x : Prog σ ε α} {Q Q' : α → σ → Prop} {E E' : ε → σ → Prop} {s t : σ}

theorem wp.ok (h : wp x Q E s) {a : α} (hx : x s = (.ok a, t)) : Q a t := by
  simpa only [wp, hx] using h

theorem wp.error (h : wp x Q E s) {e : ε} (hx : x s = (.error e, t)) : E e t := by
  simpa only [wp, hx] using h

/-- What holds of every run is a precondition. -/
theorem wp.intro (hok : ∀ a t, x s = (.ok a, t) → Q a t) (herr : ∀ e t, x s = (.error e, t) → E e t) :
    wp x Q E s := by
  unfold wp
  rcases hx : x s with ⟨_ | _, t⟩
  · exact herr _ _ hx
  · exact hok _ _ hx

/-- A program that does not fail ends with a value. -/
theorem wp.total (h : wp x Q (fun _ _ => False) s) : ∃ a t, x s = (.ok a, t) ∧ Q a t := by
  unfold wp at h
  rcases hx : x s with ⟨e | a, t⟩
  · rw [hx] at h
    exact h.elim
  · rw [hx] at h
    exact ⟨a, t, rfl, h⟩

theorem wp.mono (h : wp x Q E s) (hQ : ∀ a t, Q a t → Q' a t) (hE : ∀ e t, E e t → E' e t) :
    wp x Q' E' s :=
  .intro (fun _ _ hx => hQ _ _ (h.ok hx)) (fun _ _ hx => hE _ _ (h.error hx))

theorem wp.and (h : wp x Q E s) (h' : wp x Q' E' s) :
    wp x (fun a t => Q a t ∧ Q' a t) (fun e t => E e t ∧ E' e t) s :=
  .intro (fun _ _ hx => ⟨h.ok hx, h'.ok hx⟩) (fun _ _ hx => ⟨h.error hx, h'.error hx⟩)

@[simp] theorem wp_pure {a : α} : wp (pure a : Prog σ ε α) Q E s ↔ Q a s := Iff.rfl

@[simp] theorem wp_fail {e : ε} : wp (fail e : Prog σ ε α) Q E s ↔ E e s := Iff.rfl

@[simp] theorem wp_bind {f : α → Prog σ ε β} {R : β → σ → Prop} :
    wp (x >>= f) R E s ↔ wp x (fun a => wp (f a) R E) E s := by
  show wp (andThen x f) R E s ↔ _
  unfold wp andThen
  rcases x s with ⟨_ | _, t⟩ <;> rfl

@[simp] theorem wp_state {Q : σ → σ → Prop} : wp (state : Prog σ ε σ) Q E s ↔ Q s s := Iff.rfl

@[simp] theorem wp_update {f : σ → σ} {Q : Unit → σ → Prop} :
    wp (update f : Prog σ ε Unit) Q E s ↔ Q () (f s) := Iff.rfl

@[simp] theorem wp_attempt {Q : Except ε α → σ → Prop} :
    wp (attempt x) Q E s ↔ wp x (fun a => Q (.ok a)) (fun e => Q (.error e)) s := by
  unfold wp attempt
  rcases x s with ⟨_ | _, t⟩ <;> rfl

@[simp] theorem wp_ofExcept {r : Except ε α} :
    wp (ofExcept r : Prog σ ε α) Q E s ↔ match r with
      | .ok a => Q a s
      | .error e => E e s := by
  cases r <;> rfl

@[simp] theorem wp_ite {c : Prop} [Decidable c] {y : Prog σ ε α} :
    wp (if c then x else y) Q E s ↔ (c → wp x Q E s) ∧ (¬ c → wp y Q E s) := by
  by_cases h : c <;> simp [h]

end Prog
