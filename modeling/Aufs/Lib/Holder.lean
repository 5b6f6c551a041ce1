-- SUMMARY: Tasks that take and give back resources one action at a time, with a rule for what they hold at every point.
import Mathlib.Data.Multiset.AddSub

/-!
# Tasks that hold resources

A task is a program whose actions take resources from a common pool and give
them back. Tasks run interleaved, so a task is written as the tree of its
actions: the pool may refuse to hand out, and the task goes on with the refusal.
What a task holds is a multiset; `wp` follows it through the tree, keeps an
invariant of it at every point and says what is held at the end.
-/

/-- A task over resources `κ` with refusals `ε`. -/
inductive Holder (κ ε α : Type) where
  /-- The task is over. -/
  | ret (a : α)
  /-- The task goes on for ever and does nothing. -/
  | halt
  /-- Ask for all of `ks`. -/
  | take (ks : List κ) (next : Except ε Unit → Holder κ ε α)
  /-- Give `out` back and take `inn`, which is not refused. -/
  | move (out inn : List κ) (next : Holder κ ε α)

namespace Holder

variable {κ ε α β : Type}

/-- Run `x`, then `f` on its value. -/
def andThen : Holder κ ε α → (α → Holder κ ε β) → Holder κ ε β
  | ret a, f => f a
  | halt, _ => halt
  | take ks next, f => take ks fun r => (next r).andThen f
  | move out inn next, f => move out inn (next.andThen f)

instance : Monad (Holder κ ε) where
  pure := ret
  bind := andThen

theorem andThen_ret (x : Holder κ ε α) : x.andThen ret = x := by
  induction x with
  | ret a => rfl
  | halt => rfl
  | take ks next ih => exact congrArg (take ks) (funext ih)
  | move out inn next ih => exact congrArg (move out inn) ih

theorem andThen_assoc {γ : Type} (x : Holder κ ε α) (f : α → Holder κ ε β) (g : β → Holder κ ε γ) :
    (x.andThen f).andThen g = x.andThen fun a => (f a).andThen g := by
  induction x with
  | ret a => rfl
  | halt => rfl
  | take ks next ih => exact congrArg (take ks) (funext ih)
  | move out inn next ih => exact congrArg (move out inn) ih

instance : LawfulMonad (Holder κ ε) :=
  LawfulMonad.mk' (Holder κ ε) andThen_ret (fun _ _ => rfl) andThen_assoc

/-- Give `ks` back. -/
def give (ks : List κ) : Holder κ ε Unit := move ks [] (ret ())

-- ---------------------------------------------------------------------------
-- One action
-- ---------------------------------------------------------------------------

/-- The task after its next action, which the pool answers with `r`. -/
def act (r : Except ε Unit) : Holder κ ε α → Holder κ ε α
  | take _ next => next r
  | move _ _ next => next
  | t => t

/-- What the next action takes. -/
def taken (r : Except ε Unit) : Holder κ ε α → List κ
  | take ks _ => match r with
    | .ok () => ks
    | .error _ => []
  | move _ inn _ => inn
  | _ => []

/-- What the next action gives back. -/
def given : Holder κ ε α → List κ
  | move out _ _ => out
  | _ => []

-- ---------------------------------------------------------------------------
-- The end of a task
-- ---------------------------------------------------------------------------

/-- The task ends with this value if the pool answers it suitably. -/
inductive Ends : Holder κ ε α → α → Prop where
  | ret (a : α) : Ends (ret a) a
  | take {ks : List κ} {next : Except ε Unit → Holder κ ε α} (r : Except ε Unit) {a : α}
      (h : Ends (next r) a) : Ends (take ks next) a
  | move {out inn : List κ} {next : Holder κ ε α} {a : α} (h : Ends next a) : Ends (move out inn next) a

@[simp] theorem ends_ret {a b : α} : Ends (ret a : Holder κ ε α) b ↔ b = a :=
  ⟨fun h => by cases h; rfl, fun h => h ▸ .ret b⟩

@[simp] theorem ends_pure {a b : α} : Ends (pure a : Holder κ ε α) b ↔ b = a := ends_ret

@[simp] theorem ends_bind {x : Holder κ ε α} {f : α → Holder κ ε β} {b : β} :
    Ends (x >>= f) b ↔ ∃ a, Ends x a ∧ Ends (f a) b := by
  show Ends (x.andThen f) b ↔ _
  induction x with
  | ret a =>
      constructor
      · intro h
        exact ⟨a, .ret a, h⟩
      · rintro ⟨a', ha, h⟩
        rwa [ends_ret.mp ha] at h
  | halt =>
      constructor
      · intro h
        cases h
      · rintro ⟨a, ha, -⟩
        cases ha
  | take ks next ih =>
      constructor
      · intro h
        cases h with
        | take r h =>
            obtain ⟨a, ha, hb⟩ := (ih r).mp h
            exact ⟨a, .take r ha, hb⟩
      · rintro ⟨a, ha, hb⟩
        cases ha with
        | take r ha => exact .take r ((ih r).mpr ⟨a, ha, hb⟩)
  | move out inn next ih =>
      constructor
      · intro h
        cases h with
        | move h =>
            obtain ⟨a, ha, hb⟩ := ih.mp h
            exact ⟨a, .move ha, hb⟩
      · rintro ⟨a, ha, hb⟩
        cases ha with
        | move ha => exact .move (ih.mpr ⟨a, ha, hb⟩)

variable [DecidableEq κ]

/-- What a task that holds `own` holds after its next action. -/
def holds (r : Except ε Unit) (t : Holder κ ε α) (own : Multiset κ) : Multiset κ :=
  own - t.given + t.taken r

-- ---------------------------------------------------------------------------
-- What a task holds
-- ---------------------------------------------------------------------------

/-- A task that starts with `own` gives back only what it holds, keeps `I` true of its
holdings and ends with `Q`, provided that it is refused only when its holdings allow it. -/
def wp (I may : Multiset κ → Prop) : Holder κ ε α → (α → Multiset κ → Prop) → Multiset κ → Prop
  | ret a, Q, own => I own ∧ Q a own
  | halt, _, own => I own
  | take ks next, Q, own =>
    I own ∧ wp I may (next (.ok ())) Q (own + ks) ∧ (may own → ∀ e, wp I may (next (.error e)) Q own)
  | move out inn next, Q, own => I own ∧ ↑out ≤ own ∧ wp I may next Q (own - out + inn)

variable {I may : Multiset κ → Prop} {t x : Holder κ ε α} {Q Q' : α → Multiset κ → Prop}
  {own : Multiset κ}

@[simp] theorem wp_ret {a : α} : wp I may (ret a : Holder κ ε α) Q own ↔ I own ∧ Q a own := Iff.rfl

@[simp] theorem wp_pure {a : α} : wp I may (pure a : Holder κ ε α) Q own ↔ I own ∧ Q a own := Iff.rfl

@[simp] theorem wp_halt : wp I may (halt : Holder κ ε α) Q own ↔ I own := Iff.rfl

@[simp] theorem wp_take {ks : List κ} {next : Except ε Unit → Holder κ ε α} :
    wp I may (take ks next) Q own ↔ I own ∧ wp I may (next (.ok ())) Q (own + ks) ∧
      (may own → ∀ e, wp I may (next (.error e)) Q own) := Iff.rfl

@[simp] theorem wp_move {out inn : List κ} :
    wp I may (move out inn t) Q own ↔ I own ∧ ↑out ≤ own ∧ wp I may t Q (own - out + inn) := Iff.rfl

/-- The invariant holds where a task stands. -/
theorem wp.inv (h : wp I may t Q own) : I own := by
  cases t with
  | ret a => exact h.1
  | halt => exact h
  | take ks next => exact h.1
  | move out inn next => exact h.1

theorem wp.mono (h : wp I may t Q own) (hQ : ∀ a own, Q a own → Q' a own) : wp I may t Q' own := by
  induction t generalizing own with
  | ret a => exact ⟨h.1, hQ _ _ h.2⟩
  | halt => exact h
  | take ks next ih => exact ⟨h.1, ih _ h.2.1, fun hm e => ih _ (h.2.2 hm e)⟩
  | move out inn next ih => exact ⟨h.1, h.2.1, ih h.2.2⟩

@[simp] theorem wp_bind {f : α → Holder κ ε β} {R : β → Multiset κ → Prop} :
    wp I may (x >>= f) R own ↔ wp I may x (fun a => wp I may (f a) R) own := by
  show wp I may (x.andThen f) R own ↔ _
  induction x generalizing own with
  | ret a => exact ⟨fun h => ⟨h.inv, h⟩, fun h => h.2⟩
  | halt => exact Iff.rfl
  | take ks next ih => simp only [andThen, wp_take, ih]
  | move out inn next ih => simp only [andThen, wp_move, ih]

/-- One action keeps the rule. -/
theorem wp.act (h : wp I may t Q own) {r : Except ε Unit}
    (hr : ∀ ks next e, t = take ks next → r = .error e → may own) :
    wp I may (t.act r) Q (t.holds r own) := by
  cases t with
  | ret a => simpa [Holder.act, holds, given, taken] using h
  | halt => simpa [Holder.act, holds, given, taken] using h
  | take ks next =>
      cases r with
      | ok u => simpa [Holder.act, holds, given, taken] using h.2.1
      | error e => simpa [Holder.act, holds, given, taken] using h.2.2 (hr ks next e rfl rfl) e
  | move out inn next => simpa [Holder.act, holds, given, taken] using h.2.2

/-- A task that follows the rule gives back what it holds. -/
theorem wp.given_le (h : wp I may t Q own) : ↑t.given ≤ own := by
  cases t with
  | move out inn next => exact h.2.1
  | _ => exact Multiset.zero_le own

/-- The pool and the task agree on what one action changes. -/
theorem wp.count_holds (h : wp I may t Q own) (r : Except ε Unit) (k : κ) :
    ((t.holds r own).count k : Int) = own.count k - t.given.count k + (t.taken r).count k := by
  have hle : t.given.count k ≤ own.count k := by
    simpa using Multiset.count_le_of_le k h.given_le
  simp only [holds, Multiset.count_add, Multiset.count_sub, Multiset.coe_count]
  omega

end Holder
