-- SUMMARY: The busy maximum of a work queue: update_busy under any interleaving of the tasks in do_wkq, and when a maximum is lost.
import Mathlib.Data.BitVec
import Mathlib.Logic.Function.Basic
import Mathlib.Logic.Relation

/-!
# The busy maximum

`update_busy` reads the number of works of a queue and raises `max_busy` with a
compare-and-exchange. Its loop goes on while the exchange succeeds and ends when it
fails: a task whose value was overtaken by a smaller maximum gives its own value up.
-/

namespace Aufs

/-- `unsigned int`, and what an `atomic_t` holds. -/
abbrev UInt : Type := BitVec 32

/-- Where `enqueue` goes on in `do_wkq` when `queue_work` fails. -/
inductive WkqBack where
  /-- in the search for an idle queue, with the least busy one so far -/
  | scan (i : Nat) (idle : UInt) (idleIdx : Nat)
  /-- in the next round -/
  | again
  deriving DecidableEq

/-- Where a task of `do_wkq` is. -/
inductive WkqCall where
  /-- before the loop, or behind the `yield` -/
  | start
  /-- the next queue to try -/
  | scan (i : Nat) (idle : UInt) (idleIdx : Nat)
  /-- no queue was idle -/
  | count (idleIdx : Nat)
  /-- in `update_busy`, before `atomic_read` -/
  | readBusy (q : Nat) (back : WkqBack)
  /-- in `update_busy`, before `max_busy` is read -/
  | readMax (q : Nat) (back : WkqBack) (new : UInt)
  /-- in `update_busy`, before `cmpxchg` -/
  | cmpxchg (q : Nat) (back : WkqBack) (new old : UInt)
  /-- behind `update_busy` -/
  | queueWork (q : Nat) (back : WkqBack)
  /-- the queue was not idle, or refused the work -/
  | leave (i : Nat) (idle : UInt) (idleIdx : Nat)
  /-- the work waits in the queue -/
  | queued (q : Nat)
  /-- `wkq_func` is through -/
  | finished
  deriving DecidableEq

/-- The queues, of which the last one is for the tasks that do not wait, and the tasks. `reads` are the
values that `update_busy` has read, with the queue. -/
structure WkqSys where
  nwkq : Nat
  wait : Nat → Bool
  busy : Nat → UInt
  maxBusy : Nat → UInt
  calls : Nat → WkqCall
  reads : List (Nat × UInt)

namespace WkqSys

/-- A task goes on. -/
def goto (s : WkqSys) (task : Nat) (c : WkqCall) : WkqSys := { s with calls := Function.update s.calls task c }

/-- `atomic_inc`, `atomic_dec` -/
def addBusy (s : WkqSys) (q : Nat) (d : UInt) : WkqSys :=
  { s with busy := Function.update s.busy q (s.busy q + d) }

/-- The next atomic step of a task. `ok` is the answer of `queue_work`. -/
def step (s : WkqSys) (task : Nat) (ok : Bool) : WkqSys :=
  match s.calls task with
  | .start => s.goto task (if s.wait task then .scan 0 (-1) 0 else .count s.nwkq)
  | .scan i idle idleIdx =>
    if i < s.nwkq then
      let n := s.busy i + 1
      let s := s.addBusy i 1
      if n = 1 then s.goto task (.readBusy i (.scan i idle idleIdx))
      else if n < idle then s.goto task (.leave i n i)
      else s.goto task (.leave i idle idleIdx)
    else s.goto task (.count idleIdx)
  | .count idleIdx => (s.addBusy idleIdx 1).goto task (.readBusy idleIdx .again)
  | .readBusy q back => { s with reads := (q, s.busy q) :: s.reads }.goto task (.readMax q back (s.busy q))
  | .readMax q back new =>
    if new ≤ s.maxBusy q then s.goto task (.queueWork q back)
    else s.goto task (.cmpxchg q back new (s.maxBusy q))
  | .cmpxchg q back new old =>
    if s.maxBusy q = old then
      -- the exchange was made, and the loop goes on
      { s with maxBusy := Function.update s.maxBusy q new }.goto task (.readBusy q back)
    else s.goto task (.queueWork q back)
  | .queueWork q back =>
    if ok then s.goto task (.queued q)
    else
      match back with
      | .scan i idle idleIdx => if 1 < idle then s.goto task (.leave i 1 i) else s.goto task (.leave i idle idleIdx)
      | .again => s.goto task .start
  | .leave i idle idleIdx => (s.addBusy i (-1)).goto task (.scan (i + 1) idle idleIdx)
  | .queued q => (s.addBusy q (-1)).goto task .finished
  | .finished => s

/-- A run: which task makes the next step, and what `queue_work` answers. -/
def run (s : WkqSys) (steps : List (Nat × Bool)) : WkqSys := steps.foldl (fun s e => s.step e.1 e.2) s

/-- Nobody has called yet. -/
def init (nwkq : Nat) (wait : Nat → Bool) : WkqSys := ⟨nwkq, wait, fun _ => 0, fun _ => 0, fun _ => .start, []⟩

end WkqSys

/-- The queue whose maximum the task is about to raise. -/
def WkqCall.updates : WkqCall → Option Nat
  | .readBusy q _ => some q
  | .readMax q _ _ => some q
  | .cmpxchg q _ _ _ => some q
  | _ => none

namespace WkqSys

/-- The condition on a step: no other task has changed the maximum since the task read it. -/
def Hits (s : WkqSys) (task : Nat) : Prop :=
  ∀ q back new old, s.calls task = .cmpxchg q back new old → s.maxBusy q = old

/-- Any steps of any tasks. -/
def Steps : WkqSys → WkqSys → Prop :=
  Relation.ReflTransGen fun s s' => ∃ task ok, s' = s.step task ok

/-- Steps that meet the condition. -/
def HitSteps : WkqSys → WkqSys → Prop :=
  Relation.ReflTransGen fun s s' => ∃ task ok, s.Hits task ∧ s' = s.step task ok

/-- The steps of a run in which the other tasks leave the maximum of the queue alone. -/
def Undisturbed (s : WkqSys) (task q : Nat) : List (Nat × Bool) → Prop
  | [] => True
  | e :: rest => (e.1 ≠ task → (s.step e.1 e.2).maxBusy q = s.maxBusy q) ∧ (s.step e.1 e.2).Undisturbed task q rest

/-- Somewhere in the run the task is not in `update_busy`. -/
def Leaves (s : WkqSys) (task : Nat) : List (Nat × Bool) → Prop
  | [] => (s.calls task).updates = none
  | e :: rest => (s.calls task).updates = none ∨ (s.step e.1 e.2).Leaves task rest

/-- What is asked of the state that a run has reached: no maximum went down, a call that is left alone ends
after so many steps, and when all calls are over the maxima reach everything that was read. -/
structure Kept (s₀ s : WkqSys) : Prop where
  mono : ∀ q, s₀.maxBusy q ≤ s.maxBusy q
  ends : ∀ task q, (s.calls task).updates = some q → ∃ n, ∀ steps, s.Undisturbed task q steps →
    n ≤ (steps.countP fun e => e.1 = task) → s.Leaves task steps
  reached : (∀ task, (s.calls task).updates = none) → ∀ e ∈ s.reads, e.2 ≤ s.maxBusy e.1

-- ---------------------------------------------------------------------------
-- One step
-- ---------------------------------------------------------------------------

/-- What a step does to the maxima and to what was read. -/
inductive Move (s : WkqSys) (task : Nat) : WkqSys → Prop
  | elsewhere (busy : Nat → UInt) (c : WkqCall) (hfrom : (s.calls task).updates = none)
      (hto : c.updates = none ∨ ∃ q back, c = .readBusy q back) : Move s task ({ s with busy }.goto task c)
  | readBusy {q : Nat} {back : WkqBack} (hcall : s.calls task = .readBusy q back) :
      Move s task ({ s with reads := (q, s.busy q) :: s.reads }.goto task (.readMax q back (s.busy q)))
  | low {q : Nat} {back : WkqBack} {new : UInt} (hcall : s.calls task = .readMax q back new)
      (hle : new ≤ s.maxBusy q) : Move s task (s.goto task (.queueWork q back))
  | high {q : Nat} {back : WkqBack} {new : UInt} (hcall : s.calls task = .readMax q back new)
      (hlt : s.maxBusy q < new) : Move s task (s.goto task (.cmpxchg q back new (s.maxBusy q)))
  | raise {q : Nat} {back : WkqBack} {new : UInt} (hcall : s.calls task = .cmpxchg q back new (s.maxBusy q)) :
      Move s task ({ s with maxBusy := Function.update s.maxBusy q new }.goto task (.readBusy q back))
  | miss {q : Nat} {back : WkqBack} {new old : UInt} (hcall : s.calls task = .cmpxchg q back new old)
      (hne : s.maxBusy q ≠ old) : Move s task (s.goto task (.queueWork q back))

variable {s s' : WkqSys} {task : Nat}

theorem goto_calls_same (s : WkqSys) {c : WkqCall} (h : s.calls task = c) : s.goto task c = s := by
  subst h
  simp only [goto, Function.update_eq_self]

theorem step_move (s : WkqSys) (task : Nat) (ok : Bool) : s.Move task (s.step task ok) := by
  have hplain : ∀ busy c, (s.calls task).updates = none → c.updates = none →
      s.Move task ({ s with busy }.goto task c) := fun busy c hfrom hto => .elsewhere busy c hfrom (.inl hto)
  rw [step]
  cases hcall : s.calls task with
  | start =>
    dsimp only
    refine hplain s.busy _ (by rw [hcall]; rfl) ?_
    split <;> rfl
  | scan i idle idleIdx =>
    dsimp only
    have hfrom : (s.calls task).updates = none := by rw [hcall]; rfl
    split
    · split
      · exact .elsewhere _ _ hfrom (.inr ⟨_, _, rfl⟩)
      · split
        · exact hplain _ _ hfrom rfl
        · exact hplain _ _ hfrom rfl
    · exact hplain s.busy _ hfrom rfl
  | count idleIdx => exact .elsewhere _ _ (by rw [hcall]; rfl) (.inr ⟨_, _, rfl⟩)
  | readBusy q back => exact .readBusy hcall
  | readMax q back new =>
    dsimp only
    split
    case isTrue hle => exact .low hcall hle
    case isFalse hle => exact .high hcall (BitVec.not_le.mp hle)
  | cmpxchg q back new old =>
    dsimp only
    split
    case isTrue heq =>
      subst heq
      exact .raise hcall
    case isFalse hne => exact .miss hcall hne
  | queueWork q back =>
    dsimp only
    have hfrom : (s.calls task).updates = none := by rw [hcall]; rfl
    split
    · exact hplain s.busy _ hfrom rfl
    · split
      · split
        · exact hplain s.busy _ hfrom rfl
        · exact hplain s.busy _ hfrom rfl
      · exact hplain s.busy _ hfrom rfl
  | leave i idle idleIdx => exact hplain _ _ (by rw [hcall]; rfl) rfl
  | queued q => exact hplain _ _ (by rw [hcall]; rfl) rfl
  | finished =>
    have hsame : s.Move task (s.goto task .finished) := hplain s.busy _ (by rw [hcall]; rfl) rfl
    rwa [goto_calls_same s hcall] at hsame

theorem goto_self (s : WkqSys) (task : Nat) (c : WkqCall) : (s.goto task c).calls task = c :=
  Function.update_self ..

theorem goto_of_ne (s : WkqSys) {task other : Nat} (c : WkqCall) (h : other ≠ task) :
    (s.goto task c).calls other = s.calls other :=
  Function.update_of_ne h ..

/-- A step is one of its own task. -/
theorem Move.calls_of_ne (h : s.Move task s') {other : Nat} (hne : other ≠ task) :
    s'.calls other = s.calls other := by
  cases h <;> exact Function.update_of_ne hne ..

-- ---------------------------------------------------------------------------
-- The maximum goes up
-- ---------------------------------------------------------------------------

/-- A task exchanges the maximum for a larger one. -/
def Ordered (s : WkqSys) : Prop :=
  ∀ task q back new old, s.calls task = .cmpxchg q back new old → old < new

theorem Ordered.move (h : s.Ordered) (hmove : s.Move task s') : s'.Ordered := by
  intro other q back new old hcall
  by_cases hne : other = task
  case neg =>
    rw [hmove.calls_of_ne hne] at hcall
    exact h other q back new old hcall
  case pos =>
    subst hne
    cases hmove with
    | elsewhere busy c hfrom hto =>
      rw [goto_self] at hcall
      subst hcall
      rcases hto with hto | ⟨_, _, hto⟩ <;> cases hto
    | readBusy => cases (goto_self _ other _).symm.trans hcall
    | low => cases (goto_self _ other _).symm.trans hcall
    | high hread hlt =>
      cases (goto_self _ other _).symm.trans hcall
      exact hlt
    | raise => cases (goto_self _ other _).symm.trans hcall
    | miss => cases (goto_self _ other _).symm.trans hcall

theorem Move.maxBusy_le (hmove : s.Move task s') (h : s.Ordered) (q : Nat) : s.maxBusy q ≤ s'.maxBusy q := by
  cases hmove with
  | @raise q' back new hcall =>
    have hlt := h task q' back new _ hcall
    by_cases hq : q = q'
    case pos =>
      subst hq
      have hnew : Function.update s.maxBusy q new q = new := Function.update_self ..
      simp only [goto, hnew]
      exact BitVec.le_of_lt hlt
    case neg =>
      have hnew : Function.update s.maxBusy q' new q = s.maxBusy q := Function.update_of_ne hq ..
      simp only [goto, hnew]
      exact BitVec.le_refl _
  | elsewhere => exact BitVec.le_refl _
  | readBusy => exact BitVec.le_refl _
  | low => exact BitVec.le_refl _
  | high => exact BitVec.le_refl _
  | miss => exact BitVec.le_refl _

-- ---------------------------------------------------------------------------
-- What was read is reached
-- ---------------------------------------------------------------------------

/-- The task still holds the value `v` that it read from the queue. -/
def Holds (s : WkqSys) (task q : Nat) (v : UInt) : Prop :=
  ∃ back, s.calls task = .readMax q back v ∨ ∃ old, s.calls task = .cmpxchg q back v old

/-- Every value that was read is reached or still held. -/
def Accounted (s : WkqSys) : Prop := ∀ e ∈ s.reads, e.2 ≤ s.maxBusy e.1 ∨ ∃ task, s.Holds task e.1 e.2

theorem Holds.updates {q : Nat} {v : UInt} (h : s.Holds task q v) : (s.calls task).updates = some q := by
  obtain ⟨back, hcall | ⟨old, hcall⟩⟩ := h
  · rw [hcall]
    rfl
  · rw [hcall]
    rfl

theorem Holds.of_ne {q : Nat} {v : UInt} {other : Nat} (h : s.Holds other q v) (hmove : s.Move task s')
    (hne : other ≠ task) : s'.Holds other q v := by
  rw [Holds, hmove.calls_of_ne hne]
  exact h

/-- A task that makes its exchange gives up no value. -/
theorem Accounted.move (h : s.Accounted) (hord : s.Ordered) (hhits : s.Hits task) (hmove : s.Move task s') :
    s'.Accounted := by
  intro e he
  -- what the task itself held goes on, or is reached
  have hself : s.Holds task e.1 e.2 → e.2 ≤ s'.maxBusy e.1 ∨ ∃ task, s'.Holds task e.1 e.2 := by
    rintro ⟨back, hcall | ⟨old, hcall⟩⟩
    · cases hmove with
      | elsewhere busy c hfrom hto =>
        rw [hcall] at hfrom
        cases hfrom
      | readBusy hcall' => cases hcall.symm.trans hcall'
      | low hcall' hle =>
        cases hcall.symm.trans hcall'
        exact .inl hle
      | high hcall' hlt =>
        cases hcall.symm.trans hcall'
        exact .inr ⟨task, back, .inr ⟨_, goto_self ..⟩⟩
      | raise hcall' => cases hcall.symm.trans hcall'
      | miss hcall' => cases hcall.symm.trans hcall'
    · cases hmove with
      | elsewhere busy c hfrom hto =>
        rw [hcall] at hfrom
        cases hfrom
      | readBusy hcall' => cases hcall.symm.trans hcall'
      | low hcall' => cases hcall.symm.trans hcall'
      | high hcall' => cases hcall.symm.trans hcall'
      | raise hcall' =>
        cases hcall.symm.trans hcall'
        have hnew : Function.update s.maxBusy e.1 e.2 e.1 = e.2 := Function.update_self ..
        simp only [goto, hnew]
        exact .inl (BitVec.le_refl _)
      | miss hcall' hne => exact absurd (hhits _ _ _ _ hcall') hne
  have hold : e ∈ s.reads → e.2 ≤ s'.maxBusy e.1 ∨ ∃ task, s'.Holds task e.1 e.2 := by
    intro he
    rcases h e he with hle | ⟨other, hholds⟩
    · exact .inl (BitVec.le_trans hle (hmove.maxBusy_le hord _))
    · by_cases hne : other = task
      case pos => exact hself (hne ▸ hholds)
      case neg => exact .inr ⟨other, hholds.of_ne hmove hne⟩
  cases hmove with
  | readBusy hcall =>
    rcases List.mem_cons.mp he with rfl | he
    · exact .inr ⟨task, _, .inl (goto_self ..)⟩
    · exact hold he
  | elsewhere => exact hold he
  | low => exact hold he
  | high => exact hold he
  | raise => exact hold he
  | miss => exact hold he

-- ---------------------------------------------------------------------------
-- A call that is left alone
-- ---------------------------------------------------------------------------

/-- How many steps a call has before it when the maximum is `max` and nobody else changes it: three for every
value above. -/
def left (max : UInt) : WkqCall → Nat
  | .readBusy _ _ => 3 * (2 ^ 32 - 1 - max.toNat) + 3
  | .readMax _ _ _ => 3 * (2 ^ 32 - 1 - max.toNat) + 2
  | .cmpxchg _ _ _ _ => 3 * (2 ^ 32 - 1 - max.toNat) + 1
  | _ => 0

theorem left_pos {max : UInt} {c : WkqCall} {q : Nat} (h : c.updates = some q) : 0 < left max c := by
  cases c <;> first | exact Nat.succ_pos _ | cases h

/-- Every step of the task brings the end nearer. -/
theorem Move.left_lt (hmove : s.Move task s') (hord : s.Ordered) {q : Nat}
    (hq : (s.calls task).updates = some q) (hq' : (s'.calls task).updates ≠ none) :
    (s'.calls task).updates = some q ∧
      left (s'.maxBusy q) (s'.calls task) < left (s.maxBusy q) (s.calls task) := by
  cases hmove with
  | elsewhere busy c hfrom hto =>
    rw [hq] at hfrom
    cases hfrom
  | readBusy hcall =>
    rw [hcall] at hq ⊢
    cases hq
    rw [goto_self]
    exact ⟨rfl, Nat.lt_succ_self _⟩
  | low hcall hle =>
    rw [goto_self] at hq'
    exact absurd rfl hq'
  | high hcall hlt =>
    rw [hcall] at hq ⊢
    cases hq
    rw [goto_self]
    exact ⟨rfl, Nat.lt_succ_self _⟩
  | @raise _ back new hcall =>
    have hlt := hord task _ back new _ hcall
    rw [hcall] at hq ⊢
    cases hq
    rw [goto_self]
    refine ⟨rfl, ?_⟩
    have hnew : Function.update s.maxBusy q new q = new := Function.update_self ..
    have hlt : (s.maxBusy q).toNat < new.toNat := hlt
    have hmax := new.isLt
    simp only [goto, left, hnew]
    omega
  | miss hcall hne =>
    rw [goto_self] at hq'
    exact absurd rfl hq'

/-- A call that is left alone ends. -/
theorem leaves_of_undisturbed {q : Nat} (hord : s.Ordered) {steps : List (Nat × Bool)}
    (hq : (s.calls task).updates = some q) (halone : s.Undisturbed task q steps)
    (hn : left (s.maxBusy q) (s.calls task) ≤ steps.countP fun e => e.1 = task) : s.Leaves task steps := by
  induction steps generalizing s with
  | nil =>
    have hpos : 0 < left (s.maxBusy q) (s.calls task) := left_pos hq
    rw [List.countP_nil] at hn
    omega
  | cons e rest ih =>
    obtain ⟨hkeep, halone⟩ := halone
    have hmove := s.step_move e.1 e.2
    have hord' := hord.move hmove
    right
    by_cases hgone : ((s.step e.1 e.2).calls task).updates = none
    case pos =>
      cases rest with
      | nil => exact hgone
      | cons => exact .inl hgone
    case neg =>
      by_cases he : e.1 = task
      case pos =>
        rw [List.countP_cons_of_pos (by simpa using he)] at hn
        subst he
        obtain ⟨hq', hlt⟩ := hmove.left_lt hord hq hgone
        exact ih hord' hq' halone (by omega)
      case neg =>
        rw [List.countP_cons_of_neg (by simpa using he)] at hn
        have hsame : (s.step e.1 e.2).calls task = s.calls task := hmove.calls_of_ne (Ne.symm he)
        refine ih hord' (by rw [hsame]; exact hq) halone ?_
        rw [hsame, hkeep he]
        exact hn

-- ---------------------------------------------------------------------------
-- Runs
-- ---------------------------------------------------------------------------

variable {nwkq : Nat} {wait : Nat → Bool} {s₀ : WkqSys}

theorem HitSteps.steps (h : HitSteps s₀ s) : Steps s₀ s := by
  induction h with
  | refl => exact .refl
  | tail _ hstep ih =>
    obtain ⟨task, ok, -, rfl⟩ := hstep
    exact ih.tail ⟨task, ok, rfl⟩

theorem Steps.ordered (h : Steps s₀ s) (hord : s₀.Ordered) : s.Ordered := by
  induction h with
  | refl => exact hord
  | tail _ hstep ih =>
    obtain ⟨task, ok, rfl⟩ := hstep
    exact ih.move (step_move _ task ok)

/-- No maximum goes down in any run. -/
theorem Steps.maxBusy_le (h : Steps s₀ s) (hord : s₀.Ordered) (q : Nat) : s₀.maxBusy q ≤ s.maxBusy q := by
  induction h with
  | refl => exact BitVec.le_refl _
  | tail hsteps hstep ih =>
    obtain ⟨task, ok, rfl⟩ := hstep
    exact BitVec.le_trans ih ((step_move _ task ok).maxBusy_le (Steps.ordered hsteps hord) q)

theorem HitSteps.accounted (h : HitSteps s₀ s) (hord : s₀.Ordered) (hacc : s₀.Accounted) : s.Accounted := by
  induction h with
  | refl => exact hacc
  | tail hsteps hstep ih =>
    obtain ⟨task, ok, hhits, rfl⟩ := hstep
    exact ih.move (Steps.ordered (HitSteps.steps hsteps) hord) hhits (step_move _ task ok)

theorem init_ordered : (init nwkq wait).Ordered := fun _ _ _ _ _ h => by cases h

theorem init_accounted : (init nwkq wait).Accounted := fun _ h => absurd h List.not_mem_nil

/-- When no exchange fails no update is lost. -/
theorem hitSteps_kept (h₀ : HitSteps (init nwkq wait) s₀) (h : HitSteps s₀ s) : Kept s₀ s := by
  have hord₀ : s₀.Ordered := Steps.ordered h₀.steps init_ordered
  have hord : s.Ordered := Steps.ordered h.steps hord₀
  have hacc : s.Accounted := h.accounted hord₀ (h₀.accounted init_ordered init_accounted)
  refine ⟨fun q => h.steps.maxBusy_le hord₀ q, fun task q hq => ?_, fun hover e he => ?_⟩
  · exact ⟨_, fun steps halone hn => leaves_of_undisturbed hord hq halone hn⟩
  · rcases hacc e he with hle | ⟨task, hholds⟩
    · exact hle
    · cases hholds.updates.symm.trans (hover task)

/-- The condition on all steps of a list. -/
def HitRun (s : WkqSys) : List (Nat × Bool) → Prop
  | [] => True
  | e :: rest => s.Hits e.1 ∧ (s.step e.1 e.2).HitRun rest

theorem HitRun.hitSteps {steps : List (Nat × Bool)} (h : s.HitRun steps) : HitSteps s (s.run steps) := by
  induction steps generalizing s with
  | nil => exact .refl
  | cons e rest ih => exact .head ⟨e.1, e.2, h.1, rfl⟩ (ih h.2)

/-- One work, from the call to its end. -/
theorem hitSteps_kept_once :
    Kept (init 1 fun _ => false) ((init 1 fun _ => false).run (List.replicate 9 (0, true))) := by
  have hhit : HitRun (init 1 fun _ => false) (List.replicate 9 (0, true)) := by
    refine ⟨?_, ?_, ?_, ?_, ?_, ?_, ?_, ?_, ?_, trivial⟩
    all_goals
      intro q back new old hcall
      cases hcall <;> rfl
  exact hitSteps_kept .refl hhit.hitSteps

theorem run_steps (s : WkqSys) (steps : List (Nat × Bool)) : Steps s (s.run steps) := by
  induction steps generalizing s with
  | nil => exact .refl
  | cons e rest ih => exact .head ⟨e.1, e.2, rfl⟩ (ih _)

/-- A task without a step stays where it is. -/
theorem run_calls {steps : List (Nat × Bool)} (h : task ∉ steps.map Prod.fst) :
    (s.run steps).calls task = s.calls task := by
  induction steps generalizing s with
  | nil => rfl
  | cons e rest ih =>
    rw [List.map_cons, List.mem_cons, not_or] at h
    exact (ih h.2).trans ((step_move s e.1 e.2).calls_of_ne h.1)

/-- Two works in the queue of those that do not wait: the second task reads two, loses its exchange to the
first, and its work is done before the first one reads again. -/
def lostUpdate : List (Nat × Bool) :=
  [(0, true), (0, true), (0, true), (0, true), (1, true), (1, true), (1, true), (1, true), (0, true), (1, true),
    (1, true), (1, true), (0, true), (0, true), (0, true), (0, true)]

theorem not_kept_lostUpdate : ¬ ∀ (nwkq : Nat) (wait : Nat → Bool) (s₀ s : WkqSys),
    Steps (init nwkq wait) s₀ → Steps s₀ s → Kept s₀ s := by
  intro hall
  have hkept := hall 1 (fun _ => false) _ _ .refl (run_steps _ lostUpdate)
  have hover : ∀ task, (((init 1 fun _ => false).run lostUpdate).calls task).updates = none := by
    intro task
    by_cases htask : task ∈ lostUpdate.map Prod.fst
    case pos =>
      revert task
      decide
    case neg =>
      rw [run_calls htask]
      rfl
  have hle := hkept.reached hover (1, 2) (by decide)
  revert hle
  decide

end WkqSys

end Aufs
