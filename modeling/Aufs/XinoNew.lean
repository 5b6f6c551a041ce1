-- SUMMARY: New inode numbers under concurrency: the counter, its undo on overflow, and which numbers come out twice.
import Aufs.Xino
import Mathlib.Data.Finset.Card
import Mathlib.Logic.Relation

/-!
# Inode numbers under concurrency

`xino_new_ino` counts `si_xino` up and reads it under a spinlock. A number below the
root's means that the counter has run over, and the call takes its increment back. The
decrement is not under the lock: other callers count and read before it, and the counter
goes back below numbers that they were given.
-/

namespace Aufs

/-- `ino_t`, and what an `atomic_long_t` holds. -/
abbrev InoT : Type := BitVec 64

/-- Where a caller of `xino_new_ino` is. -/
inductive InoCall where
  /-- not in a call -/
  | idle
  /-- in `atomic_long_inc_return`, with `alir_lock` -/
  | locked
  /-- behind `atomic_long_inc` -/
  | counted
  /-- the number is below `AUFS_ROOT_INO` -/
  | failed
  deriving DecidableEq

/-- The counter, its lock, the callers, and the numbers that calls returned, the last one first. -/
structure InoSys where
  xino : InoT
  lock : Option Nat
  calls : Nat → InoCall
  given : List InoT

namespace InoSys

/-- A caller goes on. -/
def goto (s : InoSys) (caller : Nat) (c : InoCall) : InoSys :=
  { s with calls := Function.update s.calls caller c }

/-- The next step of a caller. There is none while it waits for the lock. -/
def step (s : InoSys) (caller : Nat) : Option InoSys :=
  match s.calls caller with
  | .idle =>
    if s.lock.isSome then none
    else some ({ s with lock := some caller }.goto caller .locked)
  | .locked => some ({ s with xino := s.xino + 1 }.goto caller .counted)
  | .counted =>
    -- the number is read, and the lock is given back
    if rootIno ≤ s.xino.toNat then
      some ({ s with lock := none, given := s.xino :: s.given }.goto caller .idle)
    else some ({ s with lock := none }.goto caller .failed)
  | .failed => some ({ s with xino := s.xino - 1, given := 0 :: s.given }.goto caller .idle)

/-- A run: which caller makes the next step. -/
def run (s : InoSys) : List Nat → Option InoSys
  | [] => some s
  | caller :: rest =>
    match s.step caller with
    | none => none
    | some s' => s'.run rest

/-- Nobody is in a call. -/
def start (xino : InoT) : InoSys := ⟨xino, none, fun _ => .idle, []⟩

/-- No number is returned twice, and none below the root's except for failure. -/
def Unique (s : InoSys) : Prop :=
  (s.given.filter (· ≠ 0)).Nodup ∧ ∀ ino ∈ s.given, ino = 0 ∨ rootIno ≤ ino.toNat

instance (s : InoSys) : Decidable s.Unique :=
  inferInstanceAs (Decidable ((s.given.filter (· ≠ 0)).Nodup ∧
    ∀ ino ∈ s.given, ino = 0 ∨ rootIno ≤ ino.toNat))

/-- The condition on a step: a caller that reads a number to return does not find another one that
failed and did not take its increment back yet. -/
def Undone (s : InoSys) (caller : Nat) : Prop :=
  s.calls caller = .counted → rootIno ≤ s.xino.toNat → ∀ other, s.calls other ≠ .failed

/-- Any steps of any callers. -/
def Steps : InoSys → InoSys → Prop :=
  Relation.ReflTransGen fun s s' => ∃ caller, s.step caller = some s'

/-- Steps that meet the condition. -/
def UndoneSteps : InoSys → InoSys → Prop :=
  Relation.ReflTransGen fun s s' => ∃ caller, s.Undone caller ∧ s.step caller = some s'

-- ---------------------------------------------------------------------------
-- One step
-- ---------------------------------------------------------------------------

section Step

variable {s : InoSys} {caller : Nat}

theorem step_idle (hcall : s.calls caller = .idle) (hlock : s.lock = none) :
    s.step caller = some ({ s with lock := some caller }.goto caller .locked) := by
  simp only [step, hcall, hlock]
  rfl

theorem step_locked (hcall : s.calls caller = .locked) :
    s.step caller = some ({ s with xino := s.xino + 1 }.goto caller .counted) := by
  simp only [step, hcall]

theorem step_give (hcall : s.calls caller = .counted) (hroot : rootIno ≤ s.xino.toNat) :
    s.step caller =
      some ({ s with lock := none, given := s.xino :: s.given }.goto caller .idle) := by
  simp only [step, hcall]
  exact if_pos hroot

theorem step_fail (hcall : s.calls caller = .counted) (hroot : ¬ rootIno ≤ s.xino.toNat) :
    s.step caller = some ({ s with lock := none }.goto caller .failed) := by
  simp only [step, hcall]
  exact if_neg hroot

theorem step_failed (hcall : s.calls caller = .failed) :
    s.step caller =
      some ({ s with xino := s.xino - 1, given := 0 :: s.given }.goto caller .idle) := by
  simp only [step, hcall]

end Step

/-- What a step of a caller does. -/
theorem step_cases {s s' : InoSys} {caller : Nat} (h : s.step caller = some s') :
    (s.calls caller = .idle ∧ s.lock = none ∧
      s' = { s with lock := some caller }.goto caller .locked) ∨
    (s.calls caller = .locked ∧ s' = { s with xino := s.xino + 1 }.goto caller .counted) ∨
    (s.calls caller = .counted ∧ rootIno ≤ s.xino.toNat ∧
      s' = { s with lock := none, given := s.xino :: s.given }.goto caller .idle) ∨
    (s.calls caller = .counted ∧ s.xino.toNat < rootIno ∧
      s' = { s with lock := none }.goto caller .failed) ∨
    (s.calls caller = .failed ∧
      s' = { s with xino := s.xino - 1, given := 0 :: s.given }.goto caller .idle) := by
  rcases hcall : s.calls caller with _ | _ | _ | _
  case idle =>
    rcases hlock : s.lock with _ | holder
    case none =>
      rw [step_idle hcall hlock] at h
      exact Or.inl ⟨rfl, rfl, (Option.some.inj h).symm⟩
    case some =>
      simp only [step, hcall, hlock] at h
      cases h
  case locked =>
    rw [step_locked hcall] at h
    exact Or.inr (Or.inl ⟨rfl, (Option.some.inj h).symm⟩)
  case counted =>
    by_cases hroot : rootIno ≤ s.xino.toNat
    case pos =>
      rw [step_give hcall hroot] at h
      exact Or.inr (Or.inr (Or.inl ⟨rfl, hroot, (Option.some.inj h).symm⟩))
    case neg =>
      rw [step_fail hcall hroot] at h
      exact Or.inr (Or.inr (Or.inr (Or.inl ⟨rfl, Nat.lt_of_not_le hroot, (Option.some.inj h).symm⟩)))
  case failed =>
    rw [step_failed hcall] at h
    exact Or.inr (Or.inr (Or.inr (Or.inr ⟨rfl, (Option.some.inj h).symm⟩)))

-- ---------------------------------------------------------------------------
-- Who is where
-- ---------------------------------------------------------------------------

/-- The callers that are at one place. -/
def Members (s : InoSys) (c : InoCall) (callers : Finset Nat) : Prop :=
  ∀ i, i ∈ callers ↔ s.calls i = c

theorem goto_self (s : InoSys) (caller : Nat) (c : InoCall) : (s.goto caller c).calls caller = c :=
  Function.update_self ..

theorem goto_of_ne (s : InoSys) {caller other : Nat} (c : InoCall) (h : other ≠ caller) :
    (s.goto caller c).calls other = s.calls other :=
  Function.update_of_ne h ..

variable {s : InoSys} {callers : Finset Nat} {caller : Nat} {c : InoCall}

theorem Members.insert (h : s.Members c callers) :
    (s.goto caller c).Members c (insert caller callers) := by
  intro i
  rw [Finset.mem_insert]
  by_cases hi : i = caller
  case pos =>
    subst hi
    exact iff_of_true (Or.inl rfl) (goto_self s i c)
  case neg =>
    rw [goto_of_ne s c hi, h i]
    exact or_iff_right hi

theorem Members.erase (h : s.Members c callers) {c' : InoCall} (hne : c' ≠ c) :
    (s.goto caller c').Members c (callers.erase caller) := by
  intro i
  rw [Finset.mem_erase]
  by_cases hi : i = caller
  case pos =>
    subst hi
    rw [goto_self]
    exact iff_of_false (fun hmem => hmem.1 rfl) hne
  case neg =>
    rw [goto_of_ne s c' hi, h i]
    exact and_iff_right hi

/-- A caller that is elsewhere before and after a step. -/
theorem Members.keep (h : s.Members c callers) {c' : InoCall} (hold : s.calls caller ≠ c)
    (hne : c' ≠ c) : (s.goto caller c').Members c callers := by
  have hmem : caller ∉ callers := by
    rw [h caller]
    exact hold
  have herase : (s.goto caller c').Members c (callers.erase caller) := h.erase hne
  rwa [Finset.erase_eq_of_notMem hmem] at herase

-- ---------------------------------------------------------------------------
-- The invariant
-- ---------------------------------------------------------------------------

/-- The counter is ahead of the last number that was returned by those who have counted and not
read, or have failed and not taken back. As long as somebody failed, the last number is the last
there is, or nothing was returned at all. -/
structure Inv (last : Nat) (counted undone : Finset Nat) (s : InoSys) : Prop where
  hcounted : s.Members .counted counted
  hundone : s.Members .failed undone
  lock : ∀ i, s.calls i = .locked ∨ s.calls i = .counted → s.lock = some i
  xino : s.xino.toNat = (last + counted.card + undone.card) % 18446744073709551616
  range : last < 18446744073709551616
  overflow : undone.Nonempty → last = 18446744073709551615 ∨ last = 0
  given : ∀ ino ∈ s.given, ino = 0 ∨ rootIno ≤ ino.toNat ∧ ino.toNat ≤ last
  nodup : (s.given.filter (· ≠ 0)).Nodup

theorem Inv.start (xino : InoT) : Inv xino.toNat ∅ ∅ (InoSys.start xino) where
  hcounted i := by simp [InoSys.start]
  hundone i := by simp [InoSys.start]
  lock i h := by rcases h with h | h <;> cases h
  xino := (Nat.mod_eq_of_lt xino.isLt).symm
  range := xino.isLt
  overflow h := absurd rfl h.ne_empty
  given ino h := by cases h
  nodup := List.nodup_nil

theorem Inv.unique {last : Nat} {counted undone : Finset Nat}
    (h : Inv last counted undone s) : s.Unique := by
  refine ⟨h.nodup, ?_⟩
  intro ino hino
  exact (h.given ino hino).imp_right And.left

variable {last : Nat} {counted undone : Finset Nat}

/-- Whoever has counted holds the lock, and is the only one. -/
theorem Inv.counted_eq (h : Inv last counted undone s) (hcall : s.calls caller = .counted) :
    counted = {caller} := by
  have hlock := h.lock caller (Or.inr hcall)
  ext i
  rw [Finset.mem_singleton, h.hcounted i]
  constructor
  case mp =>
    intro hi
    have hlock' := h.lock i (Or.inr hi)
    rw [hlock] at hlock'
    exact (Option.some.inj hlock').symm
  case mpr =>
    rintro rfl
    exact hcall

/-- Only the caller itself can hold the lock after a step that takes it nowhere near it. -/
private theorem lock_goto (h : ∀ i, s.calls i = .locked ∨ s.calls i = .counted → s.lock = some i)
    (hc : c ≠ .locked ∧ c ≠ .counted) :
    ∀ i, (s.goto caller c).calls i = .locked ∨ (s.goto caller c).calls i = .counted →
      s.lock = some i := by
  intro i hi
  by_cases hne : i = caller
  case pos =>
    subst hne
    rw [goto_self] at hi
    exact absurd hi (not_or.mpr hc)
  case neg =>
    rw [goto_of_ne s c hne] at hi
    exact h i hi

/-- After the holder of the lock has left, nobody is near it. -/
private theorem released (h : ∀ i, s.calls i = .locked ∨ s.calls i = .counted → s.lock = some i)
    (hcall : s.calls caller = .counted) (hc : c ≠ .locked ∧ c ≠ .counted) (i : Nat) :
    ¬ ((s.goto caller c).calls i = .locked ∨ (s.goto caller c).calls i = .counted) := by
  intro hi
  have hlock := lock_goto h hc i hi
  rw [h caller (Or.inr hcall)] at hlock
  obtain rfl := Option.some.inj hlock
  rw [goto_self] at hi
  exact not_or.mpr hc hi

/-- A caller that is at another place. -/
private theorem calls_ne {c' : InoCall} (hcall : s.calls caller = c) (hne : c ≠ c') :
    s.calls caller ≠ c' := by
  rw [hcall]
  exact hne

theorem Inv.takeLock (h : Inv last counted undone s) (hcall : s.calls caller = .idle)
    (hlock : s.lock = none) :
    Inv last counted undone ({ s with lock := some caller }.goto caller .locked) where
  hcounted := Members.keep (s := { s with lock := some caller }) h.hcounted
    (calls_ne hcall (by decide)) (by decide)
  hundone := Members.keep (s := { s with lock := some caller }) h.hundone
    (calls_ne hcall (by decide)) (by decide)
  lock i hi := by
    by_cases hne : i = caller
    case pos =>
      subst hne
      rfl
    case neg =>
      rw [goto_of_ne _ _ hne] at hi
      have hlock' := h.lock i hi
      rw [hlock] at hlock'
      cases hlock'
  xino := h.xino
  range := h.range
  overflow := h.overflow
  given := h.given
  nodup := h.nodup

theorem Inv.count (h : Inv last counted undone s) (hcall : s.calls caller = .locked) :
    Inv last (insert caller counted) undone
      ({ s with xino := s.xino + 1 }.goto caller .counted) where
  hcounted := Members.insert (s := { s with xino := s.xino + 1 }) h.hcounted
  hundone := Members.keep (s := { s with xino := s.xino + 1 }) h.hundone
    (calls_ne hcall (by decide)) (by decide)
  lock i hi := by
    by_cases hne : i = caller
    case pos =>
      subst hne
      exact h.lock i (Or.inl hcall)
    case neg =>
      rw [goto_of_ne _ _ hne] at hi
      exact h.lock i hi
  xino := by
    have hmem : caller ∉ counted := by
      rw [h.hcounted caller]
      exact calls_ne hcall (by decide)
    have hx := h.xino
    have hlt := s.xino.isLt
    show (s.xino + 1).toNat = _
    rw [Finset.card_insert_of_notMem hmem]
    bv_omega
  range := h.range
  overflow := h.overflow
  given := h.given
  nodup := h.nodup

/-- The caller that has counted is the only one behind the last number but for the failed ones. -/
theorem Inv.xino_counted (h : Inv last counted undone s) (hcall : s.calls caller = .counted) :
    s.xino.toNat = (last + 1 + undone.card) % 18446744073709551616 := by
  have hx := h.xino
  rwa [h.counted_eq hcall, Finset.card_singleton] at hx

theorem Inv.give (h : Inv last counted undone s) (hcall : s.calls caller = .counted)
    (hroot : rootIno ≤ s.xino.toNat) (hundone : s.Undone caller) :
    Inv (last + 1) (counted.erase caller) undone
      ({ s with lock := none, given := s.xino :: s.given }.goto caller .idle) := by
  have hnone : undone = ∅ := by
    rw [Finset.eq_empty_iff_forall_notMem]
    intro other hmem
    exact hundone hcall hroot other ((h.hundone other).mp hmem)
  have hx := h.xino_counted hcall
  have hrange := h.range
  have hnew : s.xino.toNat = last + 1 := by
    rw [hnone, Finset.card_empty] at hx
    simp only [rootIno] at hroot
    omega
  refine ⟨?_, ?_, ?_, ?_, ?_, ?_, ?_, ?_⟩
  · exact Members.erase (s := { s with lock := none, given := s.xino :: s.given }) h.hcounted
      (by decide)
  · exact Members.keep (s := { s with lock := none, given := s.xino :: s.given }) h.hundone
      (calls_ne hcall (by decide)) (by decide)
  · intro i hi
    exact absurd hi (released h.lock hcall (by decide) i)
  · rw [h.counted_eq hcall, hnone, Finset.erase_singleton, Finset.card_empty]
    show s.xino.toNat = _
    have hlt := s.xino.isLt
    omega
  · have hlt := s.xino.isLt
    omega
  · intro hne
    exact absurd hnone hne.ne_empty
  · intro ino hino
    rcases List.mem_cons.mp hino with rfl | hino
    case inl => exact Or.inr ⟨hroot, Nat.le_of_eq hnew⟩
    case inr => exact (h.given ino hino).imp_right (And.imp_right Nat.le_succ_of_le)
  · show ((s.xino :: s.given).filter (· ≠ 0)).Nodup
    have hne : s.xino ≠ 0 := by
      intro h0
      rw [h0] at hnew
      simp at hnew
    rw [List.filter_cons_of_pos (by simpa using hne)]
    refine List.nodup_cons.mpr ⟨?_, h.nodup⟩
    intro hmem
    rcases h.given _ (List.mem_of_mem_filter hmem) with h0 | ⟨_, hle⟩
    case inl => exact hne h0
    case inr => omega

theorem Inv.fail (h : Inv last counted undone s) (hcall : s.calls caller = .counted)
    (hroot : s.xino.toNat < rootIno) :
    Inv last (counted.erase caller) (insert caller undone)
      ({ s with lock := none }.goto caller .failed) := by
  have hx := h.xino_counted hcall
  have hrange := h.range
  refine ⟨?_, ?_, ?_, ?_, hrange, ?_, h.given, h.nodup⟩
  · exact Members.erase (s := { s with lock := none }) h.hcounted (by decide)
  · exact Members.insert (s := { s with lock := none }) h.hundone
  · intro i hi
    exact absurd hi (released h.lock hcall (by decide) i)
  · have hmem : caller ∉ undone := by
      rw [h.hundone caller]
      exact calls_ne hcall (by decide)
    rw [h.counted_eq hcall, Finset.erase_singleton, Finset.card_empty,
      Finset.card_insert_of_notMem hmem]
    show s.xino.toNat = _
    omega
  · intro _
    rcases undone.eq_empty_or_nonempty with hnone | hsome
    case inl =>
      rw [hnone, Finset.card_empty] at hx
      simp only [rootIno] at hroot
      omega
    case inr => exact h.overflow hsome

theorem Inv.takeBack (h : Inv last counted undone s) (hcall : s.calls caller = .failed) :
    Inv last counted (undone.erase caller)
      ({ s with xino := s.xino - 1, given := 0 :: s.given }.goto caller .idle) where
  hcounted := Members.keep (s := { s with xino := s.xino - 1, given := 0 :: s.given }) h.hcounted
    (calls_ne hcall (by decide)) (by decide)
  hundone := Members.erase (s := { s with xino := s.xino - 1, given := 0 :: s.given }) h.hundone
    (by decide)
  lock := lock_goto h.lock (by decide)
  xino := by
    have hmem : caller ∈ undone := (h.hundone caller).mpr hcall
    have hcard := Finset.card_erase_add_one hmem
    have hx := h.xino
    have hlt := s.xino.isLt
    show (s.xino - 1).toNat = _
    bv_omega
  range := h.range
  overflow hne := h.overflow (hne.mono (Finset.erase_subset caller undone))
  given ino hino := by
    rcases List.mem_cons.mp hino with rfl | hino
    case inl => exact Or.inl rfl
    case inr => exact h.given ino hino
  nodup := by
    show ((0 :: s.given).filter (· ≠ 0)).Nodup
    rw [List.filter_cons_of_neg (by simp)]
    exact h.nodup

-- ---------------------------------------------------------------------------
-- Runs
-- ---------------------------------------------------------------------------

/-- A step that meets the condition keeps the invariant. -/
theorem Inv.step {s' : InoSys} (h : Inv last counted undone s) (hundone : s.Undone caller)
    (hstep : s.step caller = some s') :
    ∃ last' counted' undone', Inv last' counted' undone' s' := by
  rcases step_cases hstep with ⟨hcall, hlock, rfl⟩ | ⟨hcall, rfl⟩ | ⟨hcall, hroot, rfl⟩ |
    ⟨hcall, hroot, rfl⟩ | ⟨hcall, rfl⟩
  · exact ⟨_, _, _, h.takeLock hcall hlock⟩
  · exact ⟨_, _, _, h.count hcall⟩
  · exact ⟨_, _, _, h.give hcall hroot hundone⟩
  · exact ⟨_, _, _, h.fail hcall hroot⟩
  · exact ⟨_, _, _, h.takeBack hcall⟩

theorem UndoneSteps.inv {xino : InoT} (h : UndoneSteps (start xino) s) :
    ∃ last counted undone, Inv last counted undone s := by
  induction h with
  | refl => exact ⟨_, _, _, Inv.start xino⟩
  | tail _ hstep ih =>
    obtain ⟨last, counted, undone, hinv⟩ := ih
    obtain ⟨caller, hundone, hcall⟩ := hstep
    exact hinv.step hundone hcall

/-- A caller that reads a number to return while another one did not take its increment back: the
number is returned again as soon as the other one does. -/
theorem again_of_not_undone (h : ¬ s.Undone caller) : ∃ s', s.Steps s' ∧ ¬ s'.Unique := by
  simp only [Undone, Classical.not_imp, not_forall, not_not] at h
  obtain ⟨hcall, hroot, other, hother⟩ := h
  have hne : other ≠ caller := by
    rintro rfl
    rw [hcall] at hother
    cases hother
  let s₁ := { s with lock := none, given := s.xino :: s.given }.goto caller .idle
  let s₂ := { s₁ with xino := s.xino - 1, given := 0 :: s₁.given }.goto other .idle
  let s₃ := { s₂ with lock := some caller }.goto caller .locked
  let s₄ := { s₃ with xino := s.xino - 1 + 1 }.goto caller .counted
  let s₅ := { s₄ with lock := none, given := s₄.xino :: s₄.given }.goto caller .idle
  have hread : s.step caller = some s₁ := step_give hcall hroot
  have hback : s₁.step other = some s₂ := by
    apply step_failed
    rw [goto_of_ne _ _ hne]
    exact hother
  have hlock : s₂.step caller = some s₃ := by
    apply step_idle _ rfl
    rw [goto_of_ne _ _ hne.symm]
    exact goto_self ..
  have hcount : s₃.step caller = some s₄ := step_locked (goto_self ..)
  have hxino : s₄.xino = s.xino := BitVec.sub_add_cancel s.xino 1
  have hagain : s₄.step caller = some s₅ := by
    apply step_give (goto_self ..)
    rw [hxino]
    exact hroot
  refine ⟨s₅, ?_, ?_⟩
  · exact ((((Relation.ReflTransGen.single ⟨_, hread⟩).tail ⟨_, hback⟩).tail ⟨_, hlock⟩).tail
      ⟨_, hcount⟩).tail ⟨_, hagain⟩
  · rintro ⟨hnodup, _⟩
    have hgiven : s₅.given = s.xino :: 0 :: s.xino :: s.given := by
      show s₄.xino :: 0 :: s.xino :: s.given = _
      rw [hxino]
    have hne0 : s.xino ≠ 0 := by
      intro h0
      rw [h0] at hroot
      exact absurd hroot (by decide)
    rw [hgiven, List.filter_cons_of_pos (by simpa using hne0), List.nodup_cons] at hnodup
    apply hnodup.1
    rw [List.mem_filter]
    exact ⟨by simp, by simpa using hne0⟩

/-- Along steps that meet the condition no number is returned twice and none is below the root's,
from any value of the counter. A caller whose next step does not meet it can go on to be given a
number again. -/
theorem xinoNewIno_unique {xino : InoT} {s : InoSys} (h : UndoneSteps (start xino) s) :
    s.Unique ∧ ∀ caller, ¬ s.Undone caller → ∃ s', s.Steps s' ∧ ¬ s'.Unique := by
  obtain ⟨last, counted, undone, hinv⟩ := h.inv
  refine ⟨hinv.unique, ?_⟩
  intro caller hundone
  exact again_of_not_undone hundone

/-- One caller, near the end of the numbers. -/
theorem xinoNewIno_unique_one :
    ∃ s', UndoneSteps (start 18446744073709551614) s' ∧ s'.Unique ∧
      s'.given = [18446744073709551615] := by
  let s₁ := { start 18446744073709551614 with lock := some 0 }.goto 0 .locked
  let s₂ := { s₁ with xino := 18446744073709551615 }.goto 0 .counted
  let s₃ := { s₂ with lock := none, given := [18446744073709551615] }.goto 0 .idle
  have hlock : (start 18446744073709551614).UndoneSteps s₁ := by
    refine .single ⟨0, ?_, rfl⟩
    intro hcall
    cases hcall
  have hcount : (start 18446744073709551614).UndoneSteps s₂ := by
    refine hlock.tail ⟨0, ?_, rfl⟩
    intro hcall
    cases hcall
  have hsteps : (start 18446744073709551614).UndoneSteps s₃ := by
    refine hcount.tail ⟨0, ?_, rfl⟩
    intro _ _ other hother
    rcases other with _ | other
    all_goals cases hother
  exact ⟨s₃, hsteps, (xinoNewIno_unique hsteps).1, rfl⟩

theorem steps_of_run {s s' : InoSys} {callers : List Nat} (h : s.run callers = some s') :
    s.Steps s' := by
  induction callers generalizing s with
  | nil =>
    obtain rfl := Option.some.inj h
    exact .refl
  | cons caller rest ih =>
    simp only [run] at h
    rcases hstep : s.step caller with _ | s₁ <;> simp only [hstep] at h
    case none => cases h
    case some => exact .head ⟨caller, hstep⟩ (ih h)

/-- At the overflow two callers fail and a third one, who comes before they take their increments
back, is given 2. Behind them a caller fails, and the next one is given 2 again. -/
theorem overflow_twice :
    ∃ s', (start 18446744073709551615).run [0, 0, 0, 1, 1, 1, 2, 2, 2, 0, 1, 0, 0, 0, 1, 1, 1] =
      some s' ∧ ¬ s'.Unique :=
  ⟨_, rfl, by decide⟩

/-- A call that nobody comes between does what `xinoNewIno` says. -/
theorem xinoNewIno_alone {w : World} {s : InoSys} {caller : Nat} (hcall : s.calls caller = .idle)
    (hlock : s.lock = none) (hxino : s.xino.toNat = w.lastIno) :
    ∃ s' ino, s.Steps s' ∧ s'.given = ino :: s.given ∧ ino.toNat = (xinoNewIno w).1 ∧
      s'.xino.toNat = (xinoNewIno w).2.lastIno := by
  let s₁ := { s with lock := some caller }.goto caller .locked
  let s₂ := { s₁ with xino := s.xino + 1 }.goto caller .counted
  have hcounted : s₂.calls caller = .counted := goto_self ..
  have hread : s.Steps s₂ :=
    (Relation.ReflTransGen.single ⟨caller, step_idle hcall hlock⟩).tail
      ⟨caller, step_locked (goto_self ..)⟩
  have hnew : (s.xino + 1).toNat = (w.lastIno + 1) % 18446744073709551616 := by
    rw [BitVec.toNat_add, hxino]
    rfl
  have hseq : xinoNewIno w =
      if rootIno ≤ (s.xino + 1).toNat then
        ((s.xino + 1).toNat, { w with lastIno := (s.xino + 1).toNat })
      else (0, w) := by
    rw [hnew]
    rfl
  by_cases hroot : rootIno ≤ (s.xino + 1).toNat
  case pos =>
    rw [hseq, if_pos hroot]
    exact ⟨_, s.xino + 1, hread.tail ⟨caller, step_give hcounted hroot⟩, rfl, rfl, rfl⟩
  case neg =>
    rw [hseq, if_neg hroot]
    have hfail := hread.tail ⟨caller, step_fail hcounted hroot⟩
    refine ⟨_, 0, hfail.tail ⟨caller, step_failed (goto_self ..)⟩, rfl, rfl, ?_⟩
    show (s.xino + 1 - 1).toNat = w.lastIno
    rw [BitVec.add_sub_cancel, hxino]

end InoSys

end Aufs
