-- SUMMARY: Library of counted references that are kept in slots of an array: what the slots own, and dropping it.
import Mathlib.Data.List.Count
import Mathlib.Data.List.GetD
import Mathlib.Data.Int.Order.Basic

/-!
# References in slots

Objects are counted, and an array keeps references to them in its slots. A slot that is
written changes how many references the array owns by its old and its new content.
Dropping the slots of a range drops all of them if nothing is kept outside of it.
-/

namespace RefSlots

variable {κ : Type}

-- ---------------------------------------------------------------------------
-- Slots
-- ---------------------------------------------------------------------------

/-- The content of a slot. Outside of the array there is none. -/
def get (s : List (Option κ)) (i : Nat) : Option κ := s.getD i none

/-- Nothing is kept outside of a range of slots. -/
def Within (lo hi : Nat) (s : List (Option κ)) : Prop := ∀ i, get s i ≠ none → lo ≤ i ∧ i ≤ hi

variable {s : List (Option κ)} {x y : Option κ} {i j lo hi : Nat} {k : κ}

theorem get_eq_getElem (h : i < s.length) : get s i = s[i] := List.getD_eq_getElem s none h

theorem lt_of_get (h : get s i ≠ none) : i < s.length := by
  rcases Nat.lt_or_ge i s.length with hlt | hge
  · exact hlt
  · exact absurd (List.getD_eq_default s none hge) h

theorem get_set_self (h : i < s.length) : get (s.set i x) i = x := by
  rw [get_eq_getElem (by rwa [List.length_set]), List.getElem_set_self]

theorem get_set_ne (h : i ≠ j) : get (s.set i x) j = get s j := by
  rw [get, get, List.getD_eq_getElem?_getD, List.getD_eq_getElem?_getD, List.getElem?_set_ne h]

/-- A slot that is given its own content. -/
theorem set_get : s.set i (get s i) = s := by
  rcases Nat.lt_or_ge i s.length with hlt | hge
  · rw [get_eq_getElem hlt, List.set_getElem_self]
  · exact List.set_eq_of_length_le hge

/-- Two slots that are overwritten and given their old content again. -/
theorem set_restore : ((((s.set i x).set j y).set j (get s j)).set i (get s i)) = s := by
  rw [List.set_set]
  by_cases hij : i = j
  · rw [hij, List.set_set, List.set_set, set_get]
  · rw [List.set_comm _ _ hij, set_get, List.set_set, set_get]

-- ---------------------------------------------------------------------------
-- Counts
-- ---------------------------------------------------------------------------

variable [DecidableEq κ]

/-- One reference to `k`, if `x` is it. -/
def one (x : Option κ) (k : κ) : Int := if x = some k then 1 else 0

/-- How many slots hold a reference to `k`. -/
def held (s : List (Option κ)) (k : κ) : Int := s.count (some k)

/-- The counts after a reference was taken. -/
def dget (x : Option κ) (cnt : κ → Int) : κ → Int := fun k => cnt k + one x k

/-- The counts after a reference was dropped. -/
def dput (x : Option κ) (cnt : κ → Int) : κ → Int := fun k => cnt k - one x k

/-- The counts after references to all of these were taken. -/
def dgets : List (Option κ) → (κ → Int) → κ → Int
  | [], cnt => cnt
  | x :: s, cnt => dgets s (dget x cnt)

/-- The counts after the references of all these slots were dropped. -/
def dputs : List (Option κ) → (κ → Int) → κ → Int
  | [], cnt => cnt
  | x :: s, cnt => dputs s (dput x cnt)

@[simp] theorem one_none : one none k = 0 := rfl

@[simp] theorem one_some_self : one (some k) k = 1 := if_pos rfl

/-- Contents that give a reference to the same objects are the same. -/
theorem eq_of_one (h : ∀ k, one x k = one y k) : x = y := by
  cases x with
  | some a =>
      have ha := h a
      rw [one_some_self, one] at ha
      split at ha
      case isTrue hy => exact hy.symm
      case isFalse => cases ha
  | none =>
      cases y with
      | none => rfl
      | some b =>
          have hb := h b
          rw [one_some_self] at hb
          cases hb

/-- Writing a slot gives its old content away for the new one. -/
theorem held_set (h : i < s.length) : held (s.set i x) k = held s k - one (get s i) k + one x k := by
  have hmem : get s i = some k → 1 ≤ s.count (some k) := by
    intro heq
    rw [get_eq_getElem h] at heq
    exact List.one_le_count_iff.mpr (heq ▸ List.getElem_mem h)
  rw [held, held, List.count_set h, ← get_eq_getElem h, one, one]
  simp only [beq_iff_eq]
  by_cases hk : get s i = some k
  · have hle := hmem hk
    rw [if_pos hk, if_pos hk]
    split <;> omega
  · rw [if_neg hk, if_neg hk]
    split <;> omega

-- ---------------------------------------------------------------------------
-- All slots
-- ---------------------------------------------------------------------------

theorem dputs_apply (s : List (Option κ)) (cnt : κ → Int) (k : κ) : dputs s cnt k = cnt k - held s k := by
  induction s generalizing cnt with
  | nil => simp [dputs, held]
  | cons x s ih =>
      rw [dputs, ih, dput, held, held, one, List.count_cons]
      simp only [beq_iff_eq]
      split <;> omega

theorem dgets_apply (s : List (Option κ)) (cnt : κ → Int) (k : κ) : dgets s cnt k = cnt k + held s k := by
  induction s generalizing cnt with
  | nil => simp [dgets, held]
  | cons x s ih =>
      rw [dgets, ih, dget, held, held, one, List.count_cons]
      simp only [beq_iff_eq]
      split <;> omega

theorem held_eq_zero (h : ∀ i, get s i = none) : held s k = 0 := by
  have hmem : some k ∉ s := by
    intro hmem
    obtain ⟨i, hi, hk⟩ := List.getElem_of_mem hmem
    rw [← get_eq_getElem hi, h i] at hk
    cases hk
  rw [held, List.count_eq_zero_of_not_mem hmem]
  rfl

/-- A range that everything is kept in holds everything. -/
theorem held_within (h : Within lo hi s) : held ((s.drop lo).take (hi + 1 - lo)) k = held s k := by
  have hlow : held (s.take lo) k = 0 := by
    refine held_eq_zero fun i => ?_
    by_contra hne
    have hi := lt_of_get hne
    rw [get_eq_getElem hi, List.getElem_take, ← get_eq_getElem] at hne
    rw [List.length_take] at hi
    have hwithin := h i hne
    omega
  have hhigh : held ((s.drop lo).drop (hi + 1 - lo)) k = 0 := by
    refine held_eq_zero fun i => ?_
    by_contra hne
    have hi := lt_of_get hne
    rw [get_eq_getElem hi, List.getElem_drop, List.getElem_drop, ← get_eq_getElem] at hne
    have hwithin := h _ hne
    omega
  have hrest : held (s.drop lo) k = held ((s.drop lo).take (hi + 1 - lo)) k := by
    conv_lhs => rw [← List.take_append_drop (hi + 1 - lo) (s.drop lo)]
    rw [held, List.count_append, Int.natCast_add]
    exact (congrArg (_ + ·) hhigh).trans (Int.add_zero _)
  have hall : held s k = held (s.drop lo) k := by
    conv_lhs => rw [← List.take_append_drop lo s]
    rw [held, List.count_append, Int.natCast_add]
    exact (congrArg (· + _) hlow).trans (Int.zero_add _)
  rw [hall, hrest]

end RefSlots
