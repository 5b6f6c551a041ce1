-- SUMMARY: Library of allocated arrays: a used part in front, spare cells behind it, gaps opened and closed by moving cells.
import Mathlib.Data.List.InsertIdx

/-!
# Arrays with spare cells

An array is the list of its allocated cells; how many of them are in use is known
elsewhere. Moving the cells behind an index one up and filling the gap inserts into the
used part, moving them one down erases from it, and growing the array keeps it.
-/

namespace Cells

variable {α : Type _}

/-- Copy `n` cells from `src` to `dst`. The ranges may overlap. -/
def memmove (l : List α) (dst src n : Nat) : List α :=
  l.take dst ++ (l.drop src).take n ++ l.drop (dst + n)

/-- Make room for `newSz` cells, of which the first `nused` keep their content and the
others are cleared. Only an array that is too small is allocated anew, which may fail. -/
def kzrealloc (alloc : Bool) (zero : α) (l : List α) (nused newSz : Nat) : Option (List α) :=
  if newSz ≤ nused then some l
  else if newSz ≤ l.length then
    some (l.take nused ++ List.replicate (newSz - nused) zero ++ l.drop newSz)
  else if alloc then some (l.take nused ++ List.replicate (newSz - nused) zero)
  else none

-- ---------------------------------------------------------------------------
-- Growing
-- ---------------------------------------------------------------------------

/-- The used part survives. -/
theorem take_kzrealloc {alloc : Bool} {zero : α} {l l' : List α} {nused newSz n : Nat}
    (hn : n ≤ nused) (hused : nused ≤ l.length) (h : kzrealloc alloc zero l nused newSz = some l') :
    l'.take n = l.take n := by
  have hle : n ≤ (l.take nused).length := by
    rw [List.length_take]
    omega
  simp only [kzrealloc] at h
  split at h
  case isTrue =>
    obtain rfl := Option.some.inj h
    rfl
  case isFalse =>
    split at h
    case isTrue =>
      obtain rfl := Option.some.inj h
      rw [List.append_assoc, List.take_append_of_le_length hle, List.take_take, Nat.min_eq_left hn]
    case isFalse =>
      split at h
      case isTrue =>
        obtain rfl := Option.some.inj h
        rw [List.take_append_of_le_length hle, List.take_take, Nat.min_eq_left hn]
      case isFalse => cases h

/-- There is room afterwards. -/
theorem length_kzrealloc {alloc : Bool} {zero : α} {l l' : List α} {nused newSz : Nat}
    (hused : nused ≤ l.length) (h : kzrealloc alloc zero l nused newSz = some l') :
    newSz ≤ l'.length := by
  simp only [kzrealloc] at h
  split at h
  case isTrue =>
    obtain rfl := Option.some.inj h
    omega
  case isFalse =>
    split at h
    case isTrue =>
      obtain rfl := Option.some.inj h
      simp only [List.length_append, List.length_take, List.length_replicate, List.length_drop]
      omega
    case isFalse =>
      split at h
      case isTrue =>
        obtain rfl := Option.some.inj h
        simp only [List.length_append, List.length_take, List.length_replicate]
        omega
      case isFalse => cases h

/-- The cells behind the used part are cleared. -/
theorem kzrealloc_append {alloc : Bool} {zero : α} {used rest l : List α} {newSz : Nat}
    (h : kzrealloc alloc zero (used ++ rest) used.length newSz = some l) :
    ∃ rest', l = used ++ List.replicate (newSz - used.length) zero ++ rest' := by
  have htake : (used ++ rest).take used.length = used := List.take_left
  simp only [kzrealloc, htake] at h
  split at h
  case isTrue hsame =>
    obtain rfl := Option.some.inj h
    rw [Nat.sub_eq_zero_of_le hsame, List.replicate_zero, List.append_nil]
    exact ⟨rest, rfl⟩
  case isFalse =>
    split at h
    case isTrue =>
      obtain rfl := Option.some.inj h
      exact ⟨_, rfl⟩
    case isFalse =>
      split at h
      case isTrue =>
        obtain rfl := Option.some.inj h
        exact ⟨[], (List.append_nil _).symm⟩
      case isFalse => cases h

/-- Without an allocation there is nothing to fail. -/
theorem kzrealloc_eq_none {alloc : Bool} {zero : α} {l : List α} {nused newSz : Nat} :
    kzrealloc alloc zero l nused newSz = none ↔
      alloc = false ∧ nused < newSz ∧ l.length < newSz := by
  simp only [kzrealloc]
  split
  case isTrue =>
    simp only [reduceCtorEq, false_iff]
    omega
  case isFalse =>
    split
    case isTrue =>
      simp only [reduceCtorEq, false_iff]
      omega
    case isFalse =>
      cases alloc
      · simp only [Bool.false_eq_true, if_false, true_and, true_iff]
        omega
      · simp only [if_true, reduceCtorEq, false_and]

-- ---------------------------------------------------------------------------
-- Moving
-- ---------------------------------------------------------------------------

theorem length_memmove {l : List α} {dst src n : Nat} (hdst : dst + n ≤ l.length)
    (hsrc : src + n ≤ l.length) : (memmove l dst src n).length = l.length := by
  simp only [memmove, List.length_append, List.length_take, List.length_drop]
  omega

/-- A cell in the target range has the content of its source, any other cell its own. -/
theorem getElem?_memmove {l : List α} {dst src n : Nat} (hdst : dst + n ≤ l.length)
    (hsrc : src + n ≤ l.length) (j : Nat) :
    (memmove l dst src n)[j]? = if dst ≤ j ∧ j < dst + n then l[src + (j - dst)]? else l[j]? := by
  have hfst : (l.take dst).length = dst := by
    rw [List.length_take]
    omega
  have hsnd : ((l.drop src).take n).length = n := by
    rw [List.length_take, List.length_drop]
    omega
  rw [memmove, List.append_assoc, List.getElem?_append, hfst]
  by_cases hlt : j < dst
  · rw [if_pos hlt, if_neg (by omega), List.getElem?_take, if_pos hlt]
  · rw [if_neg hlt, List.getElem?_append, hsnd]
    by_cases hin : j < dst + n
    · rw [if_pos (by omega), if_pos ⟨by omega, hin⟩, List.getElem?_take, if_pos (by omega),
        List.getElem?_drop]
    · rw [if_neg (by omega), if_neg (by omega), List.getElem?_drop]
      congr 1
      omega

/-- Opening a gap in the first `n` cells and filling it inserts into them. -/
theorem take_set_memmove_up {l : List α} {i n : Nat} (x : α) (hi : i ≤ n) (hn : n < l.length) :
    ((memmove l (i + 1) i (n - i)).set i x).take (n + 1) = (l.take n).insertIdx i x := by
  have hlen : (l.take n).length = n := by
    rw [List.length_take]
    omega
  have hmove := @length_memmove _ l (i + 1) i (n - i) (by omega) (by omega)
  apply List.ext_getElem?
  intro j
  rw [List.getElem?_take, List.getElem?_set, hmove, List.getElem?_insertIdx, hlen,
    getElem?_memmove (by omega) (by omega)]
  by_cases hji : j = i
  · subst hji
    rw [if_pos (by omega), if_pos rfl, if_pos (by omega), if_neg (by omega), if_pos rfl, if_pos hi]
  · rw [if_neg (Ne.symm hji)]
    by_cases hlt : j < i
    · rw [if_pos (by omega), if_neg (by omega), if_pos hlt, List.getElem?_take, if_pos (by omega)]
    · rw [if_neg hlt, if_neg hji, List.getElem?_take]
      by_cases hjn : j < n + 1
      · rw [if_pos hjn, if_pos (by omega), if_pos (by omega)]
        congr 1
        omega
      · rw [if_neg hjn, if_neg (by omega)]

/-- Closing the gap at one of the first `n` cells erases it. -/
theorem take_memmove_down {l : List α} {i n : Nat} (hi : i < n) (hn : n ≤ l.length) :
    (memmove l i (i + 1) (n - 1 - i)).take (n - 1) = (l.take n).eraseIdx i := by
  apply List.ext_getElem?
  intro j
  rw [List.getElem?_take, getElem?_memmove (by omega) (by omega), List.getElem?_eraseIdx]
  by_cases hlt : j < i
  · rw [if_pos (by omega), if_neg (by omega), if_pos hlt, List.getElem?_take, if_pos (by omega)]
  · rw [if_neg hlt, List.getElem?_take]
    by_cases hjn : j < n - 1
    · rw [if_pos hjn, if_pos (by omega), if_pos (by omega)]
      congr 1
      omega
    · rw [if_neg hjn, if_neg (by omega)]

end Cells
