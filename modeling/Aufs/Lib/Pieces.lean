-- SUMMARY: A list read in pieces: what reads one behind the other deliver together, and when the end is reached.
import Mathlib.Algebra.BigOperators.Group.List.Basic
import Mathlib.Algebra.Order.Ring.Nat

/-!
# Reading in pieces

A read at a position delivers as much as is asked for and there. Reads that each start
where the one before ended deliver the list once.
-/

namespace Aufs.Pieces

variable {α : Type*}

/-- What a read of at most `n` at `pos` delivers. -/
def slice (l : List α) (pos n : Nat) : List α := (l.drop pos).take n

/-- What reads of these sizes deliver, one behind the other. -/
def pieces (l : List α) : Nat → List Nat → List (List α)
  | _, [] => []
  | pos, n :: ns => slice l pos n :: pieces l (pos + (slice l pos n).length) ns

/-- Where the reads end. -/
def endPos (l : List α) : Nat → List Nat → Nat
  | pos, [] => pos
  | pos, n :: ns => endPos l (pos + (slice l pos n).length) ns

variable {l : List α} {pos : Nat}

theorem length_slice (n : Nat) : (slice l pos n).length = min n (l.length - pos) := by
  rw [slice, List.length_take, List.length_drop]

theorem slice_of_le {n : Nat} (h : l.length ≤ pos) : slice l pos n = [] := by
  rw [slice, List.drop_eq_nil_of_le h, List.take_nil]

/-- A read leaves the position inside the list. -/
theorem slice_end_le (h : pos ≤ l.length) (n : Nat) : pos + (slice l pos n).length ≤ l.length := by
  rw [length_slice]
  omega

theorem slice_append (l : List α) (pos n k : Nat) :
    slice l pos n ++ slice l (pos + (slice l pos n).length) k = slice l pos (n + k) := by
  have hdrop : (l.drop pos).drop (slice l pos n).length = (l.drop pos).drop n := by
    rw [length_slice]
    rcases le_total n (l.length - pos) with hn | hn
    · rw [min_eq_left hn]
    · rw [min_eq_right hn, List.drop_drop, List.drop_drop, List.drop_eq_nil_of_le (by omega),
        List.drop_eq_nil_of_le (by omega)]
  have hnext : slice l (pos + (slice l pos n).length) k = ((l.drop pos).drop n).take k := by
    rw [← hdrop, List.drop_drop]
    rfl
  rw [hnext, slice, slice, List.take_add]

/-- Together the reads deliver what one read of their sum delivers. -/
theorem flatten_pieces (ns : List Nat) : (pieces l pos ns).flatten = slice l pos ns.sum := by
  induction ns generalizing pos with
  | nil => exact (List.take_zero).symm
  | cons n ns ih =>
    rw [pieces, List.flatten_cons, ih, List.sum_cons]
    exact slice_append l pos n ns.sum

/-- A further read starts at the end of the others. -/
theorem pieces_append (ns : List Nat) (n : Nat) :
    pieces l pos (ns ++ [n]) = pieces l pos ns ++ [slice l (endPos l pos ns) n] := by
  induction ns generalizing pos with
  | nil => rfl
  | cons m ns ih =>
    rw [List.cons_append, pieces, ih, pieces, endPos, List.cons_append]

theorem endPos_eq (ns : List Nat) : endPos l pos ns = pos + (slice l pos ns.sum).length := by
  induction ns generalizing pos with
  | nil =>
    rw [endPos, List.sum_nil, length_slice]
    omega
  | cons n ns ih =>
    rw [endPos, ih, List.sum_cons, ← slice_append l pos n ns.sum, List.length_append]
    omega

end Aufs.Pieces
