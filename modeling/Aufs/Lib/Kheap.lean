-- SUMMARY: Library of heaps: cells that are allocated, written and freed by address, and a mark for every wrong access.
import Mathlib.Logic.Function.Basic
import Mathlib.Tactic.Common

/-!
# Heaps

A heap gives the content of every allocated cell. An address that was given out is not
given out again, so that a cell that is freed twice, or written after it was freed, is
seen: the heap is marked for ever. What is done at one address leaves the others alone.
-/

/-- The cells of a heap. No address from `next` on was given out; `bad` is set by a wrong access. -/
structure Kheap (α : Type) where
  cell : Nat → Option α
  next : Nat
  bad : Bool
  fresh : ∀ a, next ≤ a → cell a = none

namespace Kheap

variable {α : Type}

/-- The address of the next allocation, and the heap after it. -/
def kmalloc (h : Kheap α) (x : α) : Nat × Kheap α :=
  (h.next,
    { cell := Function.update h.cell h.next (some x)
      next := h.next + 1
      bad := h.bad
      fresh := fun a ha => by
        rw [Function.update_of_ne (Nat.ne_of_gt ha)]
        exact h.fresh a (Nat.le_of_succ_le ha) })

/-- Free a cell. -/
def release (h : Kheap α) (a : Nat) : Kheap α :=
  { cell := Function.update h.cell a none
    next := h.next
    bad := h.bad || (h.cell a).isNone
    fresh := fun b hb => by
      by_cases hba : b = a
      · rw [hba, Function.update_self]
      · rw [Function.update_of_ne hba]
        exact h.fresh b hb }

/-- Free what a pointer points at. The null pointer points at nothing. -/
def kfree (h : Kheap α) : Option Nat → Kheap α
  | none => h
  | some a => h.release a

/-- Write a cell that is allocated. -/
def store (h : Kheap α) (a : Nat) (x : α) : Kheap α :=
  if ha : (h.cell a).isSome then
    { cell := Function.update h.cell a (some x)
      next := h.next
      bad := h.bad
      fresh := fun b hb => by
        by_cases hba : b = a
        · rw [← hba, h.fresh b hb] at ha
          cases ha
        · rw [Function.update_of_ne hba]
          exact h.fresh b hb }
  else { h with bad := true }

/-- A heap with one more mark. -/
def fault (h : Kheap α) : Kheap α := { h with bad := true }

variable {h : Kheap α} {a b : Nat} {x y : α}

-- ---------------------------------------------------------------------------
-- Allocation
-- ---------------------------------------------------------------------------

theorem lt_next (ha : h.cell a = some x) : a < h.next := by
  refine Nat.lt_of_not_le fun hle => ?_
  cases (h.fresh a hle).symm.trans ha

@[simp] theorem kmalloc_fst (h : Kheap α) (x : α) : (h.kmalloc x).1 = h.next := rfl

@[simp] theorem kmalloc_next (h : Kheap α) (x : α) : (h.kmalloc x).2.next = h.next + 1 := rfl

@[simp] theorem kmalloc_bad (h : Kheap α) (x : α) : (h.kmalloc x).2.bad = h.bad := rfl

@[simp] theorem kmalloc_cell_new (h : Kheap α) (x : α) : (h.kmalloc x).2.cell h.next = some x :=
  Function.update_self ..

theorem kmalloc_cell_of_ne (hb : b ≠ h.next) : (h.kmalloc x).2.cell b = h.cell b := Function.update_of_ne hb ..

/-- What was allocated before is as it was. -/
theorem kmalloc_cell_old (hb : h.cell b = some y) : (h.kmalloc x).2.cell b = some y := by
  rw [kmalloc_cell_of_ne (Nat.ne_of_lt (lt_next hb)), hb]

-- ---------------------------------------------------------------------------
-- Freeing
-- ---------------------------------------------------------------------------

@[simp] theorem release_cell_self (h : Kheap α) (a : Nat) : (h.release a).cell a = none := Function.update_self ..

theorem release_cell_of_ne (hb : b ≠ a) : (h.release a).cell b = h.cell b := Function.update_of_ne hb ..

@[simp] theorem release_next (h : Kheap α) (a : Nat) : (h.release a).next = h.next := rfl

/-- A cell that is allocated may be freed. -/
theorem release_bad (ha : h.cell a = some x) : (h.release a).bad = h.bad := by
  show (h.bad || (h.cell a).isNone) = h.bad
  rw [ha]
  exact Bool.or_false _

@[simp] theorem kfree_none (h : Kheap α) : h.kfree none = h := rfl

@[simp] theorem kfree_some (h : Kheap α) (a : Nat) : h.kfree (some a) = h.release a := rfl

-- ---------------------------------------------------------------------------
-- Writing
-- ---------------------------------------------------------------------------

theorem store_cell_self (ha : h.cell a = some y) : (h.store a x).cell a = some x := by
  rw [store, dif_pos (by rw [ha]; rfl)]
  exact Function.update_self ..

theorem store_cell_of_ne (hb : b ≠ a) : (h.store a x).cell b = h.cell b := by
  unfold store
  split
  · exact Function.update_of_ne hb ..
  · rfl

theorem store_bad (ha : h.cell a = some y) : (h.store a x).bad = h.bad := by
  rw [store, dif_pos (by rw [ha]; rfl)]

@[simp] theorem store_next (h : Kheap α) (a : Nat) (x : α) : (h.store a x).next = h.next := by
  unfold store
  split
  · rfl
  · rfl

end Kheap
