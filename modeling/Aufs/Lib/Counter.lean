-- SUMMARY: Library of wrapping counters: counting on until an unused value comes up, and why that ends.
import Mathlib.Data.Finset.Card

/-!
# Counters that wrap

A counter is stepped until its value is free. It ends as soon as the counter runs through
more values than are taken.
-/

namespace Counter

variable {α : Type _}

/-- Step the counter until `free` holds of its value, for at most `fuel` steps. -/
def search (next : α → α) (free : α → Bool) : Nat → α → Option α
  | 0, _ => none
  | fuel + 1, a => if free (next a) then some (next a) else search next free fuel (next a)

variable {next : α → α} {free : α → Bool}

theorem free_of_search {fuel : Nat} {a b : α} (h : search next free fuel a = some b) :
    free b = true := by
  induction fuel generalizing a with
  | zero => cases h
  | succ fuel ih =>
    simp only [search] at h
    split at h
    case isTrue hfree =>
      obtain rfl := Option.some.inj h
      exact hfree
    case isFalse => exact ih h

/-- A search that does not end has met only values that are taken. -/
theorem taken_of_search {fuel : Nat} {a : α} (h : search next free fuel a = none) {k : Nat}
    (hk : k < fuel) : free (next^[k + 1] a) = false := by
  induction fuel generalizing a k with
  | zero => omega
  | succ fuel ih =>
    simp only [search] at h
    split at h
    case isTrue => cases h
    case isFalse hfree =>
      cases k with
      | zero => exact Bool.eq_false_iff.mpr hfree
      | succ k =>
        rw [Function.iterate_succ_apply]
        exact ih h (by omega)

/-- The search ends when fewer values are taken than the counter runs through. -/
theorem search_isSome [DecidableEq α] {fuel : Nat} {a : α} (taken : List α)
    (hfree : ∀ b, free b = false → b ∈ taken) (hlen : taken.length < fuel)
    (hinj : ∀ i < fuel, ∀ j < fuel, next^[i + 1] a = next^[j + 1] a → i = j) :
    ∃ b, search next free fuel a = some b := by
  rw [← Option.isSome_iff_exists, Option.isSome_iff_ne_none]
  intro hnone
  have hcard : (taken.toFinset).card < (Finset.range fuel).card := by
    rw [Finset.card_range]
    exact Nat.lt_of_le_of_lt (List.toFinset_card_le taken) hlen
  obtain ⟨i, hi, j, hj, hne, heq⟩ := Finset.exists_ne_map_eq_of_card_lt_of_maps_to hcard
    (f := fun k => next^[k + 1] a) (fun k hk =>
      List.mem_toFinset.mpr (hfree _ (taken_of_search hnone (Finset.mem_range.mp hk))))
  exact hne (hinj i (Finset.mem_range.mp hi) j (Finset.mem_range.mp hj) heq)

end Counter
