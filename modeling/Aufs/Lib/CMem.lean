-- SUMMARY: Library of byte memories: bytes at addresses, stores and loads, and strings that end with a zero.
import Mathlib.Data.List.GetD
import Mathlib.Data.Int.Order.Basic

/-!
# Byte memories

A memory gives a byte at every address. `Holds` says which bytes stand at an address; a
store leaves alone what it does not meet. A string at an address ends before the first
zero byte, and there is one string at most.
-/

namespace CMem

/-- The bytes at all addresses. -/
abbrev Mem := Int → UInt8

variable {m : Mem} {i j : Int} {l s t : List UInt8}

-- ---------------------------------------------------------------------------
-- Bytes
-- ---------------------------------------------------------------------------

/-- `n` bytes from an address on. -/
def load (m : Mem) (i : Int) (n : Nat) : List UInt8 := (List.range n).map fun k : Nat => m (i + k)

/-- Bytes put at an address. -/
def store (m : Mem) (i : Int) (l : List UInt8) : Mem := fun j =>
  if i ≤ j ∧ j < i + l.length then l.getD (j - i).toNat 0 else m j

/-- These bytes stand at an address. -/
def Holds (m : Mem) (i : Int) (l : List UInt8) : Prop := ∀ k (h : k < l.length), m (i + k) = l[k]

@[simp] theorem length_load (m : Mem) (i : Int) (n : Nat) : (load m i n).length = n := by
  rw [load, List.length_map, List.length_range]

theorem holds_load (m : Mem) (i : Int) (n : Nat) : Holds m i (load m i n) := by
  intro k hk
  simp only [load, List.getElem_map, List.getElem_range]

theorem Holds.load (h : Holds m i l) : load m i l.length = l := by
  apply List.ext_getElem
  · exact length_load m i l.length
  · intro k _ hk
    simp only [CMem.load, List.getElem_map, List.getElem_range]
    exact h k hk

@[simp] theorem holds_nil (m : Mem) (i : Int) : Holds m i [] := fun _ h => absurd h (Nat.not_lt_zero _)

theorem holds_cons {b : UInt8} : Holds m i (b :: l) ↔ m i = b ∧ Holds m (i + 1) l := by
  constructor
  · intro h
    have h₀ := h 0 (Nat.zero_lt_succ _)
    rw [List.getElem_cons_zero, Int.natCast_zero, Int.add_zero] at h₀
    refine ⟨h₀, fun k hk => ?_⟩
    have := h (k + 1) (by simpa using hk)
    rw [List.getElem_cons_succ] at this
    rw [← this]
    congr 1
    omega
  · rintro ⟨hb, h⟩ k hk
    cases k with
    | zero => rwa [List.getElem_cons_zero, Int.natCast_zero, Int.add_zero]
    | succ k =>
      rw [List.getElem_cons_succ, ← h k (by simpa using hk)]
      congr 1
      omega

theorem holds_append : Holds m i (s ++ t) ↔ Holds m i s ∧ Holds m (i + s.length) t := by
  induction s generalizing i with
  | nil => simp
  | cons b s ih =>
    rw [List.cons_append, holds_cons, holds_cons, ih, and_assoc, List.length_cons]
    have : i + 1 + s.length = i + ((s.length + 1 : Nat) : Int) := by omega
    rw [this]

theorem holds_store (m : Mem) (i : Int) (l : List UInt8) : Holds (store m i l) i l := by
  intro k hk
  rw [store, if_pos ⟨by omega, by omega⟩]
  have : (i + k - i).toNat = k := by omega
  rw [this, List.getD_eq_getElem?_getD, List.getElem?_eq_getElem hk, Option.getD_some]

/-- A store leaves alone what stands before or behind it. -/
theorem Holds.store (h : Holds m j s) (hd : i + l.length ≤ j ∨ j + s.length ≤ i) :
    Holds (store m i l) j s := by
  intro k hk
  rw [CMem.store, if_neg (by omega)]
  exact h k hk

theorem Holds.eq (hs : Holds m i s) (ht : Holds m i t) (h : s.length = t.length) : s = t := by
  rw [← hs.load, ← ht.load, h]

@[simp] theorem store_nil (m : Mem) (i : Int) : store m i [] = m := by
  funext j
  rw [store, if_neg]
  rw [List.length_nil]
  omega

/-- Two stores in a row are one store. -/
theorem store_append (m : Mem) (i : Int) (s t : List UInt8) :
    store (store m i s) (i + s.length) t = store m i (s ++ t) := by
  funext j
  simp only [store, List.length_append]
  by_cases ht : i + s.length ≤ j ∧ j < i + s.length + t.length
  · rw [if_pos ht, if_pos (by omega), List.getD_append_right _ _ _ _ (by omega)]
    congr 1
    omega
  · rw [if_neg ht]
    by_cases hs : i ≤ j ∧ j < i + s.length
    · rw [if_pos hs, if_pos (by omega), List.getD_append _ _ _ _ (by omega)]
    · rw [if_neg hs, if_neg (by omega)]

/-- The bytes of a range are those of its two parts. -/
theorem load_add (m : Mem) (i : Int) (n k : Nat) : load m i (n + k) = load m i n ++ load m (i + n) k := by
  simp only [load, List.range_add, List.map_append, List.map_map]
  congr 1
  apply List.map_congr_left
  intro j _
  show m (i + ((n + j : Nat) : Int)) = m (i + n + j)
  congr 1
  omega

theorem take_load (m : Mem) (i : Int) (n k : Nat) : (load m i n).take k = load m i (min k n) := by
  rw [load, load, ← List.map_take, List.take_range]

/-- What stands within. -/
theorem Holds.drop (h : Holds m i l) {n : Nat} (hn : n ≤ l.length) : Holds m (i + n) (l.drop n) := by
  rw [← List.take_append_drop n l, holds_append] at h
  rw [List.length_take, Nat.min_eq_left hn] at h
  exact h.2

-- ---------------------------------------------------------------------------
-- Strings
-- ---------------------------------------------------------------------------

/-- A string stands at an address: its bytes are no zeros, and a zero follows. -/
def IsStr (m : Mem) (i : Int) (s : List UInt8) : Prop := Holds m i (s ++ [0]) ∧ 0 ∉ s

/-- The length of the string at an address, if that is below the fuel. -/
def strlen : Nat → Mem → Int → Nat
  | 0, _, _ => 0
  | fuel + 1, m, i => if m i = 0 then 0 else strlen fuel m (i + 1) + 1

theorem IsStr.strlen {fuel : Nat} (h : IsStr m i s) (hf : s.length < fuel) : strlen fuel m i = s.length := by
  obtain ⟨hh, h0⟩ := h
  induction s generalizing i fuel with
  | nil =>
    obtain ⟨fuel, rfl⟩ : ∃ k, fuel = k + 1 := ⟨fuel - 1, by simp at hf; omega⟩
    rw [CMem.strlen, if_pos (holds_cons.mp hh).1, List.length_nil]
  | cons b s ih =>
    obtain ⟨fuel, rfl⟩ : ∃ k, fuel = k + 1 := ⟨fuel - 1, by omega⟩
    obtain ⟨hb, hh⟩ := holds_cons.mp hh
    rw [List.mem_cons, not_or] at h0
    obtain ⟨hb0, h0⟩ := h0
    rw [CMem.strlen, hb, if_neg (Ne.symm hb0), ih (by simpa using hf) hh h0, List.length_cons]

/-- There is one string at an address. -/
theorem IsStr.unique (hs : IsStr m i s) (ht : IsStr m i t) : s = t := by
  have hlen : ∀ {s t : List UInt8}, IsStr m i s → IsStr m i t → s.length ≤ t.length := by
    intro s t hs ht
    by_contra hlt
    have h₁ := hs.1 t.length (by rw [List.length_append]; omega)
    have h₂ := ht.1 t.length (by simp)
    rw [List.getElem_append_left (by omega)] at h₁
    rw [List.getElem_append_right (Nat.le_refl _)] at h₂
    simp only [Nat.sub_self, List.getElem_cons_zero] at h₂
    exact hs.2 (h₂ ▸ h₁ ▸ List.getElem_mem _)
  exact (holds_append.mp hs.1).1.eq (holds_append.mp ht.1).1 (Nat.le_antisymm (hlen hs ht) (hlen ht hs))

/-- Of bytes before a zero, the string is what stands before the first zero. -/
theorem isStr_takeWhile (h : Holds m i (l ++ [0])) : IsStr m i (l.takeWhile (· ≠ 0)) := by
  induction l generalizing i with
  | nil => exact ⟨h, List.not_mem_nil⟩
  | cons b l ih =>
    obtain ⟨hb, hl⟩ := holds_cons.mp h
    by_cases hz : b = 0
    · rw [List.takeWhile_cons_of_neg (by simpa using hz)]
      exact ⟨holds_cons.mpr ⟨hb.trans hz, holds_nil _ _⟩, List.not_mem_nil⟩
    · rw [List.takeWhile_cons_of_pos (by simpa using hz)]
      obtain ⟨ih₁, ih₂⟩ := ih hl
      exact ⟨holds_cons.mpr ⟨hb, ih₁⟩, by rw [List.mem_cons, not_or]; exact ⟨Ne.symm hz, ih₂⟩⟩

/-- A string behind bytes that are no zeros. -/
theorem isStr_append (hs : 0 ∉ s) : IsStr m i (s ++ t) ↔ Holds m i s ∧ IsStr m (i + s.length) t := by
  unfold IsStr
  rw [List.append_assoc, holds_append, List.mem_append, not_or]
  exact ⟨fun ⟨⟨h₁, h₂⟩, _, h₃⟩ => ⟨h₁, h₂, h₃⟩, fun ⟨h₁, h₂, h₃⟩ => ⟨⟨h₁, h₂⟩, hs, h₃⟩⟩

end CMem
