-- SUMMARY: Library of packed records: a reader that steps from record to record, what it meets, and how far a change reaches.
import Mathlib.Data.Nat.Basic
import Mathlib.Tactic.Common

/-!
# Packed records

Records of different sizes stand one behind the other in a buffer. A reader says what
stands at a position: a record and the room that it takes, or the end mark. Going from
record to record is a path, and a change behind the end of a path does not touch it.
-/

namespace Records

variable {α : Type*}

-- ---------------------------------------------------------------------------
-- Readers and paths
-- ---------------------------------------------------------------------------

/-- What stands at a position: a record and its size, or nothing at an end mark. -/
abbrev Reader (α : Type*) := Nat → Option (α × Nat)

/-- From one position on these records are met, up to another position. -/
inductive Meets (rd : Reader α) : Nat → List α → Nat → Prop where
  | nil (p : Nat) : Meets rd p [] p
  | cons {p n q : Nat} {a : α} {l : List α} :
    rd p = some (a, n) → Meets rd (p + n) l q → Meets rd p (a :: l) q

/-- The loop that visits all records: what it has visited, and where it stops. -/
def walk (rd : Reader α) : Nat → Nat → Option (List α × Nat)
  | 0, _ => none
  | fuel + 1, p =>
    match rd p with
    | none => some ([], p)
    | some (a, n) => (walk rd fuel (p + n)).map fun r => (a :: r.1, r.2)

variable {rd rd' : Reader α} {p q r k : Nat} {a : α} {l l' : List α}

theorem Meets.append (h : Meets rd p l q) (h' : Meets rd q l' r) : Meets rd p (l ++ l') r := by
  induction h with
  | nil p => exact h'
  | cons hp _ ih => exact .cons hp (ih h')

theorem Meets.single {n : Nat} (h : rd p = some (a, n)) : Meets rd p [a] (p + n) := .cons h (.nil _)

/-- Each record takes `k` at least. -/
def Takes (rd : Reader α) (k : Nat) : Prop := ∀ p a n, rd p = some (a, n) → k ≤ n

theorem Meets.room (h : Meets rd p l q) (hk : Takes rd k) : p + l.length * k ≤ q := by
  induction h with
  | nil p =>
    rw [List.length_nil, Nat.zero_mul]
    exact Nat.le_refl p
  | @cons p n q a l hp _ ih =>
    have hn := hk p a n hp
    rw [List.length_cons, Nat.succ_mul]
    omega

theorem Meets.le (h : Meets rd p l q) : p ≤ q := by
  have hroom := h.room (k := 0) fun _ _ n _ => Nat.zero_le n
  omega

/-- Readers that agree on the records of a path share it. -/
theorem Meets.congr (h : Meets rd p l q)
    (hagree : ∀ x a n, p ≤ x → x + n ≤ q → rd x = some (a, n) → rd' x = some (a, n)) : Meets rd' p l q := by
  induction h with
  | nil p => exact .nil p
  | @cons p n q a l hp hrest ih =>
    refine .cons (hagree p a n (Nat.le_refl p) hrest.le hp) (ih fun x b m hx hm => ?_)
    exact hagree x b m (by omega) hm

-- ---------------------------------------------------------------------------
-- The loop
-- ---------------------------------------------------------------------------

/-- The loop visits the records of a path that ends at an end mark. -/
theorem Meets.walk (h : Meets rd p l q) (hend : rd q = none) {fuel : Nat} (hfuel : l.length < fuel) :
    walk rd fuel p = some (l, q) := by
  induction h generalizing fuel with
  | nil p =>
    obtain ⟨fuel, rfl⟩ : ∃ k, fuel = k + 1 := ⟨fuel - 1, by rw [List.length_nil] at hfuel; omega⟩
    rw [Records.walk, hend]
  | @cons p n q a l hp hrest ih =>
    rw [List.length_cons] at hfuel
    obtain ⟨fuel, rfl⟩ : ∃ k, fuel = k + 1 := ⟨fuel - 1, by omega⟩
    rw [Records.walk, hp]
    dsimp only
    rw [ih hend (by omega)]
    rfl

/-- Where the loop stops there is an end mark, and a path leads there. -/
theorem meets_of_walk {fuel : Nat} (h : walk rd fuel p = some (l, q)) : Meets rd p l q ∧ rd q = none := by
  induction fuel generalizing p l with
  | zero => cases h
  | succ fuel ih =>
    rw [walk] at h
    cases hp : rd p with
    | none =>
      rw [hp] at h
      cases h
      exact ⟨.nil _, hp⟩
    | some e =>
      rw [hp] at h
      obtain ⟨⟨rest, end'⟩, hrest, he⟩ := Option.map_eq_some_iff.mp h
      cases he
      obtain ⟨hmeets, hend⟩ := ih hrest
      exact ⟨.cons hp hmeets, hend⟩

end Records
