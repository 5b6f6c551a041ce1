-- SUMMARY: Library of ordered forests: their elements with the ancestors of each, and lists in which the ancestors come first.
import Mathlib.Data.List.Nodup
import Mathlib.Data.List.Count

/-!
# Forests

A forest is its first tree, which is an element with a forest below it, and the rest.
`placed` gives every element with its ancestors. `Follows` says of a list that every
element comes after what it needs.
-/

/-- An ordered forest. -/
inductive Forest (α : Type) where
  | nil
  | cons (a : α) (below rest : Forest α)
  deriving DecidableEq, Repr

namespace Forest

variable {α : Type}

/-- Is there no tree? -/
def isNil : Forest α → Bool
  | nil => true
  | cons _ _ _ => false

/-- The elements, those above before those below. -/
def items : Forest α → List α
  | nil => []
  | cons a below rest => a :: (items below ++ items rest)

/-- The elements with their ancestors, the nearest one first, for a forest below `anc`. -/
def placed (anc : List α) : Forest α → List (α × List α)
  | nil => []
  | cons a below rest => (a, anc) :: (placed (a :: anc) below ++ placed anc rest)

theorem map_fst_placed (f : Forest α) (anc : List α) : (f.placed anc).map Prod.fst = f.items := by
  induction f generalizing anc with
  | nil => rfl
  | cons a below rest ihb ihr =>
      rw [placed, items, List.map_cons, List.map_append, ihb, ihr]

theorem mem_items_of_placed {f : Forest α} {anc as : List α} {a : α} (h : (a, as) ∈ f.placed anc) :
    a ∈ f.items := by
  rw [← map_fst_placed f anc]
  exact List.mem_map_of_mem h

theorem exists_placed {f : Forest α} (anc : List α) {a : α} (h : a ∈ f.items) :
    ∃ as, (a, as) ∈ f.placed anc := by
  rw [← map_fst_placed f anc, List.mem_map] at h
  obtain ⟨⟨b, as⟩, hmem, rfl⟩ := h
  exact ⟨as, hmem⟩

/-- An element has its ancestors in one place only. -/
theorem placed_unique {f : Forest α} (hf : f.items.Nodup) {anc as bs : List α} {a : α}
    (ha : (a, as) ∈ f.placed anc) (hb : (a, bs) ∈ f.placed anc) : as = bs := by
  rw [← map_fst_placed f anc] at hf
  have h := List.inj_on_of_nodup_map hf ha hb rfl
  exact (Prod.mk.inj h).2

/-- The ancestors of an element are those of the forest or elements of it. -/
theorem ancestor_mem {f : Forest α} {anc as : List α} {a x : α} (h : (a, as) ∈ f.placed anc)
    (hx : x ∈ as) : x ∈ anc ∨ x ∈ f.items := by
  induction f generalizing anc with
  | nil => cases h
  | cons b below rest ihb ihr =>
      rw [placed, List.mem_cons, List.mem_append] at h
      rw [items, List.mem_cons, List.mem_append]
      rcases h with h | h | h
      · cases h
        exact .inl hx
      · rcases ihb h with h | h
        · rcases List.mem_cons.mp h with h | h
          · exact .inr (.inl h)
          · exact .inl h
        · exact .inr (.inr (.inl h))
      · rcases ihr h with h | h
        · exact .inl h
        · exact .inr (.inr (.inr h))

-- ---------------------------------------------------------------------------
-- Lists in order
-- ---------------------------------------------------------------------------

/-- Every element of a list that goes on after `seen` is fine where it stands. -/
def Follows (ok : List α → α → Prop) (seen : List α) : List α → Prop
  | [] => True
  | a :: l => ok seen a ∧ Follows ok (seen ++ [a]) l

variable {ok : List α → α → Prop} {seen l r : List α}

theorem follows_append : Follows ok seen (l ++ r) ↔ Follows ok seen l ∧ Follows ok (seen ++ l) r := by
  induction l generalizing seen with
  | nil =>
      rw [List.nil_append, List.append_nil]
      exact (true_and _).symm.to_iff
  | cons a l ih =>
      rw [List.cons_append, Follows, Follows, ih, and_assoc, List.append_assoc, List.singleton_append]

/-- Elements that are fine anywhere after `seen` are fine one after the other. -/
theorem follows_of_forall (hmono : ∀ {s t : List α} {a : α}, ok s a → ok (s ++ t) a)
    (h : ∀ a ∈ l, ok seen a) : Follows ok seen l := by
  induction l generalizing seen with
  | nil => exact trivial
  | cons a l ih =>
      refine ⟨h a List.mem_cons_self, ih fun b hb => ?_⟩
      exact hmono (h b (List.mem_cons_of_mem a hb))

/-- An element is fine after those before it. -/
theorem Follows.at {pre post : List α} {a : α} (h : Follows ok [] (pre ++ a :: post)) : ok pre a := by
  have hrest := (follows_append.mp h).2
  exact hrest.1

end Forest
