-- SUMMARY: Streams of names in which each name is to come after its cover, in one layer or in a stack of layers, and which orders of delivery decide it.
import Aufs.Lib.Overlay

/-!
# Streams

A stream is read once, from its front. Some of its elements ask for a cover, and
the reader only remembers what it has met: an element is accepted if its cover
has come before it, from this stream or from one that was read earlier. Over a
stack of layers, of which each delivers its elements in an order of its own, this
is compared with what the stack shows.
-/

namespace Stream

open Overlay

-- ---------------------------------------------------------------------------
-- One stream
-- ---------------------------------------------------------------------------

section Covered

variable {α : Type*} {asks : α → Prop} {cover : α → α} {met met' : α → Prop} {l l' : List α}

/-- Every element of `l` that asks for its cover comes after it; `met` was met before. -/
def Covered (asks : α → Prop) (cover : α → α) (met : α → Prop) (l : List α) : Prop :=
  ∀ l₁ x l₂, l = l₁ ++ x :: l₂ → asks x → met (cover x) ∨ cover x ∈ l₁

@[simp] theorem covered_nil : Covered asks cover met [] := by
  intro l₁ x l₂ h
  simp at h

theorem covered_append :
    Covered asks cover met (l ++ l') ↔
      Covered asks cover met l ∧ Covered asks cover (fun y => met y ∨ y ∈ l) l' := by
  constructor
  · intro h
    refine ⟨fun l₁ x l₂ hl hx => ?_, fun l₁ x l₂ hl hx => ?_⟩
    · apply h l₁ x (l₂ ++ l') _ hx
      rw [hl, List.append_assoc, List.cons_append]
    · have hmet := h (l ++ l₁) x l₂ (by rw [hl, List.append_assoc]) hx
      rwa [List.mem_append, ← or_assoc] at hmet
  · rintro ⟨h, h'⟩ l₁ x l₂ hl hx
    rcases List.append_eq_append_iff.mp hl with ⟨k, rfl, hk⟩ | ⟨k, hk, hl'⟩
    · have hmet := h' k x l₂ hk hx
      rwa [or_assoc, ← List.mem_append] at hmet
    · cases k with
      | nil =>
        rw [List.append_nil] at hk
        have hmet := h' [] x l₂ hl'.symm hx
        rw [hk] at hmet
        exact hmet.resolve_right List.not_mem_nil
      | cons y k =>
        obtain ⟨rfl, -⟩ := List.cons.inj hl'
        exact h l₁ x k hk hx

theorem covered_singleton {x : α} : Covered asks cover met [x] ↔ (asks x → met (cover x)) := by
  constructor
  · intro h hx
    exact (h [] x [] rfl hx).resolve_right List.not_mem_nil
  · intro h l₁ y l₂ hl hy
    have hmem : y ∈ [x] := by
      rw [hl]
      exact List.mem_append_right l₁ List.mem_cons_self
    rw [List.mem_singleton] at hmem
    subst hmem
    exact .inl (h hy)

theorem covered_cons {x : α} :
    Covered asks cover met (x :: l) ↔
      (asks x → met (cover x)) ∧ Covered asks cover (fun y => met y ∨ y = x) l := by
  rw [← List.singleton_append, covered_append, covered_singleton]
  simp only [List.mem_singleton]

theorem covered_congr (h : ∀ y, met y ↔ met' y) : Covered asks cover met l ↔ Covered asks cover met' l := by
  simp only [Covered, h]

theorem Covered.mem (h : Covered asks cover met l) {x : α} (hx : x ∈ l) (ha : asks x) :
    met (cover x) ∨ cover x ∈ l := by
  obtain ⟨l₁, l₂, rfl⟩ := List.append_of_mem hx
  exact (h l₁ x l₂ rfl ha).imp_right fun hc => List.mem_append_left _ hc

theorem covered_of_met (h : ∀ x ∈ l, asks x → met (cover x)) : Covered asks cover met l :=
  fun _ x _ hl hx => .inl (h x (by rw [hl]; simp) hx)

/-- Where the covers are delivered first, it is enough that they are there. -/
theorem covered_of_first (hl : ∀ x ∈ l, ¬ asks x)
    (h : ∀ x ∈ l', asks x → met (cover x) ∨ cover x ∈ l) : Covered asks cover met (l ++ l') :=
  covered_append.mpr ⟨covered_of_met fun x hx ha => absurd ha (hl x hx), covered_of_met h⟩

/-- Where the covers are delivered last, they are of no use. -/
theorem Covered.met_of_last (h : Covered asks cover met (l ++ l')) {x : α} (hx : x ∈ l) (ha : asks x)
    (hc : cover x ∉ l) : met (cover x) :=
  ((covered_append.mp h).1.mem hx ha).resolve_right hc

end Covered

-- ---------------------------------------------------------------------------
-- A stack of streams
-- ---------------------------------------------------------------------------

section Layers

variable {α : Type*} {asks : α → Prop} {cover : α → α} {held held' : Int → List α} {x : α} {b : Int}

/-- The layers are read from the top, each in the order in which it delivers its elements. -/
def LayersCovered (asks : α → Prop) (cover : α → α) (held : Int → List α) : Prop :=
  ∀ b, Covered asks cover (fun y => ∃ c < b, y ∈ held c) (held b)

/-- The layer `b` shows `x`. -/
def ShowsAt (asks : α → Prop) (cover : α → α) (held : Int → List α) (x : α) (b : Int) : Prop :=
  asks x ∧ Shown (fun c => x ∈ held c) (fun c => cover x ∈ held c) b

/-- In streams that are accepted the cover of an element that is shown stands beside it. -/
theorem LayersCovered.beside (h : LayersCovered asks cover held) (hx : ShowsAt asks cover held x b) :
    cover x ∈ held b := by
  obtain ⟨ha, hb, hup⟩ := hx
  refine ((h b).mem hb ha).resolve_left ?_
  rintro ⟨c, hc, hcov⟩
  exact (hup c hc).2 hcov

/-- An element is shown at the first layer that has it, or its cover is above or beside it. -/
theorem shown_or_cover (lo : Int) (hlo : ∀ c < lo, held c = []) (ha : asks x) (hx : x ∈ held b) :
    (∃ c ≤ b, ShowsAt asks cover held x c) ∨ ∃ c < b, cover x ∈ held c := by
  obtain ⟨e, he⟩ := exists_first (p := fun c => x ∈ held c ∨ cover x ∈ held c) lo
    (fun c hc => by simp [hlo c hc]) (.inl hx)
  have hle : e ≤ b := he.le (.inl hx)
  by_cases hxe : x ∈ held e
  · exact .inl ⟨e, hle, ha, shown_iff.mpr ⟨he, hxe⟩⟩
  · have hne : e ≠ b := fun heq => hxe (heq ▸ hx)
    exact .inr ⟨e, by omega, he.1.resolve_left hxe⟩

/-- Where nothing is shown, the streams are accepted in every order. -/
theorem layersCovered_of_not_shown (lo : Int) (hlo : ∀ c < lo, held c = [])
    (h : ∀ x b, ¬ ShowsAt asks cover held x b) : LayersCovered asks cover held := by
  intro b
  apply covered_of_met
  intro x hx ha
  refine (shown_or_cover lo hlo ha hx).resolve_left ?_
  rintro ⟨c, -, hc⟩
  exact h x c hc

/-- Where covers come first, the streams are accepted if what is shown has its cover beside it. -/
theorem layersCovered_of_first (lo : Int) (hlo : ∀ c < lo, held c = [])
    (hfirst : ∀ b, ∃ l l', held b = l ++ l' ∧ (∀ x ∈ l, ¬ asks x) ∧ ∀ x ∈ held b, asks x → cover x ∉ l')
    (h : ∀ x b, ShowsAt asks cover held x b → cover x ∈ held b) : LayersCovered asks cover held := by
  intro b
  obtain ⟨l, l', hb, hl, hl'⟩ := hfirst b
  rw [hb]
  apply covered_of_first hl
  intro x hx ha
  have hmem : x ∈ held b := by
    rw [hb]
    exact List.mem_append_right l hx
  rcases shown_or_cover lo hlo ha hmem with ⟨c, hc, hs⟩ | hc
  · rcases hc.lt_or_eq with hlt | rfl
    · exact .inl ⟨c, hlt, h x c hs⟩
    · have hcov := h x c hs
      rw [hb, List.mem_append] at hcov
      exact .inr (hcov.resolve_right (hl' x hmem ha))
  · exact .inl hc

/-- Where covers come last, the streams are refused if anything is shown. -/
theorem not_layersCovered_of_last
    (hlast : ∀ b, ∃ l l', held b = l ++ l' ∧ (∀ x ∈ l', ¬ asks x) ∧ ∀ x ∈ held b, asks x → cover x ∉ l)
    (hx : ShowsAt asks cover held x b) : ¬ LayersCovered asks cover held := by
  intro h
  obtain ⟨ha, hb, hup⟩ := hx
  obtain ⟨l, l', heq, hl', hl⟩ := hlast b
  have hxl : x ∈ l := by
    have hb' := hb
    rw [heq, List.mem_append] at hb'
    exact hb'.resolve_right fun hx' => hl' x hx' ha
  have hcov := h b
  rw [heq] at hcov
  obtain ⟨c, hc, hmem⟩ := hcov.met_of_last hxl ha (hl x hb ha)
  exact (hup c hc).2 hmem

/-- What is shown does not depend on the order. -/
theorem showsAt_congr (h : ∀ b y, y ∈ held b ↔ y ∈ held' b) :
    ShowsAt asks cover held x b ↔ ShowsAt asks cover held' x b := by
  simp only [ShowsAt, Shown, h]

end Layers

end Stream
