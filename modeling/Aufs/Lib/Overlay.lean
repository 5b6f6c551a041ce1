-- SUMMARY: Stacks of layers in general: which layer shows a name when upper layers hide it by holding it or by masking it.
import Mathlib.Order.Basic
import Mathlib.Order.Interval.Finset.Defs
import Mathlib.Data.Int.Interval

/-!
# Overlays

Layers are indexed by a linear order, the least index on top. A layer may hold a
name and it may mask it. What is seen of the name is decided by the topmost
layer that does either.
-/

namespace Overlay

section Layers

variable {ι : Type*} [LinearOrder ι] {p q held masked : ι → Prop} {b c : ι}

/-- `b` is the topmost layer with the property. -/
def First (p : ι → Prop) (b : ι) : Prop := p b ∧ ∀ c < b, ¬ p c

theorem First.unique (hb : First p b) (hc : First p c) : b = c := by
  rcases lt_trichotomy b c with h | h | h
  · exact absurd hb.1 (hc.2 b h)
  · exact h
  · exact absurd hc.1 (hb.2 c h)

theorem First.le (hb : First p b) (hc : p c) : b ≤ c := by
  by_contra h
  exact hb.2 c (not_le.mp h) hc

theorem First.congr (h : ∀ c, p c ↔ q c) : First p b ↔ First q b := by
  simp only [First, h]

/-- A property of integers that fails below a bound has a topmost layer. -/
theorem exists_first {p : Int → Prop} (lo : Int) (hlo : ∀ c < lo, ¬ p c) {b : Int} (hb : p b) :
    ∃ c, First p c := by
  classical
  have hle : lo ≤ b := by
    by_contra h
    exact hlo b (by omega) hb
  have hex : ∃ n : Nat, p (lo + n) := ⟨(b - lo).toNat, by rwa [show lo + ((b - lo).toNat : Int) = b by omega]⟩
  refine ⟨lo + Nat.find hex, Nat.find_spec hex, fun c hc hpc => ?_⟩
  by_cases hcl : c < lo
  · exact hlo c hcl hpc
  · have := Nat.find_min hex (m := (c - lo).toNat) (by omega)
    exact this (by rwa [show lo + ((c - lo).toNat : Int) = c by omega])

/-- Layer `b` shows the name: it holds it, and no layer above holds or masks it. -/
def Shown (held masked : ι → Prop) (b : ι) : Prop :=
  held b ∧ ∀ c < b, ¬ held c ∧ ¬ masked c

theorem shown_iff : Shown held masked b ↔ First (fun c => held c ∨ masked c) b ∧ held b := by
  simp only [Shown, First, not_or]
  constructor
  · rintro ⟨h, hc⟩
    exact ⟨⟨.inl h, hc⟩, h⟩
  · rintro ⟨⟨-, hc⟩, h⟩
    exact ⟨h, hc⟩

theorem Shown.unique (hb : Shown held masked b) (hc : Shown held masked c) : b = c :=
  (shown_iff.mp hb).1.unique (shown_iff.mp hc).1

/-- Layer `b` gives the name to a search from the top that stops at a mask: it holds the
name and does not mask it, and no layer above holds or masks it. -/
def Found (held masked : ι → Prop) (b : ι) : Prop := Shown held masked b ∧ ¬ masked b

/-- Where masks count only on the layers of `honoured`, the search sees the name as often as
the layers show it: the topmost layer that holds or masks the name holds it and does not mask
it itself, or does not hold it and an honoured mask lies above every layer that does. -/
def Agrees (held masked honoured : ι → Prop) : Prop :=
  ∀ b, First (fun c => held c ∨ masked c) b →
    (held b → ¬ (masked b ∧ honoured b)) ∧
      (¬ held b → ∀ c, held c → ∃ e ≤ c, masked e ∧ honoured e)

/-- A layer that holds the name without an honoured mask above it makes the search find it. -/
theorem exists_found {held : Int → Prop} (masked : Int → Prop) {lo b : Int} (hlo : ∀ c < lo, ¬ held c)
    (hb : held b) (hm : ∀ e ≤ b, ¬ masked e) : ∃ c, Found held masked c := by
  obtain ⟨c, hc⟩ := exists_first lo hlo hb
  have hcb := hc.le hb
  exact ⟨c, ⟨hc.1, fun e he => ⟨hc.2 e he, hm e (he.le.trans hcb)⟩⟩, hm c hcb⟩

/-- The two ways to read a stack agree exactly where `Agrees` says so. -/
theorem shown_iff_found_iff {held masked honoured : Int → Prop} (lo : Int)
    (hlo : ∀ c < lo, ¬ held c ∧ ¬ masked c) :
    ((∃ b, Shown held masked b) ↔ ∃ b, Found held (fun c => masked c ∧ honoured c) b) ↔
      Agrees held masked honoured := by
  by_cases htop : ∃ b, First (fun c => held c ∨ masked c) b
  · obtain ⟨b, hb⟩ := htop
    have hagrees : Agrees held masked honoured ↔ (held b → ¬ (masked b ∧ honoured b)) ∧
        (¬ held b → ∀ c, held c → ∃ e ≤ c, masked e ∧ honoured e) :=
      ⟨fun h => h b hb, fun h c hc => hc.unique hb ▸ h⟩
    have hshown : (∃ b, Shown held masked b) ↔ held b := by
      constructor
      · rintro ⟨c, hc⟩
        exact (shown_iff.mp hc).1.unique hb ▸ hc.1
      · exact fun h => ⟨b, shown_iff.mpr ⟨hb, h⟩⟩
    rw [hagrees, hshown]
    by_cases hheld : held b
    · simp only [hheld, true_iff, forall_true_left, not_true_eq_false, IsEmpty.forall_iff, and_true]
      constructor
      · rintro ⟨c, hc, hcm⟩ hm
        rcases lt_trichotomy c b with hlt | rfl | hgt
        · exact hb.2 c hlt (.inl hc.1)
        · exact hcm hm
        · exact (hc.2 b hgt).1 hheld
      · intro hm
        exact ⟨b, ⟨hheld, fun c hc => ⟨fun h => hb.2 c hc (.inl h), fun h => hb.2 c hc (.inr h.1)⟩⟩, hm⟩
    · simp only [hheld, false_iff, not_exists, IsEmpty.forall_iff, not_false_eq_true,
        forall_true_left, true_and]
      constructor
      · intro h c hc
        by_contra hno
        push Not at hno
        obtain ⟨e, he⟩ := exists_found (fun c => masked c ∧ honoured c)
          (fun c hc => (hlo c hc).1) hc fun e he hm => hno e he hm.1 hm.2
        exact h e he
      · rintro h c ⟨⟨hc, habove⟩, hcm⟩
        obtain ⟨e, hec, he⟩ := h c hc
        rcases hec.lt_or_eq with hlt | rfl
        · exact (habove e hlt).2 he
        · exact hcm he
  · -- nothing holds or masks the name
    have hno : ∀ b, ¬ held b ∧ ¬ masked b := by
      intro b
      rw [← not_or]
      intro hb
      exact htop (exists_first lo (fun c hc => not_or.mpr (hlo c hc)) hb)
    refine iff_of_true (iff_of_false ?_ ?_) fun b hb => absurd ⟨b, hb⟩ htop
    · rintro ⟨b, hb⟩
      exact (hno b).1 hb.1
    · rintro ⟨b, hb⟩
      exact (hno b).1 hb.1.1

end Layers

-- ---------------------------------------------------------------------------
-- The search through the layers
-- ---------------------------------------------------------------------------

/-- What a layer has under one name: a mask, an entry, and whether the entry is opaque. -/
structure Cell (α : Type*) where
  mask : Bool
  entry : Option α
  opq : Bool

/-- What a search has found: the entries with their layers, the layer whose mask stopped
it, and the layer whose opaque entry stopped it. -/
structure Scan (ι α : Type*) where
  slots : List (ι × α)
  maskAt : Option ι
  opaqueAt : Option ι

namespace Scan

variable {ι α : Type*} (isDir : α → Bool) (cell : ι → Cell α)

/-- One more entry in front. -/
def cons (b : ι) (x : α) (r : Scan ι α) : Scan ι α := { r with slots := (b, x) :: r.slots }

/-- The search below a directory: directories are collected, other entries are passed
over, and a mask or an opaque directory is the end. -/
def dirs : List ι → Scan ι α
  | [] => ⟨[], none, none⟩
  | b :: bs =>
    if (cell b).mask then ⟨[], some b, none⟩
    else
      match (cell b).entry with
      | none => dirs bs
      | some x =>
        if isDir x then
          if (cell b).opq then ⟨[(b, x)], none, some b⟩ else (dirs bs).cons b x
        else dirs bs

/-- The search for a name: the first entry is found unless a mask comes first, and only a
directory goes on. -/
def search : List ι → Scan ι α
  | [] => ⟨[], none, none⟩
  | b :: bs =>
    if (cell b).mask then ⟨[], some b, none⟩
    else
      match (cell b).entry with
      | none => search bs
      | some x =>
        if isDir x then
          if (cell b).opq then ⟨[(b, x)], none, some b⟩ else (dirs isDir cell bs).cons b x
        else ⟨[(b, x)], none, none⟩

@[simp] theorem cons_slots (b : ι) (x : α) (r : Scan ι α) : (r.cons b x).slots = (b, x) :: r.slots := rfl

variable {isDir cell}

/-- The search finds something exactly if some layer gives the name. -/
theorem search_slots_ne_nil [LinearOrder ι] {L : List ι} (hL : L.Pairwise (· < ·)) :
    (search isDir cell L).slots ≠ [] ↔
      ∃ b, Found (fun c => c ∈ L ∧ (cell c).entry.isSome) (fun c => c ∈ L ∧ (cell c).mask) b := by
  induction L with
  | nil => simp [search, Found, Shown]
  | cons b L ih =>
      obtain ⟨hb, hL⟩ := List.pairwise_cons.mp hL
      have hfirst : ∀ c, c ∈ b :: L → c < b → False := by
        intro c hc hlt
        rcases List.mem_cons.mp hc with rfl | hc
        · exact lt_irrefl _ hlt
        · exact lt_asymm hlt (hb c hc)
      have htop : ∀ p q : ι → Prop, p b → ¬ q b →
          Found (fun c => c ∈ b :: L ∧ p c) (fun c => c ∈ b :: L ∧ q c) b := fun p q hp hq =>
        ⟨⟨⟨List.mem_cons_self, hp⟩, fun c hc => ⟨fun h => hfirst c h.1 hc, fun h => hfirst c h.1 hc⟩⟩,
          fun h => hq h.2⟩
      rw [search]
      split
      · rename_i hm
        simp only [ne_eq, not_true_eq_false, false_iff, not_exists]
        rintro c ⟨⟨⟨hc, -⟩, habove⟩, hnm⟩
        rcases List.mem_cons.mp hc with rfl | hcL
        · exact hnm ⟨hc, hm⟩
        · exact (habove b (hb c hcL)).2 ⟨List.mem_cons_self, hm⟩
      · rename_i hm
        split
        · rename_i he
          rw [ih hL]
          -- an empty layer on top changes nothing
          have hmem : ∀ (p : ι → Prop), ¬ p b → ∀ c, (c ∈ L ∧ p c ↔ c ∈ b :: L ∧ p c) := by
            intro p hp c
            rw [List.mem_cons]
            constructor
            · exact fun h => ⟨.inr h.1, h.2⟩
            · rintro ⟨rfl | h, hpc⟩
              · exact absurd hpc hp
              · exact ⟨h, hpc⟩
          simp only [Found, Shown, hmem (fun c => (cell c).entry.isSome) (by simp [he]),
            hmem (fun c => (cell c).mask) hm]
        · rename_i x he
          refine iff_of_true ?_ ⟨b, htop _ _ (by simp [he]) hm⟩
          split
          · split <;> simp
          · simp

theorem dirs_sublist (isDir : α → Bool) (cell : ι → Cell α) (L : List ι) :
    ((dirs isDir cell L).slots.map Prod.fst).Sublist L := by
  induction L with
  | nil => exact .refl _
  | cons b L ih =>
      rw [dirs]
      split
      · exact List.nil_sublist _
      · split
        · exact ih.cons b
        · split
          · split
            · exact (List.nil_sublist L).cons_cons b
            · exact ih.cons_cons b
          · exact ih.cons b

/-- The layers that give something are layers that were asked, in their order. -/
theorem search_sublist (isDir : α → Bool) (cell : ι → Cell α) (L : List ι) :
    ((search isDir cell L).slots.map Prod.fst).Sublist L := by
  induction L with
  | nil => exact .refl _
  | cons b L ih =>
      rw [search]
      split
      · exact List.nil_sublist _
      · split
        · exact ih.cons b
        · split
          · split
            · exact (List.nil_sublist L).cons_cons b
            · exact (dirs_sublist isDir cell L).cons_cons b
          · exact (List.nil_sublist L).cons_cons b

theorem entry_of_mem_dirs {L : List ι} {e : ι × α} (h : e ∈ (dirs isDir cell L).slots) :
    (cell e.1).mask = false ∧ (cell e.1).entry = some e.2 ∧ isDir e.2 := by
  induction L with
  | nil => simp [dirs] at h
  | cons b L ih =>
      rw [dirs] at h
      split at h
      · simp at h
      · rename_i hm
        split at h
        · exact ih h
        · rename_i x he
          split at h
          · rename_i hd
            split at h
            · obtain rfl := List.mem_singleton.mp h
              exact ⟨by simpa using hm, he, hd⟩
            · rcases List.mem_cons.mp h with rfl | h
              · exact ⟨by simpa using hm, he, hd⟩
              · exact ih h
          · exact ih h

/-- What is found is what the layers have. -/
theorem entry_of_mem_search {L : List ι} {e : ι × α} (h : e ∈ (search isDir cell L).slots) :
    (cell e.1).mask = false ∧ (cell e.1).entry = some e.2 := by
  induction L with
  | nil => simp [search] at h
  | cons b L ih =>
      rw [search] at h
      split at h
      · simp at h
      · rename_i hm
        split at h
        · exact ih h
        · rename_i x he
          split at h
          · split at h
            · obtain rfl := List.mem_singleton.mp h
              exact ⟨by simpa using hm, he⟩
            · rcases List.mem_cons.mp h with rfl | h
              · exact ⟨by simpa using hm, he⟩
              · exact ⟨(entry_of_mem_dirs h).1, (entry_of_mem_dirs h).2.1⟩
          · obtain rfl := List.mem_singleton.mp h
            exact ⟨by simpa using hm, he⟩

/-- A search that finds two entries finds directories only. -/
theorem isDir_of_mem_search {L : List ι} {e f : ι × α} (he : e ∈ (search isDir cell L).slots)
    (hf : f ∈ (search isDir cell L).slots) (hne : e.1 ≠ f.1) : isDir e.2 := by
  induction L with
  | nil => cases he
  | cons b L ih =>
      rw [search] at he hf
      split at he
      · cases he
      · rename_i hm
        rw [if_neg hm] at hf
        split at he
        · rename_i hx
          rw [hx] at hf
          exact ih he hf
        · rename_i x hx
          rw [hx] at hf
          dsimp only at hf
          split at he
          · rename_i hd
            rw [if_pos hd] at hf
            split at he
            · obtain rfl := List.mem_singleton.mp he
              exact hd
            · rcases List.mem_cons.mp he with rfl | he
              · exact hd
              · exact (entry_of_mem_dirs he).2.2
          · rename_i hd
            rw [if_neg hd] at hf
            obtain rfl := List.mem_singleton.mp he
            obtain rfl := List.mem_singleton.mp hf
            exact absurd rfl hne

/-- Entries found before, in front. -/
def prepend (acc : List (ι × α)) (r : Scan ι α) : Scan ι α := { r with slots := acc ++ r.slots }

@[simp] theorem prepend_slots (acc : List (ι × α)) (r : Scan ι α) :
    (r.prepend acc).slots = acc ++ r.slots := rfl

theorem prepend_cons (acc : List (ι × α)) (b : ι) (x : α) (r : Scan ι α) :
    (r.cons b x).prepend acc = r.prepend (acc ++ [(b, x)]) := by
  simp [prepend, cons]

theorem dirs_congr {cell' : ι → Cell α} {L : List ι} (h : ∀ b ∈ L, cell b = cell' b) :
    dirs isDir cell L = dirs isDir cell' L := by
  induction L with
  | nil => rfl
  | cons b L ih =>
      simp only [dirs, h b List.mem_cons_self, ih fun c hc => h c (List.mem_cons_of_mem b hc)]

theorem search_congr {cell' : ι → Cell α} {L : List ι} (h : ∀ b ∈ L, cell b = cell' b) :
    search isDir cell L = search isDir cell' L := by
  induction L with
  | nil => rfl
  | cons b L ih =>
      have hL := fun c hc => h c (List.mem_cons_of_mem b hc)
      simp only [search, h b List.mem_cons_self, ih hL, dirs_congr hL]

-- ---------------------------------------------------------------------------
-- Directories only
-- ---------------------------------------------------------------------------

/-- The search ends at a mask and at an opaque entry. -/
def stops (c : Cell α) : Prop := c.mask ∨ (c.entry.isSome ∧ c.opq)

/-- The layers hold directories and nothing else. -/
def OnlyDirs (isDir : α → Bool) (cell : ι → Cell α) (L : List ι) : Prop :=
  ∀ b ∈ L, ∀ x, (cell b).entry = some x → isDir x

theorem OnlyDirs.tail {b : ι} {L : List ι} (h : OnlyDirs isDir cell (b :: L)) :
    OnlyDirs isDir cell L := fun c hc => h c (List.mem_cons_of_mem b hc)

/-- `p` holds of a layer of the list, and above it no layer of the list stops the search. -/
def Reached [LT ι] (cell : ι → Cell α) (L : List ι) (b : ι) : Prop :=
  b ∈ L ∧ ∀ c ∈ L, c < b → ¬ stops (cell c)

section Dirs

variable [LinearOrder ι] {L : List ι}

end Dirs

/-- Is there anything in the layer? -/
def full (c : Cell α) : Prop := c.mask ∨ c.entry.isSome

/-- Layers with nothing in them may be left out of a search. -/
theorem search_filter {p : ι → Bool} {L : List ι} (h : ∀ b ∈ L, p b = false → ¬ full (cell b)) :
    dirs isDir cell (L.filter p) = dirs isDir cell L ∧
      search isDir cell (L.filter p) = search isDir cell L := by
  induction L with
  | nil => exact ⟨rfl, rfl⟩
  | cons b L ih =>
      obtain ⟨h1, h2⟩ := ih fun c hc => h c (List.mem_cons_of_mem b hc)
      cases hp : p b with
      | true => simp only [List.filter_cons_of_pos hp, dirs, search, h1, h2, and_self]
      | false =>
          have hb := h b List.mem_cons_self hp
          simp only [full, not_or, Bool.not_eq_true, Option.isSome_eq_false_iff,
            Option.isNone_iff_eq_none] at hb
          rw [List.filter_cons_of_neg (by simp [hp])]
          simp only [dirs, search, hb, Bool.false_eq_true, if_false, h1, h2, and_self]

end Scan

end Overlay
