-- SUMMARY: Searches of layers in general: two searches that meet the same full layers find the same, and what the topmost full layer makes of a search.
import Aufs.Lib.Overlay
import Mathlib.Data.List.Sort

/-!
# What a search sees

A search passes over layers that have nothing under the name. So two stacks give
the same result when their full layers are the same ones, whatever empty layers
there are besides. And the topmost full layer decides: a mask ends the search, a
file is all there is, below a directory only directories are added.
-/

namespace Overlay.Scan

variable {ι α : Type*} [LinearOrder ι] {isDir : α → Bool} {cell cell' : ι → Cell α} {L L' : List ι} {b : ι} {x : α}

/-- `full` as a test. -/
def isFull (c : Cell α) : Bool := c.mask || c.entry.isSome

omit [LinearOrder ι] in
@[simp] theorem isFull_iff {c : Cell α} : isFull c = true ↔ full c := by
  simp only [isFull, full, Bool.or_eq_true]

omit [LinearOrder ι] in
theorem search_full : search isDir cell (L.filter fun b => isFull (cell b)) = search isDir cell L := by
  refine (search_filter fun b _ hb hfull => ?_).2
  rw [isFull_iff.mpr hfull] at hb
  cases hb

/-- The empty layers of a search do not matter. -/
theorem search_same (hL : L.Pairwise (· < ·)) (hL' : L'.Pairwise (· < ·))
    (hmem : ∀ b, (b ∈ L ∧ full (cell b)) ↔ (b ∈ L' ∧ full (cell' b)))
    (hcell : ∀ b, full (cell b) → cell' b = cell b) : search isDir cell' L' = search isDir cell L := by
  have hlist : L'.filter (fun b => isFull (cell' b)) = L.filter fun b => isFull (cell b) := by
    refine List.Perm.eq_of_pairwise (fun a b _ _ hab hba => absurd hab (lt_asymm hba)) (hL'.filter _) (hL.filter _) ?_
    refine (List.perm_ext_iff_of_nodup (hL'.filter _).nodup (hL.filter _).nodup).mpr fun b => ?_
    rw [List.mem_filter, List.mem_filter, isFull_iff, isFull_iff]
    exact (hmem b).symm
  have hfull : search isDir cell' L' = search isDir cell' (L.filter fun b => isFull (cell b)) := by
    rw [← hlist, search_full]
  rw [hfull, ← @search_full _ _ _ cell L]
  refine search_congr fun b hb => hcell b ?_
  exact isFull_iff.mp (List.mem_filter.mp hb).2

/-- A search whose topmost full layer is masked finds nothing. -/
theorem search_masked (hL : L.Pairwise (· < ·)) (hb : b ∈ L) (habove : ∀ c ∈ L, c < b → ¬ full (cell c))
    (hmask : (cell b).mask = true) : search isDir cell L = ⟨[], some b, none⟩ := by
  induction L with
  | nil => cases hb
  | cons c L ih =>
    obtain ⟨hc, hL⟩ := List.pairwise_cons.mp hL
    rw [search]
    rcases List.mem_cons.mp hb with rfl | hb
    · rw [if_pos hmask]
    · have hno := habove c List.mem_cons_self (hc b hb)
      simp only [full, not_or, Bool.not_eq_true, Option.isSome_eq_false_iff, Option.isNone_iff_eq_none] at hno
      rw [hno.1, if_neg Bool.false_ne_true, hno.2]
      exact ih hL hb fun d hd => habove d (List.mem_cons_of_mem c hd)

/-- What a search makes of the entry of its topmost full layer. -/
theorem search_first (hL : L.Pairwise (· < ·)) (hb : b ∈ L) (habove : ∀ c ∈ L, c < b → ¬ full (cell c))
    (hmask : (cell b).mask = false) (hx : (cell b).entry = some x) :
    search isDir cell L = if isDir x then
        if (cell b).opq then ⟨[(b, x)], none, some b⟩
        else (dirs isDir cell (L.filter fun c => b < c)).cons b x
      else ⟨[(b, x)], none, none⟩ := by
  induction L with
  | nil => cases hb
  | cons c L ih =>
    obtain ⟨hc, hL⟩ := List.pairwise_cons.mp hL
    rw [search]
    rcases List.mem_cons.mp hb with rfl | hb
    · have hfilter : (b :: L).filter (fun c => b < c) = L := by
        rw [List.filter_cons_of_neg (by simp), List.filter_eq_self]
        exact fun a ha => decide_eq_true (hc a ha)
      rw [hmask, if_neg Bool.false_ne_true, hx, hfilter]
    · have hno := habove c List.mem_cons_self (hc b hb)
      simp only [full, not_or, Bool.not_eq_true, Option.isSome_eq_false_iff, Option.isNone_iff_eq_none] at hno
      have hfilter : (c :: L).filter (fun d => b < d) = L.filter fun d => b < d :=
        List.filter_cons_of_neg (by simpa using (hc b hb).le)
      rw [hno.1, if_neg Bool.false_ne_true, hno.2, hfilter]
      exact ih hL hb fun d hd => habove d (List.mem_cons_of_mem c hd)

/-- A mask above every entry leaves the search below a directory without one. -/
theorem dirs_none (hL : L.Pairwise (· < ·))
    (h : ∀ c ∈ L, (cell c).entry.isSome → ∃ e ∈ L, e ≤ c ∧ (cell e).mask = true) :
    (dirs isDir cell L).slots = [] := by
  induction L with
  | nil => rfl
  | cons c L ih =>
    obtain ⟨hc, hL⟩ := List.pairwise_cons.mp hL
    rw [dirs]
    split
    · rfl
    · rename_i hm
      -- the first layer has no entry, as there is no mask above it
      have hnone : (cell c).entry = none := by
        refine Option.not_isSome_iff_eq_none.mp fun hsome => ?_
        obtain ⟨e, he, hle, hmask⟩ := h c List.mem_cons_self hsome
        rcases List.mem_cons.mp he with rfl | he
        · exact hm hmask
        · exact absurd (hc e he) hle.not_gt
      rw [hnone]
      refine ih hL fun d hd hsome => ?_
      obtain ⟨e, he, hle, hmask⟩ := h d (List.mem_cons_of_mem c hd) hsome
      rcases List.mem_cons.mp he with rfl | he
      · exact absurd hmask hm
      · exact ⟨e, he, hle, hmask⟩

/-- A search that finds nothing has ended above or at every full layer. -/
theorem maskAt_of_search_none (hL : L.Pairwise (· < ·)) (h : (search isDir cell L).slots = []) {c : ι}
    (hc : c ∈ L) (hfull : full (cell c)) : ∃ e, (search isDir cell L).maskAt = some e ∧ e ≤ c := by
  induction L with
  | nil => cases hc
  | cons d L ih =>
    obtain ⟨hd, hL⟩ := List.pairwise_cons.mp hL
    rw [search] at h ⊢
    split
    · refine ⟨d, rfl, ?_⟩
      rcases List.mem_cons.mp hc with rfl | hc
      · exact le_rfl
      · exact (hd c hc).le
    · rename_i hm
      rw [if_neg hm] at h
      cases hx : (cell d).entry with
      | none =>
        rw [hx] at h
        have hcL : c ∈ L := by
          refine (List.mem_cons.mp hc).resolve_left fun he => ?_
          rw [he, full, hx] at hfull
          rcases hfull with hfull | hfull
          · exact hm hfull
          · cases hfull
        exact ih hL h hcL
      | some x =>
        rw [hx] at h
        dsimp only at h
        split at h
        · split at h <;> cases h
        · cases h

omit [LinearOrder ι] in
/-- Where a search ends at a mask, there is one. -/
theorem mask_of_maskAt (h : (search isDir cell L).slots = []) (hb : (search isDir cell L).maskAt = some b) :
    b ∈ L ∧ (cell b).mask = true := by
  induction L with
  | nil => cases hb
  | cons d L ih =>
    rw [search] at h hb
    split at hb
    · rename_i hm
      obtain rfl := Option.some.inj hb
      exact ⟨List.mem_cons_self, hm⟩
    · rename_i hm
      rw [if_neg hm] at h
      cases hx : (cell d).entry with
      | none =>
        rw [hx] at h hb
        exact (ih h hb).imp_left (List.mem_cons_of_mem d)
      | some x =>
        rw [hx] at h
        dsimp only at h
        split at h
        · split at h <;> cases h
        · cases h

/-- A search goes on only below layers without a mask. -/
theorem mask_dirs_of_le (hL : L.Pairwise (· < ·)) {e : ι × α} (he : e ∈ (dirs isDir cell L).slots) (hb : b ∈ L)
    (hle : b ≤ e.1) : (cell b).mask = false := by
  induction L with
  | nil => cases hb
  | cons c L ih =>
    obtain ⟨hc, hL⟩ := List.pairwise_cons.mp hL
    have hmem := he
    rw [dirs] at hmem
    split at hmem
    · cases hmem
    · rename_i hm
      rcases List.mem_cons.mp hb with rfl | hb
      · exact Bool.not_eq_true _ ▸ hm
      · have hne : e.1 ≠ c := fun heq => absurd (hc b hb) (heq ▸ hle).not_gt
        cases hy : (cell c).entry with
        | none =>
          rw [hy] at hmem
          exact ih hL hmem hb
        | some y =>
          rw [hy] at hmem
          dsimp only at hmem
          split at hmem
          · split at hmem
            · exact absurd (congrArg Prod.fst (List.mem_singleton.mp hmem)) hne
            · rcases List.mem_cons.mp hmem with rfl | hmem
              · exact absurd rfl hne
              · exact ih hL hmem hb
          · exact ih hL hmem hb

omit [LinearOrder ι] in
/-- A search that finds a directory finds directories only. -/
theorem search_eq_dirs_of_mem {e : ι × α} (he : e ∈ (search isDir cell L).slots) (hd : isDir e.2) :
    search isDir cell L = dirs isDir cell L := by
  induction L with
  | nil => rfl
  | cons c L ih =>
    rw [search] at he ⊢
    rw [dirs]
    split
    · rfl
    · rename_i hm
      rw [if_neg hm] at he
      cases hx : (cell c).entry with
      | none =>
        rw [hx] at he
        exact ih he
      | some y =>
        rw [hx] at he
        dsimp only at he ⊢
        split
        · rfl
        · rename_i hy
          rw [if_neg hy] at he
          obtain rfl := List.mem_singleton.mp he
          exact absurd hd hy

omit [LinearOrder ι] in
/-- A search that finds a file has met no mask. -/
theorem maskAt_of_file {e : ι × α} (he : e ∈ (search isDir cell L).slots) (hd : isDir e.2 = false) :
    (search isDir cell L).maskAt = none := by
  induction L with
  | nil => rfl
  | cons c L ih =>
    rw [search] at he ⊢
    split
    · rename_i hm
      rw [if_pos hm] at he
      cases he
    · rename_i hm
      rw [if_neg hm] at he
      cases hx : (cell c).entry with
      | none =>
        rw [hx] at he
        exact ih he
      | some y =>
        rw [hx] at he
        dsimp only at he ⊢
        split
        · rename_i hy
          rw [if_pos hy] at he
          split
          · rfl
          · rename_i ho
            rw [if_neg ho] at he
            -- below a directory only directories are found
            have hdir : isDir e.2 = true := by
              rcases List.mem_cons.mp he with rfl | he
              · exact hy
              · exact (entry_of_mem_dirs he).2.2
            rw [hd] at hdir
            cases hdir
        · rfl

/-- Above an entry that the search below a directory finds, every directory is found. -/
theorem mem_dirs_of_lt (hL : L.Pairwise (· < ·)) {e : ι × α} (he : e ∈ (dirs isDir cell L).slots) (hb : b ∈ L)
    (hlt : b < e.1) (hx : (cell b).entry = some x) (hd : isDir x) : (b, x) ∈ (dirs isDir cell L).slots := by
  induction L with
  | nil => cases hb
  | cons c L ih =>
    obtain ⟨hc, hL⟩ := List.pairwise_cons.mp hL
    rw [dirs] at he ⊢
    split at he
    · cases he
    · rename_i hm
      rw [if_neg hm]
      rcases List.mem_cons.mp hb with rfl | hb
      · rw [hx] at he ⊢
        dsimp only at he ⊢
        rw [if_pos hd]
        split
        · exact List.mem_singleton_self _
        · exact List.mem_cons_self
      · have hcb := hc b hb
        cases hy : (cell c).entry with
        | none =>
          rw [hy] at he
          exact ih hL he hb
        | some y =>
          rw [hy] at he
          dsimp only at he ⊢
          split
          · rename_i hyd
            rw [if_pos hyd] at he
            split
            · rename_i ho
              rw [if_pos ho] at he
              obtain rfl := List.mem_singleton.mp he
              exact absurd (hcb.trans hlt) (lt_irrefl _)
            · rename_i ho
              rw [if_neg ho] at he
              rcases List.mem_cons.mp he with rfl | he
              · exact absurd (hcb.trans hlt) (lt_irrefl _)
              · exact List.mem_cons_of_mem _ (ih hL he hb)
          · rename_i hyd
            rw [if_neg hyd] at he
            exact ih hL he hb

/-- What a search has found, with one more entry. -/
structure Gains (b : ι) (x : α) (r r' : Scan ι α) : Prop where
  slots : ∀ c y, (c, y) ∈ r'.slots ↔ (c, y) ∈ r.slots ∨ c = b ∧ y = x
  maskAt : r'.maskAt = r.maskAt
  opaqueAt : r'.opaqueAt = r.opaqueAt

omit [LinearOrder ι] in
theorem Gains.cons {r r' : Scan ι α} (h : Gains b x r r') (c : ι) (y : α) : Gains b x (r.cons c y) (r'.cons c y) := by
  refine ⟨fun d z => ?_, h.maskAt, h.opaqueAt⟩
  rw [cons_slots, cons_slots, List.mem_cons, List.mem_cons, h.slots, or_assoc]

/-- A directory that is new above one that was found is found as well, and nothing else changes. -/
theorem dirs_gains (hL : L.Pairwise (· < ·)) {e : ι × α} (he : e ∈ (dirs isDir cell L).slots) (hb : b ∈ L)
    (hlt : b < e.1) (hno : (cell b).entry = none) (hnew : cell' b = ⟨false, some x, false⟩) (hd : isDir x)
    (hsame : ∀ c, c ≠ b → cell' c = cell c) : Gains b x (dirs isDir cell L) (dirs isDir cell' L) := by
  induction L with
  | nil => cases hb
  | cons c L ih =>
    obtain ⟨hc, hL⟩ := List.pairwise_cons.mp hL
    rw [dirs] at he ⊢
    rw [dirs]
    split at he
    · cases he
    · rename_i hm
      rw [if_neg hm]
      rcases List.mem_cons.mp hb with rfl | hb
      · have hrest : dirs isDir cell' L = dirs isDir cell L := dirs_congr fun d hd => hsame d (hc d hd).ne'
        rw [hno, hnew, hrest]
        dsimp only
        rw [if_neg Bool.false_ne_true, if_pos hd, if_neg Bool.false_ne_true]
        refine ⟨fun d z => ?_, rfl, rfl⟩
        rw [cons_slots, List.mem_cons, Prod.mk.injEq, or_comm]
      · have hcb := hc b hb
        rw [hsame c hcb.ne, if_neg hm]
        cases hy : (cell c).entry with
        | none =>
          rw [hy] at he
          exact ih hL he hb
        | some y =>
          rw [hy] at he
          dsimp only at he ⊢
          split
          · rename_i hyd
            rw [if_pos hyd] at he
            split
            · rename_i ho
              rw [if_pos ho] at he
              obtain rfl := List.mem_singleton.mp he
              exact absurd (hcb.trans hlt) (lt_irrefl _)
            · rename_i ho
              rw [if_neg ho] at he
              rcases List.mem_cons.mp he with rfl | he
              · exact absurd (hcb.trans hlt) (lt_irrefl _)
              · exact (ih hL he hb).cons c y
          · rename_i hyd
            rw [if_neg hyd] at he
            exact ih hL he hb

theorem search_gains (hL : L.Pairwise (· < ·)) {e : ι × α} (he : e ∈ (search isDir cell L).slots) (hde : isDir e.2)
    (hb : b ∈ L) (hlt : b < e.1) (hno : (cell b).entry = none) (hnew : cell' b = ⟨false, some x, false⟩)
    (hd : isDir x) (hsame : ∀ c, c ≠ b → cell' c = cell c) :
    Gains b x (search isDir cell L) (search isDir cell' L) := by
  induction L with
  | nil => cases hb
  | cons c L ih =>
    obtain ⟨hc, hL⟩ := List.pairwise_cons.mp hL
    rw [search] at he ⊢
    rw [search]
    split at he
    · cases he
    · rename_i hm
      rw [if_neg hm]
      rcases List.mem_cons.mp hb with rfl | hb
      · have hrest : dirs isDir cell' L = dirs isDir cell L := dirs_congr fun d hd => hsame d (hc d hd).ne'
        rw [hno] at he
        rw [hno, hnew, hrest]
        dsimp only at he ⊢
        rw [if_neg Bool.false_ne_true, if_pos hd, if_neg Bool.false_ne_true, search_eq_dirs_of_mem he hde]
        refine ⟨fun d z => ?_, rfl, rfl⟩
        rw [cons_slots, List.mem_cons, Prod.mk.injEq, or_comm]
      · have hcb := hc b hb
        rw [hsame c hcb.ne, if_neg hm]
        cases hy : (cell c).entry with
        | none =>
          rw [hy] at he
          exact ih hL he hb
        | some y =>
          rw [hy] at he
          dsimp only at he ⊢
          split
          · rename_i hyd
            rw [if_pos hyd] at he
            split
            · rename_i ho
              rw [if_pos ho] at he
              obtain rfl := List.mem_singleton.mp he
              exact absurd (hcb.trans hlt) (lt_irrefl _)
            · rename_i ho
              rw [if_neg ho] at he
              rcases List.mem_cons.mp he with rfl | he
              · exact absurd (hcb.trans hlt) (lt_irrefl _)
              · exact (dirs_gains hL he hb hlt hno hnew hd hsame).cons c y
          · rename_i hyd
            rw [if_neg hyd] at he
            obtain rfl := List.mem_singleton.mp he
            exact absurd (hcb.trans hlt) (lt_irrefl _)

end Overlay.Scan
