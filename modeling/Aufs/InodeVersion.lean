-- SUMMARY: A refresh of a directory inode that alters what is merged counts up i_version (au_refresh_hinode).
import Mathlib.Data.List.Sort
import Aufs.Inode

/-!
# The version of a refreshed inode

`au_refresh_hinode` counts the hidden inodes it drops and those it takes from the
dentry, and counts `i_version` of a directory up if there were any. Hidden inodes that
only move with their branches are not counted.
-/

namespace Aufs

variable {sb : SuperBlock} {d : Dinfo}

/-- The hidden inodes from the top: what a directory merges. -/
def Iinfo.hidden (ii : Iinfo) : List Hinode := (bindexes ii.bstart ii.bend).filterMap ii.hinode

/-- The branch of `p` is above that of `q`. -/
def Hinode.Above (sb : SuperBlock) (p q : Hinode) : Prop := sb.findBrindex p.id < sb.findBrindex q.id

instance (sb : SuperBlock) : Std.Irrefl (Hinode.Above sb) := ⟨fun _ h => Int.lt_irrefl _ h⟩

instance (sb : SuperBlock) : Std.Antisymm (Hinode.Above sb) :=
  ⟨fun _ _ h h' => absurd (Int.lt_trans h h') (Int.lt_irrefl _)⟩

/-- The branches of two hidden inodes are in the order the inode has them in, if the table
still has both. -/
def Iinfo.KeepsOrder (sb : SuperBlock) (ii : Iinfo) : Prop :=
  ∀ b c p q, ii.hinode b = some p → ii.hinode c = some q → b < c →
    0 ≤ sb.findBrindex p.id → 0 ≤ sb.findBrindex q.id → p.Above sb q

theorem Iinfo.mem_hidden {ii : Iinfo} (hc : ii.Covers) {p : Hinode} :
    p ∈ ii.hidden ↔ ∃ b, ii.hinode b = some p := by
  simp only [Iinfo.hidden, List.mem_filterMap, mem_bindexes]
  constructor
  · rintro ⟨b, -, hb⟩
    exact ⟨b, hb⟩
  · rintro ⟨b, hb⟩
    exact ⟨b, hc.2 b (by simp [hb]), hb⟩

/-- A relation between hidden inodes that holds down the array holds down the list. -/
theorem Iinfo.hidden_pairwise {ii : Iinfo} {R : Hinode → Hinode → Prop}
    (h : ∀ b c p q, ii.hinode b = some p → ii.hinode c = some q → b < c → R p q) :
    ii.hidden.Pairwise R := by
  refine (bindexes_sorted ii.bstart ii.bend).filterMap _ ?_
  intro b c hbc p hp q hq
  exact h b c p q hp hq hbc

-- ---------------------------------------------------------------------------
-- What is counted
-- ---------------------------------------------------------------------------

theorem hinodeBody_update {st : HinodeLoop} (h : st.update = st.put.length) :
    (hinodeBody sb st).update = (hinodeBody sb st).put.length := by
  unfold hinodeBody
  split
  · exact h
  · split
    · exact h
    · split
      · simp [h]
      · exact h

/-- The remapping loop counts the hidden inodes it releases. -/
theorem hinodeLoop_update {fuel : Nat} {st st' : HinodeLoop} (h : st.update = st.put.length)
    (hl : hinodeLoop sb fuel st = some st') : st'.update = st'.put.length := by
  induction fuel generalizing st with
  | zero =>
      rw [hinodeLoop] at hl
      split at hl
      · simp at hl
      · exact Option.some.inj hl ▸ h
  | succ fuel ih =>
      rw [hinodeLoop] at hl
      split at hl
      · exact ih (hinodeBody_update h) hl
      · exact Option.some.inj hl ▸ h

/-- The second loop counts the hidden inodes it enters. -/
theorem hinodeFromDentry_update {L : List Int} {ii ii' : Iinfo} {u u' : Nat}
    (h : hinodeFromDentry sb d L ii u = (.ok (), ii', u')) : u ≤ u' ∧ (u' = u → ii' = ii) := by
  induction L generalizing ii u with
  | nil =>
      simp only [hinodeFromDentry, Prod.mk.injEq, true_and] at h
      obtain ⟨rfl, rfl⟩ := h
      exact ⟨Nat.le_refl _, fun _ => rfl⟩
  | cons b L ih =>
      simp only [hinodeFromDentry] at h
      split at h
      · exact ih h
      · split at h
        · split at h
          · exact ih h
          · simp at h
        · split at h
          · simp at h
          · have hle := (ih h).1
            exact ⟨by omega, fun he => by omega⟩

/-- The two scans leave every filled slot between the ends. -/
theorem hinodeEnds_covers {ii : Iinfo} (hc : ii.Covers) {b : Int} (hb : (ii.hinode b).isSome) :
    (hinodeEnds ii).Covers := by
  have hleast := hinodeEnds_bstart hc hb
  obtain ⟨m, hm⟩ : ∃ m, (hinodeEnds ii).bstart = m := ⟨_, rfl⟩
  rw [hm] at hleast
  have hstart := hc.2 m hleast.1
  have hbend : (hinodeEnds ii).bend =
      ((bindexes (m + 1) ii.bend).reverse.find? fun b => (ii.hinode b).isSome).getD ii.bend := by
    rw [← hm]
    rfl
  refine ⟨hm ▸ hc.1.trans hstart.1, fun k hk => ⟨hm ▸ hleast.2 hk, ?_⟩⟩
  have hle := (hc.2 k hk).2
  rw [hbend]
  cases hf : (bindexes (m + 1) ii.bend).reverse.find? fun b => (ii.hinode b).isSome with
  | none => exact hle
  | some e =>
      obtain ⟨-, -, -, hlast⟩ := find?_reverse_bindexes.mp hf
      by_contra hlt
      have := hlast k (by simpa using hlt) hle
      simp [show (ii.hinode k).isSome = true from hk] at this

-- ---------------------------------------------------------------------------
-- The version
-- ---------------------------------------------------------------------------

/-- The version a refresh leaves: it is counted up if a hidden inode went or came. -/
theorem auRefreshHinode_version {mem : Bool} {i i' : Inode} {put : List Hinode} (hwf : i.ii.Wf)
    (hdir : i.isDir = true) (h : auRefreshHinode sb mem i d = (.ok (), i', put)) :
    ∃ st ii u, hinodeLoop sb (hinodeFuel sb i.ii) ⟨i.ii, i.ii.bstart, 0, []⟩ = some st ∧
      hinodeFromDentry sb d (bindexes d.bstart d.bend) st.ii st.update = (.ok (), ii, u) ∧
      i'.version = (if u ≠ 0 then i.version + 1 else i.version) ∧
      i'.ii.hinode = ii.hinode ∧ i'.ii.bstart = (hinodeEnds ii).bstart ∧
      i'.ii.bend = (hinodeEnds ii).bend := by
  simp only [auRefreshHinode] at h
  split at h
  · simp at h
  · rename_i p hp
    obtain rfl := kzrealloc_eq (fun b hb => by
      by_contra hne
      have := (hwf.range b (Option.isSome_iff_ne_none.mpr hne)).2
      omega) hp
    split at h
    · simp at h
    · rename_i st hst
      split at h
      · simp at h
      · rename_i ii u hfd
        split at h
        · simp at h
        · rename_i j hj
          simp only [Prod.mk.injEq, true_and] at h
          obtain ⟨rfl, -⟩ := h
          -- copying the attributes touches neither the version nor the array
          have hattr : j.version = i.version ∧ j.isDir = i.isDir ∧ j.ii = hinodeEnds ii := by
            split at hj
            · simp only [auCpupAttrAll, Option.map_eq_some_iff] at hj
              obtain ⟨k, -, rfl⟩ := hj
              exact ⟨rfl, rfl, rfl⟩
            · obtain rfl := Option.some.inj hj
              exact ⟨rfl, rfl, rfl⟩
          obtain ⟨hver, hisdir, hii⟩ := hattr
          refine ⟨st, ii, u, hst, hfd, ?_, by rw [hii]; rfl, by rw [hii], by rw [hii]⟩
          simp only [hver, hisdir, hdir, and_true]

/-- A refresh of a directory that returns 0 counts the version up, or the directory merges
the same hidden inodes as before. -/
theorem auRefreshHinode_counts {mem : Bool} {i i' : Inode} {put : List Hinode} (hwf : i.ii.Wf)
    (hdir : i.isDir = true) (hkeep : i.ii.KeepsOrder sb)
    (h : auRefreshHinode sb mem i d = (.ok (), i', put)) :
    i'.version = i.version + 1 ∨ (i'.version = i.version ∧ i'.ii.hidden = i.ii.hidden) := by
  obtain ⟨st, ii, u, hst, hfd, hver, hslots, hbstart, hbend⟩ := auRefreshHinode_version hwf hdir h
  by_cases hu : u = 0
  · refine .inr ⟨by rw [hver, if_neg (by simpa using hu)], ?_⟩
    obtain ⟨st', hst', hinv, hend⟩ := hinodeLoop_terminates sb hwf
    obtain rfl : st = st' := Option.some.inj (hst.symm.trans hst')
    -- nothing was released and nothing entered
    obtain ⟨hle, hsame⟩ := hinodeFromDentry_update hfd
    obtain rfl := hsame (by omega)
    have hput : st.put = [] := by
      have := hinodeLoop_update rfl hst
      exact List.length_eq_zero_iff.mp (by omega)
    obtain ⟨hplace, -, hdrop⟩ := hinv.remap.final hend
    simp only [HinodeLoop.remap, hput, List.not_mem_nil, false_iff, not_and] at hplace hdrop
    have hmem : ∀ p, (∃ b, st.ii.hinode b = some p) ↔ ∃ b, i.ii.hinode b = some p := by
      intro p
      constructor
      · rintro ⟨b, hb⟩
        exact ((hplace b p).mp hb).2
      · intro hp
        obtain ⟨k, hk⟩ := Option.ne_none_iff_exists'.mp fun hn => hdrop p hn hp
        exact ⟨k, (hplace k p).mpr ⟨hk, hp⟩⟩
    have hcovers : st.ii.Covers := ⟨hinv.nonneg, hinv.range⟩
    obtain ⟨b, hb⟩ : ∃ b, (st.ii.hinode b).isSome := by
      obtain ⟨p, hp⟩ := Option.isSome_iff_exists.mp hwf.start
      obtain ⟨b, hb⟩ := (hmem p).mpr ⟨_, hp⟩
      exact ⟨b, by simp [hb]⟩
    have hcovers' : i'.ii.Covers := by
      have := hinodeEnds_covers hcovers hb
      exact ⟨hbstart ▸ this.1, fun k hk => by
        rw [hbstart, hbend]
        exact this.2 k (hslots ▸ hk)⟩
    -- both lists are in the order of the branches
    have htgt : ∀ b p, i.ii.hinode b = some p → 0 ≤ sb.findBrindex p.id := by
      intro b p hb
      obtain ⟨k, hk⟩ := Option.ne_none_iff_exists'.mp fun hn => hdrop p hn ⟨b, hb⟩
      obtain ⟨hk, h0⟩ := hinodeTarget_eq_some.mp hk
      omega
    refine List.Pairwise.eq_of_mem_iff (r := Hinode.Above sb) ?_ ?_ fun p => ?_
    · refine Iinfo.hidden_pairwise fun b c p q hb hc hbc => ?_
      rw [hslots] at hb hc
      have hp := (hinodeTarget_eq_some.mp ((hplace b p).mp hb).1).1
      have hq := (hinodeTarget_eq_some.mp ((hplace c q).mp hc).1).1
      rw [Hinode.Above]
      omega
    · exact Iinfo.hidden_pairwise fun b c p q hb hc hbc =>
        hkeep b c p q hb hc hbc (htgt b p hb) (htgt c q hc)
    · rw [Iinfo.mem_hidden hcovers', hslots, hmem p, Iinfo.mem_hidden ⟨hwf.nonneg, hwf.range⟩]
  · exact .inl (by rw [hver, if_pos hu])

end Aufs
