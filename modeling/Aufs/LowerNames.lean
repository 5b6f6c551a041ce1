-- SUMMARY: The lookup below the first slot of a dentry: whether a lower branch has the name too.
import Aufs.ColdLookup
import Aufs.OpDel

/-!
# Names below

Before a name is removed on its first branch, `wr_dir_need_wh` takes the lookup up again
on the branches below. The first slot stays as it is, and when the lookup counts nothing
a search of these branches finds nothing.
-/

namespace Aufs

open Prog Op Overlay

variable {m m' : Mount} {sb : SuperBlock} {dir : Path} {name : Name} {w w' : World} {parent d d' d'' : Dinfo}

-- ---------------------------------------------------------------------------
-- The slots
-- ---------------------------------------------------------------------------

/-- The dentry keeps its slots from the start up to `s`; below, slots may be new. -/
structure Dinfo.GrewBelow (s : Int) (d d' : Dinfo) : Prop where
  start : d'.bstart = d.bstart
  slot : ∀ c ≤ s, d'.hdentry c = d.hdentry c
  last : d.bend ≤ d'.bend

theorem Dinfo.GrewBelow.refl {s : Int} (d : Dinfo) : Dinfo.GrewBelow s d d := ⟨rfl, fun _ _ => rfl, le_rfl⟩

theorem Dinfo.GrewBelow.trans {s : Int} (h : Dinfo.GrewBelow s d d') (h' : Dinfo.GrewBelow s d' d'') :
    Dinfo.GrewBelow s d d'' :=
  ⟨h'.start.trans h.start, fun c hc => (h'.slot c hc).trans (h.slot c hc), h.last.trans h'.last⟩

/-- A slot below the start. -/
theorem Dinfo.GrewBelow.enter {s b : Int} {h : HDentry} (h0 : 0 ≤ d.bstart) (hs : d.bstart ≤ s) (hb : s < b) :
    Dinfo.GrewBelow s d (d.enter b h) := by
  have hno : ¬ (d.bstart = -1 ∨ b < d.bstart) := by omega
  refine ⟨if_neg hno, fun c hc => Function.update_of_ne (by omega) .., ?_⟩
  rw [Dinfo.enter]
  dsimp only
  split <;> omega

/-- `do_lookup` on a branch below the start. -/
theorem doLookup_grewBelow {s b : Int} {hp : HDentry} {an : Bool} {type : Option FType} {r : Option HDentry}
    (h0 : 0 ≤ d.bstart) (hs : d.bstart ≤ s) (hb : s < b) (hdir : parent.hDir b = some hp)
    (hl : doLookup sb name hp d b an type w = (.ok r, d', w')) : Dinfo.GrewBelow s d d' := by
  obtain ⟨-, hcase⟩ := doLookup_ok hdir hl
  have hmark : ∀ {e : Dinfo} {x y : Int}, Dinfo.GrewBelow s d e →
      Dinfo.GrewBelow s d { e with bwh := x, bdiropq := y } := fun h => ⟨h.start, h.slot, h.last⟩
  have henter : ∀ {x : Int} {h : HDentry}, Dinfo.GrewBelow s d ({ d with bwh := x }.enter b h) := fun {x h} =>
    hmark (@Dinfo.GrewBelow.enter d s b h h0 hs hb)
  cases hcase with
  | mask hm hr =>
    split
    · exact henter
    · exact hmark (.refl d)
  | absent hm he hr =>
    split
    · exact henter
    · exact .refl d
  | otherType hm he hi ht => exact .refl d
  | found hm he hi ht =>
    split
    · exact hmark henter
    · exact henter

/-- The lookup on the branches below `s` keeps the slots up to `s`, and it counts on. -/
theorem lkupLoop_lower {s : Int} {L : List Int} {v : LkupVars} {n : Nat} (h0 : 0 ≤ d.bstart) (hs : d.bstart ≤ s)
    (hL : ∀ b ∈ L, s < b) (hl : lkupLoop sb name parent L v d w = (.ok n, d', w')) :
    Dinfo.GrewBelow s d d' ∧ v.npositive ≤ n := by
  have hend : ∀ {k : Nat} {e : Dinfo} {w₁ : World}, (.ok k, e, w₁) = ((.ok n, d', w') : Except Errno Nat × Dinfo × World) →
      k = n ∧ e = d' := fun h => by
    obtain ⟨h1, h2⟩ := Prod.mk.inj h
    exact ⟨Except.ok.inj h1, (Prod.mk.inj h2).1⟩
  induction L generalizing v d w with
  | nil =>
    obtain ⟨rfl, rfl⟩ := hend hl
    exact ⟨.refl d, le_rfl⟩
  | cons b L ih =>
    have hL' : ∀ c ∈ L, s < c := fun c hc => hL c (List.mem_cons_of_mem b hc)
    rw [lkupLoop] at hl
    split at hl
    · rename_i h _
      dsimp only at hl
      generalize hv : (if h.positive = true then { v with npositive := v.npositive + 1 } else v : LkupVars) = v' at hl
      have hle : v.npositive ≤ v'.npositive := by
        rw [← hv]
        split
        · exact Nat.le_succ _
        · exact le_rfl
      split at hl
      · obtain ⟨rfl, rfl⟩ := hend hl
        exact ⟨.refl d, hle⟩
      · obtain ⟨hgrew, hn⟩ := ih h0 hs hL' hl
        exact ⟨hgrew, hle.trans hn⟩
    · split at hl
      · exact ih h0 hs hL' hl
      · rename_i hp hdir
        split at hl
        · cases hl
        · rename_i h d₁ w₁ hdo
          have hgrew := doLookup_grewBelow h0 hs (hL b List.mem_cons_self) hdir hdo
          have h0₁ : 0 ≤ d₁.bstart := hgrew.start.symm ▸ h0
          have hs₁ : d₁.bstart ≤ s := hgrew.start.symm ▸ hs
          dsimp only at hl
          split at hl
          · obtain ⟨rfl, rfl⟩ := hend hl
            exact ⟨hgrew, le_rfl⟩
          · split at hl
            · obtain ⟨hrest, hn⟩ := ih h0₁ hs₁ hL' hl
              exact ⟨hgrew.trans hrest, hn⟩
            · split at hl
              · obtain ⟨rfl, rfl⟩ := hend hl
                exact ⟨hgrew, Nat.le_succ _⟩
              · split at hl
                · obtain ⟨rfl, rfl⟩ := hend hl
                  exact ⟨hgrew, Nat.le_succ _⟩
                · obtain ⟨hrest, hn⟩ := ih h0₁ hs₁ hL' hl
                  exact ⟨hgrew.trans hrest, (Nat.le_succ _).trans hn⟩

-- ---------------------------------------------------------------------------
-- Nothing below
-- ---------------------------------------------------------------------------

/-- When the lookup counts nothing a search finds nothing. -/
theorem lkupLoop_zero {L : List Int} {an : Bool} (h0 : 0 ≤ d.bstart) (hL : ∀ b ∈ L, d.bstart < b)
    (hsorted : L.Pairwise (· < ·)) (hbwh : d.bwh = -1)
    (hpos : ∀ b ∈ L, ∀ h, d.hdentry b = some h → h.positive = true)
    (hl : lkupLoop sb name parent L ⟨an, none, 0⟩ d w = (.ok 0, d', w')) :
    (Scan.search HDentry.isDir (cellAt sb w parent name) L).slots = [] := by
  induction L generalizing an d w with
  | nil => rfl
  | cons b L ih =>
    obtain ⟨hb, hsorted'⟩ := List.pairwise_cons.mp hsorted
    have hL' : ∀ c ∈ L, d.bstart < c := fun c hc => hL c (List.mem_cons_of_mem b hc)
    have hpos' : ∀ c ∈ L, ∀ h, d.hdentry c = some h → h.positive = true := fun c hc =>
      hpos c (List.mem_cons_of_mem b hc)
    rw [lkupLoop] at hl
    split at hl
    · -- a slot below is counted
      rename_i h hslot
      have hp := hpos b List.mem_cons_self h (hdentry_of_hDptrI hslot)
      simp only [hp] at hl
      cases hl
    · split at hl
      · rename_i hdir
        rw [Scan.search, cellAt_of_no_dir sb w name hdir]
        exact ih h0 hL' hsorted' hbwh hpos' hl
      · rename_i hp hdir
        split at hl
        · cases hl
        · rename_i r d₁ w₁ hdo
          obtain ⟨hsame, hcase⟩ := doLookup_ok hdir hdo
          have hcells : cellAt sb w₁ parent name = cellAt sb w parent name := funext fun c =>
            cellAt_of_sameFs sb parent name hsame c
          dsimp only at hl
          rw [Scan.search]
          cases hcase with
          | mask hm hr => rw [if_pos hm]
          | absent hm he hr =>
            rw [hm, if_neg Bool.false_ne_true, he]
            have hgrew := doLookup_grewBelow h0 le_rfl (hL b List.mem_cons_self) hdir hdo
            have hbwh₁ : (if an then d.enter b (hp.negative name) else d).bwh = -1 := by
              split
              · exact hbwh
              · exact hbwh
            rw [if_neg (not_not.mpr hbwh₁), hr] at hl
            rw [← hcells]
            refine ih (hgrew.start.symm ▸ h0) (hgrew.start.symm ▸ hL') hsorted' hbwh₁ (fun c hc h hslot => ?_) hl
            refine hpos' c hc h ?_
            split at hslot
            · have hother : (d.enter b (hp.negative name)).hdentry c = d.hdentry c :=
                Function.update_of_ne (hb c hc).ne' ..
              exact hother.symm.trans hslot
            · exact hslot
          | otherType hm he hi ht => cases ht
          | @found h i hm he hi ht =>
            -- what is found is counted
            have hgrew := doLookup_grewBelow h0 le_rfl (hL b List.mem_cons_self) hdir hdo
            have hbwh₁ : (if i.isDir && (cellAt sb w parent name b).opq then { d.enter b h with bdiropq := b }
                else d.enter b h : Dinfo).bwh = -1 := by
              split
              · exact hbwh
              · exact hbwh
            revert hl hgrew hbwh₁
            generalize (if i.isDir && (cellAt sb w parent name b).opq then { d.enter b h with bdiropq := b }
              else d.enter b h : Dinfo) = d₁
            intro hl hgrew hbwh₁
            rw [if_neg (not_not.mpr hbwh₁), Option.bind_some, hi] at hl
            dsimp only at hl
            split at hl
            · cases hl
            · split at hl
              · cases hl
              · have hcount := (lkupLoop_lower (hgrew.start.symm ▸ h0) (hgrew.start.le) hL' hl).2
                cases hcount

-- ---------------------------------------------------------------------------
-- The lookup of lower names
-- ---------------------------------------------------------------------------

/-- A dentry that starts at a positive slot needs no new start. -/
theorem Dinfo.updateDbstart_of_start (h0 : 0 ≤ d.bstart) (hpos : d.positiveAt d.bstart) (hle : d.bstart ≤ d.bend) :
    d.updateDbstart = d := by
  rw [Dinfo.updateDbstart_of_positive h0 hpos hle fun c hc => ?_]
  · have hslots : (fun b => if d.bstart ≤ b ∧ b < d.bstart then none else d.hdentry b) = d.hdentry := by
      funext b
      rw [if_neg (by omega)]
    rw [hslots]
  · rw [Dinfo.positiveAt, Dinfo.hDptrI, if_pos (.inr hc)]
    rfl

/-- `lkup_dentry` behind the start. -/
theorem lkupDentry_lower {n : Nat} (h0 : 0 ≤ d.bstart) (hle : d.bstart ≤ d.bend) (hstart : d.positiveAt d.bstart)
    (hl : lkupDentry sb name parent d (d.bstart + 1) none w = (.ok n, d', w')) :
    Dinfo.GrewBelow d.bstart d d' ∧
      (n = 0 → d.bwh = -1 → (∀ c h, d.hdentry c = some h → h.positive = true) →
        (Scan.search HDentry.isDir (cellAt sb w parent name) (bindexes (d.bstart + 1) parent.dbtaildir)).slots = []) := by
  have hL : ∀ b ∈ bindexes (d.bstart + 1) parent.dbtaildir, d.bstart < b := fun b hb => by
    have := (mem_bindexes.mp hb).1
    omega
  unfold lkupDentry at hl
  split at hl
  · cases hl
  · split at hl
    · cases hl
    · rename_i w₁ halloc
      have hw₁ : w₁.fs = w.fs := (allocWhname_ok halloc).2
      split at hl
      · cases hl
      · rename_i np d₁ w₂ hloop
        obtain ⟨hgrew, -⟩ := lkupLoop_lower h0 le_rfl hL hloop
        obtain ⟨hnp, hd⟩ := Prod.mk.inj hl
        obtain rfl := Except.ok.inj hnp
        have hd := (Prod.mk.inj hd).1
        have hstart₁ : d₁.positiveAt d₁.bstart := by
          rw [Dinfo.positiveAt, hgrew.start, Dinfo.hDptrI_of_le (hgrew.start.symm ▸ h0) hgrew.start.le,
            hgrew.slot _ le_rfl, ← Dinfo.hDptrI_of_le h0 le_rfl]
          exact hstart
        have hsame : (if np ≠ 0 then d₁.updateDbstart else d₁) = d₁ := by
          split
          · have hle₁ : d₁.bstart ≤ d₁.bend := hgrew.start.le.trans (hle.trans hgrew.last)
            exact Dinfo.updateDbstart_of_start (hgrew.start.symm ▸ h0) hstart₁ hle₁
          · rfl
        rw [hsame] at hd
        subst hd
        refine ⟨hgrew, fun hzero hbwh hpos => ?_⟩
        subst hzero
        have hcells : ∀ c, cellAt sb w₁ parent name c = cellAt sb w parent name c := fun c => cellAt_fs hw₁ parent name c
        rw [← funext hcells]
        exact lkupLoop_zero h0 hL (bindexes_sorted _ _) hbwh (fun b _ => hpos b) hloop

/-- What the question for lower names leaves: no file has changed, and the slots up to the first one stay. -/
structure Mount.AskedLower (sb : SuperBlock) (dir : Path) (name : Name) (m : Mount) (n : Nat) (m' : Mount) : Prop where
  fs : m'.w.fs = m.w.fs
  fails : m'.fails = m.fails
  off : Mount.Off (dir ++ [name]) m m'
  grew : Dinfo.GrewBelow (m.di (dir ++ [name])).bstart (m.di (dir ++ [name])) (m'.di (dir ++ [name]))
  nothing : n = 0 → (m.di (dir ++ [name])).bwh = -1 →
    (∀ c h, (m.di (dir ++ [name])).hdentry c = some h → h.positive = true) →
    (Scan.search HDentry.isDir (m.cell sb dir name)
      (bindexes ((m.di (dir ++ [name])).bstart + 1) (m.di dir).dbtaildir)).slots = []

theorem wp_lkupLower {isdir : Bool} (h0 : 0 ≤ (m.di (dir ++ [name])).bstart)
    (hle : (m.di (dir ++ [name])).bstart ≤ (m.di (dir ++ [name])).bend)
    (hstart : (m.di (dir ++ [name])).positiveAt (m.di (dir ++ [name])).bstart) :
    wp (lkupLower sb (dir ++ [name]) isdir) (fun n m' => Mount.AskedLower sb dir name m n m')
      (fun _ m' => m'.w.fs = m.w.fs ∧ m.fails < m'.fails ∧ Mount.Off (dir ++ [name]) m m') m := by
  have hne : dir ≠ dir ++ [name] := ne_concat_of_within (List.prefix_refl dir)
  generalize hd : m.di (dir ++ [name]) = d at h0 hle hstart
  -- the end goes back when nothing was counted
  have hback : ∀ {n : Nat} {m₁ : Mount}, Mount.AskedLower sb dir name m n m₁ →
      wp (do
          let newBend := (← dinfo (dir ++ [name])).bend
          if n = 0 ∧ d.bend ≠ newBend then do
            onDinfo (dir ++ [name]) fun e => { e.setHDptr newBend none with bend := d.bend }
            pure n
          else pure n)
        (fun n m' => Mount.AskedLower sb dir name m n m')
        (fun _ m' => m'.w.fs = m.w.fs ∧ m.fails < m'.fails ∧ Mount.Off (dir ++ [name]) m m') m₁ := by
    intro n m₁ ha
    refine wp_bind.mpr (wp_dinfo.mpr (wp_ite.mpr ⟨fun hc => ?_, fun _ => wp_pure.mpr ha⟩))
    refine wp_bind.mpr (wp_onDinfo.mpr (wp_pure.mpr ⟨ha.fs, ha.fails, ha.off.setDi _, ⟨?_, fun c hcs => ?_, ?_⟩, ha.nothing⟩))
    · rw [Mount.setDi_di, Function.update_self]
      exact ha.grew.start
    · rw [Mount.setDi_di, Function.update_self]
      have hlast := ha.grew.last
      rw [hd] at hcs hlast
      have hend := hc.2
      refine (Function.update_of_ne (a := c) ?_ ..).trans (ha.grew.slot c (hd.symm ▸ hcs))
      omega
    · rw [Mount.setDi_di, Function.update_self, hd]
  -- the lookup, with any opaque mark
  have hasked : ∀ {x y : Int} {n : Nat} {d' : Dinfo} {m₁ : Mount},
      lkupDentry sb name (m.di dir) { d with bdiropq := x } (d.bstart + 1) none m.w = (.ok n, d', m₁.w) →
      m₁.fails = m.fails → Mount.Off (dir ++ [name]) m m₁ → m₁.di (dir ++ [name]) = { d' with bdiropq := y } →
      Mount.AskedLower sb dir name m n m₁ := by
    intro x y n d' m₁ hl hfails hoff hself
    obtain ⟨hgrew, hzero⟩ := @lkupDentry_lower sb name m.w m₁.w (m.di dir) { d with bdiropq := x } d' n h0 hle hstart hl
    refine ⟨lkupDentry_fs hl, hfails, hoff, ?_, ?_⟩
    · rw [hd, hself]
      exact ⟨hgrew.start, hgrew.slot, hgrew.last⟩
    · rw [hd]
      exact hzero
  unfold lkupLower
  refine wp_bind.mpr (wp_dinfo.mpr ?_)
  rw [hd]
  cases isdir with
  | true =>
    simp only [if_true]
    refine wp_bind.mpr (wp_onDinfo.mpr (wp_bind.mpr (wp_attempt.mpr (wp_onDentry (fun n d' w hl => ?_) fun e d' w hl => ?_))))
    all_goals
      rw [dParent_append, dName_append, Mount.setDi_parent, Mount.setDi_di, Function.update_self, hd] at hl
      refine wp_bind.mpr (wp_onDinfo.mpr (wp_bind.mpr (wp_ofExcept.mpr ?_)))
    · refine hback (hasked (y := d.bdiropq) hl rfl ?_ ?_)
      · exact (((Mount.Off.refl.setDi _).world w m.fails).setDi _).setDi _
      · simp
    · exact ⟨lkupDentry_fs hl, Nat.lt_succ_self _, (((Mount.Off.refl.setDi _).world w (m.fails + 1)).setDi _).setDi _⟩
  | false =>
    simp only [Bool.false_eq_true, if_false]
    refine wp_bind.mpr (wp_attempt.mpr (wp_onDentry (fun n d' w hl => ?_) fun e d' w hl => ?_))
    all_goals
      rw [dParent_append, dName_append, hd] at hl
      refine wp_bind.mpr (wp_ofExcept.mpr ?_)
    · refine hback (hasked (x := d.bdiropq) (y := d'.bdiropq) hl rfl ?_ ?_)
      · exact (Mount.Off.refl.world w m.fails).setDi _
      · simp
    · exact ⟨lkupDentry_fs hl, Nat.lt_succ_self _, (Mount.Off.refl.world w (m.fails + 1)).setDi _⟩

end Aufs
