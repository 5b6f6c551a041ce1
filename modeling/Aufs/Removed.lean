-- SUMMARY: What unlink and rmdir leave: the name is found no more in its directory, or all files are as they were.
import Aufs.LowerNames

/-!
# Deletion

A name that was found, first on a branch `s`, is removed there or is hidden by a whiteout
there or above, and then a lookup finds nothing. The whiteout is there first. When the
removal fails the whiteout is taken back, and the files are the same but for parents that
were copied up.
-/

namespace Aufs

open Prog Op Overlay

variable {m m' m₁ m₂ : Mount} {sb : SuperBlock} {dir : Path} {name : Name} {b s : Int} {br : Branch}

-- ---------------------------------------------------------------------------
-- The name is found
-- ---------------------------------------------------------------------------

/-- Whiteouts are honoured on the branches that are written to. -/
def SuperBlock.HonoursWh (sb : SuperBlock) : Prop := ∀ b, sb.brRdonly b = false → sb.sbrIsWhable b = true

theorem SuperBlock.honoursWh_of_all (h : ∀ br ∈ sb.branches, br.brRdonly = false → brWhable br.perm = true) :
    sb.HonoursWh := by
  intro b hb
  rw [brRdonly] at hb
  rw [sbrIsWhable]
  cases hbr : sb.stobr b with
  | none =>
    rw [hbr] at hb
    cases hb
  | some br =>
    rw [hbr] at hb
    rw [stobr] at hbr
    split at hbr
    · exact h br (List.mem_of_getElem? hbr) hb
    · cases hbr

/-- A lookup in the directory finds the name, and first on the branch `s`. -/
structure Mount.ShownAt (sb : SuperBlock) (dir : Path) (name : Name) (s : Int) (m : Mount) : Prop where
  dirs : m.Dirs sb dir
  first : ∃ h rest, (m.found sb dir name).slots = (s, h) :: rest

/-- The same is found where only empty parents are new. -/
theorem Mount.ShownAt.keeps (h : m.ShownAt sb dir name s) (hk : Mount.KeepsDir sb dir m m')
    (hs : Mount.SameAt dir name m m') : m'.ShownAt sb dir name s := by
  refine ⟨hk.after, ?_⟩
  rw [hk.found_eq hs]
  exact h.first

theorem Mount.ShownAt.above (h : m.ShownAt sb dir name s) : ∀ c ∈ m.asked dir, c < s → ¬ Scan.full (m.cell sb dir name c) := by
  obtain ⟨x, rest, hfound⟩ := h.first
  rw [Mount.found_eq] at hfound
  intro c hc hlt
  obtain ⟨hmask, hentry⟩ := Scan.search_above (m.asked_sorted dir) hfound c hc hlt
  rw [Scan.full, hmask, hentry]
  rintro (hf | hf)
  · cases hf
  · cases hf

/-- The branch has the name and its directory. -/
theorem Mount.ShownAt.top (h : m.ShownAt sb dir name s) :
    ∃ br i j, sb.stobr s = some br ∧ m.w.node br.root (dir ++ [name]) = some i ∧
      (m.di dir).hdentry s = some ⟨br.root, dir, some j⟩ ∧ s ∈ m.asked dir ∧ (m.cell sb dir name s).mask = false ∧
      ∃ rest, (m.found sb dir name).slots = (s, ⟨br.root, dir ++ [name], some i⟩) :: rest := by
  obtain ⟨x, rest, hfound⟩ := h.first
  have hmem : (s, x) ∈ (m.found sb dir name).slots := by
    rw [hfound]
    exact List.mem_cons_self
  obtain ⟨hmask, hentry⟩ := Scan.entry_of_mem_search hmem
  have hfull : Scan.full (m.cell sb dir name s) := .inr (by rw [Mount.cell, hentry]; rfl)
  obtain ⟨hp, hhp⟩ := h.dirs.slot_of_full hfull
  obtain ⟨br, j, hbr, -, -, rfl⟩ := h.dirs.self.slots s hp hhp
  have hcell := h.dirs.cell_some hhp name
  rw [Mount.cell] at hcell
  rw [hcell] at hentry
  obtain ⟨i, hi, hx⟩ := Option.map_eq_some_iff.mp hentry
  refine ⟨br, i, j, hbr, hi, hhp, ?_, hmask, rest, hx ▸ hfound⟩
  exact mem_bindexes.mpr (scan_range hmem)

theorem Mount.ShownAt.le_tail (h : m.ShownAt sb dir name s) : s ≤ (m.di dir).dbtaildir := by
  obtain ⟨-, -, -, -, -, -, hmem, -⟩ := h.top
  exact (mem_bindexes.mp hmem).2

/-- No whiteout that is honoured lies above, or beside. -/
theorem Mount.ShownAt.no_wh (h : m.ShownAt sb dir name s) {hp : HDentry} (hb : b ≤ s)
    (hslot : (m.di dir).hdentry b = some hp) (hable : sb.sbrIsWhable b = true) :
    m.w.node hp.root (dir ++ [whName name]) = none := by
  have hmask : (m.cell sb dir name b).mask = false := by
    rcases hb.lt_or_eq with hlt | rfl
    · have hasked : b ∈ m.asked dir := (h.dirs.mem_asked hslot).mpr (hb.trans h.le_tail)
      have hno := h.above b hasked hlt
      rw [Scan.full, not_or] at hno
      exact Bool.not_eq_true _ ▸ hno.1
    · obtain ⟨-, -, -, -, -, -, -, hmask, -⟩ := h.top
      exact hmask
  rw [h.dirs.cell_some hslot, hable] at hmask
  exact Option.not_isSome_iff_eq_none.mp (Bool.not_eq_true _ ▸ hmask)

-- ---------------------------------------------------------------------------
-- The name is found no more
-- ---------------------------------------------------------------------------

/-- Nothing has changed on the other branches. -/
theorem Mount.Dirs.cell_other (hroots : sb.DistinctRoots) (hm : m.Dirs sb dir) (hm' : m'.Dirs sb dir)
    (hdi : m'.di dir = m.di dir) (hbr : sb.stobr b = some br)
    (hother : ∀ r x, r ≠ br.root → m'.w.node r x = m.w.node r x) {c : Int} (hc : c ≠ b) :
    m'.cell sb dir name c = m.cell sb dir name c := by
  cases hslot : (m.di dir).hdentry c with
  | none => rw [hm.cell_none hslot, hm'.cell_none (hdi ▸ hslot)]
  | some h =>
    obtain ⟨brc, j, hbrc, -, -, rfl⟩ := hm.self.slots c h hslot
    have hne : brc.root ≠ br.root := fun heq => hc (hroots c b brc br hbrc hbr heq)
    rw [hm.cell_some hslot, hm'.cell_some (hdi ▸ hslot), hother _ _ hne, hother _ _ hne, hother _ _ hne]

/-- A whiteout at the branch of the name or above. -/
theorem Mount.ShownAt.masked (hroots : sb.DistinctRoots) (h : m.ShownAt sb dir name s) (hm' : m'.Dirs sb dir)
    (hdi : m'.di dir = m.di dir) (hb : b ≤ s) (hbr : sb.stobr b = some br) (hhas : ((m.di dir).hdentry b).isSome)
    (hother : ∀ r x, r ≠ br.root → m'.w.node r x = m.w.node r x) (hable : sb.sbrIsWhable b = true)
    (hwh : (m'.w.node br.root (dir ++ [whName name])).isSome) : (m'.found sb dir name).slots = [] := by
  obtain ⟨hp, hslot⟩ := Option.isSome_iff_exists.mp hhas
  obtain ⟨br', j, hbr', -, -, rfl⟩ := h.dirs.self.slots b hp hslot
  obtain rfl := Option.some.inj (hbr.symm.trans hbr')
  have hasked : b ∈ m.asked dir := (h.dirs.mem_asked hslot).mpr (hb.trans h.le_tail)
  have hlist : m'.asked dir = m.asked dir := by rw [Mount.asked, Mount.asked, hdi]
  rw [Mount.found_eq, hlist, Scan.search_masked (m.asked_sorted dir) hasked]
  · intro c hc hlt
    rw [h.dirs.cell_other hroots hm' hdi hbr hother hlt.ne]
    exact h.above c hc (hlt.trans_le hb)
  · rw [hm'.cell_some (hdi ▸ hslot), hable]
    exact hwh

/-- The name is gone, and nothing lies below. -/
theorem Mount.ShownAt.gone (hroots : sb.DistinctRoots) (h : m.ShownAt sb dir name s) (hm' : m'.Dirs sb dir)
    (hdi : m'.di dir = m.di dir) (hbr : sb.stobr s = some br)
    (hother : ∀ r x, r ≠ br.root → m'.w.node r x = m.w.node r x) (hgone : m'.w.node br.root (dir ++ [name]) = none)
    (hwh : m'.w.node br.root (dir ++ [whName name]) = m.w.node br.root (dir ++ [whName name]))
    (hlower : (Scan.search HDentry.isDir (m.cell sb dir name) (bindexes (s + 1) (m.di dir).dbtaildir)).slots = []) :
    (m'.found sb dir name).slots = [] := by
  obtain ⟨br', i, j, hbr', -, hslot, hasked, hmask, -⟩ := h.top
  obtain rfl := Option.some.inj (hbr.symm.trans hbr')
  have hlist : m'.asked dir = m.asked dir := by rw [Mount.asked, Mount.asked, hdi]
  have hcell : ∀ c, c ≠ s → m'.cell sb dir name c = m.cell sb dir name c := fun c hc =>
    h.dirs.cell_other hroots hm' hdi hbr hother hc
  have hself : ¬ Scan.full (m'.cell sb dir name s) := by
    rw [h.dirs.cell_some hslot] at hmask
    rw [Scan.full, hm'.cell_some (hdi ▸ hslot)]
    dsimp only at hmask ⊢
    rw [hgone, hwh, hmask]
    rintro (hf | hf)
    · cases hf
    · cases hf
  have hbelow : Scan.search HDentry.isDir (m'.cell sb dir name) (m'.asked dir) =
      Scan.search HDentry.isDir (m.cell sb dir name) (bindexes (s + 1) (m.di dir).dbtaildir) := by
    refine (Scan.search_same (m'.asked_sorted dir) (bindexes_sorted _ _) (fun c => ?_) fun c hc => ?_).symm
    · constructor
      · rintro ⟨hmem, hfull⟩
        have hne : c ≠ s := fun heq => hself (heq ▸ hfull)
        rw [hcell c hne] at hfull
        rw [hlist] at hmem
        have hle : ¬ c < s := fun hlt => h.above c hmem hlt hfull
        refine ⟨mem_bindexes.mpr ⟨by omega, (mem_bindexes.mp hmem).2⟩, hfull⟩
      · rintro ⟨hmem, hfull⟩
        obtain ⟨hlo, hhi⟩ := mem_bindexes.mp hmem
        have hstart := (mem_bindexes.mp hasked).1
        rw [hlist, hcell c (by omega)]
        exact ⟨mem_bindexes.mpr ⟨by omega, hhi⟩, hfull⟩
    · exact (hcell c fun heq => hself (heq ▸ hc)).symm
  rw [Mount.found_eq, hbelow]
  exact hlower

-- ---------------------------------------------------------------------------
-- wr_dir_need_wh
-- ---------------------------------------------------------------------------

/-- `cpup_dirs` makes the parents, or stops on the way. -/
theorem wp_cpupDirs_frame (hm : m.Dirs sb dir) (hbr : sb.stobr b = some br) (hb : b ≤ (m.di dir).dbtaildir) :
    wp (cpupDirs sb (dir ++ [name]) b)
      (fun _ m' => Mount.PathFrame sb m dir name b m' ∧ (m'.di (dir ++ [name]) = m.di (dir ++ [name]) ∧
        m'.hi (dir ++ [name]) = m.hi (dir ++ [name])) ∧ m.fails ≤ m'.fails)
      (fun _ m' => Mount.NotPrepared sb m dir name m') m := by
  have hself := hm.self
  have hrange := (hself.range _ hself.start).2
  have hend : b ≤ (m.di dir).bend := hb.trans ((m.di dir).dbtaildir_le_bend (hself.nonneg.trans hrange))
  rw [cpupDirs, dParent_append]
  refine wp_ite.mpr ⟨fun _ => ?_, fun _ => ?_⟩
  · exact wp_pure.mpr ⟨.refl hm hb, ⟨rfl, rfl⟩, le_rfl⟩
  refine ((wp_cpupDirsLoop_grew hbr (List.prefix_refl dir) hm).and (mono_cpupDirsLoop _).wp).mono
    (fun _ m' h => ?_) fun _ m' h => ?_
  · obtain ⟨⟨hgrew, -, -⟩, hle⟩ := h
    exact ⟨hgrew.pathFrame hm hb, hgrew.others _ (not_concat_within dir name), hle⟩
  · exact ⟨h.1.nodes.imp_left fun hgrew => ⟨b, hend, hgrew⟩, fun q hq _ => h.1.others q hq⟩

/-- The branch is writable and not below that of the dentry, if the one that is asked for is. -/
theorem needWhBranch_ok {parent d : Dinfo} {hi : Int → Option HInode} {bcpup : Int}
    (hgiven : 0 ≤ bcpup → sb.brRdonly bcpup = false ∧ bcpup ≤ d.bstart) (h : needWhBranch sb parent d hi bcpup = .ok b) :
    sb.brRdonly b = false ∧ b ≤ d.bstart ∧ (0 ≤ bcpup → b = bcpup) := by
  rw [needWhBranch] at h
  split at h
  · rename_i hneg
    have hfree : ∀ {c : Int}, 0 ≤ bcpup → c = bcpup := fun h0 => absurd hneg h0.not_gt
    split at h
    · cases h
    · obtain ⟨hwr, hle⟩ := findRwParentBr_ok h
      exact ⟨hwr, hle, hfree⟩
    · rename_i hro
      obtain rfl := Except.ok.inj h
      exact ⟨brRdonly_of_testRo hro, le_rfl, hfree⟩
  · rename_i h0
    obtain rfl := Except.ok.inj h
    obtain ⟨hwr, hle⟩ := hgiven (not_lt.mp h0)
    exact ⟨hwr, hle, fun _ => rfl⟩

/-- The mount after the question for a whiteout: the branch to work on is writable and has the parents, and when no
whiteout is needed there is nothing below. -/
structure Mount.NeedsWh (sb : SuperBlock) (m : Mount) (dir : Path) (name : Name) (s : Int) (need : Bool) (b : Int)
    (m₁ : Mount) : Prop extends Mount.PathFrame sb m dir name b m₁ where
  writable : sb.brRdonly b = false
  le : b ≤ s
  grew : Dinfo.GrewBelow s (m.di (dir ++ [name])) (m₁.di (dir ++ [name]))
  fails : m.fails ≤ m₁.fails
  entry : b ≠ s → m₁.di (dir ++ [name]) = m.di (dir ++ [name]) ∧ m₁.hi (dir ++ [name]) = m.hi (dir ++ [name])
  alone : need = false → b = s ∧ ((m.di (dir ++ [name])).bwh = -1 →
    (∀ c h, (m.di (dir ++ [name])).hdentry c = some h → h.positive = true) →
    (Scan.search HDentry.isDir (m₁.cell sb dir name) (bindexes (s + 1) (m₁.di dir).dbtaildir)).slots = [])

/-- The dentry has its first slot on the branch `s`. -/
structure Mount.StartsAt (m : Mount) (p : Path) (s : Int) : Prop where
  start : (m.di p).bstart = s
  nonneg : 0 ≤ s
  le_bend : s ≤ (m.di p).bend
  positive : (m.di p).positiveAt s

theorem wp_wrDirNeedWh {isdir : Bool} {bcpup : Int} (hshown : m.ShownAt sb dir name s) (hself : m.StartsAt (dir ++ [name]) s)
    (hgiven : 0 ≤ bcpup → sb.brRdonly bcpup = false ∧ bcpup ≤ s) :
    wp (wrDirNeedWh sb (dir ++ [name]) isdir bcpup)
      (fun r m' => Mount.NeedsWh sb m dir name s r.1 r.2 m' ∧ (0 ≤ bcpup → r.2 = bcpup))
      (fun _ m' => Mount.NotDone sb m dir name m') m := by
  have hm := hshown.dirs
  obtain ⟨rfl, h0, hend, hpos⟩ := hself
  have hstop : ∀ {m' : Mount}, m'.w.fs = m.w.fs → Mount.Off (dir ++ [name]) m m' → Mount.NotDone sb m dir name m' :=
    fun hfs hoff => ⟨.inl ⟨_, le_rfl, m, .refl, .of_node (World.node_congr hfs)⟩, fun q _ hne => hoff.di q hne⟩
  refine wp_bind.mpr (wp_state.mpr (wp_bind.mpr (wp_ofExcept.mpr ?_)))
  cases hb : needWhBranch sb (m.di (dParent (dir ++ [name]))) (m.di (dir ++ [name])) (m.hi (dir ++ [name])) bcpup with
  | error => exact hstop rfl .refl
  | ok b =>
    dsimp only
    obtain ⟨hwr, hle, hsame⟩ := needWhBranch_ok hgiven hb
    obtain ⟨br, hbr, -⟩ := stobr_of_not_brRdonly hwr
    have htail := hle.trans hshown.le_tail
    refine wp_ite.mpr ⟨fun _ => ?_, fun heq => ?_⟩
    · -- only a whiteout is made
      refine wp_bind.mpr ((wp_cpupDirs_frame hm hbr htail).mono (fun _ m' h => wp_pure.mpr ?_) fun _ _ h => h.notDone)
      obtain ⟨hframe, hentry, hfails⟩ := h
      exact ⟨⟨hframe, hwr, hle, hentry.1 ▸ .refl _, hfails, fun _ => hentry, fun hno => by cases hno⟩, hsame⟩
    · have heq : b = (m.di (dir ++ [name])).bstart := not_not.mp heq
      refine wp_bind.mpr ((wp_lkupLower h0 hend hpos).mono (fun n m' ha => wp_pure.mpr ?_) fun _ _ h => hstop h.1 h.2.2)
      have hdi : ∀ q, q <+: dir → m'.di q = m.di q := fun q hq => ha.off.di q (ne_concat_of_within hq)
      have hdir := hdi dir (List.prefix_refl dir)
      have hm' : m'.Dirs sb dir := hm.congr (fun q hq => ⟨hdi q hq, ha.off.hi q (ne_concat_of_within hq)⟩)
        fun r q _ _ => by rw [World.node_congr ha.fs]
      have hcell : m'.cell sb dir name = m.cell sb dir name := by
        funext c
        rw [Mount.cell, Mount.cell, hdir, cellAt_fs ha.fs]
      refine ⟨⟨(Mount.PathFrame.refl hm htail).congr .refl rfl ha.off (World.node_congr ha.fs), hwr, hle, ha.grew, ha.fails.ge,
        fun hne => absurd heq hne, fun hno => ⟨heq, ?_⟩⟩, hsame⟩
      rw [hcell, hdir]
      exact ha.nothing (by simpa using hno)

-- ---------------------------------------------------------------------------
-- The whiteout
-- ---------------------------------------------------------------------------

variable {wh : Option HDentry}

/-- The mount with the whiteout, if one is needed. `m₁` is what it was before the whiteout was made. -/
structure Mount.Hidden (sb : SuperBlock) (m : Mount) (dir : Path) (name : Name) (s : Int) (wh : Option HDentry) (b : Int)
    (br : Branch) (m₁ m₂ : Mount) : Prop extends Mount.NeedsWh sb m dir name s wh.isSome b m₁ where
  branch : sb.stobr b = some br
  parent : ((m₁.di dir).hdentry b).isSome
  off : Mount.Off (dir ++ [name]) m₁ m₂
  grew₂ : Dinfo.GrewBelow s (m₁.di (dir ++ [name])) (m₂.di (dir ++ [name]))
  fails₂ : m₁.fails ≤ m₂.fails
  made : ∀ x ∈ wh, x.root = br.root ∧ x.path = dir ++ [whName name] ∧
    m₁.w.node br.root (dir ++ [whName name]) = none ∧
    ∃ i, m₁.w.Sets m₂.w br.root (dir ++ [whName name]) (some i)
  kept : wh = none → m₂.w.node = m₁.w.node

/-- The name is found before the whiteout is there. -/
theorem Mount.NeedsWh.shown {need : Bool} (hn : Mount.NeedsWh sb m dir name s need b m₁) (h : m.ShownAt sb dir name s) :
    m₁.ShownAt sb dir name s :=
  h.keeps hn.keeps (hn.nodes.sameAt name)

theorem wp_lockHdirCreateWh {isdir : Bool} (hwr : sb.HonoursWh) (hshown : m.ShownAt sb dir name s)
    (hself : m.StartsAt (dir ++ [name]) s) :
    wp (lockHdirCreateWh sb (dir ++ [name]) isdir) (fun r m₂ => ∃ br m₁, Mount.Hidden sb m dir name s r.1 r.2 br m₁ m₂)
      (fun _ m' => Mount.NotDone sb m dir name m') m := by
  refine wp_bind.mpr ((wp_wrDirNeedWh hshown hself fun h0 => absurd h0 (by decide)).mono ?_ fun _ _ h => h)
  rintro ⟨need, b⟩ m₁ ⟨hn, -⟩
  have hstop : ∀ {w k}, m₁.fails < k → w.fs = m₁.w.fs → Mount.NotDone sb m dir name (m₁.withWorld w k) := fun hk hfs =>
    hn.toPathFrame.notDone hn.fails ⟨Mount.Off.refl.world _ _, hk, .inl (.of_node (World.node_congr hfs))⟩
  obtain ⟨br, hbr, -⟩ := stobr_of_not_brRdonly hn.writable
  have hshown₁ := hn.shown hshown
  dsimp only
  rw [dParent_append]
  refine wp_bind.mpr (wp_hDptrI (fun hp hhp => ?_) fun _ => hstop (Nat.lt_succ_self _) rfl)
  rw [hshown₁.dirs.self.hDptrI] at hhp
  obtain ⟨br', j, hbr', -, -, rfl⟩ := hshown₁.dirs.self.slots b hp hhp
  obtain rfl := Option.some.inj (hbr.symm.trans hbr')
  have hparent : ((m₁.di dir).hdentry b).isSome := by
    rw [hhp]
    rfl
  have hwas := hshown₁.no_wh hn.le hhp (hwr b hn.writable)
  refine wp_ite.mpr ⟨fun hneed => wp_bind.mpr ?_, fun hno => wp_pure.mpr ?_⟩
  · subst hneed
    refine wp_simpleCreateWh hbr (fun h w hroot hpath hsome hold hfs => ?_)
      (fun h w k i hroot hpath _ _ hk _ hsets => wp_pure.mpr ?_) fun e w k hk hfs => hstop hk hfs
    · rw [dName_append] at hold
      rw [← hold, hwas] at hsome
      cases hsome
    · rw [dName_append] at hpath hsets
      refine ⟨br, m₁, hn, hbr, hparent, (Mount.Off.refl.world w k).setDi _, ?_, hk, fun x hx => ?_, fun hx => by cases hx⟩
      · rw [Mount.setDi_di, Function.update_self]
        exact ⟨rfl, fun _ _ => rfl, le_rfl⟩
      · obtain rfl := Option.some.inj hx
        exact ⟨hroot, hpath, hwas, i, hsets⟩
  · obtain rfl := Bool.eq_false_iff.mpr hno
    exact ⟨br, m₁, hn, hbr, hparent, .refl, .refl _, le_rfl, fun x hx => (by cases hx), fun _ => rfl⟩

/-- Without a whiteout a removal that fails has changed nothing. -/
theorem Mount.Hidden.notDone {m₃ : Mount} (hh : Mount.Hidden sb m dir name s none b br m₁ m₂)
    (hoff : Mount.Off (dir ++ [name]) m₂ m₃) (hfails : m₂.fails < m₃.fails) (hfs : m₃.w.fs = m₂.w.fs) :
    Mount.NotDone sb m dir name m₃ := by
  have hle := hh.fails₂
  refine hh.toPathFrame.notDone hh.fails ⟨hh.off.trans hoff, by omega, .inl (.of_node ?_)⟩
  rw [World.node_congr hfs, hh.kept rfl]

/-- The whiteout is taken back, or that fails too. -/
theorem Mount.Hidden.wp_doRevert {m₃ : Mount} {x : HDentry} {e : Errno} {bwh : Int}
    (hh : Mount.Hidden sb m dir name s (some x) b br m₁ m₂) (hoff : Mount.Off (dir ++ [name]) m₂ m₃)
    (hfails : m₂.fails < m₃.fails) (hfs : m₃.w.fs = m₂.w.fs) :
    wp (doRevert e x (dir ++ [name]) bwh) (fun _ _ => False) (fun _ m' => Mount.NotDone sb m dir name m') m₃ := by
  have hnode : m₃.w.node = m₂.w.node := World.node_congr hfs
  have hle := hh.fails₂
  obtain ⟨hroot, hpath, hwas, i, hsets⟩ := hh.made x rfl
  refine wp_bind.mpr (wp_attempt.mpr (wp_bind.mpr (wp_vfsubUnlink (fun w j _ _ hgone => ?_) fun err w hw => ?_)))
  · refine wp_onDinfo.mpr (wp_bind.mpr (wp_onDinfo.mpr (wp_fail.mpr ?_)))
    refine hh.toPathFrame.notDone hh.fails ⟨?_, hle.trans_lt hfails, .inl (.of_node ?_)⟩
    · exact hh.off.trans (((hoff.world w m₃.fails).setDi _).setDi _)
    · funext r q
      rw [Mount.setDi_w, Mount.setDi_w, hgone r q, hnode, hsets r q, hroot, hpath]
      split
      · rename_i hx
        rw [hx.1, hx.2, hwas]
      · rfl
  · refine wp_fail.mpr (hh.toPathFrame.notDone hh.fails ⟨?_, ?_, .inr ?_⟩)
    · exact hh.off.trans (hoff.world w (m₃.fails + 1))
    · rw [Mount.failed_fails]
      omega
    · rw [Mount.failed_fails]
      omega

-- ---------------------------------------------------------------------------
-- The removal
-- ---------------------------------------------------------------------------

theorem ChangesAt.refl (h : m'.w.node = m.w.node) : ChangesAt dir name m.w m'.w := fun r x _ => by rw [h]

theorem ChangesAt.trans {w w₁ w₂ : World} (h : ChangesAt dir name w w₁) (h' : ChangesAt dir name w₁ w₂) :
    ChangesAt dir name w w₂ := fun r x hx => (h' r x hx).trans (h r x hx)

/-- One path in the directory. -/
theorem ChangesAt.of_sets {w w' : World} {r : Nat} {k : Name} {v : Option HInode} (hk : AskedFor name k)
    (h : w.Sets w' r (dir ++ [k]) v) : ChangesAt dir name w w' := by
  intro t x hx
  rw [h t x, if_neg]
  rintro ⟨-, rfl⟩
  exact hx k hk (List.prefix_refl _)

/-- No change at a name reaches the directory. -/
theorem ChangesAt.dirs (h : ChangesAt dir name m.w m'.w) (hoff : Mount.Off (dir ++ [name]) m m') (hm : m.Dirs sb dir) :
    m'.Dirs sb dir := by
  refine hm.congr (fun q hq => ⟨hoff.di q (ne_concat_of_within hq), hoff.hi q (ne_concat_of_within hq)⟩)
    fun r q hq _ => h r q fun k _ hpre => ?_
  exact not_concat_within dir k (hpre.trans hq)

/-- The removal from the mount with the parents: a lookup finds nothing more. -/
structure Mount.Removes (sb : SuperBlock) (dir : Path) (name : Name) (m₁ m' : Mount) : Prop where
  off : Mount.Off (dir ++ [name]) m₁ m'
  changes : ChangesAt dir name m₁.w m'.w
  nothing : (m'.found sb dir name).slots = []

/-- The deletion has succeeded. -/
structure Mount.Removed (sb : SuperBlock) (m : Mount) (dir : Path) (name : Name) (m' : Mount) : Prop where
  run : ∃ b m₁, Mount.PathFrame sb m dir name b m₁ ∧ ((m₁.di dir).hdentry b).isSome ∧ Mount.Removes sb dir name m₁ m'

/-- What is removed on the branch of the whiteout. -/
theorem Mount.Hidden.removed {m₃ : Mount} (hroots : sb.DistinctRoots) (hwr : sb.HonoursWh)
    (hshown : m.ShownAt sb dir name s) (hname : hasWhPfx name = false) (hh : Mount.Hidden sb m dir name s wh b br m₁ m₂)
    (hoff : Mount.Off (dir ++ [name]) m₂ m₃) (hother : ∀ r x, r ≠ br.root → m₃.w.node r x = m₂.w.node r x)
    (hch : ChangesAt dir name m₂.w m₃.w)
    (hwh : m₃.w.node br.root (dir ++ [whName name]) = m₂.w.node br.root (dir ++ [whName name]))
    (hgone : wh = none → m₃.w.node br.root (dir ++ [name]) = none ∧ (m.di (dir ++ [name])).bwh = -1 ∧
      ∀ c h, (m.di (dir ++ [name])).hdentry c = some h → h.positive = true) : Mount.Removed sb m dir name m₃ := by
  have hshown₁ := hh.toNeedsWh.shown hshown
  have hdi : m₃.di dir = m₁.di dir := (hoff.at_dir).trans hh.off.at_dir
  refine ⟨b, m₁, hh.toPathFrame, hh.parent, hh.off.trans hoff, ?_, ?_⟩
  all_goals cases hx : wh with
    | none => ?_
    | some x => ?_
  · exact (ChangesAt.refl (hh.kept hx)).trans hch
  · obtain ⟨-, -, -, i, hsets⟩ := hh.made x hx
    exact (ChangesAt.of_sets (askedFor_whName hname) hsets).trans hch
  · obtain ⟨hgone, hbwh, hpos⟩ := hgone hx
    obtain ⟨rfl, hlower⟩ := hh.alone (by rw [hx]; rfl)
    have hkept := hh.kept hx
    rw [hkept] at hwh hother
    have hm₃ : m₃.Dirs sb dir := ((ChangesAt.refl hkept).trans hch).dirs (hh.off.trans hoff) hshown₁.dirs
    exact hshown₁.gone hroots hm₃ hdi hh.branch hother hgone hwh (hlower hbwh hpos)
  · obtain ⟨-, -, -, i, hsets⟩ := hh.made x hx
    have hm₃ : m₃.Dirs sb dir :=
      ((ChangesAt.of_sets (askedFor_whName hname) hsets).trans hch).dirs (hh.off.trans hoff) hshown₁.dirs
    refine hshown₁.masked hroots hm₃ hdi hh.le hh.branch hh.parent (fun r y hr => ?_) (hwr b hh.writable) ?_
    · rw [hother r y hr, hsets r y, if_neg fun h => hr h.1]
    · rw [hwh, hsets _ _, if_pos ⟨rfl, rfl⟩]
      rfl

-- ---------------------------------------------------------------------------
-- unlink
-- ---------------------------------------------------------------------------

/-- The dentry is the one of a name that is found, and its lookup has met no whiteout. -/
structure Mount.Target (sb : SuperBlock) (dir : Path) (name : Name) (s : Int) (m : Mount) : Prop
    extends Mount.ShownAt sb dir name s m where
  starts : m.StartsAt (dir ++ [name]) s
  slot : ∃ br i, sb.stobr s = some br ∧ (m.di (dir ++ [name])).hdentry s = some ⟨br.root, dir ++ [name], some i⟩
  bwh : (m.di (dir ++ [name])).bwh = -1
  positive : ∀ c h, (m.di (dir ++ [name])).hdentry c = some h → h.positive = true

/-- The slot is still there when the whiteout is. -/
theorem Mount.Hidden.slot (ht : m.Target sb dir name s) (hh : Mount.Hidden sb m dir name s wh b br m₁ m₂) :
    (m₂.di (dir ++ [name])).bstart = s ∧
      (m₂.di (dir ++ [name])).hDptrI s = (m.di (dir ++ [name])).hdentry s := by
  have hgrew := hh.grew.trans hh.grew₂
  have hstart := hgrew.start.trans ht.starts.start
  refine ⟨hstart, ?_⟩
  rw [Dinfo.hDptrI_of_le (hstart.symm ▸ ht.starts.nonneg) hstart.le, hgrew.slot s le_rfl]

/-- On the branch of the whiteout only what the removal has removed is missing. -/
theorem Mount.Hidden.top (ht : m.Target sb dir name s) (hh : Mount.Hidden sb m dir name s wh b br m₁ m₂) {h : HDentry}
    (hslot : (m₂.di (dir ++ [name])).hDptrI s = some h) (hb : b = s) : h.root = br.root ∧ h.path = dir ++ [name] := by
  obtain ⟨br', i, hbr', hi⟩ := ht.slot
  rw [(hh.slot ht).2, hi] at hslot
  obtain rfl := Option.some.inj hslot
  subst hb
  obtain rfl := Option.some.inj (hh.branch.symm.trans hbr')
  exact ⟨rfl, rfl⟩

/-- The files alone matter, not the world around them. -/
theorem Mount.PathFrame.of_withFs {w : World} (hfs : w.fs = m.w.fs)
    (h : Mount.PathFrame sb { m with w } dir name b m₁) : Mount.PathFrame sb m dir name b m₁ :=
  h.congr (Mount.Off.refl.world w m.fails) (World.node_congr hfs) .refl rfl

theorem Mount.Removed.of_withFs {w : World} (hfs : w.fs = m.w.fs) (h : Mount.Removed sb { m with w } dir name m') :
    Mount.Removed sb m dir name m' := by
  obtain ⟨b, m₁, hframe, hrest⟩ := h.run
  exact ⟨b, m₁, hframe.of_withFs hfs, hrest⟩

theorem Mount.NotDone.of_withFs {w : World} (hfs : w.fs = m.w.fs) (h : Mount.NotDone sb { m with w } dir name m') :
    Mount.NotDone sb m dir name m' := by
  refine ⟨h.files.imp_left fun ⟨b, hb, m₁, hgrew, hrest⟩ => ⟨b, hb, m₁, ?_, hrest⟩, h.others⟩
  exact hgrew.congr (World.node_congr hfs) (fun _ _ => rfl) rfl

theorem Mount.ShownAt.withFs {w : World} (hfs : w.fs = m.w.fs) (h : m.ShownAt sb dir name s) :
    Mount.ShownAt sb dir name s { m with w } := by
  have hfound : Mount.found sb { m with w } dir name = m.found sb dir name :=
    Scan.search_congr fun c _ => cellAt_fs hfs _ _ c
  exact ⟨h.dirs.withFs hfs, hfound ▸ h.first⟩

theorem Mount.Target.withFs {w : World} (hfs : w.fs = m.w.fs) (ht : m.Target sb dir name s) :
    Mount.Target sb dir name s { m with w } :=
  ⟨ht.toShownAt.withFs hfs, ⟨ht.starts.start, ht.starts.nonneg, ht.starts.le_bend, ht.starts.positive⟩, ht.slot, ht.bwh,
    ht.positive⟩

theorem wp_delEpilog {alone : Bool} (hr : ∀ d, Mount.Removed sb m dir name (m'.setDi (dir ++ [name]) d)) :
    wp (delEpilog alone (dir ++ [name])) (fun _ m'' => Mount.Removed sb m dir name m'')
      (fun _ m'' => Mount.NotDone sb m dir name m'') m' := by
  refine wp_ite.mpr ⟨fun _ => wp_onDinfo.mpr (hr _), fun _ => wp_pure.mpr ?_⟩
  rw [← Mount.setDi_self m' (dir ++ [name])]
  exact hr _

/-- `aufs_unlink` removes the name, or the files stay as they are. -/
theorem wp_aufsUnlink (hroots : sb.DistinctRoots) (hwr : sb.HonoursWh) (hname : hasWhPfx name = false)
    (ht : m.Target sb dir name s) (alone : Bool) :
    wp (aufsUnlink sb alone (dir ++ [name])) (fun _ m' => Mount.Removed sb m dir name m')
      (fun _ m' => Mount.NotDone sb m dir name m') m := by
  refine wp_bind.mpr (wp_state.mpr (wp_ite.mpr ⟨fun _ => wp_fail.mpr ?_, fun _ => ?_⟩))
  · exact ⟨.inl ⟨_, le_rfl, m, .refl, .of_node rfl⟩, fun _ _ _ => rfl⟩
  rw [ht.starts.start]
  refine wp_bind.mpr ((wp_lockHdirCreateWh hwr ht.toShownAt ht.starts).mono ?_ fun _ _ h => h)
  rintro ⟨wh, b⟩ m₂ ⟨br, m₁, hh⟩
  obtain ⟨hstart, -⟩ := hh.slot ht
  refine wp_bind.mpr (wp_dinfo.mpr ?_)
  rw [hstart]
  have hstop : ∀ {m₃ : Mount}, Mount.GivenUp dir name m₁ m₃ → Mount.NotDone sb m dir name m₃ := fun hg =>
    hh.toPathFrame.notDone hh.fails hg
  refine wp_bind.mpr (wp_hDptrI (fun h hslot => ?_) fun hno => ?_)
  rotate_left
  · -- the slot is there
    obtain ⟨br', i, -, hi⟩ := ht.slot
    rw [(hh.slot ht).2, hi] at hno
    cases hno
  refine wp_bind.mpr (wp_attempt.mpr (wp_ite.mpr ⟨fun hb => ?_, fun hb => wp_pure.mpr ?_⟩))
  · obtain ⟨hroot, hpath⟩ := hh.top ht hslot hb
    refine wp_vfsubUnlink (fun w i _ _ hsets => wp_delEpilog fun d => ?_) fun e w hw => ?_
    · rw [hroot, hpath] at hsets
      refine hh.removed hroots hwr ht.toShownAt hname (Mount.Off.refl.world w m₂.fails |>.setDi d) (fun r x hr => ?_) ?_ ?_
        fun _ => ⟨?_, ht.bwh, ht.positive⟩
      · exact (hsets r x).trans (if_neg fun hx => hr hx.1)
      · exact ChangesAt.of_sets (.inl rfl) hsets
      · exact (hsets _ _).trans (if_neg fun hx => concat_ne_whName hname name hx.2.symm)
      · exact (hsets _ _).trans (if_pos ⟨rfl, rfl⟩)
    · have hoff : Mount.Off (dir ++ [name]) m₂ (m₂.failed w) := Mount.Off.refl.world w _
      cases wh with
      | none => exact wp_fail.mpr (hh.notDone hoff (Nat.lt_succ_self _) hw)
      | some x => exact (hh.wp_doRevert hoff (Nat.lt_succ_self _) hw).mono (fun _ _ => False.elim) fun _ _ h => h
  · refine wp_delEpilog fun d => ?_
    refine hh.removed hroots hwr ht.toShownAt hname (Mount.Off.refl.setDi d) (fun _ _ _ => rfl) (ChangesAt.refl rfl) rfl
      fun hx => ?_
    -- above the branch of the name a whiteout is needed
    exact absurd (hh.alone (by rw [hx]; rfl)).1 hb

end Aufs
