-- SUMMARY: What users see after the rename of a file: it has its new name, and after a failed one the same as before.
import Aufs.Renamed

/-!
# Renames as users see them

After the rename of a file users see it under its new name, nothing under the old one, and
what they saw at all other paths. When the rename fails they see the same as before, as long
as the steps that take it back do not fail as well.
-/

namespace Aufs

open Prog Op Overlay

variable {m m' m₁ m₂ : Mount} {sb : SuperBlock} {P : RenamePaths} {w w' : World} {b s : Int} {r : Nat} {br : Branch}
  {i : HInode} {e : Seen} {S WS D WD T : Option HInode}

-- ---------------------------------------------------------------------------
-- The two names
-- ---------------------------------------------------------------------------

namespace RenamePaths

variable (P : RenamePaths)

/-- The names whose lookups ask for what a rename changes. -/
def names : List (Path × Name) := [(P.sdir, P.sname), (P.ddir, P.dname)]

theorem forall_names {p : Path × Name → Prop} (hs : p (P.sdir, P.sname)) (hd : p (P.ddir, P.dname)) :
    ∀ x ∈ P.names, p x := by
  intro x hx
  simp only [names, List.mem_cons, List.not_mem_nil, or_false] at hx
  cases hx with
  | inl h => exact h ▸ hs
  | inr h => exact h ▸ hd

theorem names_ok : ∀ x ∈ P.names, hasWhPfx x.2 = false := P.forall_names P.sok P.dok

/-- An opaque mark is none of the four paths. -/
theorem mark_ne (q : Path) : ¬ (q ++ [diropqName] = P.src ∨ q ++ [diropqName] = P.whSrc ∨ q ++ [diropqName] = P.dst ∨
    q ++ [diropqName] = P.whDst) := by
  have hname : ∀ {d n}, hasWhPfx n = false → q ++ [diropqName] ≠ d ++ [n] := fun hn heq => by
    have hopq := List.singleton_inj.mp (List.append_inj' heq rfl).2
    rw [← hopq, diropqName, hasWhPfx_whName] at hn
    cases hn
  have hwh : ∀ {d n}, hasWhPfx n = false → q ++ [diropqName] ≠ d ++ [whName n] := fun hn heq => by
    have hopq := whName_injective (List.singleton_inj.mp (List.append_inj' heq rfl).2)
    rw [← hopq] at hn
    exact absurd hn (by decide)
  rintro (h | h | h | h)
  · exact hname P.sok h
  · exact hwh P.sok h
  · exact hname P.dok h
  · exact hwh P.dok h

end RenamePaths

namespace Places

/-- A rename changes only what lookups of its names ask for. -/
theorem changes (hp : Places P r w w' S WS D WD) : ChangesAmong P.names w w' := by
  intro x q hq
  have hs : (P.sdir, P.sname) ∈ P.names := List.mem_cons_self
  have hd : (P.ddir, P.dname) ∈ P.names := List.mem_cons_of_mem _ List.mem_cons_self
  refine hp.others x q ?_
  rintro ⟨-, rfl | rfl | rfl | rfl⟩
  · exact hq _ hs _ (.inl rfl) (List.prefix_refl _)
  · exact hq _ hs _ (askedFor_whName P.sok) (List.prefix_refl _)
  · exact hq _ hd _ (.inl rfl) (List.prefix_refl _)
  · exact hq _ hd _ (askedFor_whName P.dok) (List.prefix_refl _)

/-- A path that has on the branch what it had. -/
theorem node_eq (hp : Places P r w w' S WS D WD) {q : Path} (hq : w'.node r q = w.node r q) (x : Nat) :
    w'.node x q = w.node x q := by
  by_cases hx : x = r
  case pos => rw [hx, hq]
  case neg => exact hp.others x q fun h => hx h.1

/-- What lookups of the old name ask for is the same. -/
theorem sameSrc (hp : Places P r w w' S WS D WD) (hS : S = w.node r P.src) (hWS : WS = w.node r P.whSrc) :
    Mount.SameAt P.sdir P.sname (Mount.cold sb w) (Mount.cold sb w') :=
  ⟨hp.node_eq (hp.src.trans hS), fun x => congrArg Option.isSome (hp.node_eq (hp.whSrc.trans hWS) x),
    fun x => congrArg Option.isSome (hp.others x _ fun h => P.mark_ne P.src h.2)⟩

/-- What lookups of the new name ask for is the same. -/
theorem sameDst (hp : Places P r w w' S WS D WD) (hD : D = w.node r P.dst) (hWD : WD = w.node r P.whDst) :
    Mount.SameAt P.ddir P.dname (Mount.cold sb w) (Mount.cold sb w') :=
  ⟨hp.node_eq (hp.dst.trans hD), fun x => congrArg Option.isSome (hp.node_eq (hp.whDst.trans hWD) x),
    fun x => congrArg Option.isSome (hp.others x _ fun h => P.mark_ne P.dst h.2)⟩

end Places

/-- Lookups reach both directories on the branch, no branch above has anything under the names, and no directory is seen
there. -/
structure RenameClear (sb : SuperBlock) (P : RenamePaths) (b : Int) (w : World) : Prop where
  src : ClearTo sb w P.sdir P.sname b
  dst : ClearTo sb w P.ddir P.dname b
  file : NoDir sb w P.src
  noDir : NoDir sb w P.dst

namespace RenameClear

/-- The dentries of both directories stay. -/
theorem dirs (hc : RenameClear sb P b w) (hp : Places P r w w' S WS D WD) :
    freshDi sb w' P.sdir = freshDi sb w P.sdir ∧ freshDi sb w' P.ddir = freshDi sb w P.ddir := by
  have hout : ∀ {d : Path}, SeenDir sb w d → freshDi sb w' d = freshDi sb w d := fun {d} hd =>
    freshDi_of_among P.names_ok hp.changes
      (P.forall_names (p := fun x => ¬ x.1 ++ [x.2] <+: d) (hc.file.not_within hd) (hc.noDir.not_within hd))
  exact ⟨hout hc.src.shown, hout hc.dst.shown⟩

section After

variable (hroots : sb.DistinctRoots) (hbr : sb.stobr b = some br) (hc : RenameClear sb P b w)
  (hp : Places P br.root w w' S WS D WD)

include hroots hbr hc hp

theorem srcAfter : ClearTo sb w' P.sdir P.sname b :=
  hc.src.of_changes hroots hbr (hc.dirs hp).1 fun x q hx => hp.others x q fun h => hx h.1

theorem dstAfter : ClearTo sb w' P.ddir P.dname b :=
  hc.dst.of_changes hroots hbr (hc.dirs hp).2 fun x q hx => hp.others x q fun h => hx h.1

end After

/-- The other paths are seen as they were. -/
theorem rest (hc : RenameClear sb P b w) (hp : Places P r w w' S WS D WD) (hsrc : NoDir sb w' P.src)
    (hdst : NoDir sb w' P.dst) {q : Path} (hqs : q ≠ P.src) (hqd : q ≠ P.dst) : seen sb w' q = seen sb w q := by
  refine seen_of_among P.names_ok hp.changes ?_ ?_ ?_
  · exact P.forall_names (p := fun x => ∀ k, seen sb w (x.1 ++ [x.2] ++ [k]) = none) hc.file.below hc.noDir.below
  · exact P.forall_names (p := fun x => ∀ k, seen sb w' (x.1 ++ [x.2] ++ [k]) = none) hsrc.below hdst.below
  · exact P.forall_names (p := fun x => q ≠ x.1 ++ [x.2]) hqs hqd

/-- The file has its new name. -/
theorem renamed (hc : RenameClear sb P b w) (hp : Places P r w w' S WS D WD) (hsrc : seen sb w' P.src = none)
    (hdst : seen sb w' P.dst = some e) (he : e.mode ≠ .dir) :
    seen sb w' = Function.update (Function.update (seen sb w) P.src none) P.dst (some e) := by
  have hfile : NoDir sb w' P.dst := fun x hx => by
    rw [hdst] at hx
    exact Option.some.inj hx ▸ he
  funext q
  by_cases hqd : q = P.dst
  case pos => rw [hqd, Function.update_self, hdst]
  case neg =>
    rw [Function.update_of_ne hqd]
    by_cases hqs : q = P.src
    case pos => rw [hqs, Function.update_self, hsrc]
    case neg => rw [Function.update_of_ne hqs, hc.rest hp (.of_none hsrc) hfile hqs hqd]

/-- Both names are seen as they were. -/
theorem same (hc : RenameClear sb P b w) (hp : Places P r w w' S WS D WD) (hsrc : seen sb w' P.src = seen sb w P.src)
    (hdst : seen sb w' P.dst = seen sb w P.dst) : seen sb w' = seen sb w := by
  funext q
  by_cases hqs : q = P.src
  case pos => rw [hqs, hsrc]
  case neg =>
    by_cases hqd : q = P.dst
    case pos => rw [hqd, hdst]
    case neg => exact hc.rest hp (fun x hx => hc.file x (hsrc ▸ hx)) (fun x hx => hc.noDir x (hdst ▸ hx)) hqs hqd

end RenameClear

-- ---------------------------------------------------------------------------
-- do_rename
-- ---------------------------------------------------------------------------

/-- The mount before `do_rename`: the branch has both directories, and the file `i` is found, first on the branch `s`. -/
structure Mount.RenameReady (sb : SuperBlock) (P : RenamePaths) (b s : Int) (br : Branch) (i : HInode) (m : Mount) :
    Prop where
  branch : sb.stobr b = some br
  able : sb.sbrIsWhable b = true
  trueSrc : m.TrueTo sb P.sdir
  shown : m.ShownAt sb P.sdir P.sname s
  clear : RenameClear sb P b m.w
  file : i.isDir = false
  entry : seen sb m.w P.src = some ⟨i.mode, i.data⟩
  noWh : m.w.node br.root P.whSrc = none

namespace Mount.RenameReady

theorem mode_ne (hr : m.RenameReady sb P b s br i) : i.mode ≠ .dir := fun h => by
  have hdir := HInode.isDir_iff.mpr h
  rw [hr.file] at hdir
  cases hdir

/-- After the rename users see the file under its new name only. -/
theorem done {need : Bool} (hroots : sb.DistinctRoots) (hr : m.RenameReady sb P b s br i)
    (halone : need = false → b = s ∧
      (Scan.search HDentry.isDir (m.cell sb P.sdir P.sname) (bindexes (s + 1) (m.di P.sdir).dbtaildir)).slots = [])
    (hren : Mount.Renames P b s br.root i m m' WS WD) (hwh : need = true → WS.isSome) (hno : need = false → WS = none)
    (hdst : WD = none) :
    Aufs.seen sb m'.w =
      Function.update (Function.update (Aufs.seen sb m.w) P.src none) P.dst (some ⟨i.mode, i.data⟩) := by
  obtain ⟨T, E, ⟨j, rfl, hj, hmode, hdata⟩, hp, hgone⟩ := hren.done
  have hother : ∀ x q, x ≠ br.root → m'.w.node x q = m.w.node x q := fun x q hx => hp.others x q fun h => hx h.1
  have hseen : Aufs.seen sb m'.w P.dst = some ⟨j.mode, j.data⟩ :=
    (hr.clear.dstAfter hroots hr.branch hp).seen_file P.dok hr.branch (fun _ => hp.whDst.trans hdst) hp.dst hj
  rw [hmode, hdata] at hseen
  refine hr.clear.renamed hp ?_ hseen hr.mode_ne
  have hsrc := hr.clear.srcAfter hroots hr.branch hp
  cases need with
  | true => exact hsrc.seen_wh P.sok hr.branch hr.able (hp.whSrc ▸ hwh rfl)
  | false =>
    obtain ⟨rfl, hlower⟩ := halone rfl
    rw [hr.trueSrc.cell, hr.trueSrc.tail _ (List.prefix_refl _)] at hlower
    have hcold : (Mount.cold sb m.w).ShownAt sb P.sdir P.sname b :=
      ⟨dirs_cold hr.trueSrc.seenDir, hr.trueSrc.found P.sname ▸ hr.shown.first⟩
    refine seen_none_of_found P.sok ?_
    exact hcold.gone hroots (dirs_cold hsrc.shown) (hr.clear.dirs hp).1 hr.branch hother (hp.src.trans (hgone rfl))
      (hp.whSrc.trans ((hno rfl).trans hr.noWh.symm)) hlower

/-- After a rename that failed users see what they saw. -/
theorem undone {hid : Bool} (hroots : sb.DistinctRoots) (hr : m.RenameReady sb P b s br i)
    (hno : Mount.NotRenamed P b s br.root i hid m m' (m.w.node br.root P.src) (m.w.node br.root P.dst)
      (m.w.node br.root P.whDst)) (hhid : hid = true → (m.w.node br.root P.whDst).isSome) :
    Aufs.seen sb m'.w = Aufs.seen sb m.w ∨ m.fails + 2 ≤ m'.fails := by
  obtain ⟨T, E, hund, hT, hE⟩ := hno.undone
  refine hund.symm.imp (fun ⟨hp, _⟩ => hr.clear.same hp ?_ ?_) id
  · rcases hT with hT | ⟨-, j, rfl, hj, hmode, hdata⟩
    · exact seen_of_same (hr.clear.dirs hp).1 (hp.sameSrc hT hr.noWh.symm)
    · have hseen : Aufs.seen sb m'.w P.src = some ⟨j.mode, j.data⟩ :=
        (hr.clear.srcAfter hroots hr.branch hp).seen_file P.sok hr.branch (fun _ => hp.whSrc) hp.src hj
      rw [hseen, hmode, hdata, hr.entry]
  · rcases hE with hE | hhid'
    · exact seen_of_same (hr.clear.dirs hp).2 (hp.sameDst hE rfl)
    · -- a whiteout hides the new name, before and after
      have hwh := hhid hhid'
      have hafter : Aufs.seen sb m'.w P.dst = none :=
        (hr.clear.dstAfter hroots hr.branch hp).seen_wh P.dok hr.branch hr.able (hp.whDst ▸ hwh)
      have hbefore : Aufs.seen sb m.w P.dst = none := hr.clear.dst.seen_wh P.dok hr.branch hr.able hwh
      rw [hafter, hbefore]

end Mount.RenameReady

-- ---------------------------------------------------------------------------
-- The branch of the new name
-- ---------------------------------------------------------------------------

/-- No branch has one inode under both paths. -/
def Apart (sb : SuperBlock) (w : World) (p q : Path) : Prop :=
  ∀ b br i j, sb.stobr b = some br → w.node br.root p = some i → w.node br.root q = some j → j.ino ≠ i.ino

/-- The mount before the rename of a file: the dentry of the file is fresh, the one of the new name was looked up, no
directory is seen there, and no branch has one inode under both names. -/
structure Mount.RenameOk (sb : SuperBlock) (P : RenamePaths) (e : Seen) (m : Mount) : Prop where
  src : m.FreshTo sb P.src
  entry : Aufs.seen sb m.w P.src = some e
  file : e.mode ≠ .dir
  trueDst : m.TrueTo sb P.ddir
  known : m.EntryKnown sb P.ddir P.dname
  noDir : NoDir sb m.w P.dst
  apart : Apart sb m.w P.src P.dst

/-- The mount after `wr_dir` has picked the branch: the file `i` is found, first on the branch `s`, and the branch has the
directory of the new name, with nothing above. -/
structure Mount.RenameAt (sb : SuperBlock) (P : RenamePaths) (b s : Int) (br : Branch) (i : HInode) (m : Mount) : Prop
    extends Mount.ShownAt sb P.sdir P.sname s m where
  branch : sb.stobr b = some br
  able : sb.sbrIsWhable b = true
  le : b ≤ s
  trueSrc : m.TrueTo sb P.sdir
  trueDst : m.TrueTo sb P.ddir
  ends : (m.di P.src).Ends
  start : (m.di P.src).bstart = s
  slot : ∃ x, sb.stobr s = some x ∧ (m.di P.src).hdentry s = some ⟨x.root, P.src, some i⟩ ∧
    m.w.node x.root P.src = some i
  bwh : (m.di P.src).bwh = -1
  positive : ∀ c h, (m.di P.src).hdentry c = some h → h.positive = true
  hi : ∀ c, m.hi P.src c = ((m.di P.src).hdentry c).bind HDentry.inode
  file : i.isDir = false
  entry : Aufs.seen sb m.w P.src = some ⟨i.mode, i.data⟩
  noDir : NoDir sb m.w P.dst
  clear : ClearTo sb m.w P.ddir P.dname b
  apart : ∀ j, m.w.node br.root P.src = some i → m.w.node br.root P.dst = some j → j.ino ≠ i.ino

/-- The branch of the source is a limit for the branch that `wr_dir` picks. -/
theorem wp_wrDir_le {p q : Path} : wp (wrDir sb p true (some q) (-1)) (fun b _ => b ≤ (m.di q).bstart) (fun _ _ => True) m := by
  refine wp_bind.mpr (wp_state.mpr (wp_bind.mpr (wp_ofExcept.mpr ?_)))
  rw [Option.map_some, wrBranch_some]
  cases hb : wrBranch sb (m.di (dParent p))
    { m.di p with bstart := if (m.di q).bstart < (m.di p).bstart then (m.di q).bstart else (m.di p).bstart } (m.hi p) none (-1) with
  | error => trivial
  | ok b =>
    obtain ⟨-, hle⟩ := wrBranch_none_ok (by omega) hb
    have hle : b ≤ (m.di q).bstart := by
      dsimp only at hle
      split at hle
      · exact hle
      · omega
    refine wp_ite.mpr ⟨fun _ => wp_pure.mpr hle, fun _ => ?_⟩
    have hend : ∀ {m₁ : Mount}, wp (do Op.lkupNeg p b; pure b) (fun b' _ => b' ≤ (m.di q).bstart) (fun _ _ => True) m₁ :=
      wp_bind.mpr (.intro (fun _ _ _ => wp_pure.mpr hle) fun _ _ _ => trivial)
    refine wp_bind.mpr (wp_hDptrI (fun _ _ => ?_) fun _ => trivial)
    rw [if_pos rfl]
    refine wp_bind.mpr (wp_onDinfo.mpr (wp_bind.mpr (wp_dinfo.mpr (wp_ite.mpr ⟨fun _ => ?_, fun _ => hend⟩))))
    exact wp_bind.mpr (.intro (fun _ _ _ => hend) fun _ _ _ => trivial)

/-- The branch lies above the one of the name, so that nothing above has it. -/
theorem Mount.ShownAt.clearTo {dir : Path} {name : Name} (h : m.ShownAt sb dir name s) (ht : m.TrueTo sb dir) (hb : b ≤ s)
    (hslot : ((m.di dir).hdentry b).isSome) : ClearTo sb m.w dir name b := by
  have hslots := ht.slots dir (List.prefix_refl dir)
  have htail := ht.tail dir (List.prefix_refl dir)
  obtain ⟨x, hx⟩ := Option.isSome_iff_exists.mp hslot
  refine ⟨ht.seenDir, hslots ▸ hslot, htail ▸ hb.trans h.le_tail, fun c hc => ?_⟩
  rw [← ht.cell]
  intro hfull
  obtain ⟨y, hy⟩ := h.dirs.slot_of_full hfull
  have hasked : c ∈ m.asked dir := (h.dirs.mem_asked hy).mpr (hc.le.trans (hb.trans h.le_tail))
  exact h.above c hasked (hc.trans_le hb) hfull

/-- The branch has the directory of the new name, and nothing above has the name. -/
theorem Mount.Prepared.clearTo {dir : Path} {name : Name} (hp : Mount.Prepared sb m dir name b m₁) (ht : m₁.TrueTo sb dir) :
    ClearTo sb m₁.w dir name b := by
  obtain ⟨_, -, ⟨_, hslot⟩, -⟩ := hp.parent
  have hslots := ht.slots dir (List.prefix_refl dir)
  refine ⟨ht.seenDir, ?_, ht.tail dir (List.prefix_refl dir) ▸ hp.reached, fun c hc => ?_⟩
  · rw [← hslots, hslot]
    rfl
  · rw [← ht.cell]
    exact hp.clear c hc

/-- Above the branch of the dentry there was no whiteout, and on a branch that got the directory now there is none. -/
theorem Mount.Prepared.no_wh {dir : Path} {name : Name} (hknown : m.EntryKnown sb dir name) (hdir : SeenDir sb m.w dir)
    (hp : Mount.Prepared sb m dir name b m₁) (hbr : sb.stobr b = some br) (hable : sb.sbrIsWhable b = true)
    (hne : b ≠ (m.di (dir ++ [name])).bstart) : m₁.w.node br.root (dir ++ [whName name]) = none := by
  have hlt := lt_of_le_of_ne hp.le hne
  have hentry := hknown.entry ((SuperBlock.range_of_stobr hbr).1.trans hp.le)
  obtain ⟨br', hbr', ⟨j, hslot⟩, -⟩ := hp.parent
  obtain rfl := Option.some.inj (hbr.symm.trans hbr')
  rw [hp.nodes.node_eq (hdir.not_within (hasWhPfx_whName name))]
  rcases hp.keeps.fresh b _ hslot with hold | hempty
  · rw [← hknown.dirs.self.hDptrI] at hold
    exact (hentry.above b hlt _ hold).2 hable
  · exact hempty [whName name]

/-- `wr_dir` has prepared the branch for the new name. -/
theorem Mount.RenameOk.prepared (hroots : sb.DistinctRoots) (hwr : sb.HonoursWh) (h : m.RenameOk sb P e)
    (hp : Mount.Prepared sb m P.ddir P.dname b m₁) (hle : b ≤ (m.di P.src).bstart) :
    ∃ br i, e = ⟨i.mode, i.data⟩ ∧ Mount.RenameAt sb P b (m.di P.src).bstart br i m₁ ∧
      Aufs.seen sb m₁.w = Aufs.seen sb m.w := by
  have hsome : (Aufs.seen sb m.w P.src).isSome := by
    rw [h.entry]
    rfl
  obtain ⟨s, ht⟩ := h.src.target P.sok hsome (bwh_of_file P.sok h.entry h.file)
  have hstart : (m.di P.src).bstart = s := ht.starts.start
  obtain ⟨c, x, hx⟩ := seen_isSome.mp hsome
  have hends := freshDi_ends hx
  have hself : m.di P.src = freshDi sb m.w P.src := h.src.di _ (List.prefix_refl _)
  obtain ⟨brs, i, hbrs, hi, hslot, hseen⟩ := seen_eq hends
  have he : e = ⟨i.mode, i.data⟩ := Option.some.inj (h.entry.symm.trans hseen)
  rw [← hself, hstart] at hbrs hslot
  -- the directories
  have hframe := hp.toPathFrame
  obtain ⟨br, hbr, ⟨j, hslotb⟩, -⟩ := hp.parent
  have hhas : ((m₁.di P.ddir).hdentry b).isSome := by
    rw [hslotb]
    rfl
  have hdirs : SeenDir sb m.w P.sdir := seenDir_of_seen hsome
  have hfsrc : m.FreshTo sb P.sdir :=
    ⟨fun q hq => h.src.di q (hq.trans (List.prefix_append _ _)), fun q hq => h.src.hi q (hq.trans (List.prefix_append _ _))⟩
  have htrueSrc := hframe.trueTo hroots h.trueDst hhas (hfsrc.trueTo hdirs) (h.noDir.not_within hdirs)
  have htrueDst := hframe.trueTo hroots h.trueDst hhas h.trueDst (not_concat_within P.ddir P.dname)
  have hseen₁ := hframe.seen hroots h.trueDst
  -- the file
  have hfile : NoDir sb m.w P.src := fun y hy => by
    rw [h.entry] at hy
    exact Option.some.inj hy ▸ h.file
  have hout : ¬ P.src <+: P.ddir := hfile.not_within h.trueDst.seenDir
  have hdi : m₁.di P.src = m.di P.src := hframe.others P.src hout P.src_ne_dst
  have hhi : m₁.hi P.src = m.hi P.src := hframe.hi P.src hout P.src_ne_dst
  have hnode : ∀ r, m₁.w.node r P.src = m.w.node r P.src := fun r => hframe.nodes.node_eq hout
  have hnodeDst : ∀ r, m₁.w.node r P.dst = m.w.node r P.dst := fun r => hframe.nodes.node_eq (not_concat_within P.ddir P.dname)
  have hgrew := h.trueDst.nodesGrew hframe.nodes
  have hfound : m₁.found sb P.sdir P.sname = m.found sb P.sdir P.sname := by
    rw [htrueSrc.found, hfsrc.found]
    exact (keepsDir_of_grew hroots h.trueDst.seenDir (hframe.le_bend_fresh h.trueDst) hgrew hdirs).found_eq
      (sameAt_of_grew h.trueDst.seenDir hgrew hout)
  have hable := hwr b hp.writable
  refine ⟨br, i, he, ?_, hseen₁⟩
  rw [hstart] at hle ⊢
  refine { dirs := htrueSrc.dirs, first := hfound ▸ ht.first, branch := hbr, able := hable, le := hle, trueSrc := htrueSrc,
           trueDst := htrueDst, ends := hdi ▸ hself ▸ hends, start := hdi ▸ hstart, slot := ⟨brs, hbrs, hdi ▸ hslot, ?_⟩,
           bwh := hdi ▸ ht.bwh, positive := hdi ▸ ht.positive, hi := fun c => ?_, file := ?_, entry := ?_, noDir := ?_,
           clear := hp.clearTo htrueDst, apart := fun k hik hk => ?_ }
  · rw [hnode, hi]
  · rw [hhi, hdi]
    exact h.src.hi _ (List.prefix_refl _) c
  · refine Bool.eq_false_iff.mpr fun hd => h.file ?_
    rw [he]
    exact HInode.isDir_iff.mp hd
  · rw [hseen₁, h.entry, he]
  · intro y hy
    exact h.noDir y (hseen₁ ▸ hy)
  · exact h.apart b br i k hbr ((hnode _).symm.trans hik) ((hnodeDst _).symm.trans hk)

-- ---------------------------------------------------------------------------
-- The directory of the old name
-- ---------------------------------------------------------------------------

namespace Mount.RenameAt

variable {need : Bool}

theorem starts (h : m.RenameAt sb P b s br i) : m.StartsAt P.src s := by
  obtain ⟨x, hx, hslot, -⟩ := h.slot
  have hs : ((m.di P.src).hdentry s).isSome := by
    rw [hslot]
    rfl
  refine ⟨h.start, h.start ▸ h.ends.nonneg, (h.ends.range s hs).2, ?_⟩
  rw [Dinfo.positiveAt, h.ends.tidy.hDptrI, hslot]
  rfl

theorem nonneg (h : m.RenameAt sb P b s br i) : 0 ≤ b := (SuperBlock.range_of_stobr h.branch).1

theorem noDirSrc (h : m.RenameAt sb P b s br i) : NoDir sb m.w P.src := fun x hx => by
  rw [h.entry] at hx
  intro hmode
  have hdir := HInode.isDir_iff.mpr ((congrArg Seen.mode (Option.some.inj hx)).trans hmode)
  rw [h.file] at hdir
  cases hdir

section Needs

variable (h : m.RenameAt sb P b s br i) (hn : Mount.NeedsWh sb m P.sdir P.sname s need b m₁)

include h hn

/-- Both directories are there for `do_rename`. -/
theorem ready (hroots : sb.DistinctRoots) (hhas : ((m₁.di P.sdir).hdentry b).isSome) : m₁.RenameReady sb P b s br i := by
  have hframe := hn.toPathFrame
  have htrue := hframe.trueTo hroots h.trueSrc hhas h.trueSrc (not_concat_within P.sdir P.sname)
  have hshown := hn.shown h.toShownAt
  have hseen := hframe.seen hroots h.trueSrc
  have hdirs := h.trueSrc.seenDir
  have hfile : NoDir sb m₁.w P.src := by
    rw [NoDir, hseen]
    exact h.noDirSrc
  have hnoDir : NoDir sb m₁.w P.dst := by
    rw [NoDir, hseen]
    exact h.noDir
  have hclear := h.clear.of_grew hroots hdirs (hframe.le_bend_fresh h.trueSrc) (h.trueSrc.nodesGrew hframe.nodes)
    (h.noDir.not_within hdirs)
  obtain ⟨x, hx⟩ := Option.isSome_iff_exists.mp hhas
  obtain ⟨br', j, hbr', -, -, rfl⟩ := hshown.dirs.self.slots b x hx
  obtain rfl := Option.some.inj (h.branch.symm.trans hbr')
  exact ⟨h.branch, h.able, htrue, hshown, ⟨hshown.clearTo htrue h.le hhas, hclear, hfile, hnoDir⟩, h.file,
    hseen ▸ h.entry, hshown.no_wh h.le hx h.able⟩

/-- The file of a lower branch. -/
theorem fileAt (hne : b ≠ s) : ∃ x, m₁.FileAt P.src b s x i := by
  obtain ⟨hdi, hhi⟩ := hn.entry hne
  obtain ⟨x, -, hslot, -⟩ := h.slot
  have hlt : b < s := lt_of_le_of_ne h.le hne
  have hdi : m₁.di P.src = m.di P.src := hdi
  have hhi : m₁.hi P.src = m.hi P.src := hhi
  refine ⟨_, { toEnds := hdi ▸ h.ends, first := hdi ▸ h.start, above := hlt, slot := hdi ▸ hslot, inode := rfl, free := ?_ }⟩
  rw [hhi, h.hi b, h.ends.eq_none (.inl (h.start.symm ▸ hlt))]
  rfl

/-- The file of the branch, or of a lower one. -/
theorem sourceReady :
    m₁.SourceReady P b s br.root i (m₁.w.node br.root P.src) (m₁.w.node br.root P.dst) := by
  by_cases hne : b = s
  case neg => exact .inr (h.fileAt hn hne)
  case pos =>
    subst hne
    obtain ⟨x, hx, hslot, hnode⟩ := h.slot
    obtain rfl := Option.some.inj (h.branch.symm.trans hx)
    have hstart : (m₁.di P.src).bstart = b := hn.grew.start.trans h.start
    have hsame : (m₁.di P.src).hdentry b = (m.di P.src).hdentry b := hn.grew.slot b le_rfl
    have hsrc : m₁.w.node br.root P.src = some i := (hn.nodes.node_eq (not_concat_within P.sdir P.sname)).trans hnode
    have hdst : m₁.w.node br.root P.dst = m.w.node br.root P.dst :=
      hn.nodes.node_eq (h.noDir.not_within h.trueSrc.seenDir)
    refine .inl ⟨i, hstart, ?_, hsrc, h.file, rfl, rfl, fun j hj => h.apart j hnode (hdst.symm.trans hj)⟩
    rw [Dinfo.hDptrI_of_le (hstart.symm ▸ h.nonneg) hstart.le, hsame, hslot]

/-- The other directory keeps its slot. -/
theorem dstSlot : ∃ j, (m₁.di P.ddir).hDptrI b = some ⟨br.root, P.ddir, some j⟩ := by
  obtain ⟨x, hx⟩ := Option.isSome_iff_exists.mp h.clear.slot
  rw [← h.trueDst.slots P.ddir (List.prefix_refl _)] at hx
  obtain ⟨br', j, hbr', -, -, rfl⟩ := h.trueDst.dirs.self.slots b x hx
  obtain rfl := Option.some.inj (h.branch.symm.trans hbr')
  refine ⟨j, ?_⟩
  by_cases hq : P.ddir <+: P.sdir
  case pos =>
    have hkeeps := hn.path P.ddir hq
    rw [hkeeps.after.self.hDptrI]
    exact hkeeps.kept b _ hx
  case neg =>
    have hne : P.ddir ≠ P.sdir ++ [P.sname] := fun heq => h.noDirSrc.not_within h.trueDst.seenDir (heq ▸ List.prefix_refl _)
    rw [hn.others P.ddir hq hne, h.trueDst.dirs.self.hDptrI]
    exact hx

end Needs

end Mount.RenameAt

/-- `cpup_dirs` has nothing to do where the branch has the directory. -/
theorem wp_cpupDirs_has {dir : Path} {name : Name} {Q : Unit → Mount → Prop} {E : Errno → Mount → Prop}
    (hhas : ((m.di dir).hDptrI b).isSome) (hq : Q () m) : wp (cpupDirs sb (dir ++ [name]) b) Q E m := by
  rw [cpupDirs, dParent_append]
  refine wp_ite.mpr ⟨fun _ => wp_pure.mpr hq, fun hne => ?_⟩
  rcases List.eq_nil_or_concat dir with rfl | ⟨q, n, rfl⟩
  · exact absurd rfl hne
  · rw [List.concat_eq_append] at hhas ⊢
    rw [List.reverse_append, List.reverse_singleton, List.singleton_append, cpupDirsLoop]
    simp only [List.reverse_cons, List.reverse_reverse]
    exact wp_bind.mpr (wp_dinfo.mpr (wp_ite.mpr ⟨fun _ => wp_pure.mpr hq, fun hno => absurd hhas hno⟩))

-- ---------------------------------------------------------------------------
-- aufs_rename
-- ---------------------------------------------------------------------------

variable {hash : Name → Nat}

/-- Users see the file under its new name only. -/
def SeenRenamed (sb : SuperBlock) (P : RenamePaths) (e : Seen) (w w' : World) : Prop :=
  Aufs.seen sb w' = Function.update (Function.update (Aufs.seen sb w) P.src none) P.dst (some e)

/-- `aufs_rename` with the locks, from the hidden parents on. -/
theorem Mount.RenameAt.wp_doRename {need whdst : Bool} {h : HDentry} {whlist : Nhash Wh} (hroots : sb.DistinctRoots)
    (hat : m.RenameAt sb P b s br i) (hn : Mount.NeedsWh sb m P.sdir P.sname s need b m₁)
    (hdst : h.root = br.root ∧ h.path = P.dst) (hwh : whdst = false → m₁.w.node br.root P.whDst = none) :
    wp (do
        let parentSrc ← Op.hDptrI (dParent P.src) b
        let parentDst ← Op.hDptrI (dParent P.dst) b
        doRename ⟨b, s, parentSrc, parentDst, h, false, need, whdst, whlist⟩ P.src P.dst sb
        putLower P.src b)
      (fun _ m' => SeenRenamed sb P ⟨i.mode, i.data⟩ m₁.w m'.w)
      (fun _ m' => Aufs.seen sb m'.w = Aufs.seen sb m₁.w ∨ m₁.fails + 2 ≤ m'.fails) m₁ := by
  rw [RenamePaths.dParent_src, RenamePaths.dParent_dst]
  refine wp_bind.mpr (wp_hDptrI (fun x hx => ?_) fun _ => .inl rfl)
  refine wp_bind.mpr (wp_hDptrI (fun y hy => ?_) fun _ => .inl rfl)
  have hhas : ((m₁.di P.sdir).hdentry b).isSome := by
    rw [hdentry_of_hDptrI hx]
    rfl
  have hr := hat.ready hn hroots hhas
  obtain ⟨j, hj⟩ := hat.dstSlot hn
  obtain rfl := Option.some.inj (hy.symm.trans hj)
  have hparent : ∀ z, (m₁.di P.sdir).hDptrI b = some z → z.root = br.root ∧ z.path = P.sdir := by
    intro z hz
    obtain ⟨br', k, hbr', -, -, rfl⟩ := hr.shown.dirs.self.slots b z (hdentry_of_hDptrI hz)
    obtain rfl := Option.some.inj (hat.branch.symm.trans hbr')
    exact ⟨rfl, rfl⟩
  generalize ha : (⟨b, s, x, ⟨br.root, P.ddir, some j⟩, h, false, need, whdst, whlist⟩ : RenameArgs) = a
  have hfor : a.For P b s br.root := by
    subst ha
    exact ⟨rfl, rfl, hparent x hx, ⟨rfl, rfl⟩, hdst, rfl⟩
  have hneed : a.whsrc = need := by rw [← ha]
  have hwhdst : a.whdst = whdst := by rw [← ha]
  refine wp_bind.mpr ((Aufs.wp_doRename hfor hat.branch hat.file (hat.sourceReady hn) hparent (hat.fileAt hn) hr.noWh).mono
    (fun _ m' hdone => wp_update.mpr ?_) fun _ m' hno => ?_)
  · obtain ⟨WS, hren, hyes, hnot⟩ := hdone
    rw [hneed] at hyes hnot
    have hwd : (if a.whdst then none else m₁.w.node br.root P.whDst) = none := by
      rw [hwhdst]
      cases whdst with
      | true => rfl
      | false => exact hwh rfl
    have halone : need = false → b = s ∧
        (Scan.search HDentry.isDir (m₁.cell sb P.sdir P.sname) (bindexes (s + 1) (m₁.di P.sdir).dbtaildir)).slots = [] := by
      intro hno
      obtain ⟨hbs, hlower⟩ := hn.alone hno
      exact ⟨hbs, hlower hat.bwh hat.positive⟩
    have hview : SeenRenamed sb P ⟨i.mode, i.data⟩ m₁.w m'.w := hr.done hroots halone hren hyes hnot hwd
    exact hview
  · refine hr.undone hroots hno fun hhid => ?_
    rw [Bool.and_eq_true] at hhid
    exact hhid.2

theorem wp_renameLocked (hroots : sb.DistinctRoots) (hwr : sb.HonoursWh) (h : m.RenameOk sb P e) :
    wp (renameLocked P.src P.dst sb hash false) (fun _ m' => SeenRenamed sb P e m.w m'.w)
      (fun _ m' => Aufs.seen sb m'.w = Aufs.seen sb m.w ∨ m.fails + 2 ≤ m'.fails) m := by
  have hforce : ForceOk sb (m.di P.dst) (m.hi P.dst) (-1) := fun h0 => absurd h0 (by decide)
  have hprep : wp (wrDir sb (P.ddir ++ [P.dname]) true (some P.src) (-1)) _ _ m := wp_wrDir_prepared h.known hforce
  unfold renameLocked
  simp only [Bool.false_and, Bool.false_eq_true, if_false]
  refine wp_bind.mpr (wp_state.mpr (wp_bind.mpr ((hprep.and wp_wrDir_le).mono ?_ fun _ m' hno => ?_)))
  rotate_left
  · exact hno.1.1.notDone.seen hroots h.trueDst
  rintro b m₁ ⟨⟨hp, hfails⟩, hle⟩
  obtain ⟨br, i, rfl, hat, hseen⟩ := h.prepared hroots hwr hp hle
  obtain ⟨_, hbr, -, x, hx, hroot, hpath⟩ := hp.parent
  obtain rfl := Option.some.inj (hat.branch.symm.trans hbr)
  have hsame : ∀ {m' : Mount}, (Aufs.seen sb m'.w = Aufs.seen sb m₁.w ∨ m₁.fails + 2 ≤ m'.fails) →
      Aufs.seen sb m'.w = Aufs.seen sb m.w ∨ m.fails + 2 ≤ m'.fails := fun hs =>
    hs.imp (fun h => h.trans hseen) fun h => (Nat.add_le_add_right hfails 2).trans h
  refine wp_bind.mpr (wp_pure.mpr (wp_bind.mpr (wp_dinfo.mpr (wp_bind.mpr ?_))))
  rw [show (m₁.di P.dst).bstart = b from hp.start]
  refine wp_hDptrI (fun y hy => wp_bind.mpr (wp_dinfo.mpr (wp_bind.mpr ?_))) fun _ => hsame (.inl rfl)
  obtain rfl := Option.some.inj (hx.symm.trans hy)
  rw [hat.start]
  refine wp_hDptrI (fun _ _ => wp_bind.mpr ?_) fun _ => hsame (.inl rfl)
  have hneeds : wp (wrDirNeedWh sb (P.sdir ++ [P.sname]) false b) _ _ m₁ :=
    wp_wrDirNeedWh hat.toShownAt hat.starts fun _ => ⟨hp.writable, hat.le⟩
  refine hneeds.mono ?_ fun _ m' hno => hsame (hno.seen hroots hat.trueSrc)
  rintro ⟨need, b'⟩ m₂ ⟨hn, hb⟩
  obtain rfl : b = b' := (hb hat.nonneg).symm
  have hseen₂ := hn.toPathFrame.seen hroots hat.trueSrc
  have hfails₂ := hn.fails
  dsimp only
  generalize hwhdst : decide ((m.di P.dst).bstart = b) = whdst
  have hno : whdst = false → m₂.w.node br.root P.whDst = none := by
    intro hfalse
    rw [hfalse, decide_eq_false_iff_not] at hwhdst
    have hnone := hp.no_wh h.known h.trueDst.seenDir hat.branch hat.able fun heq => hwhdst heq.symm
    exact (hn.nodes.node_eq (hat.trueSrc.seenDir.not_within (hasWhPfx_whName P.dname))).trans hnone
  have hrun : wp _ (fun _ m' => SeenRenamed sb P ⟨i.mode, i.data⟩ m.w m'.w)
      (fun _ m' => Aufs.seen sb m'.w = Aufs.seen sb m.w ∨ m.fails + 2 ≤ m'.fails) m₂ :=
    (@Mount.RenameAt.wp_doRename m₁ m₂ sb P b _ br i need whdst x .init hroots hat hn ⟨hroot, hpath⟩ hno).mono
      (fun _ m' hdone => by rwa [SeenRenamed, hseen₂, hseen] at hdone)
      fun _ m' hfail => hsame (hfail.imp (fun h => h.trans hseen₂) fun h => (Nat.add_le_add_right hfails₂ 2).trans h)
  refine wp_ite.mpr ⟨fun _ => hrun, fun _ => wp_bind.mpr (wp_cpupDirs_has ?_ hrun)⟩
  obtain ⟨j, hj⟩ := hat.dstSlot hn
  rw [hj]
  rfl

-- What the calls of the kernel leave alone.

theorem Mount.TrueTo.withFs {p : Path} (hfs : w.fs = m.w.fs) (ht : m.TrueTo sb p) : Mount.TrueTo sb p { m with w } := by
  have hfresh : ∀ q, freshDi sb w q = freshDi sb m.w q := freshDi_congr (World.node_congr hfs)
  refine ⟨ht.dirs.withFs hfs, fun q hq => ?_, fun q hq => ?_⟩
  · exact (ht.slots q hq).trans (congrArg Dinfo.hdentry (hfresh q)).symm
  · exact (ht.tail q hq).trans (congrArg Dinfo.dbtaildir (hfresh q)).symm

theorem Mount.EntryKnown.withFs {dir : Path} {name : Name} (hfs : w.fs = m.w.fs) (h : m.EntryKnown sb dir name) :
    Mount.EntryKnown sb { m with w } dir name := by
  have hnode : w.node = m.w.node := World.node_congr hfs
  refine ⟨h.dirs.withFs hfs, fun hne c x hc hable hopq => ?_, fun h0 => ?_⟩
  · have hopq : (w.node x.root (x.path ++ [diropqName])).isSome := hopq
    rw [hnode] at hopq
    exact h.opaque_tail hne c x hc hable hopq
  · have hentry := h.entry h0
    refine ⟨⟨hentry.tail, fun c hc x hx => ?_⟩, hentry.slot⟩
    show w.node _ _ = none ∧ (_ → w.node _ _ = none)
    rw [hnode]
    exact hentry.above c hc x hx

theorem Mount.RenameOk.withFs (hfs : w.fs = m.w.fs) (h : m.RenameOk sb P e) : Mount.RenameOk sb P e { m with w } := by
  have hnode : w.node = m.w.node := World.node_congr hfs
  have hseen : Aufs.seen sb w = Aufs.seen sb m.w := seen_congr hnode
  refine ⟨⟨fun q hq => (h.src.di q hq).trans (freshDi_congr hnode q).symm, h.src.hi⟩, (congrFun hseen _).trans h.entry, h.file,
    h.trueDst.withFs hfs, h.known.withFs hfs, fun x hx => h.noDir x ((congrFun hseen _).symm.trans hx), ?_⟩
  have hapart := h.apart
  rw [Apart, ← hnode] at hapart
  exact hapart

/-- The dentry of the file is no directory's. -/
theorem Mount.RenameOk.isdir (h : m.RenameOk sb P e) : (m.dInode P.src).any HInode.isDir = false := by
  have hinode := h.src.dInode
  rw [h.entry] at hinode
  cases hd : m.dInode P.src with
  | none => rfl
  | some i =>
    rw [hd, Option.map_some, Option.some.injEq] at hinode
    rw [Option.any_some]
    refine Bool.eq_false_iff.mpr fun hdir => h.file ?_
    rw [← hinode]
    exact HInode.isDir_iff.mp hdir

/-- After `aufs_rename` of a file users see it under its new name and not under the old one, and all else as before. If it
fails they see what they saw, unless more than one step fails. -/
theorem wp_aufsRename (hroots : sb.DistinctRoots) (hwr : sb.HonoursWh) (h : m.RenameOk sb P e) :
    wp (aufsRename P.src P.dst sb hash) (fun _ m' => SeenRenamed sb P e m.w m'.w)
      (fun _ m' => Aufs.seen sb m'.w = Aufs.seen sb m.w ∨ m.fails + 2 ≤ m'.fails) m := by
  refine wp_bind.mpr (wp_kmalloc (fun w hw => ?_) fun _ w hw => .inl (seen_congr (World.node_congr hw)))
  have h' := h.withFs hw
  have hseen : Aufs.seen sb w = Aufs.seen sb m.w := seen_congr (World.node_congr hw)
  refine wp_bind.mpr (wp_state.mpr ?_)
  simp only [h'.isdir, Bool.false_and, Bool.false_eq_true, if_false]
  refine wp_bind.mpr (wp_attempt.mpr ((wp_renameLocked hroots hwr h').mono (fun _ m' hdone => ?_) fun _ m' hno => ?_))
  · have hdone : SeenRenamed sb P e w m'.w := hdone
    rw [SeenRenamed, hseen] at hdone
    exact wp_pure.mpr hdone
  · exact wp_fail.mpr (hno.imp_left fun hsame => hsame.trans hseen)

theorem apart_of_all {p q : Path}
    (h : ∀ br ∈ sb.branches, (w.node br.root p).all fun i => (w.node br.root q).all fun j => decide (j.ino ≠ i.ino)) :
    Apart sb w p q := by
  intro b br i j hbr hi hj
  rw [SuperBlock.stobr] at hbr
  split at hbr
  · have hall := h br (List.mem_of_getElem? hbr)
    rw [hi, hj, Option.all_some, Option.all_some] at hall
    exact of_decide_eq_true hall
  · cases hbr

/-- The lookup of the new name is the last one before the rename. -/
theorem Mount.LookedNow.renameOk (hl : Mount.LookedNow sb P.ddir P.dname m m₁) (hsrc : m.FreshTo sb P.src)
    (hentry : Aufs.seen sb m.w P.src = some e) (he : e.mode ≠ .dir) (hdst : m.FreshTo sb P.ddir)
    (hdir : SeenDir sb m.w P.ddir) (hno : NoDir sb m.w P.dst) (hapart : Apart sb m.w P.src P.dst) :
    m₁.RenameOk sb P e := by
  have hnode := World.node_congr hl.fs
  have hsdir : SeenDir sb m.w P.sdir := seenDir_of_seen (by rw [← RenamePaths.src, hentry]; rfl)
  have hne : ∀ q, q <+: P.src → q ≠ P.dst := by
    rintro q hq rfl
    rcases prefix_append_singleton.mp hq with heq | hpre
    · exact P.src_ne_dst heq.symm
    · exact hno.not_within hsdir hpre
  refine { src := ⟨fun q hq => ?_, fun q hq c => ?_⟩, entry := ?_, file := he,
           trueDst := (hl.freshTo hdst).trueTo (hl.seenDir hdir), known := hl.known hdst hdir, noDir := ?_, apart := ?_ }
  · rw [hl.off.di q (hne q hq), hsrc.di q hq, freshDi_congr hnode]
  · rw [hl.off.di q (hne q hq), hl.off.hi q (hne q hq), hsrc.hi q hq]
  · rw [hl.seen, hentry]
  · rw [NoDir, hl.seen]
    exact hno
  · rw [Apart, hnode]
    exact hapart

end Aufs
