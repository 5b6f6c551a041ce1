-- SUMMARY: Which changes on the branches users do not see: directories of a path copied up, and what happens under other names.
import Aufs.View
import Aufs.Prepared

/-!
# Frames of the view

When directories of a path are made on one more branch, users see the same at every path:
each new directory is a copy of the one that was seen, and nothing is in it. When files
change only under some names of one directory, users see the same at every path that does
not go through the one of these names that lookups ask for.
-/

namespace Aufs

open Prog Op Overlay

variable {sb : SuperBlock} {w w' : World} {p q dir : Path} {name n : Name} {b c : Int} {h : HDentry}

/-- No path to a directory that users see has a name with the prefix of whiteouts. -/
theorem SeenDir.not_within (hdir : SeenDir sb w dir) {k : Name} (hk : hasWhPfx k = true) : ¬ q ++ [k] <+: dir := by
  intro hpre
  obtain ⟨e, he, -⟩ := hdir.within hpre
  have hok := name_ok_of_seen (by rw [he]; rfl)
  rw [hk] at hok
  cases hok

theorem Mount.NodesGrew.node_eq {m m' : Mount} (h : Mount.NodesGrew sb dir b m m') {r : Nat}
    (hx : ¬ p <+: dir) : m'.w.node r p = m.w.node r p := by
  rcases h r p with hsame | ⟨_, _, -, -, hpre, -⟩
  · exact hsame
  · exact absurd hpre hx

theorem SeenDir.name_ok (hdir : SeenDir sb w (q ++ [n])) : hasWhPfx n = false := by
  obtain ⟨e, he, -⟩ := hdir
  exact name_ok_of_seen (by rw [he]; rfl)

/-- Two directories with the same slots have the same below, under a name that is the same. -/
theorem freshDi_step (hp : freshDi sb w' p = freshDi sb w p)
    (hs : SeenDir sb w p → Mount.SameAt p n (Mount.cold sb w) (Mount.cold sb w')) :
    freshDi sb w' (p ++ [n]) = freshDi sb w (p ++ [n]) := by
  have hscan : (freshDi sb w p).scan sb w' n = (freshDi sb w p).scan sb w n := by
    refine Scan.search_congr fun c _ => ?_
    rw [cellAt, cellAt]
    cases hdir : (freshDi sb w p).hDir c with
    | none => rfl
    | some x =>
      have hfilter := Option.filter_eq_some_iff.mp hdir
      have hslot := hdentry_of_hDptrI hfilter.1
      have hs := hs (seenDir_iff.mpr ⟨c, x, hslot, hfilter.2⟩)
      obtain ⟨br, i, -, -, rfl⟩ := freshDi_slot hslot
      have hentry : (w'.fs br.root).node (p ++ [n]) = (w.fs br.root).node (p ++ [n]) := hs.entry br.root
      have hwh : ((w'.fs br.root).node (p ++ [whName n])).isSome = ((w.fs br.root).node (p ++ [whName n])).isSome :=
        hs.wh br.root
      have hopq : ((w'.fs br.root).node (p ++ [n] ++ [diropqName])).isSome =
          ((w.fs br.root).node (p ++ [n] ++ [diropqName])).isSome := hs.opq br.root
      simp only [hentry, hwh, hopq]
  rw [freshDi_append, freshDi_append, hp, Dinfo.below, Dinfo.below, hscan]

/-- The root shows the roots of the branches. -/
theorem freshDi_root (hroot : ∀ r, w'.node r [] = w.node r []) : freshDi sb w' [] = freshDi sb w [] := by
  have hslot : ∀ r, (w'.fs r).node [] = (w.fs r).node [] := hroot
  simp only [freshDi_nil, rootDinfo, hslot]

/-- The directory of a directory. -/
theorem isDir_parent {r : Nat} (h : (w.fs r).isDir (q ++ [n])) : (w.fs r).isDir q := by
  obtain ⟨i, hi, -⟩ := Ents.isDir_iff.mp h
  exact (w.fs r).wf.closed.isDir_of_child (n := n) (by rw [hi]; rfl)

theorem Dinfo.dbtaildir_congr {d e : Dinfo} (hend : d.bend = e.bend) (hwh : d.bwh = e.bwh)
    (hopq : d.bdiropq = e.bdiropq) : d.dbtaildir = e.dbtaildir := by
  rw [Dinfo.dbtaildir, Dinfo.dbtaildir, Dinfo.dbtail, Dinfo.dbtail, hend, hwh, hopq]

-- ---------------------------------------------------------------------------
-- The path grew
-- ---------------------------------------------------------------------------

/-- One directory of the path, before and after directories of the path were made on the branch. -/
structure PathGrew (sb : SuperBlock) (w w' : World) (b : Int) (q : Path) : Prop where
  keeps : Mount.KeepsDir sb q (Mount.cold sb w) (Mount.cold sb w')
  only : ∀ c, c ≠ b → (freshDi sb w' q).hdentry c = (freshDi sb w q).hdentry c
  has : ∀ br, sb.stobr b = some br → (w'.fs br.root).isDir q → ((freshDi sb w' q).hdentry b).isSome
  view : seen sb w' q = seen sb w q

/-- The last slot, as an entry of the search. -/
theorem last_mem (hdir : SeenDir sb w (q ++ [n])) : ∃ x, x.isDir ∧ ((freshDi sb w (q ++ [n])).bend, x) ∈
    (Scan.search HDentry.isDir ((Mount.cold sb w).cell sb q n) ((Mount.cold sb w).asked q)).slots := by
  obtain ⟨x, hx⟩ := Option.isSome_iff_exists.mp hdir.ends.last
  exact ⟨x, hdir.isDir hx, (slot_iff_mem hdir.name_ok).mp hx⟩

theorem PathGrew.same (hg : PathGrew sb w w' b q) (hdir : SeenDir sb w (q ++ [n]))
    (hb : b ≤ (freshDi sb w (q ++ [n])).bend) (hs : Mount.SameAt q n (Mount.cold sb w) (Mount.cold sb w')) :
    PathGrew sb w w' b (q ++ [n]) := by
  have hn := hdir.name_ok
  have hfresh : freshDi sb w' (q ++ [n]) = freshDi sb w (q ++ [n]) := by
    rw [freshDi_concat hn, freshDi_concat hn, ← cold_found, ← cold_found, hg.keeps.found_eq hs]
  have hseen : seen sb w' (q ++ [n]) = seen sb w (q ++ [n]) := by rw [seen, seen, hfresh]
  have hdir' : SeenDir sb w' (q ++ [n]) := by
    rw [SeenDir, hseen]
    exact hdir
  refine ⟨⟨dirs_cold hdir, dirs_cold hdir', ?_, fun c h hc => ?_, fun c h hc => .inl ?_⟩, fun c _ => by rw [hfresh],
    fun br hbr hisdir => ?_, hseen⟩
  · exact congrArg Dinfo.dbtaildir hfresh
  · exact (congrArg (Dinfo.hdentry · c) hfresh).trans hc
  · exact (congrArg (Dinfo.hdentry · c) hfresh).symm.trans hc
  -- a directory of the branch was found before
  rw [hfresh]
  obtain ⟨j, hj, hmode⟩ := Ents.isDir_iff.mp hisdir
  have hj : w.node br.root (q ++ [n]) = some j := (hs.entry br.root).symm.trans hj
  have hup := isDir_parent hisdir
  obtain ⟨hp, hhp⟩ := Option.isSome_iff_exists.mp (hg.has br hbr hup)
  obtain ⟨br', i, hbr', -, rfl⟩ := freshDi_slot hhp
  obtain rfl := Option.some.inj (hbr.symm.trans hbr')
  have hold : (freshDi sb w q).hdentry b = some ⟨br.root, q, some i⟩ := by
    rcases hg.keeps.fresh b _ hhp with hold | hempty
    · exact hold
    · have hnone : w.node br.root (q ++ [n]) = none := hempty [n]
      rw [hj] at hnone
      cases hnone
  obtain ⟨x, hx, hlast⟩ := last_mem hdir
  rcases hb.lt_or_eq with hlt | rfl
  · have hentry : ((Mount.cold sb w).cell sb q n b).entry = some ⟨br.root, q ++ [n], some j⟩ := by
      rw [hg.keeps.before.cell_some hold]
      exact congrArg (Option.map _) hj
    have hasked : b ∈ (Mount.cold sb w).asked q :=
      (hg.keeps.before.mem_asked hold).mpr (hb.trans (scan_range hlast).2)
    have hdirs := Scan.search_eq_dirs_of_mem hlast hx
    rw [hdirs] at hlast
    have hmem := Scan.mem_dirs_of_lt ((Mount.cold sb w).asked_sorted q) hlast hasked hlt hentry
      (HInode.isDir_iff.mpr hmode)
    rw [← hdirs, ← slot_iff_mem hn] at hmem
    rw [hmem]
    rfl
  · exact hdir.ends.last

/-- The directory `q/n` is new in the branch, without a whiteout or an opaque mark that is new. -/
structure NewDirOn (w w' : World) (r : Nat) (q : Path) (n : Name) (j : HInode) : Prop where
  others : ∀ s x, s ≠ r → w'.node s x = w.node s x
  wh : ∀ s, w'.node s (q ++ [whName n]) = w.node s (q ++ [whName n])
  opq : w'.node r (q ++ [n] ++ [diropqName]) = w.node r (q ++ [n] ++ [diropqName])
  was : w.node r (q ++ [n]) = none
  entry : w'.node r (q ++ [n]) = some j
  isDir : j.isDir

section NewDir

variable {br : Branch} {j : HInode}

theorem NewDirOn.isDir_at (hnew : NewDirOn w w' br.root q n j) : (w'.fs br.root).isDir (q ++ [n]) :=
  Ents.isDir_iff.mpr ⟨j, hnew.entry, HInode.isDir_iff.mp hnew.isDir⟩

theorem NewDirOn.below (hnew : NewDirOn w w' br.root q n j) (x : Path) : w.node br.root (q ++ [n] ++ x) = none :=
  (w.fs br.root).wf.closed.node_append_none hnew.was x

/-- The parent has a slot on the branch. -/
theorem PathGrew.slot_parent (hg : PathGrew sb w w' b q) (hbr : sb.stobr b = some br)
    (hnew : NewDirOn w w' br.root q n j) : ∃ i, (freshDi sb w' q).hdentry b = some ⟨br.root, q, some i⟩ := by
  obtain ⟨hp, hhp⟩ := Option.isSome_iff_exists.mp (hg.has br hbr (isDir_parent hnew.isDir_at))
  obtain ⟨br', i, hbr', -, rfl⟩ := freshDi_slot hhp
  obtain rfl := Option.some.inj (hbr.symm.trans hbr')
  exact ⟨i, hhp⟩

/-- Before, the branch had nothing under the name. -/
theorem PathGrew.not_full (hg : PathGrew sb w w' b q) (hdir : SeenDir sb w (q ++ [n]))
    (hb : b ≤ (freshDi sb w (q ++ [n])).bend) (hbr : sb.stobr b = some br)
    (hnew : NewDirOn w w' br.root q n j) : ¬ Scan.full ((Mount.cold sb w).cell sb q n b) := by
  have hbefore := hg.keeps.before
  cases hold : (freshDi sb w q).hdentry b with
  | none =>
    rw [hbefore.cell_none hold]
    rintro (hfull | hfull) <;> cases hfull
  | some hp =>
    obtain ⟨br', i, hbr', -, rfl⟩ := freshDi_slot hold
    obtain rfl := Option.some.inj (hbr.symm.trans hbr')
    obtain ⟨x, hx, hlast⟩ := last_mem hdir
    have htail : _ ≤ (freshDi sb w q).dbtaildir := (scan_range hlast).2
    have hasked : b ∈ (Mount.cold sb w).asked q := (hbefore.mem_asked hold).mpr (hb.trans htail)
    rw [Scan.search_eq_dirs_of_mem hlast hx] at hlast
    have hmask := Scan.mask_dirs_of_le ((Mount.cold sb w).asked_sorted q) hlast hasked hb
    have hentry : ((Mount.cold sb w).cell sb q n b).entry = none := by
      rw [hbefore.cell_some hold]
      exact congrArg (Option.map _) hnew.was
    rw [Scan.full, hmask, hentry]
    rintro (hfull | hfull) <;> cases hfull

/-- Now it has the directory. -/
theorem PathGrew.cell_new (hg : PathGrew sb w w' b q) (hdir : SeenDir sb w (q ++ [n]))
    (hb : b ≤ (freshDi sb w (q ++ [n])).bend) (hbr : sb.stobr b = some br) (hnew : NewDirOn w w' br.root q n j) :
    (Mount.cold sb w').cell sb q n b = ⟨false, some ⟨br.root, q ++ [n], some j⟩, false⟩ := by
  obtain ⟨i, hslot⟩ := hg.slot_parent hbr hnew
  have hno := hg.not_full hdir hb hbr hnew
  have hmask : (sb.sbrIsWhable b && (w.node br.root (q ++ [whName n])).isSome) = false := by
    rcases hg.keeps.fresh b _ hslot with hold | hempty
    · have hnone := ((hg.keeps.before.not_full_iff hold).mp hno).2
      cases hable : sb.sbrIsWhable b with
      | false => rfl
      | true =>
        have hnone : w.node br.root (q ++ [whName n]) = none := hnone hable
        rw [hnone]
        rfl
    · have hnone : w.node br.root (q ++ [whName n]) = none := hempty [whName n]
      rw [hnone, Option.isSome_none, Bool.and_false]
  have hopq : w'.node br.root (q ++ [n] ++ [diropqName]) = none := by rw [hnew.opq, hnew.below]
  have hwh : w'.node br.root (q ++ [whName n]) = w.node br.root (q ++ [whName n]) := hnew.wh _
  rw [hg.keeps.after.cell_some hslot]
  simp only [show (Mount.cold sb w').w = w' from rfl, hwh, hmask, hopq, hnew.entry, Option.map_some,
    Option.isSome_none, Bool.and_false]

/-- The other branches have what they had. -/
theorem PathGrew.cell_other (hroots : sb.DistinctRoots) (hg : PathGrew sb w w' b q) (hbr : sb.stobr b = some br)
    (hnew : NewDirOn w w' br.root q n j) (hc : c ≠ b) :
    (Mount.cold sb w').cell sb q n c = (Mount.cold sb w).cell sb q n c := by
  have hslots := hg.only c hc
  cases hslot : (freshDi sb w q).hdentry c with
  | none => rw [hg.keeps.before.cell_none hslot, hg.keeps.after.cell_none (hslots.trans hslot)]
  | some x =>
    have hne : x.root ≠ br.root := by
      obtain ⟨brc, -, hbrc, -, rfl⟩ := freshDi_slot hslot
      exact fun heq => hc (hroots c b brc br hbrc hbr heq)
    rw [hg.keeps.before.cell_some hslot, hg.keeps.after.cell_some (hslots.trans hslot)]
    simp only [show (Mount.cold sb w').w = w' from rfl, show (Mount.cold sb w).w = w from rfl, hnew.others _ _ hne]

/-- So the search finds one more directory. -/
theorem PathGrew.gains (hroots : sb.DistinctRoots) (hg : PathGrew sb w w' b q) (hdir : SeenDir sb w (q ++ [n]))
    (hb : b ≤ (freshDi sb w (q ++ [n])).bend) (hbr : sb.stobr b = some br) (hnew : NewDirOn w w' br.root q n j) :
    Scan.Gains b ⟨br.root, q ++ [n], some j⟩ ((Mount.cold sb w).found sb q n) ((Mount.cold sb w').found sb q n) ∧
      b < (freshDi sb w (q ++ [n])).bend := by
  have hno := hg.not_full hdir hb hbr hnew
  obtain ⟨i, hslot⟩ := hg.slot_parent hbr hnew
  obtain ⟨x, hx, hlast⟩ := last_mem hdir
  have hlt : b < (freshDi sb w (q ++ [n])).bend := by
    refine lt_of_le_of_ne hb fun heq => hno (.inr ?_)
    rw [heq, (Scan.entry_of_mem_search hlast).2]
    rfl
  -- empty cells on top do not matter
  have hsame : Scan.search HDentry.isDir ((Mount.cold sb w).cell sb q n) ((Mount.cold sb w').asked q) =
      Scan.search HDentry.isDir ((Mount.cold sb w).cell sb q n) ((Mount.cold sb w).asked q) := by
    refine Scan.search_same ((Mount.cold sb w).asked_sorted q) ((Mount.cold sb w').asked_sorted q) (fun c => ?_)
      fun _ _ => rfl
    refine and_congr_left fun hfull => ?_
    obtain ⟨y, hy⟩ := hg.keeps.before.slot_of_full hfull
    rw [hg.keeps.before.mem_asked hy, hg.keeps.after.mem_asked (hg.keeps.kept c y hy), hg.keeps.tail]
  have hasked : b ∈ (Mount.cold sb w').asked q := by
    rw [hg.keeps.after.mem_asked hslot, hg.keeps.tail]
    have htail : _ ≤ (freshDi sb w q).dbtaildir := (scan_range hlast).2
    exact hb.trans htail
  rw [← hsame] at hlast
  have hgains := Scan.search_gains ((Mount.cold sb w').asked_sorted q) hlast hx hasked hlt
    (Option.not_isSome_iff_eq_none.mp fun hsome => hno (.inr hsome)) (hg.cell_new hdir hb hbr hnew) hnew.isDir
    fun c hc => hg.cell_other hroots hbr hnew hc
  rw [hsame] at hgains
  exact ⟨hgains, hlt⟩

/-- A directory that is new on the branch. -/
theorem PathGrew.new (hroots : sb.DistinctRoots) (hg : PathGrew sb w w' b q) (hdir : SeenDir sb w (q ++ [n]))
    (hb : b ≤ (freshDi sb w (q ++ [n])).bend) (hbr : sb.stobr b = some br) (hnew : NewDirOn w w' br.root q n j)
    (hcopy : (freshDi sb w (q ++ [n])).CopyOf b j) : PathGrew sb w w' b (q ++ [n]) := by
  have hn := hdir.name_ok
  obtain ⟨hgains, hlt⟩ := hg.gains hroots hdir hb hbr hnew
  have hslots : ∀ c y, (freshDi sb w' (q ++ [n])).hdentry c = some y ↔
      (freshDi sb w (q ++ [n])).hdentry c = some y ∨ c = b ∧ y = ⟨br.root, q ++ [n], some j⟩ := fun c y => by
    rw [slot_iff_mem hn, slot_iff_mem hn]
    exact hgains.slots c y
  have hslot : (freshDi sb w' (q ++ [n])).hdentry b = some ⟨br.root, q ++ [n], some j⟩ :=
    (hslots b _).mpr (.inr ⟨rfl, rfl⟩)
  have hends := hdir.ends
  have hends' := freshDi_ends hslot
  have hdir' : SeenDir sb w' (q ++ [n]) := seenDir_iff.mpr ⟨b, _, hslot, hnew.isDir⟩
  have hkept : ∀ c, ((freshDi sb w (q ++ [n])).hdentry c).isSome → ((freshDi sb w' (q ++ [n])).hdentry c).isSome := by
    intro c hc
    obtain ⟨y, hy⟩ := Option.isSome_iff_exists.mp hc
    rw [(hslots c y).mpr (.inl hy)]
    rfl
  have hback : ∀ c, c ≠ b → ((freshDi sb w' (q ++ [n])).hdentry c).isSome →
      ((freshDi sb w (q ++ [n])).hdentry c).isSome := by
    intro c hc hsome
    obtain ⟨y, hy⟩ := Option.isSome_iff_exists.mp hsome
    rw [((hslots c y).mp hy).resolve_right fun h => hc h.1]
    rfl
  have hend : (freshDi sb w' (q ++ [n])).bend = (freshDi sb w (q ++ [n])).bend := by
    have hle := (hends'.range _ (hkept _ hends.last)).2
    have hge := (hends.range _ (hback _ (by omega) hends'.last)).2
    omega
  have hmarks : (freshDi sb w' (q ++ [n])).bwh = (freshDi sb w (q ++ [n])).bwh ∧
      (freshDi sb w' (q ++ [n])).bdiropq = (freshDi sb w (q ++ [n])).bdiropq := by
    rw [freshDi_concat hn, freshDi_concat hn]
    exact ⟨congrArg (Option.getD · (-1)) hgains.maskAt, congrArg (Option.getD · (-1)) hgains.opaqueAt⟩
  refine ⟨⟨dirs_cold hdir, dirs_cold hdir', Dinfo.dbtaildir_congr hend hmarks.1 hmarks.2, fun c y hc => ?_,
    fun c y hc => ?_⟩, fun c hc => ?_, fun br' _ _ => by rw [hslot]; rfl, ?_⟩
  · exact (hslots c y).mpr (.inl hc)
  · rcases (hslots c y).mp hc with hold | ⟨rfl, rfl⟩
    · exact .inl hold
    · exact .inr hnew.below
  · refine Option.ext fun y => (hslots c y).trans ⟨fun h => h.resolve_right fun h => hc h.1, .inl⟩
  -- what is seen is the old first slot, or its copy
  obtain ⟨br₁, i₁, -, -, hfirst, hseen⟩ := seen_eq hends
  obtain ⟨br₂, i₂, -, -, hfirst', hseen'⟩ := seen_eq hends'
  rw [hseen, hseen']
  rcases lt_or_ge b (freshDi sb w (q ++ [n])).bstart with hlt | hge
  · have hstart : (freshDi sb w' (q ++ [n])).bstart = b := by
      have hle := (hends'.range b (by rw [hslot]; rfl)).1
      by_contra hne
      have hge := (hends.range _ (hback _ hne hends'.start)).1
      omega
    rw [hstart, hslot] at hfirst'
    obtain rfl : j = i₂ := by
      have heq := Option.some.inj hfirst'
      exact Option.some.inj (congrArg HDentry.inode heq)
    obtain ⟨s, y, i, hbs, hs, hbetween, hi, hmode, hdata⟩ := hcopy
    have hs₁ : s = (freshDi sb w (q ++ [n])).bstart := by
      have hle := (hends.range s (by rw [hs]; rfl)).1
      by_contra hne
      rw [hbetween _ hlt (by omega)] at hfirst
      cases hfirst
    rw [hs₁, hfirst] at hs
    obtain rfl := Option.some.inj hs
    obtain rfl := Option.some.inj hi
    rw [hmode, hdata]
  · have hstart : (freshDi sb w' (q ++ [n])).bstart = (freshDi sb w (q ++ [n])).bstart := by
      have hle := (hends'.range _ (hkept _ hends.start)).1
      by_cases heq : (freshDi sb w' (q ++ [n])).bstart = b
      · omega
      · have hge := (hends.range _ (hback _ heq hends'.start)).1
        omega
    rw [hstart, (hslots _ _).mpr (.inl hfirst)] at hfirst'
    obtain rfl : i₁ = i₂ := by
      have heq := Option.some.inj hfirst'
      exact Option.some.inj (congrArg HDentry.inode heq)
    rfl

end NewDir

/-- The ends of a directory reach as far down as those of the directories below. -/
theorem SeenDir.bend_le (hdir : SeenDir sb w dir) (hq : q <+: dir) :
    (freshDi sb w dir).bend ≤ (freshDi sb w q).bend := by
  have hhas := (dirs_cold hdir).has_of_has (List.prefix_refl dir) hdir.ends.last q hq
  exact ((hdir.within hq).ends.range _ hhas).2

/-- Every directory of the path. -/
theorem pathGrew (hroots : sb.DistinctRoots) (hdir : SeenDir sb w dir) (hb : b ≤ (freshDi sb w dir).bend)
    (hgrew : Mount.NodesGrew sb dir b (Mount.cold sb w) (Mount.cold sb w')) (hq : q <+: dir) :
    PathGrew sb w w' b q := by
  induction q using List.reverseRecOn with
  | nil =>
    have hroot : ∀ r, w'.node r [] = w.node r [] := fun r => by
      rcases hgrew r [] with hsame | ⟨_, _, -, -, -, hnone, -⟩
      · exact hsame
      · obtain ⟨i, hi, -⟩ := Ents.isDir_iff.mp (w.fs r).wf.closed.1
        exact absurd (hi.symm.trans hnone) (by simp)
    have hfresh : freshDi sb w' [] = freshDi sb w [] := freshDi_root hroot
    have hseen : seen sb w' [] = seen sb w [] := by rw [seen, seen, hfresh]
    have hdir₀ := hdir.within hq
    have hdir' : SeenDir sb w' [] := by
      rw [SeenDir, hseen]
      exact hdir₀
    refine ⟨⟨dirs_cold hdir₀, dirs_cold hdir', congrArg Dinfo.dbtaildir hfresh, fun c h hc => ?_, fun c h hc => .inl ?_⟩,
      fun c _ => by rw [hfresh], fun br hbr _ => ?_, hseen⟩
    · exact (congrArg (Dinfo.hdentry · c) hfresh).trans hc
    · exact (congrArg (Dinfo.hdentry · c) hfresh).symm.trans hc
    · rw [freshDi_nil, rootDinfo, Option.isSome_map, hbr]
      rfl
  | append_singleton q n ih =>
    have hprev := ih ((List.prefix_append q [n]).trans hq)
    have hdirq := hdir.within hq
    have hbq := hb.trans (hdir.bend_le hq)
    have hwh : ∀ r, w'.node r (q ++ [whName n]) = w.node r (q ++ [whName n]) := fun r =>
      hgrew.node_eq (hdir.not_within (hasWhPfx_whName n))
    have hopq : ∀ r, w'.node r (q ++ [n] ++ [diropqName]) = w.node r (q ++ [n] ++ [diropqName]) := fun r =>
      hgrew.node_eq (hdir.not_within (hasWhPfx_whName _))
    by_cases hsame : ∀ r, w'.node r (q ++ [n]) = w.node r (q ++ [n])
    · exact hprev.same hdirq hbq ⟨hsame, fun r => congrArg Option.isSome (hwh r),
        fun r => congrArg Option.isSome (hopq r)⟩
    · obtain ⟨r, hne⟩ := not_forall.mp hsame
      obtain ⟨br, j, hbr, rfl, -, hnone, hnew, hjdir, hcopy⟩ := (hgrew r (q ++ [n])).resolve_left hne
      have hothers : ∀ s x, s ≠ br.root → w'.node s x = w.node s x := fun s x hs => by
        rcases hgrew s x with hsame | ⟨br', _, hbr', hs', -⟩
        · exact hsame
        · obtain rfl := Option.some.inj (hbr.symm.trans hbr')
          exact absurd hs' hs
      exact hprev.new hroots hdirq hbq hbr ⟨hothers, hwh, hopq _, hnone, hnew, hjdir⟩ hcopy

/-- Off the path the dentries stay. -/
theorem freshDi_of_grew (hroots : sb.DistinctRoots) (hdir : SeenDir sb w dir) (hb : b ≤ (freshDi sb w dir).bend)
    (hgrew : Mount.NodesGrew sb dir b (Mount.cold sb w) (Mount.cold sb w')) (hp : ¬ p <+: dir) :
    freshDi sb w' p = freshDi sb w p := by
  induction p using List.reverseRecOn with
  | nil => exact absurd List.nil_prefix hp
  | append_singleton x n ih =>
    cases hn : hasWhPfx n with
    | true => rw [freshDi_whPfx hn, freshDi_whPfx hn]
    | false =>
      have hs : Mount.SameAt x n (Mount.cold sb w) (Mount.cold sb w') := by
        refine ⟨fun r => hgrew.node_eq hp, fun r => congrArg Option.isSome (hgrew.node_eq ?_),
          fun r => congrArg Option.isSome (hgrew.node_eq ?_)⟩
        · exact hdir.not_within (hasWhPfx_whName n)
        · exact hdir.not_within (hasWhPfx_whName _)
      by_cases hx : x <+: dir
      case pos =>
        have hfound := (pathGrew hroots hdir hb hgrew hx).keeps.found_eq hs
        rw [cold_found, cold_found] at hfound
        rw [freshDi_concat hn, freshDi_concat hn, hfound]
      case neg => exact freshDi_step (ih hx) fun _ => hs

/-- Users see nothing of it. -/
theorem seen_of_grew (hroots : sb.DistinctRoots) (hdir : SeenDir sb w dir) (hb : b ≤ (freshDi sb w dir).bend)
    (hgrew : Mount.NodesGrew sb dir b (Mount.cold sb w) (Mount.cold sb w')) : seen sb w' = seen sb w := by
  funext x
  by_cases hx : x <+: dir
  · exact (pathGrew hroots hdir hb hgrew hx).view
  · rw [seen, seen, freshDi_of_grew hroots hdir hb hgrew hx]

-- ---------------------------------------------------------------------------
-- Names that change
-- ---------------------------------------------------------------------------

/-- Of all names that users can ask for, only `name` makes a lookup in the directory ask for `k`. -/
def AskedFor (name k : Name) : Prop :=
  k = name ∨ hasWhPfx k = true ∧ k ≠ diropqName ∧ ∀ n, hasWhPfx n = false → k = whName n → n = name

/-- Nothing has changed but what a lookup of the name in the directory asks for. -/
def ChangesAt (dir : Path) (name : Name) (w w' : World) : Prop :=
  ∀ r x, (∀ k, AskedFor name k → ¬ dir ++ [k] <+: x) → w'.node r x = w.node r x

theorem askedFor_whName (hname : hasWhPfx name = false) : AskedFor name (whName name) := by
  refine .inr ⟨hasWhPfx_whName name, fun heq => ?_, fun n _ heq => (whName_injective heq).symm⟩
  have hopq : name = diropqBase := whName_injective heq
  rw [hopq] at hname
  exact absurd hname (by decide)

/-- Nothing has changed but what lookups of some names ask for. -/
def ChangesAmong (S : List (Path × Name)) (w w' : World) : Prop :=
  ∀ r x, (∀ e ∈ S, ∀ k, AskedFor e.2 k → ¬ e.1 ++ [k] <+: x) → w'.node r x = w.node r x

theorem ChangesAt.among (h : ChangesAt dir name w w') : ChangesAmong [(dir, name)] w w' := fun r x hx =>
  h r x fun k hk => hx (dir, name) List.mem_cons_self k hk

section Among

variable {S : List (Path × Name)}

/-- Users see the changes only where they go through the names. -/
theorem freshDi_of_among (hnames : ∀ e ∈ S, hasWhPfx e.2 = false) (hch : ChangesAmong S w w')
    (hp : ∀ e ∈ S, ¬ e.1 ++ [e.2] <+: p) : freshDi sb w' p = freshDi sb w p := by
  induction p using List.reverseRecOn with
  | nil => exact freshDi_root fun r => hch r [] fun e _ k _ hpre => absurd (List.prefix_nil.mp hpre) (by simp)
  | append_singleton x n ih =>
    have hx : ∀ e ∈ S, ¬ e.1 ++ [e.2] <+: x := fun e he hpre => hp e he (hpre.trans (List.prefix_append x [n]))
    cases hn : hasWhPfx n with
    | true => rw [freshDi_whPfx hn, freshDi_whPfx hn]
    | false =>
      refine freshDi_step (ih hx) fun hdir => ?_
      -- a name that is asked for does not lie on the way
      have hway : ∀ e ∈ S, ∀ k, AskedFor e.2 k → ¬ e.1 ++ [k] <+: x := by
        rintro e he k (rfl | ⟨hk, -⟩)
        · exact hx e he
        · exact hdir.not_within hk
      have hlast : ∀ e ∈ S, ∀ k y, AskedFor e.2 k → e.1 ++ [k] <+: x ++ [y] → e.1 = x ∧ k = y := by
        intro e he k y hk hpre
        rcases prefix_append_singleton.mp hpre with heq | hpre
        · obtain ⟨h1, h2⟩ := List.append_inj' heq rfl
          exact ⟨h1, List.singleton_inj.mp h2⟩
        · exact absurd hpre (hway e he k hk)
      have hentry : ∀ e ∈ S, ∀ k, AskedFor e.2 k → ¬ e.1 ++ [k] <+: x ++ [n] := by
        intro e he k hk hpre
        obtain ⟨hdir, rfl⟩ := hlast e he k n hk hpre
        rcases hk with heq | ⟨hk, -⟩
        · exact hp e he (heq ▸ hpre)
        · rw [hn] at hk
          cases hk
      refine ⟨fun r => hch r _ hentry, fun r => congrArg Option.isSome (hch r _ fun e he k hk hpre => ?_),
        fun r => congrArg Option.isSome (hch r _ fun e he k hk hpre => ?_)⟩
      · obtain ⟨hdir, rfl⟩ := hlast e he k _ hk hpre
        rcases hk with heq | ⟨-, -, hk⟩
        · exact ne_whName_of_not_hasWhPfx (hnames e he) heq.symm
        · exact hp e he (by rw [hdir, hk n hn rfl])
      · rcases prefix_append_singleton.mp hpre with heq | hpre
        · obtain ⟨-, h2⟩ := List.append_inj' heq rfl
          have heq : k = diropqName := List.singleton_inj.mp h2
          rcases hk with hname | ⟨-, hk, -⟩
          · have hopq := hnames e he
            rw [← hname, heq, diropqName, hasWhPfx_whName] at hopq
            cases hopq
          · exact hk heq
        · exact hentry e he k hk hpre

/-- Where the names are of files, or of nothing, users see the changes at the names alone. -/
theorem seen_of_among (hnames : ∀ e ∈ S, hasWhPfx e.2 = false) (hch : ChangesAmong S w w')
    (hbelow : ∀ e ∈ S, ∀ k, seen sb w (e.1 ++ [e.2] ++ [k]) = none)
    (hbelow' : ∀ e ∈ S, ∀ k, seen sb w' (e.1 ++ [e.2] ++ [k]) = none) (hp : ∀ e ∈ S, p ≠ e.1 ++ [e.2]) :
    seen sb w' p = seen sb w p := by
  by_cases hthrough : ∃ e ∈ S, e.1 ++ [e.2] <+: p
  case pos =>
    obtain ⟨e, he, y, rfl⟩ := hthrough
    cases y with
    | nil => exact absurd (List.append_nil _) (hp e he)
    | cons k y =>
      have hcons : e.1 ++ [e.2] ++ k :: y = e.1 ++ [e.2] ++ [k] ++ y := by simp
      rw [hcons, seen_append_none (hbelow e he k), seen_append_none (hbelow' e he k)]
  case neg =>
    rw [seen, seen, freshDi_of_among hnames hch fun e he hpre => hthrough ⟨e, he, hpre⟩]

end Among

/-- Users see the change only where they go through the name. -/
theorem freshDi_of_changes (hname : hasWhPfx name = false) (hch : ChangesAt dir name w w')
    (hp : ¬ dir ++ [name] <+: p) : freshDi sb w' p = freshDi sb w p := by
  refine freshDi_of_among (fun e he => ?_) hch.among fun e he => ?_
  all_goals obtain rfl := List.mem_singleton.mp he
  · exact hname
  · exact hp

/-- A change that makes one file visible. -/
theorem seen_put (hname : hasWhPfx name = false) (hch : ChangesAt dir name w w') {e : Seen}
    (hnone : seen sb w (dir ++ [name]) = none) (hsome : seen sb w' (dir ++ [name]) = some e)
    (hbelow : ∀ n, seen sb w' (dir ++ [name] ++ [n]) = none) :
    seen sb w' = Function.update (seen sb w) (dir ++ [name]) (some e) := by
  funext x
  by_cases hx : dir ++ [name] <+: x
  · obtain ⟨y, rfl⟩ := hx
    cases y with
    | nil => rw [List.append_nil, Function.update_self, hsome]
    | cons n y =>
      have hcons : dir ++ [name] ++ n :: y = dir ++ [name] ++ [n] ++ y := by simp
      rw [Function.update_of_ne (by simp), seen_append_none hnone, hcons, seen_append_none (hbelow n)]
  · have hne : x ≠ dir ++ [name] := fun heq => hx (heq ▸ List.prefix_refl _)
    rw [Function.update_of_ne hne, seen, seen, freshDi_of_changes hname hch hx]

/-- A change that hides a path. -/
theorem seen_cut (hname : hasWhPfx name = false) (hch : ChangesAt dir name w w')
    (hnone : seen sb w' (dir ++ [name]) = none) :
    seen sb w' = fun x => if dir ++ [name] <+: x then none else seen sb w x := by
  funext x
  split
  · rename_i hx
    obtain ⟨y, rfl⟩ := hx
    exact seen_append_none hnone y
  · rename_i hx
    rw [seen, seen, freshDi_of_changes hname hch hx]

/-- Another whiteout in the place of a whiteout. -/
theorem seen_of_restored {m m' : Mount}
    (hnode : ∀ r x, x ≠ dir ++ [whName name] → m'.w.node r x = m.w.node r x)
    (hwh : ∀ r, (m'.w.node r (dir ++ [whName name])).isSome = (m.w.node r (dir ++ [whName name])).isSome) :
    seen sb m'.w = seen sb m.w := by
  have hsame : ∀ r x, (m'.w.node r x).isSome = (m.w.node r x).isSome := fun r x => by
    by_cases hx : x = dir ++ [whName name]
    · rw [hx, hwh]
    · rw [hnode r x hx]
  have hfresh : ∀ x, freshDi sb m'.w x = freshDi sb m.w x := by
    intro x
    induction x using List.reverseRecOn with
    | nil => exact freshDi_root fun r => hnode r [] (by simp)
    | append_singleton x n ih =>
      cases hn : hasWhPfx n with
      | true => rw [freshDi_whPfx hn, freshDi_whPfx hn]
      | false =>
        refine freshDi_step ih fun _ => ⟨fun r => hnode r _ fun heq => ?_, fun r => hsame r _, fun r => hsame r _⟩
        obtain ⟨-, heq⟩ := List.append_inj' heq rfl
        exact ne_whName_of_not_hasWhPfx hn (List.singleton_inj.mp heq)
  funext x
  rw [seen, seen, hfresh]

end Aufs
