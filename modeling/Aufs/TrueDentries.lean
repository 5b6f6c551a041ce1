-- SUMMARY: Dentries that agree with fresh lookups, and that they still do after directories of any path were copied up.
import Aufs.ColdLookup

/-!
# True dentries

An operation holds dentries of one or two directories while it copies parents up. The dentries
of a path are true when their slots and their tails are those of fresh ones, and so a lookup
in the directory finds what a fresh one finds. Copying up directories of a path keeps the
dentries of every path true.
-/

namespace Aufs

open Prog Op Overlay

variable {m m₁ : Mount} {sb : SuperBlock} {dir p q : Path} {name n : Name} {b c : Int} {h : HDentry}

/-- The dentries of the path have the slots and the tails of fresh ones. -/
structure Mount.TrueTo (sb : SuperBlock) (p : Path) (m : Mount) : Prop where
  dirs : m.Dirs sb p
  slots : ∀ q, q <+: p → (m.di q).hdentry = (freshDi sb m.w q).hdentry
  tail : ∀ q, q <+: p → (m.di q).dbtaildir = (freshDi sb m.w q).dbtaildir

theorem Mount.FreshTo.trueTo (hf : m.FreshTo sb p) (hdir : SeenDir sb m.w p) : m.TrueTo sb p :=
  ⟨hf.dirs hdir, fun q hq => by rw [hf.di q hq], fun q hq => by rw [hf.di q hq]⟩

namespace Mount.TrueTo

theorem seenDir (ht : m.TrueTo sb p) : SeenDir sb m.w p := by
  obtain ⟨h, hh⟩ := Option.isSome_iff_exists.mp ht.dirs.self.start
  obtain ⟨br, i, -, hi, -, rfl⟩ := ht.dirs.self.slots _ h hh
  rw [ht.slots p (List.prefix_refl p)] at hh
  exact seenDir_iff.mpr ⟨_, _, hh, hi⟩

theorem ends (ht : m.TrueTo sb p) :
    (m.di p).bstart = (freshDi sb m.w p).bstart ∧ (m.di p).bend = (freshDi sb m.w p).bend :=
  ht.dirs.self.toEnds.unique ht.seenDir.ends (ht.slots p (List.prefix_refl p))

/-- A lookup in the directory finds what a fresh one finds. -/
theorem scan (ht : m.TrueTo sb p) (w : World) (n : Name) : (m.di p).scan sb w n = (freshDi sb m.w p).scan sb w n := by
  have hstart := ht.ends.1
  have hptr : ∀ c, (m.di p).hDir c = (freshDi sb m.w p).hDir c := fun c => by
    rw [Dinfo.hDir, Dinfo.hDir, Dinfo.hDptrI, Dinfo.hDptrI, hstart, ht.slots p (List.prefix_refl p)]
  rw [Dinfo.scan, Dinfo.scan, hstart, ht.tail p (List.prefix_refl p)]
  refine Scan.search_congr fun c _ => ?_
  rw [cellAt, cellAt, hptr]

theorem cell (ht : m.TrueTo sb p) (n : Name) : m.cell sb p n = (Mount.cold sb m.w).cell sb p n := by
  have hstart := ht.ends.1
  funext c
  have hptr : (m.di p).hDir c = (freshDi sb m.w p).hDir c := by
    rw [Dinfo.hDir, Dinfo.hDir, Dinfo.hDptrI, Dinfo.hDptrI, hstart, ht.slots p (List.prefix_refl p)]
  rw [Mount.cell, cellAt, hptr]
  rfl

theorem found (ht : m.TrueTo sb p) (n : Name) : m.found sb p n = (Mount.cold sb m.w).found sb p n := ht.scan m.w n

/-- The files that a change of the path starts from, with fresh dentries. -/
theorem nodesGrew (ht : m.TrueTo sb p) (hg : Mount.NodesGrew sb p b m m₁) :
    Mount.NodesGrew sb p b (Mount.cold sb m.w) (Mount.cold sb m₁.w) := by
  intro r q
  refine (hg r q).imp_right fun ⟨br, j, hbr, hr, hq, hold, hnew, hj, hcopy⟩ => ⟨br, j, hbr, hr, hq, hold, hnew, hj, ?_⟩
  have hslots : (Mount.cold sb m.w).di q = freshDi sb m.w q := rfl
  rw [Dinfo.CopyOf, hslots, ← ht.slots q hq]
  exact hcopy

end Mount.TrueTo

-- ---------------------------------------------------------------------------
-- Directories that are copied up
-- ---------------------------------------------------------------------------

section Grows

variable (hroots : sb.DistinctRoots) (hd : m.TrueTo sb dir) (hframe : Mount.PathFrame sb m dir name b m₁)

include hd hframe

theorem Mount.PathFrame.le_bend_fresh : b ≤ (freshDi sb m.w dir).bend := hd.ends.2 ▸ hframe.le_bend

include hroots

/-- Users see nothing of it. -/
theorem Mount.PathFrame.seen : seen sb m₁.w = seen sb m.w :=
  seen_of_grew hroots hd.seenDir (hframe.le_bend_fresh hd) (hd.nodesGrew hframe.nodes)

/-- The dentries of the path itself, when the branch has the directory. -/
theorem Mount.PathFrame.slots_eq (hhas : ((m₁.di dir).hdentry b).isSome) (hq : q <+: dir) :
    (m₁.di q).hdentry = (freshDi sb m₁.w q).hdentry ∧ (m₁.di q).dbtaildir = (freshDi sb m₁.w q).dbtaildir := by
  have hpath := pathGrew hroots hd.seenDir (hframe.le_bend_fresh hd) (hd.nodesGrew hframe.nodes) hq
  have hkeeps := hframe.path q hq
  have hself := hkeeps.after.self
  have hold := hd.slots q hq
  -- the slot of the branch is the directory there
  have hslot : ∀ {br : Branch} {i : HInode}, sb.stobr b = some br → i.isDir → m₁.w.node br.root q = some i →
      (freshDi sb m₁.w q).hdentry b = some ⟨br.root, q, some i⟩ := by
    intro br i hbr hi hnode
    have hisdir : (m₁.w.fs br.root).isDir q := Ents.isDir_iff.mpr ⟨i, hnode, HInode.isDir_iff.mp hi⟩
    obtain ⟨z, hz⟩ := Option.isSome_iff_exists.mp (hpath.has br hbr hisdir)
    obtain ⟨br', j, hbr', hj, rfl⟩ := freshDi_slot hz
    obtain rfl := Option.some.inj (hbr.symm.trans hbr')
    obtain rfl := Option.some.inj (hnode.symm.trans hj)
    exact hz
  refine ⟨funext fun c => Option.ext fun y => ⟨fun hy => ?_, fun hy => ?_⟩, ?_⟩
  · obtain ⟨brc, i, hbrc, hi, hnode, rfl⟩ := hself.slots c y hy
    rcases hkeeps.fresh c _ hy with hslot' | hempty
    · rw [hold] at hslot'
      exact hpath.keeps.kept c _ hslot'
    · -- the directory was made on the branch
      have hnone : m.w.node brc.root q = none := by simpa using hempty []
      rcases hframe.nodes brc.root q with hsame | ⟨br, _, hbr, hroot, -⟩
      · rw [hsame, hnone] at hnode
        cases hnode
      · obtain rfl := hroots c b brc br hbrc hbr hroot
        exact hslot hbrc hi hnode
  · by_cases hc : c = b
    · subst hc
      obtain ⟨z, hz⟩ := Option.isSome_iff_exists.mp
        ((hframe.path dir (List.prefix_refl dir)).after.has_of_has (List.prefix_refl dir) hhas q hq)
      obtain ⟨br, i, hbr, hi, hnode, rfl⟩ := hself.slots c z hz
      rw [hslot hbr hi hnode] at hy
      exact hz.trans hy
    · rw [hpath.only c hc] at hy
      rw [hframe.only q hq c hc, hold]
      exact hy
  · rw [hkeeps.tail, hd.tail q hq]
    exact hpath.keeps.tail.symm

/-- The dentries of every path stay true. -/
theorem Mount.PathFrame.trueTo (hhas : ((m₁.di dir).hdentry b).isSome) (ht : m.TrueTo sb p) (hp : ¬ dir ++ [name] <+: p) :
    m₁.TrueTo sb p := by
  have hafter := hframe.keeps.after
  have hsame : ∀ {x}, x <+: p → ¬ x <+: dir → m₁.di x = m.di x ∧ m₁.hi x = m.hi x := by
    intro x hx hout
    have hne : x ≠ dir ++ [name] := fun he => hp (he ▸ hx)
    exact ⟨hframe.others x hout hne, hframe.hi x hout hne⟩
  have hfresh : ∀ {x}, ¬ x <+: dir → freshDi sb m₁.w x = freshDi sb m.w x := fun hout =>
    freshDi_of_grew hroots hd.seenDir (hframe.le_bend_fresh hd) (hd.nodesGrew hframe.nodes) hout
  refine ⟨⟨fun x hx => ?_, fun x k c hx hc => ?_⟩, fun x hx => ?_, fun x hx => ?_⟩
  · by_cases hin : x <+: dir
    case pos => exact hafter.dirAt x hin
    case neg =>
      obtain ⟨hdi, hhi⟩ := hsame hx hin
      have hold := ht.dirs.dirAt x hx
      refine { toEnds := hdi ▸ hold.toEnds, slots := fun c y hy => ?_, hi := fun c => ?_ }
      · rw [hdi] at hy
        obtain ⟨br, i, hbr, hi, hnode, rfl⟩ := hold.slots c y hy
        exact ⟨br, i, hbr, hi, (hframe.nodes.node_eq hin).trans hnode, rfl⟩
      · rw [hhi, hdi]
        exact hold.hi c
  · have hx' : x <+: p := (List.prefix_append x [k]).trans hx
    by_cases hin : x ++ [k] <+: dir
    case pos => exact hafter.chain x k c hin hc
    case neg =>
      rw [(hsame hx hin).1] at hc
      obtain ⟨y, hy⟩ := Option.isSome_iff_exists.mp (ht.dirs.chain x k c hx hc)
      by_cases hxin : x <+: dir
      case pos =>
        rw [(hframe.path x hxin).kept c y hy]
        rfl
      case neg =>
        rw [(hsame hx' hxin).1, hy]
        rfl
  · by_cases hin : x <+: dir
    case pos => exact (hframe.slots_eq hroots hd hhas hin).1
    case neg => rw [(hsame hx hin).1, ht.slots x hx, hfresh hin]
  · by_cases hin : x <+: dir
    case pos => exact (hframe.slots_eq hroots hd hhas hin).2
    case neg => rw [(hsame hx hin).1, ht.tail x hx, hfresh hin]

end Grows

end Aufs
