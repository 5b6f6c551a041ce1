-- SUMMARY: What users see after a deletion: nothing at the path and below, and after a failed one the same as before.
import Aufs.AddedView
import Aufs.RemovedDir

/-!
# Deletions as users see them

After a deletion nothing is seen at the path or below it, and what is seen at the other
paths stays. The dentry of the name is the one that the lookup before has left.
-/

namespace Aufs

open Prog Op Overlay

variable {m m' m₀ : Mount} {sb : SuperBlock} {dir : Path} {name : Name} {w : World} {e : Seen}

-- ---------------------------------------------------------------------------
-- The dentry of a name that is found
-- ---------------------------------------------------------------------------

/-- Where something is seen the lookup has found it. -/
theorem found_of_seen (hn : hasWhPfx name = false) (hsome : (seen sb w (dir ++ [name])).isSome) :
    ((Mount.cold sb w).found sb dir name).slots ≠ [] := by
  obtain ⟨b, h, hb⟩ := seen_isSome.mp hsome
  have hmem : (b, h) ∈ ((Mount.cold sb w).found sb dir name).slots := (slot_iff_mem hn).mp hb
  exact List.ne_nil_of_mem hmem

theorem seen_none_of_found (hn : hasWhPfx name = false) (hnil : ((Mount.cold sb w).found sb dir name).slots = []) :
    seen sb w (dir ++ [name]) = none := by
  refine Option.not_isSome_iff_eq_none.mp fun hsome => ?_
  exact found_of_seen hn hsome hnil

theorem Mount.LookedNow.name_ok (hl : Mount.LookedNow sb dir name m m₀) : hasWhPfx name = false := hl.look.name_ok

/-- The dentry of a name that is found is fresh. -/
theorem Mount.LookedNow.fresh (hl : Mount.LookedNow sb dir name m m₀) (hf : m.FreshTo sb dir)
    (hdir : SeenDir sb m.w dir) (hsome : (Aufs.seen sb m.w (dir ++ [name])).isSome) : m₀.FreshTo sb (dir ++ [name]) := by
  have hf₀ := hl.freshTo hf
  have hdir₀ := hl.seenDir hdir
  have hfound : (m₀.found sb dir name).slots ≠ [] := by
    rw [hf₀.found]
    refine found_of_seen hl.name_ok ?_
    rw [hl.seen]
    exact hsome
  obtain ⟨w, w', np, hfs, hlk⟩ := hl.look
  obtain ⟨hnp, hd⟩ := lkupDentry_found (hf₀.dirs hdir₀).self.nonneg hfs hlk
  have hself : m₀.di (dir ++ [name]) = freshDi sb m₀.w (dir ++ [name]) := by
    rw [hd (by rw [hnp]; exact List.length_eq_zero_iff.not.mpr hfound), hf₀.found, cold_found, freshDi_concat hl.name_ok]
  refine ⟨fun q hq => ?_, fun q hq => ?_⟩
  · rcases prefix_append_singleton.mp hq with rfl | hq
    · exact hself
    · exact hf₀.di q hq
  · rcases prefix_append_singleton.mp hq with rfl | hq
    · exact hl.hi
    · exact hf₀.hi q hq

theorem Mount.FreshTo.dInode {p : Path} (hf : m.FreshTo sb p) :
    (m.dInode p).map (fun i => ⟨i.mode, i.data⟩) = Aufs.seen sb m.w p := by
  have hdi := hf.di p (List.prefix_refl p)
  rw [Mount.dInode, hf.hi p (List.prefix_refl p), hdi, Aufs.seen]
  congr 1
  cases hs : Aufs.seen sb m.w p with
  | none =>
    rw [Dinfo.hDptr, Dinfo.hDptrI, seen_eq_none.mp hs]
    split
    · rfl
    · rfl
  | some e =>
    obtain ⟨b, h, hb⟩ := seen_isSome.mp (by rw [hs]; rfl)
    rw [Dinfo.hDptr, (freshDi_ends hb).tidy.hDptrI]

/-- The slots of a lookup that finds nothing are negative. -/
theorem Mount.LookedUp.negative (h0 : 0 ≤ (m.di dir).bstart) (hlook : m.LookedUp sb dir name)
    (hnil : (m.found sb dir name).slots = []) (b : Int) : ((m.di (dir ++ [name])).hdentry b).bind HDentry.inode = none := by
  obtain ⟨w, w', np, hfs, hl⟩ := hlook
  obtain ⟨hnp, -⟩ := lkupDentry_found h0 hfs hl
  obtain ⟨-, -, hd⟩ := lkupDentry_fresh h0 hl
  have hscan : (m.di dir).scan sb w name = m.found sb dir name :=
    Scan.search_congr fun c _ => cellAt_fs hfs _ _ c
  rw [hscan, if_neg (not_not.mpr (by rw [hnp, hnil, List.length_nil]))] at hd
  rw [hd, hdentry_ofScan, Scan.prepend_slots, hnil, List.append_nil]
  cases hslot : (negSlot sb w (m.di dir) name (bindexes (m.di dir).bstart (m.di dir).dbtaildir)).lookup b with
  | none => rfl
  | some x => rw [Option.bind_some, negSlot_negative hslot]

/-- The new dentry has the inode of what is seen. -/
theorem Mount.LookedNow.dInode (hl : Mount.LookedNow sb dir name m m₀) (hf : m.FreshTo sb dir)
    (hdir : SeenDir sb m.w dir) :
    (m₀.dInode (dir ++ [name])).map (fun i => ⟨i.mode, i.data⟩) = Aufs.seen sb m.w (dir ++ [name]) := by
  have hf₀ := hl.freshTo hf
  have hdir₀ := hl.seenDir hdir
  cases hs : Aufs.seen sb m.w (dir ++ [name]) with
  | none =>
    have hnil : (m₀.found sb dir name).slots = [] := by
      rw [hf₀.found]
      exact found_of_seen_none hl.name_ok (by rw [hl.seen, hs])
    rw [Mount.dInode, hl.hi, hl.look.negative (hf₀.dirs hdir₀).self.nonneg hnil]
    rfl
  | some e =>
    rw [(hl.fresh hf hdir (by rw [hs]; rfl)).dInode, hl.seen, hs]

/-- What deletions need to know of the dentry. -/
theorem Mount.FreshTo.target (hf : m.FreshTo sb (dir ++ [name])) (hname : hasWhPfx name = false)
    (hsome : (Aufs.seen sb m.w (dir ++ [name])).isSome) (hbwh : (freshDi sb m.w (dir ++ [name])).bwh = -1) :
    ∃ s, m.Target sb dir name s := by
  have hdir := seenDir_of_seen hsome
  have hfdir : m.FreshTo sb dir :=
    ⟨fun q hq => hf.di q (hq.trans (List.prefix_append dir [name])), fun q hq => hf.hi q (hq.trans (List.prefix_append dir [name]))⟩
  have hself := hf.di _ (List.prefix_refl _)
  obtain ⟨b, h, hb⟩ := seen_isSome.mp hsome
  have hends := freshDi_ends hb
  obtain ⟨br, i, hbr, hi, hslot, -⟩ := seen_eq hends
  generalize hs : (freshDi sb m.w (dir ++ [name])).bstart = s at hbr hslot
  have hstart : (m.di (dir ++ [name])).bstart = s := by rw [hself, hs]
  obtain ⟨e, rest, hcons⟩ := List.exists_cons_of_ne_nil (found_of_seen hname hsome)
  have hfirst : e.1 = s := by
    rw [← hs, freshDi_concat hname, ← cold_found, Dinfo.ofScan, hcons]
    rfl
  refine ⟨s, ⟨⟨hfdir.dirs hdir, e.2, rest, ?_⟩, ⟨hstart, ?_, ?_, ?_⟩, ⟨br, i, hbr, ?_⟩, ?_, fun c x hc => ?_⟩⟩
  · rw [hfdir.found, hcons, ← hfirst]
  · exact (SuperBlock.range_of_stobr hbr).1
  · rw [hself, ← hs]
    exact (hends.range _ hends.start).2
  · rw [Dinfo.positiveAt, hself, hends.tidy.hDptrI, hslot]
    rfl
  · rw [hself, hslot]
  · rw [hself, hbwh]
  · rw [hself] at hc
    obtain ⟨_, _, -, -, rfl⟩ := freshDi_slot hc
    rfl

/-- The lookup of a file has met no whiteout. -/
theorem bwh_of_file (hname : hasWhPfx name = false) (hs : seen sb w (dir ++ [name]) = some e) (he : e.mode ≠ .dir) :
    (freshDi sb w (dir ++ [name])).bwh = -1 := by
  obtain ⟨b, h, hb⟩ := seen_isSome.mp (by rw [hs]; rfl)
  have hends := freshDi_ends hb
  obtain ⟨br, i, -, -, hslot, hseen⟩ := seen_eq hends
  rw [hs] at hseen
  have hmode : i.mode = e.mode := (congrArg Seen.mode (Option.some.inj hseen)).symm
  have hfile : HDentry.isDir ⟨br.root, dir ++ [name], some i⟩ = false := by
    refine Bool.eq_false_iff.mpr fun hd => he ?_
    rw [← hmode]
    exact HInode.isDir_iff.mp hd
  rw [freshDi_concat hname, Dinfo.ofScan, ← cold_found, Mount.found_eq, Scan.maskAt_of_file ((slot_iff_mem hname).mp hslot) hfile]
  rfl

/-- The dentry of a directory. -/
theorem SeenDir.isDirDi {p : Path} (hdir : SeenDir sb w p) : (freshDi sb w p).IsDir := by
  refine ⟨hdir.ends.nonneg, fun b h hb _ => hdir.isDir (hdentry_of_hDptrI hb)⟩

-- ---------------------------------------------------------------------------
-- Deletions
-- ---------------------------------------------------------------------------

/-- Users see nothing at the path and below. -/
theorem Mount.Removed.seen (hroots : sb.DistinctRoots) (hname : hasWhPfx name = false) (hf : m.FreshTo sb dir)
    (hdir : SeenDir sb m.w dir) (hr : Mount.Removed sb m dir name m') :
    Aufs.seen sb m'.w = fun x => if dir ++ [name] <+: x then none else Aufs.seen sb m.w x := by
  obtain ⟨b, m₁, hframe, hhas, hoff, hch, hnothing⟩ := hr.run
  have htrue := hf.trueTo hdir
  have htrue₁ := hframe.trueTo hroots htrue hhas htrue (not_concat_within dir name)
  have hseen₁ := hframe.seen hroots htrue
  have hfresh : freshDi sb m'.w dir = freshDi sb m₁.w dir :=
    freshDi_of_changes hname hch (not_concat_within dir name)
  rw [Mount.found, hoff.at_dir, htrue₁.scan, ← hfresh] at hnothing
  rw [← hseen₁]
  exact seen_cut hname hch (seen_none_of_found hname hnothing)

-- ---------------------------------------------------------------------------
-- Directories that are removed
-- ---------------------------------------------------------------------------

end Aufs
