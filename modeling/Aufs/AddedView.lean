-- SUMMARY: What users see after an addition: one more file or directory, and after a failed one the same as before.
import Aufs.TrueDentries

/-!
# Additions as users see them

A file or a directory that was added is seen at its path, nothing is seen in a new
directory, and what is seen at the other paths stays. An addition that fails changes
nothing that is seen, as long as the steps that take it back do not fail as well.
-/

namespace Aufs

open Prog Op Overlay

variable {m m' m₀ m₁ : Mount} {sb : SuperBlock} {dir : Path} {name n : Name} {b : Int} {w w' : World}

/-- What users see depends on the files alone. -/
theorem freshDi_congr (hnode : w'.node = w.node) (p : Path) : freshDi sb w' p = freshDi sb w p := by
  induction p using List.reverseRecOn with
  | nil => exact freshDi_root fun r => by rw [hnode]
  | append_singleton p n ih =>
    refine freshDi_step ih fun _ => ⟨fun r => ?_, fun r => ?_, fun r => ?_⟩
    · exact congrFun (congrFun hnode r) _
    · exact congrArg Option.isSome (congrFun (congrFun hnode r) _)
    · exact congrArg Option.isSome (congrFun (congrFun hnode r) _)

theorem seen_congr (hnode : w'.node = w.node) : seen sb w' = seen sb w := by
  funext p
  rw [seen, seen, freshDi_congr hnode]

/-- The lookup of a new dentry leaves the directory fresh. -/
theorem Mount.LookedNow.freshTo (hl : Mount.LookedNow sb dir name m m₀) (hf : m.FreshTo sb dir) :
    m₀.FreshTo sb dir := by
  refine ⟨fun q hq => ?_, fun q hq b => ?_⟩
  · rw [hl.off.di q (ne_concat_of_within hq), hf.di q hq, freshDi_congr (World.node_congr hl.fs)]
  · rw [hl.off.di q (ne_concat_of_within hq), hl.off.hi q (ne_concat_of_within hq), hf.hi q hq]

theorem Mount.LookedNow.seen (hl : Mount.LookedNow sb dir name m m₀) : seen sb m₀.w = seen sb m.w :=
  seen_congr (World.node_congr hl.fs)

theorem Mount.LookedNow.seenDir (hl : Mount.LookedNow sb dir name m m₀) (hdir : SeenDir sb m.w dir) : SeenDir sb m₀.w dir := by
  rw [SeenDir, hl.seen]
  exact hdir

/-- What the operations need to know of the new dentry. -/
theorem Mount.LookedNow.known (hl : Mount.LookedNow sb dir name m m₀) (hf : m.FreshTo sb dir)
    (hdir : SeenDir sb m.w dir) : m₀.EntryKnown sb dir name := by
  have hf₀ := hl.freshTo hf
  have hdir₀ := hl.seenDir hdir
  exact ⟨hf₀.dirs hdir₀, hf₀.opaqueTail hdir₀, hl.look.entryAt (hf₀.dirs hdir₀)⟩

/-- Where nothing is seen the lookup has found nothing. -/
theorem found_of_seen_none (hn : hasWhPfx n = false) (hnone : seen sb w (dir ++ [n]) = none) :
    ((Mount.cold sb w).found sb dir n).slots = [] := by
  refine List.eq_nil_iff_forall_not_mem.mpr fun e he => ?_
  have hslot := (slot_iff_mem hn).mpr (show (e.1, e.2) ∈ _ from he)
  rw [seen_eq_none.mp hnone] at hslot
  cases hslot

-- ---------------------------------------------------------------------------
-- Additions
-- ---------------------------------------------------------------------------

/-- The addition changes only what a lookup of its name asks for. -/
theorem Mount.Adds.changesAt {r : Nat} {i : HInode} {wh opq : Bool} (hname : hasWhPfx name = false)
    (ha : Mount.Adds dir name r i wh opq m₁ m') : ChangesAt dir name m₁.w m'.w := by
  intro s x hx
  refine ha.others s x ?_
  rintro ⟨-, rfl | rfl | rfl⟩
  · exact hx name (.inl rfl) (List.prefix_refl _)
  · exact hx _ (askedFor_whName hname) (List.prefix_refl _)
  · exact hx name (.inl rfl) (List.prefix_append _ _)

/-- Users see the new entry, and nothing in it. -/
theorem Mount.Added.seen {opq : Bool → Bool} {mode : FType} {data : Nat} (hroots : sb.DistinctRoots)
    (hname : hasWhPfx name = false) (hf : m.FreshTo sb dir) (hdir : SeenDir sb m.w dir)
    (hopq : mode = .dir → opq true = true) (hadded : Mount.Added sb m dir name opq mode data m')
    (hnone : Aufs.seen sb m.w (dir ++ [name]) = none) :
    Aufs.seen sb m'.w = Function.update (Aufs.seen sb m.w) (dir ++ [name]) (some ⟨mode, data⟩) := by
  obtain ⟨b, br, m₁, i, hr, rfl, rfl, ha⟩ := hadded.run
  have hhas : ((m₁.di dir).hdentry b).isSome := by
    obtain ⟨hp, hhp, -⟩ := hr.parent
    rw [hhp]
    rfl
  have htrue := hf.trueTo hdir
  have htrue₁ := hr.toPathFrame.trueTo hroots htrue hhas htrue (not_concat_within dir name)
  have hseen₁ := hr.toPathFrame.seen hroots htrue
  have hch := ha.changesAt hname
  have hfresh : freshDi sb m'.w dir = freshDi sb m₁.w dir :=
    freshDi_of_changes hname hch (not_concat_within dir name)
  -- the slots of the new entry
  have hslots : ((freshDi sb m'.w dir).scan sb m'.w name).slots = [(b, ⟨br.root, dir ++ [name], some i⟩)] := by
    have hfound := ha.found hroots hr fun hi heq => by
      rw [decide_eq_true heq]
      exact hopq (HInode.isDir_iff.mp hi)
    rw [Mount.found, ha.off.at_dir, htrue₁.scan] at hfound
    rw [hfresh]
    exact hfound
  have hself : ∀ c h, (freshDi sb m'.w (dir ++ [name])).hdentry c = some h ↔
      c = b ∧ h = ⟨br.root, dir ++ [name], some i⟩ := fun c h => by
    rw [freshDi_concat hname, hdentry_ofScan, mem_of_lookup scan_sorted, hslots, List.mem_singleton, Prod.mk.injEq]
  rw [← hseen₁] at hnone ⊢
  refine seen_put hname hch hnone ?_ fun k => ?_
  · have hb := (hself b _).mpr ⟨rfl, rfl⟩
    obtain ⟨_, j, -, -, hstart, hseen⟩ := seen_eq (freshDi_ends hb)
    obtain ⟨-, heq⟩ := (hself _ _).mp hstart
    obtain rfl : j = i := Option.some.inj (congrArg HDentry.inode heq)
    exact hseen
  · -- a slot below would be in the new directory
    refine seen_eq_none.mpr fun c => Option.eq_none_iff_forall_ne_some.mpr fun h hc => ?_
    have hk := name_ok_of_seen (seen_isSome.mpr ⟨c, h, hc⟩)
    obtain ⟨hp, hhp, -⟩ := freshDi_parent hc
    obtain ⟨rfl, rfl⟩ := (hself c hp).mp hhp
    obtain ⟨br', j, hbr', hj, -⟩ := freshDi_slot hc
    obtain rfl := Option.some.inj (hr.branch.symm.trans hbr')
    have hbelow : m₁.w.node br.root (dir ++ [name] ++ [k]) = none :=
      (m₁.w.fs br.root).wf.closed.node_append_none ha.was [k]
    rw [ha.others br.root (dir ++ [name] ++ [k]) ?_, hbelow] at hj
    · cases hj
    rintro ⟨-, heq | heq | heq⟩
    · exact absurd heq (by simp)
    · exact concat_append_ne (ne_whName_of_not_hasWhPfx hname).symm [k] heq.symm
    · have hopq := List.singleton_inj.mp (List.append_cancel_left heq)
      rw [hopq, diropqName, hasWhPfx_whName] at hk
      cases hk

/-- After an addition that failed users see what they saw. -/
theorem Mount.NotDone.seen (hroots : sb.DistinctRoots) (ht : m.TrueTo sb dir) (hno : Mount.NotDone sb m dir name m') :
    Aufs.seen sb m'.w = Aufs.seen sb m.w ∨ m.fails + 2 ≤ m'.fails := by
  refine hno.files.imp_left fun ⟨b, hb, m₁, hgrew, hrest⟩ => ?_
  rw [ht.ends.2] at hb
  rw [seen_of_restored hrest.node hrest.wh]
  exact seen_of_grew hroots ht.seenDir hb (ht.nodesGrew hgrew)

/-- A writable branch over a read-only one. -/
def smallSb : SuperBlock := .ofBranches [.plain 1 .RW, .plain 2 .ROWH]

theorem smallSb_roots : smallSb.DistinctRoots := SuperBlock.distinctRoots_of_nodup (by decide)

/-- The whiteout base on the writable branch, and on the other one the file `a`, the directory `d` with the file `b`, and
the directory `e`. -/
def smallWorld : World :=
  .ofFs fun root =>
    if root = 2 then .ofList [([[97]], .reg), ([[100]], .dir), ([[100], [98]], .reg), ([[101]], .dir)]
    else .ofList [([whBaseName], .reg)]

end Aufs
