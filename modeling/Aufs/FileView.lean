-- SUMMARY: Entries of one branch as users see them: a file that nothing above hides, a name under a whiteout, and names that stay.
import Aufs.RemovedView

/-!
# Files of one branch

What users see under a name is decided by the first branch that has the name or its whiteout.
So a file is seen when no branch above has either and no whiteout lies beside it. Copying
up directories elsewhere does not change what the other branches have under the name.
-/

namespace Aufs

open Prog Op Overlay

variable {sb : SuperBlock} {w w' : World} {p q dir : Path} {name n : Name} {b c : Int} {br : Branch} {i : HInode}

-- ---------------------------------------------------------------------------
-- Files and nothing
-- ---------------------------------------------------------------------------

/-- No directory is seen at the path. -/
def NoDir (sb : SuperBlock) (w : World) (p : Path) : Prop := ∀ e, seen sb w p = some e → e.mode ≠ .dir

theorem NoDir.below (h : NoDir sb w p) (n : Name) : seen sb w (p ++ [n]) = none := by
  refine Option.not_isSome_iff_eq_none.mp fun hsome => ?_
  obtain ⟨e, he, hmode⟩ := seenDir_of_seen hsome
  exact h e he hmode

theorem NoDir.not_within (h : NoDir sb w p) (hdir : SeenDir sb w dir) : ¬ p <+: dir := by
  intro hpre
  obtain ⟨e, he, hmode⟩ := hdir.within hpre
  exact h e he hmode

theorem NoDir.of_none (h : seen sb w p = none) : NoDir sb w p := fun e he => by
  rw [h] at he
  cases he

-- ---------------------------------------------------------------------------
-- One name
-- ---------------------------------------------------------------------------

/-- The branch has the directory, lookups reach it, and no branch above has anything under the name. -/
structure ClearTo (sb : SuperBlock) (w : World) (dir : Path) (name : Name) (b : Int) : Prop where
  shown : SeenDir sb w dir
  slot : ((freshDi sb w dir).hdentry b).isSome
  reached : b ≤ (freshDi sb w dir).dbtaildir
  above : ∀ c < b, ¬ Scan.full ((Mount.cold sb w).cell sb dir name c)

namespace ClearTo

theorem asked (h : ClearTo sb w dir name b) : b ∈ (Mount.cold sb w).asked dir := by
  obtain ⟨x, hx⟩ := Option.isSome_iff_exists.mp h.slot
  exact ((dirs_cold h.shown).mem_asked hx).mpr h.reached

theorem cell (h : ClearTo sb w dir name b) (hbr : sb.stobr b = some br) :
    (Mount.cold sb w).cell sb dir name b =
      { mask := sb.sbrIsWhable b && (w.node br.root (dir ++ [whName name])).isSome
        entry := (w.node br.root (dir ++ [name])).map fun i => ⟨br.root, dir ++ [name], some i⟩
        opq := sb.sbrIsWhable b && (w.node br.root (dir ++ [name] ++ [diropqName])).isSome } := by
  obtain ⟨x, hx⟩ := Option.isSome_iff_exists.mp h.slot
  obtain ⟨br', i, hbr', -, rfl⟩ := freshDi_slot hx
  obtain rfl := Option.some.inj (hbr.symm.trans hbr')
  exact (dirs_cold h.shown).cell_some hx name

/-- A file of the branch is seen, unless a whiteout lies beside it. -/
theorem seen_file (h : ClearTo sb w dir name b) (hname : hasWhPfx name = false) (hbr : sb.stobr b = some br)
    (hwh : sb.sbrIsWhable b = true → w.node br.root (dir ++ [whName name]) = none)
    (hi : w.node br.root (dir ++ [name]) = some i) (hfile : i.isDir = false) :
    seen sb w (dir ++ [name]) = some ⟨i.mode, i.data⟩ := by
  have hmask : ((Mount.cold sb w).cell sb dir name b).mask = false := by
    rw [h.cell hbr]
    dsimp only
    cases hable : sb.sbrIsWhable b with
    | false => rfl
    | true =>
      rw [hwh hable]
      rfl
  have hentry : ((Mount.cold sb w).cell sb dir name b).entry = some ⟨br.root, dir ++ [name], some i⟩ := by
    rw [h.cell hbr]
    dsimp only
    rw [hi]
    rfl
  have hslots : ((freshDi sb w dir).scan sb w name).slots = [(b, ⟨br.root, dir ++ [name], some i⟩)] := by
    rw [← cold_found, Mount.found_eq, Scan.search_first ((Mount.cold sb w).asked_sorted dir) h.asked
      (fun c _ hc => h.above c hc) hmask hentry, if_neg]
    exact Bool.eq_false_iff.mp hfile
  have hself : ∀ c x, (freshDi sb w (dir ++ [name])).hdentry c = some x ↔
      c = b ∧ x = ⟨br.root, dir ++ [name], some i⟩ := fun c x => by
    rw [freshDi_concat hname, hdentry_ofScan, mem_of_lookup scan_sorted, hslots, List.mem_singleton, Prod.mk.injEq]
  obtain ⟨_, j, -, -, hstart, hseen⟩ := seen_eq (freshDi_ends ((hself b _).mpr ⟨rfl, rfl⟩))
  obtain ⟨-, heq⟩ := (hself _ _).mp hstart
  obtain rfl : j = i := Option.some.inj (congrArg HDentry.inode heq)
  exact hseen

/-- A whiteout of the branch hides the name. -/
theorem seen_wh (h : ClearTo sb w dir name b) (hname : hasWhPfx name = false) (hbr : sb.stobr b = some br)
    (hable : sb.sbrIsWhable b = true) (hwh : (w.node br.root (dir ++ [whName name])).isSome) :
    seen sb w (dir ++ [name]) = none := by
  refine seen_none_of_found hname ?_
  rw [Mount.found_eq, Scan.search_masked ((Mount.cold sb w).asked_sorted dir) h.asked fun c _ hc => h.above c hc]
  rw [h.cell hbr, hable]
  exact hwh

end ClearTo

/-- The name stays where its directory does, and what lookups of it ask for. -/
theorem seen_of_same (hp : freshDi sb w' dir = freshDi sb w dir)
    (hs : Mount.SameAt dir name (Mount.cold sb w) (Mount.cold sb w')) :
    seen sb w' (dir ++ [name]) = seen sb w (dir ++ [name]) := by
  rw [seen, seen, freshDi_step hp fun _ => hs]

/-- Changes on one branch leave the branches above clear. -/
theorem ClearTo.of_changes (hroots : sb.DistinctRoots) (h : ClearTo sb w dir name b) (hbr : sb.stobr b = some br)
    (hp : freshDi sb w' dir = freshDi sb w dir) (hother : ∀ r x, r ≠ br.root → w'.node r x = w.node r x) :
    ClearTo sb w' dir name b := by
  have hdir' : SeenDir sb w' dir := by
    rw [SeenDir, seen, hp]
    exact h.shown
  refine ⟨hdir', hp ▸ h.slot, hp ▸ h.reached, fun c hc => ?_⟩
  rw [(dirs_cold h.shown).cell_other hroots (dirs_cold hdir') hp hbr hother hc.ne]
  exact h.above c hc

-- ---------------------------------------------------------------------------
-- Directories that are copied up
-- ---------------------------------------------------------------------------

section Grew

variable (hroots : sb.DistinctRoots) (hdir : SeenDir sb w dir) (hb : b ≤ (freshDi sb w dir).bend)
  (hgrew : Mount.NodesGrew sb dir b (Mount.cold sb w) (Mount.cold sb w'))

include hroots hdir hb hgrew

omit hroots hb in
/-- Off the path what lookups of a name ask for stays. -/
theorem sameAt_of_grew (hq : ¬ q ++ [n] <+: dir) : Mount.SameAt q n (Mount.cold sb w) (Mount.cold sb w') := by
  refine ⟨fun r => hgrew.node_eq hq, fun r => congrArg Option.isSome (hgrew.node_eq ?_),
    fun r => congrArg Option.isSome (hgrew.node_eq ?_)⟩
  · exact hdir.not_within (hasWhPfx_whName n)
  · exact hdir.not_within (hasWhPfx_whName _)

/-- The other branches have the directories that they had. -/
theorem hdentry_of_grew (hc : c ≠ b) : (freshDi sb w' q).hdentry c = (freshDi sb w q).hdentry c := by
  by_cases hq : q <+: dir
  · exact (pathGrew hroots hdir hb hgrew hq).only c hc
  · rw [freshDi_of_grew hroots hdir hb hgrew hq]

/-- Every directory is kept. -/
theorem keepsDir_of_grew (hdirq : SeenDir sb w q) : Mount.KeepsDir sb q (Mount.cold sb w) (Mount.cold sb w') := by
  by_cases hq : q <+: dir
  case pos => exact (pathGrew hroots hdir hb hgrew hq).keeps
  case neg =>
    have hsame : (Mount.cold sb w').di q = (Mount.cold sb w).di q := freshDi_of_grew hroots hdir hb hgrew hq
    have hdirq' : SeenDir sb w' q := by
      rw [SeenDir, seen_of_grew hroots hdir hb hgrew]
      exact hdirq
    exact ⟨dirs_cold hdirq, dirs_cold hdirq', by rw [hsame], fun c h hc => hsame ▸ hc, fun c h hc => .inl (hsame ▸ hc)⟩

/-- The other branches have under the name what they had. -/
theorem cell_of_grew (hdirq : SeenDir sb w q) (hq : ¬ q ++ [n] <+: dir) (hc : c ≠ b) :
    (Mount.cold sb w').cell sb q n c = (Mount.cold sb w).cell sb q n c := by
  have hkeeps := keepsDir_of_grew hroots hdir hb hgrew hdirq
  have hslot := hdentry_of_grew (q := q) hroots hdir hb hgrew hc
  cases hold : (freshDi sb w q).hdentry c with
  | none => rw [hkeeps.before.cell_none hold, hkeeps.after.cell_none (hslot.trans hold)]
  | some x => exact hkeeps.cell_eq (sameAt_of_grew hdir hgrew hq) hold

/-- The branches above stay clear. -/
theorem ClearTo.of_grew (h : ClearTo sb w q name b) (hq : ¬ q ++ [name] <+: dir) : ClearTo sb w' q name b := by
  have hkeeps := keepsDir_of_grew hroots hdir hb hgrew h.shown
  obtain ⟨x, hx⟩ := Option.isSome_iff_exists.mp h.slot
  have hdirq' : SeenDir sb w' q := by
    rw [SeenDir, seen_of_grew hroots hdir hb hgrew]
    exact h.shown
  have hslot : ((freshDi sb w' q).hdentry b).isSome := by
    have hkept : (freshDi sb w' q).hdentry b = some x := hkeeps.kept b x hx
    rw [hkept]
    rfl
  have htail : (freshDi sb w' q).dbtaildir = (freshDi sb w q).dbtaildir := hkeeps.tail
  refine ⟨hdirq', hslot, htail ▸ h.reached, fun c hc => ?_⟩
  rw [cell_of_grew hroots hdir hb hgrew h.shown hq hc.ne]
  exact h.above c hc

end Grew

end Aufs
