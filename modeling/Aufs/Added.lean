-- SUMMARY: What adding an entry leaves: it is found on the branch that was prepared and nothing below shows through, or nothing has changed.
import Aufs.OpAdd

/-!
# The effect of an addition

A new entry is made on the branch that `wr_dir` prepared. Nothing above it hides the name,
and what lies below was not seen before: either no branch has it, or a whiteout covers it.
When the whiteout lies on the branch of the entry it goes, and a new directory is opaque
instead. After a failure the files are as before, but for a whiteout that was made anew and
for parents on the branch, unless the way back failed as well.
-/

namespace Aufs

open Prog Op Overlay

variable {m m' m₁ m₂ : Mount} {sb : SuperBlock} {dir : Path} {name n : Name} {b c : Int} {h : HDentry}

-- ---------------------------------------------------------------------------
-- Nothing under the name
-- ---------------------------------------------------------------------------

/-- Nothing is seen under the name: the branches down to the whiteout of the dentry, if it has one, are
clear, and the whiteout is there. -/
structure Mount.Absent (sb : SuperBlock) (m : Mount) (dir : Path) (name : Name) : Prop where
  clear : ∀ c h, (m.di dir).hdentry c = some h → c ≤ (m.di dir).dbtaildir →
    ((m.di (dir ++ [name])).bwh = -1 ∨ c < (m.di (dir ++ [name])).bwh) → ¬ Scan.full (m.cell sb dir name c)
  wh : (m.di (dir ++ [name])).bwh ≠ -1 → (m.di (dir ++ [name])).bwh ∈ m.asked dir ∧
    (m.cell sb dir name (m.di (dir ++ [name])).bwh).mask = true

/-- A dentry that was looked up, and nothing was found. -/
theorem Mount.LookedUp.absent (hm : m.Dirs sb dir) (hlook : m.LookedUp sb dir name)
    (hnil : (m.found sb dir name).slots = []) : m.Absent sb dir name := by
  obtain ⟨w, w', np, hfs, hl⟩ := hlook
  have hself := hm.self
  obtain ⟨hnp, -⟩ := lkupDentry_found hself.nonneg hfs hl
  obtain ⟨-, -, hd⟩ := lkupDentry_fresh hself.nonneg hl
  have hscan : (m.di dir).scan sb w name = m.found sb dir name :=
    Scan.search_congr fun c _ => cellAt_fs hfs _ _ c
  have hzero : np = 0 := by rw [hnp, hnil, List.length_nil]
  rw [hscan] at hd
  rw [if_neg (not_not.mpr hzero)] at hd
  have hbwh : (m.di (dir ++ [name])).bwh = (m.found sb dir name).maskAt.getD (-1) := by
    rw [hd]
    rfl
  refine ⟨fun c h hc hle hcover hfull => ?_, fun hne => ?_⟩
  · obtain ⟨e, hat, hec⟩ := Scan.maskAt_of_search_none (m.asked_sorted dir) hnil
      ((hm.mem_asked hc).mpr hle) hfull
    have hmask := Scan.mask_of_maskAt hnil hat
    have h0 : 0 ≤ e := hself.nonneg.trans (mem_bindexes.mp hmask.1).1
    have hat' : (m.found sb dir name).maskAt = some e := hat
    rw [hbwh, hat', Option.getD_some] at hcover
    omega
  · cases hat : (m.found sb dir name).maskAt with
    | none =>
      rw [hbwh, hat] at hne
      exact absurd rfl hne
    | some e =>
      rw [hbwh, hat, Option.getD_some]
      exact Scan.mask_of_maskAt hnil hat

/-- Nothing is seen after the parent was copied up either. -/
theorem Mount.Absent.keeps (h : m.Absent sb dir name) (hk : Mount.KeepsDir sb dir m m')
    (hs : Mount.SameAt dir name m m') (hbwh : (m'.di (dir ++ [name])).bwh = (m.di (dir ++ [name])).bwh) :
    m'.Absent sb dir name := by
  refine ⟨fun c x hc hle hcover => ?_, fun hne => ?_⟩
  · rw [hbwh] at hcover
    cases hold : (m.di dir).hdentry c with
    | none => exact hk.cell_fresh hs hc hold
    | some y =>
      rw [hk.cell_eq hs hold]
      exact h.clear c y hold (hk.tail ▸ hle) hcover
  · rw [hbwh] at hne ⊢
    obtain ⟨hmem, hmask⟩ := h.wh hne
    obtain ⟨y, hy⟩ := hk.before.slot_of_full (.inl hmask)
    refine ⟨(hk.after.mem_asked (hk.kept _ y hy)).mpr ?_, ?_⟩
    · rw [hk.tail]
      exact (hk.before.mem_asked hy).mp hmem
    · rw [hk.cell_eq hs hy]
      exact hmask

theorem Mount.NodesGrew.sameAt (h : Mount.NodesGrew sb dir b m m') (n : Name) : Mount.SameAt dir n m m' := by
  have hbelow : ∀ r x, x ≠ [] → m'.w.node r (dir ++ x) = m.w.node r (dir ++ x) := fun r x hx => h.below r hx
  refine ⟨fun r => hbelow r _ (by simp), fun r => by rw [hbelow r _ (by simp)], fun r => ?_⟩
  rw [List.append_assoc, hbelow r _ (by simp)]

/-- A name that was looked up has not the prefix of whiteouts. -/
theorem Mount.LookedUp.name_ok (h : m.LookedUp sb dir name) : hasWhPfx name = false := by
  obtain ⟨w, w', np, -, hl⟩ := h
  rw [lkupDentry] at hl
  split at hl
  · cases hl
  · rename_i hok
    exact Bool.not_eq_true _ ▸ hok

-- ---------------------------------------------------------------------------
-- The branch is ready
-- ---------------------------------------------------------------------------

/-- The mount after the first part of an addition: the branch has the parent and a slot of the dentry, nothing
above has the name, and nothing is seen below. -/
structure Mount.Ready (sb : SuperBlock) (m : Mount) (dir : Path) (name : Name) (b : Int) (br : Branch)
    (m₁ : Mount) : Prop extends Mount.Frame sb m dir name b m₁ where
  branch : sb.stobr b = some br
  writable : br.brRdonly = false
  start : (m₁.di (dir ++ [name])).bstart = b
  slot : ∃ h, (m₁.di (dir ++ [name])).hDptrI b = some h ∧ h.root = br.root ∧ h.path = dir ++ [name]
  parent : ∃ hp, (m₁.di dir).hdentry b = some hp ∧ hp.root = br.root ∧ hp.path = dir
  above : ∀ c < b, ¬ Scan.full (m₁.cell sb dir name c)
  absent : m₁.Absent sb dir name
  fails : m.fails ≤ m₁.fails

/-- The whiteout that the addition has to remove. -/
def Mount.WhOf (m : Mount) (dir : Path) (name : Name) (b : Int) (br : Branch) (wh : Option HDentry) : Prop :=
  (wh = none ∧ b ≠ (m.di (dir ++ [name])).bwh) ∨
    ∃ x, wh = some x ∧ b = (m.di (dir ++ [name])).bwh ∧ x.root = br.root ∧ x.path = dir ++ [whName name]

theorem Mount.Dirs.withFs {w : World} (hm : m.Dirs sb dir) (hfs : w.fs = m.w.fs) : Mount.Dirs sb { m with w } dir :=
  hm.congr (fun _ _ => ⟨rfl, rfl⟩) fun r q _ _ => congrFun (congrFun (World.node_congr hfs) r) q

theorem Mount.cell_withFs {w : World} (hfs : w.fs = m.w.fs) (c : Int) :
    Mount.cell sb { m with w } dir name c = m.cell sb dir name c := cellAt_fs hfs _ _ c

theorem Mount.Frame.withFs {w : World} (hf : Mount.Frame sb m dir name b m₁) (hfs : w.fs = m₁.w.fs) :
    Mount.Frame sb m dir name b { m₁ with w } where
  toPathFrame := hf.toPathFrame.congr .refl rfl (Mount.Off.refl.world w m₁.fails) (World.node_congr hfs)
  bwh := hf.bwh

/-- A call that changes no file leaves the branch ready. -/
theorem Mount.Ready.withFs {br : Branch} {w : World} (hr : Mount.Ready sb m dir name b br m₁)
    (hfs : w.fs = m₁.w.fs) : Mount.Ready sb m dir name b br { m₁ with w } where
  toFrame := hr.toFrame.withFs hfs
  branch := hr.branch
  writable := hr.writable
  start := hr.start
  slot := hr.slot
  parent := hr.parent
  above := fun c hc => by
    rw [Mount.cell_withFs hfs]
    exact hr.above c hc
  absent := by
    refine ⟨fun c h hc hle hcover => ?_, fun hne => ?_⟩
    · rw [Mount.cell_withFs hfs]
      exact hr.absent.clear c h hc hle hcover
    · rw [Mount.cell_withFs hfs]
      exact hr.absent.wh hne
  fails := hr.fails

/-- The branch has the parent and a slot of the dentry. -/
theorem Mount.Prepared.parent (hp : Mount.Prepared sb m dir name b m₁) :
    ∃ br, sb.stobr b = some br ∧ (∃ i, (m₁.di dir).hdentry b = some ⟨br.root, dir, some i⟩) ∧
      ∃ h, (m₁.di (dir ++ [name])).hDptrI b = some h ∧ h.root = br.root ∧ h.path = dir ++ [name] := by
  obtain ⟨hp₁, h, hslot, -, hh, hroot, hpath⟩ := hp.slot
  have hslot' := hdentry_of_hDptrI hslot
  obtain ⟨br, i, hbr, -, -, rfl⟩ := hp.keeps.after.self.slots b hp₁ hslot'
  exact ⟨br, hbr, ⟨i, hslot'⟩, h, hh, hroot, hpath⟩

/-- Nothing above the branch has the name. -/
theorem Mount.Prepared.clear (hp : Mount.Prepared sb m dir name b m₁) : ∀ c < b, ¬ Scan.full (m₁.cell sb dir name c) := by
  intro c hc hfull
  have hm₁ := hp.keeps.after
  obtain ⟨x, hx⟩ := hm₁.slot_of_full hfull
  have hxp : (m₁.di dir).hDptrI c = some x := by rw [hm₁.self.hDptrI, hx]
  refine (hm₁.not_full_iff hx).mpr ?_ hfull
  have hno := hp.above c hc
  refine ⟨Option.not_isSome_iff_eq_none.mp fun hsome => hno ⟨x, hxp, .inl ?_⟩, fun hable =>
    Option.not_isSome_iff_eq_none.mp fun hsome => hno ⟨x, hxp, .inr ⟨hable, .inl ?_⟩⟩⟩
  · rwa [hm₁.path hxp]
  · rwa [hm₁.path hxp]

/-- What `wr_dir` prepared is ready for a name that was not there. -/
theorem Mount.Prepared.ready (hp : Mount.Prepared sb m dir name b m₁) (habsent : m.Absent sb dir name)
    (hfails : m.fails ≤ m₁.fails) : ∃ br, Mount.Ready sb m dir name b br m₁ := by
  obtain ⟨br, hbr, ⟨i, hslot⟩, hh⟩ := hp.parent
  obtain ⟨br', hbr', hwr⟩ := stobr_of_not_brRdonly hp.writable
  obtain rfl := Option.some.inj (hbr.symm.trans hbr')
  exact ⟨br, { hp.toFrame with
    branch := hbr, writable := hwr, start := hp.start, fails := hfails, slot := hh, parent := ⟨_, hslot, rfl, rfl⟩
    absent := habsent.keeps hp.keeps (hp.nodes.sameAt name) hp.bwh, above := hp.clear }⟩

theorem wp_lockHdirLkupWh (hknown : m.EntryKnown sb dir name) (habsent : m.Absent sb dir name) {src : Option Path} :
    wp (lockHdirLkupWh sb (dir ++ [name]) src)
      (fun wh m₁ => ∃ b br, Mount.Ready sb m dir name b br m₁ ∧ m₁.WhOf dir name b br wh)
      (fun _ m' => Mount.NotPrepared sb m dir name m' ∧ m.fails ≤ m'.fails) m := by
  have hforce : ForceOk sb (m.di (dir ++ [name])) (m.hi (dir ++ [name])) (-1) := fun h => absurd h (by omega)
  refine wp_bind.mpr ((wp_wrDir_prepared hknown hforce).mono (fun b m₁ hp => ?_) fun _ _ h => h)
  obtain ⟨br, hr⟩ := hp.1.ready habsent hp.2
  obtain ⟨hq, hslot, hroot, hpath⟩ := hr.parent
  have hstop : ∀ w, w.fs = m₁.w.fs → Mount.NotPrepared sb m dir name (m₁.failed w) ∧ m.fails ≤ (m₁.failed w).fails :=
    fun w hw => ⟨⟨.inl ⟨b, hr.le_bend, (hr.toFrame.withFs hw).nodes⟩, hr.others⟩, hr.fails.trans (Nat.le_succ _)⟩
  rw [dParent_append]
  refine wp_bind.mpr (wp_hDptrI (fun x hx => ?_) fun _ => hstop _ rfl)
  obtain rfl := Option.some.inj ((hr.keeps.after.self.hDptrI b ▸ hx).symm.trans hslot)
  refine wp_bind.mpr (wp_dinfo.mpr (wp_ite.mpr ⟨fun hne => wp_pure.mpr ⟨b, br, hr, .inl ⟨rfl, hne⟩⟩, fun heq => ?_⟩))
  refine wp_bind.mpr (wp_lkupWh (fun w hw => wp_pure.mpr ⟨b, br, hr.withFs hw, .inr ⟨_, rfl, ?_, hroot, ?_⟩⟩)
    fun e w hw => hstop w hw)
  · exact not_not.mp heq
  · rw [dName_append]
    exact congrArg (· ++ [whName name]) hpath

-- ---------------------------------------------------------------------------
-- epilog
-- ---------------------------------------------------------------------------

/-- The files are the same, but for the whiteout of the name, which may be another one. -/
structure Mount.Restored (dir : Path) (name : Name) (m m' : Mount) : Prop where
  node : ∀ r q, q ≠ dir ++ [whName name] → m'.w.node r q = m.w.node r q
  wh : ∀ r, (m'.w.node r (dir ++ [whName name])).isSome = (m.w.node r (dir ++ [whName name])).isSome

theorem Mount.Restored.of_node (h : m'.w.node = m.w.node) : Mount.Restored dir name m m' :=
  ⟨fun r q _ => by rw [h], fun r => by rw [h]⟩

/-- An error: it was counted, and either the files are the same or a second step failed. -/
structure Mount.GivenUp (dir : Path) (name : Name) (m m' : Mount) : Prop where
  off : Mount.Off (dir ++ [name]) m m'
  fails : m.fails < m'.fails
  files : Mount.Restored dir name m m' ∨ m.fails + 2 ≤ m'.fails

/-- A step that fails leaves the files the same. -/
theorem Mount.GivenUp.of_failed {w : World} (hfs : w.fs = m.w.fs) : Mount.GivenUp dir name m (m.failed w) :=
  ⟨Mount.Off.refl.world w _, Nat.lt_succ_self _, .inl (.of_node (World.node_congr hfs))⟩

/-- The new inode changes no file. -/
theorem wp_instantiate {p : Path} {Q : Unit → Mount → Prop} {E : Errno → Mount → Prop}
    (hok : ∀ m', m'.w.fs = m.w.fs → m'.di = m.di → Mount.Off p m m' → Q () m')
    (herr : ∀ e w, w.fs = m.w.fs → E e (m.failed w)) : wp (instantiate p) Q E m := by
  refine wp_bind.mpr (wp_mayFail (fun _ hw => wp_update.mpr (hok _ hw rfl ⟨fun _ _ => rfl, fun q hq => ?_⟩)) herr)
  exact Function.update_of_ne hq ..

/-- `epilog` removes the whiteout, or gives up; the slots of the dentry stay. -/
theorem wp_addEpilog {wh : Option HDentry} (hpath : ∀ x ∈ wh, x.path = dir ++ [whName name])
    (hbr : ∀ x ∈ wh, ∃ br, sb.stobr (m.di (dir ++ [name])).bwh = some br) :
    wp (addEpilog sb wh (dir ++ [name]))
      (fun _ m' => Mount.Off (dir ++ [name]) m m' ∧ ∀ r q, m'.w.node r q =
        if wh.any (fun x => r = x.root ∧ q = x.path) then none else m.w.node r q)
      (fun _ m' => Mount.GivenUp dir name m m' ∧
        ∀ c, (m'.di (dir ++ [name])).hDptrI c = (m.di (dir ++ [name])).hDptrI c) m := by
  cases wh with
  | none =>
    refine wp_instantiate (fun m' hfs _ hoff => ⟨hoff, fun r q => ?_⟩) fun e w hw => ?_
    · rw [World.node_congr hfs]
      rfl
    · exact ⟨.of_failed hw, fun _ => rfl⟩
  | some x =>
    have hx := hpath x rfl
    obtain ⟨br, hbr⟩ := hbr x rfl
    refine wp_bind.mpr (wp_dinfo.mpr (wp_bind.mpr (wp_bind.mpr (wp_vfsubUnlink (fun w i hi _ hsets => ?_) ?_))))
    rotate_left
    · exact fun e w hw => ⟨.of_failed hw, fun _ => rfl⟩
    refine wp_onDinfo.mpr (wp_bind.mpr (wp_attempt.mpr (wp_instantiate (fun m' hfs _ hoff => ?_) fun e w₂ hw₂ => ?_)))
    · refine wp_pure.mpr ⟨(Mount.Off.refl.world w m.fails).setDi _ |>.trans hoff, fun r q => ?_⟩
      rw [World.node_congr hfs, Mount.setDi_w, hsets r q]
      simp only [Option.any_some, decide_eq_true_eq]
    · -- the whiteout is made again
      have hnode₂ : ∀ r q, w₂.node r q = if r = x.root ∧ q = x.path then none else m.w.node r q := fun r q => by
        rw [World.node_congr hw₂, Mount.setDi_w, hsets r q]
      have hhp : dParent x.path ++ [whName (dName (dir ++ [name]))] = x.path := by
        rw [hx, dParent_append, dName_append]
      refine wp_bind.mpr (wp_attempt.mpr (wp_simpleCreateWh hbr (fun h w _ _ hsome hnode _ => ?_)
        (fun h w k i hroot hpath' _ _ hk _ hnew => ?_) fun e w k hk hfs => ?_))
      · dsimp only at hnode
        rw [hhp, Mount.failed_w, hnode₂, if_pos ⟨rfl, rfl⟩] at hnode
        rw [← hnode] at hsome
        cases hsome
      · dsimp only at hnew
        rw [hhp, Mount.failed_w] at hnew
        have hfails : m.fails < k := hk
        refine wp_fail.mpr ⟨⟨?_, hfails, .inl ⟨fun r q hq => ?_, fun r => ?_⟩⟩, fun c => ?_⟩
        · exact (((Mount.Off.refl.world _ m.fails).setDi _).world _ _).setDi _
        · have hne : ¬ (r = x.root ∧ q = x.path) := fun h => hq (h.2.trans hx)
          rw [Mount.setDi_w, Mount.withWorld_w, hnew r q, if_neg hne, hnode₂, if_neg hne]
        · rw [Mount.setDi_w, Mount.withWorld_w, hnew r]
          split
          · rename_i hr
            rw [hr.1, hr.2, hi]
            rfl
          · rename_i hr
            rw [hnode₂, if_neg hr]
        · show (Function.update (Function.update m.di _ _) _ _ (dir ++ [name])).hDptrI c = _
          rw [Function.update_self]
          show (Dinfo.hDptrI { Function.update m.di _ _ (dir ++ [name]) with bwh := _ } c) = _
          rw [Function.update_self]
      · have hfails : m.fails + 1 < k := hk
        refine wp_fail.mpr ⟨⟨?_, (Nat.lt_succ_self _).trans hfails, .inr hfails⟩, fun c => ?_⟩
        · exact ((Mount.Off.refl.world _ m.fails).setDi _).world _ _
        · show (Function.update m.di _ _ (dir ++ [name])).hDptrI c = _
          rw [Function.update_self]
          rfl

-- ---------------------------------------------------------------------------
-- The entry
-- ---------------------------------------------------------------------------

/-- The entry is made on the branch, and its hidden dentry is positive. -/
structure Mount.MadeAt (dir : Path) (name : Name) (b : Int) (r : Nat) (i : HInode) (m₁ m₂ : Mount) : Prop where
  di : m₂.di = Function.update m₁.di (dir ++ [name])
    ((m₁.di (dir ++ [name])).setHDptr b (some ⟨r, dir ++ [name], some i⟩))
  was : m₁.w.node r (dir ++ [name]) = none
  sets : m₁.w.Sets m₂.w r (dir ++ [name]) (some i)
  hi : m₂.hi = m₁.hi
  fails : m₂.fails = m₁.fails

theorem Mount.MadeAt.off {r : Nat} {i : HInode} (h : Mount.MadeAt dir name b r i m₁ m₂) :
    Mount.Off (dir ++ [name]) m₁ m₂ := by
  refine ⟨fun q hq => ?_, fun q _ => by rw [h.hi]⟩
  rw [h.di, Function.update_of_ne hq]

theorem Mount.MadeAt.entry {r : Nat} {i : HInode} (h : Mount.MadeAt dir name b r i m₁ m₂) :
    m₂.w.node r (dir ++ [name]) = some i := by
  rw [h.sets r, if_pos ⟨rfl, rfl⟩]

/-- A file or a directory is made in the slot. -/
theorem wp_makeEntry {br : Branch} {mode : FType} {data : Nat} {h : HDentry} {rest : Op Unit}
    {Q : Unit → Mount → Prop} {E : Errno → Mount → Prop}
    (hslot : (m₁.di (dir ++ [name])).hDptrI b = some h) (hroot : h.root = br.root) (hpath : h.path = dir ++ [name])
    (hok : ∀ m₂ i, i.mode = mode → i.data = data → Mount.MadeAt dir name b br.root i m₁ m₂ → wp rest Q E m₂)
    (herr : ∀ e w, w.fs = m₁.w.fs → E e (m₁.failed w)) :
    wp (do vfsubMake h mode data; Prog.update fun m => m.touch (dir ++ [name]) b; rest) Q E m₁ := by
  refine wp_bind.mpr (wp_vfsubMake (fun w i hnone _ _ hmode hdata hsets => wp_bind.mpr (wp_update.mpr ?_)) herr)
  rw [hroot, hpath] at hnone hsets
  refine hok _ i hmode hdata ⟨?_, hnone, hsets, rfl, rfl⟩
  have hnode : (w.fs h.root).node h.path = some i := by
    rw [hroot, hpath]
    exact (hsets br.root (dir ++ [name])).trans (if_pos ⟨rfl, rfl⟩)
  have hslot' : (m₁.di (dir ++ [name])).hdentry b = some h := hdentry_of_hDptrI hslot
  rw [Mount.touch, Mount.setDi_di, hslot', Option.map_some, hnode, hroot, hpath]

/-- The way back after a later step failed. -/
theorem wp_takenBack {r : Nat} {i : HInode} {err : Errno} {remove : Op Unit} {m₃ : Mount}
    (hmade : Mount.MadeAt dir name b r i m₁ m₂) (hgiven : Mount.GivenUp dir name m₂ m₃)
    (hremove : wp remove (fun _ m' => Mount.Off (dir ++ [name]) m₃ m' ∧
      m₃.w.Sets m'.w r (dir ++ [name]) none ∧ m'.fails = m₃.fails)
      (fun _ m' => Mount.Off (dir ++ [name]) m₃ m' ∧ m'.fails = m₃.fails + 1) m₃) :
    wp (takenBack err (dir ++ [name]) b remove) (fun _ _ => False) (fun _ m' => Mount.GivenUp dir name m₁ m') m₃ := by
  have hfails₁ := hmade.fails
  have hfails₂ := hgiven.fails
  have hoff := hmade.off.trans hgiven.off
  refine wp_bind.mpr (wp_attempt.mpr (hremove.mono ?_ ?_))
  · rintro _ m' ⟨hoff', hsets, hfails⟩
    refine wp_bind.mpr (wp_update.mpr (wp_fail.mpr ⟨(hoff.trans hoff').setDi _, ?_, ?_⟩))
    · show m₁.fails < m'.fails
      omega
    · refine hgiven.files.imp (fun hrest => ⟨fun x q hq => ?_, fun x => ?_⟩) fun hle => ?_
      · rw [Mount.touch_w, hsets x q]
        split
        · rename_i hx
          rw [hx.1, hx.2, hmade.was]
        · rename_i hx
          rw [hrest.node x q hq, hmade.sets x q, if_neg hx]
      · have hne : ¬ (x = r ∧ dir ++ [whName name] = dir ++ [name]) := by
          rintro ⟨-, heq⟩
          have heq := List.append_cancel_left heq
          have hlen := congrArg List.length (List.singleton_inj.mp heq)
          rw [whName, List.length_append] at hlen
          have hpos : whPfx.length = 4 := rfl
          omega
        rw [Mount.touch_w, hsets x, if_neg hne, hrest.wh x, hmade.sets x, if_neg hne]
      · show m₁.fails + 2 ≤ m'.fails
        omega
  · rintro e m' ⟨hoff', hfails⟩
    exact wp_fail.mpr ⟨hoff.trans hoff', by omega, .inr (by omega)⟩

theorem wp_removeFile {r : Nat} {h : HDentry} (hroot : h.root = r) (hpath : h.path = dir ++ [name]) :
    wp (vfsubUnlink h) (fun _ m' => Mount.Off (dir ++ [name]) m m' ∧ m.w.Sets m'.w r (dir ++ [name]) none ∧
        m'.fails = m.fails)
      (fun _ m' => Mount.Off (dir ++ [name]) m m' ∧ m'.fails = m.fails + 1) m := by
  refine wp_vfsubUnlink (fun w i _ _ hsets => ?_) fun e w hw => ⟨Mount.Off.refl.world w _, rfl⟩
  rw [hroot, hpath] at hsets
  exact ⟨Mount.Off.refl.world w m.fails, hsets, rfl⟩

theorem wp_removeDir {r : Nat} {h : HDentry} (hroot : h.root = r) (hpath : h.path = dir ++ [name]) :
    wp (vfsubRmdir h) (fun _ m' => Mount.Off (dir ++ [name]) m m' ∧ m.w.Sets m'.w r (dir ++ [name]) none ∧
        m'.fails = m.fails)
      (fun _ m' => Mount.Off (dir ++ [name]) m m' ∧ m'.fails = m.fails + 1) m := by
  refine wp_vfsubRmdir (fun w i _ _ _ hsets => ?_) fun e w hw => ⟨Mount.Off.refl.world w _, rfl⟩
  rw [hroot, hpath] at hsets
  exact ⟨Mount.Off.refl.world w m.fails, hsets, rfl⟩

-- ---------------------------------------------------------------------------
-- Additions
-- ---------------------------------------------------------------------------

/-- An addition from the prepared branch: the entry is there, its whiteout is gone if `wh`, and its opaque mark
is there if `opq`. -/
structure Mount.Adds (dir : Path) (name : Name) (r : Nat) (i : HInode) (wh opq : Bool) (m₁ m' : Mount) : Prop where
  off : Mount.Off (dir ++ [name]) m₁ m'
  others : ∀ x q, ¬ (x = r ∧ (q = dir ++ [name] ∨ q = dir ++ [whName name] ∨ q = dir ++ [name] ++ [diropqName])) →
    m'.w.node x q = m₁.w.node x q
  was : m₁.w.node r (dir ++ [name]) = none
  entry : m'.w.node r (dir ++ [name]) = some i
  gone : m'.w.node r (dir ++ [whName name]) = if wh then none else m₁.w.node r (dir ++ [whName name])
  mark : (m'.w.node r (dir ++ [name] ++ [diropqName])).isSome = opq

/-- The addition has succeeded with this entry. -/
structure Mount.Added (sb : SuperBlock) (m : Mount) (dir : Path) (name : Name) (opq : Bool → Bool)
    (mode : FType) (data : Nat) (m' : Mount) : Prop where
  run : ∃ b br m₁ i, Mount.Ready sb m dir name b br m₁ ∧ i.mode = mode ∧ i.data = data ∧
    Mount.Adds dir name br.root i (decide (b = (m₁.di (dir ++ [name])).bwh))
      (opq (decide (b = (m₁.di (dir ++ [name])).bwh))) m₁ m'

/-- The operation has failed: the files are the same but for new parents on a branch and for the whiteout, which may
be another one, or more than one step failed. -/
structure Mount.NotDone (sb : SuperBlock) (m : Mount) (dir : Path) (name : Name) (m' : Mount) : Prop where
  files : (∃ b ≤ (m.di dir).bend, ∃ m₁, Mount.NodesGrew sb dir b m m₁ ∧ Mount.Restored dir name m₁ m') ∨
    m.fails + 2 ≤ m'.fails
  others : ∀ q, ¬ q <+: dir → q ≠ dir ++ [name] → m'.di q = m.di q

theorem Mount.NotPrepared.notDone (h : Mount.NotPrepared sb m dir name m') : Mount.NotDone sb m dir name m' :=
  ⟨h.nodes.imp_left fun ⟨b, hb, hgrew⟩ => ⟨b, hb, m', hgrew, .of_node rfl⟩, h.others⟩

theorem Mount.PathFrame.notDone (hframe : Mount.PathFrame sb m dir name b m₁) (hfails : m.fails ≤ m₁.fails)
    (hg : Mount.GivenUp dir name m₁ m') : Mount.NotDone sb m dir name m' := by
  refine ⟨hg.files.imp (fun hrest => ⟨b, hframe.le_bend, m₁, hframe.nodes, hrest⟩) fun hle => by omega,
    fun q hq hne => ?_⟩
  exact (hg.off.di q hne).trans (hframe.others q hq hne)

theorem Mount.Ready.notDone {br : Branch} (hr : Mount.Ready sb m dir name b br m₁)
    (hg : Mount.GivenUp dir name m₁ m') : Mount.NotDone sb m dir name m' :=
  hr.toPathFrame.notDone hr.fails hg

/-- Around the body, negative slots are dropped after an error. -/
theorem wp_adding {op : Op Unit} {Q : Unit → Mount → Prop}
    (h : wp op Q (fun _ m' => Mount.NotDone sb m dir name m') m) :
    wp (adding (dir ++ [name]) op) Q (fun _ m' => Mount.NotDone sb m dir name m') m := by
  refine wp_bind.mpr (wp_attempt.mpr (h.mono (fun _ _ hq => wp_pure.mpr hq) fun e m' hno => ?_))
  refine wp_bind.mpr (wp_onDinfo.mpr (wp_fail.mpr ⟨?_, fun q hq hne => ?_⟩))
  · exact hno.files.imp_left fun ⟨b, hb, m₁, hgrew, hrest⟩ => ⟨b, hb, m₁, hgrew, hrest.node, hrest.wh⟩
  rw [Mount.setDi_di, Function.update_of_ne hne]
  exact hno.others q hq hne

theorem concat_ne_whName (hname : hasWhPfx name = false) (n : Name) : dir ++ [name] ≠ dir ++ [whName n] := fun heq =>
  ne_whName_of_not_hasWhPfx hname (List.singleton_inj.mp (List.append_cancel_left heq))

theorem concat_append_ne (hx : n ≠ name) (x : Path) : dir ++ [n] ≠ dir ++ [name] ++ x := fun heq => by
  rw [List.append_assoc] at heq
  have heq := List.append_cancel_left heq
  rw [List.singleton_append] at heq
  exact hx (List.cons.inj heq).1

/-- What `epilog` needs of the whiteout. -/
theorem Mount.WhOf.epilog {br : Branch} {wh : Option HDentry} {r : Nat} {i : HInode}
    (hwh : m₁.WhOf dir name b br wh) (hbr : sb.stobr b = some br) (hmade : Mount.MadeAt dir name b r i m₁ m₂) :
    (∀ x ∈ wh, x.path = dir ++ [whName name]) ∧
      ∀ x ∈ wh, ∃ br, sb.stobr (m₂.di (dir ++ [name])).bwh = some br := by
  have hbwh : (m₂.di (dir ++ [name])).bwh = (m₁.di (dir ++ [name])).bwh := by
    rw [hmade.di, Function.update_self]
    rfl
  rcases hwh with ⟨rfl, -⟩ | ⟨x, rfl, heq, -, hpath⟩
  · exact ⟨fun x hx => absurd hx (Option.not_mem_none x), fun x hx => absurd hx (Option.not_mem_none x)⟩
  · refine ⟨fun y hy => ?_, fun y _ => ⟨br, by rw [hbwh, ← heq, hbr]⟩⟩
    obtain rfl := Option.some.inj hy
    exact hpath

/-- The whiteout that `epilog` removes, as a place. -/
theorem Mount.WhOf.any {br : Branch} {wh : Option HDentry} (hwh : m₁.WhOf dir name b br wh) (r : Nat) (q : Path) :
    wh.any (fun x => r = x.root ∧ q = x.path) =
      decide (b = (m₁.di (dir ++ [name])).bwh ∧ r = br.root ∧ q = dir ++ [whName name]) := by
  rcases hwh with ⟨rfl, hne⟩ | ⟨x, rfl, heq, hroot, hpath⟩
  · simp only [Option.any_none, hne, false_and, decide_false]
  · simp only [Option.any_some, ← heq, true_and, hroot, hpath]

theorem Mount.WhOf.isSome {br : Branch} {wh : Option HDentry} (hwh : m₁.WhOf dir name b br wh) :
    wh.isSome = decide (b = (m₁.di (dir ++ [name])).bwh) := by
  rcases hwh with ⟨rfl, hne⟩ | ⟨x, rfl, heq, -, -⟩
  · simp only [Option.isSome_none, hne, decide_false]
  · simp only [Option.isSome_some, ← heq, decide_true]

/-- The entry and the removal of its whiteout make an addition. -/
theorem Mount.MadeAt.adds {br : Branch} {i : HInode} {wh : Option HDentry} (hname : hasWhPfx name = false)
    (hmade : Mount.MadeAt dir name b br.root i m₁ m₂) (hwh : m₁.WhOf dir name b br wh) {opq : Bool} {m₃ : Mount}
    (hoff : Mount.Off (dir ++ [name]) m₂ m₃)
    (hmark : ∀ x q, ¬ (x = br.root ∧ q = dir ++ [name] ++ [diropqName]) → m₃.w.node x q = m₂.w.node x q)
    (hopq : (m₃.w.node br.root (dir ++ [name] ++ [diropqName])).isSome = opq)
    (hoff' : Mount.Off (dir ++ [name]) m₃ m')
    (hnode : ∀ r q, m'.w.node r q = if wh.any (fun x => r = x.root ∧ q = x.path) then none else m₃.w.node r q) :
    Mount.Adds dir name br.root i (decide (b = (m₁.di (dir ++ [name])).bwh)) opq m₁ m' := by
  have hwne : dir ++ [whName name] ≠ dir ++ [name] := (concat_ne_whName hname name).symm
  have hone : dir ++ [name] ++ [diropqName] ≠ dir ++ [name] := by simp
  have howne : dir ++ [whName name] ≠ dir ++ [name] ++ [diropqName] :=
    concat_append_ne (ne_whName_of_not_hasWhPfx hname).symm _
  simp only [hwh.any, decide_eq_true_eq] at hnode
  refine ⟨hmade.off.trans (hoff.trans hoff'), fun x q hout => ?_, hmade.was, ?_, ?_, ?_⟩
  · have h1 : ¬ (b = (m₁.di (dir ++ [name])).bwh ∧ x = br.root ∧ q = dir ++ [whName name]) := fun h =>
      hout ⟨h.2.1, .inr (.inl h.2.2)⟩
    have h2 : ¬ (x = br.root ∧ q = dir ++ [name] ++ [diropqName]) := fun h => hout ⟨h.1, .inr (.inr h.2)⟩
    have h3 : ¬ (x = br.root ∧ q = dir ++ [name]) := fun h => hout ⟨h.1, .inl h.2⟩
    rw [hnode, if_neg h1, hmark x q h2, hmade.sets x q, if_neg h3]
  · rw [hnode, if_neg fun h => hwne h.2.2.symm, hmark _ _ fun h => hone h.2.symm, hmade.entry]
  · have hold : m₃.w.node br.root (dir ++ [whName name]) = m₁.w.node br.root (dir ++ [whName name]) := by
      rw [hmark _ _ fun h => howne h.2, hmade.sets _ _, if_neg fun h => hwne h.2]
    rw [hnode, hold]
    simp only [and_true, decide_eq_true_eq]
  · rw [hnode, if_neg fun h => howne h.2.2.symm]
    exact hopq

/-- Nothing lies below a name that is not there. -/
theorem Mount.MadeAt.no_mark {r : Nat} {i : HInode} (hmade : Mount.MadeAt dir name b r i m₁ m₂) (x : Name) :
    m₂.w.node r (dir ++ [name] ++ [x]) = none := by
  have hne : ¬ (r = r ∧ dir ++ [name] ++ [x] = dir ++ [name]) := fun h => by simp at h
  rw [hmade.sets r, if_neg hne]
  exact (m₁.w.fs r).wf.closed.node_append_none hmade.was [x]

/-- `add_simple` adds a file, or the files stay as they are. -/
theorem wp_addSimple (hknown : m.EntryKnown sb dir name) (habsent : m.Absent sb dir name)
    (hname : hasWhPfx name = false) (mode : FType) (data : Nat) :
    wp (addSimple sb mode data (dir ++ [name])) (fun _ m' => Mount.Added sb m dir name (fun _ => false) mode data m')
      (fun _ m' => Mount.NotDone sb m dir name m') m := by
  refine wp_adding (wp_bind.mpr ((wp_lockHdirLkupWh hknown habsent).mono ?_ fun _ _ h => h.1.notDone))
  rintro wh m₁ ⟨b, br, hr, hwh⟩
  obtain ⟨h, hslot, hroot, hpath⟩ := hr.slot
  refine wp_bind.mpr (wp_dinfo.mpr ?_)
  rw [hr.start]
  refine wp_bind.mpr (wp_hDptrI (fun x hx => ?_) fun _ => hr.notDone (.of_failed rfl))
  obtain rfl := Option.some.inj (hslot.symm.trans hx)
  refine wp_makeEntry hslot hroot hpath (fun m₂ i hmode hdata hmade => ?_) fun e w hw => hr.notDone (.of_failed hw)
  obtain ⟨hwhpath, hwhbr⟩ := hwh.epilog hr.branch hmade
  refine wp_bind.mpr (wp_attempt.mpr ((wp_addEpilog hwhpath hwhbr).mono ?_ fun err m₃ hgiven => ?_))
  · rintro _ m' ⟨hoff, hnode⟩
    refine wp_pure.mpr ⟨b, br, m₁, i, hr, hmode, hdata, ?_⟩
    exact hmade.adds hname hwh .refl (fun _ _ _ => rfl) (by rw [hmade.no_mark]; rfl) hoff hnode
  · exact (wp_takenBack hmade hgiven.1 (wp_removeFile hroot hpath)).mono (fun _ _ => False.elim) fun _ _ hg =>
      hr.notDone hg

-- ---------------------------------------------------------------------------
-- mkdir
-- ---------------------------------------------------------------------------

/-- The mark of an opaque directory is a file inside of it. -/
theorem wp_createDiropq {br : Branch} {h : HDentry} (hbr : sb.stobr b = some br)
    (hslot : (m.di (dir ++ [name])).hDptrI b = some h) (hpath : h.path = dir ++ [name]) :
    wp (createDiropq sb (dir ++ [name]) b)
      (fun _ m' => Mount.Off (dir ++ [name]) m m' ∧ m.fails ≤ m'.fails ∧
        (∃ j, m.w.Sets m'.w h.root (dir ++ [name] ++ [diropqName]) (some j)) ∧
        (m'.di (dir ++ [name])).bwh = (m.di (dir ++ [name])).bwh ∧
        ∀ c, (m'.di (dir ++ [name])).hDptrI c = (m.di (dir ++ [name])).hDptrI c)
      (fun _ m' => Mount.GivenUp dir name m m') m := by
  refine wp_bind.mpr (wp_hDptrI (fun x hx => ?_) fun _ => .of_failed rfl)
  obtain rfl := Option.some.inj (hslot.symm.trans hx)
  refine wp_bind.mpr (wp_lkupOne (fun w hw => ?_) fun e w hw => .of_failed hw)
  refine wp_bind.mpr (wp_linkOrCreateWh hbr (fun w' k j hk _ _ hsets => wp_onDinfo.mpr ?_) fun e w' k hk hw' => ?_)
  · refine ⟨(Mount.Off.refl.world w' k).setDi _, hk, ⟨j, fun r q => ?_⟩, ?_, fun c => ?_⟩
    · rw [Mount.setDi_w, Mount.withWorld_w, hsets r q, World.node_congr hw, hpath]
    · rw [Mount.setDi_di, Function.update_self]
      rfl
    · rw [Mount.setDi_di, Function.update_self]
      rfl
  · exact ⟨Mount.Off.refl.world w' k, hk, .inl (.of_node (World.node_congr (hw'.trans hw)))⟩

theorem wp_removeDiropq {h : HDentry} (hslot : (m.di (dir ++ [name])).hDptrI b = some h)
    (hpath : h.path = dir ++ [name]) :
    wp (removeDiropq (dir ++ [name]) b)
      (fun _ m' => Mount.Off (dir ++ [name]) m m' ∧ m'.fails = m.fails ∧
        m.w.Sets m'.w h.root (dir ++ [name] ++ [diropqName]) none)
      (fun _ m' => Mount.Off (dir ++ [name]) m m' ∧ m.fails < m'.fails) m := by
  have hoff : ∀ w k, Mount.Off (dir ++ [name]) m (m.withWorld w k) := fun w k => Mount.Off.refl.world w k
  refine wp_bind.mpr (wp_hDptrI (fun x hx => ?_) fun _ => ⟨hoff _ _, Nat.lt_succ_self _⟩)
  obtain rfl := Option.some.inj (hslot.symm.trans hx)
  refine wp_bind.mpr (wp_lkupOne (fun w hw => ?_) fun e w hw => ⟨hoff w _, Nat.lt_succ_self _⟩)
  refine wp_bind.mpr (wp_vfsubUnlink (fun w' j _ _ hsets => wp_onDinfo.mpr ⟨(hoff w' m.fails).setDi _, rfl, fun r q => ?_⟩)
    fun e w' hw' => ⟨hoff w' _, Nat.lt_succ_self _⟩)
  rw [Mount.setDi_w, hsets r q, World.node_congr hw, hpath]

/-- `aufs_mkdir` adds a directory, or the files stay as they are. -/
theorem wp_aufsMkdir (hknown : m.EntryKnown sb dir name) (habsent : m.Absent sb dir name)
    (hname : hasWhPfx name = false) (mode : Nat) :
    wp (aufsMkdir sb (dir ++ [name]) mode)
      (fun _ m' => Mount.Added sb m dir name (fun wh => wh || sb.alwaysDiropq) .dir mode m')
      (fun _ m' => Mount.NotDone sb m dir name m') m := by
  refine wp_adding (wp_bind.mpr ((wp_lockHdirLkupWh hknown habsent).mono ?_ fun _ _ h => h.1.notDone))
  rintro wh m₁ ⟨b, br, hr, hwh⟩
  obtain ⟨h, hslot, hroot, hpath⟩ := hr.slot
  refine wp_bind.mpr (wp_dinfo.mpr ?_)
  rw [hr.start]
  refine wp_bind.mpr (wp_hDptrI (fun x hx => ?_) fun _ => hr.notDone (.of_failed rfl))
  obtain rfl := Option.some.inj (hslot.symm.trans hx)
  refine wp_makeEntry hslot hroot hpath (fun m₂ i hmode hdata hmade => ?_) fun e w hw => hr.notDone (.of_failed hw)
  obtain ⟨hwhpath, hwhbr⟩ := hwh.epilog hr.branch hmade
  have hrange := Dinfo.range_of_hDptrI hslot
  have hslot₂ : (m₂.di (dir ++ [name])).hDptrI b = some ⟨br.root, dir ++ [name], some i⟩ := by
    rw [hmade.di, Function.update_self, Dinfo.hDptrI_of_le (by exact hrange.1) (by exact hrange.2)]
    exact Function.update_self ..
  -- rmdir takes back what was made
  have hback : ∀ {err m₃}, Mount.GivenUp dir name m₂ m₃ →
      wp (takenBack err (dir ++ [name]) b (vfsubRmdir h))
        (fun _ m' => Mount.Added sb m dir name (fun wh => wh || sb.alwaysDiropq) .dir mode m')
        (fun _ m' => Mount.NotDone sb m dir name m') m₃ := fun hgiven =>
    (wp_takenBack hmade hgiven (wp_removeDir hroot hpath)).mono (fun _ _ => False.elim) fun _ _ hg => hr.notDone hg
  rw [hwh.isSome]
  generalize hopq : (decide (b = (m₁.di (dir ++ [name])).bwh) || sb.alwaysDiropq) = opq
  cases opq with
  | false =>
    refine wp_bind.mpr (wp_attempt.mpr (wp_pure.mpr (wp_bind.mpr (wp_attempt.mpr ?_))))
    refine (wp_addEpilog hwhpath hwhbr).mono ?_ fun err m₃ hgiven => ?_
    · rintro _ m' ⟨hoff, hnode⟩
      refine wp_pure.mpr ⟨b, br, m₁, i, hr, hmode, hdata, ?_⟩
      exact hmade.adds hname hwh .refl (fun _ _ _ => rfl) (by rw [hmade.no_mark, hopq]; rfl) hoff hnode
    · exact wp_bind.mpr (wp_attempt.mpr (wp_pure.mpr (hback hgiven.1)))
  | true =>
    refine wp_bind.mpr (wp_attempt.mpr ((wp_createDiropq hr.branch hslot₂ rfl).mono ?_ fun _ _ hgiven => hback hgiven))
    rintro _ m₃ ⟨hoff₃, hfails₃, ⟨j, hsets₃⟩, hbwh₃, hslots₃⟩
    have hmark₃ : ∀ x q, ¬ (x = br.root ∧ q = dir ++ [name] ++ [diropqName]) → m₃.w.node x q = m₂.w.node x q :=
      fun x q hne => by rw [hsets₃ x q, if_neg hne]
    refine wp_bind.mpr (wp_attempt.mpr ?_)
    have hwhbr₃ : ∀ x ∈ wh, ∃ br, sb.stobr (m₃.di (dir ++ [name])).bwh = some br := by
      rw [hbwh₃]
      exact hwhbr
    refine (wp_addEpilog hwhpath hwhbr₃).mono ?_ fun err m₄ hgiven => ?_
    · rintro _ m' ⟨hoff, hnode⟩
      refine wp_pure.mpr ⟨b, br, m₁, i, hr, hmode, hdata, ?_⟩
      refine hmade.adds hname hwh hoff₃ hmark₃ ?_ hoff hnode
      rw [hsets₃ _ _, if_pos ⟨rfl, rfl⟩, hopq]
      rfl
    · obtain ⟨hgiven, hslots₄⟩ := hgiven
      have hslot₄ : (m₄.di (dir ++ [name])).hDptrI b = some ⟨br.root, dir ++ [name], some i⟩ := by
        rw [hslots₄, hslots₃, hslot₂]
      have hfails₄ := hgiven.fails
      refine wp_bind.mpr (wp_attempt.mpr ((wp_removeDiropq hslot₄ rfl).mono ?_ ?_))
      · rintro _ m₅ ⟨hoff₅, hfails₅, hsets₅⟩
        refine hback ⟨hoff₃.trans (hgiven.off.trans hoff₅), by omega, ?_⟩
        refine hgiven.files.imp (fun hrest => ⟨fun r q hq => ?_, fun r => ?_⟩) fun hle => by omega
        · rw [hsets₅ r q]
          split
          · rename_i hx
            rw [hx.1, hx.2, hmade.no_mark]
          · rename_i hx
            rw [hrest.node r q hq, hmark₃ r q hx]
        · have hne : ¬ (r = br.root ∧ dir ++ [whName name] = dir ++ [name] ++ [diropqName]) := fun h =>
            concat_append_ne (ne_whName_of_not_hasWhPfx hname).symm _ h.2
          rw [hsets₅ r, if_neg hne, hrest.wh r, hmark₃ r _ hne]
      · rintro _ m₅ ⟨hoff₅, hfails₅⟩
        exact hback ⟨hoff₃.trans (hgiven.off.trans hoff₅), by omega, .inr (by omega)⟩

-- ---------------------------------------------------------------------------
-- What is found
-- ---------------------------------------------------------------------------

theorem Mount.Off.at_dir {m m' : Mount} (h : Mount.Off (dir ++ [name]) m m') : m'.di dir = m.di dir :=
  h.di dir (ne_concat_of_within (List.prefix_refl dir))

section Adds

variable {br : Branch} {i : HInode} {wh opq : Bool}

/-- The parents are not touched by the entry. -/
theorem Mount.Adds.dirs (ha : Mount.Adds dir name br.root i wh opq m₁ m') (hm : m₁.Dirs sb dir) :
    m'.Dirs sb dir := by
  refine hm.congr (fun q hq => ⟨ha.off.di q (ne_concat_of_within hq), ha.off.hi q (ne_concat_of_within hq)⟩)
    fun r q hq _ => ha.others r q ?_
  rintro ⟨-, rfl | rfl | rfl⟩
  · exact not_concat_within dir name hq
  · exact not_concat_within dir _ hq
  · rw [List.append_assoc] at hq
    exact not_append_within (by simp) hq

/-- Other branches have what they had. -/
theorem Mount.Adds.node_of_ne (ha : Mount.Adds dir name br.root i wh opq m₁ m') {r : Nat} (hr : r ≠ br.root)
    (q : Path) : m'.w.node r q = m₁.w.node r q := ha.others r q fun h => hr h.1

/-- The new entry is found on its branch, and it is all that is found. -/
theorem Mount.Adds.found (hroots : sb.DistinctRoots) (hr : Mount.Ready sb m dir name b br m₁)
    (ha : Mount.Adds dir name br.root i (decide (b = (m₁.di (dir ++ [name])).bwh)) opq m₁ m')
    (hopq : i.isDir → b = (m₁.di (dir ++ [name])).bwh → opq = true) :
    (m'.found sb dir name).slots = [(b, ⟨br.root, dir ++ [name], some i⟩)] := by
  have hm₁ := hr.keeps.after
  have hm' := ha.dirs hm₁
  obtain ⟨hp, hslot, hroot, -⟩ := hr.parent
  have hslot' : (m'.di dir).hdentry b = some hp := by
    rw [ha.off.at_dir]
    exact hslot
  have htail : (m'.di dir).dbtaildir = (m₁.di dir).dbtaildir := by rw [ha.off.at_dir]
  have hmem : b ∈ m'.asked dir := (hm'.mem_asked hslot').mpr (by rw [htail]; exact hr.reached)
  -- a branch other than that of the entry has the cell that it had
  have hcell : ∀ c, c ≠ b → m'.cell sb dir name c = m₁.cell sb dir name c := by
    intro c hc
    cases hx : (m₁.di dir).hdentry c with
    | none => rw [hm₁.cell_none hx, hm'.cell_none (by rw [ha.off.at_dir]; exact hx)]
    | some x =>
      have hxr : x.root ≠ br.root := by
        obtain ⟨brc, _, hbrc, -, -, rfl⟩ := hm₁.self.slots c x hx
        exact fun heq => hc (hroots c b brc br hbrc hr.branch heq)
      rw [hm₁.cell_some hx, hm'.cell_some (by rw [ha.off.at_dir]; exact hx)]
      simp only [ha.node_of_ne hxr]
  have habove : ∀ c ∈ m'.asked dir, c < b → ¬ Scan.full (m'.cell sb dir name c) := fun c _ hc => by
    rw [hcell c hc.ne]
    exact hr.above c hc
  have hwh : (m₁.di (dir ++ [name])).bwh ≠ -1 → b ≤ (m₁.di (dir ++ [name])).bwh := fun hne => by
    by_contra hlt
    exact hr.above _ (by omega) (.inl (hr.absent.wh hne).2)
  have hmask : (m'.cell sb dir name b).mask = false := by
    rw [hm'.cell_some hslot', hroot]
    dsimp only
    rw [ha.gone]
    by_cases heq : b = (m₁.di (dir ++ [name])).bwh
    · rw [if_pos (decide_eq_true heq), Option.isSome_none, Bool.and_false]
    · have hclear := hr.absent.clear b hp hslot hr.reached (by have := hwh; omega)
      have hno := ((hm₁.not_full_iff hslot).mp hclear).2
      rw [if_neg (by simpa using heq)]
      cases hable : sb.sbrIsWhable b with
      | false => rfl
      | true =>
        rw [hroot] at hno
        rw [hno hable]
        rfl
  have hentry : (m'.cell sb dir name b).entry = some ⟨br.root, dir ++ [name], some i⟩ := by
    rw [hm'.cell_some hslot', hroot]
    dsimp only
    rw [ha.entry]
    rfl
  -- nothing is added below
  have hbelow : (m'.cell sb dir name b).opq = false → i.isDir →
      (Scan.dirs HDentry.isDir (m'.cell sb dir name) ((m'.asked dir).filter fun c => b < c)).slots = [] := by
    intro hno hdir
    have hne : b ≠ (m₁.di (dir ++ [name])).bwh := by
      intro heq
      have hable : sb.sbrIsWhable b = true := by
        have hm := (hr.absent.wh (heq ▸ by have := (SuperBlock.range_of_stobr hr.branch).1; omega)).2
        rw [← heq, hm₁.cell_some hslot, Bool.and_eq_true] at hm
        exact hm.1
      rw [hm'.cell_some hslot', hroot] at hno
      dsimp only at hno
      rw [hable, ha.mark, hopq hdir heq] at hno
      cases hno
    refine Scan.dirs_none ((m'.asked_sorted dir).filter _) fun c hc hsome => ?_
    obtain ⟨hcmem, hbc⟩ := List.mem_filter.mp hc
    have hbc : b < c := of_decide_eq_true hbc
    rw [hcell c hbc.ne'] at hsome
    obtain ⟨x, hx⟩ := hm₁.slot_of_full (.inr hsome)
    have hcle : c ≤ (m₁.di dir).dbtaildir := by
      rw [← htail]
      exact (hm'.mem_asked (by rw [ha.off.at_dir]; exact hx)).mp hcmem
    have hcover : ¬ ((m₁.di (dir ++ [name])).bwh = -1 ∨ c < (m₁.di (dir ++ [name])).bwh) := fun h =>
      hr.absent.clear c x hx hcle h (.inr hsome)
    have hwhne : (m₁.di (dir ++ [name])).bwh ≠ -1 := fun h => hcover (.inl h)
    have hlt : b < (m₁.di (dir ++ [name])).bwh := lt_of_le_of_ne (hwh hwhne) hne
    obtain ⟨hwmem, hwmask⟩ := hr.absent.wh hwhne
    refine ⟨(m₁.di (dir ++ [name])).bwh, List.mem_filter.mpr ⟨?_, decide_eq_true hlt⟩, by omega, ?_⟩
    · rw [Mount.asked, ha.off.at_dir]
      exact hwmem
    · rw [hcell _ hlt.ne']
      exact hwmask
  rw [Mount.found_eq, Scan.search_first (m'.asked_sorted dir) hmem habove hmask hentry]
  have hisdir : HDentry.isDir ⟨br.root, dir ++ [name], some i⟩ = i.isDir := rfl
  rw [hisdir]
  split
  · rename_i hdir
    split
    · rfl
    · rename_i hno
      rw [Scan.cons_slots, hbelow (Bool.not_eq_true _ ▸ hno) hdir]
  · rfl

end Adds

end Aufs
