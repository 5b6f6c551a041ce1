-- SUMMARY: Copying a file up, under its own name or another one: one new file with the same type and content, or nothing has changed.
import Aufs.FileView

/-!
# A file that is copied up

`cpup_single` makes a file in a slot that has none, with a new inode, and copies the type, the
content and the attributes. `cpup_simple` does it in the slot of the same name on a branch
above. When a step fails what was made is removed.
-/

namespace Aufs

open Prog Op Overlay

variable {m m' : Mount} {sb : SuperBlock} {p dir : Path} {name : Name} {b s : Int} {h t : HDentry} {i j : HInode}

-- ---------------------------------------------------------------------------
-- New inodes
-- ---------------------------------------------------------------------------

/-- No other file of the branch has the inode of the one at `q`. -/
def World.Single (w : World) (r : Nat) (q : Path) : Prop :=
  ∀ x k j, x ≠ q → w.node r x = some k → w.node r q = some j → k.ino ≠ j.ino

theorem World.Single.congr {w w' : World} {r : Nat} {q : Path} (h : w.Single r q) (hnode : w'.node = w.node) :
    w'.Single r q := by
  rw [World.Single, hnode]
  exact h

/-- A file that is made has a new inode. -/
theorem LowerFs.make_new {f f' : LowerFs} {q x : Path} {mode : FType} {data : Nat} {k j : HInode}
    (h : f.make q mode data = .ok f') (hx : x ≠ q) (hk : f'.node x = some k) (hj : f'.node q = some j) : k.ino ≠ j.ino := by
  obtain ⟨-, -, -, hnode⟩ := LowerFs.make_ok h
  rw [hnode, if_pos rfl] at hj
  rw [hnode, if_neg hx] at hk
  obtain rfl := Option.some.inj hj
  exact (f.wf.fresh _ ((Ents.mem_of_node_nodup f.wf.nodup).mp hk)).ne

theorem wp_vfsubMake_new {mode : FType} {data : Nat} :
    wp (vfsubMake h mode data) (fun _ m' => m'.w.Single h.root h.path) (fun _ _ => True) m := by
  refine wp_onWorld (fun _ w hc => ?_) fun _ _ _ => trivial
  obtain ⟨f, hf, hw⟩ := call_ok hc
  have hnode : ∀ x, w.node h.root x = f.node x := fun x => by
    rw [World.node, hw, Function.update_self]
  intro x k j hx hk hj
  rw [hnode] at hk hj
  exact LowerFs.make_new hf hx hk hj

theorem wp_cpupEntry_new (hdst : (m.di p).hDptrI b = some t) :
    wp (cpupEntry p b s) (fun _ m' => m'.w.Single t.root t.path ∧ m'.di = m.di) (fun _ _ => True) m := by
  have hmake : ∀ {m₁ : Mount} {mode data}, m₁.di = m.di →
      wp (vfsubMake t mode data) (fun _ m' => m'.w.Single t.root t.path ∧ m'.di = m.di) (fun _ _ => True) m₁ := by
    intro m₁ mode data hdi
    refine (wp_vfsubMake_new.and (wp_vfsubMake (Q := fun _ m' => m'.di = m.di) (E := fun _ _ => True) ?_ ?_)).mono
      (fun _ _ h => h) fun _ _ _ => trivial
    · exact fun _ _ _ _ _ _ _ _ => hdi
    · exact fun _ _ _ => trivial
  refine wp_bind.mpr (wp_hDptrI (fun x _ => ?_) fun _ => trivial)
  refine wp_bind.mpr (wp_inodeOf (fun i _ => ?_) fun _ => trivial)
  refine wp_bind.mpr (wp_hDptrI (fun y hy => ?_) fun _ => trivial)
  obtain rfl := Option.some.inj (hdst.symm.trans hy)
  cases i.mode
  case reg =>
    refine wp_bind.mpr ((hmake rfl).mono (fun _ m₁ hnew => ?_) fun _ _ _ => trivial)
    refine wp_bind.mpr (wp_attempt.mpr (wp_mayFail (fun w hw => wp_pure.mpr ?_) fun e w _ => ?_))
    · exact ⟨hnew.1.congr (World.node_congr hw), hnew.2⟩
    · exact wp_bind.mpr (wp_attempt.mpr (wp_vfsubUnlink (fun _ _ _ _ _ => trivial) fun _ _ _ => trivial))
  case lnk =>
    refine wp_bind.mpr (wp_kmalloc (fun w _ => ?_) fun _ _ _ => trivial)
    exact wp_bind.mpr (wp_mayFail (fun w _ => hmake rfl) fun _ _ _ => trivial)
  all_goals exact hmake rfl

theorem wp_cpupNew_new (hdst : (m.di p).hDptrI b = some t) :
    wp (cpupNew p b s) (fun _ m' => m'.w.Single t.root t.path) (fun _ _ => True) m := by
  refine wp_bind.mpr ((wp_cpupEntry_new hdst).mono (fun _ m₁ hnew => ?_) fun _ _ _ => trivial)
  refine wp_bind.mpr (wp_update.mpr (wp_bind.mpr (wp_hDptrI (fun x _ => ?_) fun _ => trivial)))
  refine wp_bind.mpr (wp_inodeOf (fun i _ => ?_) fun _ => trivial)
  refine wp_bind.mpr (wp_attempt.mpr (wp_mayFail (fun w hw => wp_update.mpr ?_) fun e w _ => ?_))
  · exact hnew.1.congr (World.node_congr hw)
  · exact wp_bind.mpr (wp_attempt.mpr (wp_ite.mpr ⟨fun _ => wp_vfsubRmdir (fun _ _ _ _ _ _ => trivial) fun _ _ _ => trivial,
      fun _ => wp_vfsubUnlink (fun _ _ _ _ _ => trivial) fun _ _ _ => trivial⟩))

-- ---------------------------------------------------------------------------
-- cpup_single
-- ---------------------------------------------------------------------------

/-- A copy `j` of the file `i` was made at the hidden path of `t`. -/
structure Mount.CopiedTo (t : HDentry) (i : HInode) (m : Mount) (j : HInode) (m' : Mount) : Prop where
  mode : j.mode = i.mode
  data : j.data = i.data
  was : m.w.node t.root t.path = none
  sets : m.w.Sets m'.w t.root t.path (some j)
  single : m'.w.Single t.root t.path
  fails : m.fails ≤ m'.fails

/-- `cpup_single` of a file that has no inode on the branch. -/
theorem wp_cpupSingle_file (hsrc : (m.di p).hDptrI s = some h) (hi : h.inode = some i) (hdst : (m.di p).hDptrI b = some t)
    (hno : m.hi p b = none) :
    wp (cpupSingle sb p b s)
      (fun _ m' => ∃ j, Mount.CopiedTo t i m j m' ∧ Mount.Off p m m' ∧
        m'.di p = (m.di p).setHDptr b (some (t.filled j)))
      (fun _ m' => Mount.Off p m m' ∧ m.fails < m'.fails ∧ m.Kept m' ∧ ∃ x, m'.di p = (m.di p).setHDptr b x) m := by
  refine wp_bind.mpr (wp_state.mpr ?_)
  rw [hno]
  have hrun : wp (cpupNew p b s)
      (fun _ m' => ∃ j, j.mode = i.mode ∧ j.data = i.data ∧ m.w.node t.root t.path = none ∧
        m.w.Sets m'.w t.root t.path (some j) ∧ m.fails ≤ m'.fails ∧ Mount.Off p m m' ∧
        m'.di p = (m.di p).setHDptr b (some (t.filled j)))
      (fun _ m' => Mount.Off p m m' ∧ m.fails < m'.fails ∧ m.Kept m' ∧ ∃ x, m'.di p = (m.di p).setHDptr b x) m := by
    refine wp_cpupNew hsrc hi hdst (fun w k j hk hmode hdata hwas hsets => ?_) fun e m' hk hkept hdi hhi => ?_
    · refine ⟨j, hmode, hdata, hwas, hsets, hk, ⟨fun q hq => ?_, fun q hq => ?_⟩, ?_⟩
      · exact Function.update_of_ne hq ..
      · exact Function.update_of_ne hq ..
      · exact Function.update_self ..
    · obtain ⟨x, hdi⟩ := hdi
      refine ⟨⟨fun q hq => ?_, fun q _ => by rw [hhi]⟩, hk, hkept, x, ?_⟩
      · rw [hdi, Mount.setDi_di, Function.update_of_ne hq]
      · rw [hdi, Mount.setDi_di, Function.update_self]
  refine (hrun.and (wp_cpupNew_new hdst)).mono (fun _ m' hm' => ?_) fun _ _ hm' => hm'.1
  obtain ⟨⟨j, hmode, hdata, hwas, hsets, hk, hoff, hdi⟩, hsingle⟩ := hm'
  exact ⟨j, ⟨hmode, hdata, hwas, hsets, hsingle, hk⟩, hoff, hdi⟩

-- ---------------------------------------------------------------------------
-- cpup_simple
-- ---------------------------------------------------------------------------

/-- The dentry of a file that is found on the branch `s`, with no inode on the branch `b` above. -/
structure Mount.FileAt (m : Mount) (p : Path) (b s : Int) (h : HDentry) (i : HInode) : Prop
    extends (m.di p).Ends where
  first : (m.di p).bstart = s
  above : b < s
  slot : (m.di p).hdentry s = some h
  inode : h.inode = some i
  free : m.hi p b = none

/-- `cpup_simple` of a file: the branch has a copy in the first slot, or nothing has changed. -/
theorem wp_cpupSimple_file {r : Nat} (hfile : m.FileAt (dir ++ [name]) b s h i) (hb : 0 ≤ b)
    (hparent : ∀ x, (m.di dir).hDptrI b = some x → x.root = r ∧ x.path = dir) :
    wp (cpupSimple sb (dir ++ [name]) b)
      (fun _ m' => ∃ j, Mount.CopiedTo ⟨r, dir ++ [name], none⟩ i m j m' ∧ Mount.Off (dir ++ [name]) m m' ∧
        (m'.di (dir ++ [name])).bstart = b ∧ (m'.di (dir ++ [name])).hDptrI b = some ⟨r, dir ++ [name], some j⟩)
      (fun _ m' => Mount.Off (dir ++ [name]) m m' ∧ m.fails < m'.fails ∧ m.Kept m') m := by
  obtain ⟨hends, hfirst, hlt, hslot, hi, hfree⟩ := hfile
  have hstart := hends.nonneg
  refine wp_bind.mpr (wp_dinfo.mpr (wp_bind.mpr (wp_lkupNeg (fun x w hx hnone hw => ?_) fun e w hw => ?_)))
  rotate_left
  · exact ⟨Mount.Off.refl.world w _, Nat.lt_succ_self _, .of_fs hw⟩
  have hsource : cpupSrc (m.di (dir ++ [name])) b = s := (hends.cpupSrc_eq (hfirst ▸ hlt)).trans hfirst
  rw [hsource]
  rw [dParent_append] at hx
  obtain ⟨rfl, hpath⟩ := hparent x hx
  rw [dName_append]
  -- the dentry with its new first slot
  generalize hd : ({ m.di (dir ++ [name]) with
    bstart := if b < (m.di (dir ++ [name])).bstart then b else (m.di (dir ++ [name])).bstart
    bend := if (m.di (dir ++ [name])).bend < b then b else (m.di (dir ++ [name])).bend
    hdentry := Function.update (m.di (dir ++ [name])).hdentry b (some (x.negative name)) } : Dinfo) = d
  have hdstart : d.bstart = b := by
    rw [← hd]
    exact if_pos (hfirst ▸ hlt)
  generalize hm₁ : ({ m with w } : Mount).setDi (dir ++ [name]) d = m₁
  have hself : m₁.di (dir ++ [name]) = d := by
    rw [← hm₁, Mount.setDi_di, Function.update_self]
  have hoff : Mount.Off (dir ++ [name]) m m₁ := by
    rw [← hm₁]
    exact (Mount.Off.refl.world w m.fails).setDi d
  have hnode : m₁.w.node = m.w.node := by
    rw [← hm₁]
    exact World.node_congr hw
  have hfails : m₁.fails = m.fails := by rw [← hm₁]; rfl
  have hdst : (m₁.di (dir ++ [name])).hDptrI b = some (x.negative name) := by
    rw [hself, Dinfo.hDptrI_of_le (hdstart.symm ▸ hb) hdstart.le, ← hd]
    exact Function.update_self ..
  have hsrc : (m₁.di (dir ++ [name])).hDptrI s = some h := by
    rw [hself, Dinfo.hDptrI_of_le (hdstart.symm ▸ hb) (hdstart.trans_le hlt.le), ← hd, ← hslot]
    exact Function.update_of_ne hlt.ne' ..
  have hfree₁ : m₁.hi (dir ++ [name]) b = none := by
    rw [← hm₁]
    exact hfree
  have htarget : (x.negative name).path = dir ++ [name] := congrArg (· ++ [name]) hpath
  refine wp_bind.mpr (wp_attempt.mpr ((wp_cpupSingle_file hsrc hi hdst hfree₁).mono ?_ fun e m' hfail => ?_))
  · rintro _ m' ⟨j, hcopied, hoff', hdi⟩
    rw [hself] at hdi
    refine wp_pure.mpr ⟨j, ⟨hcopied.mode, hcopied.data, ?_, fun q y => ?_, ?_, ?_⟩, hoff.trans hoff', ?_, ?_⟩
    · rw [← htarget, ← hnode]
      exact hcopied.was
    · rw [hcopied.sets q y, hnode, htarget]
      rfl
    · have hsingle := hcopied.single
      rwa [htarget] at hsingle
    · rw [← hfails]
      exact hcopied.fails
    · rw [hdi]
      exact hdstart
    · rw [hdi, Dinfo.hDptrI_of_le (by exact hdstart.symm ▸ hb) (by exact hdstart.le)]
      have hfilled : (x.negative name).filled j = ⟨x.root, dir ++ [name], some j⟩ := by
        rw [HDentry.filled, htarget]
        rfl
      rw [← hfilled]
      exact Function.update_self ..
  · obtain ⟨hoff', hlt', hkept, -⟩ := hfail
    refine wp_bind.mpr (wp_onDinfo.mpr (wp_fail.mpr ⟨(hoff.trans hoff').setDi _, ?_, ?_⟩))
    · rw [← hfails]
      exact hlt'
    · refine hkept.imp (fun hsame => ?_) fun hle => ?_
      · exact hsame.trans hnode
      · rw [← hfails]
        exact hle

end Aufs
