-- SUMMARY: What a copy-up leaves: the new entry is a copy of the old one, or nothing has changed.
import Aufs.Cpup
import Aufs.Calls

/-!
# The effect of a copy-up

A copy-up that succeeds adds one entry, of the type and with the content of its
source. One that fails leaves the files as they were, if it could take back what
it had made. Copying up the parents of a dentry adds empty directories.
-/

namespace Aufs

open Prog Op

variable {m : Mount} {sb : SuperBlock} {p : Path}

/-- The mount `m'` has the files of `m`, or more than one step failed on the way. -/
def Mount.Kept (m m' : Mount) : Prop := m'.w.node = m.w.node ∨ m.fails + 2 ≤ m'.fails

theorem World.Sets.undo {w w₁ w₂ : World} {root : Nat} {p : Path} {v : Option HInode}
    (h : w.Sets w₁ root p v) (h' : w₁.Sets w₂ root p none) (hnone : w.node root p = none) :
    w₂.node = w.node := by
  funext r q
  rw [h' r q]
  split
  · rename_i hx
    rw [hx.1, hx.2, hnone]
  · rename_i hx
    rw [h r q, if_neg hx]

theorem Mount.Kept.of_fs {w : World} {k : Nat} (h : w.fs = m.w.fs) : m.Kept (m.withWorld w k) :=
  .inl (World.node_congr h)

@[simp] theorem Mount.withWorld_withWorld (m : Mount) (w w' : World) (k k' : Nat) :
    (m.withWorld w k).withWorld w' k' = m.withWorld w' k' := rfl

theorem Mount.failed_eq (m : Mount) (w : World) : m.failed w = m.withWorld w (m.fails + 1) := rfl

/-- `cpup_entry` makes a copy of the source. -/
theorem wp_cpupEntry {bdst bsrc : Int} {hs hd : HDentry} {i : HInode} {Q : Unit → Mount → Prop}
    {E : Errno → Mount → Prop}
    (hsrc : (m.di p).hDptrI bsrc = some hs) (hi : hs.inode = some i) (hdst : (m.di p).hDptrI bdst = some hd)
    (hok : ∀ w k j, m.fails ≤ k → j.mode = i.mode → j.data = i.data → m.w.node hd.root hd.path = none →
      m.w.Sets w hd.root hd.path (some j) → Q () (m.withWorld w k))
    (herr : ∀ e w k, m.fails < k → m.Kept (m.withWorld w k) → E e (m.withWorld w k)) :
    wp (cpupEntry p bdst bsrc) Q E m := by
  have hmake : ∀ w k, w.fs = m.w.fs → m.fails ≤ k → ∀ mode, mode = i.mode →
      wp (vfsubMake hd mode i.data) Q E (m.withWorld w k) := by
    rintro w k hw hk mode rfl
    refine wp_vfsubMake (fun w' j h1 _ _ h2 h3 h4 => ?_) fun e w' hw' =>
      herr e w' (k + 1) (by omega) (.of_fs (hw'.trans hw))
    rw [Mount.withWorld_w, World.node_congr hw] at h1
    refine hok w' k j hk h2 h3 h1 fun r q => ?_
    rw [h4 r q, Mount.withWorld_w, World.node_congr hw]
  refine wp_bind.mpr (wp_hDptrI (fun h hh => ?_) fun hno => by simp [hsrc] at hno)
  obtain rfl := Option.some.inj (hsrc.symm.trans hh)
  refine wp_bind.mpr (wp_inodeOf (fun j hj => ?_) fun hno => by simp [hi] at hno)
  obtain rfl := Option.some.inj (hi.symm.trans hj)
  refine wp_bind.mpr (wp_hDptrI (fun h hh => ?_) fun hno => by simp [hdst] at hno)
  obtain rfl := Option.some.inj (hdst.symm.trans hh)
  cases hm : i.mode
  case reg =>
    refine wp_bind.mpr (wp_vfsubMake (fun w j h1 _ _ h2 h3 h4 => ?_) fun e w hw =>
      herr e w _ (Nat.lt_succ_self _) (.of_fs hw))
    refine wp_bind.mpr (wp_attempt.mpr (wp_mayFail (fun w' hw' => wp_pure.mpr ?_) fun e w' hw' => ?_))
    · exact hok w' m.fails j le_rfl (h2.trans hm.symm) h3 h1 fun r q => by rw [World.node_congr hw', h4 r q]
    · -- the file could not be filled
      refine wp_bind.mpr (wp_attempt.mpr (wp_vfsubUnlink (fun w2 _ _ _ h5 => wp_fail.mpr ?_)
        fun e2 w2 _ => wp_fail.mpr ?_))
      · refine herr e w2 (m.fails + 1) (by omega) (.inl (World.Sets.undo (v := some j) ?_ h5 h1))
        exact fun r q => by rw [Mount.failed_w, World.node_congr hw', h4 r q]
      · exact herr _ w2 (m.fails + 1 + 1) (by omega) (.inr (by simp))
  case lnk =>
    refine wp_bind.mpr (wp_kmalloc (fun w hw => ?_) fun e w hw =>
      herr e w _ (Nat.lt_succ_self _) (.of_fs hw))
    refine wp_bind.mpr (wp_mayFail (fun w' hw' => ?_) fun e w' hw' =>
      herr e w' _ (Nat.lt_succ_self _) (.of_fs (hw'.trans hw)))
    exact hmake w' m.fails (hw'.trans hw) le_rfl .lnk hm.symm
  all_goals exact hmake m.w m.fails rfl le_rfl _ hm.symm

/-- The slot that a copy-up has filled. -/
def HDentry.filled (h : HDentry) (j : HInode) : HDentry := { h with inode := some j }

theorem hDptrI_of_hdentry {d e : Dinfo} {b : Int} {h : HDentry} (hb : d.hDptrI b = some h)
    (hs : e.bstart = d.bstart) (hx : e.hdentry b = d.hdentry b) : e.hDptrI b = some h := by
  rw [← hb, Dinfo.hDptrI, Dinfo.hDptrI, hs, hx]

theorem hdentry_of_hDptrI {d : Dinfo} {b : Int} {h : HDentry} (hb : d.hDptrI b = some h) : d.hdentry b = some h := by
  have := Dinfo.range_of_hDptrI hb
  rwa [Dinfo.hDptrI_of_le this.1 this.2] at hb

/-- `cpup_single` of an inode that is not on the branch yet. -/
theorem wp_cpupNew {bdst bsrc : Int} {s d : HDentry} {i : HInode} {Q : Unit → Mount → Prop}
    {E : Errno → Mount → Prop}
    (hsrc : (m.di p).hDptrI bsrc = some s) (hi : s.inode = some i) (hdst : (m.di p).hDptrI bdst = some d)
    (hok : ∀ w k j, m.fails ≤ k → j.mode = i.mode → j.data = i.data → m.w.node d.root d.path = none →
      m.w.Sets w d.root d.path (some j) →
      Q () { (m.withWorld w k).setDi p ((m.di p).setHDptr bdst (some (d.filled j))) with
        hi := Function.update m.hi p (Function.update (m.hi p) bdst (some j)) })
    (herr : ∀ e m', m.fails < m'.fails → m.Kept m' → (∃ x, m'.di = (m.setDi p ((m.di p).setHDptr bdst x)).di) →
      m'.hi = m.hi → E e m') :
    wp (cpupNew p bdst bsrc) Q E m := by
  refine wp_bind.mpr (wp_cpupEntry hsrc hi hdst (fun w k j hk h1 h2 h3 h4 => ?_) fun e w k hk hkept => ?_)
  · have hslot := hdentry_of_hDptrI hdst
    have hnode : w.node d.root d.path = some j := by
      rw [h4 d.root d.path, if_pos ⟨rfl, rfl⟩]
    have htouch : ((m.withWorld w k).touch p bdst) =
        (m.withWorld w k).setDi p ((m.di p).setHDptr bdst (some (d.filled j))) := by
      have hnode' : (w.fs d.root).node d.path = some j := hnode
      simp [Mount.touch, hslot, HDentry.filled, hnode']
    refine wp_bind.mpr (wp_update.mpr ?_)
    rw [htouch]
    have hslot' : (((m.withWorld w k).setDi p ((m.di p).setHDptr bdst (some (d.filled j)))).di p).hDptrI bdst =
        some (d.filled j) := by
      have hr := Dinfo.range_of_hDptrI hdst
      rw [Mount.setDi_di, Function.update_self,
        Dinfo.hDptrI_of_le (d := (m.di p).setHDptr bdst (some (d.filled j))) hr.1 hr.2]
      simp
    refine wp_bind.mpr (wp_hDptrI (fun h hh => ?_) fun hno => by rw [hslot'] at hno; simp at hno)
    obtain rfl := Option.some.inj (hslot'.symm.trans hh)
    refine wp_bind.mpr (wp_inodeOf (fun j' hj' => ?_) fun hno => by simp [HDentry.filled] at hno)
    obtain rfl : j = j' := Option.some.inj hj'
    refine wp_bind.mpr (wp_attempt.mpr (wp_mayFail (fun w' hw' => wp_update.mpr ?_) fun e w' hw' => ?_))
    · exact hok w' k j hk h1 h2 h3 fun r q => by rw [World.node_congr hw']; exact h4 r q
    · -- the attributes could not be set
      have hback : ∀ w2, w'.Sets w2 d.root d.path none → w2.node = m.w.node := fun w2 h5 =>
        World.Sets.undo (v := some j) (fun r q => by rw [World.node_congr hw']; exact h4 r q) h5 h3
      refine wp_bind.mpr (wp_attempt.mpr (wp_ite.mpr ⟨fun _ => ?_, fun _ => ?_⟩))
      · refine wp_vfsubRmdir (fun w2 _ _ _ _ h5 => ?_) fun e2 w2 _ => ?_
        · exact herr e _ (Nat.lt_succ_of_le hk) (.inl (hback w2 h5)) ⟨_, rfl⟩ rfl
        · exact herr _ _ (show m.fails < k + 1 + 1 by omega)
            (.inr (show m.fails + 2 ≤ k + 1 + 1 by omega)) ⟨_, rfl⟩ rfl
      · refine wp_vfsubUnlink (fun w2 _ _ _ h5 => ?_) fun e2 w2 _ => ?_
        · exact herr e _ (Nat.lt_succ_of_le hk) (.inl (hback w2 h5)) ⟨_, rfl⟩ rfl
        · exact herr _ _ (show m.fails < k + 1 + 1 by omega)
            (.inr (show m.fails + 2 ≤ k + 1 + 1 by omega)) ⟨_, rfl⟩ rfl
  · refine herr e _ hk hkept ⟨some d, ?_⟩ rfl
    have hslot := hdentry_of_hDptrI hdst
    have : (m.di p).setHDptr bdst (some d) = m.di p := by
      rw [Dinfo.setHDptr, ← hslot, Function.update_eq_self]
    rw [this, Mount.setDi_self]
    rfl

-- ---------------------------------------------------------------------------
-- Directories
-- ---------------------------------------------------------------------------

/-- The dentry of a directory as it is kept: its slots are the directories of that path in
their branches, both ends are filled, and the inode has the same hidden inodes. -/
structure Mount.DirAt (sb : SuperBlock) (m : Mount) (p : Path) : Prop extends (m.di p).Ends where
  slots : ∀ b h, (m.di p).hdentry b = some h →
    ∃ br i, sb.stobr b = some br ∧ i.isDir ∧ m.w.node br.root p = some i ∧ h = ⟨br.root, p, some i⟩
  hi : ∀ b, m.hi p b = ((m.di p).hdentry b).bind HDentry.inode

/-- The dentries of a directory and its parents: a branch that has the directory has its
parents. -/
structure Mount.Dirs (sb : SuperBlock) (m : Mount) (dir : Path) : Prop where
  dirAt : ∀ q, q <+: dir → m.DirAt sb q
  chain : ∀ q n b, q ++ [n] <+: dir → ((m.di (q ++ [n])).hdentry b).isSome → ((m.di q).hdentry b).isSome

theorem Mount.DirAt.hDptrI (h : m.DirAt sb p) (b : Int) : (m.di p).hDptrI b = (m.di p).hdentry b :=
  h.toEnds.tidy.hDptrI b

theorem Mount.Dirs.parent {q : Path} {n : Name} (h : m.Dirs sb (q ++ [n])) : m.Dirs sb q where
  dirAt := fun r hr => h.dirAt r (hr.trans (List.prefix_append q [n]))
  chain := fun r k b hr => h.chain r k b (hr.trans (List.prefix_append q [n]))

/-- `j` is a copy of the first file below `b`. -/
def Dinfo.CopyOf (d : Dinfo) (b : Int) (j : HInode) : Prop :=
  ∃ s h i, b < s ∧ d.hdentry s = some h ∧ (∀ c, b < c → c < s → d.hdentry c = none) ∧
    h.inode = some i ∧ j.mode = i.mode ∧ j.data = i.data

theorem cpupSrc_spec {d : Dinfo} {b s : Int} (hd : d.Ends) (hs : b < s) (hfill : (d.hdentry s).isSome) :
    b < cpupSrc d b ∧ (∃ h, d.hdentry (cpupSrc d b) = some h) ∧
      ∀ c, b < c → c < cpupSrc d b → d.hdentry c = none := by
  have hx : ∀ c, d.hDptrI c = d.hdentry c := hd.tidy.hDptrI
  unfold cpupSrc
  cases hf : (bindexes (b + 1) d.bend).find? fun c => (d.hDptrI c).isSome with
  | none =>
      have := find?_bindexes_eq_none.mp hf s (by omega) (hd.range s hfill).2
      rw [hx] at this
      simp [this] at hfill
  | some c =>
      obtain ⟨hc, h1, -, h3⟩ := find?_bindexes.mp hf
      rw [hx] at hc
      refine ⟨show b < c by omega, Option.isSome_iff_exists.mp hc, fun e h4 h5 => ?_⟩
      have := h3 e (by omega) h5
      rw [hx] at this
      simpa using this

/-- `cpup_simple` of a directory: it is made on the branch, or nothing has changed. -/
theorem wp_cpupSimple_dir {b s : Int} {br : Branch} {q : Path} {n : Name} {Q : Unit → Mount → Prop}
    {E : Errno → Mount → Prop} (hbr : sb.stobr b = some br) (hq : m.DirAt sb (q ++ [n])) (hup : m.DirAt sb q)
    (hb : (m.di (q ++ [n])).hdentry b = none) (hs : b < s) (hfill : ((m.di (q ++ [n])).hdentry s).isSome)
    (hok : ∀ m' j, m.fails ≤ m'.fails → (m.di (q ++ [n])).CopyOf b j →
      m.w.node br.root (q ++ [n]) = none → m.w.Sets m'.w br.root (q ++ [n]) (some j) →
      m'.di = Function.update m.di (q ++ [n]) ((m.di (q ++ [n])).enter b ⟨br.root, q ++ [n], some j⟩) →
      m'.hi = Function.update m.hi (q ++ [n]) (Function.update (m.hi (q ++ [n])) b (some j)) → Q () m')
    (herr : ∀ e m', m.fails < m'.fails → m.Kept m' → E e m') :
    wp (cpupSimple sb (q ++ [n]) b) Q E m := by
  obtain ⟨hlt, ⟨h, hh⟩, hfirst⟩ := cpupSrc_spec hq.toEnds hs hfill
  obtain ⟨br', i, -, hdir, -, rfl⟩ := hq.slots _ _ hh
  have hb0 := (SuperBlock.range_of_stobr hbr).1
  have hn0 := hq.nonneg
  refine wp_bind.mpr (wp_dinfo.mpr (wp_bind.mpr (wp_lkupNeg (fun hp w hhp hnone hw => ?_) fun e w hw => ?_)))
  · rw [dParent_append, hup.hDptrI] at hhp
    obtain ⟨br₁, i₁, hbr₁, -, -, rfl⟩ := hup.slots _ _ hhp
    obtain rfl := Option.some.inj (hbr.symm.trans hbr₁)
    simp only [dName_append] at hnone ⊢
    -- the dentry with its new negative slot
    generalize hd1 : { m.di (q ++ [n]) with
      bstart := if b < (m.di (q ++ [n])).bstart then b else (m.di (q ++ [n])).bstart
      bend := if (m.di (q ++ [n])).bend < b then b else (m.di (q ++ [n])).bend
      hdentry := Function.update (m.di (q ++ [n])).hdentry b
        (some (HDentry.negative ⟨br.root, q, some i₁⟩ n)) } = d1
    have hstart : 0 ≤ d1.bstart ∧ d1.bstart ≤ b := by
      subst hd1
      simp only
      split <;> omega
    have hslot : d1.hDptrI b = some (HDentry.negative ⟨br.root, q, some i₁⟩ n) := by
      rw [Dinfo.hDptrI_of_le hstart.1 hstart.2]
      subst hd1
      simp
    have hsrc : d1.hDptrI (cpupSrc (m.di (q ++ [n])) b) = some ⟨br'.root, q ++ [n], some i⟩ := by
      rw [Dinfo.hDptrI_of_le hstart.1 (hstart.2.trans hlt.le)]
      subst hd1
      simp only
      rw [Function.update_of_ne (by omega), hh]
    have hhi : m.hi (q ++ [n]) b = none := by rw [hq.hi, hb]; rfl
    refine wp_bind.mpr (wp_attempt.mpr (wp_bind.mpr (wp_state.mpr ?_)))
    simp only [Mount.setDi_hi, hhi]
    refine wp_cpupNew (s := ⟨br'.root, q ++ [n], some i⟩) (i := i)
      (d := HDentry.negative ⟨br.root, q, some i₁⟩ n) (by simpa using hsrc) rfl (by simpa using hslot)
      (fun w' k j hk h1 h2 h3 h4 => wp_pure.mpr ?_) fun e m' hk hkept hdi hhi' => ?_
    · refine hok _ j hk ⟨_, _, i, hlt, hh, hfirst, rfl, h1, h2⟩ hnone (fun r x => ?_) ?_ rfl
      · have := h4 r x
        rwa [Mount.setDi_w, World.node_congr hw] at this
      · simp only [Mount.setDi_di, Mount.withWorld_di, Function.update_idem, Function.update_self]
        congr 1
        subst hd1
        simp only [Dinfo.setHDptr, Dinfo.enter, HDentry.filled, HDentry.negative, Function.update_idem,
          Dinfo.mk.injEq, and_true]
        refine ⟨?_, ?_⟩
        · split <;> split <;> omega
        · split <;> split <;> omega
    · refine wp_bind.mpr (wp_onDinfo.mpr (wp_fail.mpr (herr e _ hk ?_)))
      refine hkept.imp (fun hx => ?_) id
      exact hx.trans (World.node_congr hw)
  · exact herr e _ (Nat.lt_succ_self _) (.inl (World.node_congr hw))

/-- What copying up the directory `dir` to the branch `b` may have changed: it made some of the
directories that the branch lacked. -/
structure Mount.NewDirs (sb : SuperBlock) (dir : Path) (b : Int) (m m' : Mount) : Prop where
  fails : m.fails ≤ m'.fails
  nodes : ∀ r q, m'.w.node r q = m.w.node r q ∨
    ∃ br j, sb.stobr b = some br ∧ r = br.root ∧ q <+: dir ∧ q ≠ [] ∧ (m.di q).hdentry b = none ∧
      m.w.node r q = none ∧ m'.w.node r q = some j ∧ (m.di q).CopyOf b j

/-- What it has changed in the end: the branch has the directory. -/
structure Mount.CopiedUp (sb : SuperBlock) (dir : Path) (b : Int) (m m' : Mount) : Prop
    extends m.NewDirs sb dir b m' where
  dirs : m'.Dirs sb dir
  has : ((m'.di dir).hdentry b).isSome
  stays : ∀ q, ¬ q <+: dir → m'.di q = m.di q ∧ m'.hi q = m.hi q
  grows : ∀ q, q <+: dir → m'.di q = m.di q ∨
    ((m.di q).hdentry b = none ∧ ∃ h, m'.di q = (m.di q).enter b h)

theorem Mount.NewDirs.refl (sb : SuperBlock) (dir : Path) (b : Int) (m : Mount) : m.NewDirs sb dir b m :=
  ⟨le_rfl, fun _ _ => .inl rfl⟩

theorem Mount.NewDirs.mono {q : Path} {n : Name} {b : Int} {m' : Mount} (h : m.NewDirs sb q b m') :
    m.NewDirs sb (q ++ [n]) b m' where
  fails := h.fails
  nodes := fun r x => (h.nodes r x).imp_right fun ⟨br, j, h1, h2, h3, h4⟩ =>
    ⟨br, j, h1, h2, h3.trans (List.prefix_append q [n]), h4⟩

theorem Mount.CopiedUp.refl {b : Int} {dir : Path} (hm : m.Dirs sb dir) (hb : ((m.di dir).hdentry b).isSome) :
    m.CopiedUp sb dir b m :=
  { Mount.NewDirs.refl sb dir b m with
    dirs := hm
    has := hb
    stays := fun _ _ => ⟨rfl, rfl⟩
    grows := fun _ _ => .inl rfl }

theorem prefix_append_singleton {q dir : Path} {n : Name} :
    q <+: dir ++ [n] ↔ q = dir ++ [n] ∨ q <+: dir := List.prefix_concat_iff

theorem not_concat_within (dir : Path) (n : Name) : ¬ dir ++ [n] <+: dir := by
  intro h
  have := h.length_le
  rw [List.length_append, List.length_singleton] at this
  omega

theorem ne_concat_of_within {q dir : Path} {n : Name} (h : q <+: dir) : q ≠ dir ++ [n] := by
  rintro rfl
  exact not_concat_within dir n h

/-- The dentries of the parents stay those of directories while the files change only where
none of them is. -/
theorem Mount.Dirs.congr {m' : Mount} {dir : Path} (h : m.Dirs sb dir)
    (hdi : ∀ q, q <+: dir → m'.di q = m.di q ∧ m'.hi q = m.hi q)
    (hnode : ∀ r q, q <+: dir → (m.w.node r q).isSome → m'.w.node r q = m.w.node r q) : m'.Dirs sb dir where
  dirAt := fun q hq => by
    have hd := h.dirAt q hq
    obtain ⟨h1, h2⟩ := hdi q hq
    refine { toEnds := h1 ▸ hd.toEnds, slots := fun b x hx => ?_, hi := fun b => ?_ }
    · rw [h1] at hx
      obtain ⟨br, i, h3, h4, h5, h6⟩ := hd.slots b x hx
      exact ⟨br, i, h3, h4, by rw [hnode br.root q hq (by simp [h5]), h5], h6⟩
    · rw [h1, h2, hd.hi]
  chain := fun q n b hq => by
    rw [(hdi _ hq).1, (hdi q ((List.prefix_append q [n]).trans hq)).1]
    exact h.chain q n b hq

/-- The dentry of the directory after its copy-up. -/
theorem Mount.DirAt.enter {b : Int} {br : Branch} {j : HInode} {m' : Mount} (h : m.DirAt sb p)
    (hbr : sb.stobr b = some br) (hb : (m.di p).hdentry b = none) (hj : j.isDir)
    (hdi : m'.di p = (m.di p).enter b ⟨br.root, p, some j⟩)
    (hhi : m'.hi p = Function.update (m.hi p) b (some j)) (hnode : m'.w.node br.root p = some j)
    (hstay : ∀ r, (m.w.node r p).isSome → m'.w.node r p = m.w.node r p) : m'.DirAt sb p := by
  have hb0 := (SuperBlock.range_of_stobr hbr).1
  have hn0 := h.nonneg
  have hrange := h.range _ h.start
  refine { toEnds := ?_, slots := fun c x hx => ?_, hi := fun c => ?_ }
  · rw [hdi]
    refine ⟨?_, ?_, ?_, fun c hc => ?_⟩
    · simp only [Dinfo.enter]
      split <;> omega
    · simp only [Dinfo.enter]
      split
      · simp
      · by_cases hx : (m.di p).bstart = b
        · simp [hx]
        · rw [Function.update_of_ne hx]
          exact h.start
    · simp only [Dinfo.enter]
      split
      · simp
      · rw [Function.update_of_ne (by omega)]
        exact h.last
    · simp only [Dinfo.enter] at hc ⊢
      by_cases hx : c = b
      · subst hx
        split <;> split <;> omega
      · rw [Function.update_of_ne hx] at hc
        have := h.range c hc
        split <;> split <;> omega
  · rw [hdi] at hx
    simp only [Dinfo.enter] at hx
    by_cases hc : c = b
    · subst hc
      rw [Function.update_self] at hx
      exact ⟨br, j, hbr, hj, hnode, (Option.some.inj hx).symm⟩
    · rw [Function.update_of_ne hc] at hx
      obtain ⟨br', i, h1, h2, h3, h4⟩ := h.slots c x hx
      exact ⟨br', i, h1, h2, by rw [hstay _ (by simp [h3]), h3], h4⟩
  · rw [hdi, hhi]
    simp only [Dinfo.enter]
    by_cases hc : c = b
    · subst hc
      simp
    · rw [Function.update_of_ne hc, Function.update_of_ne hc, h.hi]

/-- The step of `cpup_dirs`: after the parents the directory itself. -/
theorem Mount.CopiedUp.step {b : Int} {br : Branch} {j : HInode} {q : Path} {n : Name} {m₁ m₂ : Mount}
    (hm : m.Dirs sb (q ++ [n])) (h : m.CopiedUp sb q b m₁) (hbr : sb.stobr b = some br)
    (hb : (m.di (q ++ [n])).hdentry b = none) (hfails : m₁.fails ≤ m₂.fails)
    (hcopy : (m.di (q ++ [n])).CopyOf b j) (hnone : m₁.w.node br.root (q ++ [n]) = none)
    (hsets : m₁.w.Sets m₂.w br.root (q ++ [n]) (some j))
    (hdi : m₂.di = Function.update m₁.di (q ++ [n]) ((m.di (q ++ [n])).enter b ⟨br.root, q ++ [n], some j⟩))
    (hhi : m₂.hi = Function.update m₁.hi (q ++ [n]) (Function.update (m.hi (q ++ [n])) b (some j))) :
    m.CopiedUp sb (q ++ [n]) b m₂ := by
  have hq := not_concat_within q n
  have hself := h.stays (q ++ [n]) hq
  have hne : ∀ x, x <+: q → x ≠ q ++ [n] := fun x hx => ne_concat_of_within hx
  have hnode₁ : ∀ r x, x ≠ q ++ [n] → m₂.w.node r x = m₁.w.node r x := fun r x hx => by
    rw [hsets r x, if_neg fun hc => hx hc.2]
  have hlow : m₁.w.node br.root (q ++ [n]) = m.w.node br.root (q ++ [n]) := by
    rcases h.nodes br.root (q ++ [n]) with hx | ⟨_, _, _, _, hx, _⟩
    · exact hx
    · exact absurd hx hq
  obtain ⟨_, _, i, -, hi, -, hmode⟩ := id hcopy
  obtain ⟨_, i', -, hdir, -, rfl⟩ := (hm.dirAt _ (List.prefix_refl _)).slots _ _ hi
  obtain rfl : i' = i := by simpa using hmode.1
  have hj : j.isDir := by
    simpa [HInode.isDir, hmode.2.1] using hdir
  have hdirs : m₂.Dirs sb q := h.dirs.congr
    (fun x hx => by rw [hdi, hhi, Function.update_of_ne (hne x hx), Function.update_of_ne (hne x hx)]; exact ⟨rfl, rfl⟩)
    fun r x hx _ => hnode₁ r x (hne x hx)
  have hdiq : m₂.di (q ++ [n]) = (m.di (q ++ [n])).enter b ⟨br.root, q ++ [n], some j⟩ := by
    rw [hdi, Function.update_self]
  refine { fails := h.fails.trans hfails, nodes := fun r x => ?_, dirs := ⟨fun x hx => ?_, ?_⟩,
           has := ?_, stays := fun x hx => ?_, grows := fun x hx => ?_ }
  · by_cases hx : x = q ++ [n]
    · subst hx
      by_cases hr : r = br.root
      · subst hr
        refine .inr ⟨br, j, hbr, rfl, List.prefix_refl _, by simp, hb, hlow ▸ hnone, ?_, hcopy⟩
        rw [hsets _ _, if_pos ⟨rfl, rfl⟩]
      · rw [hsets _ _, if_neg fun hc => hr hc.1]
        exact h.toNewDirs.mono.nodes r _
    · rw [hnode₁ r x hx]
      exact h.toNewDirs.mono.nodes r x
  · rcases prefix_append_singleton.mp hx with rfl | hx
    · refine (hm.dirAt _ (List.prefix_refl _)).enter hbr hb hj hdiq ?_ ?_ fun r hr => ?_
      · rw [hhi, Function.update_self]
      · rw [hsets _ _, if_pos ⟨rfl, rfl⟩]
      · rw [hsets _ _]
        split
        · rename_i hc
          rw [hc.1, ← hlow, hnone] at hr
          simp at hr
        · rcases h.nodes r (q ++ [n]) with hx | ⟨_, _, _, _, hx, _⟩
          · exact hx
          · exact absurd hx hq
    · exact hdirs.dirAt x hx
  · intro x k c hx hc
    rcases prefix_append_singleton.mp hx with heq | hx
    · obtain ⟨rfl, hk⟩ := List.append_inj' heq rfl
      obtain rfl := List.singleton_inj.mp hk
      rw [hdi, Function.update_of_ne (hne x (List.prefix_refl x))]
      rw [hdiq] at hc
      simp only [Dinfo.enter] at hc
      by_cases hcb : c = b
      · rw [hcb]
        exact h.has
      · rw [Function.update_of_ne hcb] at hc
        have hold := hm.chain x k c (List.prefix_refl _) hc
        rcases h.grows x (List.prefix_refl x) with hg | ⟨-, y, hg⟩
        · rw [hg]
          exact hold
        · rw [hg]
          simp only [Dinfo.enter]
          rw [Function.update_of_ne hcb]
          exact hold
    · exact hdirs.chain x k c hx hc
  · rw [hdiq]
    simp [Dinfo.enter]
  · have hx' : ¬ x <+: q := fun hc => hx (hc.trans (List.prefix_append q [n]))
    have hxne : x ≠ q ++ [n] := fun hc => hx (hc ▸ List.prefix_refl _)
    rw [hdi, hhi, Function.update_of_ne hxne, Function.update_of_ne hxne]
    exact h.stays x hx'
  · rcases prefix_append_singleton.mp hx with rfl | hx
    · exact .inr ⟨hb, _, hdiq⟩
    · rw [hdi, Function.update_of_ne (hne x hx)]
      exact h.grows x hx

end Aufs
