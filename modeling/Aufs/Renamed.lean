-- SUMMARY: What do_rename does to the files of a branch: the entry has its new name and a whiteout under the old one, or all is as it was.
import Aufs.CopiedFile
import Aufs.OpRen

/-!
# The effect of a rename

A rename of a file changes a branch at four paths: the two names and their whiteouts. The
whiteout of the old name comes first. Then the entry moves, or a copy of it is made, and
at last the whiteout of the new name goes. When a step fails the ones before are taken
back one by one. What stays then is at most a copy of the file under its old name, and under the
new name a file is missing that a whiteout hides.
-/

namespace Aufs

open Prog Op Overlay

-- ---------------------------------------------------------------------------
-- The four paths
-- ---------------------------------------------------------------------------

/-- The two names of a rename. -/
structure RenamePaths where
  sdir : Path
  sname : Name
  ddir : Path
  dname : Name
  sok : hasWhPfx sname = false
  dok : hasWhPfx dname = false
  ne : sdir ++ [sname] ≠ ddir ++ [dname]

namespace RenamePaths

variable (P : RenamePaths)

/-- The old name. -/
def src : Path := P.sdir ++ [P.sname]

/-- The whiteout of the old name. -/
def whSrc : Path := P.sdir ++ [whName P.sname]

/-- The new name. -/
def dst : Path := P.ddir ++ [P.dname]

/-- The whiteout of the new name. -/
def whDst : Path := P.ddir ++ [whName P.dname]

theorem src_ne_dst : P.src ≠ P.dst := P.ne

theorem src_ne_whSrc : P.src ≠ P.whSrc := concat_ne_whName P.sok P.sname

theorem dst_ne_whDst : P.dst ≠ P.whDst := concat_ne_whName P.dok P.dname

theorem src_ne_whDst : P.src ≠ P.whDst := fun h =>
  ne_whName_of_not_hasWhPfx P.sok (List.singleton_inj.mp (List.append_inj' h rfl).2)

theorem dst_ne_whSrc : P.dst ≠ P.whSrc := fun h =>
  ne_whName_of_not_hasWhPfx P.dok (List.singleton_inj.mp (List.append_inj' h rfl).2)

theorem whSrc_ne_whDst : P.whSrc ≠ P.whDst := fun h => by
  obtain ⟨hdir, hname⟩ := List.append_inj' h rfl
  exact P.ne (by rw [hdir, whName_injective (List.singleton_inj.mp hname)])

@[simp] theorem dParent_src : dParent P.src = P.sdir := dParent_append _ _

@[simp] theorem dName_src : dName P.src = P.sname := dName_append _ _

@[simp] theorem dParent_dst : dParent P.dst = P.ddir := dParent_append _ _

@[simp] theorem dName_dst : dName P.dst = P.dname := dName_append _ _

end RenamePaths

variable {P : RenamePaths} {r : Nat} {w w' w'' : World} {S WS D WD v : Option HInode} {i j k : HInode}

/-- What the branch has at the four paths. All else is as in `w`. -/
structure Places (P : RenamePaths) (r : Nat) (w w' : World) (S WS D WD : Option HInode) : Prop where
  src : w'.node r P.src = S
  whSrc : w'.node r P.whSrc = WS
  dst : w'.node r P.dst = D
  whDst : w'.node r P.whDst = WD
  others : ∀ x q, ¬ (x = r ∧ (q = P.src ∨ q = P.whSrc ∨ q = P.dst ∨ q = P.whDst)) → w'.node x q = w.node x q

namespace Places

theorem refl (P : RenamePaths) (r : Nat) (w : World) :
    Places P r w w (w.node r P.src) (w.node r P.whSrc) (w.node r P.dst) (w.node r P.whDst) :=
  ⟨rfl, rfl, rfl, rfl, fun _ _ _ => rfl⟩

theorem congr (h : Places P r w w' S WS D WD) (hnode : w''.node = w'.node) : Places P r w w'' S WS D WD := by
  refine ⟨?_, ?_, ?_, ?_, fun x q hq => ?_⟩ <;> rw [hnode]
  · exact h.src
  · exact h.whSrc
  · exact h.dst
  · exact h.whDst
  · exact h.others x q hq

theorem setSrc (h : Places P r w w' S WS D WD) (hs : w'.Sets w'' r P.src v) : Places P r w w'' v WS D WD := by
  refine ⟨?_, ?_, ?_, ?_, fun x q hq => ?_⟩ <;> rw [hs]
  · rw [if_pos ⟨rfl, rfl⟩]
  · rw [if_neg fun hx => P.src_ne_whSrc hx.2.symm, h.whSrc]
  · rw [if_neg fun hx => P.src_ne_dst hx.2.symm, h.dst]
  · rw [if_neg fun hx => P.src_ne_whDst hx.2.symm, h.whDst]
  · rw [if_neg fun hx => hq ⟨hx.1, .inl hx.2⟩, h.others x q hq]

theorem setWhSrc (h : Places P r w w' S WS D WD) (hs : w'.Sets w'' r P.whSrc v) : Places P r w w'' S v D WD := by
  refine ⟨?_, ?_, ?_, ?_, fun x q hq => ?_⟩ <;> rw [hs]
  · rw [if_neg fun hx => P.src_ne_whSrc hx.2, h.src]
  · rw [if_pos ⟨rfl, rfl⟩]
  · rw [if_neg fun hx => P.dst_ne_whSrc hx.2, h.dst]
  · rw [if_neg fun hx => P.whSrc_ne_whDst hx.2.symm, h.whDst]
  · rw [if_neg fun hx => hq ⟨hx.1, .inr (.inl hx.2)⟩, h.others x q hq]

theorem setDst (h : Places P r w w' S WS D WD) (hs : w'.Sets w'' r P.dst v) : Places P r w w'' S WS v WD := by
  refine ⟨?_, ?_, ?_, ?_, fun x q hq => ?_⟩ <;> rw [hs]
  · rw [if_neg fun hx => P.src_ne_dst hx.2, h.src]
  · rw [if_neg fun hx => P.dst_ne_whSrc hx.2.symm, h.whSrc]
  · rw [if_pos ⟨rfl, rfl⟩]
  · rw [if_neg fun hx => P.dst_ne_whDst hx.2.symm, h.whDst]
  · rw [if_neg fun hx => hq ⟨hx.1, .inr (.inr (.inl hx.2))⟩, h.others x q hq]

theorem setWhDst (h : Places P r w w' S WS D WD) (hs : w'.Sets w'' r P.whDst v) : Places P r w w'' S WS D v := by
  refine ⟨?_, ?_, ?_, ?_, fun x q hq => ?_⟩ <;> rw [hs]
  · rw [if_neg fun hx => P.src_ne_whDst hx.2, h.src]
  · rw [if_neg fun hx => P.whSrc_ne_whDst hx.2, h.whSrc]
  · rw [if_neg fun hx => P.dst_ne_whDst hx.2, h.dst]
  · rw [if_pos ⟨rfl, rfl⟩]
  · rw [if_neg fun hx => hq ⟨hx.1, .inr (.inr (.inr hx.2))⟩, h.others x q hq]

end Places

/-- A file that moves, in two steps. -/
theorem World.Moves.file {s t : Path} (h : w.Moves w' r s t) (hi : w.node r s = some i) (hfile : i.isDir = false)
    (hapart : ∀ j, w.node r t = some j → j.ino ≠ i.ino) (x : Nat) (q : Path) :
    w'.node x q = if x = r ∧ q = t then some i else if x = r ∧ q = s then none else w.node x q := by
  obtain ⟨k, hk, hcase⟩ := h
  obtain rfl := Option.some.inj (hi.symm.trans hk)
  rcases hcase with ⟨j, hj, hino, -⟩ | ⟨hst, hts, -, htarget, hnode⟩
  · exact absurd hino (hapart j hj)
  -- nothing lies below a file
  have hbelow : ∀ {p : Path} {y : Path}, (∀ j, w.node r p = some j → j.isDir = false) → y ≠ [] → w.node r (p ++ y) = none := by
    intro p y hp hy
    cases hnone : w.node r p with
    | none => exact (w.fs r).wf.closed.node_append_none hnone y
    | some j =>
      refine (w.fs r).wf.closed.node_append_of_not_isDir ?_ hy
      rw [Ents.isDir, show (w.fs r).ents.node p = some j from hnone]
      exact hp j hnone
  have hs : ∀ j, w.node r s = some j → j.isDir = false := fun j hj => by
    obtain rfl := Option.some.inj (hi.symm.trans hj)
    exact hfile
  have ht : ∀ j, w.node r t = some j → j.isDir = false := fun j hj => (htarget j hj).1.trans hfile
  rw [hnode x q]
  by_cases hx : x = r
  case neg => rw [if_neg hx, if_neg fun h => hx h.1, if_neg fun h => hx h.1]
  case pos =>
    subst hx
    rw [if_pos rfl]
    by_cases hq : t <+: q
    case pos =>
      obtain ⟨y, rfl⟩ := hq
      rw [if_pos (List.prefix_append t y), List.drop_left]
      cases y with
      | nil => rw [List.append_nil, List.append_nil, if_pos ⟨rfl, rfl⟩, hi]
      | cons n y =>
        have hne : t ++ n :: y ≠ s := fun he => hts (he ▸ List.prefix_append _ _)
        rw [hbelow hs (List.cons_ne_nil n y), if_neg (by simp), if_neg fun h => hne h.2, hbelow ht (List.cons_ne_nil n y)]
    case neg =>
      have hne : ¬ (x = x ∧ q = t) := fun he => hq (he.2 ▸ List.prefix_refl _)
      rw [if_neg hq, if_neg hne]
      by_cases hq' : s <+: q
      case pos =>
        obtain ⟨y, rfl⟩ := hq'
        rw [if_pos (List.prefix_append s y)]
        cases y with
        | nil => rw [List.append_nil, if_pos ⟨rfl, rfl⟩]
        | cons n y => rw [if_neg (by simp), hbelow hs (List.cons_ne_nil n y)]
      case neg =>
        have hne : q ≠ s := fun he => hq' (he ▸ List.prefix_refl _)
        rw [if_neg hq', if_neg fun h => hne h.2]

/-- The entry gets its new name. -/
theorem Places.move (h : Places P r w w' (some i) WS D WD) (hm : w'.Moves w'' r P.src P.dst) (hfile : i.isDir = false)
    (hapart : ∀ j, D = some j → j.ino ≠ i.ino) : Places P r w w'' none WS (some i) WD := by
  have hnode := hm.file h.src hfile fun j hj => hapart j (h.dst.symm.trans hj)
  refine ⟨?_, ?_, ?_, ?_, fun x q hq => ?_⟩ <;> rw [hnode]
  · rw [if_neg fun hx => P.src_ne_dst hx.2, if_pos ⟨rfl, rfl⟩]
  · rw [if_neg fun hx => P.dst_ne_whSrc hx.2.symm, if_neg fun hx => P.src_ne_whSrc hx.2.symm, h.whSrc]
  · rw [if_pos ⟨rfl, rfl⟩]
  · rw [if_neg fun hx => P.dst_ne_whDst hx.2.symm, if_neg fun hx => P.src_ne_whDst hx.2.symm, h.whDst]
  · rw [if_neg fun hx => hq ⟨hx.1, .inr (.inr (.inl hx.2))⟩, if_neg fun hx => hq ⟨hx.1, .inl hx.2⟩, h.others x q hq]

/-- It gets its old name again. -/
theorem Places.moveBack (h : Places P r w w' none WS (some i) WD) (hm : w'.Moves w'' r P.dst P.src) (hfile : i.isDir = false) :
    Places P r w w'' (some i) WS none WD := by
  have hnode := hm.file h.dst hfile fun j hj => by
    rw [h.src] at hj
    cases hj
  refine ⟨?_, ?_, ?_, ?_, fun x q hq => ?_⟩ <;> rw [hnode]
  · rw [if_pos ⟨rfl, rfl⟩]
  · rw [if_neg fun hx => P.src_ne_whSrc hx.2.symm, if_neg fun hx => P.dst_ne_whSrc hx.2.symm, h.whSrc]
  · rw [if_neg fun hx => P.src_ne_dst hx.2.symm, if_pos ⟨rfl, rfl⟩]
  · rw [if_neg fun hx => P.src_ne_whDst hx.2.symm, if_neg fun hx => P.dst_ne_whDst hx.2.symm, h.whDst]
  · rw [if_neg fun hx => hq ⟨hx.1, .inl hx.2⟩, if_neg fun hx => hq ⟨hx.1, .inr (.inr (.inl hx.2))⟩, h.others x q hq]

-- ---------------------------------------------------------------------------
-- The ways back
-- ---------------------------------------------------------------------------

variable {m m' m₁ : Mount} {sb : SuperBlock} {a : RenameArgs} {b s : Int} {wh : Option HDentry} {e : Errno}

/-- A step has failed since `m`, and the four paths are these, or a second step has failed. -/
def Mount.Undoing (P : RenamePaths) (r : Nat) (m m' : Mount) (S WS D WD : Option HInode) : Prop :=
  m.fails + 2 ≤ m'.fails ∨ Places P r m.w m'.w S WS D WD ∧ m.fails < m'.fails

theorem Mount.Undoing.lt (h : Mount.Undoing P r m m' S WS D WD) : m.fails < m'.fails := by
  rcases h with h | h
  · omega
  · exact h.2

/-- A step back that fails is the second one. -/
theorem Mount.Undoing.again (h : Mount.Undoing P r m m' S WS D WD) {T WT E WE : Option HInode} (hlt : m'.fails < m₁.fails) :
    Mount.Undoing P r m m₁ T WT E WE := by
  have := h.lt
  exact .inl (by omega)

/-- A step back that succeeds. -/
theorem Mount.Undoing.step (h : Mount.Undoing P r m m' S WS D WD) {T WT E WE : Option HInode} (hle : m'.fails ≤ m₁.fails)
    (hplaces : Places P r m.w m'.w S WS D WD → Places P r m.w m₁.w T WT E WE) : Mount.Undoing P r m m₁ T WT E WE :=
  h.imp hle.trans' fun h => ⟨hplaces h.1, h.2.trans_le hle⟩

theorem wp_reverting {op : Op Unit} {Q : Errno → Mount → Prop} {E : Errno → Mount → Prop}
    (h : wp op (fun _ m' => ∀ e, Q e m') (fun _ m' => ∀ e, Q e m') m) : wp (reverting e op) Q E m := by
  refine wp_bind.mpr (wp_attempt.mpr (h.mono (fun _ m' hm' => wp_pure.mpr (hm' _)) fun _ m' hm' => wp_pure.mpr (hm' _)))

/-- The whiteout of the old name. -/
def WhSrc (P : RenamePaths) (r : Nat) (wh : Option HDentry) (WS : Option HInode) : Prop :=
  (wh = none ∧ WS = none) ∨ ∃ x, wh = some x ∧ x.root = r ∧ x.path = P.whSrc

theorem wp_outWhsrc (hwh : WhSrc P r wh WS) (h : Mount.Undoing P r m m' S WS D WD) :
    wp (outWhsrc P.src P.dst wh e) (fun _ _ => False) (fun _ m'' => Mount.Undoing P r m m'' S none D WD) m' := by
  rcases hwh with ⟨rfl, rfl⟩ | ⟨x, rfl, hroot, hpath⟩
  · exact wp_bind.mpr (wp_pure.mpr (wp_bind.mpr (wp_onDinfo.mpr (wp_fail.mpr h))))
  · refine wp_bind.mpr (wp_reverting (wp_bind.mpr (wp_vfsubUnlink (fun w i _ _ hsets => ?_) fun e w _ => ?_)))
    · rw [hroot, hpath] at hsets
      exact fun _ => wp_bind.mpr (wp_onDinfo.mpr (wp_fail.mpr (h.step le_rfl fun hp => hp.setWhSrc hsets)))
    · exact fun _ => wp_bind.mpr (wp_onDinfo.mpr (wp_fail.mpr (h.again (Nat.lt_succ_self _))))

theorem wp_outWhtmp (hwh : WhSrc P r wh WS) (h : Mount.Undoing P r m m' S WS D WD) :
    wp (outWhtmp a P.src P.dst none wh e) (fun _ _ => False) (fun _ m'' => Mount.Undoing P r m m'' S none D WD) m' :=
  wp_bind.mpr (wp_pure.mpr (wp_outWhsrc hwh h))

/-- The hidden parents and the hidden dentry of the new name lie on the branch, and the entry is no directory. -/
structure RenameArgs.For (a : RenameArgs) (P : RenamePaths) (b s : Int) (r : Nat) : Prop where
  btgt : a.btgt = b
  bstartSrc : a.bstartSrc = s
  parentSrc : a.parentSrc.root = r ∧ a.parentSrc.path = P.sdir
  parentDst : a.parentDst.root = r ∧ a.parentDst.path = P.ddir
  hiddenDst : a.hiddenDst.root = r ∧ a.hiddenDst.path = P.dst
  file : a.isdir = false

/-- The entry has its new name: it was copied there, or renamed. -/
structure Mount.Moved (P : RenamePaths) (b : Int) (r : Nat) (i : HInode) (bycpup : Bool) (m m₁ : Mount)
    (S WS D WD : Option HInode) : Prop where
  moved : ∃ j, j.isDir = false ∧ j.mode = i.mode ∧ j.data = i.data ∧
    Places P r m.w m₁.w (if bycpup then S else none) WS (some j) WD ∧
    (bycpup = false → S = some j ∧ (m₁.di P.src).hDptrI b = some ⟨r, P.dst, some j⟩)
  fails : m.fails ≤ m₁.fails

/-- The entry goes back, or its copy is removed. -/
theorem wp_outDiropq {bycpup : Bool} (ha : a.For P b s r) (hwh : WhSrc P r wh WS)
    (hmoved : Mount.Moved P b r i bycpup m m₁ S WS D WD) (hfails : m₁.fails < m'.fails) (hnode : m'.w.node = m₁.w.node)
    (hdi : m'.di P.src = m₁.di P.src) :
    wp (outDiropq a P.src P.dst false bycpup none wh e) (fun _ _ => False)
      (fun _ m'' => Mount.Undoing P r m m'' S none none WD) m' := by
  obtain ⟨⟨j, hfile, -, -, hplaces, hback⟩, hle⟩ := hmoved
  refine wp_bind.mpr (wp_pure.mpr ?_)
  have hplaces' := hplaces.congr hnode
  cases bycpup with
  | true =>
    have hund : Mount.Undoing P r m m' S WS (some j) WD := .inr ⟨hplaces', hle.trans_lt hfails⟩
    refine wp_bind.mpr (wp_reverting (wp_vfsubUnlink (fun w k _ _ hsets => ?_) fun e w _ => ?_))
    · rw [ha.hiddenDst.1, ha.hiddenDst.2] at hsets
      refine fun _ => wp_bind.mpr (wp_onDinfo.mpr (wp_outWhtmp hwh ?_))
      exact hund.step le_rfl fun hp => hp.setDst hsets
    · exact fun _ => wp_bind.mpr (wp_onDinfo.mpr (wp_outWhtmp hwh (hund.again (Nat.lt_succ_self _))))
  | false =>
    obtain ⟨rfl, hslot⟩ := hback rfl
    have hund : Mount.Undoing P r m m' none WS (some j) WD := .inr ⟨hplaces', hle.trans_lt hfails⟩
    refine wp_bind.mpr (wp_reverting (wp_bind.mpr (wp_lkupOne (fun w hw => ?_) fun e w _ => ?_)))
    rotate_left
    · exact fun _ => wp_outWhtmp hwh (hund.again (Nat.lt_succ_self _))
    refine wp_bind.mpr (wp_hDptrI (fun h hh => ?_) fun _ => fun _ => wp_outWhtmp hwh (hund.again (Nat.lt_succ_self _)))
    have hh : (m'.di P.src).hDptrI a.btgt = some h := hh
    rw [hdi, ha.btgt, hslot] at hh
    obtain rfl := Option.some.inj hh
    refine wp_bind.mpr (wp_vfsubRename (fun w' _ hmoves => wp_onDinfo.mpr fun _ => wp_outWhtmp hwh ?_) fun e w' _ => ?_)
    · rw [RenamePaths.dName_src, ha.parentSrc.1, ha.parentSrc.2] at hmoves
      exact hund.step le_rfl fun hp => (hp.congr (World.node_congr hw)).moveBack hmoves hfile
    · exact fun _ => wp_outWhtmp hwh (hund.again (Nat.lt_succ_self _))

-- ---------------------------------------------------------------------------
-- The entry
-- ---------------------------------------------------------------------------

/-- What the entry is before it moves: a file of the branch, or one of a lower branch only. -/
def Mount.SourceReady (P : RenamePaths) (b s : Int) (r : Nat) (i : HInode) (m : Mount) (S D : Option HInode) : Prop :=
  (∃ k, (m.di P.src).bstart = b ∧ (m.di P.src).hDptrI b = some ⟨r, P.src, some k⟩ ∧ S = some k ∧ k.isDir = false ∧
      k.mode = i.mode ∧ k.data = i.data ∧ ∀ j, D = some j → j.ino ≠ k.ino) ∨
    ∃ h, m.FileAt P.src b s h i

/-- The entry moves or is copied, or nothing has changed. -/
theorem wp_moveEntry {bycpup : Bool} (ha : a.For P b s r) (hb : 0 ≤ b) (hfile : i.isDir = false)
    (hplaces : Places P r m.w m'.w S WS D WD) (hfails : m.fails ≤ m'.fails) (hready : m'.SourceReady P b s r i S D)
    (hby : bycpup = decide ((m'.di P.src).bstart ≠ b)) :
    wp (if bycpup then cpupAs a P.src sb else renameOn a P.src)
      (fun _ m₁ => Mount.Moved P b r i bycpup m m₁ S WS D WD)
      (fun _ m₁ => Mount.Undoing P r m m₁ S WS D WD) m' := by
  rcases hready with ⟨k, hstart, hslot, rfl, hk, hmode, hdata, hapart⟩ | ⟨h, hends, hfirst, hlt, hslot, hinode, hfree⟩
  · obtain rfl : bycpup = false := by rw [hby, hstart, decide_eq_false (not_not.mpr rfl)]
    refine wp_bind.mpr (wp_hDptrI (fun h hh => ?_) fun _ => .inr ⟨hplaces, Nat.lt_succ_of_le hfails⟩)
    rw [ha.btgt, hslot] at hh
    obtain rfl := Option.some.inj hh
    refine wp_bind.mpr (wp_vfsubRename (fun w _ hmoves => wp_onDinfo.mpr ⟨⟨k, hk, hmode, hdata, ?_, fun _ => ⟨rfl, ?_⟩⟩, hfails⟩)
      fun e w hw => .inr ⟨hplaces.congr (World.node_congr hw), Nat.lt_succ_of_le hfails⟩)
    · rw [ha.hiddenDst.1, ha.hiddenDst.2] at hmoves
      exact hplaces.move hmoves hk hapart
    · have hrange := Dinfo.range_of_hDptrI hslot
      rw [Mount.setDi_di, Function.update_self, Dinfo.hDptrI_of_le (by exact hrange.1) (by exact hrange.2), ha.btgt,
        ha.hiddenDst.2]
      exact Function.update_self ..
  · obtain rfl : bycpup = true := by rw [hby, hfirst, decide_eq_true hlt.ne']
    refine wp_bind.mpr (wp_onDinfo.mpr (wp_bind.mpr (wp_attempt.mpr ?_)))
    -- the dentry with the new name in its first slot
    generalize hm₁ : m'.setDi P.src { (m'.di P.src).setHDptr a.btgt (some a.hiddenDst) with bstart := a.btgt } = m₁
    have hself : m₁.di P.src = { (m'.di P.src).setHDptr b (some a.hiddenDst) with bstart := b } := by
      rw [← hm₁, Mount.setDi_di, Function.update_self, ha.btgt]
    have hnode₁ : m₁.w.node = m'.w.node := by rw [← hm₁]; rfl
    have hfails₁ : m₁.fails = m'.fails := by rw [← hm₁]; rfl
    have hdst : (m₁.di P.src).hDptrI b = some a.hiddenDst := by
      rw [hself, Dinfo.hDptrI_of_le (by exact hb) (by exact le_rfl)]
      exact Function.update_self ..
    have hsrc : (m₁.di P.src).hDptrI s = some h := by
      rw [hself, Dinfo.hDptrI_of_le (by exact hb) (by exact hlt.le), ← hslot]
      exact Function.update_of_ne hlt.ne' ..
    have hfree₁ : m₁.hi P.src b = none := by
      rw [← hm₁]
      exact hfree
    rw [ha.btgt, ha.bstartSrc]
    refine (wp_cpupSingle_file hsrc hinode hdst hfree₁).mono ?_ ?_
    · rintro _ m₂ ⟨j, hcopied, -, -⟩
      have hsets := hcopied.sets
      rw [ha.hiddenDst.1, ha.hiddenDst.2] at hsets
      have hle := hcopied.fails
      refine wp_pure.mpr ⟨⟨j, ?_, hcopied.mode, hcopied.data, ?_, fun hno => by cases hno⟩, by omega⟩
      · rw [HInode.isDir, hcopied.mode]
        exact hfile
      · exact (hplaces.congr hnode₁).setDst hsets
    · rintro err m₂ ⟨-, hlt₂, hkept, -⟩
      refine wp_bind.mpr (wp_onDinfo.mpr (wp_fail.mpr ?_))
      refine hkept.elim (fun hsame => .inr ⟨hplaces.congr (hsame.trans hnode₁), ?_⟩) fun hle => .inl ?_
      · show m.fails < m₂.fails
        omega
      · show m.fails + 2 ≤ m₂.fails
        omega

/-- The entry is copied up under its old name first, where something has the new one. -/
theorem wp_firstCopy (ha : a.For P b s r) (hb : 0 ≤ b) (hfile : i.isDir = false)
    (hplaces : Places P r m.w m'.w S WS D WD) (hfails : m.fails ≤ m'.fails) (hready : m'.SourceReady P b s r i S D)
    (hparent : ∀ x, (m'.di P.sdir).hDptrI b = some x → x.root = r ∧ x.path = P.sdir) (hlow : b ≠ s → ∃ h, m'.FileAt P.src b s h i) :
    wp (if a.hiddenDst.positive && a.bstartSrc ≠ a.btgt then cpupSimple sb P.src a.btgt else pure ())
      (fun _ m₁ => ∃ T, Places P r m.w m₁.w T WS D WD ∧ m.fails ≤ m₁.fails ∧ m₁.SourceReady P b s r i T D ∧
        (T = S ∨ b < s ∧ ∃ j, T = some j ∧ j.isDir = false ∧ j.mode = i.mode ∧ j.data = i.data))
      (fun _ m₁ => Mount.Undoing P r m m₁ S WS D WD) m' := by
  refine wp_ite.mpr ⟨fun hc => ?_, fun _ => wp_pure.mpr ⟨S, hplaces, hfails, hready, .inl rfl⟩⟩
  rw [Bool.and_eq_true, decide_eq_true_eq, ha.bstartSrc, ha.btgt] at hc
  obtain ⟨h, hat⟩ := hlow fun heq => hc.2 heq.symm
  rw [ha.btgt]
  have hcopy : wp (cpupSimple sb (P.sdir ++ [P.sname]) b) _ _ m' := wp_cpupSimple_file hat hb hparent
  refine hcopy.mono ?_ ?_
  · rintro _ m₁ ⟨j, hcopied, -, hstart, hslot⟩
    have hj : j.isDir = false := by
      rw [HInode.isDir, hcopied.mode]
      exact hfile
    have hplaces₁ := hplaces.setSrc hcopied.sets
    refine ⟨some j, hplaces₁, hfails.trans hcopied.fails, .inl ⟨j, hstart, hslot, rfl, hj, hcopied.mode, hcopied.data, ?_⟩,
      .inr ⟨hat.above, j, rfl, hj, hcopied.mode, hcopied.data⟩⟩
    exact fun k hk => hcopied.single P.dst k j P.src_ne_dst.symm (hplaces₁.dst.trans hk) hplaces₁.src
  · rintro err m₁ ⟨-, hlt, hkept⟩
    refine hkept.elim (fun hsame => .inr ⟨hplaces.congr hsame, hfails.trans_lt hlt⟩) fun hle => .inl ?_
    omega

-- ---------------------------------------------------------------------------
-- do_rename
-- ---------------------------------------------------------------------------

variable {whDst : Option HDentry}

/-- A copy of the file. -/
def CopyOfFile (i : HInode) (T : Option HInode) : Prop := ∃ j, T = some j ∧ j.isDir = false ∧ j.mode = i.mode ∧ j.data = i.data

/-- The rename is done: the new name has the file, and the old one has its whiteout or is gone. `m` is the mount before
the whiteouts were touched. -/
structure Mount.Renames (P : RenamePaths) (b s : Int) (r : Nat) (i : HInode) (m m' : Mount) (WS WD : Option HInode) : Prop where
  done : ∃ T E, CopyOfFile i E ∧ Places P r m.w m'.w T WS E WD ∧ (b = s → T = none)

/-- What is left when the rename has failed: the old name has no whiteout, and may have a copy of the file on a branch
above. What is missing under the new name had been hidden by its whiteout. -/
structure Mount.NotRenamed (P : RenamePaths) (b s : Int) (r : Nat) (i : HInode) (hid : Bool) (m m' : Mount)
    (S D WD : Option HInode) : Prop where
  undone : ∃ T E, Mount.Undoing P r m m' T none E WD ∧ (T = S ∨ b < s ∧ CopyOfFile i T) ∧ (E = D ∨ hid = true)

/-- The whiteout of the new name. -/
def WhDst (P : RenamePaths) (r : Nat) (wh : Option HDentry) : Prop := ∀ x ∈ wh, x.root = r ∧ x.path = P.whDst

theorem wp_renameEntry (ha : a.For P b s r) (hb : 0 ≤ b) (hfile : i.isDir = false)
    (hplaces : Places P r m.w m'.w S WS D WD) (hfails : m.fails ≤ m'.fails) (hready : m'.SourceReady P b s r i S D)
    (hparent : ∀ x, (m'.di P.sdir).hDptrI b = some x → x.root = r ∧ x.path = P.sdir) (hlow : b ≠ s → ∃ h, m'.FileAt P.src b s h i)
    (hwh : WhSrc P r wh WS) (hwhDst : WhDst P r whDst) :
    wp (renameEntry a P.src P.dst sb none wh whDst)
      (fun _ m'' => Mount.Renames P b s r i m m'' WS (if whDst.isSome then none else WD))
      (fun _ m'' => Mount.NotRenamed P b s r i whDst.isSome m m'' S D WD) m' := by
  refine wp_bind.mpr (wp_attempt.mpr ((wp_firstCopy ha hb hfile hplaces hfails hready hparent hlow).mono ?_ ?_))
  rotate_left
  · intro err m₁ hund
    refine (wp_outWhtmp hwh hund).mono (fun _ _ => False.elim) fun _ _ h => ⟨_, _, h, .inl rfl, .inl rfl⟩
  rintro _ m₁ ⟨T, hplaces₁, hfails₁, hready₁, hT⟩
  refine wp_bind.mpr (wp_state.mpr ?_)
  simp only [ha.file, Bool.false_and, Bool.false_eq_true, if_false]
  rw [ha.btgt]
  generalize hby : decide ((m₁.di P.src).bstart ≠ b) = bycpup
  refine wp_bind.mpr (wp_attempt.mpr ((wp_moveEntry ha hb hfile hplaces₁ hfails₁ hready₁ hby.symm).mono ?_ ?_))
  rotate_left
  · intro err m₂ hund
    exact (wp_outWhtmp hwh hund).mono (fun _ _ => False.elim) fun _ _ h => ⟨_, _, h, hT, .inl rfl⟩
  intro _ m₂ hmoved
  refine wp_bind.mpr (wp_attempt.mpr (wp_pure.mpr ?_))
  -- on the branch of the file it is renamed in place
  have hsame : b = s → bycpup = false := by
    rintro rfl
    rcases hready₁ with ⟨k, hstart, -⟩ | ⟨h, hat⟩
    · rw [← hby, hstart]
      exact decide_eq_false (not_not.mpr rfl)
    · exact absurd hat.above (lt_irrefl b)
  obtain ⟨⟨j, hj, hmode, hdata, hplaces₂, hback⟩, hfails₂⟩ := id hmoved
  have hdone : ∀ {m₃ : Mount} {WD' : Option HInode},
      Places P r m.w m₃.w (if bycpup then T else none) WS (some j) WD' → Mount.Renames P b s r i m m₃ WS WD' := fun hp =>
    ⟨_, _, ⟨j, rfl, hj, hmode, hdata⟩, hp, fun heq => by rw [hsame heq]; rfl⟩
  cases whDst with
  | none => exact wp_bind.mpr (wp_attempt.mpr (wp_pure.mpr (wp_pure.mpr (hdone hplaces₂))))
  | some x =>
    obtain ⟨hroot, hpath⟩ := hwhDst x rfl
    refine wp_bind.mpr (wp_attempt.mpr (wp_bind.mpr (wp_vfsubUnlink (fun w k _ _ hsets => ?_) fun err w hw => ?_)))
    · rw [hroot, hpath] at hsets
      exact wp_onDinfo.mpr (wp_pure.mpr (hdone (hplaces₂.setWhDst hsets)))
    · have hundo : wp (outDiropq a P.src P.dst false bycpup none wh err) _ _ (m₂.failed w) :=
        wp_outDiropq ha hwh hmoved (Nat.lt_succ_self _) (World.node_congr hw) rfl
      exact hundo.mono (fun _ _ => False.elim) fun _ _ h => ⟨_, _, h, hT, .inr rfl⟩

/-- The slots of the dentry and its inode are what matters. -/
theorem Mount.FileAt.congr {p : Path} {h : HDentry} (hat : m.FileAt p b s h i) (hsame : m.SameSlots m' p)
    (hhi : m'.hi p = m.hi p) : m'.FileAt p b s h i := by
  obtain ⟨hslots, hstart, hend⟩ := hsame
  refine ⟨⟨hstart ▸ hat.nonneg, ?_, ?_, fun c hc => ?_⟩, hstart.trans hat.first, hat.above, hslots ▸ hat.slot, hat.inode, ?_⟩
  · rw [hslots, hstart]
    exact hat.start
  · rw [hslots, hend]
    exact hat.last
  · rw [hslots] at hc
    rw [hstart, hend]
    exact hat.range c hc
  · rw [hhi]
    exact hat.free

theorem Mount.SourceReady.congr (h : m.SourceReady P b s r i S D) (hsame : m.SameSlots m' P.src)
    (hhi : m'.hi P.src = m.hi P.src) : m'.SourceReady P b s r i S D := by
  refine h.imp (fun ⟨k, hk, hslot, hrest⟩ => ⟨k, hsame.bstart.trans hk, ?_, hrest⟩) fun ⟨x, hat⟩ => ⟨x, hat.congr hsame hhi⟩
  rw [← hslot, Dinfo.hDptrI, Dinfo.hDptrI, hsame.bstart, hsame.hdentry]

/-- `do_rename` from the whiteout of the new name on. `m` is the mount before the whiteouts were touched. -/
theorem wp_renameFrom (ha : a.For P b s r) (hb : 0 ≤ b) (hfile : i.isDir = false)
    (hplaces : Places P r m.w m'.w S WS D WD) (hfails : m.fails ≤ m'.fails) (hready : m'.SourceReady P b s r i S D)
    (hparent : ∀ x, (m'.di P.sdir).hDptrI b = some x → x.root = r ∧ x.path = P.sdir) (hlow : b ≠ s → ∃ h, m'.FileAt P.src b s h i)
    (hwh : WhSrc P r wh WS) :
    wp (renameFrom a P.src P.dst sb false wh)
      (fun _ m'' => Mount.Renames P b s r i m m'' WS (if a.whdst then none else WD))
      (fun _ m'' => Mount.NotRenamed P b s r i (a.whdst && WD.isSome) m m'' S D WD) m' := by
  cases hd : a.whdst with
  | false =>
    unfold renameFrom
    rw [hd]
    refine wp_bind.mpr (wp_attempt.mpr (wp_pure.mpr ?_))
    have hno : WhDst P r none := fun x hx => by cases hx
    exact wp_renameEntry ha hb hfile hplaces hfails hready hparent hlow hwh hno
  | true =>
    unfold renameFrom
    rw [hd]
    refine wp_bind.mpr (wp_attempt.mpr (wp_bind.mpr (wp_lkupWh (fun w hw => wp_pure.mpr ?_) fun err w hw => ?_)))
    · rw [RenamePaths.dName_dst, ha.parentDst.1, ha.parentDst.2]
      have hwd : m'.w.node r (P.ddir ++ [whName P.dname]) = WD := hplaces.whDst
      rw [hwd]
      have hplaces' := hplaces.congr (World.node_congr hw)
      have hready' : Mount.SourceReady P b s r i { m' with w } S D := hready.congr ⟨rfl, rfl, rfl⟩ rfl
      have hlow' : b ≠ s → ∃ h, Mount.FileAt { m' with w } P.src b s h i := fun hne =>
        (hlow hne).imp fun _ hat => hat.congr ⟨rfl, rfl, rfl⟩ rfl
      have hrun : ∀ d, WhDst P r d → wp (renameEntry a P.src P.dst sb none wh d)
          (fun _ m'' => Mount.Renames P b s r i m m'' WS (if d.isSome then none else WD))
          (fun _ m'' => Mount.NotRenamed P b s r i d.isSome m m'' S D WD) { m' with w } := fun d hd =>
        wp_renameEntry ha hb hfile hplaces' hfails hready' hparent hlow' hwh hd
      cases WD with
      | none => exact hrun none fun x hx => by cases hx
      | some k =>
        refine hrun (some ⟨r, P.whDst, some k⟩) fun x hx => ?_
        obtain rfl := Option.some.inj hx
        exact ⟨rfl, rfl⟩
    · refine (wp_outWhsrc hwh (.inr ⟨hplaces.congr (World.node_congr hw), Nat.lt_succ_of_le hfails⟩)).mono
        (fun _ _ => False.elim) fun _ _ h => ⟨_, _, h, .inl rfl, .inl rfl⟩

/-- `do_rename` of a file. -/
theorem wp_doRename {br : Branch} (ha : a.For P b s br.root) (hbr : sb.stobr b = some br) (hfile : i.isDir = false)
    (hready : m.SourceReady P b s br.root i (m.w.node br.root P.src) (m.w.node br.root P.dst))
    (hparent : ∀ x, (m.di P.sdir).hDptrI b = some x → x.root = br.root ∧ x.path = P.sdir)
    (hlow : b ≠ s → ∃ h, m.FileAt P.src b s h i) (hno : m.w.node br.root P.whSrc = none) :
    wp (doRename a P.src P.dst sb)
      (fun _ m' => ∃ WS, Mount.Renames P b s br.root i m m' WS (if a.whdst then none else m.w.node br.root P.whDst) ∧
        (a.whsrc = true → WS.isSome) ∧ (a.whsrc = false → WS = none))
      (fun _ m' => Mount.NotRenamed P b s br.root i (a.whdst && (m.w.node br.root P.whDst).isSome) m m'
        (m.w.node br.root P.src) (m.w.node br.root P.dst) (m.w.node br.root P.whDst)) m := by
  have hb := (SuperBlock.range_of_stobr hbr).1
  have hstart : Places P br.root m.w m.w (m.w.node br.root P.src) none (m.w.node br.root P.dst) (m.w.node br.root P.whDst) :=
    hno ▸ Places.refl P br.root m.w
  have hwas : m.w.node a.parentSrc.root (a.parentSrc.path ++ [whName (dName P.src)]) = none := by
    rw [ha.parentSrc.1, ha.parentSrc.2, RenamePaths.dName_src]
    exact hno
  unfold doRename
  simp only [ha.file, Bool.false_and, Bool.false_eq_true, if_false]
  refine wp_bind.mpr (wp_ite.mpr ⟨fun hneed => ?_, fun hneed => wp_pure.mpr ?_⟩)
  · rw [ha.btgt]
    refine wp_bind.mpr (wp_simpleCreateWh hbr (fun h w _ _ hsome hold _ => ?_)
      (fun h w k v hroot hpath _ _ hk _ hsets => wp_pure.mpr ?_) fun e w k hk hfs => ?_)
    · rw [← hold, hwas] at hsome
      cases hsome
    · rw [ha.parentSrc.1, ha.parentSrc.2, RenamePaths.dName_src] at hsets
      rw [ha.parentSrc.1] at hroot
      rw [ha.parentSrc.2, RenamePaths.dName_src] at hpath
      generalize hm₁ : (m.withWorld w k).setDi P.src { m.di P.src with bwh := b } = m₁
      have hw₁ : m₁.w = w := by rw [← hm₁]; rfl
      have hdi₁ : m₁.di P.src = { m.di P.src with bwh := b } := by rw [← hm₁, Mount.setDi_di, Function.update_self]
      have hdir₁ : m₁.di P.sdir = m.di P.sdir := by
        rw [← hm₁, Mount.setDi_di]
        exact Function.update_of_ne (ne_concat_of_within (List.prefix_refl P.sdir)) ..
      have hhi₁ : m₁.hi = m.hi := by rw [← hm₁]; rfl
      have hplaces : Places P br.root m.w m₁.w (m.w.node br.root P.src) (some v) (m.w.node br.root P.dst)
          (m.w.node br.root P.whDst) := hw₁ ▸ hstart.setWhSrc hsets
      have hsame : m.SameSlots m₁ P.src := ⟨by rw [hdi₁], by rw [hdi₁], by rw [hdi₁]⟩
      have hself : m₁.hi P.src = m.hi P.src := by rw [hhi₁]
      refine (wp_renameFrom ha hb hfile hplaces (by rw [← hm₁]; exact hk) (hready.congr hsame hself) (hdir₁ ▸ hparent)
        (fun hne => (hlow hne).imp fun _ hat => hat.congr hsame hself) (.inr ⟨h, rfl, hroot, hpath⟩)).mono
        (fun _ _ h => ⟨_, h, fun _ => rfl, fun hno => by rw [hneed] at hno; cases hno⟩) fun _ _ h => h
    · exact ⟨_, _, .inr ⟨hstart.congr (World.node_congr hfs), hk⟩, .inl rfl, .inl rfl⟩
  · refine (wp_renameFrom ha hb hfile hstart le_rfl hready hparent hlow (.inl ⟨rfl, rfl⟩)).mono
      (fun _ _ h => ⟨_, h, fun hyes => absurd hyes hneed, fun _ => rfl⟩) fun _ _ h => h

end Aufs
