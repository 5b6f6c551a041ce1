-- SUMMARY: The branch array, the root's hidden dentries and hidden inodes side by side, and the list of branches they hold.
import Mathlib.Algebra.Group.Nat.Defs
import Mathlib.Data.List.Perm.Basic
import Aufs.XinoFiles
import Aufs.Lib.Cells
import Aufs.Lib.Counter

/-!
# The branch table

The branches of a mount live in three arrays with an end of their own each: `si_branch` of
the super block, `di_hdentry` of the root dentry and `ii_hinode` of the root inode. Here are
the arrays as the branch operations find them, the list of branches that they are meant to
hold, and the numbers that branches are known by.
-/

namespace Aufs

-- ---------------------------------------------------------------------------
-- The build and the hidden file systems
-- ---------------------------------------------------------------------------

/-- `CONFIG_AUFS_BRANCH_MAX_*` -/
inductive BranchMax where
  | max127 | max511 | max1023 | max32767
  deriving DecidableEq, Repr

/-- `AUFS_BRANCH_MAX` -/
def BranchMax.val : BranchMax → Nat
  | .max127 => 127
  | .max511 => 511
  | .max1023 => 1023
  | .max32767 => 32767

/-- The width of `aufs_bindex_t`, a `char` or a `short`. -/
def BranchMax.bits : BranchMax → Nat
  | .max127 => 8
  | .max511 | .max1023 | .max32767 => 16

/-- A number as an `aufs_bindex_t`. -/
def BranchMax.toBindex (m : BranchMax) (n : Int) : Int := n.bmod (2 ^ m.bits)

/-- An error number that a call below returns. -/
abbrev LowerErrno := { err : Errno // err ≠ .oops }

/-- A hidden dentry in the tree of its super block: its names up to the root, the nearest
first. -/
structure HiddenDentry where
  dSb : Nat
  names : List Name
  deriving DecidableEq, Repr

/-- What the branch operations ask of a hidden super block. `nested` holds for aufs and
unionfs; `loop` is the file behind a loop device. -/
structure HiddenSb where
  sMaxbytes : Nat
  nested : Bool
  nfs : Bool
  loop : Option HiddenDentry
  deriving DecidableEq, Repr

/-- What stays the same over a run: the build, the number of the aufs super block among all
super blocks, and the hidden super blocks. -/
structure Host where
  branchMax : BranchMax
  long : LongSize
  /-- `AuNoNfsBranch` -/
  noNfs : Bool
  /-- `CONFIG_BLK_DEV_LOOP` -/
  blkDevLoop : Bool
  self : Nat
  sb : Nat → HiddenSb

-- ---------------------------------------------------------------------------
-- The arrays
-- ---------------------------------------------------------------------------

/-- Where an xino file was created. -/
structure XinoPlace where
  dir : HiddenDentry
  name : Name
  deriving DecidableEq, Repr

/-- An open xino file. `hasRead` and `hasWrite` say what `find_readf` and `find_writef`
find in its `f_op`. -/
structure XFile where
  id : Nat
  place : XinoPlace
  hasRead : Bool
  hasWrite : Bool
  deriving DecidableEq, Repr

/-- `struct aufs_branch`. `brXinoRead` and `brXinoWrite` say whether a function was found,
`brWh` and `brPlink` whether the dentry is there. -/
structure AufsBranch where
  brXino : Option XFile
  brXinoRead : Bool
  brXinoWrite : Bool
  brId : Int
  brPerm : BrPerm
  brMntSb : Nat
  brCount : Int
  brWh : Bool
  brPlink : Bool
  deriving DecidableEq, Repr

/-- A hidden inode as a pointer. -/
structure HiddenInode where
  iSb : Nat
  iIno : Nat
  deriving DecidableEq, Repr

/-- `struct aufs_hinode`, a cell of `ii_hinode` -/
structure HinodeCell where
  hiInode : Option HiddenInode
  hiId : Int
  deriving DecidableEq, Repr

/-- `struct aufs_sbinfo`, with what the branch operations change of the super block, the
root dentry and the root inode. An array is the list of its allocated cells. `files` holds
the bytes of the xino files, and `nextFile` the number the next one gets. -/
structure Sbinfo where
  siBranch : List (Option AufsBranch)
  siBend : Int
  siLastBrId : Int
  diHdentry : List (Option HiddenDentry)
  diBstart : Int
  diBend : Int
  iiHinode : List HinodeCell
  iiBstart : Int
  iiBend : Int
  sMaxbytes : Nat
  /-- `AuFlag_XINO` -/
  xino : Bool
  /-- `AuFlag_PLINK` -/
  plink : Bool
  files : Files
  nextFile : Nat

namespace Sbinfo

/-- The state before the first branch is added: `aufs_fill_super` with `alloc_sbinfo` and
`alloc_root`. Each array has one cell. -/
def init (xino plink : Bool) : Sbinfo where
  siBranch := [none]
  siBend := -1
  siLastBrId := 0
  diHdentry := [none]
  diBstart := -1
  diBend := -1
  iiHinode := [⟨none, -1⟩]
  iiBstart := -1
  iiBend := -1
  sMaxbytes := 0
  xino := xino
  plink := plink
  files := fun _ => []
  nextFile := 0

variable (st : Sbinfo)

/-- `stobr` -/
def stobr (bindex : Int) : Option AufsBranch :=
  if 0 ≤ bindex then (st.siBranch[bindex.toNat]?).join else none

/-- `au_h_dptr_i` of the root -/
def hDptrI (bindex : Int) : Option HiddenDentry :=
  if st.diBstart < 0 ∨ bindex < st.diBstart then none else (st.diHdentry[bindex.toNat]?).join

/-- The hidden inode slot of the root. -/
def hinode (bindex : Int) : Option HinodeCell :=
  if 0 ≤ bindex then st.iiHinode[bindex.toNat]? else none

/-- `find_brindex` -/
def findBrindex (brId : Int) : Int :=
  ((bindexes 0 st.siBend).find? fun bindex => (st.stobr bindex).any (·.brId = brId)).getD (-1)

/-- `au_find_dbindex` of the root -/
def findDbindex (d : HiddenDentry) : Int :=
  ((bindexes st.diBstart st.diBend).find? fun bindex => st.hDptrI bindex = some d).getD (-1)

/-- Change the branch at an index. -/
def setBranch (bindex : Int) (f : AufsBranch → AufsBranch) : Sbinfo :=
  { st with siBranch := st.siBranch.modify bindex.toNat (Option.map f) }

end Sbinfo

/-- `new_br_id`: the counter is stepped until it is not zero and no branch has its value.
Nothing is returned if it runs for ever. -/
def Host.newBrId (h : Host) (st : Sbinfo) : Option (Int × Sbinfo) :=
  (Counter.search (fun brId => h.branchMax.toBindex (brId + 1))
    (fun brId => brId ≠ 0 && st.findBrindex brId < 0) (2 ^ h.branchMax.bits) st.siLastBrId).map
      fun brId => (brId, { st with siLastBrId := brId })

-- ---------------------------------------------------------------------------
-- Overlapping branches
-- ---------------------------------------------------------------------------

namespace HiddenDentry

/-- The loop of `do_is_overlap`, on the names of the dentry it has reached. The parent of a
root is the root itself. -/
def climb (sb : Nat) (d2 : HiddenDentry) : List Name → Bool
  | [] => decide (⟨sb, []⟩ = d2)
  | n :: ns =>
    if ⟨sb, n :: ns⟩ = d2 then true
    else if ns = [] then decide (⟨sb, []⟩ = d2)
    else climb sb d2 ns

/-- `do_is_overlap` -/
def doIsOverlap (d1 d2 : HiddenDentry) : Bool := climb d1.dSb d2 d1.names

/-- The second dentry is the first one or above it. -/
def Below (d1 d2 : HiddenDentry) : Prop := d1.dSb = d2.dSb ∧ d2.names <:+ d1.names

instance (d1 d2 : HiddenDentry) : Decidable (d1.Below d2) := inferInstanceAs (Decidable (_ ∧ _))

/-- Neither of two dentries is the other one or above it. -/
def Apart (d1 d2 : HiddenDentry) : Prop := ¬d1.Below d2 ∧ ¬d2.Below d1

instance (d1 d2 : HiddenDentry) : Decidable (d1.Apart d2) := inferInstanceAs (Decidable (_ ∧ _))

theorem Apart.symm {d1 d2 : HiddenDentry} (h : d1.Apart d2) : d2.Apart d1 := ⟨h.2, h.1⟩

theorem below_refl (d : HiddenDentry) : d.Below d := ⟨rfl, List.suffix_refl _⟩

theorem climb_iff {sb : Nat} {d2 : HiddenDentry} {ns : List Name} :
    climb sb d2 ns = true ↔ sb = d2.dSb ∧ d2.names <:+ ns := by
  have heq : ∀ ms, (⟨sb, ms⟩ : HiddenDentry) = d2 ↔ sb = d2.dSb ∧ ms = d2.names := by
    intro ms
    obtain ⟨sb', ms'⟩ := d2
    exact HiddenDentry.mk.injEq ..  ▸ Iff.rfl
  induction ns with
  | nil => rw [climb, decide_eq_true_eq, heq, List.suffix_nil, eq_comm (a := [])]
  | cons n ns ih =>
    rw [climb, List.suffix_cons_iff]
    by_cases hd : (⟨sb, n :: ns⟩ : HiddenDentry) = d2
    · rw [if_pos hd, eq_self, true_iff]
      exact ⟨((heq _).mp hd).1, .inl ((heq _).mp hd).2.symm⟩
    · have hne : sb = d2.dSb → d2.names ≠ n :: ns := fun hsb hn => hd ((heq _).mpr ⟨hsb, hn.symm⟩)
      have hrest : (sb = d2.dSb ∧ (d2.names = n :: ns ∨ d2.names <:+ ns)) ↔
          sb = d2.dSb ∧ d2.names <:+ ns :=
        and_congr_right fun hsb => or_iff_right (hne hsb)
      rw [if_neg hd, hrest]
      by_cases hns : ns = []
      · subst hns
        rw [if_pos rfl, decide_eq_true_eq, heq, List.suffix_nil, eq_comm (a := [])]
      · rw [if_neg hns]
        exact ih

/-- The loop finds exactly the dentry itself and those above it. -/
theorem doIsOverlap_iff {d1 d2 : HiddenDentry} : doIsOverlap d1 d2 = true ↔ d1.Below d2 := climb_iff

end HiddenDentry

namespace Host

variable (h : Host)

/-- `is_overlap_loopback` -/
def isOverlapLoopback (d1 d2 : HiddenDentry) : Bool :=
  if h.blkDevLoop then
    match (h.sb d1.dSb).loop with
    | none => false
    | some backing => backing.dSb = h.self || backing.doIsOverlap d2
  else false

/-- `is_overlap` -/
def isOverlap (d1 d2 : HiddenDentry) : Bool :=
  d1 = d2 || d1.doIsOverlap d2 || d2.doIsOverlap d1 || h.isOverlapLoopback d1 d2 ||
    h.isOverlapLoopback d2 d1

/-- Branches that pass the test are apart. -/
theorem apart_of_isOverlap {d1 d2 : HiddenDentry} (hd : h.isOverlap d1 d2 = false) :
    d1.Apart d2 := by
  simp only [isOverlap, Bool.or_eq_false_iff] at hd
  obtain ⟨⟨⟨⟨-, hdown⟩, hup⟩, -⟩, -⟩ := hd
  rw [← Bool.not_eq_true, HiddenDentry.doIsOverlap_iff] at hdown hup
  exact ⟨hdown, hup⟩

end Host

-- ---------------------------------------------------------------------------
-- The list of branches
-- ---------------------------------------------------------------------------

/-- The part of a branch that makes up the table: its id, its permission and its super
block. -/
structure BrKey where
  id : Int
  perm : BrPerm
  mntSb : Nat
  deriving DecidableEq, Repr

def AufsBranch.key (br : AufsBranch) : BrKey := ⟨br.brId, br.brPerm, br.brMntSb⟩

/-- A branch as all three arrays know it: its id and permission, the dentry of its root and
the number of the root's inode. -/
structure Slot where
  id : Int
  perm : BrPerm
  dir : HiddenDentry
  ino : Nat
  deriving DecidableEq, Repr

namespace Slot

def key (s : Slot) : BrKey := ⟨s.id, s.perm, s.dir.dSb⟩

def hinode (s : Slot) : HinodeCell := ⟨some ⟨s.dir.dSb, s.ino⟩, s.id⟩

def chperm (perm : BrPerm) (s : Slot) : Slot := { s with perm := perm }

end Slot

/-- The branches of a mount in order. No two have one id, no id is zero, no root is another
root or above it, and the indices fit. -/
structure BrList (h : Host) where
  slots : List Slot
  nodup : (slots.map Slot.id).Nodup
  ne_zero : ∀ s ∈ slots, s.id ≠ 0
  apart : slots.Pairwise fun s t => s.dir.Apart t.dir
  fits : slots.length ≤ h.branchMax.val

namespace BrList

variable {h : Host} (t : BrList h)

/-- The mount without branches. -/
def empty (h : Host) : BrList h := ⟨[], List.nodup_nil, by simp, .nil, Nat.zero_le _⟩

/-- The largest file that some branch can hold. -/
def maxbytes : Nat := (t.slots.map fun s => (h.sb s.dir.dSb).sMaxbytes).foldr max 0

/-- May this branch be added? -/
structure Admits (s : Slot) : Prop where
  id : ∀ t' ∈ t.slots, t'.id ≠ s.id
  ne_zero : s.id ≠ 0
  apart : ∀ t' ∈ t.slots, s.dir.Apart t'.dir
  room : t.slots.length < h.branchMax.val

/-- Add a branch at an index. -/
def add (i : Nat) (s : Slot) (hi : i ≤ t.slots.length) (hs : t.Admits s) : BrList h :=
  have hp : (t.slots.insertIdx i s).Perm (s :: t.slots) := List.perm_insertIdx s t.slots hi
  { slots := t.slots.insertIdx i s
    nodup := by
      rw [(hp.map Slot.id).nodup_iff, List.map_cons, List.nodup_cons]
      refine ⟨fun hmem => ?_, t.nodup⟩
      obtain ⟨t', ht', he⟩ := List.mem_map.mp hmem
      exact hs.id t' ht' he
    ne_zero := by
      intro s' hs'
      rcases List.mem_cons.mp (hp.subset hs') with rfl | hmem
      · exact hs.ne_zero
      · exact t.ne_zero s' hmem
    apart := by
      rw [hp.pairwise_iff fun hab => hab.symm, List.pairwise_cons]
      exact ⟨hs.apart, t.apart⟩
    fits := by
      rw [List.length_insertIdx_of_le_length hi]
      exact hs.room }

/-- Delete the branch at an index. -/
def del (i : Nat) : BrList h where
  slots := t.slots.eraseIdx i
  nodup := t.nodup.sublist ((List.eraseIdx_sublist ..).map _)
  ne_zero s hs := t.ne_zero s ((List.eraseIdx_sublist ..).subset hs)
  apart := t.apart.sublist (List.eraseIdx_sublist ..)
  fits := Nat.le_trans (List.length_eraseIdx_le ..) t.fits

/-- A change that keeps what `g` sees keeps what `g` sees of the list. -/
theorem map_modify {α β : Type} {f : α → α} {g : α → β} (hf : ∀ a, g (f a) = g a)
    (l : List α) (i : Nat) : (l.modify i f).map g = l.map g := by
  apply List.ext_getElem?
  intro j
  rw [List.getElem?_map, List.getElem?_map, List.getElem?_modify]
  cases l[j]? with
  | none => rfl
  | some a =>
    by_cases hj : i = j
    · simp only [Functor.map, Option.map_some, if_pos hj, hf]
    · simp only [Functor.map, Option.map_some, if_neg hj]

/-- Change the permission of the branch at an index. -/
def chperm (i : Nat) (perm : BrPerm) : BrList h where
  slots := t.slots.modify i (Slot.chperm perm)
  nodup := by
    rw [map_modify (f := Slot.chperm perm) fun _ => rfl]
    exact t.nodup
  ne_zero s hs := by
    have hmem := List.mem_map_of_mem (f := Slot.id) hs
    rw [map_modify (f := Slot.chperm perm) fun _ => rfl] at hmem
    obtain ⟨s', hs', he⟩ := List.mem_map.mp hmem
    rw [← he]
    exact t.ne_zero s' hs'
  apart := by
    have hdirs : (t.slots.map Slot.dir).Pairwise HiddenDentry.Apart := List.pairwise_map.mpr t.apart
    rw [← map_modify (f := Slot.chperm perm) (fun _ => rfl) t.slots i] at hdirs
    exact List.pairwise_map.mp hdirs
  fits := by
    rw [List.length_modify]
    exact t.fits

end BrList

-- ---------------------------------------------------------------------------
-- The arrays hold the list
-- ---------------------------------------------------------------------------

/-- The three arrays hold the branches of a list, one beside the other, and their ends agree
with it. -/
structure Sbinfo.Holds (st : Sbinfo) (l : List Slot) : Prop where
  siBend : st.siBend = l.length - 1
  diBend : st.diBend = l.length - 1
  iiBend : st.iiBend = l.length - 1
  diBstart : st.diBstart = min 0 ((l.length : Int) - 1)
  iiBstart : st.iiBstart = min 0 ((l.length : Int) - 1)
  branchRoom : max 1 l.length ≤ st.siBranch.length
  hdentryRoom : max 1 l.length ≤ st.diHdentry.length
  hinodeRoom : max 1 l.length ≤ st.iiHinode.length
  branch : (st.siBranch.take l.length).map (Option.map AufsBranch.key) =
    l.map fun s => some s.key
  hdentry : st.diHdentry.take l.length = l.map fun s => some s.dir
  hinode : st.iiHinode.take l.length = l.map Slot.hinode

/-- Nothing that makes up the table differs. The xino files, the use counts and the whiteout
bases may. -/
structure Sbinfo.SameTable (st st' : Sbinfo) : Prop where
  branch : st'.siBranch.map (Option.map AufsBranch.key) =
    st.siBranch.map (Option.map AufsBranch.key)
  siBend : st'.siBend = st.siBend
  siLastBrId : st'.siLastBrId = st.siLastBrId
  diHdentry : st'.diHdentry = st.diHdentry
  diBstart : st'.diBstart = st.diBstart
  diBend : st'.diBend = st.diBend
  iiHinode : st'.iiHinode = st.iiHinode
  iiBstart : st'.iiBstart = st.iiBstart
  iiBend : st'.iiBend = st.iiBend
  sMaxbytes : st'.sMaxbytes = st.sMaxbytes

namespace Sbinfo

variable {st st' st'' : Sbinfo} {l : List Slot}

theorem holds_init (xino plink : Bool) : (init xino plink).Holds [] where
  siBend := rfl
  diBend := rfl
  iiBend := rfl
  diBstart := rfl
  iiBstart := rfl
  branchRoom := Nat.le_refl _
  hdentryRoom := Nat.le_refl _
  hinodeRoom := Nat.le_refl _
  branch := rfl
  hdentry := rfl
  hinode := rfl

/-- Arrays with the same parts of the branches have them at the same indices. -/
theorem map_stobr {α : Type} {f : AufsBranch → α}
    (h : st'.siBranch.map (Option.map f) = st.siBranch.map (Option.map f)) (b : Int) :
    (st'.stobr b).map f = (st.stobr b).map f := by
  have hjoin : ∀ s : Sbinfo, (s.stobr b).map f =
      if 0 ≤ b then ((s.siBranch.map (Option.map f))[b.toNat]?).join else none := by
    intro s
    rw [Sbinfo.stobr]
    split
    · rw [List.getElem?_map]
      cases s.siBranch[b.toNat]? with
      | none => rfl
      | some c => rfl
    · rfl
  rw [hjoin, hjoin, h]

theorem SameTable.refl (st : Sbinfo) : st.SameTable st :=
  ⟨rfl, rfl, rfl, rfl, rfl, rfl, rfl, rfl, rfl, rfl⟩

theorem SameTable.trans (h : st.SameTable st') (h' : st'.SameTable st'') : st.SameTable st'' where
  branch := h'.branch.trans h.branch
  siBend := h'.siBend.trans h.siBend
  siLastBrId := h'.siLastBrId.trans h.siLastBrId
  diHdentry := h'.diHdentry.trans h.diHdentry
  diBstart := h'.diBstart.trans h.diBstart
  diBend := h'.diBend.trans h.diBend
  iiHinode := h'.iiHinode.trans h.iiHinode
  iiBstart := h'.iiBstart.trans h.iiBstart
  iiBend := h'.iiBend.trans h.iiBend
  sMaxbytes := h'.sMaxbytes.trans h.sMaxbytes

theorem SameTable.length (h : st.SameTable st') : st'.siBranch.length = st.siBranch.length := by
  have hlen := congrArg List.length h.branch
  rwa [List.length_map, List.length_map] at hlen

theorem SameTable.stobr (h : st.SameTable st') (b : Int) :
    (st'.stobr b).map AufsBranch.key = (st.stobr b).map AufsBranch.key :=
  map_stobr h.branch b

theorem Holds.sameTable (hl : st.Holds l) (h : st.SameTable st') : st'.Holds l where
  siBend := h.siBend.trans hl.siBend
  diBend := h.diBend.trans hl.diBend
  iiBend := h.iiBend.trans hl.iiBend
  diBstart := h.diBstart.trans hl.diBstart
  iiBstart := h.iiBstart.trans hl.iiBstart
  branchRoom := by
    rw [h.length]
    exact hl.branchRoom
  hdentryRoom := by
    rw [h.diHdentry]
    exact hl.hdentryRoom
  hinodeRoom := by
    rw [h.iiHinode]
    exact hl.hinodeRoom
  branch := by
    rw [List.map_take, h.branch, ← List.map_take]
    exact hl.branch
  hdentry := by
    rw [h.diHdentry]
    exact hl.hdentry
  hinode := by
    rw [h.iiHinode]
    exact hl.hinode

-- ---------------------------------------------------------------------------
-- Reading the arrays
-- ---------------------------------------------------------------------------

/-- Every index of the table has its branch. -/
theorem Holds.stobr (hl : st.Holds l) {i : Nat} {s : Slot} (hs : l[i]? = some s) :
    ∃ br, st.stobr i = some br ∧ br.key = s.key := by
  have hlt : i < l.length := (List.getElem?_eq_some_iff.mp hs).1
  have hcell := congrArg (·[i]?) hl.branch
  simp only [List.getElem?_map, List.getElem?_take, if_pos hlt, hs, Option.map_some] at hcell
  obtain ⟨c, hc, hkey⟩ := Option.map_eq_some_iff.mp hcell
  obtain ⟨br, rfl, hbr⟩ := Option.map_eq_some_iff.mp hkey
  refine ⟨br, ?_, hbr⟩
  rw [Sbinfo.stobr, if_pos (by omega), Int.toNat_natCast, hc, Option.join_some]

/-- And no other index of it has a branch. -/
theorem Holds.slot_of_stobr (hl : st.Holds l) {b : Int} {br : AufsBranch}
    (hbr : st.stobr b = some br) (hb : b ≤ st.siBend) : ∃ s, l[b.toNat]? = some s ∧ br.key = s.key := by
  have h0 : 0 ≤ b := by
    by_contra h0
    rw [Sbinfo.stobr, if_neg h0] at hbr
    cases hbr
  have hlt : b.toNat < l.length := by
    have := hl.siBend
    omega
  obtain ⟨br', hbr', hkey⟩ := hl.stobr (List.getElem?_eq_getElem hlt)
  rw [Int.toNat_of_nonneg h0, hbr] at hbr'
  obtain rfl := Option.some.inj hbr'
  exact ⟨_, List.getElem?_eq_getElem hlt, hkey⟩

theorem Holds.hDptrI (hl : st.Holds l) {i : Nat} {s : Slot} (hs : l[i]? = some s) :
    st.hDptrI i = some s.dir := by
  have hlt : i < l.length := (List.getElem?_eq_some_iff.mp hs).1
  have hcell := congrArg (·[i]?) hl.hdentry
  simp only [List.getElem?_map, List.getElem?_take, if_pos hlt, hs, Option.map_some] at hcell
  have hstart := hl.diBstart
  rw [Sbinfo.hDptrI, if_neg (by omega), Int.toNat_natCast, hcell, Option.join_some]

theorem Holds.hinode_eq (hl : st.Holds l) {i : Nat} {s : Slot} (hs : l[i]? = some s) :
    st.hinode i = some s.hinode := by
  have hlt : i < l.length := (List.getElem?_eq_some_iff.mp hs).1
  have hcell := congrArg (·[i]?) hl.hinode
  simp only [List.getElem?_map, List.getElem?_take, if_pos hlt, hs, Option.map_some] at hcell
  rw [Sbinfo.hinode, if_pos (by omega), Int.toNat_natCast, hcell]

/-- The search for a root finds the index of its branch, or there is none. -/
theorem Holds.findDbindex_cases (hl : st.Holds l) (d : HiddenDentry) :
    (∃ (i : Nat) (s : Slot), st.findDbindex d = i ∧ l[i]? = some s ∧ s.dir = d) ∨
      (st.findDbindex d = -1 ∧ ∀ s ∈ l, s.dir ≠ d) := by
  have hstart := hl.diBstart
  have hend := hl.diBend
  cases hf : (bindexes st.diBstart st.diBend).find? fun b => st.hDptrI b = some d with
  | some b =>
    obtain ⟨h0, hle⟩ := mem_bindexes.mp (List.mem_of_find?_eq_some hf)
    have hd : st.hDptrI b = some d := by simpa using List.find?_some hf
    have hb0 : 0 ≤ b := by
      by_contra hneg
      rw [Sbinfo.hDptrI, if_pos (by omega)] at hd
      cases hd
    have hlt : b.toNat < l.length := by omega
    have hs := List.getElem?_eq_getElem hlt
    have hdir := hl.hDptrI hs
    rw [Int.toNat_of_nonneg hb0, hd] at hdir
    refine .inl ⟨b.toNat, _, ?_, hs, (Option.some.inj hdir).symm⟩
    rw [findDbindex, hf, Option.getD_some, Int.toNat_of_nonneg hb0]
  | none =>
    refine .inr ⟨by rw [findDbindex, hf, Option.getD_none], fun s hs hd => ?_⟩
    obtain ⟨i, hi⟩ := List.mem_iff_getElem?.mp hs
    have hlt : i < l.length := (List.getElem?_eq_some_iff.mp hi).1
    have hno := List.find?_eq_none.mp hf i (mem_bindexes.mpr ⟨by omega, by omega⟩)
    rw [hl.hDptrI hi, hd] at hno
    simp at hno

/-- The search for an id finds an index unless no branch has the id. -/
theorem Holds.findBrindex_neg_iff (hl : st.Holds l) {brId : Int} :
    st.findBrindex brId < 0 ↔ ∀ s ∈ l, s.id ≠ brId := by
  cases hf : (bindexes 0 st.siBend).find? fun b => (st.stobr b).any (·.brId = brId) with
  | some b =>
    obtain ⟨h0, hle⟩ := mem_bindexes.mp (List.mem_of_find?_eq_some hf)
    have hb := List.find?_some hf
    obtain ⟨br, hbr, hid⟩ := (Option.any_eq_true _ _).mp hb
    obtain ⟨s, hs, hkey⟩ := hl.slot_of_stobr hbr hle
    rw [findBrindex, hf, Option.getD_some]
    constructor
    · intro hneg
      omega
    · intro hno
      refine absurd ?_ (hno s (List.mem_of_getElem? hs))
      have hid : br.brId = brId := of_decide_eq_true hid
      exact (congrArg BrKey.id hkey).symm.trans hid
  | none =>
    rw [findBrindex, hf, Option.getD_none]
    refine ⟨fun _ s hs hid => ?_, fun _ => by omega⟩
    obtain ⟨i, hi⟩ := List.mem_iff_getElem?.mp hs
    have hlt : i < l.length := (List.getElem?_eq_some_iff.mp hi).1
    have hend := hl.siBend
    obtain ⟨br, hbr, hkey⟩ := hl.stobr hi
    have hno := List.find?_eq_none.mp hf i (mem_bindexes.mpr ⟨by omega, by omega⟩)
    rw [hbr, Option.any_some, decide_eq_true_eq] at hno
    exact hno ((congrArg BrKey.id hkey).trans hid)

end Sbinfo

-- ---------------------------------------------------------------------------
-- Branch ids
-- ---------------------------------------------------------------------------

theorem BranchMax.iterate_toBindex (m : BranchMax) (a : Int) (k : Nat) :
    (fun b => m.toBindex (b + 1))^[k + 1] a = (a + (k + 1 : Nat)).bmod (2 ^ m.bits) := by
  induction k generalizing a with
  | zero => rfl
  | succ k ih =>
    rw [Function.iterate_succ_apply, ih, BranchMax.toBindex, Int.bmod_add_bmod]
    congr 1
    omega

/-- All values of the counter differ until it has run through its range. -/
theorem BranchMax.iterate_toBindex_inj (m : BranchMax) (a : Int) {i j : Nat}
    (hi : i < 2 ^ m.bits) (hj : j < 2 ^ m.bits)
    (h : (fun b => m.toBindex (b + 1))^[i + 1] a = (fun b => m.toBindex (b + 1))^[j + 1] a) :
    i = j := by
  rw [iterate_toBindex, iterate_toBindex, Int.bmod_add_cancel_left] at h
  have hmod : ((i + 1 : Nat) : Int) % (2 ^ m.bits : Nat) = ((j + 1 : Nat) : Int) % (2 ^ m.bits : Nat) := by
    rw [← Int.bmod_emod, h, Int.bmod_emod]
  have hnat : (i + 1) % 2 ^ m.bits = (j + 1) % 2 ^ m.bits := by exact_mod_cast hmod
  rcases Nat.lt_or_ge (i + 1) (2 ^ m.bits) with hi' | hi' <;>
    rcases Nat.lt_or_ge (j + 1) (2 ^ m.bits) with hj' | hj'
  · rw [Nat.mod_eq_of_lt hi', Nat.mod_eq_of_lt hj'] at hnat
    omega
  · rw [Nat.mod_eq_of_lt hi', show j + 1 = 2 ^ m.bits by omega, Nat.mod_self] at hnat
    omega
  · rw [show i + 1 = 2 ^ m.bits by omega, Nat.mod_self, Nat.mod_eq_of_lt hj'] at hnat
    omega
  · omega

/-- There are more values than branches, zero not counted. -/
theorem BranchMax.val_lt (m : BranchMax) : m.val + 1 < 2 ^ m.bits := by
  cases m <;> decide

/-- `new_br_id` ends, with an id that is not zero and that no branch has. -/
theorem Host.newBrId_spec {h : Host} {st : Sbinfo} {l : List Slot} (hl : st.Holds l)
    (hlen : l.length ≤ h.branchMax.val) :
    ∃ brId, h.newBrId st = some (brId, { st with siLastBrId := brId }) ∧ brId ≠ 0 ∧
      ∀ s ∈ l, s.id ≠ brId := by
  have hval := h.branchMax.val_lt
  have htaken : ∀ b, (b ≠ 0 && st.findBrindex b < 0 : Bool) = false → b ∈ 0 :: l.map Slot.id := by
    intro b hb
    simp only [Bool.and_eq_false_iff, decide_eq_false_iff_not, not_not] at hb
    rcases hb with rfl | hb
    · exact List.mem_cons_self
    · rw [hl.findBrindex_neg_iff] at hb
      push Not at hb
      obtain ⟨s, hs, rfl⟩ := hb
      exact List.mem_cons_of_mem _ (List.mem_map_of_mem hs)
  have hlt : (0 :: l.map Slot.id).length < 2 ^ h.branchMax.bits := by
    rw [List.length_cons, List.length_map]
    omega
  obtain ⟨brId, hid⟩ := Counter.search_isSome (0 :: l.map Slot.id) htaken hlt
    (fun i hi j hj => h.branchMax.iterate_toBindex_inj st.siLastBrId hi hj)
  have hfree := Counter.free_of_search hid
  simp only [Bool.and_eq_true, decide_eq_true_eq] at hfree
  refine ⟨brId, ?_, hfree.1, hl.findBrindex_neg_iff.mp hfree.2⟩
  rw [Host.newBrId, hid, Option.map_some]

end Aufs
