-- SUMMARY: The state one operation of a mount works on: the world with the dentries, and the calls on it as programs.
import Aufs.Lib.Prog
import Aufs.Dentry

/-!
# A mount at work

An operation holds the dentries it was called with and their parents up to the
root. `Mount` keeps the information of every dentry by its path, next to the
world outside. The programs here are the calls that the operations are made of.
-/

namespace Aufs

/-- The world with the dentries of a mount. `hi` are the hidden inodes in the inode of a
dentry, `ino` is its inode number, and `cnt` numbers the temporary names of whiteouts.
`fails` counts the steps that have failed; no program reads it. -/
structure Mount where
  w : World
  di : Path → Dinfo
  hi : Path → Int → Option HInode
  ino : Path → Nat
  cnt : Nat
  fails : Nat

/-- A program on a mount. -/
abbrev Op := Prog Mount Errno

/-- The parent of a dentry, `d_parent`. -/
def dParent (p : Path) : Path := p.dropLast

/-- The name of a dentry, `d_name`. -/
def dName (p : Path) : Name := p.getLast?.getD []

@[simp] theorem dParent_append (dir : Path) (n : Name) : dParent (dir ++ [n]) = dir := by
  simp [dParent]

@[simp] theorem dName_append (dir : Path) (n : Name) : dName (dir ++ [n]) = n := by
  simp [dName]

namespace Mount

/-- The dentry information of `p` is replaced. -/
def setDi (m : Mount) (p : Path) (d : Dinfo) : Mount := { m with di := Function.update m.di p d }

@[simp] theorem setDi_w (m : Mount) (p : Path) (d : Dinfo) : (m.setDi p d).w = m.w := rfl

@[simp] theorem setDi_hi (m : Mount) (p : Path) (d : Dinfo) : (m.setDi p d).hi = m.hi := rfl

@[simp] theorem setDi_di (m : Mount) (p : Path) (d : Dinfo) :
    (m.setDi p d).di = Function.update m.di p d := rfl

/-- The positive hidden dentry at `b`, after the file system has given or taken its inode. -/
def touch (m : Mount) (p : Path) (b : Int) : Mount :=
  m.setDi p ((m.di p).setHDptr b (((m.di p).hdentry b).map fun h =>
    { h with inode := (m.w.fs h.root).node h.path }))

@[simp] theorem touch_w (m : Mount) (p : Path) (b : Int) : (m.touch p b).w = m.w := rfl

end Mount

namespace Op

variable {α : Type}

/-- A step fails and changes nothing. -/
def refuse (e : Errno) : Op α := fun m => (.error e, { m with fails := m.fails + 1 })

/-- A call on the world. -/
def onWorld (f : World → Except Errno α × World) : Op α := fun m =>
  match f m.w with
  | (.error e, w) => (.error e, { m with w, fails := m.fails + 1 })
  | (.ok a, w) => (.ok a, { m with w })

/-- A call on the world and the dentry `p` below its parent. -/
def onDentry (p : Path) (f : Dinfo → Dinfo → World → Except Errno α × Dinfo × World) : Op α := fun m =>
  match f (m.di (dParent p)) (m.di p) m.w with
  | (.error e, d, w) => (.error e, { m with w, fails := m.fails + 1 }.setDi p d)
  | (.ok a, d, w) => (.ok a, { m with w }.setDi p d)

/-- An outside call that changes nothing but may fail. -/
def mayFail : Op Unit := onWorld fun w =>
  match w.ask with
  | (some e, w) => (.error e, w)
  | (none, w) => (.ok (), w)

/-- `kmalloc` -/
def kmalloc : Op Unit := onWorld fun w =>
  match w.ask with
  | (some _, w) => (.error .ENOMEM, w)
  | (none, w) => (.ok (), w)

/-- The dentry information of `p`. -/
def dinfo (p : Path) : Op Dinfo := fun m => (.ok (m.di p), m)

/-- Change the dentry information of `p`. -/
def onDinfo (p : Path) (f : Dinfo → Dinfo) : Op Unit := .update fun m => m.setDi p (f (m.di p))

/-- `au_h_dptr_i` of `p`, which is read through: `NULL` is not expected. -/
def hDptrI (p : Path) (bindex : Int) : Op HDentry := do
  let d ← dinfo p
  match d.hDptrI bindex with
  | none => refuse .oops
  | some h => pure h

/-- `d_inode` of a hidden dentry, which is read through. -/
def inodeOf (h : HDentry) : Op HInode :=
  match h.inode with
  | none => refuse .oops
  | some i => pure i

/-- `lkup_one` -/
def lkupOne (hParent : HDentry) (name : Name) : Op HDentry := onWorld fun w => Aufs.lkupOne w hParent name

/-- `lkup_dentry` of `p` from the branch `bstart` on. -/
def lkupDentry (sb : SuperBlock) (p : Path) (bstart : Int) (type : Option FType) : Op Nat :=
  onDentry p fun parent d w => Aufs.lkupDentry sb (dName p) parent d bstart type w

/-- `lkup_neg` of `p`. -/
def lkupNeg (p : Path) (bindex : Int) : Op Unit :=
  onDentry p fun parent d w => Aufs.lkupNeg (dName p) parent d bindex w

-- ---------------------------------------------------------------------------
-- The calls of vfsub.h
-- ---------------------------------------------------------------------------

/-- `vfsub_create`, `vfsub_mkdir`, `vfsub_symlink`, `vfsub_mknod` -/
def vfsubMake (h : HDentry) (mode : FType) (data : Nat) : Op Unit :=
  onWorld fun w => w.call h.root fun f => f.make h.path mode data

/-- `vfsub_link`: both dentries belong to one file system. -/
def vfsubLink (src h : HDentry) : Op Unit :=
  onWorld fun w => if src.root = h.root then w.call h.root fun f => f.link src.path h.path else (.error .EXDEV, w)

/-- `vfsub_unlink` -/
def vfsubUnlink (h : HDentry) : Op Unit := onWorld fun w => w.call h.root fun f => f.unlink h.path

/-- `vfsub_rmdir` -/
def vfsubRmdir (h : HDentry) : Op Unit := onWorld fun w => w.call h.root fun f => f.rmdir h.path

/-- `vfsub_rename` -/
def vfsubRename (src dst : HDentry) : Op Unit :=
  onWorld fun w =>
    if src.root = dst.root then w.call dst.root fun f => f.rename src.path dst.path else (.error .EXDEV, w)

end Op

-- ---------------------------------------------------------------------------
-- Writable branches
-- ---------------------------------------------------------------------------

/-- `br_rdonly` of the branch at an index; a place without a branch is not written to. -/
def SuperBlock.brRdonly (sb : SuperBlock) (bindex : Int) : Bool := (sb.stobr bindex).all Branch.brRdonly

/-- `test_ro`: `hi` are the hidden inodes of the inode. -/
def testRo (sb : SuperBlock) (bindex : Int) (hi : Int → Option HInode) : Except Errno Bool :=
  match sb.stobr bindex with
  | none => .error .oops
  | some br => .ok (br.brRdonly || (hi bindex).any HInode.immutable)

/-- `find_rw_parent`: the branch asked for, or else the first one, among the writable branches
with a hidden parent. -/
def findRwParent (sb : SuperBlock) (parent : Dinfo) (bend : Int) : Option Int :=
  let writable b := (parent.hDptrI b).isSome && !sb.brRdonly b
  if writable bend then some bend else (bindexes parent.bstart bend).find? writable

/-- `find_rw_br` -/
def findRwBr (sb : SuperBlock) (bend : Int) : Option Int :=
  (bindexes 0 bend).reverse.find? fun b => !sb.brRdonly b

/-- `find_rw_parent_br` -/
def findRwParentBr (sb : SuperBlock) (parent : Dinfo) (bend : Int) : Except Errno Int :=
  match findRwParent sb parent bend with
  | some b => .ok b
  | none =>
    match findRwBr sb bend with
    | some b => .ok b
    | none => .error .EROFS

theorem stobr_of_not_brRdonly {sb : SuperBlock} {b : Int} (h : sb.brRdonly b = false) :
    ∃ br, sb.stobr b = some br ∧ br.brRdonly = false := by
  unfold SuperBlock.brRdonly at h
  cases hb : sb.stobr b with
  | none => simp [hb] at h
  | some br => exact ⟨br, rfl, by simpa [hb] using h⟩

/-- The branch that is found is writable and not below the one asked for. -/
theorem findRwParentBr_ok {sb : SuperBlock} {parent : Dinfo} {bend b : Int}
    (h : findRwParentBr sb parent bend = .ok b) : sb.brRdonly b = false ∧ b ≤ bend := by
  unfold findRwParentBr at h
  split at h
  · rename_i c hc
    obtain rfl := Except.ok.inj h
    dsimp only [findRwParent] at hc
    split at hc
    · rename_i hw
      obtain rfl := Option.some.inj hc
      simp only [Bool.and_eq_true, Bool.not_eq_true'] at hw
      exact ⟨hw.2, le_rfl⟩
    · obtain ⟨hp, -, hle, -⟩ := find?_bindexes.mp hc
      simp only [Bool.and_eq_true, Bool.not_eq_true'] at hp
      exact ⟨hp.2, hle⟩
  · split at h
    · rename_i c hc
      obtain rfl := Except.ok.inj h
      obtain ⟨hp, -, hle, -⟩ := find?_reverse_bindexes.mp hc
      exact ⟨by simpa using hp, hle⟩
    · simp at h

end Aufs
