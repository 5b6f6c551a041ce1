-- SUMMARY: aufs_setattr of a regular file that has to be copied up first (i_op.c), and copying the whole file up instead.
import Aufs.CopyErrors

/-!
# Attributes of a file that is copied up

A request that makes the file smaller lets the copy-up do the truncation: the size leaves the
request, and only that many bytes are copied. Under another name the inode may be on the
upper branch already. Then the copy-up makes a link and copies nothing.
-/

namespace Aufs

open ByteFile

-- ---------------------------------------------------------------------------
-- The files
-- ---------------------------------------------------------------------------

/-- A regular file of a branch. -/
structure HReg where
  data : List UInt8
  mode : Nat
  uid : Nat
  gid : Nat
  nlink : Nat
  deriving DecidableEq

/-- `struct iattr`. `other` tells whether `ia_valid` has a flag besides these, as for a time. -/
structure Iattr where
  mode : Option Nat
  uid : Option Nat
  gid : Option Nat
  size : Option Nat
  other : Bool
  deriving DecidableEq

/-- The inode of a regular file, and the hidden inodes that matter for one name of it: those
at the indexes before `bcpup`, the one at `bcpup`, and the one of the name itself. -/
structure RegInode where
  above : List HReg
  upper : Option HReg
  lower : HReg
  mode : Nat
  uid : Nat
  gid : Nat
  size : Nat
  deriving DecidableEq

/-- How the calls end, and whose file `vfs_create` makes. The copy depends on the length,
and `notify_change` on the request. -/
structure SetattrEnv where
  lkupNeg : Option Errno
  link : Option Errno
  create : Option Errno
  copy : Nat → Option Errno
  iattr : Option Errno
  remove : Option Errno
  notify : Iattr → Option Errno
  fsuid : Nat
  fsgid : Nat

-- ---------------------------------------------------------------------------
-- Copy-up
-- ---------------------------------------------------------------------------

/-- What a request makes of a file. -/
def Iattr.apply (ia : Iattr) (f : HReg) : HReg :=
  { f with
    data := match ia.size with
      | none => f.data
      | some n => setSize f.data n
    mode := ia.mode.getD f.mode
    uid := ia.uid.getD f.uid
    gid := ia.gid.getD f.gid }

/-- `au_h_iptr` once there is an inode at `bcpup`. -/
def RegInode.hIptr (i : RegInode) (u : HReg) : HReg := i.above.headD u

/-- The size that the request asks for, when that is less than the inode's. -/
def RegInode.shrinkTo (i : RegInode) (ia : Iattr) : Option Nat := ia.size.filter (· < i.size)

/-- The inode on the upper branch that is linked instead of copied to. -/
def RegInode.linked (i : RegInode) : Option HReg := i.upper.filter (·.nlink ≠ 0)

/-- The hidden inodes before `bcpup` that `cpup_single` leaves. -/
def RegInode.aboveKept (i : RegInode) : List HReg :=
  match i.upper with
  | none => i.above
  | some u => if u.nlink ≠ 0 then i.above else i.above.filter (·.nlink ≠ 0)

/-- The upper file after a copy-up. -/
def RegInode.copied (i : RegInode) (len : Option Nat) : HReg :=
  match i.linked with
  | some u => { u with nlink := u.nlink + 1 }
  | none => ⟨i.lower.data.take (cpupLen i.lower.data len), i.lower.mode, i.lower.uid, i.lower.gid, 1⟩

/-- The inode after a copy-up. -/
def RegInode.cpup (i : RegInode) (len : Option Nat) : RegInode :=
  { i with above := i.aboveKept, upper := some (i.copied len) }

/-- The calls succeed that a copy-up of any length makes. -/
def RegInode.Ready (e : SetattrEnv) (plink : Bool) (i : RegInode) : Prop :=
  e.lkupNeg = none ∧ (i.upper.isSome → plink = true) ∧
    match i.linked with
    | some _ => e.link = none
    | none => e.create = none ∧ e.iattr = none

/-- The copy succeeds, if there is one. -/
def RegInode.Copies (e : SetattrEnv) (i : RegInode) (len : Option Nat) : Prop :=
  i.linked = none → cpupLen i.lower.data len ≠ 0 → e.copy (cpupLen i.lower.data len) = none

/-- The request as `aufs_setattr` passes it on. -/
def RegInode.rest (i : RegInode) (ia : Iattr) : Iattr :=
  if (i.shrinkTo ia).isSome then { ia with size := none } else ia

end Aufs
