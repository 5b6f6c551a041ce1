-- SUMMARY: New dentries (aufs_lookup of i_op.c), and adding files and directories: mknod, symlink, create and mkdir (i_op_add.c).
import Aufs.Prepared

/-!
# Addition

A lookup leaves a dentry that is negative where nothing is found, and an entry is added in its
place. The branch for the new entry is prepared, and the whiteout of its name there is looked
up. The entry is made while its whiteout still hides it, a directory gets its opaque
mark before the whiteout is removed, and when a step fails the ones before are taken
back. What fails meanwhile is only logged.
-/

namespace Aufs

open Op

/-- `au_new_inode`: the inode of the dentry takes the hidden inodes of the slots, or there is none. -/
def instantiate (p : Path) : Op Unit := do
  mayFail
  .update fun m => { m with hi := Function.update m.hi p fun b => ((m.di p).hdentry b).bind HDentry.inode }

/-- `d_inode`: the attributes are those of the first hidden inode. -/
def Mount.dInode (m : Mount) (p : Path) : Option HInode := m.hi p (m.di p).bstart

/-- `aufs_lookup`: a new dentry below its parent, with an inode when something is found. -/
def aufsLookup (sb : SuperBlock) (p : Path) : Op Unit := do
  -- au_alloc_dinfo
  kmalloc
  kmalloc
  onDinfo p fun _ => .alloc
  let npositive ← Op.lkupDentry sb p (← dinfo (dParent p)).bstart none
  if npositive ≠ 0 then instantiate p
  else .update fun m => { m with hi := Function.update m.hi p fun _ => none }

/-- `lock_hdir_lkup_wh`. The whiteout is looked up only on the branch where the dentry has one. -/
def lockHdirLkupWh (sb : SuperBlock) (p : Path) (src : Option Path) : Op (Option HDentry) := do
  let bcpup ← wrDir sb p true src (-1)
  let hiddenParent ← hDptrI (dParent p) bcpup
  let d ← dinfo p
  if bcpup ≠ d.bwh then pure none
  else do
    let wh ← lkupWh hiddenParent (dName p)
    pure (some wh)

/-- `epilog` of i_op_add.c. Without an inode the whiteout is made again. -/
def addEpilog (sb : SuperBlock) (wh : Option HDentry) (p : Path) : Op Unit :=
  match wh with
  | none => instantiate p
  | some wh => do
    let d ← dinfo p
    auUnlinkWhDentry wh p
    match ← Prog.attempt (instantiate p) with
    | .ok () => pure ()
    | .error err =>
      match ← Prog.attempt (simpleCreateWh sb p d.bwh ⟨wh.root, dParent wh.path, none⟩) with
      | .ok _ => .fail err
      | .error _ => .fail Errno.EIO

/-- The hidden dentry after the file system was asked to remove it: the error that is returned in the end. -/
def takenBack (err : Errno) (p : Path) (b : Int) (remove : Op Unit) : Op Unit := do
  match ← Prog.attempt remove with
  | .ok () => do
    .update fun m => m.touch p b
    .fail err
  | .error _ => .fail Errno.EIO

/-- An operation that adds an entry: when it fails, the negative slots are dropped with the dentry. -/
def adding (p : Path) (op : Op Unit) : Op Unit := do
  match ← Prog.attempt op with
  | .ok () => pure ()
  | .error err => do
    onDinfo p Dinfo.updateDbstart
    .fail err

/-- `add_simple`: a file of the type that the caller asks for. -/
def addSimple (sb : SuperBlock) (mode : FType) (data : Nat) (p : Path) : Op Unit := adding p do
  let wh ← lockHdirLkupWh sb p none
  let bstart := (← dinfo p).bstart
  let h ← hDptrI p bstart
  vfsubMake h mode data
  .update fun m => m.touch p bstart
  match ← Prog.attempt (addEpilog sb wh p) with
  | .ok () => pure ()
  | .error err => takenBack err p bstart (vfsubUnlink h)

/-- `aufs_mknod` -/
def aufsMknod (sb : SuperBlock) (p : Path) (mode : FType) (dev : Nat) : Op Unit := addSimple sb mode dev p

/-- `aufs_symlink` -/
def aufsSymlink (sb : SuperBlock) (p : Path) (symname : Nat) : Op Unit := addSimple sb .lnk symname p

/-- `aufs_create` -/
def aufsCreate (sb : SuperBlock) (p : Path) (mode : Nat) : Op Unit := addSimple sb .reg mode p

/-- `aufs_mkdir` -/
def aufsMkdir (sb : SuperBlock) (p : Path) (mode : Nat) : Op Unit := adding p do
  let wh ← lockHdirLkupWh sb p none
  let bindex := (← dinfo p).bstart
  let h ← hDptrI p bindex
  vfsubMake h .dir mode
  .update fun m => m.touch p bindex
  -- make the dir opaque
  let diropq := wh.isSome || sb.alwaysDiropq
  match ← Prog.attempt (if diropq then createDiropq sb p bindex else pure ()) with
  | .error err => takenBack err p bindex (vfsubRmdir h)
  | .ok () =>
    match ← Prog.attempt (addEpilog sb wh p) with
    | .ok () => pure ()
    | .error err =>
      match ← Prog.attempt (if diropq then removeDiropq p bindex else pure ()) with
      | .ok () => takenBack err p bindex (vfsubRmdir h)
      | .error _ => takenBack Errno.EIO p bindex (vfsubRmdir h)

end Aufs
