-- SUMMARY: Removing files and directories: aufs_unlink and aufs_rmdir (i_op_del.c).
import Aufs.Cpup

/-!
# Deletion

A name is removed on its first branch if that is writable. When a lower branch
has the name too, a whiteout goes to the same place before, and is taken back
when the removal fails. On a branch that is not writable nothing is removed: the
parent directories are copied up, and the whiteout is all there is.
-/

namespace Aufs

open Op

/-- The branch that `wr_dir_need_wh` works on. -/
def needWhBranch (sb : SuperBlock) (parent d : Dinfo) (hi : Int → Option HInode) (bcpup : Int) :
    Except Errno Int :=
  if bcpup < 0 then
    match testRo sb d.bstart hi with
    | .error e => .error e
    | .ok true => findRwParentBr sb parent d.bstart
    | .ok false => .ok d.bstart
  else .ok bcpup

/-- The question whether a lower branch has the name. The opaque mark of the dentry is put
aside for the lookup, its whiteout index is not. -/
def lkupLower (sb : SuperBlock) (p : Path) (isdir : Bool) : Op Nat := do
  let d ← dinfo p
  if isdir then onDinfo p fun d => { d with bdiropq := -1 } else pure ()
  let r ← Prog.attempt (Op.lkupDentry sb p (d.bstart + 1) none)
  if isdir then onDinfo p fun e => { e with bdiropq := d.bdiropq } else pure ()
  let needWh ← .ofExcept r
  let newBend := (← dinfo p).bend
  if needWh = 0 ∧ d.bend ≠ newBend then
    onDinfo p fun e => { e.setHDptr newBend none with bend := d.bend }
  else pure ()
  pure needWh

/-- `wr_dir_need_wh`: is a whiteout needed, and on which branch? -/
def wrDirNeedWh (sb : SuperBlock) (p : Path) (isdir : Bool) (bcpup : Int) : Op (Bool × Int) := do
  let m ← Prog.state
  let bcpup ← .ofExcept (needWhBranch sb (m.di (dParent p)) (m.di p) (m.hi p) bcpup)
  if bcpup ≠ (m.di p).bstart then do
    cpupDirs sb p bcpup
    pure (true, bcpup)
  else do
    let needWh ← lkupLower sb p isdir
    pure (needWh ≠ 0, bcpup)

/-- `lock_hdir_create_wh` -/
def lockHdirCreateWh (sb : SuperBlock) (p : Path) (isdir : Bool) : Op (Option HDentry × Int) := do
  let (needWh, bcpup) ← wrDirNeedWh sb p isdir (-1)
  let hiddenParent ← hDptrI (dParent p) bcpup
  if needWh then do
    let wh ← simpleCreateWh sb p bcpup hiddenParent
    pure (some wh, bcpup)
  else pure (none, bcpup)

/-- `renwh_and_rmdir`: is the directory that was set aside left to a work queue? -/
def renwhAndRmdir (sb : SuperBlock) (p : Path) (bindex : Int) (whlist : Nhash Wh) : Op Bool := do
  renameWhtmp p bindex
  let h ← hDptrI p bindex
  let nfs := (sb.stobr bindex).any Branch.nfs
  if !nfs && (sb.dirwh ≤ 1 || isLongerWh whlist bindex sb.dirwh) then pure true
  else do
    let _ ← Prog.attempt (rmdirWhtmp h whlist bindex) -- ignored
    pure false

/-- `epilog` of i_op_del.c. `alone` says whether nobody else holds the dentry. -/
def delEpilog (alone : Bool) (p : Path) : Op Unit :=
  if alone then onDinfo p fun d => (d.setHDptr d.bstart none).updateDbstart else pure ()

/-- `do_revert`: the error that is returned in the end. -/
def doRevert (err : Errno) (wh : HDentry) (p : Path) (bwh : Int) : Op Unit := do
  match ← Prog.attempt (auUnlinkWhDentry wh p) with
  | .ok () => do
    onDinfo p fun d => { d with bwh }
    .fail err
  | .error _ => .fail Errno.EIO

/-- `aufs_unlink` -/
def aufsUnlink (sb : SuperBlock) (alone : Bool) (p : Path) : Op Unit := do
  let m ← Prog.state
  if !(m.di p).positiveAt (m.di p).bstart then .fail .ENOENT
  else do
    let bstart := (m.di p).bstart
    let bwh := (m.di p).bwh
    let (wh, bindex) ← lockHdirCreateWh sb p false
    let h ← hDptrI p (← dinfo p).bstart
    match ← Prog.attempt (if bindex = bstart then vfsubUnlink h else pure ()) with
    | .ok () => delEpilog alone p
    | .error e =>
      match wh with
      | none => .fail e
      | some wh => doRevert e wh p bwh

variable (hash : Name → Nat)

/-- `aufs_rmdir` -/
def aufsRmdir (sb : SuperBlock) (alone : Bool) (p : Path) : Op Unit := do
  let m ← Prog.state
  if !(m.di p).positiveAt (m.di p).bstart then .fail .ENOENT
  else do
    kmalloc
    kmalloc
    let whlist ← testEmpty hash p .init
    let bstart := (m.di p).bstart
    let bwh := (m.di p).bwh
    let (wh, bindex) ← lockHdirCreateWh sb p true
    let _ ← hDptrI p (← dinfo p).bstart
    match ← Prog.attempt (if bindex = bstart then renwhAndRmdir sb p bstart whlist else pure false) with
    | .ok _ => do
      onDinfo p fun d => { d with bdiropq := -1 }
      delEpilog alone p
    | .error e =>
      match wh with
      | none => .fail e
      | some wh => doRevert e wh p bwh

end Aufs
