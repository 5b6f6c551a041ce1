-- SUMMARY: Renaming files and directories: aufs_rename (i_op_ren.c).
import Aufs.OpAdd
import Aufs.OpDel

/-!
# Renaming

`aufs_rename` works on the branch of the new name. Both parents are copied up there, and
the old name gets a whiteout when a lower branch has it. An entry of that branch is renamed
in place; an entry of a lower one is copied up under its new name, or under its old one
first when something has to be replaced. A directory that is in the way is set aside, and
removed at the end. When a step fails the ones before are taken back in their order.
-/

namespace Aufs

open Op

-- ---------------------------------------------------------------------------
-- What may be renamed
-- ---------------------------------------------------------------------------

section Tests

variable (hash : Name → Nat)

/-- `may_rename_dstdir` -/
def mayRenameDstdir (dst : Path) (whlist : Nhash Wh) : Op (Nhash Wh) := testEmpty hash dst whlist

/-- `may_rename_srcdir` -/
def mayRenameSrcdir (src : Path) (btgt : Int) : Op Unit := do
  let d ← dinfo src
  let test : Op Unit :=
    if d.bstart ≠ btgt then do
      kmalloc
      let _ ← testEmpty hash src .init
    else if d.bstart = d.dbtaildir then pure ()
    else auTestEmptyLower hash src
  match ← Prog.attempt test with
  | .ok () => pure ()
  | .error .ENOTEMPTY => .fail .EXDEV
  | .error err => .fail err

end Tests

-- ---------------------------------------------------------------------------
-- The ways back
-- ---------------------------------------------------------------------------

/-- `struct rename_args`: the branch, the hidden parents and the hidden dentry of the new name there. -/
structure RenameArgs where
  btgt : Int
  bstartSrc : Int
  parentSrc : HDentry
  parentDst : HDentry
  hiddenDst : HDentry
  isdir : Bool
  whsrc : Bool
  whdst : Bool
  whlist : Nhash Wh

/-- `RevertFailure`: the error that is returned in the end. -/
def reverting (err : Errno) (op : Op Unit) : Op Errno := do
  match ← Prog.attempt op with
  | .ok () => pure err
  | .error _ => pure Errno.EIO

variable (a : RenameArgs) (src dst : Path)

/-- `out_whsrc`, and `out_whdst` before it: the whiteout of the old name is removed. -/
def outWhsrc (wh : Option HDentry) (err : Errno) : Op Unit := do
  let err ← match wh with
    | none => pure err
    | some wh => reverting err (auUnlinkWhDentry wh src)
  onDinfo dst Dinfo.updateDbstart
  .fail err

/-- The directory that was set aside gets its name again, unless something has taken it. -/
def backFromWhtmp (tmp : HDentry) : Op Unit := do
  let h ← Op.lkupOne a.parentDst (dName dst)
  if h.positive then pure ()
  else do
    vfsubRename tmp h
    onDinfo dst fun d => d.setHDptr a.btgt (some { tmp with path := h.path })

/-- `out_whtmp` -/
def outWhtmp (tmp wh : Option HDentry) (err : Errno) : Op Unit := do
  let err ← match tmp with
    | none => pure err
    | some tmp => reverting err (backFromWhtmp a dst tmp)
  outWhsrc src dst wh err

/-- The entry gets its old name again. -/
def backToSrc : Op Unit := do
  let d ← Op.lkupOne a.parentSrc (dName src)
  let h ← hDptrI src a.btgt
  vfsubRename h d
  onDinfo src fun e => e.setHDptr a.btgt (some { h with path := d.path })

/-- `out_rename` -/
def outRename (bycpup : Bool) (tmp wh : Option HDentry) (err : Errno) : Op Unit :=
  if bycpup then do
    let err ← reverting err (vfsubUnlink a.hiddenDst)
    onDinfo src fun d => { d.setHDptr a.btgt none with bstart := a.bstartSrc }
    outWhtmp a src dst tmp wh err
  else do
    let err ← reverting err (backToSrc a src)
    outWhtmp a src dst tmp wh err

/-- `out_diropq` -/
def outDiropq (needDiropq bycpup : Bool) (tmp wh : Option HDentry) (err : Errno) : Op Unit := do
  let err ← if needDiropq then reverting err (removeDiropq src a.btgt) else pure err
  outRename a src dst bycpup tmp wh err

-- ---------------------------------------------------------------------------
-- do_rename
-- ---------------------------------------------------------------------------

/-- The entry of the branch is renamed. -/
def renameOn : Op Unit := do
  let h ← hDptrI src a.btgt
  vfsubRename h a.hiddenDst
  onDinfo src fun d => d.setHDptr a.btgt (some { h with path := a.hiddenDst.path })

variable (sb : SuperBlock)

/-- The entry of a lower branch is copied up as the new name. -/
def cpupAs : Op Unit := do
  onDinfo src fun d => { d.setHDptr a.btgt (some a.hiddenDst) with bstart := a.btgt }
  match ← Prog.attempt (cpupSingle sb src a.btgt a.bstartSrc) with
  | .ok () => pure ()
  | .error err => do
    onDinfo src fun d => { d.setHDptr a.btgt none with bstart := a.bstartSrc }
    .fail err

/-- The directory that was set aside is removed, here or by a work queue. What fails is only logged. -/
def removeWhtmp (tmp : Option HDentry) : Op Unit :=
  match tmp with
  | none => pure ()
  | some tmp =>
    if (sb.stobr a.btgt).any Branch.nfs || !isLongerWh a.whlist a.btgt sb.dirwh then do
      let _ ← Prog.attempt (rmdirWhtmp tmp a.whlist a.btgt)
    else pure ()

/-- `do_rename` from the copy of the entry on. -/
def renameEntry (tmp whSrc whDst : Option HDentry) : Op Unit := do
  -- cpup src
  match ← Prog.attempt (if a.hiddenDst.positive && a.bstartSrc ≠ a.btgt then cpupSimple sb src a.btgt else pure ()) with
  | .error err => outWhtmp a src dst tmp whSrc err
  | .ok () => do
    let m ← Prog.state
    let bycpup := decide ((m.di src).bstart ≠ a.btgt)
    let needDiropq := a.isdir && (whDst.isSome || (m.di dst).bdiropq = a.btgt || sb.alwaysDiropq) &&
      (bycpup || (m.di src).bdiropq ≠ a.btgt)
    match ← Prog.attempt (if bycpup then cpupAs a src sb else renameOn a src) with
    | .error err => outWhtmp a src dst tmp whSrc err
    | .ok () =>
      -- make dir opaque
      match ← Prog.attempt (if needDiropq then createDiropq sb src a.btgt else pure ()) with
      | .error err => outRename a src dst bycpup tmp whSrc err
      | .ok () =>
        -- remove whiteout for dentry
        match ← Prog.attempt (match whDst with | none => pure () | some wh => auUnlinkWhDentry wh dst) with
        | .error err => outDiropq a src dst needDiropq bycpup tmp whSrc err
        | .ok () => removeWhtmp a sb tmp

/-- `do_rename` from the whiteout of the new name on. -/
def renameFrom (inWay : Bool) (whSrc : Option HDentry) : Op Unit := do
  -- lookup whiteout for dentry
  match ← Prog.attempt (if a.whdst then some <$> lkupWh a.parentDst (dName dst) else pure none) with
  | .error err => outWhsrc src dst whSrc err
  | .ok d => do
    let whDst := d.filter HDentry.positive
    if inWay then do
      -- rename dentry to tmpwh
      match ← Prog.attempt (renameWhtmp dst a.btgt) with
      | .error err => outWhsrc src dst whSrc err
      | .ok () => do
        let tmp ← hDptrI dst a.btgt
        onDinfo dst fun d => d.setHDptr a.btgt none
        match ← Prog.attempt (Op.lkupNeg dst a.btgt) with
        | .error err => outWhtmp a src dst (some tmp) whSrc err
        | .ok () => do
          let h ← hDptrI dst a.btgt
          renameEntry { a with hiddenDst := h } src dst sb (some tmp) whSrc whDst
    else renameEntry a src dst sb none whSrc whDst

/-- `do_rename` -/
def doRename : Op Unit := do
  let inWay := a.isdir && a.hiddenDst.positive
  if inWay then kmalloc else pure ()
  -- create whiteout for src_dentry
  let whSrc ← (if a.whsrc then some <$> simpleCreateWh sb src a.btgt a.parentSrc else pure none)
  renameFrom a src dst sb inWay whSrc

-- ---------------------------------------------------------------------------
-- aufs_rename
-- ---------------------------------------------------------------------------

/-- The dentry and its inode below the branch are given up. -/
def putLower (btgt : Int) : Op Unit := .update fun m =>
  { m.setDi src { m.di src with
      bwh := -1
      bend := btgt
      hdentry := fun b => if btgt < b ∧ b ≤ (m.di src).bend then none else (m.di src).hdentry b } with
    hi := Function.update m.hi src fun b => if btgt < b then none else m.hi src b }

variable (hash : Name → Nat)

/-- `aufs_rename` with the locks. -/
def renameLocked (isdir : Bool) : Op Unit := do
  let m ← Prog.state
  let bstartDst := (m.di dst).bstart
  let btgt ← wrDir sb dst true (some src) (-1)
  let whlist ←
    if isdir && (m.dInode dst).isSome then do
      onDinfo dst fun d => { d with bstart := bstartDst }
      let r ← Prog.attempt (mayRenameDstdir hash dst .init)
      onDinfo dst fun d => { d with bstart := btgt }
      .ofExcept r
    else pure .init
  let hiddenDst ← hDptrI dst (← dinfo dst).bstart
  let bstartSrc := (← dinfo src).bstart
  let _ ← hDptrI src bstartSrc
  if isdir then mayRenameSrcdir hash src btgt else pure ()
  let (whsrc, btgt) ← wrDirNeedWh sb src isdir btgt
  let whdst := decide (bstartDst = btgt)
  if whdst then pure () else cpupDirs sb dst btgt
  let parentSrc ← hDptrI (dParent src) btgt
  let parentDst ← hDptrI (dParent dst) btgt
  doRename ⟨btgt, bstartSrc, parentSrc, parentDst, hiddenDst, isdir, whsrc, whdst, whlist⟩ src dst sb
  putLower src btgt

/-- `aufs_rename` -/
def aufsRename : Op Unit := do
  kmalloc
  let m ← Prog.state
  let isdir := (m.dInode src).any HInode.isDir
  if isdir && (m.dInode dst).any fun i => !i.isDir then .fail .ENOTDIR
  else
    match ← Prog.attempt (renameLocked src dst sb hash isdir) with
    | .ok () => pure ()
    | .error err => do
      if isdir then onDinfo dst Dinfo.updateDbstart else pure ()
      .fail err

end Aufs
