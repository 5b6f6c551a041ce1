-- SUMMARY: Copying a file or a directory up to a writable branch, and choosing that branch (cpup.c, wr_dir of i_op.c).
import Aufs.Whout

/-!
# Copy-up

`cpup_entry` makes the new entry with the type and the content of the old one,
`cpup_dirs` does so for every parent that the writable branch lacks, topmost
first. `wr_dir` finds the branch for a new entry. Times and ownership are part
of the content here.
-/

namespace Aufs

open Op

/-- `cpup_entry`. A regular file that cannot be filled is removed again. -/
def cpupEntry (p : Path) (bdst bsrc : Int) : Op Unit := do
  let hiddenSrc ← hDptrI p bsrc
  let i ← inodeOf hiddenSrc
  let hiddenDst ← hDptrI p bdst
  match i.mode with
  | .reg => do
    vfsubMake hiddenDst .reg i.data
    -- cpup_regular
    match ← Prog.attempt mayFail with
    | .ok () => pure ()
    | .error e => do
      match ← Prog.attempt (vfsubUnlink hiddenDst) with
      | .ok () => .fail e
      | .error _ => .fail Errno.EIO
  | .lnk => do
    kmalloc
    mayFail -- readlink
    vfsubMake hiddenDst .lnk i.data
  | mode => vfsubMake hiddenDst mode i.data

/-- The directory of the pseudo-links of a branch. -/
def whPlinkName : Name := whName (whPfx ++ [112, 108, 105, 110, 107])

/-- `%lu` -/
def decimal (n : Nat) : Name := (Nat.toDigits 10 n).map fun c => c.toNat.toUInt8

/-- `lkup_plink` of the hidden inode `i`. -/
def lkupPlink (sb : SuperBlock) (p : Path) (bindex : Int) (i : HInode) : Op HDentry := do
  let m ← Prog.state
  match sb.stobr bindex with
  | none => refuse .oops
  | some br => Op.lkupOne ⟨br.root, [whPlinkName], none⟩ (decimal (m.ino p) ++ [46] ++ decimal i.ino)

/-- `i_nlink` -/
def LowerFs.nlink (f : LowerFs) (ino : Nat) : Nat := (f.ents.filter fun e => e.2.ino = ino).length

/-- The part of `cpup_single` after the test of the inode: the entry, its attributes, and
its inode in the inode of the dentry. -/
def cpupNew (p : Path) (bdst bsrc : Int) : Op Unit := do
  cpupEntry p bdst bsrc
  .update fun m => m.touch p bdst
  let hiddenDst ← hDptrI p bdst
  let i ← inodeOf hiddenDst
  -- cpup_iattr
  match ← Prog.attempt mayFail with
  | .ok () =>
    .update fun m => { m with hi := Function.update m.hi p (Function.update (m.hi p) bdst (some i)) }
  | .error e => do
    match ← Prog.attempt (if i.isDir then vfsubRmdir hiddenDst else vfsubUnlink hiddenDst) with
    | .ok () => .fail e
    | .error _ => .fail Errno.EIO

/-- `cpup_single`. An inode that is on the upper branch already, under another name, is
linked from there. -/
def cpupSingle (sb : SuperBlock) (p : Path) (bdst bsrc : Int) : Op Unit := do
  let m ← Prog.state
  match m.hi p bdst with
  | none => cpupNew p bdst bsrc
  | some i =>
    if !sb.plink then refuse Errno.EIO
    else do
      let hiddenDst ← hDptrI p bdst
      if (m.w.fs hiddenDst.root).nlink i.ino ≠ 0 then do
        let hiddenSrc ← lkupPlink sb p bdst i
        vfsubLink hiddenSrc hiddenDst
        .update fun m => m.touch p bdst
      else cpupNew p bdst bsrc

/-- The first filled slot below `bdst`, as `cpup_simple` searches it. -/
def cpupSrc (d : Dinfo) (bdst : Int) : Int :=
  ((bindexes (bdst + 1) d.bend).find? fun b => (d.hDptrI b).isSome).getD (max bdst d.bend + 1)

/-- `cpup_simple` -/
def cpupSimple (sb : SuperBlock) (p : Path) (bdst : Int) : Op Unit := do
  let d ← dinfo p
  let bsrc := cpupSrc d bdst
  Op.lkupNeg p bdst
  match ← Prog.attempt (cpupSingle sb p bdst bsrc) with
  | .ok () => pure ()
  | .error e => do
    onDinfo p fun d => { d.setHDptr bdst none with bstart := bsrc }
    .fail e

/-- The loop of `cpup_dirs` from a directory to the root, as a list of names from the
directory upwards. The topmost directory that `bdst` lacks is made first; without a root
there the loop does not end. -/
def cpupDirsLoop (sb : SuperBlock) (bdst : Int) : List Name → Op Unit
  | [] => do
    let _ ← hDptrI [] bdst
    pure ()
  | n :: up => do
    let d ← dinfo (n :: up).reverse
    if (d.hDptrI bdst).isSome then pure ()
    else do
      cpupDirsLoop sb bdst up
      cpupSimple sb (n :: up).reverse bdst

/-- `cpup_dirs`: the parents of `p`. -/
def cpupDirs (sb : SuperBlock) (p : Path) (bdst : Int) : Op Unit :=
  if dParent p = [] then pure () else cpupDirsLoop sb bdst (dParent p).reverse

/-- The branch on which `wr_dir` works. -/
def wrBranch (sb : SuperBlock) (parent d : Dinfo) (hi : Int → Option HInode) (srcBstart : Option Int)
    (forceBtgt : Int) : Except Errno Int :=
  if 0 ≤ forceBtgt then .ok forceBtgt
  else
    let bcpup := match srcBstart with
      | some b => if b < d.bstart then b else d.bstart
      | none => d.bstart
    match testRo sb bcpup hi with
    | .error e => .error e
    | .ok true => findRwParentBr sb parent bcpup
    | .ok false => .ok bcpup

/-- `wr_dir` -/
def wrDir (sb : SuperBlock) (p : Path) (addEntry : Bool) (src : Option Path) (forceBtgt : Int) :
    Op Int := do
  let m ← Prog.state
  let bstart := (m.di p).bstart
  let bcpup ← .ofExcept <|
    wrBranch sb (m.di (dParent p)) (m.di p) (m.hi p) (src.map fun q => (m.di q).bstart) forceBtgt
  if bcpup = bstart then pure bcpup
  else do
    let _ ← hDptrI p bstart
    if addEntry then onDinfo p Dinfo.updateDbstart else pure ()
    let parent ← dinfo (dParent p)
    if (parent.hDptrI bcpup).isNone then cpupDirs sb p bcpup else pure ()
    if addEntry then Op.lkupNeg p bcpup else pure ()
    pure bcpup

end Aufs
