-- SUMMARY: Lookup through the branches: do_lookup, lkup_dentry and lkup_neg of dentry.c, with the whiteout tests of whout.c.
import Aufs.Xino
import Aufs.Dinfo

/-!
# Lookup

`lkup_dentry` asks the hidden parents one after another, from the first branch of
the parent to its tail. It fills the slots of the dentry, and notes where it met
a whiteout and where an opaque directory.
-/

namespace Aufs

/-- `lkup_one`: the dentry of a name, negative when there is none. -/
def lkupOne (w : World) (hParent : HDentry) (name : Name) : Except Errno HDentry × World :=
  match w.ask with
  | (some e, w) => (.error e, w)
  | (none, w) =>
    if nameMax < name.length then (.error .ENAMETOOLONG, w)
    else
      let path := hParent.path ++ [name]
      (.ok ⟨hParent.root, path, (w.fs hParent.root).node path⟩, w)

/-- `is_wh`: a whiteout is a regular file. -/
def isWh (w : World) (hParent : HDentry) (wh : Name) : Except Errno Bool × World :=
  match lkupOne w hParent wh with
  | (.error e, w) => (.error e, w)
  | (.ok h, w) =>
    match h.inode with
    | none => (.ok false, w)
    | some i => if i.mode = .reg then (.ok true, w) else (.error Errno.EIO, w)

/-- `is_diropq` -/
def isDiropq (w : World) (h : HDentry) : Except Errno Bool × World := isWh w h diropqName

/-- The slot of `bindex` is filled and the ends follow. -/
def Dinfo.enter (d : Dinfo) (bindex : Int) (h : HDentry) : Dinfo :=
  { d with
    bend := if d.bend ≤ bindex then bindex else d.bend
    bstart := if d.bstart = -1 ∨ bindex < d.bstart then bindex else d.bstart
    hdentry := Function.update d.hdentry bindex (some h) }

/-- `do_lookup`. `none` means that the name is whited out or not found. -/
def doLookup (sb : SuperBlock) (name : Name) (hParent : HDentry) (d : Dinfo) (bindex : Int)
    (allowNeg : Bool) (type : Option FType) (w : World) :
    Except Errno (Option HDentry) × Dinfo × World :=
  let whAble := sb.sbrIsWhable bindex
  match (if whAble then isWh w hParent (whName name) else (.ok false, w)) with
  | (.error e, w) => (.error e, d, w)
  | (.ok whFound, w) =>
    let d := if whFound then { d with bwh := bindex } else d
    if whFound && !allowNeg then (.ok none, d, w)
    else
      match lkupOne w hParent name with
      | (.error e, w) => (.error e, d, w)
      | (.ok h, w) =>
        match h.inode with
        | none => if allowNeg then (.ok (some h), d.enter bindex h, w) else (.ok none, d, w)
        | some i =>
          if whFound || type.any (· ≠ i.mode) then (.ok none, d, w)
          else
            let d := d.enter bindex h
            if !i.isDir || !whAble then (.ok (some h), d, w)
            else
              match isDiropq w h with
              | (.error e, w) => (.error e, d.setHDptr bindex none, w)
              | (.ok true, w) => (.ok (some h), { d with bdiropq := bindex }, w)
              | (.ok false, w) => (.ok (some h), d, w)

/-- What the loop of `lkup_dentry` carries along: `allow_neg`, `type` and `npositive`. -/
structure LkupVars where
  allowNeg : Bool
  type : Option FType
  npositive : Nat

/-- The dentry information of the root dentry: the roots of all branches. -/
def rootDinfo (sb : SuperBlock) (w : World) : Dinfo where
  bstart := 0
  bend := sb.sbend
  bwh := -1
  bdiropq := -1
  hdentry := fun b => (sb.stobr b).map fun br => ⟨br.root, [], (w.fs br.root).node []⟩

/-- The hidden parent of a branch, if it is a directory. -/
def Dinfo.hDir (parent : Dinfo) (bindex : Int) : Option HDentry :=
  (parent.hDptrI bindex).filter fun h => h.inode.any HInode.isDir

/-- The loop of `lkup_dentry` over the indices that are left. -/
def lkupLoop (sb : SuperBlock) (name : Name) (parent : Dinfo) :
    List Int → LkupVars → Dinfo → World → Except Errno Nat × Dinfo × World
  | [], v, d, w => (.ok v.npositive, d, w)
  | bindex :: rest, v, d, w =>
    match d.hDptrI bindex with
    | some h =>
      let v := if h.positive then { v with npositive := v.npositive + 1 } else v
      if v.type ≠ some .dir then (.ok v.npositive, d, w) else lkupLoop sb name parent rest v d w
    | none =>
      match parent.hDir bindex with
      | none => lkupLoop sb name parent rest v d w
      | some hParent =>
        match doLookup sb name hParent d bindex v.allowNeg v.type w with
        | (.error e, d, w) => (.error e, d, w)
        | (.ok h, d, w) =>
          let v := { v with allowNeg := false }
          if d.bwh ≠ -1 then (.ok v.npositive, d, w)
          else
            match h.bind HDentry.inode with
            | none => lkupLoop sb name parent rest v d w
            | some i =>
              let v : LkupVars := ⟨false, some (v.type.getD i.mode), v.npositive + 1⟩
              if v.type ≠ some .dir then (.ok v.npositive, d, w)
              else if d.bdiropq ≠ -1 then (.ok v.npositive, d, w)
              else lkupLoop sb name parent rest v d w

/-- `au_alloc_whname` -/
def allocWhname (name : Name) (w : World) : Except Errno Name × World :=
  if pathMax - whLen < name.length then (.error .ENAMETOOLONG, w)
  else
    match w.ask with
    | (some _, w) => (.error .ENOMEM, w)
    | (none, w) => (.ok (whName name), w)

/-- `lkup_dentry`: the number of positive hidden dentries. -/
def lkupDentry (sb : SuperBlock) (name : Name) (parent d : Dinfo) (bstart : Int) (type : Option FType)
    (w : World) : Except Errno Nat × Dinfo × World :=
  if hasWhPfx name then (.error .EPERM, d, w)
  else
    match allocWhname name w with
    | (.error e, w) => (.error e, d, w)
    | (.ok _, w) =>
      match lkupLoop sb name parent (bindexes bstart parent.dbtaildir) ⟨type.isNone, type, 0⟩ d w with
      | (.error e, d, w) => (.error e, d, w)
      | (.ok npositive, d, w) =>
        (.ok npositive, if npositive ≠ 0 then d.updateDbstart else d, w)

/-- `lkup_neg`: the hidden dentry of a name that should not be there. -/
def lkupNeg (name : Name) (parent d : Dinfo) (bindex : Int) (w : World) :
    Except Errno Unit × Dinfo × World :=
  match parent.hDptrI bindex with
  | none => (.error .oops, d, w)
  | some hParent =>
    match lkupOne w hParent name with
    | (.error e, w) => (.error e, d, w)
    | (.ok h, w) =>
      if h.positive then (.error Errno.EIO, d, w)
      else
        (.ok (),
          { d with
            bstart := if bindex < d.bstart then bindex else d.bstart
            bend := if d.bend < bindex then bindex else d.bend
            hdentry := Function.update d.hdentry bindex (some h) }, w)

end Aufs
