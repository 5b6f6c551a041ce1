-- SUMMARY: Making and removing whiteouts, opaque marks and directories that were set aside (whout.c), and the test for an empty directory (dir.c).
import Aufs.Mount
import Aufs.Vdir

/-!
# Whiteouts

A whiteout is a hard link to the base file of its branch, or a new file where
there is no base. A directory that is removed is first renamed to a temporary
name with two whiteout prefixes, which no lookup and no listing shows.
-/

namespace Aufs

/-- The whiteout of `AUFS_WH_BASENAME`: the file that all whiteouts of a branch link to. -/
def whBaseName : Name := whName (whPfx ++ [97, 117, 102, 115])

/-- `DNAME_INLINE_LEN_MIN` -/
def dnameInlineLenMin : Nat := 36

/-- `%.4d` -/
def decimal4 (n : Nat) : Name :=
  [n / 1000 % 10, n / 100 % 10, n / 10 % 10, n % 10].map fun k => (48 + k).toUInt8

/-- The temporary name of a directory that is set aside. -/
def whtmpName (n : Name) (cnt : Nat) : Name := whPfx ++ whPfx ++ n ++ [46] ++ decimal4 cnt

open Op

-- ---------------------------------------------------------------------------
-- Whiteouts
-- ---------------------------------------------------------------------------

/-- `lkup_wh` -/
def lkupWh (hParent : HDentry) (baseName : Name) : Op HDentry := do
  let wh ← onWorld (allocWhname baseName)
  Op.lkupOne hParent wh

/-- `link_or_create_wh`. When the base has no more links, it is made anew by a work queue. -/
def linkOrCreateWh (sb : SuperBlock) (wh : HDentry) (bindex : Int) : Op Unit :=
  match sb.stobr bindex with
  | none => refuse .oops
  | some br =>
    if br.wh then do
      match ← Prog.attempt (vfsubLink ⟨wh.root, [whBaseName], none⟩ wh) with
      | .ok () => pure ()
      | .error .EMLINK => vfsubMake wh .reg 0
      | .error e => .fail e
    else vfsubMake wh .reg 0

/-- `simple_create_wh`. A whiteout that is there already is returned as it is. -/
def simpleCreateWh (sb : SuperBlock) (p : Path) (bindex : Int) (hParent : HDentry) : Op HDentry := do
  let wh ← lkupWh hParent (dName p)
  if wh.positive then pure wh
  else do
    linkOrCreateWh sb wh bindex
    onDinfo p fun d => { d with bwh := bindex }
    pure wh

/-- `au_unlink_wh_dentry` -/
def auUnlinkWhDentry (wh : HDentry) (p : Path) : Op Unit := do
  vfsubUnlink wh
  onDinfo p fun d => { d with bwh := -1 }

/-- `unlink_wh_name` -/
def unlinkWhName (hParent : HDentry) (wh : Name) : Op Unit := do
  let h ← Op.lkupOne hParent wh
  if h.positive then vfsubUnlink h else pure ()

-- ---------------------------------------------------------------------------
-- Opaque marks
-- ---------------------------------------------------------------------------

/-- `create_diropq`: `do_diropq` with `do_create`. -/
def createDiropq (sb : SuperBlock) (p : Path) (bindex : Int) : Op Unit := do
  let h ← hDptrI p bindex
  let opq ← Op.lkupOne h diropqName
  linkOrCreateWh sb opq bindex
  onDinfo p fun d => { d with bdiropq := bindex }

/-- `remove_diropq`: `do_diropq` without `do_create`. -/
def removeDiropq (p : Path) (bindex : Int) : Op Unit := do
  let h ← hDptrI p bindex
  let opq ← Op.lkupOne h diropqName
  vfsubUnlink opq
  onDinfo p fun d => { d with bdiropq := -1 }

-- ---------------------------------------------------------------------------
-- Directories set aside
-- ---------------------------------------------------------------------------

/-- The loop of `lkup_whtmp`: after three names in use it is a `BUG()`. -/
def lkupWhtmpTry (hParent : HDentry) (pfx : Name) : Nat → Op HDentry
  | 0 => refuse .oops
  | tries + 1 => do
    let m ← Prog.state
    Prog.update fun m => { m with cnt := (m.cnt + 1) % 256 }
    let h ← Op.lkupOne hParent (whtmpName pfx m.cnt)
    if h.positive then lkupWhtmpTry hParent pfx tries else pure h

/-- `lkup_whtmp` -/
def lkupWhtmp (hParent : HDentry) (pfx : Name) : Op HDentry :=
  if dnameInlineLenMin < pfx.length then
    if pathMax ≤ 2 * whLen + pfx.length + 5 then refuse .ENAMETOOLONG
    else do
      kmalloc
      lkupWhtmpTry hParent pfx 3
  else lkupWhtmpTry hParent pfx 3

/-- `rename_whtmp`. The hidden dentry keeps its slot under its new name. -/
def renameWhtmp (p : Path) (bindex : Int) : Op Unit := do
  let h ← hDptrI p bindex
  let tmp ← lkupWhtmp ⟨h.root, dParent h.path, none⟩ (dName h.path)
  vfsubRename h tmp
  onDinfo p fun d => d.setHDptr bindex (some { h with path := tmp.path })

/-- All whiteouts of a list, in the order of the hash table. -/
def Nhash.all {α : Type} (nh : Nhash α) : List α := (List.range nhashSize).flatMap nh

/-- `is_longer_wh` -/
def isLongerWh (whlist : Nhash Wh) (btgt : Int) (limit : Nat) : Bool :=
  limit < (whlist.all.filter fun wh => wh.bindex = btgt).length

/-- The loop of `del_wh_children`. -/
def delWhLoop (hParent : HDentry) : List Wh → Op Unit
  | [] => pure ()
  | wh :: whs =>
    if wh.str.length + whLen ≤ pathMax then do
      unlinkWhName hParent (whName wh.str)
      delWhLoop hParent whs
    else refuse Errno.EIO

/-- `del_wh_children` -/
def delWhChildren (whlist : Nhash Wh) (hParent : HDentry) (bindex : Int) : Op Unit := do
  kmalloc
  delWhLoop hParent (whlist.all.filter fun wh => wh.bindex = bindex)

/-- `rmdir_whtmp` -/
def rmdirWhtmp (h : HDentry) (whlist : Nhash Wh) (bindex : Int) : Op Unit := do
  delWhChildren whlist h bindex
  vfsubRmdir h

-- ---------------------------------------------------------------------------
-- The test for an empty directory
-- ---------------------------------------------------------------------------

/-- `struct test_empty_arg` -/
structure TestEmptyArg where
  whlist : Nhash Wh
  whonly : Bool
  bindex : Int
  err : Option Errno
  called : Nat

variable (hash : Name → Nat)

/-- `test_empty_cb` -/
def testEmptyCb (arg : TestEmptyArg) (d : Dirent) (w : World) : TestEmptyArg × World :=
  let arg := { arg with err := none, called := arg.called + 1 }
  if d.name = dot ∨ d.name = dotdot then (arg, w)
  else if !isWhName d.name then
    if arg.whonly && !arg.whlist.known hash Wh.str d.name then ({ arg with err := some .ENOTEMPTY }, w)
    else (arg, w)
  else
    let name := d.name.drop whLen
    if arg.whlist.known hash Wh.str name then (arg, w)
    else
      match w.ask with
      | (some _, w) => ({ arg with err := some .ENOMEM }, w)
      | (none, w) => ({ arg with whlist := arg.whlist.add hash name ⟨arg.bindex, name⟩ }, w)

/-- The entries of one `readdir` call: an entry the callback refuses is not passed. -/
def testEmptyChunk : List Dirent → Nat → TestEmptyArg → World → Nat × TestEmptyArg × World
  | [], pos, arg, w => (pos, arg, w)
  | d :: ds, pos, arg, w =>
    match testEmptyCb hash arg d w with
    | (arg, w) => if arg.err = none then testEmptyChunk ds (pos + 1) arg w else (pos, arg, w)

/-- The `do ... while (!err && arg->called)` loop of `do_test_empty`. -/
def testEmptyRead : Nat → HFile → TestEmptyArg → World → Except Errno Unit × TestEmptyArg × World
  | 0, _, arg, w => (.error .oops, arg, w)
  | fuel + 1, hf, arg, w =>
    let rest := (w.dirents hf.root hf.path).drop hf.pos
    match testEmptyChunk hash (rest.take (w.chunk w.tick + 1)) hf.pos { arg with err := none, called := 0 } w with
    | (pos, arg, w) =>
      match w.ask with
      | (some e, w) => (.error e, arg, w)
      | (none, w) =>
        match arg.err with
        | some e => (.error e, arg, w)
        | none => if arg.called = 0 then (.ok (), arg, w) else testEmptyRead fuel { hf with pos } arg w

/-- `do_test_empty`: the first call is `hidden_open`. -/
def doTestEmpty (d : Dinfo) (arg : TestEmptyArg) (w : World) : Except Errno Unit × TestEmptyArg × World :=
  match d.hDptrI arg.bindex with
  | none => (.error .oops, arg, w)
  | some h =>
    match w.ask with
    | (some e, w) => (.error e, arg, w)
    | (none, w) =>
      testEmptyRead hash ((w.dirents h.root h.path).length + 2) ⟨h.root, h.path, 0⟩ arg w

/-- The loop of `test_empty` and `au_test_empty_lower` over the branches that are left. -/
def testEmptyLoop (d : Dinfo) : List Int → TestEmptyArg → World → Except Errno Unit × TestEmptyArg × World
  | [], arg, w => (.ok (), arg, w)
  | bindex :: rest, arg, w =>
    if d.positiveAt bindex then
      match doTestEmpty hash d { arg with bindex } w with
      | (.error e, arg, w) => (.error e, arg, w)
      | (.ok (), arg, w) => testEmptyLoop d rest arg w
    else testEmptyLoop d rest arg w

/-- `test_empty`: the whiteouts that are met go to the list. -/
def testEmpty (p : Path) (whlist : Nhash Wh) : Op (Nhash Wh) := do
  let d ← dinfo p
  onWorld fun w =>
    match testEmptyLoop hash d (bindexes d.bstart d.dbtaildir) ⟨whlist, true, 0, none, 0⟩ w with
    | (.error e, _, w) => (.error e, w)
    | (.ok (), arg, w) => (.ok arg.whlist, w)

/-- `au_test_empty_lower` -/
def auTestEmptyLower (p : Path) : Op Unit := do
  kmalloc
  let d ← dinfo p
  onWorld fun w =>
    match doTestEmpty hash d ⟨.init, false, d.bstart, none, 0⟩ w with
    | (.error e, _, w) => (.error e, w)
    | (.ok (), arg, w) =>
      match testEmptyLoop hash d (bindexes (d.bstart + 1) d.dbtaildir) { arg with whonly := true } w with
      | (r, _, w) => (r, w)

end Aufs
