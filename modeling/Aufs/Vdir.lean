-- SUMMARY: Virtual directories: the packed blocks of entries, the name hashes, and the merge of the branches (vdir.c).
import Aufs.Xino
import Aufs.Dinfo
import Aufs.Lib.Ticks

/-!
# Virtual directories

`read_vdir` lists a directory branch by branch. For every branch it keeps the
names it has listed (`delist`) and the whiteouts it has met (`whlist`); a name
that an upper branch has listed or whited out is passed over. The entries are
packed into blocks of `AUFS_DEBLK_SIZE` bytes.
-/

namespace Aufs

-- ---------------------------------------------------------------------------
-- Name hashes
-- ---------------------------------------------------------------------------

/-- `AUFS_NHASH_SIZE` -/
def nhashSize : Nat := 32

/-- `struct aufs_nhash`: a list for every value of `au_name_hash`. -/
abbrev Nhash (α : Type) := Nat → List α

namespace Nhash

variable {α : Type}

/-- `nhash_init` -/
def init : Nhash α := fun _ => []

/-- `hlist_add_head` on the list of the name. -/
def add (hash : Name → Nat) (nh : Nhash α) (name : Name) (x : α) : Nhash α :=
  Function.update nh (hash name % nhashSize) (x :: nh (hash name % nhashSize))

/-- The search of `test_known` and `test_known_wh` in the list of the name. -/
def known (hash : Name → Nat) (str : α → Name) (nh : Nhash α) (name : Name) : Bool :=
  (nh (hash name % nhashSize)).any fun x => str x = name

@[simp] theorem known_init (hash : Name → Nat) (str : α → Name) (n : Name) :
    known hash str init n = false := rfl

@[simp] theorem known_add (hash : Name → Nat) (str : α → Name) (nh : Nhash α) (x : α) (n : Name) :
    known hash str (nh.add hash (str x) x) n = (decide (str x = n) || known hash str nh n) := by
  unfold known add
  by_cases h : hash n % nhashSize = hash (str x) % nhashSize
  · rw [h, Function.update_self, List.any_cons]
  · rw [Function.update_of_ne h]
    have : str x ≠ n := fun he => h (by rw [he])
    simp [this]

end Nhash

/-- `struct aufs_wh` -/
structure Wh where
  bindex : Int
  str : Name
  deriving DecidableEq, Repr

-- ---------------------------------------------------------------------------
-- Blocks of entries
-- ---------------------------------------------------------------------------

/-- `struct aufs_de` -/
structure De where
  ino : Nat
  type : FType
  str : Name
  deriving DecidableEq, Repr

/-- A block, as the entries before its end mark. -/
abbrev Deblk := List De

/-- `AUFS_DEBLK_SIZE` -/
def deblkSize : Nat := 512

/-- `calc_size`: `ino_t` is a `long` of eight bytes, and an entry takes a multiple of it. -/
def calcSize (namelen : Nat) : Nat :=
  let sz := 8 + 1 + 1 + namelen
  if sz % 8 ≠ 0 then (sz + 8) - (sz + 8) % 8 else sz

/-- `struct aufs_vdir`. `lastI` and `lastP` are `vd_last`: a block and an offset in it. -/
structure Vdir where
  deblk : List Deblk
  lastI : Nat
  lastP : Nat
  version : Nat
  jiffy : Nat
  deriving DecidableEq, Repr

namespace Vdir

/-- The entries of all blocks. -/
def entries (vd : Vdir) : List De := vd.deblk.flatten

/-- The names of all entries. -/
def names (vd : Vdir) : List Name := vd.entries.map De.str

/-- `append_deblk`; `ask` is the allocation. -/
def appendDeblk (vd : Vdir) (w : World) : Except Errno Vdir × World :=
  match w.ask with
  | (some _, w) => (.error .ENOMEM, w)
  | (none, w) => (.ok { vd with deblk := vd.deblk ++ [[]], lastI := vd.deblk.length, lastP := 0 }, w)

/-- `alloc_vdir` -/
def alloc (w : World) : Except Errno Vdir × World :=
  match w.ask with
  | (some _, w) => (.error .ENOMEM, w)
  | (none, w) => appendDeblk ⟨[], 0, 0, 0, 0⟩ w

/-- `reinit_vdir`: the first block stays and is emptied. -/
def reinit (vd : Vdir) : Vdir := { vd with deblk := [[]], lastI := 0, lastP := 0, version := 0, jiffy := 0 }

/-- Put an entry at the end of the last block. -/
def push (vd : Vdir) (de : De) : Vdir :=
  { vd with
    deblk := vd.deblk.dropLast ++ [vd.deblk.getLast?.getD [] ++ [de]]
    lastP := vd.lastP + calcSize de.str.length }

end Vdir

/-- `append_de`. The name enters the hash before a new end block may fail. -/
def appendDe (hash : Name → Nat) (vd : Vdir) (delist : Nhash Name) (de : De) (w : World) :
    Except Errno Unit × Vdir × Nhash Name × World :=
  match (if calcSize de.str.length > deblkSize - vd.lastP then vd.appendDeblk w else (.ok vd, w)) with
  | (.error e, w) => (.error e, vd, delist, w)
  | (.ok vd, w) =>
    match w.ask with
    | (some _, w) => (.error .ENOMEM, vd, delist, w)
    | (none, w) =>
      let delist := delist.add hash de.str de.str
      let vd := vd.push de
      -- set_deblk_end() fails
      if calcSize 0 ≤ deblkSize - vd.lastP then (.ok (), vd, delist, w)
      else
        match vd.appendDeblk w with
        | (.error e, w) => (.error e, vd, delist, w)
        | (.ok vd, w) => (.ok (), vd, delist, w)

-- ---------------------------------------------------------------------------
-- One entry of a lower directory
-- ---------------------------------------------------------------------------

/-- The name test of `fillvdir`: more than the prefix, and beginning with it. -/
def isWhName (n : Name) : Bool := whLen < n.length && hasWhPfx n

/-- `struct fillvdir_arg`, without the file. -/
structure FillArg where
  vdir : Vdir
  delist : Int → Nhash Name
  whlist : Int → Nhash Wh
  bindex : Int
  err : Option Errno
  called : Nat

variable (hash : Name → Nat)

/-- Has a branch above `bindex` listed the name or whited it out? -/
def FillArg.hidden (arg : FillArg) (name : Name) : Bool :=
  (bindexes 0 (arg.bindex - 1)).any fun b =>
    (arg.delist b).known hash id name || (arg.whlist b).known hash Wh.str name

/-- The inode number of an entry. A failure of `xino_new_ino` is overwritten by the result
of `xino_write`. -/
def fillIno (sb : SuperBlock) (w : World) (bindex : Int) (hIno : Nat) : Except Errno Nat × World :=
  match xinoRead sb w bindex hIno with
  | (.error e, w) => (.error e, w)
  | (.ok ino, w) =>
    let (ino, w) := if ino = 0 then xinoNewIno w else (ino, w)
    match xinoWrite sb w bindex hIno ino with
    | (.error e, w) => (.error e, w)
    | (.ok (), w) => (.ok ino, w)

/-- `fillvdir` -/
def fillvdir (sb : SuperBlock) (arg : FillArg) (d : Dirent) (w : World) : FillArg × World :=
  let arg := { arg with err := none, called := arg.called + 1 }
  let out (arg : FillArg) : FillArg :=
    if arg.err = none then { arg with vdir := { arg.vdir with jiffy := w.jiffies } } else arg
  if !isWhName d.name then
    if arg.hidden hash d.name then (out arg, w) -- already exists or whiteouted
    else
      match fillIno sb w arg.bindex d.ino with
      | (.error e, w) => ({ arg with err := some e }, w)
      | (.ok ino, w) =>
        match appendDe hash arg.vdir (arg.delist arg.bindex) ⟨ino, d.type, d.name⟩ w with
        | (res, vdir, delist, w) =>
          let err := match res with
            | .ok () => none
            | .error e => some e
          (out { arg with vdir, delist := Function.update arg.delist arg.bindex delist, err }, w)
  else
    let name := d.name.drop whLen
    -- the list asked is that of the branch itself
    if 0 < arg.bindex && (arg.whlist arg.bindex).known hash Wh.str name then (out arg, w)
    else
      match w.ask with
      | (some _, w) => ({ arg with err := some .ENOMEM }, w)
      | (none, w) =>
        let whlist := (arg.whlist arg.bindex).add hash name ⟨arg.bindex, name⟩
        (out { arg with whlist := Function.update arg.whlist arg.bindex whlist }, w)

-- ---------------------------------------------------------------------------
-- One lower directory
-- ---------------------------------------------------------------------------

/-- An open hidden directory and its position. -/
structure HFile where
  root : Nat
  path : Path
  pos : Nat
  deriving DecidableEq, Repr

/-- The entries of one `readdir` call: an entry the callback refuses is not passed. -/
def fillChunk (sb : SuperBlock) : List Dirent → Nat → FillArg → World → Nat × FillArg × World
  | [], pos, arg, w => (pos, arg, w)
  | d :: ds, pos, arg, w =>
    match fillvdir hash sb arg d w with
    | (arg, w) => if arg.err = none then fillChunk sb ds (pos + 1) arg w else (pos, arg, w)

/-- `vfsub_readdir` with the callback `fillvdir`: some of the entries that are left, then
perhaps an error. -/
def vfsubReaddir (sb : SuperBlock) (hf : HFile) (arg : FillArg) (w : World) :
    Except Errno Unit × HFile × FillArg × World :=
  let rest := (w.dirents hf.root hf.path).drop hf.pos
  match fillChunk hash sb (rest.take (w.chunk w.tick + 1)) hf.pos arg w with
  | (pos, arg, w) =>
    match w.ask with
    | (some e, w) => (.error e, { hf with pos }, arg, w)
    | (none, w) => (.ok (), { hf with pos }, arg, w)

/-- The `do ... while (!err && arg.called)` loop over one hidden directory. `none` when the
fuel does not reach the end. -/
def readHdir (sb : SuperBlock) : Nat → HFile → FillArg → World →
    Option (Except Errno Unit × HFile × FillArg × World)
  | 0, _, _, _ => none
  | fuel + 1, hf, arg, w =>
    match vfsubReaddir hash sb hf { arg with err := none, called := 0 } w with
    | (.error e, hf, arg, w) => some (.error e, hf, arg, w)
    | (.ok (), hf, arg, w) =>
      match arg.err with
      | some e => some (.error e, hf, arg, w)
      | none => if arg.called = 0 then some (.ok (), hf, arg, w) else readHdir sb fuel hf arg w

/-- What `read_vdir` reads and writes of the directory stream: `fi_bstart`, `fi_bend`, the
open hidden directories, `f_pos`, `f_version` and the stream's own `vdir`. -/
structure DirFile where
  fbstart : Int
  fbend : Int
  hfile : Int → Option HFile
  pos : Nat
  version : Nat
  vdirCache : Option Vdir

/-- What it reads and writes of the inode. -/
structure DirInode where
  version : Nat
  vdir : Option Vdir

/-- The loop of `read_vdir` over the branches that are left. -/
def readBranches (sb : SuperBlock) : List Int → (Int → Option HFile) → FillArg → World →
    Except Errno Unit × (Int → Option HFile) × FillArg × World
  | [], hfs, arg, w => (.ok (), hfs, arg, w)
  | bindex :: rest, hfs, arg, w =>
    match hfs bindex with
    | none => readBranches sb rest hfs arg w
    | some hf =>
      -- the position is not reset: hf->f_pos = 0 is commented out
      match readHdir hash sb ((w.dirents hf.root hf.path).length + 2) hf { arg with bindex } w with
      | none => (.error .oops, hfs, arg, w)
      | some (.error e, hf, arg, w) => (.error e, Function.update hfs bindex (some hf), arg, w)
      | some (.ok (), hf, arg, w) => readBranches sb rest (Function.update hfs bindex (some hf)) arg w

/-- Which `vdir` does `read_vdir` fill? A new one, the one there is after `reinit_vdir`, or
none because the one there is serves. -/
inductive VdirPlan where
  | new | again (vd : Vdir) | serve
  deriving DecidableEq, Repr

/-- The decision at the head of `read_vdir`. Of the clock and the stamp only `time_after` is
asked, which sees them as a `long`. -/
def vdirPlan (sb : SuperBlock) (mayRead : Bool) (ino : DirInode) (w : World) : VdirPlan :=
  match ino.vdir with
  | none => .new
  | some vd =>
    if mayRead && (ino.version ≠ vd.version || Ticks.timeAfter w.jiffies (vd.jiffy + sb.rdcache)) then .again vd.reinit
    else .serve

/-- The two `kmalloc` calls and the branch loop of `read_vdir`. -/
def fillVdir (sb : SuperBlock) (f : DirFile) (vd : Vdir) (w : World) :
    Except Errno Unit × DirFile × Vdir × World :=
  match w.ask with
  | (some _, w) => (.error .ENOMEM, f, vd, w)
  | (none, w) =>
    match w.ask with
    | (some _, w) => (.error .ENOMEM, f, vd, w)
    | (none, w) =>
      let arg : FillArg := ⟨vd, fun _ => .init, fun _ => .init, 0, none, 0⟩
      match readBranches hash sb (bindexes f.fbstart f.fbend) f.hfile arg w with
      | (res, hfile, arg, w) => (res, { f with hfile }, arg.vdir, w)

/-- `read_vdir` -/
def readVdir (sb : SuperBlock) (mayRead : Bool) (ino : DirInode) (f : DirFile)
    (w : World) : Except Errno Unit × DirInode × DirFile × World :=
  match vdirPlan sb mayRead ino w with
  | .serve => (.ok (), ino, f, w)
  | .again vd =>
    match fillVdir hash sb f vd w with
    | (.error e, f, vd, w) => (.error e, { ino with vdir := some vd }, f, w)
    | (.ok (), f, vd, w) =>
      (.ok (), { ino with vdir := some { vd with version := ino.version, lastI := 0, lastP := 0 } }, f, w)
  | .new =>
    match Vdir.alloc w with
    | (.error e, w) => (.error e, ino, f, w)
    | (.ok vd, w) =>
      match fillVdir hash sb f vd w with
      | (.error e, f, _, w) => (.error e, ino, f, w)
      | (.ok (), f, vd, w) =>
        (.ok (), { ino with vdir := some { vd with version := ino.version, lastI := 0, lastP := 0 } }, f, w)

/-- `copy_vdir` into a `vdir` of one block; when it fails the target is emptied. -/
def copyVdir (tgt src : Vdir) (w : World) : Except Errno Unit × Vdir × World :=
  match w.ask with
  | (some _, w) => (.error .ENOMEM, tgt.reinit, w)
  | (none, w) => (.ok (), { tgt with deblk := src.deblk, version := src.version, jiffy := src.jiffy }, w)

/-- `au_init_vdir` -/
def auInitVdir (sb : SuperBlock) (ino : DirInode) (f : DirFile) (w : World) :
    Except Errno Unit × DirInode × DirFile × World :=
  match readVdir hash sb (f.pos = 0) ino f w with
  | (.error e, ino, f, w) => (.error e, ino, f, w)
  | (.ok (), ino, f, w) =>
    let plan := match f.vdirCache with
      | none => VdirPlan.new
      | some vd => if f.pos = 0 ∧ vd.version ≠ f.version then .again vd.reinit else .serve
    match plan, ino.vdir with
    | .serve, _ => (.ok (), ino, f, w)
    | _, none => (.error .oops, ino, f, w)
    | .again vd, some src =>
      match copyVdir vd src w with
      | (.error e, vd, w) => (.error e, ino, { f with vdirCache := some vd }, w)
      | (.ok (), vd, w) => (.ok (), ino, { f with vdirCache := some vd, version := ino.version }, w)
    | .new, some src =>
      match Vdir.alloc w with
      | (.error e, w) => (.error e, ino, f, w)
      | (.ok vd, w) =>
        match copyVdir vd src w with
        | (.error e, _, w) => (.error e, ino, f, w)
        | (.ok (), vd, w) => (.ok (), ino, { f with vdirCache := some vd, version := ino.version }, w)

end Aufs
