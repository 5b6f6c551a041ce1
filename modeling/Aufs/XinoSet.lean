-- SUMMARY: Making, sharing, moving and dropping the xino files of the branches: xino_init, xino_set and xino_clr of xino.c.
import Aufs.BrTable
import Aufs.CopyFile

/-!
# The xino files of the branches

Branches on one hidden super block are to share an xino file. A branch gets its file when it
is added or when the option `xino=` is given; the option also moves the files to a new
place. How each creation, write and copy ends is up to the lower file systems.
-/

namespace Aufs

open ByteFile

-- ---------------------------------------------------------------------------
-- The lower file systems
-- ---------------------------------------------------------------------------

/-- How `xino_create2` ends: with the error of its lookup, create, open or unlink, or with a
file, of which `find_readf` and `find_writef` find a function to read and one to write. -/
abbrev XinoCreate := Except LowerErrno (Bool × Bool)

/-- The answers that one `xino_init` gets. The write moves at most the bytes given. -/
structure XinoInitEnv where
  create : XinoCreate
  write : Except LowerErrno Nat

/-- The answers that `xino_set` gets, for each branch. Every copy is given `fuel` for its
loops. -/
structure XinoSetEnv where
  create : Int → XinoCreate
  copy : Int → CopyEnv
  fuel : Nat
  init : Int → XinoInitEnv

-- ---------------------------------------------------------------------------
-- Entries
-- ---------------------------------------------------------------------------

/-- One entry written at the place of a hidden inode number. -/
def xinoFwrite (l : LongSize) (ans : Except LowerErrno Nat) (content : List UInt8) (hIno ino : Nat) :
    Except Errno Nat × List UInt8 :=
  match ans with
  | .error err => (.error err.1, content)
  | .ok n => hiddenWrite content (l.xinoPos hIno) ((toBytes l.size ino).take n)

/-- `br_xino` after `fput`. -/
def AufsBranch.putXino (br : AufsBranch) : AufsBranch := { br with brXino := none }

namespace Sbinfo

/-- `br_xino` of the branch at an index. -/
def brXino (st : Sbinfo) (bindex : Int) : Option XFile := (st.stobr bindex).bind AufsBranch.brXino

/-- What the table of inode numbers finds in this mount. -/
def xinoMount (h : Host) (st : Sbinfo) : XinoMount where
  long := h.long
  xino := st.xino
  brXino bindex := ((st.brXino bindex).map XFile.id).getD 0

end Sbinfo

/-- `xino_write`. Without a file or a function to write with, `NULL` or an error value is
called. -/
def Host.xinoWrite (h : Host) (st : Sbinfo) (ans : Except LowerErrno Nat) (bindex : Int)
    (hIno ino : Nat) : Except Errno Unit × Sbinfo :=
  if !st.xino then (.ok (), st)
  else
    match st.stobr bindex with
    | none => (.error .oops, st)
    | some br =>
      match br.brXino with
      | none => (.error .oops, st)
      | some file =>
        if !br.brXinoWrite then (.error .oops, st)
        else
          let (r, content) := xinoFwrite h.long ans (st.files file.id) hIno ino
          let st := { st with files := Function.update st.files file.id content }
          match r with
          | .error _ => (.error Errno.EIO, st)
          | .ok sz => (if sz = h.long.size then .ok () else .error Errno.EIO, st)

/-- `xino_read`, where the lower read moves at most the bytes given. -/
def Host.xinoRead (h : Host) (st : Sbinfo) (ans : Except LowerErrno Nat) (bindex : Int) (hIno : Nat) :
    Except Errno Nat :=
  if !st.xino then .ok 0
  else
    match st.stobr bindex with
    | none => .error .oops
    | some br =>
      match br.brXino with
      | none => .error .oops
      | some file =>
        if (st.xinoMount h).noEntry (st.files file.id) (h.long.xinoPos hIno) then .ok 0
        else if !br.brXinoRead then .error .oops
        else
          match ans with
          | .error err => .error err.1
          | .ok n =>
            match hiddenRead (st.files file.id) (h.long.xinoPos hIno) h.long.size with
            | .error err => .error err
            | .ok bs =>
              if (bs.take n).length = h.long.size then .ok (ofBytes bs) else .error Errno.EIO

-- ---------------------------------------------------------------------------
-- Making a file
-- ---------------------------------------------------------------------------

/-- `xino_create2`: a new empty file at a place, unlinked while it is open. -/
def Host.xinoCreate2 (h : Host) (st : Sbinfo) (ans : XinoCreate) (place : XinoPlace) :
    Except Errno XFile × Sbinfo :=
  if (h.sb place.dir.dSb).nfs then (.error .EINVAL, st)
  else
    match ans with
    | .error err => (.error err.1, st)
    | .ok (hasRead, hasWrite) =>
      (.ok ⟨st.nextFile, place, hasRead, hasWrite⟩,
        { st with nextFile := st.nextFile + 1, files := Function.update st.files st.nextFile [] })

/-- `is_sb_shared` -/
def Sbinfo.isSbShared (st : Sbinfo) (btgt bend : Int) : Int :=
  ((bindexes 0 bend).find? fun bindex =>
    btgt ≠ bindex && (st.stobr btgt).map AufsBranch.brMntSb = (st.stobr bindex).map AufsBranch.brMntSb).getD (-1)

/-- The file that `xino_init` takes over from another branch. -/
def Sbinfo.sharedFile (st : Sbinfo) (bindex : Int) (doTest : Bool) : Option XFile :=
  if doTest then
    let bshared := st.isSbShared bindex st.siBend
    if 0 ≤ bshared then st.brXino bshared else none
  else none

/-- The second half of `xino_init`: the branch gets the file, and the root its entry. -/
def Host.xinoInitFile (h : Host) (st : Sbinfo) (write : Except LowerErrno Nat) (bindex : Int)
    (file : XFile) : Except Errno Unit × Sbinfo :=
  if !file.hasRead then
    (.error .ENOSYS, st.setBranch bindex fun br => { br with brXinoRead := false })
  else if !file.hasWrite then
    (.error .ENOSYS, st.setBranch bindex fun br =>
      { br with brXinoRead := true, brXinoWrite := false })
  else
    let st := st.setBranch bindex fun br =>
      { br with brXinoRead := true, brXinoWrite := true, brXino := some file }
    match (st.hinode bindex).bind HinodeCell.hiInode with
    | none => (.error .oops, st)
    | some hiddenInode =>
      match h.xinoWrite st write bindex hiddenInode.iIno rootIno with
      | (.ok (), st) => (.ok (), st)
      | (.error err, st) => (.error err, st.setBranch bindex .putXino)

/-- `xino_init`. `base` is the place of `base_file`, which may be `NULL`. -/
def Host.xinoInit (h : Host) (st : Sbinfo) (e : XinoInitEnv) (bindex : Int)
    (base : Option XinoPlace) (doTest : Bool) : Except Errno Unit × Sbinfo :=
  match st.sharedFile bindex doTest with
  | some file => h.xinoInitFile st e.write bindex file
  | none =>
    match base with
    | none => (.error .oops, st)
    | some place =>
      match h.xinoCreate2 st e.create place with
      | (.error err, st) => (.error err, st)
      | (.ok file, st) => h.xinoInitFile st e.write bindex file

-- ---------------------------------------------------------------------------
-- The option
-- ---------------------------------------------------------------------------

namespace Sbinfo

variable (st : Sbinfo)

/-- `file_count` of an xino file: only branches hold it. -/
def fileCount (file : XFile) : Nat :=
  ((bindexes 0 st.siBend).filter fun bindex => (st.brXino bindex).any (·.id = file.id)).length

/-- One round of the first loop of `xino_set`. -/
def dropShared (bindex : Int) : Sbinfo :=
  match st.brXino bindex with
  | none => st
  | some file =>
    if 1 < st.fileCount file then st.setBranch bindex .putXino else st

/-- The mount flag that goes with a result. -/
def finish (r : Except Errno Unit) : Except Errno Unit × Sbinfo :=
  match r with
  | .ok () => (.ok (), { st with xino := true })
  | .error err => (.error err, { st with xino := false })

/-- `xino_clr` -/
def xinoClr : Sbinfo :=
  let st := (bindexes 0 st.siBend).foldl
    (fun st bindex => st.setBranch bindex .putXino) st
  { st with xino := false }

end Sbinfo

namespace Host

variable (h : Host) (e : XinoSetEnv) (place : XinoPlace)

/-- One round of the second loop of `xino_set`, for a branch that has a file. -/
def moveFile (st : Sbinfo) (bindex : Int) (old : XFile) : Except Errno Unit × Sbinfo :=
  match h.xinoCreate2 st (e.create bindex) place with
  | (.error err, st) => (.error err, st)
  | (.ok file, st) =>
    match auCopyFile (e.copy bindex) e.fuel (st.files file.id) (st.files old.id)
        (st.files old.id).length with
    | none => (.error .oops, st)
    | some (.error err, c) =>
      (.error err, { st with files := Function.update st.files file.id c.dst })
    | some (.ok (), c) =>
      let st := { st with files := Function.update st.files file.id c.dst }
      (.ok (), st.setBranch bindex fun br =>
        { br with brXino := some file, brXinoRead := file.hasRead, brXinoWrite := file.hasWrite })

/-- The second loop of `xino_set`: every file that is left is copied to the new place. -/
def moveFiles : List Int → Except Errno Unit → Sbinfo → Except Errno Unit × Sbinfo
  | [], err, st => (err, st)
  | bindex :: bs, err, st =>
    match st.brXino bindex with
    | none => moveFiles bs err st
    | some old =>
      match h.moveFile e place st bindex old with
      | (.error err, st) => (.error err, st)
      | (.ok (), st) => moveFiles bs (.ok ()) st

/-- The third loop of `xino_set`: branches without a file get one. The error of the second
loop is still in `err`. -/
def initFiles : List Int → Except Errno Unit → Sbinfo → Except Errno Unit × Sbinfo
  | [], err, st => (err, st)
  | bindex :: bs, err, st =>
    match st.brXino bindex with
    | some _ => initFiles bs err st
    | none =>
      match h.xinoInit st (e.init bindex) bindex (some place) true with
      | (.ok (), st) => initFiles bs (.ok ()) st
      | (.error .oops, st) => (.error .oops, st)
      | (.error _, st) => (.error Errno.EIO, st)

/-- `xino_set` for a new place: the three loops. -/
def xinoMove (st : Sbinfo) : Except Errno Unit × Sbinfo :=
  let st := { st with xino := true }
  let bs := bindexes 0 st.siBend
  let st := bs.reverse.foldl Sbinfo.dropShared st
  match h.moveFiles e place bs (.ok ()) st with
  | (.error .oops, st) => (.error .oops, st)
  | (err, st) =>
    let (err, st) := h.initFiles e place bs err st
    st.finish err

/-- `xino_set`. A remount with the place that the first branch has changes no file. -/
def xinoSet (st : Sbinfo) (remount : Bool) : Except Errno Unit × Sbinfo :=
  match st.stobr 0 with
  | none => (.error .oops, st)
  | some br =>
    if remount && br.brXino.any (·.place = place) then st.finish (.ok ())
    else h.xinoMove e place st

end Host

-- ---------------------------------------------------------------------------
-- The table stays
-- ---------------------------------------------------------------------------

namespace Sbinfo

variable {st st' : Sbinfo}

theorem sameTable_setBranch (bindex : Int) {f : AufsBranch → AufsBranch}
    (hf : ∀ br, (f br).key = br.key) : st.SameTable (st.setBranch bindex f) where
  branch := by
    apply List.ext_getElem?
    intro i
    rw [List.getElem?_map, List.getElem?_map, setBranch, List.getElem?_modify]
    cases st.siBranch[i]? with
    | none => rfl
    | some c =>
      by_cases hi : bindex.toNat = i
      · simp only [Functor.map, Option.map_some, if_pos hi, Option.map_map]
        congr 2
        funext br
        exact hf br
      · simp only [Functor.map, Option.map_some, if_neg hi]
  siBend := rfl
  siLastBrId := rfl
  diHdentry := rfl
  diBstart := rfl
  diBend := rfl
  iiHinode := rfl
  iiBstart := rfl
  iiBend := rfl
  sMaxbytes := rfl

theorem sameTable_files (files : Files) (nextFile : Nat) :
    st.SameTable { st with files := files, nextFile := nextFile } :=
  ⟨rfl, rfl, rfl, rfl, rfl, rfl, rfl, rfl, rfl, rfl⟩

theorem sameTable_xino (xino : Bool) : st.SameTable { st with xino := xino } :=
  ⟨rfl, rfl, rfl, rfl, rfl, rfl, rfl, rfl, rfl, rfl⟩

theorem sameTable_finish (r : Except Errno Unit) : st.SameTable (st.finish r).2 := by
  cases r with
  | error err => exact sameTable_xino false
  | ok u => exact sameTable_xino true

theorem sameTable_dropShared (bindex : Int) : st.SameTable (st.dropShared bindex) := by
  rw [dropShared]
  split
  · exact .refl st
  · split
    · exact sameTable_setBranch bindex fun _ => rfl
    · exact .refl st

theorem sameTable_foldl {f : Sbinfo → Int → Sbinfo} (hf : ∀ (st : Sbinfo) (b : Int), st.SameTable (f st b))
    (bs : List Int) (st : Sbinfo) : st.SameTable (bs.foldl f st) := by
  induction bs generalizing st with
  | nil => exact .refl st
  | cons b bs ih => exact (hf st b).trans (ih (f st b))

theorem sameTable_xinoClr : st.SameTable st.xinoClr :=
  (sameTable_foldl (f := fun st bindex => st.setBranch bindex .putXino)
    (fun _ b => sameTable_setBranch b fun _ => rfl) _ st).trans (sameTable_xino false)

end Sbinfo

namespace Host

variable {h : Host} {st : Sbinfo}

theorem sameTable_xinoWrite (ans : Except LowerErrno Nat) (bindex : Int) (hIno ino : Nat) :
    st.SameTable (h.xinoWrite st ans bindex hIno ino).2 := by
  rw [xinoWrite]
  split
  · exact .refl st
  · split
    · exact .refl st
    · split
      · exact .refl st
      · split
        · exact .refl st
        · dsimp only
          split <;> exact Sbinfo.sameTable_files _ _

theorem sameTable_xinoCreate2 (ans : XinoCreate) (place : XinoPlace) :
    st.SameTable (h.xinoCreate2 st ans place).2 := by
  unfold xinoCreate2
  split
  · exact .refl st
  · split
    · exact .refl st
    · exact Sbinfo.sameTable_files _ _

theorem sameTable_xinoInitFile (write : Except LowerErrno Nat) (bindex : Int) (file : XFile) :
    st.SameTable (h.xinoInitFile st write bindex file).2 := by
  rw [xinoInitFile]
  split
  · exact Sbinfo.sameTable_setBranch bindex fun _ => rfl
  · split
    · exact Sbinfo.sameTable_setBranch bindex fun _ => rfl
    · dsimp only
      split
      · exact Sbinfo.sameTable_setBranch bindex fun _ => rfl
      · rename_i hiddenInode _
        have hset := @Sbinfo.sameTable_setBranch st bindex (fun br =>
          { br with brXinoRead := true, brXinoWrite := true, brXino := some file }) fun _ => rfl
        have hwrite := hset.trans
          (sameTable_xinoWrite (h := h) write bindex hiddenInode.iIno rootIno)
        split
        case h_1 hw =>
          rw [hw] at hwrite
          exact hwrite
        case h_2 hw =>
          rw [hw] at hwrite
          exact hwrite.trans (Sbinfo.sameTable_setBranch bindex fun _ => rfl)

theorem sameTable_xinoInit (e : XinoInitEnv) (bindex : Int) (base : Option XinoPlace)
    (doTest : Bool) : st.SameTable (h.xinoInit st e bindex base doTest).2 := by
  unfold xinoInit
  split
  · exact sameTable_xinoInitFile _ _ _
  · split
    · exact .refl st
    · rename_i place
      have hcreate := @sameTable_xinoCreate2 h st e.create place
      split
      case h_1 hc =>
        rw [hc] at hcreate
        exact hcreate
      case h_2 hc =>
        rw [hc] at hcreate
        exact hcreate.trans (sameTable_xinoInitFile _ _ _)

end Host

end Aufs
