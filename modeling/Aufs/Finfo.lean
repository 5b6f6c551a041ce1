-- SUMMARY: Hidden files: opening, re-opening after branch changes, emptiness tests, copy-ups and releases.
import Aufs.Mount
import Aufs.Lib.Holder
import Aufs.Lib.Remap

/-!
# Hidden files

`struct aufs_finfo` and the functions of `finfo.c`, `file.c`, `f_op.c`, `dir.c`
and `cpup.c` that open and close hidden files. An operation is a task: what it
takes and gives back are hidden files and references to branches (`br_count`).
Every lower open may fail. What an operation reads of the dentry and the inode
is its environment.

A branch is known by its id. Where the source would follow a null pointer or
read past the branch table the task halts.
-/

namespace Aufs

open Holder

/-- What a task holds: an open hidden file, a reference in `br_count`, or a hidden file that
`au_reopen_nondir` keeps open in `h_file_tmp`. All are of a branch id. -/
inductive Held where
  | file (br : Int)
  | ref (br : Int)
  | kept (br : Int)
  deriving DecidableEq, Repr

/-- `FMODE_READ` and `FMODE_WRITE` -/
structure FMode where
  read : Bool
  write : Bool
  deriving DecidableEq, Repr

/-- `au_file_roflags`, as far as `f_mode` goes. -/
def auFileRoflags (_flags : FMode) : FMode := ⟨true, false⟩

/-- A hidden file: the id of the branch it was opened on and its `f_mode`. -/
structure HiddenFile where
  on : Int
  mode : FMode
  deriving DecidableEq, Repr

/-- `struct aufs_hfile` with `hf_file` set; `br` is the id of `hf_br`. -/
structure Hfile where
  file : HiddenFile
  br : Int
  deriving DecidableEq, Repr

/-- `struct aufs_finfo`; a slot whose `hf_file` is `NULL` is `none`. -/
structure Finfo where
  bstart : Int
  bend : Int
  hfile : Int → Option Hfile
  generation : Int

/-- A file of aufs. -/
structure AufsFile where
  isDir : Bool
  mode : FMode
  fi : Finfo

namespace Finfo

/-- `au_init_finfo`: the slots are cleared. -/
def init (generation : Int) : Finfo := ⟨-1, -1, fun _ => none, generation⟩

/-- The file information with another content of one slot. -/
def setSlot (fi : Finfo) (bindex : Int) (hf : Option Hfile) : Finfo :=
  { fi with hfile := Function.update fi.hfile bindex hf }

end Finfo

/-- A task over hidden files. -/
abbrev FileTask (α : Type) : Type := Holder Held Errno α

namespace FileOp

/-- What `hidden_open` reads of the dentry and the inode; `hi` are the hidden inodes. A dentry
with an inode has its first index in the table. -/
structure DentryEnv where
  d : Dinfo
  hi : Int → Option HInode
  nonneg : 0 ≤ d.bstart

/-- `hidden_open` -/
def hiddenOpen (sb : SuperBlock) (e : DentryEnv) (bindex : Int) (flags : FMode) :
    FileTask (Except Errno HiddenFile) :=
  match sb.stobr bindex, (e.d.hDptrI bindex).bind HDentry.dInode with
  | some br, some _ =>
    -- drop flags for writing
    match testRo sb bindex e.hi with
    | .error _ => halt
    | .ok ro =>
      take [.file br.id, .ref br.id] fun
        | .ok () => ret (.ok ⟨br.id, if ro then auFileRoflags flags else flags⟩)
        | .error err => ret (.error err)
  | _, _ => halt

/-- `au_hfput` -/
def auHfput (hf : Hfile) : FileTask Unit := give [.file hf.file.on, .ref hf.br]

/-- `set_h_fptr` with `NULL` -/
def putHFptr (fi : Finfo) (bindex : Int) : FileTask Finfo :=
  match fi.hfile bindex with
  | none => pure fi
  | some hf => do
    auHfput hf
    pure (fi.setSlot bindex none)

/-- `set_h_fptr` -/
def setHFptr (sb : SuperBlock) (fi : Finfo) (bindex : Int) (val : HiddenFile) : FileTask Finfo := do
  let fi ← putHFptr fi bindex
  match sb.sbrId bindex with
  | none => halt
  | some br => pure (fi.setSlot bindex (some ⟨val, br⟩))

/-- `set_h_fptr(file, bindex, NULL)` for these indices. -/
def putHFptrs : List Int → Finfo → FileTask Finfo
  | [], fi => pure fi
  | bindex :: rest, fi => do
    let fi ← putHFptr fi bindex
    putHFptrs rest fi

/-- `au_fin_finfo` -/
def auFinFinfo (fi : Finfo) : FileTask Unit := do
  if 0 ≤ fi.bstart then
    let _ ← putHFptrs (bindexes fi.bstart fi.bend) fi
    pure ()
  else pure ()

-- ---------------------------------------------------------------------------
-- Opening
-- ---------------------------------------------------------------------------

/-- `do_open_nondir` -/
def doOpenNondir (sb : SuperBlock) (e : DentryEnv) (flags : FMode) (fi : Finfo) :
    FileTask (Except Errno Unit × Finfo) := do
  let bindex := e.d.bstart
  match ← hiddenOpen sb e bindex flags with
  | .error err => pure (.error err, fi)
  | .ok hiddenFile =>
    let fi ← setHFptr sb { fi with bstart := bindex, bend := bindex } bindex hiddenFile
    pure (.ok (), fi)

/-- The first loop of `do_open_dir`. -/
def openDirs (sb : SuperBlock) (e : DentryEnv) (flags : FMode) :
    List Int → Finfo → FileTask (Except Errno Unit × Finfo)
  | [], fi => pure (.ok (), fi)
  | bindex :: rest, fi =>
    match e.d.hDptrI bindex with
    | none => openDirs sb e flags rest fi
    | some _ => do
      match ← hiddenOpen sb e bindex flags with
      | .error err => pure (.error err, fi)
      | .ok hiddenFile =>
        let fi ← setHFptr sb fi bindex hiddenFile
        openDirs sb e flags rest fi

/-- The second loop of `do_open_dir`, `for (bindex = fbstart(file); !err && bindex <= btail;
bindex++)`: it runs as long as there is no error. -/
def closeAll (err : Except Errno Unit) : List Int → Finfo → FileTask Finfo
  | [], fi => pure fi
  | bindex :: rest, fi =>
    match err with
    | .error _ => pure fi
    | .ok () => do
      let fi ← putHFptr fi bindex
      closeAll err rest fi

/-- `do_open_dir` -/
def doOpenDir (sb : SuperBlock) (e : DentryEnv) (flags : FMode) (fi : Finfo) :
    FileTask (Except Errno Unit × Finfo) := do
  let bindex := e.d.bstart
  let btail := e.d.dbtaildir
  let r ← openDirs sb e flags (bindexes bindex btail) { fi with bstart := bindex, bend := btail }
  match r with
  | (.ok (), fi) => pure (.ok (), fi)
  | (.error err, fi) =>
    let fi ← closeAll (.error err) (bindexes fi.bstart btail) fi
    pure (.error err, { fi with bstart := -1, bend := -1 })

/-- `open` of a file, `do_open_dir` or `do_open_nondir`. -/
def doOpen (sb : SuperBlock) (e : DentryEnv) (isDir : Bool) (flags : FMode) (fi : Finfo) :
    FileTask (Except Errno Unit × Finfo) :=
  if isDir then doOpenDir sb e flags fi else doOpenNondir sb e flags fi

/-- `au_do_open` for a file that is opened with `flags`: the file when it is open afterwards.
`mem` says whether `au_init_finfo` finds its memory, `digen` is the generation of the dentry. -/
def auDoOpen (sb : SuperBlock) (e : DentryEnv) (mem : Bool) (digen : Int) (isDir : Bool)
    (flags : FMode) : FileTask (Except Errno Unit × Option AufsFile) :=
  if !mem then pure (.error .ENOMEM, none)
  else do
    match ← doOpen sb e isDir flags (Finfo.init digen) with
    | (.ok (), fi) => pure (.ok (), some ⟨isDir, flags, fi⟩)
    | (.error err, fi) =>
      auFinFinfo fi
      pure (.error err, none)

/-- `aufs_release_nondir` and `aufs_release_dir` -/
def aufsRelease (f : AufsFile) : FileTask (Except Errno Unit × Option AufsFile) := do
  auFinFinfo f.fi
  pure (.ok (), none)

-- ---------------------------------------------------------------------------
-- Emptiness tests
-- ---------------------------------------------------------------------------

/-- `do_test_empty`; `readdir` is what reading the hidden directory and collecting its names
come to. -/
def doTestEmpty (sb : SuperBlock) (e : DentryEnv) (readdir : Int → Except Errno Unit) (bindex : Int) :
    FileTask (Except Errno Unit) := do
  match ← hiddenOpen sb e bindex ⟨true, false⟩ with
  | .error err => pure (.error err)
  | .ok hiddenFile =>
    match sb.sbrId bindex with
    | none => halt
    | some br =>
      -- fput(hidden_file); sbr_put(dentry->d_sb, arg->bindex);
      give [.file hiddenFile.on, .ref br]
      pure (readdir bindex)

/-- `test_empty` over the indices that are left: the positive hidden directories are tested. -/
def testEmptyFrom (sb : SuperBlock) (e : DentryEnv) (readdir : Int → Except Errno Unit) :
    List Int → FileTask (Except Errno Unit)
  | [] => pure (.ok ())
  | bindex :: rest =>
    if e.d.positiveAt bindex then do
      match ← doTestEmpty sb e readdir bindex with
      | .error err => pure (.error err)
      | .ok () => testEmptyFrom sb e readdir rest
    else testEmptyFrom sb e readdir rest

/-- `test_empty` -/
def testEmpty (sb : SuperBlock) (e : DentryEnv) (readdir : Int → Except Errno Unit) :
    FileTask (Except Errno Unit) :=
  testEmptyFrom sb e readdir (bindexes e.d.bstart e.d.dbtaildir)

/-- `au_test_empty_lower`; `mem` is whether `nhash_new` finds its memory. -/
def auTestEmptyLower (sb : SuperBlock) (e : DentryEnv) (mem : Bool) (readdir : Int → Except Errno Unit) :
    FileTask (Except Errno Unit) :=
  if !mem then pure (.error .ENOMEM)
  else do
    match ← doTestEmpty sb e readdir e.d.bstart with
    | .error err => pure (.error err)
    | .ok () => testEmptyFrom sb e readdir (bindexes (e.d.bstart + 1) e.d.dbtaildir)

-- ---------------------------------------------------------------------------
-- Copy-ups
-- ---------------------------------------------------------------------------

/-- A copy-up of a dentry. `before` is how the steps before `cpup_regular` end, `regular` whether
it is reached, `after` how the steps after it end; the dentry is the one `cpup_regular` sees. -/
structure CpupCall where
  e : DentryEnv
  bdst : Int
  bsrc : Int
  before : Except Errno Unit
  regular : Bool
  srcFop : Bool
  dstFop : Bool
  copy : Except Errno Unit
  after : Except Errno Unit

/-- `fput(h->file); sbr_put(sb, h->bindex);` -/
def putHidden (sb : SuperBlock) (file : HiddenFile) (bindex : Int) : FileTask Unit :=
  match sb.sbrId bindex with
  | none => halt
  | some br => give [.file file.on, .ref br]

/-- `cpup_regular` -/
def cpupRegular (sb : SuperBlock) (c : CpupCall) : FileTask (Except Errno Unit) := do
  match ← hiddenOpen sb c.e c.bsrc ⟨true, false⟩ with
  | .error err => pure (.error err)
  | .ok src =>
    if !c.srcFop then
      putHidden sb src c.bsrc
      pure (.error .EINVAL)
    else
      match ← hiddenOpen sb c.e c.bdst ⟨false, true⟩ with
      | .error err =>
        putHidden sb src c.bsrc
        pure (.error err)
      | .ok dst =>
        let err := if !c.dstFop then .error .EINVAL else c.copy
        -- out_dst_file
        putHidden sb dst c.bdst
        -- out_src_file
        putHidden sb src c.bsrc
        pure err

/-- A copy-up, as far as hidden files go. -/
def copyUp (sb : SuperBlock) (c : CpupCall) : FileTask (Except Errno Unit) :=
  match c.before with
  | .error err => pure (.error err)
  | .ok () =>
    if c.regular then do
      match ← cpupRegular sb c with
      | .error err => pure (.error err)
      | .ok () => pure c.after
    else pure c.after

-- ---------------------------------------------------------------------------
-- Opening again
-- ---------------------------------------------------------------------------

/-- `au_reopen_nondir` from `hidden_open` on; `tmp` is `h_file_tmp`. -/
def reopenAt (sb : SuperBlock) (e : DentryEnv) (f : AufsFile) (tmp : List Held) (fi : Finfo) :
    FileTask (Except Errno Unit × Finfo) := do
  let bstart := e.d.bstart
  match ← hiddenOpen sb e bstart f.mode with
  | .error err =>
    give tmp
    pure (.error err, fi)
  | .ok hiddenFile =>
    let fi ← setHFptr sb { fi with bstart := bstart } bstart hiddenFile
    -- close lower files
    let fi ← putHFptrs (bindexes (bstart + 1) fi.bend) fi
    give tmp
    pure (.ok (), ⟨fi.bstart, bstart, fi.hfile, fi.generation⟩)

/-- `au_reopen_nondir` -/
def auReopenNondir (sb : SuperBlock) (e : DentryEnv) (f : AufsFile) (fi : Finfo) :
    FileTask (Except Errno Unit × Finfo) :=
  if fi.bstart = e.d.bstart then
    match fi.hfile fi.bstart with
    | none => halt
    | some hf =>
      if f.mode = hf.file.mode then pure (.ok (), fi)
      else
        -- the hidden file stays open: get_file(h_file_tmp); set_h_fptr(file, bstart, NULL);
        move [.file hf.file.on, .ref hf.br] [.kept hf.file.on]
          (reopenAt sb e f [.kept hf.file.on] (fi.setSlot fi.bstart none))
  else reopenAt sb e f [] fi

/-- The last loop of `reopen_dir`. -/
def reopenDirs (sb : SuperBlock) (e : DentryEnv) (flags : FMode) :
    List Int → Finfo → FileTask (Except Errno Unit × Finfo)
  | [], fi => pure (.ok (), fi)
  | bindex :: rest, fi =>
    match e.d.hDptrI bindex, fi.hfile bindex with
    | some _, none => do
      match ← hiddenOpen sb e bindex flags with
      | .error err => pure (.error err, fi)
      | .ok hiddenFile =>
        let fi ← setHFptr sb fi bindex hiddenFile
        reopenDirs sb e flags rest fi
    | _, _ => reopenDirs sb e flags rest fi

/-- `reopen_dir` -/
def reopenDir (sb : SuperBlock) (e : DentryEnv) (f : AufsFile) (fi : Finfo) :
    FileTask (Except Errno Unit × Finfo) := do
  let bstart := e.d.bstart
  let btail := e.d.dbtaildir
  let fi ← putHFptrs (bindexes fi.bstart (bstart - 1)) fi
  let fi ← putHFptrs (bindexes (btail + 1) fi.bend).reverse fi
  reopenDirs sb e f.mode (bindexes bstart btail) { fi with bstart := bstart, bend := btail }

-- ---------------------------------------------------------------------------
-- Refreshing
-- ---------------------------------------------------------------------------

/-- One round of the remapping loop of `refresh_file`, with the index of the next round. -/
def hfileBody (sb : SuperBlock) (fi : Finfo) (bindex : Int) : FileTask (Finfo × Int) :=
  match fi.hfile bindex with
  | none => pure (fi, bindex + 1)
  | some p =>
    let newBindex := sb.findBrindex p.br
    if newBindex = bindex then pure (fi, bindex + 1)
    else if newBindex < 0 then do
      let fi ← putHFptr fi bindex
      pure (fi, bindex + 1)
    else
      -- swap two hidden files, and loop again
      pure ({ fi with hfile := Remap.swap fi.hfile bindex newBindex },
        if (fi.hfile newBindex).isSome then bindex else bindex + 1)

/-- `for (bindex = fi_bstart; bindex <= bend; bindex++, p++)`; the task halts when the fuel does
not reach the end. -/
def hfileLoop (sb : SuperBlock) (bend : Int) : Nat → Finfo → Int → FileTask Finfo
  | 0, fi, bindex => if bindex ≤ bend then halt else pure fi
  | fuel + 1, fi, bindex =>
    if bindex ≤ bend then do
      let r ← hfileBody sb fi bindex
      hfileLoop sb bend fuel r.1 r.2
    else pure fi

/-- Rounds that are always enough: two for each slot of the array. -/
def hfileFuel (sb : SuperBlock) (fi : Finfo) : Nat := 2 * (max fi.bend sb.sbend + 1).toNat

/-- `for (fi_bstart = 0; fi_bstart <= bend; fi_bstart++, p++)` over the indices that are left: the
first hidden file that `stays` ends the loop, the ones before it are closed. -/
def scanBstart (stays : Hfile → Bool) : List Int → Int → Finfo → FileTask Finfo
  | [], past, fi => pure { fi with bstart := past }
  | b :: rest, past, fi =>
    match fi.hfile b with
    | none => scanBstart stays rest past fi
    | some hf =>
      if stays hf then pure { fi with bstart := b }
      else do
        auHfput hf
        scanBstart stays rest past (fi.setSlot b none)

/-- `for (fi_bend = bend; fi_bend >= fi_bstart; fi_bend--, p--)` over the indices that are left. -/
def scanBend (stays : Hfile → Bool) : List Int → Finfo → FileTask Finfo
  | [], fi => pure { fi with bend := fi.bstart - 1 }
  | b :: rest, fi =>
    match fi.hfile b with
    | none => scanBend stays rest fi
    | some hf =>
      if stays hf then pure { fi with bend := b }
      else do
        auHfput hf
        scanBend stays rest (fi.setSlot b none)

/-- One pass of `refresh_file` from the label `again`: `ibstart(inode)`, the answer of
`find_rw_parent_br`, `ibstart(inode)` after the dentry was locked again, and the copy-up of the
pseudo-link with the dentry it leaves. -/
structure PlinkPass where
  ibstart : Int
  rwBr : Except Errno Int
  relocked : Int
  cpup : CpupCall
  e : DentryEnv

/-- What `refresh_file` reads next to the file. -/
structure RefreshEnv where
  e : DentryEnv
  digen : Int
  mem : Bool
  mmapped : Bool
  unhashed : Bool
  /-- Is the dentry of the hidden file on this branch positive? -/
  alive : Int → Bool
  plinked : Bool
  passes : List PlinkPass

/-- What follows `again`: the dentry to open with. -/
def refreshPlink (sb : SuperBlock) (r : RefreshEnv) (fi : Finfo) :
    List PlinkPass → FileTask (Except Errno DentryEnv)
  | [] => halt
  | q :: rest =>
    if q.ibstart < fi.bstart ∧ sb.plink ∧ r.plinked then
      match testRo sb q.ibstart r.e.hi with
      | .error _ => halt
      | .ok ro =>
        match if ro then q.rwBr else .ok q.ibstart with
        | .error err => pure (.error err)
        | .ok bstart =>
          -- someone changed our inode while we were sleeping
          if bstart ≠ q.relocked then refreshPlink sb r fi rest
          else do
            match ← copyUp sb q.cpup with
            | .error err => pure (.error err)
            | .ok () => pure (.ok q.e)
    else pure (.ok r.e)

/-- `reopen` of a file, `reopen_dir` or `au_reopen_nondir`. -/
def reopen (sb : SuperBlock) (e : DentryEnv) (f : AufsFile) (fi : Finfo) :
    FileTask (Except Errno Unit × Finfo) :=
  if f.isDir then reopenDir sb e f fi else auReopenNondir sb e f fi

/-- The two scans of `refresh_file` for the ends. -/
def refreshEnds (sb : SuperBlock) (r : RefreshEnv) (brid : Int) (fi : Finfo) : FileTask Finfo := do
  let alive := fun hf : Hfile => r.alive hf.br
  let fi ←
    if !r.mmapped && !r.unhashed then
      scanBstart alive (bindexes 0 sb.sbend) (sb.sbend + 1) fi
    else
      let bend := sb.findBrindex brid
      scanBstart (fun _ => false) (bindexes 0 (bend - 1)) (max 0 bend) fi
  scanBend alive (bindexes fi.bstart sb.sbend).reverse fi

/-- `refresh_file` -/
def refreshFile (sb : SuperBlock) (r : RefreshEnv) (f : AufsFile) :
    FileTask (Except Errno Unit × Finfo) :=
  match kzrealloc r.mem (f.fi.bend + 1) (sb.sbend + 1) f.fi.hfile with
  | none => pure (.error .ENOMEM, f.fi)
  | some p =>
    let fi := { f.fi with hfile := p }
    match fi.hfile fi.bstart with
    | none => halt
    | some first => do
      let fi ← hfileLoop sb fi.bend (hfileFuel sb fi) fi fi.bstart
      let fi ← refreshEnds sb r first.br fi
      if r.mmapped || r.unhashed then pure (.ok (), { fi with generation := r.digen })
      else
        match ← refreshPlink sb r fi r.passes with
        | .error err => pure (.error err, fi)
        | .ok e =>
          match ← reopen sb e f fi with
          | (.ok (), fi) => pure (.ok (), { fi with generation := r.digen })
          | (.error err, fi) =>
            -- error, close all hidden files
            let fi ← putHFptrs (bindexes fi.bstart fi.bend) fi
            pure (.error err, fi)

/-- What `au_reval_and_lock_finfo` finds: the dentry and the inode before `au_reval_dpath`, what
that ends with, and what `refresh_file` reads. -/
structure RevalEnv where
  dbstart : Int
  ibstart : Int
  digen : Int
  revalDpath : Except Errno Unit
  refresh : RefreshEnv

/-- `au_reval_and_lock_finfo` -/
def auRevalAndLockFinfo (sb : SuperBlock) (v : RevalEnv) (f : AufsFile) :
    FileTask (Except Errno Unit × Option AufsFile) :=
  let pseudoLink := v.dbstart ≠ v.ibstart
  if sb.generation = f.fi.generation ∧ ¬ pseudoLink ∧ f.fi.bstart = v.dbstart then pure (.ok (), some f)
  else
    match if sb.generation ≠ v.digen then v.revalDpath else .ok () with
    | .error err => pure (.error err, some f)
    | .ok () => do
      let r ← refreshFile sb v.refresh f
      pure (r.1, some { f with fi := r.2 })

-- ---------------------------------------------------------------------------
-- Preparing for a write
-- ---------------------------------------------------------------------------

/-- What `au_ready_to_write` finds: the hidden inodes, the branch to copy up to, whether the
dentry is `unhashed` or its hidden dentry is, whether the dentry has a hidden dentry on that
branch, the copy-up, and the dentry after it. -/
structure WriteEnv where
  hi : Int → Option HInode
  bcpup : Except Errno Int
  cpupDirs : Except Errno Unit
  unhashed : Bool
  present : Bool
  cpup : CpupCall
  e : DentryEnv
  /-- how `vfsub_unlink` of the temporary name in `cpup_wh_file` ends -/
  unlink : Except Errno Unit

/-- `cpup_wh_file` -/
def cpupWhFile (sb : SuperBlock) (w : WriteEnv) (f : AufsFile) :
    FileTask (Except Errno Unit × Finfo) := do
  match ← copyUp sb w.cpup with
  | .error err => pure (.error err, f.fi)
  | .ok () =>
    match ← auReopenNondir sb w.e f f.fi with
    | (.error err, fi) => pure (.error err, fi)
    | (.ok (), fi) =>
      match w.unlink with
      | .error _ => pure (.error Errno.EIO, fi)
      | .ok () => pure (.ok (), fi)

/-- The copy-up of `au_ready_to_write` for a dentry that is still hashed, and the opening after
it. -/
def cpupFile (sb : SuperBlock) (w : WriteEnv) (f : AufsFile) :
    FileTask (Except Errno Unit × Finfo) :=
  if w.present then auReopenNondir sb w.e f f.fi
  else do
    match ← copyUp sb w.cpup with
    | .error err => pure (.error err, f.fi)
    | .ok () => auReopenNondir sb w.e f f.fi

/-- `au_ready_to_write` -/
def auReadyToWrite (sb : SuperBlock) (w : WriteEnv) (f : AufsFile) :
    FileTask (Except Errno Unit × Option AufsFile) :=
  match testRo sb f.fi.bstart w.hi, f.fi.hfile f.fi.bstart with
  | .ok ro, some hf =>
    if !ro && hf.file.mode.write then pure (.ok (), some f)
    else
      match w.bcpup, w.cpupDirs with
      | .error err, _ => pure (.error err, some f)
      | .ok _, .error err => pure (.error err, some f)
      | .ok _, .ok () => do
        let r ← (if w.unhashed then cpupWhFile sb w f else cpupFile sb w f)
        pure (r.1, some { f with fi := r.2 })
  | _, _ => halt

end FileOp

end Aufs
