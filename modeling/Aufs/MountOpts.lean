-- SUMMARY: Options applied by a mount and by remounts, and the text that aufs_show_options writes (opts.c, super.c).
import Aufs.Fresh
import Aufs.Options
import Aufs.XinoFlag

/-!
# Mounting by text

A mount parses its text and applies the options to an aufs without branches; a remount
applies more of them. `aufs_show_options` writes what differs from the defaults, and the
branches.
-/

namespace Aufs

open OptText

-- ---------------------------------------------------------------------------
-- The mount
-- ---------------------------------------------------------------------------

/-- The part of `struct aufs_sbinfo` that only options without a path set. -/
structure SiFlags where
  udba : Udba
  /-- `AuFlag_ALWAYS_DIROPQ` -/
  alwaysDiropq : Bool
  /-- `AuFlag_DLGT` -/
  dlgt : Bool
  /-- `AuFlag_WARN_PERM` -/
  warnPerm : Bool
  siDirwh : BitVec 32
  siRdcache : Nat
  deriving DecidableEq, Repr

/-- A mounted aufs. The flags for xino files and pseudo-links are in the table's part. -/
structure MountedAufs where
  st : Sbinfo
  flags : SiFlags

/-- `AUFS_DIRWH_DEF` -/
def dirwhDef : BitVec 32 := 3

/-- `AUFS_RDCACHE_DEF` -/
def rdcacheDef : BitVec 32 := 10

/-- `AuDefFlags` and the other defaults. -/
def OptConf.defFlags (c : OptConf) : SiFlags :=
  ⟨.reval, c.compat, false, true, dirwhDef, Aufs.siRdcache c.hz rdcacheDef⟩

/-- The state before the options of a mount: `alloc_sbinfo` and `alloc_root`. -/
def OptConf.empty (c : OptConf) : MountedAufs := ⟨.init true c.plink, c.defFlags⟩

/-- `au_do_opt_simple`, without the flag for pseudo-links. -/
def SiFlags.doOptSimple (hz : BitVec 32) (f : SiFlags) : Opt → SiFlags
  | .udba udba => { f with udba := udba }
  | .diropqA => { f with alwaysDiropq := true }
  | .diropqW => { f with alwaysDiropq := false }
  | .dlgt => { f with dlgt := true }
  | .nodlgt => { f with dlgt := false }
  | .warnPerm => { f with warnPerm := true }
  | .nowarnPerm => { f with warnPerm := false }
  | .dirwh n => { f with siDirwh := n }
  | .rdcache n => { f with siRdcache := Aufs.siRdcache hz n }
  | _ => f

/-- The answers that the handling of one option gets. -/
structure OptAnswers where
  alloc : AddbrAlloc
  wh : InitWhEnv
  addXino : XinoInitEnv
  busy : Option LowerErrno
  xinoSet : XinoSetEnv

section

variable (h : Host) (c : OptConf) (w : Namei)

/-- What `br_add` finds at a directory. -/
def Namei.addEnv (a : OptAnswers) (dentry : HiddenDentry) : AddEnv :=
  ⟨w.iIno dentry, w.iNlink dentry, w.rdonly dentry, a.alloc, a.wh, a.addXino⟩

/-- The option with the answers that its handling gets. -/
def Opt.toAu (a : OptAnswers) : Opt → AuOpt
  | .add new => .add (w.addEnv a new.nd.dentry) new
  | .append perm nd => .append (w.addEnv a nd.dentry) perm nd
  | .prepend perm nd => .prepend (w.addEnv a nd.dentry) perm nd
  | .del hRoot => .del ⟨a.busy, a.wh⟩ hRoot
  | .mod hRoot perm => .mod ⟨w.rdonly hRoot, a.wh⟩ hRoot perm
  | .xino place => .xino a.xinoSet place
  | .noxino => .noxino
  | .plink => .plink true
  | .noplink => .plink false
  | _ => .simple

/-- `au_do_opts_mount`. The level of udba and the delegation are off while the branches are
added, and only a success brings them back. -/
def auDoOptsMount (e : Host.MountEnv) (ans : Nat → OptAnswers) (opts : List Opt) (m : MountedAufs) :
    Except Errno Unit × MountedAufs :=
  let flags := opts.foldl (SiFlags.doOptSimple c.hz) m.flags
  match h.doOptsMount e (opts.mapIdx fun i opt => opt.toAu w (ans i)) m.st with
  | (.error err, st) => (.error err, ⟨st, { flags with udba := .reval, dlgt := false }⟩)
  | (.ok (), st) => (.ok (), ⟨st, flags⟩)

/-- `aufs_fill_super` -/
def aufsFillSuper (e : Host.MountEnv) (ans : Nat → OptAnswers) (data : List Char) :
    Except Errno Unit × MountedAufs :=
  if data = [] then (.error .EINVAL, c.empty)
  else
    match auParseOpts h c w data with
    | .error err => (.error err, c.empty)
    | .ok opts => auDoOptsMount h c w e ans opts c.empty

/-- The loop of `au_do_opts_remount`. -/
def remountLoop : List (Opt × OptAnswers) → MountedAufs → Except Errno Unit × MountedAufs
  | [], m => (.ok (), m)
  | (opt, a) :: opts, m =>
    let flags := m.flags.doOptSimple c.hz opt
    match h.remountOpt m.st (opt.toAu w a) with
    | (.error err, st) => (.error err, ⟨st, flags⟩)
    | (.ok (), st) => remountLoop opts ⟨st, flags⟩

/-- `au_do_opts_remount` -/
def auDoOptsRemount (e : Int → InitWhEnv) (ans : Nat → OptAnswers) (opts : List Opt)
    (m : MountedAufs) : Except Errno Unit × MountedAufs :=
  match remountLoop h c w (opts.mapIdx fun i opt => (opt, ans i)) m with
  | (.error .oops, m) => (.error .oops, m)
  | (r, m) => (r, { m with st := (verifyOpts e m.st).2 })

/-- `aufs_remount_fs` -/
def aufsRemountFs (e : Int → InitWhEnv) (ans : Nat → OptAnswers) (data : List Char)
    (m : MountedAufs) : Except Errno Unit × MountedAufs :=
  if data = [] then (.ok (), m)
  else
    match auParseOpts h c w data with
    | .error err => (.error err, m)
    | .ok opts => auDoOptsRemount h c w e ans opts m

-- ---------------------------------------------------------------------------
-- Showing
-- ---------------------------------------------------------------------------

/-- `au_esc_chars` -/
def auEscChars : List Char := ((List.range 32).map fun i => Char.ofNat (i + 1)) ++ ['\\', '\x7f']

/-- `seq_path` -/
def seqPath (path : List Char) : List Char := manglePath auEscChars path

/-- What `d_path` adds to the path of an unlinked file. -/
def deletedSuffix : List Char := " (deleted)".toList

/-- The path of an xino file as it is shown: the mark of an unlinked file is cut off. -/
def xinoText (place : XinoPlace) : List Char :=
  let text := seqPath (w.filePath place ++ deletedSuffix)
  text.take (text.length - "\\040(deleted)".length)

end

end Aufs
