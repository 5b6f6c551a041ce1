-- SUMMARY: The tables of mount options, branch permissions and udba levels, and the parser of option texts (opts.c).
import Aufs.BrOps
import Aufs.Lib.OptText

/-!
# Mount options as text

`au_parse_opts` cuts a text into options and turns each into a `struct opt`. The tables it
looks into are the ones that `aufs_show_options` prints from.
-/

namespace Aufs

open OptText

-- ---------------------------------------------------------------------------
-- Surroundings
-- ---------------------------------------------------------------------------

/-- What the build fixes. `plink` says that the kernel is not 2.6.15, whose aufs has no
pseudo-links; `maxOpt` is `PAGE_SIZE / sizeof(struct opt)`. -/
structure OptConf where
  /-- `CONFIG_AUFS_COMPAT` -/
  compat : Bool
  /-- `CONFIG_AUFS_HINOTIFY` -/
  hinotify : Bool
  /-- `CONFIG_AUFS_DLGT` -/
  dlgt : Bool
  /-- `CONFIG_AUFS_DEBUG` -/
  debug : Bool
  plink : Bool
  maxOpt : Nat
  /-- `HZ` -/
  hz : BitVec 32
  hz_pos : 0 < hz.toInt

/-- Paths and what they lead to. `dPath` and `filePath` are what `d_path` makes of a
directory and of an open file, `filpOpen` is the creation of an xino file, which is unlinked
at once. The path of a directory that was looked up leads back to it. -/
structure Namei where
  pathLookup : List Char → Except LowerErrno HiddenDentry
  dPath : HiddenDentry → List Char
  lookup_dPath : ∀ p d, pathLookup p = .ok d → pathLookup (dPath d) = .ok d
  filpOpen : List Char → Except LowerErrno XinoPlace
  filePath : XinoPlace → List Char
  open_nil : ∀ place, filpOpen [] ≠ .ok place
  iIno : HiddenDentry → Nat
  iNlink : HiddenDentry → Nat
  /-- `IS_RDONLY` of the inode -/
  rdonly : HiddenDentry → Bool
  /-- `MS_RDONLY` of the aufs super block -/
  msRdonly : Bool

-- ---------------------------------------------------------------------------
-- Tables
-- ---------------------------------------------------------------------------

/-- The tokens `Opt_*` of the table. -/
inductive OptToken where
  | br | add | del | mod | append | prepend | dirwh | rdcache | xino | noxino
  | plink | noplink | listPlink | cleanPlink | udba | diropqA | diropqW
  | warnPerm | nowarnPerm | dlgt | nodlgt | ignore | err
  deriving DecidableEq, Repr

namespace OptConf

variable (c : OptConf)

/-- The entries of `options` that depend on pseudo-links. -/
def plinkOptions : List (OptToken × String) :=
  if c.plink then
    [(.plink, "plink"), (.noplink, "noplink")] ++
      (if c.debug then [(.listPlink, "list_plink")] else []) ++ [(.cleanPlink, "clean_plink")]
  else []

/-- The entries of `options` for delegation. -/
def dlgtOptions : List (OptToken × String) :=
  if c.dlgt then [(.dlgt, "dlgt"), (.nodlgt, "nodlgt")] else []

/-- `options` -/
def options : List (OptToken × String) :=
  [(.br, "br=%s"), (.br, "br:%s"),
    (.add, "add=%d:%s"), (.add, "add:%d:%s"), (.add, "ins=%d:%s"), (.add, "ins:%d:%s"),
    (.append, "append=%s"), (.append, "append:%s"),
    (.prepend, "prepend=%s"), (.prepend, "prepend:%s"),
    (.del, "del=%s"), (.del, "del:%s"), (.mod, "mod=%s"), (.mod, "mod:%s"),
    (.dirwh, "dirwh=%d"), (.dirwh, "dirwh:%d"),
    (.xino, "xino=%s"), (.xino, "xino:%s"), (.noxino, "noxino")] ++
  c.plinkOptions ++
  [(.udba, "udba=%s"),
    (.diropqA, "diropq=always"), (.diropqA, "diropq=a"),
    (.diropqW, "diropq=whiteouted"), (.diropqW, "diropq=w"),
    (.warnPerm, "warn_perm"), (.nowarnPerm, "nowarn_perm")] ++
  c.dlgtOptions ++
  [(.rdcache, "rdcache=%d"), (.rdcache, "rdcache:%d"),
    (.br, "dirs=%s"), (.ignore, "debug=%d"), (.ignore, "delete=whiteout"),
    (.ignore, "delete=all"), (.ignore, "imap=%s")]

end OptConf

/-- `brperms` -/
def brperms : List (BrPerm × String) :=
  [(.RR, "rr"), (.RO, "ro"), (.RW, "rw"), (.RRWH, "rr+wh"), (.ROWH, "ro+wh"),
    (.RWNoLinkWH, "rw+nolwh"), (.ROWH, "nfsro")]

/-- `br_perm_val` -/
def brPermVal (perm : List Char) : BrPerm := (matchToken .RO brperms perm).1

/-- `AuFlag_UDBA_*` -/
inductive Udba where
  | none | reval | inotify
  deriving DecidableEq, Repr

/-- `udbalevel` -/
def OptConf.udbalevel (c : OptConf) : List (Option Udba × String) :=
  [(some .reval, "reval")] ++ (if c.hinotify then [(some .inotify, "inotify")] else []) ++
    [(some .none, "none")]

/-- `udba_val`, with nothing for `-1`. -/
def OptConf.udbaVal (c : OptConf) (str : List Char) : Option Udba :=
  (matchToken Option.none c.udbalevel str).1

/-- `struct opt`. `tail` ends a list of options. -/
inductive Opt where
  | tail
  | add (add : OptAdd)
  | append (perm : BrPerm) (nd : NdPath)
  | prepend (perm : BrPerm) (nd : NdPath)
  | del (hRoot : HiddenDentry)
  | mod (hRoot : HiddenDentry) (perm : BrPerm)
  | dirwh (n : BitVec 32)
  | rdcache (n : BitVec 32)
  | xino (place : XinoPlace)
  | noxino
  | plink | noplink | listPlink | cleanPlink
  | udba (udba : Udba)
  | diropqA | diropqW
  | warnPerm | nowarnPerm
  | dlgt | nodlgt

def Opt.isTail : Opt → Bool
  | .tail => true
  | _ => false

-- ---------------------------------------------------------------------------
-- Parsing
-- ---------------------------------------------------------------------------

section

variable (h : Host) (c : OptConf) (w : Namei)

/-- `opt_add`: a path and perhaps a permission behind a `=`. -/
def optAdd (optStr : List Char) (bindex : Int) : Except Errno OptAdd :=
  let perm : BrPerm :=
    if c.compat then .RW else if bindex = 0 ∧ w.msRdonly = false then .RW else .RO
  let path := optStr.takeWhile (· ≠ '=')
  let permStr := (optStr.dropWhile (· ≠ '=')).tail
  let perm := if permStr = [] then perm else brPermVal permStr
  match w.pathLookup path with
  | .error _ => .error .EINVAL
  | .ok dentry => .ok ⟨bindex, perm, ⟨dentry, dentry.dSb, rfl⟩⟩

/-- `xino_create`: the file must not be in aufs. -/
def xinoCreate (fname : List Char) : Except Errno XinoPlace :=
  match w.filpOpen fname with
  | .error err => .error err.1
  | .ok place => if place.dir.dSb = h.self then .error .EINVAL else .ok place

/-- The next place in the array of options, unless it is behind the end. -/
def storeOpt (opts : List Opt) (opt : Opt) : Except Errno (List Opt) :=
  if c.maxOpt ≤ opts.length + 1 then .error .E2BIG else .ok (opts ++ [opt])

/-- The loop over the branches of one option. -/
def parseBrs : List (List Char) → List Opt → Int → Except Errno (List Opt × Int)
  | [], opts, bindex => .ok (opts, bindex)
  | optStr :: ps, opts, bindex =>
    match optAdd c w optStr bindex with
    | .error err => .error err
    | .ok add =>
      match storeOpt c opts (.add add) with
      | .error err => .error err
      | .ok opts => parseBrs ps opts (h.branchMax.toBindex (bindex + 1))

/-- An option that takes one place in the array, and `bindex` after it. Behind the last
pattern there is no option. -/
def parseValue (bindex : Int) : OptToken → List (List Char) → Except Errno (Opt × Int)
  | .add, [num, path] =>
    match matchInt num with
    | none => .error .EINVAL
    | some n =>
      let bindex := h.branchMax.toBindex n.toInt
      (optAdd c w path bindex).map fun add => (.add add, bindex)
  | .append, [path] => (optAdd c w path 1).map fun add => (.append add.perm add.nd, bindex)
  | .prepend, [path] => (optAdd c w path 1).map fun add => (.prepend add.perm add.nd, bindex)
  | .del, [path] =>
    match w.pathLookup path with
    | .error err => .error err.1
    | .ok dentry => .ok (.del dentry, bindex)
  | .mod, [path] =>
    if '=' ∉ path then .error .EINVAL
    else
      match w.pathLookup (path.takeWhile (· ≠ '=')) with
      | .error err => .error err.1
      | .ok dentry => .ok (.mod dentry (brPermVal (path.dropWhile (· ≠ '=')).tail), bindex)
  | .dirwh, [num] =>
    match matchInt num with
    | none => .error .EINVAL
    | some n => .ok (.dirwh n, bindex)
  | .rdcache, [num] =>
    match matchInt num with
    | none => .error .EINVAL
    | some n => .ok (.rdcache n, bindex)
  | .xino, [path] => (xinoCreate h w path).map fun place => (.xino place, bindex)
  | .udba, [level] =>
    match c.udbaVal level with
    | none => .error .EINVAL
    | some udba => .ok (.udba udba, bindex)
  | .noxino, [] => .ok (.noxino, bindex)
  | .plink, [] => .ok (.plink, bindex)
  | .noplink, [] => .ok (.noplink, bindex)
  | .listPlink, [] => .ok (.listPlink, bindex)
  | .cleanPlink, [] => .ok (.cleanPlink, bindex)
  | .diropqA, [] => .ok (.diropqA, bindex)
  | .diropqW, [] => .ok (.diropqW, bindex)
  | .warnPerm, [] => .ok (.warnPerm, bindex)
  | .nowarnPerm, [] => .ok (.nowarnPerm, bindex)
  | .dlgt, [] => .ok (.dlgt, bindex)
  | .nodlgt, [] => .ok (.nodlgt, bindex)
  | _, _ => .error .EINVAL

/-- One round of the loop of `au_parse_opts`. An option without a branch takes a place, too,
and ends the list there. -/
def parseOpt (optStr : List Char) (opts : List Opt) (bindex : Int) :
    Except Errno (List Opt × Int) :=
  match matchToken .err c.options optStr with
  | (.br, args) =>
    match pieces ':' (args.headD []) with
    | [] => (storeOpt c opts .tail).map fun opts => (opts, bindex)
    | ps => parseBrs h c w ps opts bindex
  | (.ignore, _) => .ok (opts, bindex)
  | (token, args) =>
    match parseValue h c w bindex token args with
    | .error err => .error err
    | .ok (opt, bindex) => (storeOpt c opts opt).map fun opts => (opts, bindex)

/-- The loop of `au_parse_opts`. -/
def parseLoop : List (List Char) → List Opt → Int → Except Errno (List Opt)
  | [], opts, _ => .ok opts
  | optStr :: ps, opts, bindex =>
    match parseOpt h c w optStr opts bindex with
    | .error err => .error err
    | .ok (opts, bindex) => parseLoop ps opts bindex

/-- `au_parse_opts`: the options up to the first end of the list. -/
def auParseOpts (str : List Char) : Except Errno (List Opt) :=
  (parseLoop h c w (pieces ',' str) [] 0).map fun opts => opts.takeWhile fun opt => !opt.isTail

end

end Aufs
