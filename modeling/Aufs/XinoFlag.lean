-- SUMMARY: The mount flag for inode number files over mounts, remounts and their use: when every branch has its file (opts.c).
import Aufs.BrCalls

/-!
# The flag for the xino files

`AuFlag_XINO` says that there are xino files, and each branch has its own pointer to one.
Options of a mount and of remounts change both, and failing writes and creations turn the
flag off. Here are the option lists, the calls that rely on the flag, and every run of them.
-/

namespace Aufs

-- ---------------------------------------------------------------------------
-- Options
-- ---------------------------------------------------------------------------

/-- A mount option with what its handling gets. `simple` is one that changes neither the
branches nor the xino files. -/
inductive AuOpt where
  | plink (on : Bool)
  | simple
  | append (e : AddEnv) (perm : BrPerm) (nd : NdPath)
  | prepend (e : AddEnv) (perm : BrPerm) (nd : NdPath)
  | add (e : AddEnv) (add : OptAdd)
  | del (e : DelEnv) (hRoot : HiddenDentry)
  | mod (e : ModEnv) (hRoot : HiddenDentry) (perm : BrPerm)
  | xino (e : XinoSetEnv) (place : XinoPlace)
  | noxino

/-- `au_do_opt_simple`: is the option handled? -/
def doOptSimple (st : Sbinfo) : AuOpt → Bool × Sbinfo
  | .plink on => (true, { st with plink := on })
  | .simple => (true, st)
  | _ => (false, st)

namespace Host

variable (h : Host)

/-- `au_do_opt_br`. `none` says that the option is no branch option. -/
def doOptBr (st : Sbinfo) (remount : Bool) : AuOpt → Option (Except Errno Unit) × Sbinfo
  | .append e perm nd =>
    let (r, st) := h.brAdd st e ⟨st.siBend + 1, perm, nd⟩ remount
    (some r, st)
  | .prepend e perm nd =>
    let (r, st) := h.brAdd st e ⟨0, perm, nd⟩ remount
    (some r, st)
  | .add e add =>
    let (r, st) := h.brAdd st e add remount
    (some r, st)
  | .del e hRoot =>
    let (r, st) := h.brDel st e hRoot remount
    (some r, st)
  | .mod e hRoot perm =>
    let (r, st) := brMod st e hRoot perm remount
    (some (r.map fun _ => ()), st)
  | _ => (none, st)

/-- `au_do_opt_xino`. A success says whether `opt_xino` was set. -/
def doOptXino (st : Sbinfo) (remount : Bool) : AuOpt → Except Errno Bool × Sbinfo
  | .xino e place =>
    let (r, st) := h.xinoSet e place st remount
    (r.map fun _ => true, st)
  | .noxino => (.ok false, st.xinoClr)
  | _ => (.ok false, st)

end Host

/-- The test of `verify_opts`: is the whiteout base as the permission wants it? -/
def verifySkip (plink : Bool) (br : AufsBranch) : Bool :=
  match br.brPerm with
  | .RR | .RO | .RRWH | .ROWH => !br.brWh && !br.brPlink
  | .RWNoLinkWH => !br.brWh && (if plink then br.brPlink else !br.brPlink)
  | .RW => br.brWh && (if plink then br.brPlink else !br.brPlink)

/-- The loop of `verify_opts`. -/
def verifyLoop (e : Int → InitWhEnv) : List Int → Sbinfo → Except Errno Unit × Sbinfo
  | [], st => (.ok (), st)
  | bindex :: bs, st =>
    match st.stobr bindex with
    | none => (.error .oops, st)
    | some br =>
      if verifySkip st.plink br then verifyLoop e bs st
      else
        let (r, br') := initWh (e bindex) st.plink br
        let st := st.setBranch bindex fun _ => br'
        match r with
        | .error err => (.error err, st)
        | .ok () => verifyLoop e bs st

/-- `verify_opts` -/
def verifyOpts (e : Int → InitWhEnv) (st : Sbinfo) : Except Errno Unit × Sbinfo :=
  verifyLoop e (bindexes 0 st.siBend) st

namespace Host

variable (h : Host)

-- ---------------------------------------------------------------------------
-- Mounting
-- ---------------------------------------------------------------------------

/-- What a mount gets besides the answers for its options: those for the whiteout bases, the
file that `xino_def` makes, and those for the xino files at its place. -/
structure MountEnv where
  verify : Int → InitWhEnv
  xinoDef : Except LowerErrno XinoPlace
  init : Int → XinoInitEnv

/-- The loop over the branch options of a mount. -/
def mountBrs : List AuOpt → Sbinfo → Except Errno Unit × Sbinfo
  | [], st => (.ok (), st)
  | o :: os, st =>
    match h.doOptBr st false o with
    | (some (.error err), st) => (.error err, st)
    | (_, st) => mountBrs os st

/-- The loop over the xino options of a mount. -/
def mountXinos : List AuOpt → Bool → Sbinfo → Except Errno Bool × Sbinfo
  | [], optXino, st => (.ok optXino, st)
  | o :: os, optXino, st =>
    match h.doOptXino st false o with
    | (.error err, st) => (.error err, st)
    | (.ok set, st) => mountXinos os (optXino || set) st

/-- The loop that makes the default xino files. -/
def defaultXinos (e : Int → XinoInitEnv) (place : XinoPlace) :
    List Int → Sbinfo → Except Errno Unit × Sbinfo
  | [], st => (.ok (), st)
  | bindex :: bs, st =>
    match h.xinoInit st (e bindex) bindex (some place) (bindex ≠ 0) with
    | (.error err, st) => (.error err, st)
    | (.ok (), st) => defaultXinos e place bs st

/-- The end of `au_do_opts_mount`: default xino files, unless the options named some. -/
def enableXino (e : MountEnv) (optXino : Bool) (st : Sbinfo) : Except Errno Unit × Sbinfo :=
  if st.xino && !optXino then
    match e.xinoDef with
    | .error err => (.error err.1, st)
    | .ok place => h.defaultXinos e.init place (bindexes 0 st.siBend) st
  else (.ok (), st)

/-- `au_do_opts_mount`. While the branches are added the flag is off. -/
def doOptsMount (e : MountEnv) (opts : List AuOpt) (st : Sbinfo) : Except Errno Unit × Sbinfo :=
  let st := opts.foldl (fun st o => (doOptSimple st o).2) st
  let flag := st.xino
  match h.mountBrs opts { st with xino := false } with
  | (.error err, st) => (.error err, st)
  | (.ok (), st) =>
    if st.siBend < 0 then (.error .EINVAL, st)
    else
      match h.mountXinos opts false { st with xino := flag } with
      | (.error err, st) => (.error err, st)
      | (.ok optXino, st) =>
        match verifyOpts e.verify st with
        | (.error err, st) => (.error err, st)
        | (.ok (), st) => h.enableXino e optXino st

-- ---------------------------------------------------------------------------
-- Remounting
-- ---------------------------------------------------------------------------

/-- One option of a remount. -/
def remountOpt (st : Sbinfo) (o : AuOpt) : Except Errno Unit × Sbinfo :=
  match doOptSimple st o with
  | (true, st) => (.ok (), st)
  | (false, st) =>
    match h.doOptBr st true o with
    | (some r, st) => (r, st)
    | (none, st) =>
      let (r, st) := h.doOptXino st true o
      (r.map fun _ => (), st)

/-- The loop over the options of a remount. It ends at the first error. -/
def remountOpts : List AuOpt → Sbinfo → Except Errno Unit × Sbinfo
  | [], st => (.ok (), st)
  | o :: os, st =>
    match h.remountOpt st o with
    | (.error err, st) => (.error err, st)
    | (.ok (), st) => remountOpts os st

/-- `au_do_opts_remount`: the whiteout bases are verified after an error, too. -/
def doOptsRemount (e : Int → InitWhEnv) (opts : List AuOpt) (st : Sbinfo) :
    Except Errno Unit × Sbinfo :=
  match h.remountOpts opts st with
  | (.error .oops, st) => (.error .oops, st)
  | (r, st) => (r, (verifyOpts e st).2)

-- ---------------------------------------------------------------------------
-- Using the files
-- ---------------------------------------------------------------------------

/-- The file that `aufs_show_options` prints. -/
def showOptions (st : Sbinfo) : Except Errno (Option XinoPlace) :=
  if st.xino then
    match st.brXino 0 with
    | none => .error .oops
    | some file => .ok (some file.place)
  else .ok none

/-- `make_xino`: the use count and the size of each xino file. -/
def makeXino (st : Sbinfo) : Except Errno (List (Nat × Nat)) :=
  (bindexes 0 st.siBend).mapM fun bindex =>
    match st.brXino bindex with
    | none => .error .oops
    | some file => .ok (st.fileCount file, (st.files file.id).length)

/-- The part of `set_h_iptr` that writes the number of an inode: an error turns the flag
off. -/
def setHIptr (st : Sbinfo) (ans : Except LowerErrno Nat) (bindex : Int) (hIno ino : Nat) :
    Except Errno Unit × Sbinfo :=
  match h.xinoWrite st ans bindex hIno ino with
  | (.error .oops, st) => (.error .oops, st)
  | (.error _, st) => (.ok (), { st with xino := false })
  | (.ok (), st) => (.ok (), st)

end Host

-- ---------------------------------------------------------------------------
-- Giving out files
-- ---------------------------------------------------------------------------

/-- The branch has a file only together with the functions to read and write it. -/
def AufsBranch.Fitted (br : AufsBranch) : Prop :=
  br.brXino.isSome → br.brXinoRead = true ∧ br.brXinoWrite = true

/-- So has every branch of the table. -/
def Sbinfo.Fitted (st : Sbinfo) : Prop :=
  ∀ b br, st.InTable b → st.stobr b = some br → br.Fitted

/-- Every branch of the table has a file. -/
def Sbinfo.AllFiles (st : Sbinfo) : Prop := ∀ b, st.InTable b → (st.brXino b).isSome

/-- No branch lost its file, and the new ones can be read and written. -/
structure Sbinfo.Refits (st st' : Sbinfo) : Prop where
  table : st.SameTable st'
  xino : st'.xino = st.xino
  keeps : ∀ b, (st.brXino b).isSome → (st'.brXino b).isSome
  fitted : st.Fitted → st'.Fitted

namespace Sbinfo

variable {st st' st'' : Sbinfo}

theorem SameTable.inTable (h : st.SameTable st') {b : Int} : st'.InTable b ↔ st.InTable b := by
  rw [InTable, InTable, h.siBend]

theorem Refits.refl (st : Sbinfo) : st.Refits st := ⟨.refl st, rfl, fun _ h => h, fun h => h⟩

theorem Refits.trans (h : st.Refits st') (h' : st'.Refits st'') : st.Refits st'' where
  table := h.table.trans h'.table
  xino := h'.xino.trans h.xino
  keeps b hb := h'.keeps b (h.keeps b hb)
  fitted hf := h'.fitted (h.fitted hf)

theorem refits_files (files : Files) (nextFile : Nat) :
    st.Refits { st with files := files, nextFile := nextFile } :=
  ⟨sameTable_files files nextFile, rfl, fun _ h => h, fun h => h⟩

theorem brXino_setBranch {b : Int} (hb : 0 ≤ b) (f : AufsBranch → AufsBranch) (c : Int) :
    (st.setBranch b f).brXino c =
      if c = b then (st.stobr b).bind fun br => (f br).brXino else st.brXino c := by
  rw [brXino, stobr_setBranch hb]
  split
  · cases st.stobr b <;> rfl
  · rfl

/-- A change of one branch that gives it a file, or leaves it the one it has. -/
theorem refits_setBranch {b : Int} (hb : 0 ≤ b) {f : AufsBranch → AufsBranch}
    (hkey : ∀ br, (f br).key = br.key)
    (hkeeps : ∀ br, st.stobr b = some br → br.brXino.isSome → (f br).brXino.isSome)
    (hfit : ∀ br, st.stobr b = some br → br.Fitted → (f br).Fitted) :
    st.Refits (st.setBranch b f) where
  table := sameTable_setBranch b hkey
  xino := rfl
  keeps c hc := by
    rw [brXino_setBranch hb]
    split
    case isTrue he =>
      subst he
      rw [brXino] at hc
      cases hbr : st.stobr c with
      | none =>
        rw [hbr] at hc
        cases hc
      | some br =>
        rw [hbr] at hc
        exact hkeeps br hbr hc
    case isFalse => exact hc
  fitted hf c br hc hbr := by
    rw [stobr_setBranch hb] at hbr
    split at hbr
    case isTrue he =>
      subst he
      obtain ⟨br', hbr', rfl⟩ := Option.map_eq_some_iff.mp hbr
      exact hfit br' hbr' (hf c br' hc hbr')
    case isFalse => exact hf c br hc hbr

end Sbinfo

namespace Host

variable {h : Host} {st : Sbinfo}

theorem refits_xinoWrite (ans : Except LowerErrno Nat) (bindex : Int) (hIno ino : Nat) :
    st.Refits (h.xinoWrite st ans bindex hIno ino).2 := by
  rw [xinoWrite]
  split
  · exact .refl st
  · split
    · exact .refl st
    · split
      · exact .refl st
      · split
        · exact .refl st
        · dsimp only
          split <;> exact Sbinfo.refits_files _ _

/-- Writing goes wrong for good only without a file or a function. -/
theorem xinoWrite_ne_oops (ans : Except LowerErrno Nat) {bindex : Int} (hIno ino : Nat)
    (hbr : st.xino = true → ∃ br, st.stobr bindex = some br ∧ br.brXino.isSome ∧
      br.brXinoWrite = true) :
    (h.xinoWrite st ans bindex hIno ino).1 ≠ .error .oops := by
  rw [xinoWrite]
  split
  case isTrue => exact fun he => by cases he
  case isFalse hx =>
    obtain ⟨br, hbr, hfile, hwrite⟩ := hbr (by simpa using hx)
    obtain ⟨file, hfile⟩ := Option.isSome_iff_exists.mp hfile
    simp only [hbr, hfile, hwrite, Bool.not_true, Bool.false_eq_true, if_false]
    split
    · exact fun he => by cases he
    · split <;> exact fun he => by cases he

/-- So does reading. -/
theorem xinoRead_ne_oops (ans : Except LowerErrno Nat) {bindex : Int} (hIno : Nat)
    (hbr : st.xino = true → ∃ br, st.stobr bindex = some br ∧ br.brXino.isSome ∧
      br.brXinoRead = true) :
    h.xinoRead st ans bindex hIno ≠ .error .oops := by
  rw [xinoRead]
  split
  case isTrue => exact fun he => by cases he
  case isFalse hx =>
    obtain ⟨br, hbr, hfile, hread⟩ := hbr (by simpa using hx)
    obtain ⟨file, hfile⟩ := Option.isSome_iff_exists.mp hfile
    simp only [hbr, hfile, hread, Bool.not_true, Bool.false_eq_true, if_false]
    split
    · exact fun he => by cases he
    · split
      · exact lower_ne_oops _
      · rw [hiddenRead]
        split
        case h_1 hr =>
          split at hr
          · obtain rfl := Except.error.inj hr
            exact fun he => by cases he
          · cases hr
        case h_2 => split <;> exact fun he => by cases he

theorem refits_xinoCreate2 (ans : XinoCreate) (place : XinoPlace) :
    st.Refits (h.xinoCreate2 st ans place).2 := by
  unfold xinoCreate2
  split
  · exact .refl st
  · split
    · exact .refl st
    · exact Sbinfo.refits_files _ _

theorem xinoCreate2_ne_oops (ans : XinoCreate) (place : XinoPlace) :
    (h.xinoCreate2 st ans place).1 ≠ .error .oops := by
  unfold xinoCreate2
  split
  · exact fun he => by cases he
  · split
    · exact lower_ne_oops _
    · exact fun he => by cases he

/-- A branch without a file gets one, or an error leaves it without. -/
theorem xinoInitFile_spec {l : List Slot} (hl : st.Holds l) {bindex : Int}
    (hb : st.InTable bindex) (hno : st.brXino bindex = none) (write : Except LowerErrno Nat)
    (file : XFile) :
    st.Refits (h.xinoInitFile st write bindex file).2 ∧
      ((h.xinoInitFile st write bindex file).1 = .ok () →
        ((h.xinoInitFile st write bindex file).2.brXino bindex).isSome) ∧
      (h.xinoInitFile st write bindex file).1 ≠ .error .oops := by
  have hnofile : ∀ br, st.stobr bindex = some br → br.brXino = none := by
    intro br hbr
    rwa [Sbinfo.brXino, hbr] at hno
  have hunfit : ∀ br br' : AufsBranch, st.stobr bindex = some br → br'.brXino = br.brXino →
      br'.Fitted := by
    intro br br' hbr he hsome
    rw [he, hnofile br hbr] at hsome
    cases hsome
  obtain ⟨i, s, hi, hs⟩ := hl.slot hb
  have hinode : (st.hinode bindex).bind HinodeCell.hiInode = some ⟨s.dir.dSb, s.ino⟩ := by
    rw [hi, hl.hinode_eq hs]
    rfl
  rw [xinoInitFile]
  split
  · exact ⟨Sbinfo.refits_setBranch hb.1 (fun _ => rfl) (fun _ _ hsome => hsome)
      (fun br hbr _ => hunfit br _ hbr rfl), (fun he => by cases he),
      fun he => by cases he⟩
  split
  · exact ⟨Sbinfo.refits_setBranch hb.1 (fun _ => rfl) (fun _ _ hsome => hsome)
      (fun br hbr _ => hunfit br _ hbr rfl), (fun he => by cases he),
      fun he => by cases he⟩
  -- the branch has the file while its entry is written
  dsimp only
  generalize hst₁ : (st.setBranch bindex fun br =>
    { br with brXinoRead := true, brXinoWrite := true, brXino := some file }) = st₁
  have hset : st.Refits st₁ := hst₁ ▸ Sbinfo.refits_setBranch hb.1 (fun _ => rfl)
    (fun _ _ _ => rfl) (fun _ _ _ _ => ⟨rfl, rfl⟩)
  obtain ⟨br, hbr, -⟩ := hl.stobr hs
  rw [← hi] at hbr
  have hbr₁ : st₁.stobr bindex = some { br with
      brXinoRead := true, brXinoWrite := true, brXino := some file } := by
    rw [← hst₁, Sbinfo.stobr_setBranch hb.1, if_pos rfl, hbr, Option.map_some]
  have hinode₁ : (st₁.hinode bindex).bind HinodeCell.hiInode = some ⟨s.dir.dSb, s.ino⟩ := by
    rw [← hst₁]
    exact hinode
  simp only [hinode₁]
  have hwrite := @refits_xinoWrite h st₁ write bindex s.ino rootIno
  have hne := @xinoWrite_ne_oops h st₁ write bindex s.ino rootIno
    fun _ => ⟨_, hbr₁, rfl, rfl⟩
  have hsome : (st₁.brXino bindex).isSome := by
    rw [Sbinfo.brXino, hbr₁]
    rfl
  generalize h.xinoWrite st₁ write bindex s.ino rootIno = r at *
  obtain ⟨r, st₂⟩ := r
  cases r with
  | ok u => exact ⟨hset.trans hwrite, fun _ => hwrite.keeps bindex hsome,
      fun he => by cases he⟩
  | error err =>
    refine ⟨⟨?_, ?_, ?_, ?_⟩, (fun he => by cases he), fun he => hne (congrArg _ (Except.error.inj he))⟩
    · exact (hset.table.trans hwrite.table).trans (Sbinfo.sameTable_setBranch _ fun _ => rfl)
    · exact hwrite.xino.trans hset.xino
    · intro c hc
      rw [Sbinfo.brXino_setBranch hb.1]
      split
      case isTrue he =>
        subst he
        rw [hno] at hc
        cases hc
      case isFalse => exact hwrite.keeps c (hset.keeps c hc)
    · intro hf c br' hc hbr'
      rw [Sbinfo.stobr_setBranch hb.1] at hbr'
      split at hbr'
      case isTrue =>
        obtain ⟨br'', -, rfl⟩ := Option.map_eq_some_iff.mp hbr'
        exact fun hsome => by cases hsome
      case isFalse => exact hwrite.fitted (hset.fitted hf) c br' hc hbr'

/-- So does `xino_init`, when there is a file to share or a place for a new one. -/
theorem xinoInit_spec {l : List Slot} (hl : st.Holds l) {bindex : Int} (hb : st.InTable bindex)
    (hno : st.brXino bindex = none) (e : XinoInitEnv) (place : XinoPlace) (doTest : Bool) :
    st.Refits (h.xinoInit st e bindex (some place) doTest).2 ∧
      ((h.xinoInit st e bindex (some place) doTest).1 = .ok () →
        ((h.xinoInit st e bindex (some place) doTest).2.brXino bindex).isSome) ∧
      (h.xinoInit st e bindex (some place) doTest).1 ≠ .error .oops := by
  unfold xinoInit
  split
  · exact xinoInitFile_spec hl hb hno _ _
  · dsimp only
    have hcreate := @refits_xinoCreate2 h st e.create place
    have hne := @xinoCreate2_ne_oops h st e.create place
    have hbr : (h.xinoCreate2 st e.create place).2.brXino bindex = st.brXino bindex := by
      unfold xinoCreate2
      split
      · rfl
      · split <;> rfl
    generalize h.xinoCreate2 st e.create place = r at *
    obtain ⟨r, st₁⟩ := r
    cases r with
    | error err => exact ⟨hcreate, nofun, fun he => hne (congrArg _ (Except.error.inj he))⟩
    | ok file =>
      obtain ⟨hrefits, hok, hoops⟩ := xinoInitFile_spec (h := h) (hl.sameTable hcreate.table)
        (hcreate.table.inTable.mpr hb) (hbr.trans hno) e.write file
      exact ⟨hcreate.trans hrefits, hok, hoops⟩

end Host

namespace Host

variable {h : Host} {st : Sbinfo}

theorem siBranch_xinoWrite (ans : Except LowerErrno Nat) (bindex : Int) (hIno ino : Nat) :
    (h.xinoWrite st ans bindex hIno ino).2.siBranch = st.siBranch := by
  rw [xinoWrite]
  split
  · rfl
  · split
    · rfl
    · split
      · rfl
      · split
        · rfl
        · dsimp only
          split <;> rfl

theorem siBranch_xinoCreate2 (ans : XinoCreate) (place : XinoPlace) :
    (h.xinoCreate2 st ans place).2.siBranch = st.siBranch := by
  unfold xinoCreate2
  split
  · rfl
  · split <;> rfl

theorem brXino_xinoInitFile {bindex : Int} (hb : 0 ≤ bindex) (write : Except LowerErrno Nat)
    (file : XFile) {c : Int} (hc : c ≠ bindex) :
    (h.xinoInitFile st write bindex file).2.brXino c = st.brXino c := by
  rw [xinoInitFile]
  split
  · rw [Sbinfo.brXino_setBranch hb, if_neg hc]
  split
  · rw [Sbinfo.brXino_setBranch hb, if_neg hc]
  dsimp only
  split
  · rw [Sbinfo.brXino_setBranch hb, if_neg hc]
  · rename_i hiddenInode _
    have hwrite := @siBranch_xinoWrite h (st.setBranch bindex fun br =>
      { br with brXinoRead := true, brXinoWrite := true, brXino := some file }) write bindex
      hiddenInode.iIno rootIno
    have hset : ∀ {st' : Sbinfo}, st'.siBranch = (st.setBranch bindex fun br =>
        { br with brXinoRead := true, brXinoWrite := true, brXino := some file }).siBranch →
        st'.brXino c = st.brXino c := by
      intro st' he
      have hsame : st'.brXino c = (st.setBranch bindex fun br =>
          { br with brXinoRead := true, brXinoWrite := true, brXino := some file }).brXino c := by
        rw [Sbinfo.brXino, Sbinfo.brXino, Sbinfo.stobr, Sbinfo.stobr, he]
      rw [hsame, Sbinfo.brXino_setBranch hb, if_neg hc]
    split
    case h_1 hw =>
      rw [hw] at hwrite
      exact hset hwrite
    case h_2 hw =>
      rw [hw] at hwrite
      rw [Sbinfo.brXino_setBranch hb, if_neg hc]
      exact hset hwrite

/-- `xino_init` is about one branch. -/
theorem brXino_xinoInit {bindex : Int} (hb : 0 ≤ bindex) (e : XinoInitEnv)
    (base : Option XinoPlace) (doTest : Bool) {c : Int} (hc : c ≠ bindex) :
    (h.xinoInit st e bindex base doTest).2.brXino c = st.brXino c := by
  unfold xinoInit
  split
  · exact brXino_xinoInitFile hb _ _ hc
  · split
    · rfl
    · rename_i place
      have hcreate := @siBranch_xinoCreate2 h st e.create place
      have hsame : (h.xinoCreate2 st e.create place).2.brXino c = st.brXino c := by
        rw [Sbinfo.brXino, Sbinfo.brXino, Sbinfo.stobr, Sbinfo.stobr, hcreate]
      generalize h.xinoCreate2 st e.create place = r at *
      obtain ⟨r, st₁⟩ := r
      cases r with
      | error err => exact hsame
      | ok file => exact (brXino_xinoInitFile hb _ _ hc).trans hsame

end Host

-- ---------------------------------------------------------------------------
-- The option xino=
-- ---------------------------------------------------------------------------

/-- The files that are made to take over a table offer functions to read and write them. -/
def XinoSetEnv.Usable (e : XinoSetEnv) : Prop :=
  ∀ b hasRead hasWrite, e.create b = .ok (hasRead, hasWrite) → hasRead = true ∧ hasWrite = true

/-- A file comes with its functions, and while the flag is set every branch has one. -/
structure Sbinfo.XinoOk (st : Sbinfo) : Prop where
  fitted : st.Fitted
  files : st.xino = true → st.AllFiles

theorem Sbinfo.Refits.allFiles {st st' : Sbinfo} (hr : st.Refits st') (ha : st.AllFiles) :
    st'.AllFiles := fun b hb => hr.keeps b (ha b (hr.table.inTable.mp hb))

namespace Sbinfo

variable {st : Sbinfo}

theorem fitted_putXino (hf : st.Fitted) {b : Int} (hb : 0 ≤ b) : (st.setBranch b .putXino).Fitted := by
  intro c br hc hbr
  rw [stobr_setBranch hb] at hbr
  split at hbr
  case isTrue =>
    obtain ⟨br', -, rfl⟩ := Option.map_eq_some_iff.mp hbr
    exact fun hsome => by cases hsome
  case isFalse => exact hf c br hc hbr

theorem fitted_dropShared (hf : st.Fitted) {b : Int} (hb : 0 ≤ b) : (st.dropShared b).Fitted := by
  rw [dropShared]
  split
  · exact hf
  · split
    · exact fitted_putXino hf hb
    · exact hf

theorem xino_dropShared (b : Int) : (st.dropShared b).xino = st.xino := by
  rw [dropShared]
  split
  · rfl
  · split <;> rfl

/-- What the first loop of `xino_set` keeps. -/
theorem foldl_dropShared {bs : List Int} (hbs : ∀ b ∈ bs, 0 ≤ b) (st : Sbinfo) :
    st.SameTable (bs.foldl dropShared st) ∧ (bs.foldl dropShared st).xino = st.xino ∧
      (st.Fitted → (bs.foldl dropShared st).Fitted) := by
  induction bs generalizing st with
  | nil => exact ⟨.refl st, rfl, fun hf => hf⟩
  | cons b bs ih =>
    obtain ⟨hb, hbs⟩ := List.forall_mem_cons.mp hbs
    obtain ⟨htable, hx, hfit⟩ := ih hbs (st.dropShared b)
    exact ⟨(sameTable_dropShared b).trans htable, hx.trans (xino_dropShared b),
      fun hf => hfit (fitted_dropShared hf hb)⟩

theorem xinoOk_xinoClr (hf : st.Fitted) : st.xinoClr.XinoOk := by
  have hfold : ∀ {bs : List Int}, (∀ b ∈ bs, 0 ≤ b) → ∀ {st : Sbinfo}, st.Fitted →
      (bs.foldl (fun st bindex => st.setBranch bindex .putXino) st).Fitted := by
    intro bs hbs
    induction bs with
    | nil => exact fun hf => hf
    | cons b bs ih =>
      obtain ⟨hb, hbs⟩ := List.forall_mem_cons.mp hbs
      exact fun hf => ih hbs (fitted_putXino hf hb)
  refine ⟨?_, nofun⟩
  exact hfold (fun b hb => (mem_bindexes.mp hb).1) hf

end Sbinfo

namespace Host

variable {h : Host} {st : Sbinfo}

theorem xinoCreate2_usable {ans : XinoCreate} {place : XinoPlace} {file : XFile} {st' : Sbinfo}
    (hans : ∀ hasRead hasWrite, ans = .ok (hasRead, hasWrite) → hasRead = true ∧ hasWrite = true)
    (hok : h.xinoCreate2 st ans place = (.ok file, st')) :
    file.hasRead = true ∧ file.hasWrite = true := by
  unfold xinoCreate2 at hok
  split at hok
  · cases hok
  · split at hok
    · cases hok
    · obtain ⟨hfile, -⟩ := Prod.mk.injEq .. ▸ hok
      obtain rfl := Except.ok.inj hfile
      exact hans _ _ rfl

theorem refits_moveFile {e : XinoSetEnv} (he : e.Usable) (place : XinoPlace) {bindex : Int}
    (hb : 0 ≤ bindex) (old : XFile) : st.Refits (h.moveFile e place st bindex old).2 := by
  rw [moveFile]
  have hcreate := @refits_xinoCreate2 h st (e.create bindex) place
  have husable := fun file st' => @xinoCreate2_usable h st (e.create bindex) place
    file st' (he bindex)
  generalize h.xinoCreate2 st (e.create bindex) place = r at *
  obtain ⟨r, st₁⟩ := r
  cases r with
  | error err => exact hcreate
  | ok file =>
    obtain ⟨hread, hwrite⟩ := husable file st₁ rfl
    dsimp only
    split
    · exact hcreate
    · exact hcreate.trans (Sbinfo.refits_files _ _)
    · rename_i c _
      have hfiles := hcreate.trans
        (Sbinfo.refits_files (Function.update st₁.files file.id c.dst) st₁.nextFile)
      refine hfiles.trans ?_
      exact Sbinfo.refits_setBranch hb (fun _ => rfl) (fun _ _ _ => rfl)
        (fun _ _ _ _ => ⟨hread, hwrite⟩)

theorem refits_moveFiles {e : XinoSetEnv} (he : e.Usable) (place : XinoPlace) {bs : List Int}
    (hbs : ∀ b ∈ bs, 0 ≤ b) (err : Except Errno Unit) (st : Sbinfo) :
    st.Refits (h.moveFiles e place bs err st).2 := by
  induction bs generalizing err st with
  | nil => exact .refl st
  | cons b bs ih =>
    obtain ⟨hb, hbs⟩ := List.forall_mem_cons.mp hbs
    rw [moveFiles]
    split
    · exact ih hbs err st
    · rename_i old _
      have hmove := @refits_moveFile h st e he place b hb old
      generalize h.moveFile e place st b old = r at *
      obtain ⟨r, st₁⟩ := r
      cases r with
      | error err => exact hmove
      | ok u => exact hmove.trans (ih hbs _ st₁)

/-- The third loop of `xino_set`: without an error all its branches have files. -/
theorem initFiles_spec (e : XinoSetEnv) (place : XinoPlace) {l : List Slot} {bs : List Int}
    (err : Except Errno Unit) {st : Sbinfo} (hl : st.Holds l) (hbs : ∀ b ∈ bs, st.InTable b) :
    st.Refits (h.initFiles e place bs err st).2 ∧
      ((h.initFiles e place bs err st).1 = .ok () →
        ∀ b ∈ bs, ((h.initFiles e place bs err st).2.brXino b).isSome) := by
  induction bs generalizing err st with
  | nil => exact ⟨.refl st, nofun⟩
  | cons b bs ih =>
    obtain ⟨hb, hbs⟩ := List.forall_mem_cons.mp hbs
    rw [initFiles]
    split
    case h_1 file hfile =>
      obtain ⟨hrefits, hall⟩ := ih err hl hbs
      refine ⟨hrefits, fun hok => List.forall_mem_cons.mpr ⟨?_, hall hok⟩⟩
      exact hrefits.keeps b (by rw [hfile]; rfl)
    case h_2 hno =>
      obtain ⟨hinit, hsome, -⟩ := xinoInit_spec (h := h) hl hb hno (e.init b) place true
      generalize h.xinoInit st (e.init b) b (some place) true = r at *
      obtain ⟨r, st₁⟩ := r
      cases r with
      | error err =>
        cases err with
        | oops => exact ⟨hinit, nofun⟩
        | _ => exact ⟨hinit, nofun⟩
      | ok u =>
        obtain ⟨hrefits, hall⟩ := ih (.ok ()) (hl.sameTable hinit.table)
          fun c hc => hinit.table.inTable.mpr (hbs c hc)
        exact ⟨hinit.trans hrefits, fun hok => List.forall_mem_cons.mpr
          ⟨hrefits.keeps b (hsome rfl), hall hok⟩⟩

/-- After the three loops the files are in order, and the flag is set only if all branches
have one. -/
theorem xinoMove_spec {e : XinoSetEnv} (he : e.Usable) (place : XinoPlace) {l : List Slot}
    (hl : st.Holds l) (hf : st.Fitted) :
    st.SameTable (h.xinoMove e place st).2 ∧
      ((h.xinoMove e place st).1 ≠ .error .oops → (h.xinoMove e place st).2.XinoOk) := by
  have hnonneg : ∀ b ∈ bindexes 0 st.siBend, 0 ≤ b := fun b hb => (mem_bindexes.mp hb).1
  have hrev : ∀ b ∈ (bindexes 0 st.siBend).reverse, 0 ≤ b := fun b hb =>
    hnonneg b (List.mem_reverse.mp hb)
  obtain ⟨hdrop, -, hfit⟩ := Sbinfo.foldl_dropShared hrev { st with xino := true }
  have hfit := hfit hf
  have hdrop := (@Sbinfo.sameTable_xino st true).trans hdrop
  rw [xinoMove]
  dsimp only
  generalize (bindexes 0 st.siBend).reverse.foldl Sbinfo.dropShared { st with xino := true } = st₁ at *
  have hmove := refits_moveFiles (h := h) he place hnonneg (.ok ()) st₁
  generalize h.moveFiles e place (bindexes 0 st.siBend) (.ok ()) st₁ = r at *
  obtain ⟨r, st₂⟩ := r
  have htable := hdrop.trans hmove.table
  have hrange : ∀ b ∈ bindexes 0 st.siBend, st₂.InTable b := fun b hb =>
    htable.inTable.mpr (mem_bindexes.mp hb)
  obtain ⟨hinit, hall⟩ := initFiles_spec (h := h) e place r (hl.sameTable htable) hrange
  -- the flag goes with the result of the third loop
  have hend : st.SameTable ((h.initFiles e place (bindexes 0 st.siBend) r st₂).2.finish
        (h.initFiles e place (bindexes 0 st.siBend) r st₂).1).2 ∧
      ((h.initFiles e place (bindexes 0 st.siBend) r st₂).2.finish
        (h.initFiles e place (bindexes 0 st.siBend) r st₂).1).2.XinoOk := by
    have hfitted := hinit.fitted (hmove.fitted hfit)
    refine ⟨(htable.trans hinit.table).trans (Sbinfo.sameTable_finish _), ?_⟩
    generalize h.initFiles e place (bindexes 0 st.siBend) r st₂ = q at *
    obtain ⟨q, st₃⟩ := q
    cases q with
    | error err => exact ⟨hfitted, nofun⟩
    | ok u =>
      refine ⟨hfitted, fun _ b hb => hall rfl b (mem_bindexes.mpr ?_)⟩
      exact (htable.trans hinit.table).inTable.mp hb
  cases r with
  | ok u => exact ⟨hend.1, fun _ => hend.2⟩
  | error err =>
    cases err with
    | oops => exact ⟨htable, fun hne => absurd rfl hne⟩
    | _ => exact ⟨hend.1, fun _ => hend.2⟩

end Host

end Aufs
