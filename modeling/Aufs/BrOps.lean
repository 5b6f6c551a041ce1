-- SUMMARY: Adding, deleting and changing branches (branch.c), and what every sequence of these calls keeps of the table.
import Aufs.XinoSet

/-!
# Branch operations

`br_add`, `br_del` and `br_mod` with their failure exits. Each of them does to the list of
branches what its name says, or returns an error and leaves the list as it was.
-/

namespace Aufs

-- ---------------------------------------------------------------------------
-- Whiteout bases
-- ---------------------------------------------------------------------------

/-- The errors that one `init_wh` meets: looking up its two names, `test_linkable`, creating
the whiteout base and making the pseudo-link directory. -/
structure InitWhEnv where
  lookup : Option LowerErrno
  linkable : Option LowerErrno
  create : Option LowerErrno
  plinkDir : Option LowerErrno
  deriving DecidableEq, Repr

/-- The pseudo-link directory of `init_wh`. -/
def initPlink (e : InitWhEnv) (plink : Bool) (br : AufsBranch) : Except Errno Unit × AufsBranch :=
  if plink then
    match e.plinkDir with
    | some err => (.error err.1, br)
    | none => (.ok (), { br with brPlink := true })
  else (.ok (), br)

/-- `init_wh` -/
def initWh (e : InitWhEnv) (plink : Bool) (br : AufsBranch) : Except Errno Unit × AufsBranch :=
  match e.lookup with
  | some err => (.error err.1, br)
  | none =>
    let br := { br with brWh := false, brPlink := false }
    match br.brPerm with
    | .RR | .RO | .RRWH | .ROWH => (.ok (), br)
    | .RWNoLinkWH =>
      match if plink then e.linkable else none with
      | some err => (.error err.1, br)
      | none => initPlink e plink br
    | .RW =>
      match e.linkable, e.create with
      | some err, _ => (.error err.1, br)
      | none, some err => (.error err.1, br)
      | none, none =>
        match initPlink e plink br with
        | (.error err, br) => (.error err, br)
        | (.ok (), br) => (.ok (), { br with brWh := true })

/-- `init_br_wh`: the branch has the new permission only while `init_wh` runs. -/
def initBrWh (e : InitWhEnv) (plink : Bool) (newPerm : BrPerm) (br : AufsBranch) :
    Except Errno Unit × AufsBranch :=
  let (err, br') := initWh e plink { br with brPerm := newPerm }
  (err, { br' with brPerm := br.brPerm })

-- ---------------------------------------------------------------------------
-- Adding
-- ---------------------------------------------------------------------------

/-- The path that a `struct nameidata` holds. A dentry and the mount it was reached through
are on one super block. -/
structure NdPath where
  dentry : HiddenDentry
  mntSb : Nat
  mntSb_eq : mntSb = dentry.dSb

/-- `struct opt_add` -/
structure OptAdd where
  bindex : Int
  perm : BrPerm
  nd : NdPath

/-- Which allocations of `alloc_addbr` succeed. -/
structure AddbrAlloc where
  addBranch : Bool
  branchp : Bool
  hdentryp : Bool
  hinodep : Bool
  deriving DecidableEq, Repr

/-- What `br_add` gets from its surroundings. `iIno`, `iNlink` and `rdonly` are of the inode
of the new branch's root. -/
structure AddEnv where
  iIno : Nat
  iNlink : Nat
  /-- `IS_RDONLY` -/
  rdonly : Bool
  alloc : AddbrAlloc
  wh : InitWhEnv
  xino : XinoInitEnv

/-- `alloc_addbr`. The arrays that were grown before a failure stay. -/
def allocAddbr (e : AddbrAlloc) (st : Sbinfo) (newNbranch : Nat) : Except Errno Unit × Sbinfo :=
  let sz := if newNbranch - 1 = 0 then 1 else newNbranch - 1
  if !e.addBranch then (.error .ENOMEM, st)
  else
    match Cells.kzrealloc e.branchp none st.siBranch sz newNbranch with
    | none => (.error .ENOMEM, st)
    | some branchp =>
      let st := { st with siBranch := branchp }
      match Cells.kzrealloc e.hdentryp none st.diHdentry sz newNbranch with
      | none => (.error .ENOMEM, st)
      | some hdentryp =>
        let st := { st with diHdentry := hdentryp }
        match Cells.kzrealloc e.hinodep ⟨none, 0⟩ st.iiHinode sz newNbranch with
        | none => (.error .ENOMEM, st)
        | some hinodep => (.ok (), { st with iiHinode := hinodep })

/-- `test_br` -/
def testBr (rdonly : Bool) (brperm : BrPerm) : Except Errno Unit :=
  if brWritable brperm && rdonly then .error .EINVAL else .ok ()

/-- `test_add`. A branch that is there already is ignored at a remount: `true`. -/
def Host.testAdd (h : Host) (st : Sbinfo) (e : AddEnv) (add : OptAdd) (remount : Bool) :
    Except Errno Bool :=
  let dentry := add.nd.dentry
  if st.findDbindex dentry ≠ -1 then if remount then .ok true else .error .EINVAL
  else if (h.branchMax.val : Int) ≤ add.bindex ∨ (h.branchMax.val : Int) - 1 ≤ st.siBend then
    .error .ENOSPC
  else if add.bindex < 0 ∨ st.siBend + 1 < add.bindex then .error .EDOM
  else if e.iNlink = 0 then .error .ENOENT
  else if dentry.dSb = h.self then .error .EINVAL
  else if (h.sb dentry.dSb).nested then .error .EINVAL
  else if h.noNfs && (h.sb dentry.dSb).nfs then .error .EINVAL
  else
    match testBr e.rdonly add.perm with
    | .error err => .error err
    | .ok () =>
      if st.siBend = -1 then .ok false
      else if (bindexes 0 st.siBend).any fun bindex => (st.hDptrI bindex).any (h.isOverlap dentry) then
        .error .EINVAL
      else .ok false

namespace Sbinfo

/-- The new branch is put into the three arrays. -/
def enter (st : Sbinfo) (addBindex : Int) (br : AufsBranch) (dentry : HiddenDentry) (iIno : Nat) :
    Sbinfo :=
  let i := addBindex.toNat
  let n := (st.siBend + 1 - addBindex).toNat
  { st with
    siBranch := (Cells.memmove st.siBranch (i + 1) i n).set i (some br)
    diHdentry := (Cells.memmove st.diHdentry (i + 1) i n).set i (some dentry)
    iiHinode := (Cells.memmove st.iiHinode (i + 1) i n).set i ⟨some ⟨dentry.dSb, iIno⟩, br.brId⟩
    siBend := st.siBend + 1
    diBend := st.diBend + 1
    iiBend := st.iiBend + 1
    diBstart := if st.siBend = -1 then 0 else st.diBstart
    iiBstart := if st.siBend = -1 then 0 else st.iiBstart }

/-- `s_maxbytes` is raised to that of the new branch. -/
def raiseMaxbytes (st : Sbinfo) (maxb : Nat) : Sbinfo :=
  { st with sMaxbytes := if st.sMaxbytes < maxb then maxb else st.sMaxbytes }

end Sbinfo

/-- The xino file of a new branch. An error only turns the files off. -/
def Host.addXino (h : Host) (st : Sbinfo) (e : XinoInitEnv) (addBindex : Int) :
    Except Errno Unit × Sbinfo :=
  if st.xino then
    match st.stobr (if addBindex = 0 then 1 else 0) with
    | none => (.error .oops, st)
    | some base =>
      match h.xinoInit st e addBindex (base.brXino.map XFile.place) true with
      | (.ok (), st) => (.ok (), st)
      | (.error .oops, st) => (.error .oops, st)
      | (.error _, st) => (.ok (), { st with xino := false })
  else (.ok (), st)

/-- The branch before its fields are set. -/
def AufsBranch.blank (perm : BrPerm) : AufsBranch := ⟨none, false, false, 0, perm, 0, 0, false, false⟩

/-- `br_add` once the branch is allowed. -/
def Host.doAdd (h : Host) (st : Sbinfo) (e : AddEnv) (add : OptAdd) : Except Errno Unit × Sbinfo :=
  match allocAddbr e.alloc st (st.siBend + 2).toNat with
  | (.error err, st) => (.error err, st)
  | (.ok (), st) =>
    let blank := AufsBranch.blank add.perm
    match if brWritable add.perm then initBrWh e.wh st.plink add.perm blank else (.ok (), blank) with
    | (.error err, _) => (.error err, st)
    | (.ok (), br) =>
      match h.newBrId st with
      | none => (.error .oops, st)
      | some (brId, st) =>
        let br := { br with
          brXino := none, brMntSb := add.nd.mntSb, brId := brId, brPerm := add.perm, brCount := 0 }
        let st := st.enter add.bindex br add.nd.dentry e.iIno
        let st := st.raiseMaxbytes (h.sb add.nd.dentry.dSb).sMaxbytes
        h.addXino st e.xino add.bindex

/-- `br_add` -/
def Host.brAdd (h : Host) (st : Sbinfo) (e : AddEnv) (add : OptAdd) (remount : Bool) :
    Except Errno Unit × Sbinfo :=
  match h.testAdd st e add remount with
  | .error err => (.error err, st)
  | .ok true => (.ok (), st)
  | .ok false => h.doAdd st e add

-- ---------------------------------------------------------------------------
-- Deleting
-- ---------------------------------------------------------------------------

/-- What `br_del` gets: the answer of `test_children_busy`, and those of the `init_br_wh`
that brings the whiteout base back. -/
structure DelEnv where
  busy : Option LowerErrno
  wh : InitWhEnv
  deriving DecidableEq, Repr

/-- The whiteout base and the pseudo-link directory are put. -/
def AufsBranch.putWh (br : AufsBranch) : AufsBranch := { br with brWh := false, brPlink := false }

namespace Sbinfo

/-- The branch is taken out of the three arrays. -/
def remove (st : Sbinfo) (bindex : Int) : Sbinfo :=
  let i := bindex.toNat
  let n := (st.siBend - bindex).toNat
  let last := st.siBend.toNat
  { st with
    siBranch := (Cells.memmove st.siBranch i (i + 1) n).set last none
    diHdentry := (Cells.memmove st.diHdentry i (i + 1) n).set last none
    iiHinode := (Cells.memmove st.iiHinode i (i + 1) n).modify last fun c => { c with hiInode := none }
    siBend := st.siBend - 1
    diBend := st.diBend - 1
    iiBend := st.iiBend - 1 }

end Sbinfo

namespace Host

variable (h : Host)

/-- `s_maxbytes` is computed anew if it may have been that of the deleted branch. -/
def lowerMaxbytes (st : Sbinfo) (maxb : Nat) : Sbinfo :=
  if st.sMaxbytes = maxb then
    { st with
      sMaxbytes := (bindexes 0 st.siBend).foldl (fun max bindex =>
        match st.stobr bindex with
        | none => max
        | some br => if max < (h.sb br.brMntSb).sMaxbytes then (h.sb br.brMntSb).sMaxbytes else max) 0 }
  else st

/-- `br_del` -/
def brDel (st : Sbinfo) (e : DelEnv) (hRoot : HiddenDentry) (remount : Bool) :
    Except Errno Unit × Sbinfo :=
  let bindex := st.findDbindex hRoot
  if bindex < 0 then (if remount then .ok () else .error .ENOENT, st)
  else
    match st.stobr bindex with
    | none => (.error .oops, st)
    | some br =>
      if st.siBend = 0 || br.brCount ≠ 0 then (.error .EBUSY, st)
      else
        let doWh := br.brWh || br.brPlink
        let st := if doWh then st.setBranch bindex .putWh else st
        match e.busy with
        | some err =>
          (.error err.1,
            if doWh then st.setBranch bindex fun br => (initBrWh e.wh st.plink br.brPerm br).2 else st)
        | none => (.ok (), h.lowerMaxbytes (st.remove bindex) (h.sb hRoot.dSb).sMaxbytes)

end Host

-- ---------------------------------------------------------------------------
-- Changing
-- ---------------------------------------------------------------------------

/-- What `br_mod` gets. `rdonly` is of the inode of the branch's root. -/
structure ModEnv where
  rdonly : Bool
  wh : InitWhEnv
  deriving DecidableEq, Repr

/-- `do_need_sigen_inc` -/
def doNeedSigenInc (a b : BrPerm) : Bool := brWhable a && !brWhable b

/-- `need_sigen_inc` -/
def needSigenInc (old new : BrPerm) : Bool := doNeedSigenInc old new || doNeedSigenInc new old

/-- `br_mod`. A success says what is added to `*do_update`. -/
def brMod (st : Sbinfo) (e : ModEnv) (hRoot : HiddenDentry) (perm : BrPerm) (remount : Bool) :
    Except Errno Bool × Sbinfo :=
  let bindex := st.findDbindex hRoot
  if bindex < 0 then (if remount then .ok false else .error .ENOENT, st)
  else
    match testBr e.rdonly perm with
    | .error err => (.error err, st)
    | .ok () =>
      match st.stobr bindex with
      | none => (.error .oops, st)
      | some br =>
        if br.brPerm = perm then (.ok false, st)
        else
          match if brWritable br.brPerm then initBrWh e.wh st.plink .RO br else (.ok (), br) with
          | (.error err, br') => (.error err, st.setBranch bindex fun _ => br')
          | (.ok (), br') =>
            (.ok (needSigenInc br.brPerm perm),
              st.setBranch bindex fun _ => { br' with brPerm := perm })

-- ---------------------------------------------------------------------------
-- The arrays after each change
-- ---------------------------------------------------------------------------

namespace Sbinfo

variable {st : Sbinfo} {l : List Slot}

/-- Other arrays with the same first `n` cells. -/
structure Grown (st : Sbinfo) (n : Nat) (st' : Sbinfo) : Prop where
  eq : st' = { st with
    siBranch := st'.siBranch, diHdentry := st'.diHdentry, iiHinode := st'.iiHinode }
  branch : st'.siBranch.take n = st.siBranch.take n
  hdentry : st'.diHdentry.take n = st.diHdentry.take n
  hinode : st'.iiHinode.take n = st.iiHinode.take n
  branchRoom : max 1 n ≤ st'.siBranch.length
  hdentryRoom : max 1 n ≤ st'.diHdentry.length
  hinodeRoom : max 1 n ≤ st'.iiHinode.length

theorem Holds.grown_refl (hl : st.Holds l) : st.Grown l.length st :=
  ⟨rfl, rfl, rfl, rfl, hl.branchRoom, hl.hdentryRoom, hl.hinodeRoom⟩

/-- Arrays that have grown hold the same list. -/
theorem Holds.grown {st' : Sbinfo} (hl : st.Holds l) (hg : st.Grown l.length st') : st'.Holds l := by
  have heq := hg.eq
  constructor
  case siBend => rw [heq]; exact hl.siBend
  case diBend => rw [heq]; exact hl.diBend
  case iiBend => rw [heq]; exact hl.iiBend
  case diBstart => rw [heq]; exact hl.diBstart
  case iiBstart => rw [heq]; exact hl.iiBstart
  case branchRoom => exact hg.branchRoom
  case hdentryRoom => exact hg.hdentryRoom
  case hinodeRoom => exact hg.hinodeRoom
  case branch =>
    rw [hg.branch]
    exact hl.branch
  case hdentry => exact hg.hdentry.trans hl.hdentry
  case hinode => exact hg.hinode.trans hl.hinode

theorem Holds.setLastBrId (hl : st.Holds l) (brId : Int) :
    ({ st with siLastBrId := brId } : Sbinfo).Holds l :=
  ⟨hl.siBend, hl.diBend, hl.iiBend, hl.diBstart, hl.iiBstart, hl.branchRoom, hl.hdentryRoom,
    hl.hinodeRoom, hl.branch, hl.hdentry, hl.hinode⟩

theorem Holds.setMaxbytes (hl : st.Holds l) (maxb : Nat) :
    ({ st with sMaxbytes := maxb } : Sbinfo).Holds l :=
  ⟨hl.siBend, hl.diBend, hl.iiBend, hl.diBstart, hl.iiBstart, hl.branchRoom, hl.hdentryRoom,
    hl.hinodeRoom, hl.branch, hl.hdentry, hl.hinode⟩

/-- The new branch is in the list, at its index. -/
theorem Holds.enter (hl : st.Holds l) {i : Nat} (hi : i ≤ l.length) {s : Slot} {br : AufsBranch}
    (hkey : br.key = s.key) (ha : l.length < st.siBranch.length)
    (hb : l.length < st.diHdentry.length) (hc : l.length < st.iiHinode.length) :
    (st.enter i br s.dir s.ino).Holds (l.insertIdx i s) := by
  have hsi := hl.siBend
  have hdi := hl.diBend
  have hii := hl.iiBend
  have hds := hl.diBstart
  have his := hl.iiBstart
  have hlen : (l.insertIdx i s).length = l.length + 1 := List.length_insertIdx_of_le_length hi s
  have hn : (st.siBend + 1 - (i : Int)).toNat = l.length - i := by omega
  have hid : br.brId = s.id := congrArg BrKey.id hkey
  constructor
  case siBend => show st.siBend + 1 = _; omega
  case diBend => show st.diBend + 1 = _; omega
  case iiBend => show st.iiBend + 1 = _; omega
  case diBstart =>
    show (if st.siBend = -1 then 0 else st.diBstart) = _
    split <;> omega
  case iiBstart =>
    show (if st.siBend = -1 then 0 else st.iiBstart) = _
    split <;> omega
  case branchRoom =>
    simp only [Sbinfo.enter, Int.toNat_natCast, hn, List.length_set]
    rw [Cells.length_memmove (by omega) (by omega)]
    omega
  case hdentryRoom =>
    simp only [Sbinfo.enter, Int.toNat_natCast, hn, List.length_set]
    rw [Cells.length_memmove (by omega) (by omega)]
    omega
  case hinodeRoom =>
    simp only [Sbinfo.enter, Int.toNat_natCast, hn, List.length_set]
    rw [Cells.length_memmove (by omega) (by omega)]
    omega
  case branch =>
    simp only [Sbinfo.enter, Int.toNat_natCast, hn, hlen]
    rw [Cells.take_set_memmove_up _ hi ha, List.map_insertIdx, hl.branch, List.map_insertIdx,
      Option.map_some, hkey]
  case hdentry =>
    simp only [Sbinfo.enter, Int.toNat_natCast, hn, hlen]
    rw [Cells.take_set_memmove_up _ hi hb, hl.hdentry, List.map_insertIdx]
  case hinode =>
    simp only [Sbinfo.enter, Int.toNat_natCast, hn, hlen, hid]
    rw [Cells.take_set_memmove_up _ hi hc, hl.hinode, List.map_insertIdx]
    rfl

/-- The branch at the index is out of the list. -/
theorem Holds.remove (hl : st.Holds l) {i : Nat} (hi : i < l.length) (htwo : 1 < l.length) :
    (st.remove i).Holds (l.eraseIdx i) := by
  have hsi := hl.siBend
  have hdi := hl.diBend
  have hii := hl.iiBend
  have hds := hl.diBstart
  have his := hl.iiBstart
  have hroom := hl.branchRoom
  have hroom' := hl.hdentryRoom
  have hroom'' := hl.hinodeRoom
  have hlen : (l.eraseIdx i).length = l.length - 1 := by
    rw [List.length_eraseIdx, if_pos hi]
  have hn : (st.siBend - (i : Int)).toNat = l.length - 1 - i := by omega
  have hlast : st.siBend.toNat = l.length - 1 := by omega
  have hset : ∀ {α : Type} (a : List α) (x : α),
      (a.set (l.length - 1) x).take (l.length - 1) = a.take (l.length - 1) := by
    intro α a x
    rw [List.take_set, List.set_eq_of_length_le (List.length_take_le _ _)]
  constructor
  case siBend => show st.siBend - 1 = _; omega
  case diBend => show st.diBend - 1 = _; omega
  case iiBend => show st.iiBend - 1 = _; omega
  case diBstart => show st.diBstart = _; omega
  case iiBstart => show st.iiBstart = _; omega
  case branchRoom =>
    simp only [Sbinfo.remove, Int.toNat_natCast, hn, List.length_set]
    rw [Cells.length_memmove (by omega) (by omega)]
    omega
  case hdentryRoom =>
    simp only [Sbinfo.remove, Int.toNat_natCast, hn, List.length_set]
    rw [Cells.length_memmove (by omega) (by omega)]
    omega
  case hinodeRoom =>
    simp only [Sbinfo.remove, Int.toNat_natCast, hn, List.length_modify]
    rw [Cells.length_memmove (by omega) (by omega)]
    omega
  case branch =>
    simp only [Sbinfo.remove, Int.toNat_natCast, hn, hlast, hlen]
    rw [hset, Cells.take_memmove_down hi (by omega), ← List.eraseIdx_map, hl.branch,
      List.eraseIdx_map]
  case hdentry =>
    simp only [Sbinfo.remove, Int.toNat_natCast, hn, hlast, hlen]
    rw [hset, Cells.take_memmove_down hi (by omega), hl.hdentry, List.eraseIdx_map]
  case hinode =>
    simp only [Sbinfo.remove, Int.toNat_natCast, hn, hlast, hlen]
    rw [List.take_modify, List.modify_eq_self (List.length_take_le _ _),
      Cells.take_memmove_down hi (by omega), hl.hinode, List.eraseIdx_map]

/-- The branch at the index has another permission. -/
theorem Holds.chperm (hl : st.Holds l) {i : Nat} {s : Slot} (hs : l[i]? = some s)
    {f : AufsBranch → AufsBranch} {perm : BrPerm}
    (hf : ∀ br, st.stobr i = some br → (f br).key = (s.chperm perm).key) :
    (st.setBranch i f).Holds (l.modify i (Slot.chperm perm)) := by
  have hlen := List.length_modify (Slot.chperm perm) l i
  have hlt : i < l.length := (List.getElem?_eq_some_iff.mp hs).1
  constructor
  case siBend => rw [hlen]; exact hl.siBend
  case diBend => rw [hlen]; exact hl.diBend
  case iiBend => rw [hlen]; exact hl.iiBend
  case diBstart => rw [hlen]; exact hl.diBstart
  case iiBstart => rw [hlen]; exact hl.iiBstart
  case branchRoom =>
    rw [hlen]
    simp only [setBranch, List.length_modify]
    exact hl.branchRoom
  case hdentryRoom => rw [hlen]; exact hl.hdentryRoom
  case hinodeRoom => rw [hlen]; exact hl.hinodeRoom
  case branch =>
    rw [hlen]
    apply List.ext_getElem?
    intro j
    have hj := congrArg (·[j]?) hl.branch
    simp only [List.getElem?_map, List.getElem?_take] at hj
    rw [List.getElem?_map, List.getElem?_take, List.getElem?_map, List.getElem?_modify, setBranch,
      List.getElem?_modify, Int.toNat_natCast]
    by_cases hij : i = j
    · subst hij
      obtain ⟨br, hbr, -⟩ := hl.stobr hs
      have hcell : st.siBranch[i]? = some (some br) := by
        rw [Sbinfo.stobr, if_pos (by omega), Int.toNat_natCast] at hbr
        exact Option.join_eq_some_iff.mp hbr
      simp only [if_pos hlt, if_true, hcell, hs, Functor.map, Option.map_some, hf br hbr]
    · simp only [if_neg hij, Functor.map, Option.map_id']
      rw [hj]
  case hdentry =>
    rw [hlen]
    refine hl.hdentry.trans (List.ext_getElem? fun j => ?_)
    rw [List.getElem?_map, List.getElem?_map, List.getElem?_modify]
    cases l[j]? with
    | none => rfl
    | some s' =>
      by_cases hij : i = j
      · simp only [Functor.map, Option.map_some, if_pos hij, Slot.chperm]
      · simp only [Functor.map, Option.map_some, if_neg hij]
  case hinode =>
    rw [hlen]
    refine hl.hinode.trans (List.ext_getElem? fun j => ?_)
    rw [List.getElem?_map, List.getElem?_map, List.getElem?_modify]
    cases l[j]? with
    | none => rfl
    | some s' =>
      by_cases hij : i = j
      · simp only [Functor.map, Option.map_some, if_pos hij, Slot.chperm, Slot.hinode]
      · simp only [Functor.map, Option.map_some, if_neg hij]

-- ---------------------------------------------------------------------------
-- One branch after each change
-- ---------------------------------------------------------------------------

theorem stobr_setBranch {b : Int} (hb : 0 ≤ b) (f : AufsBranch → AufsBranch) (c : Int) :
    (st.setBranch b f).stobr c = if c = b then (st.stobr b).map f else st.stobr c := by
  rw [stobr, stobr, stobr, setBranch]
  by_cases hc : 0 ≤ c
  · rw [if_pos hc, if_pos hb, if_pos hc, List.getElem?_modify]
    by_cases hcb : c = b
    · subst hcb
      rw [if_pos rfl]
      cases st.siBranch[c.toNat]? with
      | none => rfl
      | some x => simp only [if_true, Functor.map, Option.map_some, Option.join_some]
    · rw [if_neg hcb]
      cases st.siBranch[c.toNat]? with
      | none => rfl
      | some x => simp only [if_neg (show b.toNat ≠ c.toNat by omega), Functor.map, Option.map_some]
  · rw [if_neg hc, if_neg hc, if_neg (by omega)]

/-- A cell of the used part decides what a branch is. -/
theorem stobr_of_take {a : List (Option AufsBranch)} {n i : Nat} (hi : i < n) :
    ((a.take n)[i]?).join = (a[i]?).join := by
  rw [List.getElem?_take, if_pos hi]

theorem Grown.stobr {st' : Sbinfo} {n : Nat} (hg : st.Grown n st') {c : Int} (hc : c < n) :
    st'.stobr c = st.stobr c := by
  rw [Sbinfo.stobr, Sbinfo.stobr]
  by_cases h0 : 0 ≤ c
  · rw [if_pos h0, if_pos h0, ← stobr_of_take (show c.toNat < n by omega), hg.branch,
      stobr_of_take (by omega)]
  · rw [if_neg h0, if_neg h0]

theorem Holds.stobr_enter (hl : st.Holds l) {i : Nat} (hi : i ≤ l.length)
    (ha : l.length < st.siBranch.length) (br : AufsBranch) (dentry : HiddenDentry) (iIno : Nat)
    {c : Int} (hc : c ≤ l.length) :
    (st.enter i br dentry iIno).stobr c =
      if c < i then st.stobr c else if c = i then some br else st.stobr (c - 1) := by
  have hsi := hl.siBend
  have hn : (st.siBend + 1 - (i : Int)).toNat = l.length - i := by omega
  have hlen : (st.siBranch.take l.length).length = l.length := by
    rw [List.length_take]
    omega
  by_cases h0 : 0 ≤ c
  · obtain ⟨k, rfl⟩ := Int.eq_ofNat_of_zero_le h0
    rw [Sbinfo.stobr, if_pos h0, Int.toNat_natCast,
      ← stobr_of_take (show k < l.length + 1 by omega)]
    simp only [Sbinfo.enter, Int.toNat_natCast, hn]
    rw [Cells.take_set_memmove_up _ hi ha, List.getElem?_insertIdx, hlen]
    by_cases hk : k < i
    · rw [if_pos hk, if_pos (show (k : Int) < i by omega), stobr_of_take (by omega), Sbinfo.stobr,
        if_pos h0, Int.toNat_natCast]
    · rw [if_neg hk, if_neg (show ¬(k : Int) < i by omega)]
      by_cases hki : k = i
      · rw [if_pos hki, if_pos (show k ≤ l.length by omega), if_pos (show (k : Int) = i by omega),
          Option.join_some]
      · rw [if_neg hki, if_neg (show ¬(k : Int) = i by omega), stobr_of_take (by omega),
          Sbinfo.stobr, if_pos (show (0 : Int) ≤ k - 1 by omega)]
        congr 2
        omega
  · rw [Sbinfo.stobr, if_neg h0, if_pos (by omega), Sbinfo.stobr, if_neg h0]

theorem Holds.stobr_remove (hl : st.Holds l) {i : Nat} (hi : i < l.length) {c : Int}
    (hc : c < l.length - 1) :
    (st.remove i).stobr c = if c < i then st.stobr c else st.stobr (c + 1) := by
  have hsi := hl.siBend
  have hroom := hl.branchRoom
  have hn : (st.siBend - (i : Int)).toNat = l.length - 1 - i := by omega
  have hlast : st.siBend.toNat = l.length - 1 := by omega
  by_cases h0 : 0 ≤ c
  · obtain ⟨k, rfl⟩ := Int.eq_ofNat_of_zero_le h0
    rw [Sbinfo.stobr, if_pos h0, Int.toNat_natCast,
      ← stobr_of_take (show k < l.length - 1 by omega)]
    simp only [Sbinfo.remove, Int.toNat_natCast, hn, hlast]
    rw [List.take_set, List.set_eq_of_length_le (List.length_take_le _ _),
      Cells.take_memmove_down hi (by omega), List.getElem?_eraseIdx]
    by_cases hk : k < i
    · rw [if_pos hk, if_pos (show (k : Int) < i by omega), stobr_of_take (by omega), Sbinfo.stobr,
        if_pos h0, Int.toNat_natCast]
    · rw [if_neg hk, if_neg (show ¬(k : Int) < i by omega), stobr_of_take (by omega),
        Sbinfo.stobr, if_pos (show (0 : Int) ≤ k + 1 by omega)]
      congr 2
  · rw [Sbinfo.stobr, if_neg h0, if_pos (by omega), Sbinfo.stobr, if_neg h0]

end Sbinfo

end Aufs
