-- SUMMARY: What the xino files leave alone: xino_init, xino_set and xino_clr change nothing but the files of the branches.
import Aufs.XinoRun

/-!
# The rest of a branch

Making, sharing, moving and dropping xino files changes the flag, the files and the three
fields of the branches that are about them. Ids, permissions, use counts and whiteout bases
are those of before, and so is the table.
-/

namespace Aufs

/-- A branch but for its xino file. -/
def AufsBranch.rest (br : AufsBranch) : AufsBranch :=
  { br with brXino := none, brXinoRead := false, brXinoWrite := false }

theorem AufsBranch.of_rest {br br' : AufsBranch} (h : br'.rest = br.rest) :
    br'.brId = br.brId ∧ br'.brPerm = br.brPerm ∧ br'.brCount = br.brCount ∧ br'.brWh = br.brWh ∧
      br'.brPlink = br.brPlink := by
  simp only [rest, AufsBranch.mk.injEq] at h
  obtain ⟨-, -, -, hid, hperm, -, hcount, hwh, hplink⟩ := h
  exact ⟨hid, hperm, hcount, hwh, hplink⟩

/-- Nothing but xino files differs. -/
structure Sbinfo.SameRest (st st' : Sbinfo) : Prop where
  branch : st'.siBranch.map (Option.map AufsBranch.rest) = st.siBranch.map (Option.map AufsBranch.rest)
  eq : st' = { st with
    siBranch := st'.siBranch, xino := st'.xino, files := st'.files, nextFile := st'.nextFile }

namespace Sbinfo

variable {st st' st'' : Sbinfo}

theorem SameRest.refl (st : Sbinfo) : st.SameRest st := ⟨rfl, rfl⟩

theorem SameRest.trans (h : st.SameRest st') (h' : st'.SameRest st'') : st.SameRest st'' where
  branch := h'.branch.trans h.branch
  eq := by
    rw [h'.eq, h.eq]

theorem SameRest.siBend (h : st.SameRest st') : st'.siBend = st.siBend := by
  rw [h.eq]

theorem SameRest.plink (h : st.SameRest st') : st'.plink = st.plink := by
  rw [h.eq]

theorem SameRest.inTable (h : st.SameRest st') {b : Int} : st'.InTable b ↔ st.InTable b := by
  rw [InTable, InTable, h.siBend]

/-- The table is among the rest. -/
theorem SameRest.sameTable (h : st.SameRest st') : st.SameTable st' where
  branch := by
    have hkey : (Option.map AufsBranch.key : Option AufsBranch → _) =
        Option.map AufsBranch.key ∘ Option.map AufsBranch.rest := by
      funext c
      cases c <;> rfl
    rw [hkey, ← List.map_map, h.branch, List.map_map]
  siBend := h.siBend
  siLastBrId := by rw [h.eq]
  diHdentry := by rw [h.eq]
  diBstart := by rw [h.eq]
  diBend := by rw [h.eq]
  iiHinode := by rw [h.eq]
  iiBstart := by rw [h.eq]
  iiBend := by rw [h.eq]
  sMaxbytes := by rw [h.eq]

/-- At each index stands the branch of before, but for its xino file. -/
theorem SameRest.stobr (h : st.SameRest st') (b : Int) :
    (st'.stobr b).map AufsBranch.rest = (st.stobr b).map AufsBranch.rest :=
  map_stobr h.branch b

theorem SameRest.stobr_of (h : st.SameRest st') {b : Int} {br' : AufsBranch} (hbr : st'.stobr b = some br') :
    ∃ br, st.stobr b = some br ∧ br'.rest = br.rest := by
  have hrest := h.stobr b
  rw [hbr, Option.map_some] at hrest
  obtain ⟨br, hbr, heq⟩ := Option.map_eq_some_iff.mp hrest.symm
  exact ⟨br, hbr, heq.symm⟩

theorem SameRest.stobr_to (h : st.SameRest st') {b : Int} {br : AufsBranch} (hbr : st.stobr b = some br) :
    ∃ br', st'.stobr b = some br' ∧ br'.rest = br.rest := by
  have hrest := h.stobr b
  rw [hbr, Option.map_some] at hrest
  obtain ⟨br', hbr', heq⟩ := Option.map_eq_some_iff.mp hrest
  exact ⟨br', hbr', heq⟩

theorem sameRest_setBranch (bindex : Int) {f : AufsBranch → AufsBranch}
    (hf : ∀ br, (f br).rest = br.rest) : st.SameRest (st.setBranch bindex f) where
  branch := by
    apply List.ext_getElem?
    intro i
    rw [List.getElem?_map, List.getElem?_map, setBranch, List.getElem?_modify]
    cases st.siBranch[i]? with
    | none => rfl
    | some c =>
      by_cases hi : bindex.toNat = i
      · simp only [Functor.map, Option.map_some, if_pos hi, Option.map_map]
        congr 2
        funext br
        exact hf br
      · simp only [Functor.map, Option.map_some, if_neg hi]
  eq := rfl

theorem sameRest_files (files : Files) (nextFile : Nat) :
    st.SameRest { st with files := files, nextFile := nextFile } := ⟨rfl, rfl⟩

theorem sameRest_xino (xino : Bool) : st.SameRest { st with xino := xino } := ⟨rfl, rfl⟩

theorem sameRest_finish (r : Except Errno Unit) : st.SameRest (st.finish r).2 := by
  cases r with
  | error err => exact sameRest_xino false
  | ok u => exact sameRest_xino true

theorem sameRest_dropShared (bindex : Int) : st.SameRest (st.dropShared bindex) := by
  rw [dropShared]
  split
  · exact .refl st
  · split
    · exact sameRest_setBranch bindex fun _ => rfl
    · exact .refl st

theorem sameRest_foldl {f : Sbinfo → Int → Sbinfo} (hf : ∀ (st : Sbinfo) (b : Int), st.SameRest (f st b))
    (bs : List Int) (st : Sbinfo) : st.SameRest (bs.foldl f st) := by
  induction bs generalizing st with
  | nil => exact .refl st
  | cons b bs ih => exact (hf st b).trans (ih (f st b))

theorem sameRest_xinoClr : st.SameRest st.xinoClr :=
  (sameRest_foldl (f := fun st bindex => st.setBranch bindex .putXino)
    (fun _ b => sameRest_setBranch b fun _ => rfl) _ st).trans (sameRest_xino false)

end Sbinfo

namespace Host

variable {h : Host} {st : Sbinfo}

-- ---------------------------------------------------------------------------
-- Making a file
-- ---------------------------------------------------------------------------

theorem sameRest_xinoWrite (ans : Except LowerErrno Nat) (bindex : Int) (hIno ino : Nat) :
    st.SameRest (h.xinoWrite st ans bindex hIno ino).2 := by
  rw [xinoWrite]
  split
  · exact .refl st
  · split
    · exact .refl st
    · split
      · exact .refl st
      · split
        · exact .refl st
        · dsimp only
          split <;> exact Sbinfo.sameRest_files _ _

theorem sameRest_xinoCreate2 (ans : XinoCreate) (place : XinoPlace) :
    st.SameRest (h.xinoCreate2 st ans place).2 := by
  unfold xinoCreate2
  split
  · exact .refl st
  · split
    · exact .refl st
    · exact Sbinfo.sameRest_files _ _

theorem sameRest_xinoInitFile (write : Except LowerErrno Nat) (bindex : Int) (file : XFile) :
    st.SameRest (h.xinoInitFile st write bindex file).2 := by
  rw [xinoInitFile]
  split
  · exact Sbinfo.sameRest_setBranch bindex fun _ => rfl
  · split
    · exact Sbinfo.sameRest_setBranch bindex fun _ => rfl
    · dsimp only
      split
      · exact Sbinfo.sameRest_setBranch bindex fun _ => rfl
      · rename_i hiddenInode _
        have hset := @Sbinfo.sameRest_setBranch st bindex (fun br =>
          { br with brXinoRead := true, brXinoWrite := true, brXino := some file }) fun _ => rfl
        have hwrite := hset.trans (sameRest_xinoWrite (h := h) write bindex hiddenInode.iIno rootIno)
        split
        case h_1 hw =>
          rw [hw] at hwrite
          exact hwrite
        case h_2 hw =>
          rw [hw] at hwrite
          exact hwrite.trans (Sbinfo.sameRest_setBranch bindex fun _ => rfl)

theorem sameRest_xinoInit (e : XinoInitEnv) (bindex : Int) (base : Option XinoPlace) (doTest : Bool) :
    st.SameRest (h.xinoInit st e bindex base doTest).2 := by
  unfold xinoInit
  split
  · exact sameRest_xinoInitFile _ _ _
  · split
    · exact .refl st
    · rename_i place
      have hcreate := @sameRest_xinoCreate2 h st e.create place
      split
      case h_1 hc =>
        rw [hc] at hcreate
        exact hcreate
      case h_2 hc =>
        rw [hc] at hcreate
        exact hcreate.trans (sameRest_xinoInitFile _ _ _)

theorem sameRest_addXino (e : XinoInitEnv) (addBindex : Int) :
    st.SameRest (h.addXino st e addBindex).2 := by
  rw [addXino]
  split
  · split
    · exact .refl st
    · rename_i base _
      have hinit := @sameRest_xinoInit h st e addBindex (base.brXino.map XFile.place) true
      split
      case h_1 hr =>
        rw [hr] at hinit
        exact hinit
      case h_2 hr =>
        rw [hr] at hinit
        exact hinit
      case h_3 hr =>
        rw [hr] at hinit
        exact hinit.trans (Sbinfo.sameRest_xino false)
  · exact .refl st

-- ---------------------------------------------------------------------------
-- At the end of a mount
-- ---------------------------------------------------------------------------

theorem sameRest_defaultXinos (e : Int → XinoInitEnv) (place : XinoPlace) (bs : List Int) (st : Sbinfo) :
    st.SameRest (h.defaultXinos e place bs st).2 := by
  induction bs generalizing st with
  | nil => exact .refl st
  | cons b bs ih =>
    rw [defaultXinos]
    have hinit := @sameRest_xinoInit h st (e b) b (some place) (b ≠ 0)
    split
    case h_1 hr =>
      rw [hr] at hinit
      exact hinit
    case h_2 hr =>
      rw [hr] at hinit
      exact hinit.trans (ih _)

theorem sameRest_enableXino (e : MountEnv) (optXino : Bool) :
    st.SameRest (h.enableXino e optXino st).2 := by
  unfold enableXino
  split
  · split
    · exact .refl st
    · exact sameRest_defaultXinos _ _ _ _
  · exact .refl st

-- ---------------------------------------------------------------------------
-- The option
-- ---------------------------------------------------------------------------

theorem sameRest_moveFile (e : XinoSetEnv) (place : XinoPlace) (bindex : Int) (old : XFile) :
    st.SameRest (h.moveFile e place st bindex old).2 := by
  rw [moveFile]
  have hcreate := @sameRest_xinoCreate2 h st (e.create bindex) place
  split
  case h_1 hc =>
    rw [hc] at hcreate
    exact hcreate
  case h_2 hc =>
    rw [hc] at hcreate
    split
    · exact hcreate
    · exact hcreate.trans (Sbinfo.sameRest_files _ _)
    · exact hcreate.trans ((Sbinfo.sameRest_files _ _).trans
        (Sbinfo.sameRest_setBranch bindex fun _ => rfl))

theorem sameRest_moveFiles (e : XinoSetEnv) (place : XinoPlace) (bs : List Int) (r : Except Errno Unit)
    (st : Sbinfo) : st.SameRest (h.moveFiles e place bs r st).2 := by
  induction bs generalizing r st with
  | nil => exact .refl st
  | cons b bs ih =>
    rw [moveFiles]
    split
    · exact ih r st
    · rename_i old _
      have hmove := @sameRest_moveFile h st e place b old
      split
      case h_1 hm =>
        rw [hm] at hmove
        exact hmove
      case h_2 hm =>
        rw [hm] at hmove
        exact hmove.trans (ih _ _)

theorem sameRest_initFiles (e : XinoSetEnv) (place : XinoPlace) (bs : List Int) (r : Except Errno Unit)
    (st : Sbinfo) : st.SameRest (h.initFiles e place bs r st).2 := by
  induction bs generalizing r st with
  | nil => exact .refl st
  | cons b bs ih =>
    rw [initFiles]
    split
    · exact ih r st
    · have hinit := @sameRest_xinoInit h st (e.init b) b (some place) true
      split
      case h_1 hr =>
        rw [hr] at hinit
        exact hinit.trans (ih _ _)
      case h_2 hr =>
        rw [hr] at hinit
        exact hinit
      case h_3 hr =>
        rw [hr] at hinit
        exact hinit

theorem sameRest_xinoSet (e : XinoSetEnv) (place : XinoPlace) (remount : Bool) :
    st.SameRest (h.xinoSet e place st remount).2 := by
  rw [xinoSet]
  split
  · exact .refl st
  split
  · exact Sbinfo.sameRest_finish _
  rw [xinoMove]
  dsimp only
  have hdrop := (@Sbinfo.sameRest_xino st true).trans
    (Sbinfo.sameRest_foldl (fun _ b => Sbinfo.sameRest_dropShared b)
      (bindexes 0 st.siBend).reverse { st with xino := true })
  have hmove := hdrop.trans (sameRest_moveFiles (h := h) e place (bindexes 0 st.siBend) (.ok ()) _)
  split
  case h_1 hm =>
    rw [hm] at hmove
    exact hmove
  case h_2 hm =>
    rw [hm] at hmove
    have hinit := fun r => hmove.trans (sameRest_initFiles (h := h) e place (bindexes 0 st.siBend) r _)
    exact (hinit _).trans (Sbinfo.sameRest_finish _)

theorem sameRest_doOptXino (remount : Bool) (o : AuOpt) : st.SameRest (h.doOptXino st remount o).2 := by
  cases o with
  | xino e place => exact sameRest_xinoSet e place remount
  | noxino => exact Sbinfo.sameRest_xinoClr
  | _ => exact .refl st

theorem sameRest_mountXinos (opts : List AuOpt) (optXino : Bool) (st : Sbinfo) :
    st.SameRest (h.mountXinos opts optXino st).2 := by
  induction opts generalizing optXino st with
  | nil => exact .refl st
  | cons o os ih =>
    rw [mountXinos]
    have hopt := @sameRest_doOptXino h st false o
    split
    case h_1 ho =>
      rw [ho] at hopt
      exact hopt
    case h_2 ho =>
      rw [ho] at hopt
      exact hopt.trans (ih _ _)

end Host

end Aufs
