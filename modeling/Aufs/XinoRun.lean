-- SUMMARY: Every run of mounts, remounts and uses of the xino files: when the mount flag tells the truth.
import Aufs.XinoFlag

/-!
# Runs with xino files

Adding and deleting branches keeps the files of the others in order. So in a run in which
the flag is not set behind the back of the branches, and no file is asked for that the flag
does not promise, the flag means that every branch has its file.
-/

namespace Aufs

-- ---------------------------------------------------------------------------
-- Branch operations
-- ---------------------------------------------------------------------------

/-- The same xino file with the same functions. -/
structure AufsBranch.SameXino (br br' : AufsBranch) : Prop where
  brXino : br'.brXino = br.brXino
  brXinoRead : br'.brXinoRead = br.brXinoRead
  brXinoWrite : br'.brXinoWrite = br.brXinoWrite

namespace AufsBranch.SameXino

variable {br br' : AufsBranch}

theorem fitted (hs : br.SameXino br') (hf : br.Fitted) : br'.Fitted := by
  rw [Fitted, hs.brXino, hs.brXinoRead, hs.brXinoWrite]
  exact hf

end AufsBranch.SameXino

theorem initWh_sameXino (e : InitWhEnv) (plink : Bool) (br : AufsBranch) :
    br.SameXino (initWh e plink br).2 := by
  obtain ⟨wh, pl, heq, -⟩ := initWh_eq e plink br
  rw [heq]
  exact ⟨rfl, rfl, rfl⟩

/-- Setting up whiteout bases has nothing to do with xino files. -/
theorem initBrWh_sameXino (e : InitWhEnv) (plink : Bool) (newPerm : BrPerm) (br : AufsBranch) :
    br.SameXino (initBrWh e plink newPerm br).2 := by
  have hs := initWh_sameXino e plink { br with brPerm := newPerm }
  exact ⟨hs.brXino, hs.brXinoRead, hs.brXinoWrite⟩

namespace Sbinfo

variable {st st' : Sbinfo}

/-- Every branch of the new table has the xino file of a branch of the old one. -/
structure Carries (st st' : Sbinfo) : Prop where
  xino : st'.xino = st.xino
  branch : ∀ b, st'.InTable b → ∃ c, st.InTable c ∧ ∀ br, st.stobr c = some br →
    ∃ br', st'.stobr b = some br' ∧ br.SameXino br'

theorem Carries.refl (st : Sbinfo) : st.Carries st :=
  ⟨rfl, fun b hb => ⟨b, hb, fun br hbr => ⟨br, hbr, rfl, rfl, rfl⟩⟩⟩

theorem Carries.trans {st'' : Sbinfo} (hc : st.Carries st') (hc' : st'.Carries st'') :
    st.Carries st'' where
  xino := hc'.xino.trans hc.xino
  branch b hb := by
    obtain ⟨c, hcb, hget'⟩ := hc'.branch b hb
    obtain ⟨d, hd, hget⟩ := hc.branch c hcb
    refine ⟨d, hd, fun br hbr => ?_⟩
    obtain ⟨br', hbr', hs⟩ := hget br hbr
    obtain ⟨br'', hbr'', hs'⟩ := hget' br' hbr'
    exact ⟨br'', hbr'', hs'.brXino.trans hs.brXino, hs'.brXinoRead.trans hs.brXinoRead,
      hs'.brXinoWrite.trans hs.brXinoWrite⟩

theorem Holds.isSome_stobr {l : List Slot} (hl : st.Holds l) {b : Int} (hb : st.InTable b) :
    (st.stobr b).isSome := by
  obtain ⟨i, s, rfl, hs⟩ := hl.slot hb
  obtain ⟨br, hbr, -⟩ := hl.stobr hs
  rw [hbr]
  rfl

/-- What holds of the xino file of every branch of the old table holds in the new one. -/
theorem Carries.forall {P : AufsBranch → Prop} (hc : st.Carries st') {l : List Slot}
    (hl : st.Holds l) (hP : ∀ br br', br.SameXino br' → P br → P br')
    (hall : ∀ b br, st.InTable b → st.stobr b = some br → P br) :
    ∀ b br, st'.InTable b → st'.stobr b = some br → P br := by
  intro b br' hb hbr'
  obtain ⟨c, hcb, hget⟩ := hc.branch b hb
  obtain ⟨br, hbr⟩ := Option.isSome_iff_exists.mp (hl.isSome_stobr hcb)
  obtain ⟨br'', hbr'', hs⟩ := hget br hbr
  obtain rfl := Option.some.inj (hbr''.symm.trans hbr')
  exact hP br br'' hs (hall c br hcb hbr)

theorem allFiles_iff {l : List Slot} (hl : st.Holds l) :
    st.AllFiles ↔ ∀ b br, st.InTable b → st.stobr b = some br → br.brXino.isSome := by
  constructor
  · intro ha b br hb hbr
    have hfile := ha b hb
    rwa [brXino, hbr] at hfile
  · intro ha b hb
    obtain ⟨br, hbr⟩ := Option.isSome_iff_exists.mp (hl.isSome_stobr hb)
    rw [brXino, hbr]
    exact ha b br hb hbr

/-- The files stay in order. -/
theorem XinoOk.carries (hok : st.XinoOk) {l l' : List Slot} (hl : st.Holds l) (hl' : st'.Holds l')
    (hc : st.Carries st') : st'.XinoOk where
  fitted := hc.forall hl (fun _ _ hs => hs.fitted) hok.fitted
  files hx := by
    rw [allFiles_iff hl']
    refine hc.forall hl (fun br br' hs hfile => ?_)
      ((allFiles_iff hl).mp (hok.files (hc.xino.symm.trans hx)))
    rw [hs.brXino]
    exact hfile

/-- A change of one branch that does not concern its xino file. -/
theorem carries_setBranch {b : Int} (hb : 0 ≤ b) {f : AufsBranch → AufsBranch}
    (hf : ∀ br, st.stobr b = some br → br.SameXino (f br)) : st.Carries (st.setBranch b f) := by
  refine ⟨rfl, fun c hc => ⟨c, hc, fun br hbr => ?_⟩⟩
  rw [stobr_setBranch hb]
  split
  case isTrue he =>
    subst he
    exact ⟨f br, by rw [hbr, Option.map_some], hf br hbr⟩
  case isFalse => exact ⟨br, hbr, rfl, rfl, rfl⟩

theorem Holds.carries_grown {l : List Slot} (hl : st.Holds l) (hg : st.Grown l.length st') :
    st.Carries st' := by
  have hend := hl.siBend
  refine ⟨by rw [hg.eq], fun b hb => ?_⟩
  have hb' : st.InTable b := by
    rwa [InTable, hg.eq] at hb
  refine ⟨b, hb', fun br hbr => ⟨br, ?_, rfl, rfl, rfl⟩⟩
  rw [hg.stobr (by obtain ⟨-, hle⟩ := hb'; omega), hbr]

theorem Holds.carries_remove {l : List Slot} (hl : st.Holds l) {i : Nat} (hi : i < l.length) :
    st.Carries (st.remove i) := by
  have hend := hl.siBend
  refine ⟨rfl, fun b hb => ?_⟩
  obtain ⟨h0, hle⟩ := hb
  have hle : b ≤ st.siBend - 1 := hle
  have hget := hl.stobr_remove hi (show b < l.length - 1 by omega)
  by_cases hlt : b < i
  · rw [if_pos hlt] at hget
    exact ⟨b, ⟨h0, by omega⟩, fun br hbr => ⟨br, hget.trans hbr, rfl, rfl, rfl⟩⟩
  · rw [if_neg hlt] at hget
    exact ⟨b + 1, ⟨by omega, by omega⟩, fun br hbr => ⟨br, hget.trans hbr, rfl, rfl, rfl⟩⟩

/-- Every branch but the new one was there before. -/
theorem Holds.stobr_enter_of_ne {l : List Slot} (hl : st.Holds l) {i : Nat} (hi : i ≤ l.length)
    (ha : l.length < st.siBranch.length) (br : AufsBranch) (dentry : HiddenDentry) (iIno : Nat)
    {b : Int} (hb : (st.enter i br dentry iIno).InTable b) (hne : b ≠ i) :
    ∃ c, st.InTable c ∧ (st.enter i br dentry iIno).stobr b = st.stobr c := by
  have hend := hl.siBend
  obtain ⟨h0, hle⟩ := hb
  have hle : b ≤ st.siBend + 1 := hle
  have hget := hl.stobr_enter hi ha br dentry iIno (show b ≤ l.length by omega)
  rw [if_neg hne] at hget
  by_cases hlt : b < i
  · rw [if_pos hlt] at hget
    exact ⟨b, ⟨h0, by omega⟩, hget⟩
  · rw [if_neg hlt] at hget
    exact ⟨b - 1, ⟨by omega, by omega⟩, hget⟩

theorem Holds.stobr_enter_self {l : List Slot} (hl : st.Holds l) {i : Nat} (hi : i ≤ l.length)
    (ha : l.length < st.siBranch.length) (br : AufsBranch) (dentry : HiddenDentry) (iIno : Nat) :
    (st.enter i br dentry iIno).stobr i = some br := by
  rw [hl.stobr_enter hi ha br dentry iIno (show (i : Int) ≤ l.length by omega),
    if_neg (Int.lt_irrefl _), if_pos rfl]

/-- A new branch has no file yet. The others have what they had. -/
theorem XinoOk.enter (hok : st.XinoOk) {l : List Slot} (hl : st.Holds l) {i : Nat}
    (hi : i ≤ l.length) (ha : l.length < st.siBranch.length) {br : AufsBranch}
    (hno : br.brXino = none) (dentry : HiddenDentry) (iIno : Nat) :
    (st.enter i br dentry iIno).Fitted ∧ (st.enter i br dentry iIno).brXino i = none ∧
      (st.xino = true → ∀ b, (st.enter i br dentry iIno).InTable b → b ≠ i →
        ((st.enter i br dentry iIno).brXino b).isSome) := by
  have hold := fun b => hl.stobr_enter_of_ne hi ha br dentry iIno (b := b)
  have hnew := hl.stobr_enter_self hi ha br dentry iIno
  refine ⟨fun b br' hb hbr' => ?_, ?_, fun hx b hb hne => ?_⟩
  · by_cases hbi : b = i
    · subst hbi
      obtain rfl := Option.some.inj (hnew.symm.trans hbr')
      intro hsome
      rw [hno] at hsome
      cases hsome
    · obtain ⟨c, hc, he⟩ := hold b hb hbi
      exact hok.fitted c br' hc (he.symm.trans hbr')
  · rw [brXino, hnew]
    exact hno
  · obtain ⟨c, hc, he⟩ := hold b hb hne
    rw [brXino, he]
    exact hok.files hx c hc

end Sbinfo

-- ---------------------------------------------------------------------------
-- Sound states
-- ---------------------------------------------------------------------------

/-- A mounted state: some branches, a well-formed table, and xino files in order. -/
structure Host.Sound (h : Host) (st : Sbinfo) : Prop where
  table : ∃ t : BrList h, st.Is t
  nonempty : 0 ≤ st.siBend
  xino : st.XinoOk

section

variable {h : Host} {st : Sbinfo}

/-- The xino file of a branch that was just added: the first of the other branches has one
as soon as the flag is set. -/
theorem Host.addXino_spec {t : BrList h} (ht : st.Is t) {i : Nat} (hb : st.InTable i)
    (hfit : st.Fitted) (hno : st.brXino i = none)
    (hrest : st.xino = true → 0 < st.siBend ∧ ∀ b, st.InTable b → b ≠ i → (st.brXino b).isSome)
    (e : XinoInitEnv) :
    (h.addXino st e i).1 ≠ .error .oops ∧ (h.addXino st e i).2.XinoOk := by
  unfold Host.addXino
  by_cases hx : st.xino = true
  · obtain ⟨hbend, hrest⟩ := hrest hx
    rw [if_pos hx]
    -- the branch at index 0, or at 1 if the new one is at 0
    have hbase : st.InTable (if (i : Int) = 0 then 1 else 0) ∧ (if (i : Int) = 0 then (1 : Int) else 0) ≠ i := by
      split
      case isTrue he => exact ⟨⟨by omega, by omega⟩, by omega⟩
      case isFalse he => exact ⟨⟨by omega, by omega⟩, by omega⟩
    have hfile := hrest _ hbase.1 hbase.2
    obtain ⟨base, hbr⟩ := Option.isSome_iff_exists.mp (ht.holds.isSome_stobr hbase.1)
    rw [Sbinfo.brXino, hbr, Option.bind_some] at hfile
    obtain ⟨file, hfile⟩ := Option.isSome_iff_exists.mp hfile
    simp only [hbr, hfile, Option.map_some]
    obtain ⟨hrefits, hsome, hne⟩ := Host.xinoInit_spec (h := h) ht.holds hb hno e file.place true
    generalize h.xinoInit st e i (some file.place) true = r at *
    obtain ⟨r, st₁⟩ := r
    cases r with
    | ok u =>
      refine ⟨(fun he => by cases he), hrefits.fitted hfit, fun _ b hb => ?_⟩
      by_cases hbi : b = i
      · rw [hbi]
        exact hsome rfl
      · exact hrefits.keeps b (hrest b (hrefits.table.inTable.mp hb) hbi)
    | error err =>
      cases err with
      | oops => exact absurd rfl hne
      | _ => exact ⟨(fun he => by cases he), hrefits.fitted hfit, fun hx => by cases hx⟩
  · rw [if_neg hx]
    exact ⟨(fun he => by cases he), hfit, fun h => absurd h hx⟩

theorem Host.testAdd_ne_oops (e : AddEnv) (add : OptAdd) (remount : Bool) :
    h.testAdd st e add remount ≠ .error .oops := by
  have hbr : testBr e.rdonly add.perm ≠ .error .oops := by
    rw [testBr]
    split <;> exact fun he => by cases he
  rw [Host.testAdd]
  split
  · split <;> exact fun he => by cases he
  split
  · exact fun he => by cases he
  split
  · exact fun he => by cases he
  split
  · exact fun he => by cases he
  split
  · exact fun he => by cases he
  split
  · exact fun he => by cases he
  split
  · exact fun he => by cases he
  split
  case h_1 hb => exact fun he => hbr (hb.trans (congrArg _ (Except.error.inj he)))
  case h_2 =>
    split
    · exact fun he => by cases he
    · split <;> exact fun he => by cases he

/-- `br_add` keeps the xino files in order, and needs no file that is not there. -/
theorem Host.brAdd_xino {t : BrList h} (ht : st.Is t) (hok : st.XinoOk)
    (hne : st.xino = true → 0 ≤ st.siBend) (e : AddEnv) (add : OptAdd) (remount : Bool) :
    (h.brAdd st e add remount).1 ≠ .error .oops ∧ (h.brAdd st e add remount).2.XinoOk := by
  unfold Host.brAdd
  have htest := @Host.testAdd_ne_oops h st e add remount
  cases hadd : h.testAdd st e add remount with
  | error err =>
    rw [hadd] at htest
    exact ⟨fun he => htest (congrArg _ (Except.error.inj he)), hok⟩
  | ok ignored =>
    cases ignored with
    | true => exact ⟨nofun, hok⟩
    | false =>
      dsimp only
      have hallowed := Host.allowed_of_testAdd ht.holds hadd
      obtain ⟨st₁, hg, hdo⟩ := Host.doAdd_cases ht.holds t.fits e add
      rcases hdo with ⟨err, hdo, herr⟩ | ⟨brId, br, ha, hb, hc, hid, hfresh, hkey, ⟨hnofile, -, -⟩, hdo⟩
      · rw [hdo]
        exact ⟨fun he => herr (Except.error.inj he),
          hok.carries ht.holds (ht.holds.grown hg) (ht.holds.carries_grown hg)⟩
      · obtain ⟨s, hi, hs, -, -, -, his⟩ :=
          Host.enter_is ht hallowed hg ha hb hc hid hfresh hkey e.iIno
        have hl₁ := (ht.holds.grown hg).setLastBrId brId
        have hx₁ : st₁.xino = st.xino := by rw [hg.eq]
        have hbend₁ : st₁.siBend = st.siBend := by rw [hg.eq]
        have hbend := ht.holds.siBend
        have hok₁ : ({ st₁ with siLastBrId := brId } : Sbinfo).XinoOk :=
          have hgrown := hok.carries ht.holds (ht.holds.grown hg) (ht.holds.carries_grown hg)
          ⟨hgrown.fitted, hgrown.files⟩
        obtain ⟨hfit, hno, hrest⟩ := hok₁.enter hl₁ hi ha hnofile add.nd.dentry e.iIno
        have hnat := Int.toNat_of_nonneg hallowed.nonneg
        have hadd₁ := Host.addXino_spec (i := add.bindex.toNat) his
        simp only [hnat] at hfit hno hrest hadd₁
        rw [hdo]
        refine hadd₁ ⟨hallowed.nonneg, ?_⟩ hfit hno (fun hx => ⟨?_, hrest hx⟩) e.xino
        · show add.bindex ≤ st₁.siBend + 1
          have := hallowed.le
          omega
        · show 0 < st₁.siBend + 1
          have := hne (hx₁ ▸ hx)
          omega

theorem Host.carries_lowerMaxbytes (maxb : Nat) : st.Carries (h.lowerMaxbytes st maxb) := by
  rw [Host.lowerMaxbytes]
  split
  · exact ⟨rfl, fun b hb => ⟨b, hb, fun br hbr => ⟨br, hbr, rfl, rfl, rfl⟩⟩⟩
  · exact .refl st

/-- Deleting a branch leaves the others their files. -/
theorem Host.carries_brDel {t : BrList h} (ht : st.Is t) (e : DelEnv) (hRoot : HiddenDentry)
    (remount : Bool) : st.Carries (h.brDel st e hRoot remount).2 := by
  rcases ht.holds.findDbindex_cases hRoot with ⟨i, s, hfind, hs, -⟩ | ⟨hfind, -⟩
  · have hlt : i < t.slots.length := (List.getElem?_eq_some_iff.mp hs).1
    obtain ⟨br, hbr, -⟩ := ht.holds.stobr hs
    simp only [Host.brDel, hfind, if_neg (show ¬(i : Int) < 0 by omega), hbr]
    split
    · exact .refl st
    have hput : st.SameTable (if (br.brWh || br.brPlink) = true then st.setBranch i .putWh else st) ∧
        st.Carries (if (br.brWh || br.brPlink) = true then st.setBranch i .putWh else st) := by
      split
      · exact ⟨Sbinfo.sameTable_setBranch _ fun _ => rfl,
          Sbinfo.carries_setBranch (by omega) fun _ _ => ⟨rfl, rfl, rfl⟩⟩
      · exact ⟨.refl st, .refl st⟩
    generalize (if (br.brWh || br.brPlink) = true then st.setBranch i .putWh else st) = st₁ at *
    split
    · split
      · exact hput.2.trans
          (Sbinfo.carries_setBranch (by omega) fun br _ => initBrWh_sameXino _ _ _ br)
      · exact hput.2
    · have hremove := (ht.holds.sameTable hput.1).carries_remove hlt
      exact (hput.2.trans hremove).trans (Host.carries_lowerMaxbytes _)
  · simp only [Host.brDel, hfind, if_pos (show (-1 : Int) < 0 by decide)]
    exact .refl st

/-- So does changing one. -/
theorem Host.carries_brMod {t : BrList h} (ht : st.Is t) (e : ModEnv) (hRoot : HiddenDentry)
    (perm : BrPerm) (remount : Bool) : st.Carries (brMod st e hRoot perm remount).2 := by
  rcases ht.holds.findDbindex_cases hRoot with ⟨i, s, hfind, hs, -⟩ | ⟨hfind, -⟩
  · obtain ⟨br, hbr, -⟩ := ht.holds.stobr hs
    simp only [brMod, hfind, if_neg (show ¬(i : Int) < 0 by omega), hbr]
    split
    · exact .refl st
    split
    · exact .refl st
    have hinit : br.SameXino (if brWritable br.brPerm then initBrWh e.wh st.plink .RO br
        else (.ok (), br)).2 := by
      split
      · exact initBrWh_sameXino _ _ _ br
      · exact ⟨rfl, rfl, rfl⟩
    generalize (if brWritable br.brPerm then initBrWh e.wh st.plink .RO br
      else (.ok (), br)) = r at *
    have hset : ∀ br', br.SameXino br' → st.Carries (st.setBranch i fun _ => br') := by
      intro br' hs'
      refine Sbinfo.carries_setBranch (by omega) fun br'' hbr'' => ?_
      obtain rfl := Option.some.inj (hbr.symm.trans hbr'')
      exact hs'
    obtain ⟨r, br'⟩ := r
    cases r with
    | error err => exact hset _ hinit
    | ok u => exact hset _ ⟨hinit.brXino, hinit.brXinoRead, hinit.brXinoWrite⟩
  · simp only [brMod, hfind, if_pos (show (-1 : Int) < 0 by decide)]
    exact .refl st

theorem verifyLoop_spec (e : Int → InitWhEnv) {bs : List Int} {st : Sbinfo}
    (hbs : ∀ b ∈ bs, 0 ≤ b) :
    st.SameTable (verifyLoop e bs st).2 ∧ st.Carries (verifyLoop e bs st).2 := by
  induction bs generalizing st with
  | nil => exact ⟨.refl st, .refl st⟩
  | cons b bs ih =>
    obtain ⟨hb, hbs⟩ := List.forall_mem_cons.mp hbs
    rw [verifyLoop]
    split
    · exact ⟨.refl st, .refl st⟩
    rename_i br hbr
    split
    · exact ih hbs
    dsimp only
    have hkey := key_initWh (e b) st.plink br
    have hsame := initWh_sameXino (e b) st.plink br
    generalize initWh (e b) st.plink br = r at *
    obtain ⟨r, br'⟩ := r
    have htable : st.SameTable (st.setBranch b fun _ => br') := by
      obtain ⟨i, rfl⟩ := Int.eq_ofNat_of_zero_le hb
      exact Sbinfo.sameTable_setBranch_of hbr hkey
    have hxino : st.Carries (st.setBranch b fun _ => br') := by
      refine Sbinfo.carries_setBranch hb fun br'' hbr'' => ?_
      obtain rfl := Option.some.inj (hbr.symm.trans hbr'')
      exact hsame
    cases r with
    | error err => exact ⟨htable, hxino⟩
    | ok u =>
      obtain ⟨htable', hxino'⟩ := @ih (st.setBranch b fun _ => br') hbs
      exact ⟨htable.trans htable', hxino.trans hxino'⟩

theorem verifyOpts_spec (e : Int → InitWhEnv) :
    st.SameTable (verifyOpts e st).2 ∧ st.Carries (verifyOpts e st).2 :=
  verifyLoop_spec e fun _ hb => (mem_bindexes.mp hb).1

end

-- ---------------------------------------------------------------------------
-- Mounts
-- ---------------------------------------------------------------------------

/-- The files that an option makes to take over a table can be used. -/
def AuOpt.Usable : AuOpt → Prop
  | .xino e _ => e.Usable
  | _ => True

section

variable {h : Host} {st : Sbinfo}

/-- A branch option keeps table and files in order. Without the flag it works on a mount
without branches, too. -/
theorem Host.doOptBr_spec {t : BrList h} (ht : st.Is t) (hok : st.XinoOk)
    (hne : st.xino = true → 0 ≤ st.siBend) (remount : Bool) (o : AuOpt) :
    (∃ t' : BrList h, (h.doOptBr st remount o).2.Is t') ∧ (h.doOptBr st remount o).2.XinoOk := by
  have hadd := fun e add => Host.brAdd_xino ht hok hne e add remount
  have htable := fun c => Host.call_spec ht c
  cases o with
  | append e perm nd =>
    obtain ⟨t', ht', -⟩ := htable (.add e ⟨st.siBend + 1, perm, nd⟩ remount)
    exact ⟨⟨t', ht'⟩, (hadd e _).2⟩
  | prepend e perm nd =>
    obtain ⟨t', ht', -⟩ := htable (.add e ⟨0, perm, nd⟩ remount)
    exact ⟨⟨t', ht'⟩, (hadd e _).2⟩
  | add e add =>
    obtain ⟨t', ht', -⟩ := htable (.add e add remount)
    exact ⟨⟨t', ht'⟩, (hadd e _).2⟩
  | del e hRoot =>
    obtain ⟨t', ht', -⟩ := htable (.del e hRoot remount)
    exact ⟨⟨t', ht'⟩, hok.carries ht.holds ht'.holds (Host.carries_brDel ht e hRoot remount)⟩
  | mod e hRoot perm =>
    obtain ⟨t', ht', -⟩ := htable (.mod e hRoot perm remount)
    exact ⟨⟨t', ht'⟩, hok.carries ht.holds ht'.holds (Host.carries_brMod ht e hRoot perm remount)⟩
  | _ => exact ⟨⟨t, ht⟩, hok⟩

/-- Is the place given to a remount the one that the first branch has? Then `xino_set` only
sets the flag. -/
def Sbinfo.AtPlace (st : Sbinfo) (place : XinoPlace) : Bool := (st.brXino 0).any (·.place = place)

/-- `xino_set` keeps the files in order, unless it sets the flag while files are missing. -/
theorem Host.xinoSet_spec {e : XinoSetEnv} (he : e.Usable) {place : XinoPlace} {remount : Bool}
    {l : List Slot} (hl : st.Holds l) (hf : st.Fitted)
    (hplace : remount = true → st.AtPlace place = true → st.AllFiles) :
    st.SameTable (h.xinoSet e place st remount).2 ∧
      ((h.xinoSet e place st remount).1 ≠ .error .oops → (h.xinoSet e place st remount).2.XinoOk) := by
  rw [Host.xinoSet]
  cases hbr : st.stobr 0 with
  | none => exact ⟨.refl st, fun hne => absurd rfl hne⟩
  | some br =>
    dsimp only
    split
    case isTrue hat =>
      rw [Bool.and_eq_true] at hat
      have hall := hplace hat.1 (by rw [Sbinfo.AtPlace, Sbinfo.brXino, hbr]; exact hat.2)
      exact ⟨Sbinfo.sameTable_xino true, fun _ => ⟨hf, fun _ => hall⟩⟩
    case isFalse => exact Host.xinoMove_spec he place hl hf

theorem Host.doOptXino_spec {o : AuOpt} (ho : o.Usable) {remount : Bool} {l : List Slot}
    (hl : st.Holds l) (hok : st.XinoOk)
    (hplace : ∀ e place, o = .xino e place → remount = true → st.AtPlace place = true →
      st.AllFiles) :
    st.SameTable (h.doOptXino st remount o).2 ∧
      ((h.doOptXino st remount o).1 ≠ .error .oops → (h.doOptXino st remount o).2.XinoOk) := by
  cases o with
  | xino e place =>
    obtain ⟨htable, hxino⟩ := Host.xinoSet_spec (h := h) ho hl hok.fitted (hplace e place rfl)
    refine ⟨htable, fun hne => hxino fun he => hne ?_⟩
    simp only [Host.doOptXino, he, Except.map]
  | noxino => exact ⟨Sbinfo.sameTable_xinoClr, fun _ => Sbinfo.xinoOk_xinoClr hok.fitted⟩
  | _ => exact ⟨.refl st, fun _ => hok⟩

/-- No branch has an xino file. -/
def Sbinfo.NoFiles (st : Sbinfo) : Prop :=
  ∀ b br, st.InTable b → st.stobr b = some br → br.brXino = none

theorem Sbinfo.NoFiles.fitted (hno : st.NoFiles) : st.Fitted := by
  intro b br hb hbr hsome
  rw [hno b br hb hbr] at hsome
  cases hsome

theorem Sbinfo.noFiles_xinoClr (hno : st.NoFiles) : st.xinoClr.NoFiles := by
  have hfold : ∀ {bs : List Int}, (∀ b ∈ bs, 0 ≤ b) → ∀ {st : Sbinfo}, st.NoFiles →
      (bs.foldl (fun st bindex => st.setBranch bindex .putXino) st).NoFiles := by
    intro bs hbs
    induction bs with
    | nil => exact fun hno => hno
    | cons b bs ih =>
      obtain ⟨hb, hbs⟩ := List.forall_mem_cons.mp hbs
      refine fun hno => ih hbs fun c br hc hbr => ?_
      rw [Sbinfo.stobr_setBranch hb] at hbr
      split at hbr
      case isTrue =>
        obtain ⟨br', -, rfl⟩ := Option.map_eq_some_iff.mp hbr
        rfl
      case isFalse => exact hno c br hc hbr
  exact hfold (fun _ hb => (mem_bindexes.mp hb).1) hno

/-- While the flag is off, nobody gets a file. -/
theorem Host.brAdd_noFiles {t : BrList h} (ht : st.Is t) (hno : st.NoFiles) (hx : st.xino = false)
    (e : AddEnv) (add : OptAdd) (remount : Bool) :
    (h.brAdd st e add remount).2.NoFiles ∧ (h.brAdd st e add remount).2.xino = false := by
  unfold Host.brAdd
  cases hadd : h.testAdd st e add remount with
  | error err => exact ⟨hno, hx⟩
  | ok ignored =>
    cases ignored with
    | true => exact ⟨hno, hx⟩
    | false =>
      dsimp only
      have hallowed := Host.allowed_of_testAdd ht.holds hadd
      obtain ⟨st₁, hg, hdo⟩ := Host.doAdd_cases ht.holds t.fits e add
      have hcarries := ht.holds.carries_grown hg
      have hno₁ : st₁.NoFiles := hcarries.forall ht.holds
        (fun _ _ hs hnone => hs.brXino.trans hnone) hno
      have hx₁ : st₁.xino = false := hcarries.xino.trans hx
      rcases hdo with ⟨err, hdo, -⟩ | ⟨brId, br, ha, hb, hc, -, -, -, ⟨hnofile, -, -⟩, hdo⟩
      · rw [hdo]
        exact ⟨hno₁, hx₁⟩
      · have hl₁ := (ht.holds.grown hg).setLastBrId brId
        have hi : add.bindex.toNat ≤ t.slots.length := by
          have := hallowed.le
          omega
        have hnat := Int.toNat_of_nonneg hallowed.nonneg
        have hold := fun b => hl₁.stobr_enter_of_ne hi ha br add.nd.dentry e.iIno (b := b)
        have hnew := hl₁.stobr_enter_self hi ha br add.nd.dentry e.iIno
        simp only [hnat] at hold hnew
        rw [hdo, Host.addXino, if_neg (by exact fun he => by cases hx₁.symm.trans he)]
        refine ⟨fun b br' hb hbr' => ?_, hx₁⟩
        by_cases hbi : b = add.bindex
        · subst hbi
          obtain rfl := Option.some.inj (hnew.symm.trans hbr')
          exact hnofile
        · obtain ⟨c, hc, he⟩ := hold b hb hbi
          exact hno₁ c br' hc (he.symm.trans hbr')

theorem Host.doOptBr_noFiles {t : BrList h} (ht : st.Is t) (hno : st.NoFiles)
    (hx : st.xino = false) (remount : Bool) (o : AuOpt) :
    (h.doOptBr st remount o).2.NoFiles ∧ (h.doOptBr st remount o).2.xino = false := by
  have hadd := fun e add => Host.brAdd_noFiles ht hno hx e add remount
  have hcarries : ∀ {st' : Sbinfo}, st.Carries st' → st'.NoFiles ∧ st'.xino = false := fun hc =>
    ⟨hc.forall ht.holds (fun _ _ hs hnone => hs.brXino.trans hnone) hno, hc.xino.trans hx⟩
  cases o with
  | append e perm nd => exact hadd e _
  | prepend e perm nd => exact hadd e _
  | add e add => exact hadd e add
  | del e hRoot => exact hcarries (Host.carries_brDel ht e hRoot remount)
  | mod e hRoot perm => exact hcarries (Host.carries_brMod ht e hRoot perm remount)
  | _ => exact ⟨hno, hx⟩

theorem Host.mountBrs_spec {opts : List AuOpt} {st : Sbinfo} {t : BrList h} (ht : st.Is t)
    (hno : st.NoFiles) (hx : st.xino = false) :
    (∃ t' : BrList h, (h.mountBrs opts st).2.Is t') ∧ (h.mountBrs opts st).2.NoFiles ∧
      (h.mountBrs opts st).2.xino = false := by
  induction opts generalizing st t with
  | nil => exact ⟨⟨t, ht⟩, hno, hx⟩
  | cons o opts ih =>
    rw [Host.mountBrs]
    obtain ⟨⟨t', ht'⟩, -⟩ := Host.doOptBr_spec ht ⟨hno.fitted, fun he => by cases hx.symm.trans he⟩
      (fun he => by cases hx.symm.trans he) false o
    obtain ⟨hno', hx'⟩ := Host.doOptBr_noFiles ht hno hx false o
    generalize h.doOptBr st false o = r at *
    obtain ⟨r, st₁⟩ := r
    split
    case h_1 heq =>
      obtain ⟨-, rfl⟩ := Prod.mk.injEq .. ▸ heq
      exact ⟨⟨t', ht'⟩, hno', hx'⟩
    case h_2 heq =>
      obtain ⟨-, rfl⟩ := Prod.mk.injEq .. ▸ heq
      exact ih ht' hno' hx'

/-- The xino options of a mount: the files are in order as soon as one option named a place,
and none are there before. -/
theorem Host.mountXinos_spec {opts : List AuOpt} (hopts : ∀ o ∈ opts, o.Usable) {l : List Slot}
    {optXino : Bool} {st : Sbinfo} (hl : st.Holds l) (hset : optXino = true → st.XinoOk)
    (hunset : optXino = false → st.NoFiles) {optXino' : Bool} {st' : Sbinfo}
    (hok : h.mountXinos opts optXino st = (.ok optXino', st')) :
    st.SameTable st' ∧ (optXino' = true → st'.XinoOk) ∧ (optXino' = false → st'.NoFiles) := by
  have hfit : ∀ {b : Bool} {st : Sbinfo}, (b = true → st.XinoOk) → (b = false → st.NoFiles) →
      st.Fitted := by
    intro b st hs hu
    cases b with
    | true => exact (hs rfl).fitted
    | false => exact (hu rfl).fitted
  induction opts generalizing optXino st with
  | nil =>
    obtain ⟨hr, rfl⟩ := Prod.mk.injEq .. ▸ hok
    obtain rfl := Except.ok.inj hr
    exact ⟨.refl st, hset, hunset⟩
  | cons o opts ih =>
    obtain ⟨ho, htail⟩ := List.forall_mem_cons.mp hopts
    rw [Host.mountXinos] at hok
    cases o with
    | xino e place =>
      obtain ⟨htable, hxino⟩ := @Host.xinoSet_spec h st e ho place false _ hl
        (hfit hset hunset) nofun
      rw [Host.doOptXino] at hok
      generalize h.xinoSet e place st false = r at *
      obtain ⟨r, st₁⟩ := r
      cases r with
      | error err => cases hok
      | ok u =>
        have hxino := hxino nofun
        dsimp only [Except.map] at hok
        rw [Bool.or_true] at hok
        obtain ⟨htable', hrest⟩ := ih htail (hl.sameTable htable) (fun _ => hxino)
          (fun he => by cases he) hok
        exact ⟨htable.trans htable', hrest⟩
    | noxino =>
      dsimp only [Host.doOptXino] at hok
      rw [Bool.or_false] at hok
      have hclr := Sbinfo.xinoOk_xinoClr (hfit hset hunset)
      obtain ⟨htable', hrest⟩ := ih htail (hl.sameTable Sbinfo.sameTable_xinoClr)
        (fun _ => hclr) (fun he => Sbinfo.noFiles_xinoClr (hunset he)) hok
      exact ⟨Sbinfo.sameTable_xinoClr.trans htable', hrest⟩
    | _ =>
      dsimp only [Host.doOptXino] at hok
      rw [Bool.or_false] at hok
      exact ih htail hl hset hunset hok

/-- The default xino files of a mount. -/
theorem Host.defaultXinos_spec (e : Int → XinoInitEnv) (place : XinoPlace) {l : List Slot}
    {bs : List Int} {st : Sbinfo} (hl : st.Holds l) (hbs : ∀ b ∈ bs, st.InTable b)
    (hsorted : bs.Pairwise (· < ·)) (hno : ∀ b ∈ bs, st.brXino b = none) :
    st.Refits (h.defaultXinos e place bs st).2 ∧
      ((h.defaultXinos e place bs st).1 = .ok () →
        ∀ b ∈ bs, ((h.defaultXinos e place bs st).2.brXino b).isSome) := by
  induction bs generalizing st with
  | nil => exact ⟨.refl st, nofun⟩
  | cons b bs ih =>
    obtain ⟨hb, hbs⟩ := List.forall_mem_cons.mp hbs
    obtain ⟨hnob, hno⟩ := List.forall_mem_cons.mp hno
    obtain ⟨hlt, hsorted⟩ := List.pairwise_cons.mp hsorted
    rw [Host.defaultXinos]
    obtain ⟨hinit, hsome, -⟩ := Host.xinoInit_spec (h := h) hl hb hnob (e b) place (b ≠ 0)
    have hother : ∀ c ∈ bs, (h.xinoInit st (e b) b (some place) (b ≠ 0)).2.brXino c = none :=
      fun c hc => (Host.brXino_xinoInit hb.1 _ _ _ (Int.ne_of_gt (hlt c hc))).trans (hno c hc)
    generalize h.xinoInit st (e b) b (some place) (b ≠ 0) = r at *
    obtain ⟨r, st₁⟩ := r
    cases r with
    | error err => exact ⟨hinit, nofun⟩
    | ok u =>
      obtain ⟨hrefits, hall⟩ := ih (hl.sameTable hinit.table)
        (fun c hc => hinit.table.inTable.mpr (hbs c hc)) hsorted hother
      exact ⟨hinit.trans hrefits, fun hok => List.forall_mem_cons.mpr
        ⟨hrefits.keeps b (hsome rfl), hall hok⟩⟩

/-- At the end of a mount the files are in order. -/
theorem Host.enableXino_spec (e : MountEnv) {optXino : Bool} {l : List Slot} (hl : st.Holds l)
    (hset : optXino = true → st.XinoOk) (hunset : optXino = false → st.NoFiles)
    (hok : (h.enableXino e optXino st).1 = .ok ()) :
    st.SameTable (h.enableXino e optXino st).2 ∧ (h.enableXino e optXino st).2.XinoOk := by
  unfold Host.enableXino at hok ⊢
  split
  case isTrue hx =>
    rw [if_pos hx] at hok
    rw [Bool.and_eq_true, Bool.not_eq_true'] at hx
    have hno := hunset hx.2
    split at hok
    · cases hok
    rename_i place _
    have hnone : ∀ b ∈ bindexes 0 st.siBend, st.brXino b = none := by
      intro b hb
      rw [Sbinfo.brXino]
      cases hbr : st.stobr b with
      | none => rfl
      | some br => exact hno b br (mem_bindexes.mp hb) hbr
    obtain ⟨hrefits, hall⟩ := Host.defaultXinos_spec (h := h) e.init place hl
      (fun b hb => mem_bindexes.mp hb) (bindexes_sorted 0 st.siBend) hnone
    exact ⟨hrefits.table, hrefits.fitted hno.fitted, fun _ b hb =>
      hall hok b (mem_bindexes.mpr (hrefits.table.inTable.mp hb))⟩
  case isFalse hx =>
    refine ⟨.refl st, ?_⟩
    cases optXino with
    | true => exact hset rfl
    | false =>
      refine ⟨(hunset rfl).fitted, fun he => absurd ?_ hx⟩
      rw [he]
      rfl

/-- A mount that succeeds leaves a sound state. -/
theorem Host.doOptsMount_sound {opts : List AuOpt} (hopts : ∀ o ∈ opts, o.Usable) (e : MountEnv)
    (xino plink : Bool) {st : Sbinfo}
    (hok : h.doOptsMount e opts (.init xino plink) = (.ok (), st)) : h.Sound st := by
  have hsimple : ∀ (opts : List AuOpt) (plink : Bool), ∃ plink',
      opts.foldl (fun st o => (doOptSimple st o).2) (.init xino plink) = .init xino plink' := by
    intro opts
    induction opts with
    | nil => exact fun plink => ⟨plink, rfl⟩
    | cons o opts ih =>
      intro plink
      cases o with
      | plink on => exact ih on
      | _ => exact ih plink
  obtain ⟨plink', hfold⟩ := hsimple opts plink
  rw [Host.doOptsMount, hfold] at hok
  have hinit : ({ Sbinfo.init xino plink' with xino := false } : Sbinfo).Is (BrList.empty h) :=
    Sbinfo.is_init h false plink'
  have hnone : ({ Sbinfo.init xino plink' with xino := false } : Sbinfo).NoFiles := by
    rintro b br ⟨h0, hle⟩ -
    have hle : b ≤ -1 := hle
    omega
  obtain ⟨⟨t, ht⟩, hno, -⟩ := @Host.mountBrs_spec h opts _ _ hinit hnone rfl
  generalize h.mountBrs opts { Sbinfo.init xino plink' with xino := false } = r at *
  obtain ⟨r, st₁⟩ := r
  cases r with
  | error err => cases hok
  | ok u =>
    dsimp only at hok
    split at hok
    · cases hok
    rename_i hbend
    have ht₁ := ht.sameTable (Sbinfo.sameTable_xino (Sbinfo.init xino plink').xino)
    cases hx : h.mountXinos opts false { st₁ with xino := (Sbinfo.init xino plink').xino } with
    | mk r st₂ =>
      rw [hx] at hok
      cases r with
      | error err => cases hok
      | ok optXino =>
        obtain ⟨htable₂, hset, hunset⟩ := Host.mountXinos_spec hopts ht₁.holds
          (fun he => by cases he) (fun _ => hno) hx
        dsimp only at hok
        obtain ⟨htable₃, hcarries⟩ := @verifyOpts_spec st₂ e.verify
        have hl₂ := ht₁.holds.sameTable htable₂
        generalize verifyOpts e.verify st₂ = q at *
        obtain ⟨q, st₃⟩ := q
        cases q with
        | error err => cases hok
        | ok u =>
          have hl₃ := hl₂.sameTable htable₃
          have hset₃ : optXino = true → st₃.XinoOk := fun he => (hset he).carries hl₂ hl₃ hcarries
          have hunset₃ : optXino = false → st₃.NoFiles := fun he =>
            hcarries.forall hl₂ (fun _ _ hs hn => hs.brXino.trans hn) (hunset he)
          have hfst : (h.enableXino e optXino st₃).1 = .ok () := congrArg Prod.fst hok
          obtain ⟨htable, hxino⟩ := Host.enableXino_spec (h := h) e hl₃ hset₃ hunset₃ hfst
          have hsnd : (h.enableXino e optXino st₃).2 = st := congrArg Prod.snd hok
          rw [hsnd] at htable hxino
          have hall := ((Sbinfo.sameTable_xino (Sbinfo.init xino plink').xino).trans
            htable₂).trans (htable₃.trans htable)
          refine ⟨⟨t, ht.sameTable hall⟩, ?_, hxino⟩
          rw [hall.siBend]
          exact Int.not_lt.mp hbend

end

end Aufs
