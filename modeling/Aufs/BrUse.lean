-- SUMMARY: Use counts and whiteout bases of the branches over mounts and remounts (branch.c, opts.c).
import Aufs.WhBase

/-!
# Branches in use

A branch with references is not deleted, and no option touches a use count. So whoever holds
a branch finds it again after any remount. Only a `rw` branch ever has a whiteout base.
-/

namespace Aufs

namespace Sbinfo

/-- Some branch of the table has this id and this use count. -/
def Counted (st : Sbinfo) (id n : Int) : Prop :=
  ∃ b br, st.InTable b ∧ st.stobr b = some br ∧ br.brId = id ∧ br.brCount = n

/-- Only `rw` branches have a whiteout base. -/
def WhOnly (st : Sbinfo) : Prop :=
  ∀ b br, st.InTable b → st.stobr b = some br → br.brWh = true → br.brPerm = .RW

/-- The branches in use are the same, with the same counts. -/
structure KeepsUse (st st' : Sbinfo) : Prop where
  counted : ∀ id n, n ≠ 0 → (st'.Counted id n ↔ st.Counted id n)
  whOnly : st.WhOnly → st'.WhOnly

end Sbinfo

/-- The same id and use count, and a whiteout base only where one may be. -/
structure AufsBranch.SameUse (br br' : AufsBranch) : Prop where
  brId : br'.brId = br.brId
  brCount : br'.brCount = br.brCount
  brWh : (br.brWh = true → br.brPerm = .RW) → br'.brWh = true → br'.brPerm = .RW

theorem AufsBranch.SameUse.refl (br : AufsBranch) : br.SameUse br := ⟨rfl, rfl, fun h => h⟩

theorem AufsBranch.sameUse_of_rest {br br' : AufsBranch} (h : br'.rest = br.rest) : br.SameUse br' := by
  obtain ⟨hid, hperm, hcount, hwh, -⟩ := AufsBranch.of_rest h
  exact ⟨hid, hcount, fun hbase hwh' => hperm.trans (hbase (hwh.symm.trans hwh'))⟩

theorem initWh_sameUse (e : InitWhEnv) (plink : Bool) (br : AufsBranch) :
    br.SameUse (initWh e plink br).2 := by
  obtain ⟨wh, pl, heq, hwh⟩ := initWh_eq e plink br
  rw [heq]
  exact ⟨rfl, rfl, fun hbase hnew => (hwh hnew).elim hbase fun hperm => hperm⟩

/-- `init_br_wh` with the permission that the branch has, or for a read-only one. -/
theorem initBrWh_sameUse (e : InitWhEnv) (plink : Bool) {newPerm : BrPerm} {br : AufsBranch}
    (hperm : newPerm = br.brPerm ∨ newPerm = .RO) : br.SameUse (initBrWh e plink newPerm br).2 := by
  obtain ⟨wh, pl, heq, hwh⟩ := initBrWh_eq e plink newPerm br
  rw [heq]
  refine ⟨rfl, rfl, fun hbase hnew => ?_⟩
  rcases hwh hnew with hold | hrw
  · exact hbase hold
  · rcases hperm with rfl | rfl
    · exact hrw
    · cases hrw

/-- `init_br_wh` for a read-only branch that succeeds takes the whiteout base away. -/
theorem initBrWh_ro (e : InitWhEnv) (plink : Bool) (br : AufsBranch) :
    (initBrWh e plink .RO br).2.brId = br.brId ∧ (initBrWh e plink .RO br).2.brCount = br.brCount ∧
      ((initBrWh e plink .RO br).1 = .ok () → (initBrWh e plink .RO br).2.brWh = false) := by
  obtain ⟨lookup, linkable, create, plinkDir⟩ := e
  cases lookup with
  | some err => exact ⟨rfl, rfl, fun hok => by cases hok⟩
  | none => exact ⟨rfl, rfl, fun _ => rfl⟩

namespace Sbinfo

variable {st st' st'' : Sbinfo}

theorem KeepsUse.refl (st : Sbinfo) : st.KeepsUse st := ⟨fun _ _ _ => Iff.rfl, fun h => h⟩

theorem KeepsUse.trans (h : st.KeepsUse st') (h' : st'.KeepsUse st'') : st.KeepsUse st'' :=
  ⟨fun id n hn => (h'.counted id n hn).trans (h.counted id n hn), fun hwh => h'.whOnly (h.whOnly hwh)⟩

/-- The same branches in use at the same indices. -/
theorem KeepsUse.of_stobr (hend : st'.siBend = st.siBend)
    (hto : ∀ b br, st.InTable b → st.stobr b = some br → ∃ br', st'.stobr b = some br' ∧ br.SameUse br')
    (hof : ∀ b br', st.InTable b → st'.stobr b = some br' → ∃ br, st.stobr b = some br ∧ br.SameUse br') :
    st.KeepsUse st' := by
  have htable : ∀ b, st'.InTable b ↔ st.InTable b := by
    intro b
    rw [InTable, InTable, hend]
  refine ⟨fun id n _ => ⟨?_, ?_⟩, fun hwh b br' hb hbr' hnew => ?_⟩
  · rintro ⟨b, br', hb, hbr', hid, hcount⟩
    obtain ⟨br, hbr, hsame⟩ := hof b br' ((htable b).mp hb) hbr'
    exact ⟨b, br, (htable b).mp hb, hbr, hsame.brId.symm.trans hid, hsame.brCount.symm.trans hcount⟩
  · rintro ⟨b, br, hb, hbr, hid, hcount⟩
    obtain ⟨br', hbr', hsame⟩ := hto b br hb hbr
    exact ⟨b, br', (htable b).mpr hb, hbr', hsame.brId.trans hid, hsame.brCount.trans hcount⟩
  · obtain ⟨br, hbr, hsame⟩ := hof b br' ((htable b).mp hb) hbr'
    exact hsame.brWh (hwh b br ((htable b).mp hb) hbr) hnew

theorem KeepsUse.of_eq (hbranch : st'.siBranch = st.siBranch) (hend : st'.siBend = st.siBend) :
    st.KeepsUse st' := by
  have hstobr : ∀ b, st'.stobr b = st.stobr b := by
    intro b
    rw [stobr, stobr, hbranch]
  exact .of_stobr hend (fun b br _ hbr => ⟨br, (hstobr b).trans hbr, .refl br⟩)
    (fun b br _ hbr => ⟨br, (hstobr b).symm.trans hbr, .refl br⟩)

theorem SameRest.keepsUse (h : st.SameRest st') : st.KeepsUse st' := by
  refine .of_stobr h.siBend (fun b br _ hbr => ?_) (fun b br' _ hbr' => ?_)
  · obtain ⟨br', hbr', heq⟩ := h.stobr_to hbr
    exact ⟨br', hbr', AufsBranch.sameUse_of_rest heq⟩
  · obtain ⟨br, hbr, heq⟩ := h.stobr_of hbr'
    exact ⟨br, hbr, AufsBranch.sameUse_of_rest heq⟩

theorem keepsUse_setBranch {b : Int} (hb : 0 ≤ b) {f : AufsBranch → AufsBranch}
    (hf : ∀ br, st.stobr b = some br → br.SameUse (f br)) : st.KeepsUse (st.setBranch b f) := by
  refine .of_stobr rfl (fun c br _ hbr => ?_) (fun c br' _ hbr' => ?_)
  · rw [stobr_setBranch hb]
    split
    case isTrue he =>
      subst he
      exact ⟨f br, by rw [hbr, Option.map_some], hf br hbr⟩
    case isFalse => exact ⟨br, hbr, .refl br⟩
  · rw [stobr_setBranch hb] at hbr'
    split at hbr'
    case isTrue he =>
      subst he
      obtain ⟨br, hbr, rfl⟩ := Option.map_eq_some_iff.mp hbr'
      exact ⟨br, hbr, hf br hbr⟩
    case isFalse => exact ⟨br', hbr', .refl br'⟩

theorem Holds.keepsUse_grown {l : List Slot} (hl : st.Holds l) (hg : st.Grown l.length st') :
    st.KeepsUse st' := by
  have hend := hl.siBend
  have hstobr : ∀ b, st.InTable b → st'.stobr b = st.stobr b := by
    rintro b ⟨-, hle⟩
    exact hg.stobr (by omega)
  exact .of_stobr (by rw [hg.eq]) (fun b br hb hbr => ⟨br, (hstobr b hb).trans hbr, .refl br⟩)
    (fun b br hb hbr => ⟨br, (hstobr b hb).symm.trans hbr, .refl br⟩)

/-- A new branch is not in use. -/
theorem Holds.keepsUse_enter {l : List Slot} (hl : st.Holds l) {i : Nat} (hi : i ≤ l.length)
    (ha : l.length < st.siBranch.length) {br : AufsBranch} (hcount : br.brCount = 0)
    (hwh : br.brWh = true → br.brPerm = .RW) (dentry : HiddenDentry) (iIno : Nat) :
    st.KeepsUse (st.enter i br dentry iIno) := by
  have hend := hl.siBend
  have hold := fun b => hl.stobr_enter_of_ne hi ha br dentry iIno (b := b)
  have hnew := hl.stobr_enter_self hi ha br dentry iIno
  refine ⟨fun id n hn => ⟨?_, ?_⟩, fun hst b br' hb hbr' hbase => ?_⟩
  · rintro ⟨b, br', hb, hbr', hid, hc⟩
    by_cases hbi : b = i
    · subst hbi
      obtain rfl := Option.some.inj (hnew.symm.trans hbr')
      exact absurd (hc.symm.trans hcount) hn
    · obtain ⟨c, hcb, heq⟩ := hold b hb hbi
      exact ⟨c, br', hcb, heq.symm.trans hbr', hid, hc⟩
  · rintro ⟨c, br', ⟨h0, hle⟩, hbr', hid, hc⟩
    -- a branch from the new index on has moved up
    by_cases hlt : c < i
    · refine ⟨c, br', ⟨h0, ?_⟩, ?_, hid, hc⟩
      · show c ≤ st.siBend + 1
        omega
      · rw [hl.stobr_enter hi ha br dentry iIno (show c ≤ l.length by omega), if_pos hlt]
        exact hbr'
    · refine ⟨c + 1, br', ⟨by omega, ?_⟩, ?_, hid, hc⟩
      · show c + 1 ≤ st.siBend + 1
        omega
      · rw [hl.stobr_enter hi ha br dentry iIno (show c + 1 ≤ l.length by omega), if_neg (by omega),
          if_neg (by omega), Int.add_sub_cancel]
        exact hbr'
  · by_cases hbi : b = i
    · subst hbi
      obtain rfl := Option.some.inj (hnew.symm.trans hbr')
      exact hwh hbase
    · obtain ⟨c, hcb, heq⟩ := hold b hb hbi
      exact hst c br' hcb (heq.symm.trans hbr') hbase

/-- A branch that is taken out was not in use. -/
theorem Holds.keepsUse_remove {l : List Slot} (hl : st.Holds l) {i : Nat} (hi : i < l.length)
    (hcount : ∀ br, st.stobr i = some br → br.brCount = 0) : st.KeepsUse (st.remove i) := by
  have hend := hl.siBend
  have hold : ∀ b br, (st.remove i).InTable b → (st.remove i).stobr b = some br →
      ∃ c, st.InTable c ∧ st.stobr c = some br := by
    rintro b br ⟨h0, hle⟩ hbr
    have hle : b ≤ st.siBend - 1 := hle
    rw [hl.stobr_remove hi (show b < l.length - 1 by omega)] at hbr
    split at hbr
    · exact ⟨b, ⟨h0, by omega⟩, hbr⟩
    · exact ⟨b + 1, ⟨by omega, by omega⟩, hbr⟩
  refine ⟨fun id n hn => ⟨?_, ?_⟩, fun hst b br hb hbr hbase => ?_⟩
  · rintro ⟨b, br, hb, hbr, hid, hc⟩
    obtain ⟨c, hcb, hbr⟩ := hold b br hb hbr
    exact ⟨c, br, hcb, hbr, hid, hc⟩
  · rintro ⟨c, br, ⟨h0, hle⟩, hbr, hid, hc⟩
    have hne : c ≠ i := by
      rintro rfl
      exact hn (hc.symm.trans (hcount br hbr))
    by_cases hlt : c < i
    · refine ⟨c, br, ⟨h0, ?_⟩, ?_, hid, hc⟩
      · show c ≤ st.siBend - 1
        omega
      · rw [hl.stobr_remove hi (show c < l.length - 1 by omega), if_pos hlt]
        exact hbr
    · refine ⟨c - 1, br, ⟨by omega, ?_⟩, ?_, hid, hc⟩
      · show c - 1 ≤ st.siBend - 1
        omega
      · rw [hl.stobr_remove hi (show c - 1 < l.length - 1 by omega), if_neg (by omega),
          Int.sub_add_cancel]
        exact hbr
  · obtain ⟨c, hcb, hbr⟩ := hold b br hb hbr
    exact hst c br hcb hbr hbase

end Sbinfo

section

variable {h : Host} {st : Sbinfo} {t : BrList h}

-- ---------------------------------------------------------------------------
-- Branch operations
-- ---------------------------------------------------------------------------

theorem Host.keepsUse_brAdd (ht : st.Is t) (e : AddEnv) (add : OptAdd) (remount : Bool) :
    st.KeepsUse (h.brAdd st e add remount).2 := by
  unfold Host.brAdd
  cases hadd : h.testAdd st e add remount with
  | error err => exact .refl st
  | ok ignored =>
    cases ignored with
    | true => exact .refl st
    | false =>
      dsimp only
      have hallowed := Host.allowed_of_testAdd ht.holds hadd
      obtain ⟨st₁, hg, hdo⟩ := Host.doAdd_cases ht.holds t.fits e add
      have hgrown := ht.holds.keepsUse_grown hg
      rcases hdo with ⟨err, hdo, -⟩ | ⟨brId, br, ha, -, -, -, -, -, ⟨-, hcount, hwh⟩, hdo⟩
      · rw [hdo]
        exact hgrown
      · have hi : add.bindex.toNat ≤ t.slots.length := by
          have := hallowed.le
          omega
        have henter := ((ht.holds.grown hg).setLastBrId brId).keepsUse_enter hi ha hcount hwh
          add.nd.dentry e.iIno
        rw [Int.toNat_of_nonneg hallowed.nonneg] at henter
        rw [hdo]
        have hid : st₁.KeepsUse { st₁ with siLastBrId := brId } := .of_eq rfl rfl
        refine (hgrown.trans (hid.trans henter)).trans (.trans ?_ (Host.sameRest_addXino e.xino add.bindex).keepsUse)
        exact .of_eq rfl rfl

/-- Only a branch without users is deleted. -/
theorem Host.keepsUse_brDel (ht : st.Is t) (e : DelEnv) (hRoot : HiddenDentry) (remount : Bool) :
    st.KeepsUse (h.brDel st e hRoot remount).2 := by
  rcases ht.holds.findDbindex_cases hRoot with ⟨i, s, hfind, hs, -⟩ | ⟨hfind, -⟩
  · have hlt : i < t.slots.length := (List.getElem?_eq_some_iff.mp hs).1
    obtain ⟨br, hbr, -⟩ := ht.holds.stobr hs
    simp only [Host.brDel, hfind, if_neg (show ¬(i : Int) < 0 by omega), hbr]
    split
    · exact .refl st
    rename_i hbusy
    simp only [Bool.or_eq_true, decide_eq_true_eq, not_or] at hbusy
    have hcount : br.brCount = 0 := Decidable.not_not.mp hbusy.2
    have hput : st.SameTable (if (br.brWh || br.brPlink) = true then st.setBranch i .putWh else st) ∧
        st.KeepsUse (if (br.brWh || br.brPlink) = true then st.setBranch i .putWh else st) ∧
        ∀ br', (if (br.brWh || br.brPlink) = true then st.setBranch i .putWh else st).stobr i = some br' →
          br'.brCount = 0 := by
      split
      · refine ⟨Sbinfo.sameTable_setBranch _ fun _ => rfl, Sbinfo.keepsUse_setBranch (by omega)
          fun br _ => ⟨rfl, rfl, fun _ hwh => by cases hwh⟩, fun br' hbr' => ?_⟩
        rw [Sbinfo.stobr_setBranch (by omega), if_pos rfl, hbr] at hbr'
        obtain rfl := Option.some.inj hbr'
        exact hcount
      · refine ⟨.refl st, .refl st, fun br' hbr' => ?_⟩
        obtain rfl := Option.some.inj (hbr.symm.trans hbr')
        exact hcount
    generalize (if (br.brWh || br.brPlink) = true then st.setBranch i .putWh else st) = st₁ at *
    obtain ⟨htable, hkeeps, hcount₁⟩ := hput
    split
    · split
      · exact hkeeps.trans
          (Sbinfo.keepsUse_setBranch (by omega) fun br' _ => initBrWh_sameUse e.wh _ (.inl rfl))
      · exact hkeeps
    · refine (hkeeps.trans ((ht.holds.sameTable htable).keepsUse_remove hlt hcount₁)).trans ?_
      rw [Host.lowerMaxbytes]
      split
      · exact .of_eq rfl rfl
      · exact .refl _
  · simp only [Host.brDel, hfind, if_pos (show (-1 : Int) < 0 by decide)]
    exact .refl st

/-- A branch whose permission changes has lost its whiteout base before. -/
theorem Host.keepsUse_brMod (ht : st.Is t) (e : ModEnv) (hRoot : HiddenDentry) (perm : BrPerm)
    (remount : Bool) : st.KeepsUse (brMod st e hRoot perm remount).2 := by
  rcases ht.holds.findDbindex_cases hRoot with ⟨i, s, hfind, hs, -⟩ | ⟨hfind, -⟩
  · obtain ⟨br, hbr, -⟩ := ht.holds.stobr hs
    simp only [brMod, hfind, if_neg (show ¬(i : Int) < 0 by omega), hbr]
    split
    · exact .refl st
    split
    · exact .refl st
    have hset : ∀ br', br.SameUse br' → st.KeepsUse (st.setBranch i fun _ => br') := by
      intro br' hsame
      refine Sbinfo.keepsUse_setBranch (by omega) fun br'' hbr'' => ?_
      obtain rfl := Option.some.inj (hbr.symm.trans hbr'')
      exact hsame
    split
    case h_1 err br' hr =>
      split at hr
      · have hsame := @initBrWh_sameUse e.wh st.plink .RO br (.inr rfl)
        rw [hr] at hsame
        exact hset br' hsame
      · cases hr
    case h_2 br' hr =>
      split at hr
      case isTrue =>
        obtain ⟨hid, hcount, hbase⟩ := initBrWh_ro e.wh st.plink br
        rw [hr] at hid hcount hbase
        refine hset _ ⟨hid, hcount, fun _ hwh => ?_⟩
        cases (hbase rfl).symm.trans hwh
      case isFalse hro =>
        cases hr
        refine hset _ ⟨rfl, rfl, fun hwh hnew => ?_⟩
        rw [hwh hnew] at hro
        exact absurd rfl hro
  · simp only [brMod, hfind, if_pos (show (-1 : Int) < 0 by decide)]
    exact .refl st

-- ---------------------------------------------------------------------------
-- Options
-- ---------------------------------------------------------------------------

/-- A well-formed table. -/
def Host.Tabled (h : Host) (st : Sbinfo) : Prop := ∃ t : BrList h, st.Is t

theorem Host.Tabled.sameTable {st' : Sbinfo} (ht : h.Tabled st) (hs : st.SameTable st') : h.Tabled st' := by
  obtain ⟨t, ht⟩ := ht
  exact ⟨t, ht.sameTable hs⟩

theorem Host.doOptBr_use (ht : h.Tabled st) (remount : Bool) (o : AuOpt) :
    h.Tabled (h.doOptBr st remount o).2 ∧ st.KeepsUse (h.doOptBr st remount o).2 := by
  obtain ⟨t, ht⟩ := ht
  have htable : ∀ c, h.Tabled (h.call st c).2 := by
    intro c
    obtain ⟨t', ht', -⟩ := Host.call_spec ht c
    exact ⟨t', ht'⟩
  cases o with
  | append e perm nd =>
    exact ⟨htable (.add e ⟨st.siBend + 1, perm, nd⟩ remount), Host.keepsUse_brAdd ht e _ remount⟩
  | prepend e perm nd => exact ⟨htable (.add e ⟨0, perm, nd⟩ remount), Host.keepsUse_brAdd ht e _ remount⟩
  | add e add => exact ⟨htable (.add e add remount), Host.keepsUse_brAdd ht e add remount⟩
  | del e hRoot => exact ⟨htable (.del e hRoot remount), Host.keepsUse_brDel ht e hRoot remount⟩
  | mod e hRoot perm =>
    exact ⟨htable (.mod e hRoot perm remount), Host.keepsUse_brMod ht e hRoot perm remount⟩
  | _ => exact ⟨⟨t, ht⟩, .refl st⟩

theorem Host.doOptXino_use (ht : h.Tabled st) (remount : Bool) (o : AuOpt) :
    h.Tabled (h.doOptXino st remount o).2 ∧ st.KeepsUse (h.doOptXino st remount o).2 :=
  have hrest := @Host.sameRest_doOptXino h st remount o
  ⟨ht.sameTable hrest.sameTable, hrest.keepsUse⟩

theorem doOptSimple_use (ht : h.Tabled st) (o : AuOpt) :
    h.Tabled (doOptSimple st o).2 ∧ st.KeepsUse (doOptSimple st o).2 := by
  cases o with
  | plink on => exact ⟨ht.sameTable ⟨rfl, rfl, rfl, rfl, rfl, rfl, rfl, rfl, rfl, rfl⟩, .of_eq rfl rfl⟩
  | _ => exact ⟨ht, .refl st⟩

theorem Host.remountOpt_use (ht : h.Tabled st) (o : AuOpt) :
    h.Tabled (h.remountOpt st o).2 ∧ st.KeepsUse (h.remountOpt st o).2 := by
  rw [Host.remountOpt]
  obtain ⟨ht₁, hkeeps₁⟩ := doOptSimple_use ht o
  split
  case h_1 hs =>
    rw [hs] at ht₁ hkeeps₁
    exact ⟨ht₁, hkeeps₁⟩
  case h_2 hs =>
    rw [hs] at ht₁ hkeeps₁
    obtain ⟨ht₂, hkeeps₂⟩ := Host.doOptBr_use ht₁ true o
    split
    case h_1 hb =>
      rw [hb] at ht₂ hkeeps₂
      exact ⟨ht₂, hkeeps₁.trans hkeeps₂⟩
    case h_2 hb =>
      rw [hb] at ht₂ hkeeps₂
      obtain ⟨ht₃, hkeeps₃⟩ := Host.doOptXino_use ht₂ true o
      exact ⟨ht₃, (hkeeps₁.trans hkeeps₂).trans hkeeps₃⟩

theorem Host.remountOpts_use (ht : h.Tabled st) (opts : List AuOpt) :
    h.Tabled (h.remountOpts opts st).2 ∧ st.KeepsUse (h.remountOpts opts st).2 := by
  induction opts generalizing st with
  | nil => exact ⟨ht, .refl st⟩
  | cons o os ih =>
    rw [Host.remountOpts]
    obtain ⟨ht₁, hkeeps₁⟩ := Host.remountOpt_use ht o
    split
    case h_1 hr =>
      rw [hr] at ht₁ hkeeps₁
      exact ⟨ht₁, hkeeps₁⟩
    case h_2 hr =>
      rw [hr] at ht₁ hkeeps₁
      obtain ⟨ht₂, hkeeps₂⟩ := ih ht₁
      exact ⟨ht₂, hkeeps₁.trans hkeeps₂⟩

theorem verifyLoop_use (e : Int → InitWhEnv) {bs : List Int} (hbs : ∀ b ∈ bs, 0 ≤ b) (st : Sbinfo) :
    st.KeepsUse (verifyLoop e bs st).2 := by
  induction bs generalizing st with
  | nil => exact .refl st
  | cons b bs ih =>
    obtain ⟨hb, hbs⟩ := List.forall_mem_cons.mp hbs
    rw [verifyLoop]
    split
    · exact .refl st
    rename_i br hbr
    split
    · exact ih hbs st
    dsimp only
    have hset : st.KeepsUse (st.setBranch b fun _ => (initWh (e b) st.plink br).2) := by
      refine Sbinfo.keepsUse_setBranch hb fun br' hbr' => ?_
      obtain rfl := Option.some.inj (hbr.symm.trans hbr')
      exact initWh_sameUse (e b) st.plink br
    split
    · exact hset
    · exact hset.trans (ih hbs _)

theorem verifyOpts_use (ht : h.Tabled st) (e : Int → InitWhEnv) :
    h.Tabled (verifyOpts e st).2 ∧ st.KeepsUse (verifyOpts e st).2 :=
  ⟨ht.sameTable (verifyOpts_spec e).1, verifyLoop_use e (fun _ hb => (mem_bindexes.mp hb).1) st⟩

/-- A remount leaves the branches in use with their counts, and gives a whiteout base to no
other than `rw` branches. -/
theorem Host.doOptsRemount_use (ht : h.Tabled st) (e : Int → InitWhEnv) (opts : List AuOpt) :
    h.Tabled (h.doOptsRemount e opts st).2 ∧ st.KeepsUse (h.doOptsRemount e opts st).2 := by
  obtain ⟨ht₁, hkeeps₁⟩ := Host.remountOpts_use ht opts
  rw [Host.doOptsRemount]
  split
  case h_1 hr =>
    rw [hr] at ht₁ hkeeps₁
    exact ⟨ht₁, hkeeps₁⟩
  case h_2 hr =>
    rw [hr] at ht₁ hkeeps₁
    obtain ⟨ht₂, hkeeps₂⟩ := verifyOpts_use ht₁ e
    exact ⟨ht₂, hkeeps₁.trans hkeeps₂⟩

theorem Host.mountBrs_use (ht : h.Tabled st) (opts : List AuOpt) :
    h.Tabled (h.mountBrs opts st).2 ∧ st.KeepsUse (h.mountBrs opts st).2 := by
  induction opts generalizing st with
  | nil => exact ⟨ht, .refl st⟩
  | cons o os ih =>
    rw [Host.mountBrs]
    obtain ⟨ht₁, hkeeps₁⟩ := Host.doOptBr_use ht false o
    split
    case h_1 hr =>
      rw [hr] at ht₁ hkeeps₁
      exact ⟨ht₁, hkeeps₁⟩
    case h_2 hr =>
      rw [hr] at ht₁ hkeeps₁
      obtain ⟨ht₂, hkeeps₂⟩ := ih ht₁
      exact ⟨ht₂, hkeeps₁.trans hkeeps₂⟩

/-- So does a mount. -/
theorem Host.doOptsMount_use (ht : h.Tabled st) (e : Host.MountEnv) (opts : List AuOpt) :
    h.Tabled (h.doOptsMount e opts st).2 ∧ st.KeepsUse (h.doOptsMount e opts st).2 := by
  have hsimple : ∀ (opts : List AuOpt) (st : Sbinfo), h.Tabled st →
      h.Tabled (opts.foldl (fun st o => (doOptSimple st o).2) st) ∧
        st.KeepsUse (opts.foldl (fun st o => (doOptSimple st o).2) st) := by
    intro opts
    induction opts with
    | nil => exact fun st ht => ⟨ht, .refl st⟩
    | cons o os ih =>
      intro st ht
      obtain ⟨ht₁, hkeeps₁⟩ := doOptSimple_use ht o
      obtain ⟨ht₂, hkeeps₂⟩ := ih _ ht₁
      exact ⟨ht₂, hkeeps₁.trans hkeeps₂⟩
  have hflag : ∀ (st : Sbinfo) (xino : Bool), h.Tabled st →
      h.Tabled { st with xino := xino } ∧ st.KeepsUse { st with xino := xino } := fun st xino ht =>
    ⟨ht.sameTable (Sbinfo.sameTable_xino xino), (Sbinfo.sameRest_xino xino).keepsUse⟩
  obtain ⟨ht₀, hkeeps₀⟩ := hsimple opts st ht
  rw [Host.doOptsMount]
  generalize opts.foldl (fun st o => (doOptSimple st o).2) st = st₀ at *
  obtain ⟨ht₁, hkeeps₁⟩ := hflag st₀ false ht₀
  obtain ⟨ht₂, hkeeps₂⟩ := Host.mountBrs_use ht₁ opts
  have hkeeps := hkeeps₀.trans (hkeeps₁.trans hkeeps₂)
  split
  case h_1 hr =>
    rw [hr] at ht₂ hkeeps
    exact ⟨ht₂, hkeeps⟩
  case h_2 hr =>
    rw [hr] at ht₂ hkeeps
    split
    · exact ⟨ht₂, hkeeps⟩
    obtain ⟨ht₃, hkeeps₃⟩ := hflag _ st₀.xino ht₂
    have hxinos := fun st => Host.sameRest_mountXinos (h := h) opts false st
    have ht₄ := ht₃.sameTable (hxinos _).sameTable
    have hkeeps₄ := (hkeeps.trans hkeeps₃).trans (hxinos _).keepsUse
    split
    case h_1 hr =>
      rw [hr] at ht₄ hkeeps₄
      exact ⟨ht₄, hkeeps₄⟩
    case h_2 hr =>
      rw [hr] at ht₄ hkeeps₄
      obtain ⟨ht₅, hkeeps₅⟩ := verifyOpts_use ht₄ e.verify
      split
      case h_1 hr =>
        rw [hr] at ht₅ hkeeps₅
        exact ⟨ht₅, hkeeps₄.trans hkeeps₅⟩
      case h_2 hr =>
        rw [hr] at ht₅ hkeeps₅
        have hend := fun st optXino => @Host.sameRest_enableXino h st e optXino
        exact ⟨ht₅.sameTable (hend _ _).sameTable, (hkeeps₄.trans hkeeps₅).trans (hend _ _).keepsUse⟩

end

end Aufs
