-- SUMMARY: What br_add, br_del and br_mod do to the list of branches, and the table after any sequence of them.
import Aufs.BrOps

/-!
# Sequences of branch operations

Each call does to the list of branches what its name says or fails and leaves it alone; the
arrays keep holding the list. So every state that calls lead to has a well-formed table,
whatever fails on the way.
-/

namespace Aufs

/-- The arrays hold this list of branches, and `s_maxbytes` is its maximum. -/
structure Sbinfo.Is {h : Host} (st : Sbinfo) (t : BrList h) : Prop where
  holds : st.Holds t.slots
  maxbytes : st.sMaxbytes = t.maxbytes

theorem Sbinfo.Is.sameTable {h : Host} {st st' : Sbinfo} {t : BrList h} (ht : st.Is t)
    (hs : st.SameTable st') : st'.Is t :=
  ⟨ht.holds.sameTable hs, hs.sMaxbytes.trans ht.maxbytes⟩

-- ---------------------------------------------------------------------------
-- The largest file
-- ---------------------------------------------------------------------------

namespace BrList

variable {h : Host} {t : BrList h}

theorem maxbytes_add {i : Nat} {s : Slot} (hi : i ≤ t.slots.length) (hs : t.Admits s) :
    (t.add i s hi hs).maxbytes = max (h.sb s.dir.dSb).sMaxbytes t.maxbytes :=
  ((List.perm_insertIdx s t.slots hi).map _).foldr_eq 0

theorem maxbytes_del {i : Nat} {s : Slot} (hs : t.slots[i]? = some s) :
    t.maxbytes = max (h.sb s.dir.dSb).sMaxbytes (t.del i).maxbytes := by
  obtain ⟨hi, rfl⟩ := List.getElem?_eq_some_iff.mp hs
  exact (((List.getElem_cons_eraseIdx_perm hi).symm).map _).foldr_eq 0

theorem maxbytes_chperm (i : Nat) (perm : BrPerm) : (t.chperm i perm).maxbytes = t.maxbytes := by
  have hmap : ∀ l : List Slot, (l.modify i (Slot.chperm perm)).map (fun s => (h.sb s.dir.dSb).sMaxbytes) =
      l.map fun s => (h.sb s.dir.dSb).sMaxbytes := by
    intro l
    apply List.ext_getElem?
    intro j
    rw [List.getElem?_map, List.getElem?_map, List.getElem?_modify]
    cases l[j]? with
    | none => rfl
    | some s =>
      by_cases hij : i = j
      · simp only [Functor.map, Option.map_some, if_pos hij, Slot.chperm]
      · simp only [Functor.map, Option.map_some, if_neg hij]
  exact congrArg (List.foldr max 0) (hmap t.slots)

/-- No branch holds larger files than the maximum. -/
theorem le_maxbytes {s : Slot} (hs : s ∈ t.slots) : (h.sb s.dir.dSb).sMaxbytes ≤ t.maxbytes := by
  obtain ⟨i, hi⟩ := List.mem_iff_getElem?.mp hs
  rw [maxbytes_del hi]
  exact Nat.le_max_left _ _

/-- Some branch reaches it. -/
theorem exists_maxbytes (hne : t.slots ≠ []) :
    ∃ s ∈ t.slots, (h.sb s.dir.dSb).sMaxbytes = t.maxbytes := by
  have hfold : ∀ l : List Slot, l ≠ [] →
      ∃ s ∈ l, (h.sb s.dir.dSb).sMaxbytes = (l.map fun s => (h.sb s.dir.dSb).sMaxbytes).foldr max 0 := by
    intro l
    induction l with
    | nil => exact fun hl => absurd rfl hl
    | cons s l ih =>
      intro _
      rw [List.map_cons, List.foldr_cons]
      by_cases hl : l = []
      · subst hl
        exact ⟨s, List.mem_cons_self, (Nat.max_zero _).symm⟩
      · obtain ⟨s', hs', he⟩ := ih hl
        rcases Nat.le_total (h.sb s.dir.dSb).sMaxbytes (h.sb s'.dir.dSb).sMaxbytes with hle | hle
        · exact ⟨s', List.mem_cons_of_mem _ hs', by omega⟩
        · exact ⟨s, List.mem_cons_self, by omega⟩
  exact hfold t.slots hne

end BrList

-- ---------------------------------------------------------------------------
-- br_add
-- ---------------------------------------------------------------------------

/-- `plink_dir` sets nothing but the pseudo-link directory. -/
theorem initPlink_eq (e : InitWhEnv) (plink : Bool) (br : AufsBranch) :
    ∃ pl, (initPlink e plink br).2 = { br with brPlink := pl } := by
  rw [initPlink]
  split
  · split
    · exact ⟨br.brPlink, rfl⟩
    · exact ⟨true, rfl⟩
  · exact ⟨br.brPlink, rfl⟩

/-- `init_wh` sets nothing but the whiteout base and the pseudo-link directory, and a new base
only on a `rw` branch. -/
theorem initWh_eq (e : InitWhEnv) (plink : Bool) (br : AufsBranch) :
    ∃ wh pl, (initWh e plink br).2 = { br with brWh := wh, brPlink := pl } ∧
      (wh = true → br.brWh = true ∨ br.brPerm = .RW) := by
  obtain ⟨pl, hplink⟩ := initPlink_eq e plink { br with brWh := false, brPlink := false }
  unfold initWh
  split
  · exact ⟨br.brWh, br.brPlink, rfl, fun hwh => .inl hwh⟩
  · dsimp only
    split
    case h_5 =>
      split
      · exact ⟨false, false, rfl, fun hwh => by cases hwh⟩
      · exact ⟨false, pl, hplink, fun hwh => by cases hwh⟩
    case h_6 hperm =>
      split
      · exact ⟨false, false, rfl, fun hwh => by cases hwh⟩
      · exact ⟨false, false, rfl, fun hwh => by cases hwh⟩
      · split
        case h_1 hp =>
          rw [hp] at hplink
          exact ⟨false, pl, hplink, fun hwh => by cases hwh⟩
        case h_2 hp =>
          rw [hp] at hplink
          refine ⟨true, pl, ?_, fun _ => .inr hperm⟩
          dsimp only at hplink ⊢
          rw [hplink]
    all_goals exact ⟨false, false, rfl, fun hwh => by cases hwh⟩

/-- `init_br_wh` takes the new permission for a time only. -/
theorem initBrWh_eq (e : InitWhEnv) (plink : Bool) (newPerm : BrPerm) (br : AufsBranch) :
    ∃ wh pl, (initBrWh e plink newPerm br).2 = { br with brWh := wh, brPlink := pl } ∧
      (wh = true → br.brWh = true ∨ newPerm = .RW) := by
  obtain ⟨wh, pl, heq, hwh⟩ := initWh_eq e plink { br with brPerm := newPerm }
  refine ⟨wh, pl, ?_, hwh⟩
  show ({ (initWh e plink { br with brPerm := newPerm }).2 with brPerm := br.brPerm } : AufsBranch) = _
  rw [heq]

@[simp] theorem key_initWh (e : InitWhEnv) (plink : Bool) (br : AufsBranch) :
    (initWh e plink br).2.key = br.key := by
  obtain ⟨wh, pl, heq, -⟩ := initWh_eq e plink br
  rw [heq]
  rfl

/-- `init_br_wh` changes nothing of the branch that the table knows. -/
@[simp] theorem key_initBrWh (e : InitWhEnv) (plink : Bool) (newPerm : BrPerm) (br : AufsBranch) :
    (initBrWh e plink newPerm br).2.key = br.key := by
  obtain ⟨wh, pl, heq, -⟩ := initBrWh_eq e plink newPerm br
  rw [heq]
  rfl

section

variable {h : Host} {st : Sbinfo} {l : List Slot}

/-- `alloc_addbr` only grows arrays. Success means that all three have room. -/
theorem allocAddbr_spec (hl : st.Holds l) (e : AddbrAlloc) :
    st.Grown l.length (allocAddbr e st (l.length + 1)).2 ∧
      ((∃ err, (allocAddbr e st (l.length + 1)).1 = .error err ∧ err ≠ .oops) ∨
        (allocAddbr e st (l.length + 1)).1 = .ok () ∧
          l.length < (allocAddbr e st (l.length + 1)).2.siBranch.length ∧
          l.length < (allocAddbr e st (l.length + 1)).2.diHdentry.length ∧
          l.length < (allocAddbr e st (l.length + 1)).2.iiHinode.length) := by
  have hra := hl.branchRoom
  have hrb := hl.hdentryRoom
  have hrc := hl.hinodeRoom
  have hsz : (if l.length + 1 - 1 = 0 then 1 else l.length + 1 - 1) = max 1 l.length := by
    split <;> omega
  simp only [allocAddbr, hsz]
  split
  · exact ⟨hl.grown_refl, .inl ⟨_, rfl, nofun⟩⟩
  · cases ha : Cells.kzrealloc e.branchp none st.siBranch (max 1 l.length) (l.length + 1) with
    | none => exact ⟨hl.grown_refl, .inl ⟨_, rfl, nofun⟩⟩
    | some a =>
      have hat := Cells.take_kzrealloc (n := l.length) (by omega) hra ha
      have har := Cells.length_kzrealloc hra ha
      have ham : max 1 l.length ≤ a.length := by omega
      cases hb : Cells.kzrealloc e.hdentryp none st.diHdentry (max 1 l.length) (l.length + 1) with
      | none => exact ⟨⟨rfl, hat, rfl, rfl, ham, hrb, hrc⟩, .inl ⟨_, rfl, nofun⟩⟩
      | some b =>
        have hbt := Cells.take_kzrealloc (n := l.length) (by omega) hrb hb
        have hbr := Cells.length_kzrealloc hrb hb
        have hbm : max 1 l.length ≤ b.length := by omega
        cases hc : Cells.kzrealloc e.hinodep ⟨none, 0⟩ st.iiHinode (max 1 l.length)
            (l.length + 1) with
        | none => exact ⟨⟨rfl, hat, hbt, rfl, ham, hbm, hrc⟩, .inl ⟨_, rfl, nofun⟩⟩
        | some c =>
          have hct := Cells.take_kzrealloc (n := l.length) (by omega) hrc hc
          have hcr := Cells.length_kzrealloc hrc hc
          have hcm : max 1 l.length ≤ c.length := by omega
          exact ⟨⟨rfl, hat, hbt, hct, ham, hbm, hcm⟩, .inr ⟨rfl, har, hbr, hcr⟩⟩

/-- What a branch that passes `test_add` meets. -/
structure Host.Allowed (h : Host) (l : List Slot) (add : OptAdd) : Prop where
  room : l.length < h.branchMax.val
  nonneg : 0 ≤ add.bindex
  le : add.bindex ≤ l.length
  apart : ∀ s ∈ l, add.nd.dentry.Apart s.dir

theorem Host.allowed_of_testAdd (hl : st.Holds l) {e : AddEnv} {add : OptAdd} {remount : Bool}
    (hok : h.testAdd st e add remount = .ok false) : h.Allowed l add := by
  have hend := hl.siBend
  simp only [testAdd] at hok
  split at hok
  · split at hok <;> cases hok
  split at hok
  · cases hok
  rename_i hspace
  split at hok
  · cases hok
  rename_i hrange
  split at hok
  · cases hok
  split at hok
  · cases hok
  split at hok
  · cases hok
  split at hok
  · cases hok
  split at hok
  · cases hok
  refine ⟨by omega, by omega, by omega, fun s hs => ?_⟩
  obtain ⟨i, hi⟩ := List.mem_iff_getElem?.mp hs
  have hlt : i < l.length := (List.getElem?_eq_some_iff.mp hi).1
  rw [if_neg (by omega)] at hok
  split at hok
  · cases hok
  rename_i hno
  rw [Bool.not_eq_true, List.any_eq_false] at hno
  have hov := hno i (mem_bindexes.mpr ⟨by omega, by omega⟩)
  rw [hl.hDptrI hi, Option.any_some, Bool.not_eq_true] at hov
  exact h.apart_of_isOverlap hov

theorem Host.sameTable_addXino (e : XinoInitEnv) (addBindex : Int) :
    st.SameTable (h.addXino st e addBindex).2 := by
  unfold Host.addXino
  split
  · split
    · exact .refl st
    · rename_i base _
      have hinit := @Host.sameTable_xinoInit h st e addBindex
        (base.brXino.map XFile.place) true
      split
      case h_1 hx =>
        rw [hx] at hinit
        exact hinit
      case h_2 hx =>
        rw [hx] at hinit
        exact hinit
      case h_3 hx =>
        rw [hx] at hinit
        exact hinit.trans (Sbinfo.sameTable_xino false)
  · exact .refl st

end

/-- Errors of the xino file do not count. -/
theorem Host.addXino_error {h : Host} {st : Sbinfo} {e : XinoInitEnv} {addBindex : Int} {err : Errno}
    (herr : (h.addXino st e addBindex).1 = .error err) : err = .oops := by
  unfold Host.addXino at herr
  split at herr
  · split at herr
    · exact (Except.error.inj herr).symm
    · split at herr
      · cases herr
      · exact (Except.error.inj herr).symm
      · cases herr
  · cases herr

theorem lower_ne_oops {α : Type} (err : LowerErrno) : (.error err.1 : Except Errno α) ≠ .error .oops :=
  fun h => err.2 (Except.error.inj h)

theorem initPlink_ne_oops (e : InitWhEnv) (plink : Bool) (br : AufsBranch) :
    (initPlink e plink br).1 ≠ .error .oops := by
  rw [initPlink]
  split
  · split
    · exact lower_ne_oops _
    · exact nofun
  · exact nofun

theorem initWh_ne_oops (e : InitWhEnv) (plink : Bool) (br : AufsBranch) :
    (initWh e plink br).1 ≠ .error .oops := by
  have hplink := initPlink_ne_oops e plink { br with brWh := false, brPlink := false }
  unfold initWh
  split
  · exact lower_ne_oops _
  · dsimp only
    split
    case h_5 =>
      split
      · exact lower_ne_oops _
      · exact hplink
    case h_6 =>
      split
      · exact lower_ne_oops _
      · exact lower_ne_oops _
      · split
        case h_1 hp =>
          rw [hp] at hplink
          exact hplink
        case h_2 => exact nofun
    all_goals exact nofun

/-- The errors of `init_br_wh` are those of the calls below. -/
theorem initBrWh_ne_oops (e : InitWhEnv) (plink : Bool) (newPerm : BrPerm) (br : AufsBranch) :
    (initBrWh e plink newPerm br).1 ≠ .error .oops :=
  initWh_ne_oops e plink { br with brPerm := newPerm }

/-- How `br_add` ends for a branch that is allowed: with an error and nothing but grown
arrays, or with the new branch in them, whose xino file is still to be made. -/
theorem Host.doAdd_cases {h : Host} {st : Sbinfo} {l : List Slot} (hl : st.Holds l)
    (hlen : l.length ≤ h.branchMax.val) (e : AddEnv) (add : OptAdd) :
    ∃ st₁, st.Grown l.length st₁ ∧
      ((∃ err, h.doAdd st e add = (.error err, st₁) ∧ err ≠ .oops) ∨
        ∃ brId br, l.length < st₁.siBranch.length ∧ l.length < st₁.diHdentry.length ∧
          l.length < st₁.iiHinode.length ∧ brId ≠ 0 ∧ (∀ s ∈ l, s.id ≠ brId) ∧
          br.key = ⟨brId, add.perm, add.nd.dentry.dSb⟩ ∧
          (br.brXino = none ∧ br.brCount = 0 ∧ (br.brWh = true → br.brPerm = .RW)) ∧
          h.doAdd st e add =
            h.addXino ((({ st₁ with siLastBrId := brId } : Sbinfo).enter add.bindex br
              add.nd.dentry e.iIno).raiseMaxbytes (h.sb add.nd.dentry.dSb).sMaxbytes) e.xino
              add.bindex) := by
  have hn : (st.siBend + 2).toNat = l.length + 1 := by
    have := hl.siBend
    omega
  obtain ⟨hgrown, halloc⟩ := allocAddbr_spec hl e.alloc
  unfold Host.doAdd
  rw [hn]
  generalize allocAddbr e.alloc st (l.length + 1) = r at *
  obtain ⟨r, st₁⟩ := r
  refine ⟨st₁, hgrown, ?_⟩
  rcases halloc with ⟨err, rfl, hne⟩ | ⟨rfl, ha, hb, hc⟩
  · exact .inl ⟨err, rfl, hne⟩
  · dsimp only at ha hb hc ⊢
    cases hwh : (if brWritable add.perm then
        initBrWh e.wh st₁.plink add.perm (AufsBranch.blank add.perm)
      else (.ok (), AufsBranch.blank add.perm)) with
    | mk r br =>
      cases r with
      | error err =>
        refine .inl ⟨err, rfl, ?_⟩
        rintro rfl
        split at hwh
        · exact initBrWh_ne_oops _ _ _ _ (congrArg Prod.fst hwh)
        · cases hwh
      | ok u =>
        obtain ⟨brId, hnew, hne, hfresh⟩ := Host.newBrId_spec (h := h) (hl.grown hgrown) hlen
        -- the new branch has no whiteout base but the one that `init_br_wh` made
        have hbase : br.brWh = true → add.perm = .RW := by
          intro hwhite
          split at hwh
          · obtain ⟨wh, pl, heq, hnew⟩ := initBrWh_eq e.wh st₁.plink add.perm (AufsBranch.blank add.perm)
            rw [hwh] at heq
            have heq : br = _ := heq
            rw [heq] at hwhite
            exact (hnew hwhite).resolve_left Bool.false_ne_true
          · cases hwh
            cases hwhite
        simp only [hnew]
        exact .inr ⟨brId, _, ha, hb, hc, hne, hfresh, by rw [AufsBranch.key, add.nd.mntSb_eq],
          ⟨rfl, rfl, hbase⟩, rfl⟩

/-- The arrays with the new branch hold the longer list. -/
theorem Host.enter_is {h : Host} {st st₁ : Sbinfo} {t : BrList h} (ht : st.Is t) {add : OptAdd}
    (hadd : h.Allowed t.slots add) (hg : st.Grown t.slots.length st₁)
    (ha : t.slots.length < st₁.siBranch.length) (hb : t.slots.length < st₁.diHdentry.length)
    (hc : t.slots.length < st₁.iiHinode.length) {brId : Int} (hne : brId ≠ 0)
    (hfresh : ∀ s ∈ t.slots, s.id ≠ brId) {br : AufsBranch}
    (hkey : br.key = ⟨brId, add.perm, add.nd.dentry.dSb⟩) (iIno : Nat) :
    ∃ (s : Slot) (hi : add.bindex.toNat ≤ t.slots.length) (hs : t.Admits s),
      s.perm = add.perm ∧ s.dir = add.nd.dentry ∧ s.ino = iIno ∧
      ((({ st₁ with siLastBrId := brId } : Sbinfo).enter add.bindex br add.nd.dentry
        iIno).raiseMaxbytes (h.sb add.nd.dentry.dSb).sMaxbytes).Is (t.add add.bindex.toNat s hi hs) := by
  have hgrown := ht.holds.grown hg
  have hmax : st₁.sMaxbytes = t.maxbytes := by
    rw [hg.eq]
    exact ht.maxbytes
  have hi : add.bindex.toNat ≤ t.slots.length := by
    have := hadd.le
    omega
  have hs : t.Admits ⟨brId, add.perm, add.nd.dentry, iIno⟩ := ⟨hfresh, hne, hadd.apart, hadd.room⟩
  refine ⟨⟨brId, add.perm, add.nd.dentry, iIno⟩, hi, hs, rfl, rfl, rfl, ?_⟩
  have henter := (hgrown.setLastBrId brId).enter hi (s := ⟨brId, add.perm, add.nd.dentry, iIno⟩)
    hkey ha hb hc
  rw [Int.toNat_of_nonneg hadd.nonneg] at henter
  refine ⟨henter.setMaxbytes _, ?_⟩
  rw [BrList.maxbytes_add]
  show (if st₁.sMaxbytes < _ then _ else st₁.sMaxbytes) = _
  rw [hmax]
  dsimp only
  split <;> omega

/-- A branch that is allowed is added at its index, or an error leaves the list. -/
theorem Host.doAdd_spec {h : Host} {st : Sbinfo} {t : BrList h} (ht : st.Is t) (e : AddEnv)
    {add : OptAdd} (hadd : h.Allowed t.slots add) :
    ((∃ err, (h.doAdd st e add).1 = .error err) ∧ (h.doAdd st e add).2.Is t) ∨
      ∃ (s : Slot) (hi : add.bindex.toNat ≤ t.slots.length) (hs : t.Admits s),
        s.perm = add.perm ∧ s.dir = add.nd.dentry ∧ s.ino = e.iIno ∧
        (h.doAdd st e add).2.Is (t.add add.bindex.toNat s hi hs) ∧
        ∀ err, (h.doAdd st e add).1 = .error err → err = .oops := by
  obtain ⟨st₁, hg, hcases⟩ := Host.doAdd_cases ht.holds t.fits e add
  rcases hcases with ⟨err, hdo, -⟩ | ⟨brId, br, ha, hb, hc, hne, hfresh, hkey, -, hdo⟩
  · rw [hdo]
    refine .inl ⟨⟨err, rfl⟩, ht.holds.grown hg, ?_⟩
    rw [hg.eq]
    exact ht.maxbytes
  · obtain ⟨s, hi, hs, hperm, hdir, hino, his⟩ :=
      Host.enter_is ht hadd hg ha hb hc hne hfresh hkey e.iIno
    rw [hdo]
    exact .inr ⟨s, hi, hs, hperm, hdir, hino,
      his.sameTable (Host.sameTable_addXino e.xino add.bindex),
      fun err herr => Host.addXino_error herr⟩

/-- `br_add` adds a branch, or leaves the list. -/
theorem Host.brAdd_spec {h : Host} {st : Sbinfo} {t : BrList h} (ht : st.Is t) (e : AddEnv)
    (add : OptAdd) (remount : Bool) :
    (h.brAdd st e add remount).2.Is t ∨
      ∃ (s : Slot) (hi : add.bindex.toNat ≤ t.slots.length) (hs : t.Admits s),
        s.perm = add.perm ∧ s.dir = add.nd.dentry ∧ s.ino = e.iIno ∧
        (h.brAdd st e add remount).2.Is (t.add add.bindex.toNat s hi hs) ∧
        ∀ err, (h.brAdd st e add remount).1 = .error err → err = .oops := by
  cases hadd : h.testAdd st e add remount with
  | error err =>
    simp only [Host.brAdd, hadd]
    exact .inl ht
  | ok ignored =>
    cases ignored with
    | true =>
      simp only [Host.brAdd, hadd]
      exact .inl ht
    | false =>
      simp only [Host.brAdd, hadd]
      rcases Host.doAdd_spec ht e (Host.allowed_of_testAdd ht.holds hadd) with ⟨-, hsame⟩ | hnew
      · exact .inl hsame
      · exact .inr hnew

-- ---------------------------------------------------------------------------
-- br_del and br_mod
-- ---------------------------------------------------------------------------

/-- A change at the index of a branch that the table does not see. -/
theorem Sbinfo.sameTable_setBranch_of {st : Sbinfo} {i : Nat} {br : AufsBranch}
    (hbr : st.stobr i = some br) {f : AufsBranch → AufsBranch} (hf : (f br).key = br.key) :
    st.SameTable (st.setBranch i f) := by
  have hcell : st.siBranch[i]? = some (some br) := by
    rw [Sbinfo.stobr, if_pos (by omega), Int.toNat_natCast] at hbr
    exact Option.join_eq_some_iff.mp hbr
  refine ⟨?_, rfl, rfl, rfl, rfl, rfl, rfl, rfl, rfl, rfl⟩
  apply List.ext_getElem?
  intro j
  rw [List.getElem?_map, List.getElem?_map, setBranch, List.getElem?_modify]
  by_cases hj : i = j
  · subst hj
    simp only [Int.toNat_natCast, hcell, Functor.map, Option.map_some, if_true, hf]
  · simp only [Int.toNat_natCast, if_neg hj, Functor.map, Option.map_id']

/-- What a loop over the branches sees of the table. -/
theorem Sbinfo.Holds.map_stobr {st : Sbinfo} {l : List Slot} (hl : st.Holds l) :
    ((bindexes 0 st.siBend).map fun b => (st.stobr b).map AufsBranch.key) =
      l.map fun s => some s.key := by
  have hn : (st.siBend + 1 - 0).toNat = l.length := by
    have := hl.siBend
    omega
  apply List.ext_getElem?
  intro i
  rw [bindexes, hn, List.map_map, List.getElem?_map, List.getElem?_map]
  by_cases hi : i < l.length
  · have hs := List.getElem?_eq_getElem hi
    obtain ⟨br, hbr, hkey⟩ := hl.stobr hs
    rw [List.getElem?_range hi, hs, Option.map_some, Option.map_some, Function.comp_apply, zero_add, hbr,
      Option.map_some, hkey]
  · rw [List.getElem?_eq_none (by rw [List.length_range]; omega), List.getElem?_eq_none (by omega)]
    rfl

private theorem foldl_raise {α : Type} (f : α → Nat) (l : List α) (m : Nat) :
    l.foldl (fun m a => if m < f a then f a else m) m = max m ((l.map f).foldr max 0) := by
  induction l generalizing m with
  | nil => exact (Nat.max_zero m).symm
  | cons a l ih =>
    rw [List.foldl_cons, ih, List.map_cons, List.foldr_cons]
    split <;> omega

/-- The loop over the branches that computes `s_maxbytes` anew. -/
theorem Host.lowerMaxbytes_spec {h : Host} {st : Sbinfo} {l : List Slot} (hl : st.Holds l)
    (maxb : Nat) :
    (h.lowerMaxbytes st maxb).Holds l ∧
      (h.lowerMaxbytes st maxb).sMaxbytes =
        if st.sMaxbytes = maxb then (l.map fun s => (h.sb s.dir.dSb).sMaxbytes).foldr max 0
        else st.sMaxbytes := by
  rw [Host.lowerMaxbytes]
  split
  · refine ⟨hl.setMaxbytes _, ?_⟩
    -- the loop reads the super block of each branch and nothing else
    have hread : ∀ (f : Nat → Int → Nat) (g : Nat → Option BrKey → Nat),
        (∀ m b, f m b = g m ((st.stobr b).map AufsBranch.key)) → ∀ (bs : List Int) (m : Nat),
        bs.foldl f m = (bs.map fun b => (st.stobr b).map AufsBranch.key).foldl g m := by
      intro f g hfg bs m
      rw [List.foldl_map]
      exact congrArg (fun f => bs.foldl f m) (funext fun m => funext fun b => hfg m b)
    refine (hread _ (fun max key => key.elim max fun k =>
      if max < (h.sb k.mntSb).sMaxbytes then (h.sb k.mntSb).sMaxbytes else max)
      (fun m b => by cases st.stobr b <;> rfl) _ 0).trans ?_
    rw [hl.map_stobr, List.foldl_map]
    exact (foldl_raise (fun s : Slot => (h.sb s.dir.dSb).sMaxbytes) l 0).trans (Nat.zero_max _)
  · exact ⟨hl, rfl⟩

section

variable {h : Host} {st : Sbinfo} {t : BrList h}

/-- `br_del` deletes the branch with this root, of two or more, or leaves the list. -/
theorem Host.brDel_spec (ht : st.Is t) (e : DelEnv) (hRoot : HiddenDentry) (remount : Bool) :
    (h.brDel st e hRoot remount).2.Is t ∨
      ∃ (i : Nat) (s : Slot), t.slots[i]? = some s ∧ s.dir = hRoot ∧ 1 < t.slots.length ∧
        (h.brDel st e hRoot remount).1 = .ok () ∧ (h.brDel st e hRoot remount).2.Is (t.del i) := by
  rcases ht.holds.findDbindex_cases hRoot with ⟨i, s, hfind, hs, hdir⟩ | ⟨hfind, -⟩
  · have hlt : i < t.slots.length := (List.getElem?_eq_some_iff.mp hs).1
    have hend := ht.holds.siBend
    obtain ⟨br, hbr, -⟩ := ht.holds.stobr hs
    simp only [Host.brDel, hfind, if_neg (show ¬(i : Int) < 0 by omega), hbr]
    split
    · exact .inl ht
    rename_i hbusy
    simp only [Bool.or_eq_true, decide_eq_true_eq, not_or] at hbusy
    -- dropping the whiteout base is no change of the table
    have hput : st.SameTable (if (br.brWh || br.brPlink) = true then st.setBranch i .putWh else st) := by
      split
      · exact Sbinfo.sameTable_setBranch _ fun _ => rfl
      · exact .refl st
    generalize hst₁ : (if (br.brWh || br.brPlink) = true then st.setBranch i .putWh else st) = st₁ at *
    have ht₁ := ht.sameTable hput
    split
    · refine .inl (ht₁.sameTable ?_)
      split
      · exact Sbinfo.sameTable_setBranch _ fun br => key_initBrWh _ _ _ br
      · exact .refl st₁
    · have hremove := ht₁.holds.remove hlt (by omega)
      obtain ⟨hholds, hmax⟩ := Host.lowerMaxbytes_spec hremove (h.sb hRoot.dSb).sMaxbytes
      refine .inr ⟨i, s, hs, hdir, by omega, rfl, hholds, hmax.trans ?_⟩
      have hold : st₁.sMaxbytes = max (h.sb hRoot.dSb).sMaxbytes (t.del i).maxbytes := by
        rw [← hdir, ← BrList.maxbytes_del hs]
        exact ht₁.maxbytes
      show (if st₁.sMaxbytes = _ then (t.del i).maxbytes else st₁.sMaxbytes) = _
      split <;> omega
  · simp only [Host.brDel, hfind, if_pos (show (-1 : Int) < 0 by decide)]
    exact .inl ht

/-- `br_mod` changes the permission of the branch with this root, or leaves the list. -/
theorem Host.brMod_spec (ht : st.Is t) (e : ModEnv) (hRoot : HiddenDentry) (perm : BrPerm)
    (remount : Bool) :
    (brMod st e hRoot perm remount).2.Is t ∨
      ∃ (i : Nat) (s : Slot), t.slots[i]? = some s ∧ s.dir = hRoot ∧
        (brMod st e hRoot perm remount).1 = .ok (needSigenInc s.perm perm) ∧
        (brMod st e hRoot perm remount).2.Is (t.chperm i perm) := by
  rcases ht.holds.findDbindex_cases hRoot with ⟨i, s, hfind, hs, hdir⟩ | ⟨hfind, -⟩
  · obtain ⟨br, hbr, hkey⟩ := ht.holds.stobr hs
    simp only [brMod, hfind, if_neg (show ¬(i : Int) < 0 by omega), hbr]
    split
    · exact .inl ht
    split
    · exact .inl ht
    have hinit : (if brWritable br.brPerm then initBrWh e.wh st.plink .RO br
        else (.ok (), br)).2.key = br.key := by
      split
      · exact key_initBrWh _ _ _ br
      · rfl
    split
    case h_1 err br' hr =>
      rw [hr] at hinit
      exact .inl (ht.sameTable (Sbinfo.sameTable_setBranch_of hbr hinit))
    case h_2 br' hr =>
      rw [hr] at hinit
      have hperm : br.brPerm = s.perm := congrArg BrKey.perm hkey
      refine .inr ⟨i, s, hs, hdir, by rw [hperm], ?_, ?_⟩
      · refine ht.holds.chperm hs fun _ _ => ?_
        have hk := hinit.trans hkey
        simp only [AufsBranch.key, Slot.key, BrKey.mk.injEq] at hk
        simp only [AufsBranch.key, Slot.key, Slot.chperm, BrKey.mk.injEq]
        exact ⟨hk.1, trivial, hk.2.2⟩
      · exact ht.maxbytes.trans (BrList.maxbytes_chperm i perm).symm
  · simp only [brMod, hfind, if_pos (show (-1 : Int) < 0 by decide)]
    exact .inl ht

end

-- ---------------------------------------------------------------------------
-- Calls
-- ---------------------------------------------------------------------------

/-- One call of a branch operation, with what it gets from its surroundings. -/
inductive BrCall where
  | add (e : AddEnv) (add : OptAdd) (remount : Bool)
  | del (e : DelEnv) (hRoot : HiddenDentry) (remount : Bool)
  | mod (e : ModEnv) (hRoot : HiddenDentry) (perm : BrPerm) (remount : Bool)

/-- The call. -/
def Host.call (h : Host) (st : Sbinfo) : BrCall → Except Errno Unit × Sbinfo
  | .add e add remount => h.brAdd st e add remount
  | .del e hRoot remount => h.brDel st e hRoot remount
  | .mod e hRoot perm remount =>
    let (r, st) := brMod st e hRoot perm remount
    (r.map fun _ => (), st)

/-- The states that calls lead to from a mount without branches. Between two calls other
activity may change everything but the table: files are opened and closed, inode numbers
are written, the xino files come and go. -/
inductive Host.Reach (h : Host) : Sbinfo → Prop
  | init (xino plink : Bool) : Reach h (.init xino plink)
  | call {st : Sbinfo} (c : BrCall) : Reach h st → Reach h (h.call st c).2
  | other {st st' : Sbinfo} : Reach h st → st.SameTable st' → Reach h st'

/-- One step: a call keeps the arrays in line with some list of branches, and with the same
list if it fails. -/
theorem Host.call_spec {h : Host} {st : Sbinfo} {t : BrList h} (ht : st.Is t) (c : BrCall) :
    ∃ t' : BrList h, (h.call st c).2.Is t' ∧
      ∀ err, (h.call st c).1 = .error err → err ≠ .oops → t' = t := by
  cases c with
  | add e add remount =>
    rcases Host.brAdd_spec ht e add remount with hsame | ⟨s, hi, hs, -, -, -, hnew, herr⟩
    · exact ⟨t, hsame, fun _ _ _ => rfl⟩
    · exact ⟨_, hnew, fun err hr hne => absurd (herr err hr) hne⟩
  | del e hRoot remount =>
    rcases Host.brDel_spec ht e hRoot remount with hsame | ⟨i, s, -, -, -, hok, hnew⟩
    · exact ⟨t, hsame, fun _ _ _ => rfl⟩
    · refine ⟨_, hnew, fun err hr _ => ?_⟩
      rw [Host.call, hok] at hr
      cases hr
  | mod e hRoot perm remount =>
    rcases Host.brMod_spec ht e hRoot perm remount with hsame | ⟨i, s, -, -, hok, hnew⟩
    · exact ⟨t, hsame, fun _ _ _ => rfl⟩
    · refine ⟨_, hnew, fun err hr _ => ?_⟩
      simp only [Host.call, hok, Except.map] at hr
      cases hr

theorem Sbinfo.is_init (h : Host) (xino plink : Bool) : (Sbinfo.init xino plink).Is (BrList.empty h) :=
  ⟨Sbinfo.holds_init xino plink, rfl⟩

/-- Every state that calls lead to holds a list of branches. -/
theorem Host.Reach.is {h : Host} {st : Sbinfo} (hr : h.Reach st) : ∃ t : BrList h, st.Is t := by
  induction hr with
  | init xino plink => exact ⟨_, Sbinfo.is_init h xino plink⟩
  | call c _ ih =>
    obtain ⟨t, ht⟩ := ih
    obtain ⟨t', ht', -⟩ := Host.call_spec ht c
    exact ⟨t', ht'⟩
  | other _ hs ih =>
    obtain ⟨t, ht⟩ := ih
    exact ⟨t, ht.sameTable hs⟩

-- ---------------------------------------------------------------------------
-- The table
-- ---------------------------------------------------------------------------

/-- An index of the table. -/
def Sbinfo.InTable (st : Sbinfo) (bindex : Int) : Prop := 0 ≤ bindex ∧ bindex ≤ st.siBend

/-- The well-formed table, as the source reads it. -/
structure Host.TableOk (h : Host) (st : Sbinfo) : Prop where
  fits : -1 ≤ st.siBend ∧ st.siBend < h.branchMax.val
  ends : st.diBend = st.siBend ∧ st.iiBend = st.siBend
  /-- No slot is `NULL`, and the root inode has the id of the branch. -/
  slots : ∀ b, st.InTable b → ∃ br d i, st.stobr b = some br ∧ st.hDptrI b = some d ∧
    st.hinode b = some ⟨some i, br.brId⟩
  ne_zero : ∀ b br, st.InTable b → st.stobr b = some br → br.brId ≠ 0
  distinct : ∀ b c br br', st.InTable b → st.InTable c → st.stobr b = some br →
    st.stobr c = some br' → br.brId = br'.brId → b = c
  apart : ∀ b c d d', st.InTable b → st.InTable c → b ≠ c → st.hDptrI b = some d →
    st.hDptrI c = some d' → d.Apart d'
  maxbytes : ∀ b br, st.InTable b → st.stobr b = some br →
    (h.sb br.brMntSb).sMaxbytes ≤ st.sMaxbytes
  reached : st.siBend ≠ -1 → ∃ b br, st.InTable b ∧ st.stobr b = some br ∧
    (h.sb br.brMntSb).sMaxbytes = st.sMaxbytes

/-- The same table: its order, and of every branch the id, the permission, the super block,
the hidden dentry and the hidden inode. -/
structure Sbinfo.Unchanged (st st' : Sbinfo) : Prop where
  siBend : st'.siBend = st.siBend
  diBend : st'.diBend = st.diBend
  iiBend : st'.iiBend = st.iiBend
  branch : ∀ b, st.InTable b →
    (st'.stobr b).map AufsBranch.key = (st.stobr b).map AufsBranch.key
  hdentry : ∀ b, st.InTable b → st'.hDptrI b = st.hDptrI b
  hinode : ∀ b, st.InTable b → st'.hinode b = st.hinode b
  maxbytes : st'.sMaxbytes = st.sMaxbytes

/-- A slot of the list for every index of the table. -/
theorem Sbinfo.Holds.slot {st : Sbinfo} {l : List Slot} (hl : st.Holds l) {b : Int}
    (hb : st.InTable b) : ∃ i s, b = (i : Nat) ∧ l[i]? = some s := by
  have hend := hl.siBend
  obtain ⟨h0, hle⟩ := hb
  exact ⟨b.toNat, _, (Int.toNat_of_nonneg h0).symm, List.getElem?_eq_getElem (by omega)⟩

theorem Sbinfo.Is.tableOk {h : Host} {st : Sbinfo} {t : BrList h} (ht : st.Is t) :
    h.TableOk st := by
  have hl := ht.holds
  have hend := hl.siBend
  have hfits := t.fits
  -- what the arrays have at an index, in terms of the list
  have hread : ∀ b, st.InTable b → ∃ i s br, b = (i : Nat) ∧ t.slots[i]? = some s ∧
      st.stobr b = some br ∧ br.key = s.key ∧ st.hDptrI b = some s.dir ∧
      st.hinode b = some s.hinode := by
    intro b hb
    obtain ⟨i, s, rfl, hs⟩ := hl.slot hb
    obtain ⟨br, hbr, hkey⟩ := hl.stobr hs
    exact ⟨i, s, br, rfl, hs, hbr, hkey, hl.hDptrI hs, hl.hinode_eq hs⟩
  constructor
  case fits => omega
  case ends =>
    have := hl.diBend
    have := hl.iiBend
    omega
  case slots =>
    intro b hb
    obtain ⟨i, s, br, rfl, hs, hbr, hkey, hd, hi⟩ := hread b hb
    have hid : br.brId = s.id := congrArg BrKey.id hkey
    exact ⟨br, _, _, hbr, hd, by rw [hi, Slot.hinode, hid]⟩
  case ne_zero =>
    intro b br hb hbr
    obtain ⟨i, s, br', rfl, hs, hbr', hkey, -, -⟩ := hread b hb
    obtain rfl := Option.some.inj (hbr'.symm.trans hbr)
    have hid : br'.brId = s.id := congrArg BrKey.id hkey
    rw [hid]
    exact t.ne_zero s (List.mem_of_getElem? hs)
  case distinct =>
    intro b c br br' hb hc hbr hbr' hid
    obtain ⟨i, s, br₁, rfl, hs, hbr₁, hkey, -, -⟩ := hread b hb
    obtain ⟨j, s', br₂, rfl, hs', hbr₂, hkey', -, -⟩ := hread c hc
    obtain rfl := Option.some.inj (hbr₁.symm.trans hbr)
    obtain rfl := Option.some.inj (hbr₂.symm.trans hbr')
    have hids : (t.slots.map Slot.id)[i]? = (t.slots.map Slot.id)[j]? := by
      rw [List.getElem?_map, List.getElem?_map, hs, hs', Option.map_some, Option.map_some]
      exact congrArg some (((congrArg BrKey.id hkey).symm.trans hid).trans (congrArg BrKey.id hkey'))
    have hlt : i < (t.slots.map Slot.id).length := by
      rw [List.length_map]
      exact (List.getElem?_eq_some_iff.mp hs).1
    exact congrArg _ ((List.getElem?_inj hlt t.nodup).mp hids)
  case apart =>
    intro b c d d' hb hc hne hd hd'
    obtain ⟨i, s, -, rfl, hs, -, -, hds, -⟩ := hread b hb
    obtain ⟨j, s', -, rfl, hs', -, -, hds', -⟩ := hread c hc
    obtain rfl := Option.some.inj (hds.symm.trans hd)
    obtain rfl := Option.some.inj (hds'.symm.trans hd')
    obtain ⟨hi, rfl⟩ := List.getElem?_eq_some_iff.mp hs
    obtain ⟨hj, rfl⟩ := List.getElem?_eq_some_iff.mp hs'
    have hpair := List.pairwise_iff_getElem.mp t.apart
    rcases Nat.lt_or_gt_of_ne (show i ≠ j by omega) with hlt | hlt
    · exact hpair i j hi hj hlt
    · exact (hpair j i hj hi hlt).symm
  case maxbytes =>
    intro b br hb hbr
    obtain ⟨i, s, br', rfl, hs, hbr', hkey, -, -⟩ := hread b hb
    obtain rfl := Option.some.inj (hbr'.symm.trans hbr)
    have hsb : br'.brMntSb = s.dir.dSb := congrArg BrKey.mntSb hkey
    rw [ht.maxbytes, hsb]
    exact BrList.le_maxbytes (List.mem_of_getElem? hs)
  case reached =>
    intro hne
    have hslots : t.slots ≠ [] := by
      intro hnil
      rw [hnil] at hend
      exact hne hend
    obtain ⟨s, hs, hmax⟩ := BrList.exists_maxbytes hslots
    obtain ⟨i, hi⟩ := List.mem_iff_getElem?.mp hs
    have hlt : i < t.slots.length := (List.getElem?_eq_some_iff.mp hi).1
    obtain ⟨br, hbr, hkey⟩ := hl.stobr hi
    have hsb : br.brMntSb = s.dir.dSb := congrArg BrKey.mntSb hkey
    exact ⟨i, br, ⟨by omega, by omega⟩, hbr, by rw [hsb, hmax, ht.maxbytes]⟩

/-- States that hold one list have one table. -/
theorem Sbinfo.Is.unchanged {h : Host} {st st' : Sbinfo} {t : BrList h} (ht : st.Is t)
    (ht' : st'.Is t) : st.Unchanged st' where
  siBend := ht'.holds.siBend.trans ht.holds.siBend.symm
  diBend := ht'.holds.diBend.trans ht.holds.diBend.symm
  iiBend := ht'.holds.iiBend.trans ht.holds.iiBend.symm
  branch b hb := by
    obtain ⟨i, s, rfl, hs⟩ := ht.holds.slot hb
    obtain ⟨br, hbr, hkey⟩ := ht.holds.stobr hs
    obtain ⟨br', hbr', hkey'⟩ := ht'.holds.stobr hs
    rw [hbr, hbr', Option.map_some, Option.map_some, hkey, hkey']
  hdentry b hb := by
    obtain ⟨i, s, rfl, hs⟩ := ht.holds.slot hb
    rw [ht.holds.hDptrI hs, ht'.holds.hDptrI hs]
  hinode b hb := by
    obtain ⟨i, s, rfl, hs⟩ := ht.holds.slot hb
    rw [ht.holds.hinode_eq hs, ht'.holds.hinode_eq hs]
  maxbytes := ht'.maxbytes.trans ht.maxbytes.symm

/-- Whatever calls came before: the table is well formed, the next branch gets an id of its
own that is not zero, and a call that fails changes nothing of the table. -/
theorem brCalls_table {h : Host} {st : Sbinfo} (hr : h.Reach st) :
    h.TableOk st ∧
    (∃ brId, h.newBrId st = some (brId, { st with siLastBrId := brId }) ∧ brId ≠ 0 ∧
      ∀ b br, st.InTable b → st.stobr b = some br → br.brId ≠ brId) ∧
    ∀ c err, (h.call st c).1 = .error err → err ≠ .oops → st.Unchanged (h.call st c).2 := by
  obtain ⟨t, ht⟩ := hr.is
  refine ⟨ht.tableOk, ?_, fun c err herr hne => ?_⟩
  · obtain ⟨brId, hnew, hne, hfresh⟩ := Host.newBrId_spec ht.holds t.fits
    refine ⟨brId, hnew, hne, fun b br hb hbr => ?_⟩
    obtain ⟨s, hs, hkey⟩ := ht.holds.slot_of_stobr hbr hb.2
    have hid : br.brId = s.id := congrArg BrKey.id hkey
    rw [hid]
    exact hfresh s (List.mem_of_getElem? hs)
  · obtain ⟨t', ht', hsame⟩ := Host.call_spec ht c
    obtain rfl := hsame err herr hne
    exact ht.unchanged ht'

/-- The branch ids that the other parts of aufs see in such a state are distinct. -/
theorem Host.Reach.distinctIds {h : Host} {st : Sbinfo} (hr : h.Reach st) {sb : SuperBlock}
    (hsb : (sb.branches.map fun br => some br.id) =
      (bindexes 0 st.siBend).map fun b => (st.stobr b).map AufsBranch.brId) : sb.DistinctIds := by
  obtain ⟨t, ht⟩ := hr.is
  apply SuperBlock.distinctIds_of_nodup
  have hkeys := congrArg (List.map (Option.map BrKey.id)) ht.holds.map_stobr
  simp only [List.map_map, Function.comp_def, Option.map_map, Option.map_some] at hkeys
  have hids : (sb.branches.map fun br => some br.id) = t.slots.map fun s => some s.id :=
    hsb.trans hkeys
  have hsome := congrArg (List.filterMap id) hids
  simp only [List.filterMap_map, Function.comp_def, id_eq, List.filterMap_eq_map'] at hsome
  rw [hsome]
  exact t.nodup

/-- A host with ordinary file systems below. -/
def Host.plain : Host := ⟨.max127, .long64, false, false, 0, fun n => ⟨n, false, false, none⟩⟩

/-- Adding the directory of this name on super block `sb` at an index. -/
def BrCall.addDir (sb : Nat) (name : Name) (bindex : Int) : BrCall :=
  .add ⟨sb + 10, 2, false, ⟨true, true, true, true⟩, ⟨none, none, none, none⟩, ⟨.ok (true, true), .ok 8⟩⟩
    ⟨bindex, .RW, ⟨⟨sb, [name]⟩, sb, rfl⟩⟩ false

/-- Two branches are added, the second one in front, and the other one is deleted. -/
def twoAddedOneDeleted : Sbinfo :=
  let st := (Host.plain.call (.init false false) (.addDir 3 [97] 0)).2
  let st := (Host.plain.call st (.addDir 5 [98] 0)).2
  (Host.plain.call st (.del ⟨none, ⟨none, none, none, none⟩⟩ ⟨3, [[97]]⟩ false)).2

theorem brCalls_table_deleted :
    (twoAddedOneDeleted.siBend = 0 ∧ twoAddedOneDeleted.sMaxbytes = 5 ∧
      twoAddedOneDeleted.stobr 0 = some ⟨none, false, false, 2, .RW, 5, 0, true, false⟩) ∧
    Host.plain.TableOk twoAddedOneDeleted ∧
    (∃ brId, Host.plain.newBrId twoAddedOneDeleted =
        some (brId, { twoAddedOneDeleted with siLastBrId := brId }) ∧ brId ≠ 0 ∧
      ∀ b br, twoAddedOneDeleted.InTable b → twoAddedOneDeleted.stobr b = some br → br.brId ≠ brId) ∧
    ∀ c err, (Host.plain.call twoAddedOneDeleted c).1 = .error err → err ≠ .oops →
      twoAddedOneDeleted.Unchanged (Host.plain.call twoAddedOneDeleted c).2 :=
  ⟨by decide +kernel, brCalls_table (.call _ (.call _ (.call _ (.init false false))))⟩

end Aufs
