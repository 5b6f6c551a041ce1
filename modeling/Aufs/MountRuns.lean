-- SUMMARY: Every run of mounts and remounts by text: the branches could be added again, and flags are those that the build offers.
import Aufs.MountOpts
import Aufs.XinoEvents
import Aufs.XinoRest

/-!
# Runs of mounts and remounts

A branch got into the table because it passed the tests of `br_add`, and nothing that happens
later makes it fail them. So in every state that mounts and remounts lead to, all branches
would pass the tests of an aufs without branches.
-/

namespace Aufs

open OptText

-- ---------------------------------------------------------------------------
-- The tests of br_add
-- ---------------------------------------------------------------------------

/-- What `test_add` asks of a new branch beside the branches of a list. -/
structure Host.Passes (h : Host) (l : List Slot) (e : AddEnv) (add : OptAdd) : Prop where
  room : l.length < h.branchMax.val
  nonneg : 0 ≤ add.bindex
  le : add.bindex ≤ l.length
  linked : e.iNlink ≠ 0
  outside : add.nd.dentry.dSb ≠ h.self
  notNested : (h.sb add.nd.dentry.dSb).nested = false
  notNfs : (h.noNfs && (h.sb add.nd.dentry.dSb).nfs) = false
  perm : testBr e.rdonly add.perm = .ok ()
  apart : ∀ s ∈ l, h.isOverlap add.nd.dentry s.dir = false

section

variable {h : Host} {st : Sbinfo} {l : List Slot}

theorem Host.isOverlap_self (d : HiddenDentry) : h.isOverlap d d = true := by
  simp [Host.isOverlap]

theorem Host.isOverlap_symm (d1 d2 : HiddenDentry) : h.isOverlap d1 d2 = h.isOverlap d2 d1 := by
  have heq : decide (d1 = d2) = decide (d2 = d1) := decide_eq_decide.mpr eq_comm
  simp only [Host.isOverlap, heq]
  cases d1.doIsOverlap d2 <;> cases d2.doIsOverlap d1 <;> cases h.isOverlapLoopback d1 d2 <;>
    cases h.isOverlapLoopback d2 d1 <;> simp

/-- The loop over the branches that looks for one that overlaps. -/
theorem Sbinfo.Holds.any_overlap (hl : st.Holds l) (d : HiddenDentry) :
    ((bindexes 0 st.siBend).any fun bindex => (st.hDptrI bindex).any (h.isOverlap d)) = false ↔
      ∀ s ∈ l, h.isOverlap d s.dir = false := by
  have hend := hl.siBend
  rw [List.any_eq_false]
  constructor
  · intro hno s hs
    obtain ⟨i, hi⟩ := List.mem_iff_getElem?.mp hs
    have hlt : i < l.length := (List.getElem?_eq_some_iff.mp hi).1
    have hov := hno i (mem_bindexes.mpr ⟨by omega, by omega⟩)
    rwa [hl.hDptrI hi, Option.any_some, Bool.not_eq_true] at hov
  · intro hno b hb
    obtain ⟨i, s, rfl, hs⟩ := hl.slot (mem_bindexes.mp hb)
    rw [hl.hDptrI hs, Option.any_some, hno s (List.mem_of_getElem? hs)]
    exact Bool.false_ne_true

/-- `test_add` lets exactly these branches pass. -/
theorem Host.testAdd_iff (hl : st.Holds l) {e : AddEnv} {add : OptAdd} {remount : Bool} :
    h.testAdd st e add remount = .ok false ↔ h.Passes l e add := by
  have hend := hl.siBend
  have hany := hl.any_overlap (h := h) add.nd.dentry
  rw [testAdd]
  constructor
  · intro hok
    split at hok
    · split at hok <;> cases hok
    split at hok
    · cases hok
    split at hok
    · cases hok
    split at hok
    · cases hok
    split at hok
    · cases hok
    split at hok
    · cases hok
    split at hok
    · cases hok
    rename_i hroom hrange hlinked hself hnested hnfs
    split at hok
    · cases hok
    rename_i u hperm
    refine ⟨by omega, by omega, by omega, hlinked, hself, Bool.eq_false_iff.mpr hnested,
      Bool.eq_false_iff.mpr hnfs, hperm, ?_⟩
    split at hok
    case isTrue hempty =>
      have hnil : l = [] := List.length_eq_zero_iff.mp (by omega)
      simp [hnil]
    case isFalse =>
      split at hok
      · cases hok
      rename_i hno
      exact hany.mp (Bool.eq_false_iff.mpr hno)
  · intro hp
    have hroom := hp.room
    have hnonneg := hp.nonneg
    have hle := hp.le
    have hfind : st.findDbindex add.nd.dentry = -1 := by
      rcases hl.findDbindex_cases add.nd.dentry with ⟨i, s, -, hs, hdir⟩ | ⟨hfind, -⟩
      · have hself := hp.apart s (List.mem_of_getElem? hs)
        rw [hdir, Host.isOverlap_self] at hself
        cases hself
      · exact hfind
    rw [if_neg (not_not.mpr hfind), if_neg (by omega), if_neg (by omega), if_neg hp.linked,
      if_neg hp.outside, if_neg (by rw [hp.notNested]; exact Bool.false_ne_true),
      if_neg (by rw [hp.notNfs]; exact Bool.false_ne_true), hp.perm]
    dsimp only
    split
    · rfl
    · rw [if_neg (by rw [hany.mpr hp.apart]; exact Bool.false_ne_true)]

end

-- ---------------------------------------------------------------------------
-- Branches that could be added again
-- ---------------------------------------------------------------------------

/-- A directory that may be a branch, and is found by its path. -/
structure Namei.Fits (w : Namei) (h : Host) (d : HiddenDentry) : Prop where
  found : w.pathLookup (w.dPath d) = .ok d
  linked : w.iNlink d ≠ 0
  outside : d.dSb ≠ h.self
  notNested : (h.sb d.dSb).nested = false
  notNfs : (h.noNfs && (h.sb d.dSb).nfs) = false

/-- Branches that pass the tests one after the other. -/
structure Namei.Branches (w : Namei) (h : Host) (l : List Slot) : Prop where
  fits : ∀ s ∈ l, w.Fits h s.dir
  perm : ∀ s ∈ l, testBr (w.rdonly s.dir) s.perm = .ok ()
  ino : ∀ s ∈ l, s.ino = w.iIno s.dir
  apart : l.Pairwise fun s s' => h.isOverlap s.dir s'.dir = false

namespace Namei.Branches

variable {w : Namei} {h : Host} {l : List Slot}

theorem nil (w : Namei) (h : Host) : w.Branches h [] :=
  ⟨by simp, by simp, by simp, .nil⟩

theorem sublist {l' : List Slot} (hb : w.Branches h l) (hs : l'.Sublist l) : w.Branches h l' :=
  ⟨fun s hm => hb.fits s (hs.subset hm), fun s hm => hb.perm s (hs.subset hm),
    fun s hm => hb.ino s (hs.subset hm), hb.apart.sublist hs⟩

/-- One more branch, at any index. -/
theorem insertIdx (hb : w.Branches h l) {i : Nat} (hi : i ≤ l.length) {s : Slot}
    (hfits : w.Fits h s.dir) (hperm : testBr (w.rdonly s.dir) s.perm = .ok ())
    (hino : s.ino = w.iIno s.dir) (hapart : ∀ s' ∈ l, h.isOverlap s.dir s'.dir = false) :
    w.Branches h (l.insertIdx i s) := by
  have hp : (l.insertIdx i s).Perm (s :: l) := List.perm_insertIdx s l hi
  have hall : ∀ {P : Slot → Prop}, P s → (∀ s' ∈ l, P s') → ∀ s' ∈ l.insertIdx i s, P s' :=
    fun hs hl s' hm => List.forall_mem_cons.mpr ⟨hs, hl⟩ s' (hp.subset hm)
  refine ⟨hall hfits hb.fits, hall hperm hb.perm, hall hino hb.ino, ?_⟩
  rw [hp.pairwise_iff fun hab => (Host.isOverlap_symm _ _).trans hab, List.pairwise_cons]
  exact ⟨hapart, hb.apart⟩

/-- Another permission that the tests allow. -/
theorem chperm (hb : w.Branches h l) {i : Nat} {s : Slot} (hs : l[i]? = some s) {perm : BrPerm}
    (hperm : testBr (w.rdonly s.dir) perm = .ok ()) :
    w.Branches h (l.modify i (Slot.chperm perm)) := by
  have hall : ∀ {P : Slot → Prop}, (∀ s' ∈ l, P s') → P (s.chperm perm) →
      ∀ s' ∈ l.modify i (Slot.chperm perm), P s' := by
    intro P hl hnew s' hm
    obtain ⟨j, hj⟩ := List.mem_iff_getElem?.mp hm
    rw [List.getElem?_modify] at hj
    obtain ⟨s₀, hs₀, rfl⟩ := Option.map_eq_some_iff.mp hj
    by_cases hij : i = j
    · subst hij
      obtain rfl := Option.some.inj (hs.symm.trans hs₀)
      rw [if_pos rfl]
      exact hnew
    · rw [if_neg hij]
      exact hl s₀ (List.mem_of_getElem? hs₀)
  have hm := List.mem_of_getElem? hs
  refine ⟨hall hb.fits (hb.fits s hm), hall hb.perm hperm, hall hb.ino (hb.ino s hm), ?_⟩
  have hdirs : (l.map Slot.dir).Pairwise fun d d' => h.isOverlap d d' = false :=
    List.pairwise_map.mpr hb.apart
  have hmap : (l.modify i (Slot.chperm perm)).map Slot.dir = l.map Slot.dir :=
    BrList.map_modify (f := Slot.chperm perm) (fun _ => rfl) l i
  rw [← hmap] at hdirs
  exact List.pairwise_map.mp hdirs

end Namei.Branches

section

variable {h : Host} {w : Namei} {st : Sbinfo} {t : BrList h}

theorem Host.brAdd_branches (ht : st.Is t) (hb : w.Branches h t.slots) (a : OptAnswers)
    {add : OptAdd} (hfound : w.pathLookup (w.dPath add.nd.dentry) = .ok add.nd.dentry)
    (remount : Bool) :
    ∃ t' : BrList h, (h.brAdd st (w.addEnv a add.nd.dentry) add remount).2.Is t' ∧
      w.Branches h t'.slots := by
  cases hadd : h.testAdd st (w.addEnv a add.nd.dentry) add remount with
  | error err =>
    rw [Host.brAdd, hadd]
    exact ⟨t, ht, hb⟩
  | ok ignored =>
    rw [Host.brAdd, hadd]
    cases ignored with
    | true => exact ⟨t, ht, hb⟩
    | false =>
      have hp := (Host.testAdd_iff ht.holds).mp hadd
      rcases Host.doAdd_spec ht (w.addEnv a add.nd.dentry) (Host.allowed_of_testAdd ht.holds hadd) with
        ⟨-, hsame⟩ | ⟨s, hi, hs, hperm, hdir, hino, hnew, -⟩
      · exact ⟨t, hsame, hb⟩
      · refine ⟨_, hnew, hb.insertIdx hi ?_ ?_ ?_ ?_⟩
        · rw [hdir]
          exact ⟨hfound, hp.linked, hp.outside, hp.notNested, hp.notNfs⟩
        · rw [hdir, hperm]
          exact hp.perm
        · rw [hdir]
          exact hino
        · rw [hdir]
          exact hp.apart

theorem Host.brDel_branches (ht : st.Is t) (hb : w.Branches h t.slots) (e : DelEnv)
    (hRoot : HiddenDentry) (remount : Bool) :
    ∃ t' : BrList h, (h.brDel st e hRoot remount).2.Is t' ∧ w.Branches h t'.slots := by
  rcases Host.brDel_spec ht e hRoot remount with hsame | ⟨i, s, -, -, -, -, hnew⟩
  · exact ⟨t, hsame, hb⟩
  · exact ⟨_, hnew, hb.sublist (List.eraseIdx_sublist ..)⟩

theorem Host.brMod_branches (ht : st.Is t) (hb : w.Branches h t.slots) (wh : InitWhEnv)
    (hRoot : HiddenDentry) (perm : BrPerm) (remount : Bool) :
    ∃ t' : BrList h, (brMod st ⟨w.rdonly hRoot, wh⟩ hRoot perm remount).2.Is t' ∧
      w.Branches h t'.slots := by
  rcases Host.brMod_spec ht ⟨w.rdonly hRoot, wh⟩ hRoot perm remount with
    hsame | ⟨i, s, hs, hdir, hok, hnew⟩
  · exact ⟨t, hsame, hb⟩
  · refine ⟨_, hnew, hb.chperm hs ?_⟩
    -- the permission was tested
    rcases ht.holds.findDbindex_cases hRoot with ⟨j, s', hfind, -, -⟩ | ⟨-, hno⟩
    · simp only [brMod, hfind, if_neg (show ¬(j : Int) < 0 by omega)] at hok
      split at hok
      · cases hok
      · rename_i u hperm
        rw [hdir]
        exact hperm
    · exact absurd hdir (hno s (List.mem_of_getElem? hs))

end

-- ---------------------------------------------------------------------------
-- Options that the build offers
-- ---------------------------------------------------------------------------

/-- An option that a text can give. -/
def Opt.Offered (c : OptConf) (w : Namei) : Opt → Prop
  | .add new => w.pathLookup (w.dPath new.nd.dentry) = .ok new.nd.dentry
  | .append _ nd => w.pathLookup (w.dPath nd.dentry) = .ok nd.dentry
  | .prepend _ nd => w.pathLookup (w.dPath nd.dentry) = .ok nd.dentry
  | .plink => c.plink = true
  | .dlgt => c.dlgt = true
  | .udba level => level = .inotify → c.hinotify = true
  | _ => True

section

variable {h : Host} {c : OptConf} {w : Namei}

theorem optAdd_found {optStr : List Char} {bindex : Int} {add : OptAdd}
    (hadd : optAdd c w optStr bindex = .ok add) :
    w.pathLookup (w.dPath add.nd.dentry) = .ok add.nd.dentry := by
  rw [optAdd] at hadd
  split at hadd
  · cases hadd
  · rename_i dentry hlookup
    obtain rfl := Except.ok.inj hadd
    exact w.lookup_dPath _ _ hlookup

theorem OptConf.inotify_of_udbaVal {level : List Char} (hv : c.udbaVal level = some .inotify) :
    c.hinotify = true := by
  rcases matchToken_mem Option.none c.udbalevel level with hlast | hmem
  · rw [OptConf.udbaVal, hlast] at hv
    cases hv
  · rw [OptConf.udbaVal] at hv
    rw [hv, OptConf.udbalevel] at hmem
    cases hc : c.hinotify with
    | true => rfl
    | false => simp [hc] at hmem

/-- A token that depends on the build is in the table only if the build has it. -/
theorem OptConf.token_offered {s : List Char} {token : OptToken} {args : List (List Char)}
    (hm : matchToken .err c.options s = (token, args)) :
    (token = .plink → c.plink = true) ∧ (token = .dlgt → c.dlgt = true) := by
  have hmem := matchToken_mem .err c.options s
  rw [hm] at hmem
  constructor
  · rintro rfl
    cases hc : c.plink with
    | true => rfl
    | false => cases hd : c.dlgt <;> simp [OptConf.options, OptConf.plinkOptions,
        OptConf.dlgtOptions, hc, hd] at hmem
  · rintro rfl
    cases hd : c.dlgt with
    | true => rfl
    | false => cases hc : c.plink <;> cases hg : c.debug <;> simp [OptConf.options,
        OptConf.plinkOptions, OptConf.dlgtOptions, hc, hd, hg] at hmem

theorem map_ok {ε α β : Type} {x : Except ε α} {f : α → β} {b : β} (hx : x.map f = .ok b) :
    ∃ a, x = .ok a ∧ f a = b := by
  cases x with
  | error err => cases hx
  | ok a => exact ⟨a, rfl, Except.ok.inj hx⟩

theorem parseValue_offered {bindex bindex' : Int} {token : OptToken} {args : List (List Char)}
    {opt : Opt} (hplink : token = .plink → c.plink = true) (hdlgt : token = .dlgt → c.dlgt = true)
    (hv : parseValue h c w bindex token args = .ok (opt, bindex')) : opt.Offered c w := by
  unfold parseValue at hv
  split at hv
  case h_1 =>
    split at hv
    · cases hv
    · obtain ⟨add, hadd, he⟩ := map_ok hv
      obtain ⟨rfl, -⟩ := Prod.mk.inj he
      exact optAdd_found hadd
  case h_2 =>
    obtain ⟨add, hadd, he⟩ := map_ok hv
    obtain ⟨rfl, -⟩ := Prod.mk.inj he
    exact optAdd_found hadd
  case h_3 =>
    obtain ⟨add, hadd, he⟩ := map_ok hv
    obtain ⟨rfl, -⟩ := Prod.mk.inj he
    exact optAdd_found hadd
  case h_8 =>
    obtain ⟨place, -, he⟩ := map_ok hv
    obtain ⟨rfl, -⟩ := Prod.mk.inj he
    trivial
  case h_9 =>
    split at hv
    · cases hv
    · rename_i udba hu
      obtain ⟨rfl, -⟩ := Prod.mk.inj (Except.ok.inj hv)
      exact fun he => OptConf.inotify_of_udbaVal (he ▸ hu)
  case h_11 =>
    obtain ⟨rfl, -⟩ := Prod.mk.inj (Except.ok.inj hv)
    exact hplink rfl
  case h_19 =>
    obtain ⟨rfl, -⟩ := Prod.mk.inj (Except.ok.inj hv)
    exact hdlgt rfl
  case h_5 =>
    split at hv
    · cases hv
    split at hv
    · cases hv
    · cases hv
      trivial
  -- options that need nothing of the build
  all_goals
    try split at hv
    all_goals cases hv
    all_goals trivial

theorem storeOpt_ok {opts opts' : List Opt} {opt : Opt} (hs : storeOpt c opts opt = .ok opts') :
    opts' = opts ++ [opt] := by
  rw [storeOpt] at hs
  split at hs
  · cases hs
  · exact (Except.ok.inj hs).symm

theorem offered_store {opts opts' : List Opt} {opt : Opt} (hs : storeOpt c opts opt = .ok opts')
    (hall : ∀ o ∈ opts, o.Offered c w) (hopt : opt.Offered c w) : ∀ o ∈ opts', o.Offered c w := by
  rw [storeOpt_ok hs]
  intro o ho
  rcases List.mem_append.mp ho with ho | ho
  · exact hall o ho
  · rw [List.mem_singleton.mp ho]
    exact hopt

theorem parseBrs_offered {ps : List (List Char)} {opts opts' : List Opt} {bindex bindex' : Int}
    (hp : parseBrs h c w ps opts bindex = .ok (opts', bindex')) (hall : ∀ o ∈ opts, o.Offered c w) :
    ∀ o ∈ opts', o.Offered c w := by
  induction ps generalizing opts bindex with
  | nil =>
    obtain ⟨rfl, -⟩ := Prod.mk.inj (Except.ok.inj hp)
    exact hall
  | cons p ps ih =>
    rw [parseBrs] at hp
    split at hp
    · cases hp
    rename_i add hadd
    split at hp
    · cases hp
    rename_i opts₁ hs
    exact ih hp (offered_store hs hall (optAdd_found hadd))

theorem parseOpt_offered {s : List Char} {opts opts' : List Opt} {bindex bindex' : Int}
    (hp : parseOpt h c w s opts bindex = .ok (opts', bindex')) (hall : ∀ o ∈ opts, o.Offered c w) :
    ∀ o ∈ opts', o.Offered c w := by
  unfold parseOpt at hp
  split at hp
  case h_1 =>
    split at hp
    · obtain ⟨opts₁, hs, he⟩ := map_ok hp
      obtain ⟨rfl, -⟩ := Prod.mk.inj he
      exact offered_store hs hall trivial
    · exact parseBrs_offered hp hall
  case h_2 =>
    obtain ⟨rfl, -⟩ := Prod.mk.inj (Except.ok.inj hp)
    exact hall
  case h_3 hm =>
    obtain ⟨hplink, hdlgt⟩ := OptConf.token_offered hm
    split at hp
    · cases hp
    · rename_i opt bindex₁ hv
      obtain ⟨opts₁, hs, he⟩ := map_ok hp
      obtain ⟨rfl, -⟩ := Prod.mk.inj he
      exact offered_store hs hall (parseValue_offered hplink hdlgt hv)

/-- A text gives only options that the build offers, with directories that are found. -/
theorem auParseOpts_offered {str : List Char} {opts : List Opt}
    (hp : auParseOpts h c w str = .ok opts) : ∀ o ∈ opts, o.Offered c w := by
  have hloop : ∀ {ps : List (List Char)} {opts opts' : List Opt} {bindex : Int},
      parseLoop h c w ps opts bindex = .ok opts' → (∀ o ∈ opts, o.Offered c w) →
      ∀ o ∈ opts', o.Offered c w := by
    intro ps
    induction ps with
    | nil =>
      intro opts opts' bindex hp hall
      obtain rfl := Except.ok.inj hp
      exact hall
    | cons p ps ih =>
      intro opts opts' bindex hp hall
      rw [parseLoop] at hp
      split at hp
      · cases hp
      rename_i opts₁ bindex₁ ho
      exact ih hp (parseOpt_offered ho hall)
  obtain ⟨all, hall, rfl⟩ := map_ok hp
  exact fun o ho => hloop hall (by simp) o ((List.takeWhile_prefix _).subset ho)

end

-- ---------------------------------------------------------------------------
-- The flag for pseudo-links
-- ---------------------------------------------------------------------------

section

variable {h : Host} {w : Namei} {st : Sbinfo} {t : BrList h}

theorem Host.plink_brAdd (ht : st.Is t) (e : AddEnv) (add : OptAdd) (remount : Bool) :
    (h.brAdd st e add remount).2.plink = st.plink := by
  unfold Host.brAdd
  split
  · rfl
  · rfl
  · obtain ⟨st₁, hg, hdo⟩ := Host.doAdd_cases ht.holds t.fits e add
    have hplink : st₁.plink = st.plink := by rw [hg.eq]
    rcases hdo with ⟨err, hdo, -⟩ | ⟨brId, br, -, -, -, -, -, -, -, hdo⟩
    · rw [hdo]
      exact hplink
    · rw [hdo, (Host.sameRest_addXino e.xino add.bindex).plink]
      exact hplink

theorem Host.plink_brDel (e : DelEnv) (hRoot : HiddenDentry) (remount : Bool) :
    (h.brDel st e hRoot remount).2.plink = st.plink := by
  unfold Host.brDel
  dsimp only
  split
  · rfl
  split
  · rfl
  split
  · rfl
  split
  · split <;> rfl
  · rw [Host.lowerMaxbytes]
    split <;> split <;> rfl

theorem plink_brMod (e : ModEnv) (hRoot : HiddenDentry) (perm : BrPerm) (remount : Bool) :
    (brMod st e hRoot perm remount).2.plink = st.plink := by
  unfold brMod
  dsimp only
  split
  · rfl
  split
  · rfl
  split
  · rfl
  split
  · rfl
  split <;> rfl

theorem plink_verifyLoop (e : Int → InitWhEnv) (bs : List Int) (st : Sbinfo) :
    (verifyLoop e bs st).2.plink = st.plink := by
  induction bs generalizing st with
  | nil => rfl
  | cons b bs ih =>
    rw [verifyLoop]
    split
    · rfl
    split
    · exact ih st
    dsimp only
    split
    · rfl
    · exact ih _

/-- A branch option keeps branches that could be added again. -/
theorem Host.doOptBr_branches (ht : st.Is t) (hb : w.Branches h t.slots) {c : OptConf} {opt : Opt}
    (hopt : opt.Offered c w) (a : OptAnswers) (remount : Bool) :
    (∃ t' : BrList h, (h.doOptBr st remount (opt.toAu w a)).2.Is t' ∧ w.Branches h t'.slots) ∧
      (h.doOptBr st remount (opt.toAu w a)).2.plink = st.plink := by
  cases opt with
  | add new => exact ⟨Host.brAdd_branches ht hb a hopt remount, Host.plink_brAdd ht _ _ _⟩
  | append perm nd =>
    exact ⟨@Host.brAdd_branches h w st t ht hb a ⟨st.siBend + 1, perm, nd⟩ hopt remount,
      Host.plink_brAdd ht _ _ _⟩
  | prepend perm nd =>
    exact ⟨@Host.brAdd_branches h w st t ht hb a ⟨0, perm, nd⟩ hopt remount,
      Host.plink_brAdd ht _ _ _⟩
  | del hRoot => exact ⟨Host.brDel_branches ht hb _ hRoot remount, Host.plink_brDel _ _ _⟩
  | mod hRoot perm => exact ⟨Host.brMod_branches ht hb _ hRoot perm remount, plink_brMod _ _ _ _⟩
  | _ => exact ⟨⟨t, ht, hb⟩, rfl⟩

end

-- ---------------------------------------------------------------------------
-- Every run
-- ---------------------------------------------------------------------------

section

variable (h : Host) (c : OptConf) (w : Namei)

/-- The states that mounts and remounts by text lead to, whatever fails on the way. Between
two of them other activity may change everything but the table and the flag for pseudo-links. -/
inductive MountedAufs.Reach : MountedAufs → Prop
  | mount (e : Host.MountEnv) (ans : Nat → OptAnswers) (data : List Char)
      (hok : (aufsFillSuper h c w e ans data).1 = .ok ()) : Reach (aufsFillSuper h c w e ans data).2
  | remount {m : MountedAufs} (e : Int → InitWhEnv) (ans : Nat → OptAnswers) (data : List Char) :
      Reach m → Reach (aufsRemountFs h c w e ans data m).2
  | other {m : MountedAufs} {st : Sbinfo} : Reach m → m.st.SameTable st →
      st.plink = m.st.plink → Reach ⟨st, m.flags⟩

/-- Flags that the build offers. -/
structure SiFlags.Good (f : SiFlags) : Prop where
  rdcache : ∃ n, f.siRdcache = Aufs.siRdcache c.hz n
  inotify : f.udba = .inotify → c.hinotify = true
  dlgt : f.dlgt = true → c.dlgt = true

/-- What holds in every such state. -/
structure MountedAufs.Good (m : MountedAufs) : Prop where
  branches : ∃ t : BrList h, m.st.Is t ∧ w.Branches h t.slots
  nonempty : 0 ≤ m.st.siBend
  plink : m.st.plink = true → c.plink = true
  flags : m.flags.Good c

end

section

variable {h : Host} {c : OptConf} {w : Namei}

theorem OptConf.good_defFlags : c.defFlags.Good c := ⟨⟨rdcacheDef, rfl⟩, nofun, nofun⟩

theorem SiFlags.Good.doOptSimple {f : SiFlags} (hf : f.Good c) {opt : Opt} (ho : opt.Offered c w) :
    (f.doOptSimple c.hz opt).Good c := by
  cases opt with
  | udba level => exact ⟨hf.rdcache, ho, hf.dlgt⟩
  | dlgt => exact ⟨hf.rdcache, hf.inotify, fun _ => ho⟩
  | nodlgt => exact ⟨hf.rdcache, hf.inotify, nofun⟩
  | rdcache n => exact ⟨⟨n, rfl⟩, hf.inotify, hf.dlgt⟩
  | _ => exact ⟨hf.rdcache, hf.inotify, hf.dlgt⟩

theorem SiFlags.Good.foldl {opts : List Opt} (hopts : ∀ o ∈ opts, o.Offered c w) {f : SiFlags}
    (hf : f.Good c) : (opts.foldl (SiFlags.doOptSimple c.hz) f).Good c := by
  induction opts generalizing f with
  | nil => exact hf
  | cons o opts ih =>
    obtain ⟨ho, htail⟩ := List.forall_mem_cons.mp hopts
    exact ih htail (hf.doOptSimple ho)

/-- What an option does to the flag for pseudo-links. -/
def Opt.setPlink (plink : Bool) : Opt → Bool
  | .plink => true
  | .noplink => false
  | _ => plink

/-- The first loop of a mount sets nothing but the flag for pseudo-links. -/
theorem foldl_doOptSimple (opts : List Opt) (ans : Nat → OptAnswers) (st : Sbinfo) :
    (opts.mapIdx fun i opt => opt.toAu w (ans i)).foldl (fun st o => (doOptSimple st o).2) st =
      { st with plink := opts.foldl Opt.setPlink st.plink } := by
  induction opts generalizing st ans with
  | nil => rfl
  | cons o opts ih =>
    rw [List.mapIdx_cons, List.foldl_cons, List.foldl_cons]
    have hnext := ih fun i => ans (i + 1)
    cases o with
    | plink => exact hnext { st with plink := true }
    | noplink => exact hnext { st with plink := false }
    | _ => exact hnext st

/-- The flag is set only if the build has pseudo-links. -/
theorem foldl_setPlink {opts : List Opt} (hopts : ∀ o ∈ opts, o.Offered c w) {plink : Bool}
    (hplink : plink = true → c.plink = true) :
    opts.foldl Opt.setPlink plink = true → c.plink = true := by
  induction opts generalizing plink with
  | nil => exact hplink
  | cons o opts ih =>
    obtain ⟨ho, htail⟩ := List.forall_mem_cons.mp hopts
    rw [List.foldl_cons]
    cases o with
    | plink => exact ih htail fun _ => ho
    | noplink => exact ih htail nofun
    | _ => exact ih htail hplink

/-- The loop over the branch options of a mount. -/
theorem Host.mountBrs_branches {opts : List Opt} (hopts : ∀ o ∈ opts, o.Offered c w)
    (ans : Nat → OptAnswers) {st : Sbinfo} {t : BrList h} (ht : st.Is t) (hb : w.Branches h t.slots) :
    (∃ t' : BrList h, (h.mountBrs (opts.mapIdx fun i opt => opt.toAu w (ans i)) st).2.Is t' ∧
        w.Branches h t'.slots) ∧
      (h.mountBrs (opts.mapIdx fun i opt => opt.toAu w (ans i)) st).2.plink = st.plink := by
  induction opts generalizing st t ans with
  | nil => exact ⟨⟨t, ht, hb⟩, rfl⟩
  | cons o opts ih =>
    obtain ⟨ho, htail⟩ := List.forall_mem_cons.mp hopts
    rw [List.mapIdx_cons, Host.mountBrs]
    obtain ⟨⟨t', ht', hb'⟩, hplink⟩ := Host.doOptBr_branches ht hb ho (ans 0) false
    generalize h.doOptBr st false (o.toAu w (ans 0)) = r at *
    obtain ⟨r, st₁⟩ := r
    split
    case h_1 heq =>
      obtain ⟨-, rfl⟩ := Prod.mk.injEq .. ▸ heq
      exact ⟨⟨t', ht', hb'⟩, hplink⟩
    case h_2 heq =>
      obtain ⟨-, rfl⟩ := Prod.mk.injEq .. ▸ heq
      obtain ⟨hex, hplink'⟩ := ih htail (fun i => ans (i + 1)) ht' hb'
      exact ⟨hex, hplink'.trans hplink⟩

/-- What comes after the branches leaves table and pseudo-links of a mount alone. -/
theorem Host.doOptsMount_after {e : Host.MountEnv} {opts : List AuOpt} {st st₀ st' : Sbinfo}
    (hfold : opts.foldl (fun st o => (doOptSimple st o).2) st = st₀)
    (hok : h.doOptsMount e opts st = (.ok (), st')) :
    (h.mountBrs opts { st₀ with xino := false }).2.SameTable st' ∧ 0 ≤ st'.siBend ∧
      st'.plink = (h.mountBrs opts { st₀ with xino := false }).2.plink := by
  rw [Host.doOptsMount, hfold] at hok
  generalize h.mountBrs opts { st₀ with xino := false } = r at *
  obtain ⟨r, st₁⟩ := r
  cases r with
  | error err => cases hok
  | ok u =>
    dsimp only at hok ⊢
    split at hok
    · cases hok
    rename_i hbend
    have hxinos := Host.sameRest_mountXinos (h := h) opts false { st₁ with xino := st₀.xino }
    generalize h.mountXinos opts false { st₁ with xino := st₀.xino } = q at *
    obtain ⟨q, st₂⟩ := q
    cases q with
    | error err => cases hok
    | ok optXino =>
      dsimp only at hok hxinos
      have hverify := (@verifyOpts_spec st₂ e.verify).1
      have hplink := plink_verifyLoop e.verify (bindexes 0 st₂.siBend) st₂
      rw [← verifyOpts] at hplink
      generalize verifyOpts e.verify st₂ = p at *
      obtain ⟨p, st₃⟩ := p
      cases p with
      | error err => cases hok
      | ok u =>
        dsimp only at hok hverify hplink
        have henable := @Host.sameRest_enableXino h st₃ e optXino
        rw [hok] at henable
        have htable := ((Sbinfo.sameTable_xino st₀.xino).trans hxinos.sameTable).trans
          (hverify.trans henable.sameTable)
        refine ⟨htable, ?_, (henable.plink.trans hplink).trans hxinos.plink⟩
        rw [htable.siBend]
        exact Int.not_lt.mp hbend

/-- A mount that succeeds. -/
theorem MountedAufs.good_mount {e : Host.MountEnv} {ans : Nat → OptAnswers} {data : List Char}
    (hok : (aufsFillSuper h c w e ans data).1 = .ok ()) : (aufsFillSuper h c w e ans data).2.Good h c w := by
  rw [aufsFillSuper] at hok ⊢
  split at hok
  · cases hok
  rename_i hdata
  rw [if_neg hdata]
  cases hparse : auParseOpts h c w data with
  | error err =>
    rw [hparse] at hok
    cases hok
  | ok opts =>
    rw [hparse] at hok
    have hopts := auParseOpts_offered hparse
    dsimp only at hok ⊢
    rw [auDoOptsMount] at hok ⊢
    have hplink := @foldl_setPlink c w opts hopts c.plink fun hp => hp
    have hfold := foldl_doOptSimple (w := w) opts ans c.empty.st
    obtain ⟨⟨t, ht, hb⟩, hkeep⟩ := @Host.mountBrs_branches h c w opts hopts ans _ _
      (Sbinfo.is_init h false (opts.foldl Opt.setPlink c.plink)) (Namei.Branches.nil w h)
    cases hmount : h.doOptsMount e (opts.mapIdx fun i opt => opt.toAu w (ans i)) c.empty.st with
    | mk r st =>
      rw [hmount] at hok
      cases r with
      | error err => cases hok
      | ok u =>
        obtain ⟨htable, hne, hlast⟩ := Host.doOptsMount_after hfold hmount
        refine ⟨⟨t, ht.sameTable htable, hb⟩, hne, fun hp => hplink ?_,
          SiFlags.Good.foldl hopts OptConf.good_defFlags⟩
        exact ((hlast.trans hkeep).symm.trans hp)

theorem Host.remountOpt_good {m : MountedAufs} (hm : m.Good h c w) {o : Opt} (ho : o.Offered c w)
    (a : OptAnswers) :
    (⟨(h.remountOpt m.st (o.toAu w a)).2, m.flags.doOptSimple c.hz o⟩ : MountedAufs).Good h c w := by
  obtain ⟨t, ht, hb⟩ := hm.branches
  have hflags := hm.flags.doOptSimple ho
  obtain ⟨hbr, hplink⟩ := Host.doOptBr_branches ht hb ho a true
  have hbend := Host.nonempty_doOptBr ht hm.nonempty true (o.toAu w a)
  have hxino := @Host.sameRest_doOptXino h m.st true (o.toAu w a)
  have htable : ∀ {st : Sbinfo}, m.st.SameTable st → (st.plink = true → c.plink = true) →
      (⟨st, m.flags.doOptSimple c.hz o⟩ : MountedAufs).Good h c w := by
    intro st hs hp
    refine ⟨⟨t, ht.sameTable hs, hb⟩, ?_, hp, hflags⟩
    rw [hs.siBend]
    exact hm.nonempty
  have hrest : ∀ {st : Sbinfo}, m.st.SameRest st →
      (⟨st, m.flags.doOptSimple c.hz o⟩ : MountedAufs).Good h c w :=
    fun hs => htable hs.sameTable fun hp => hm.plink (hs.plink.symm.trans hp)
  cases o with
  | add new => exact ⟨hbr, hbend, fun hp => hm.plink (hplink.symm.trans hp), hflags⟩
  | append perm nd => exact ⟨hbr, hbend, fun hp => hm.plink (hplink.symm.trans hp), hflags⟩
  | prepend perm nd => exact ⟨hbr, hbend, fun hp => hm.plink (hplink.symm.trans hp), hflags⟩
  | del hRoot => exact ⟨hbr, hbend, fun hp => hm.plink (hplink.symm.trans hp), hflags⟩
  | mod hRoot perm => exact ⟨hbr, hbend, fun hp => hm.plink (hplink.symm.trans hp), hflags⟩
  | xino place => exact hrest hxino
  | noxino => exact hrest hxino
  | plink => exact htable ⟨rfl, rfl, rfl, rfl, rfl, rfl, rfl, rfl, rfl, rfl⟩ fun _ => ho
  | noplink => exact htable ⟨rfl, rfl, rfl, rfl, rfl, rfl, rfl, rfl, rfl, rfl⟩ nofun
  | _ => exact hrest (.refl m.st)

theorem remountLoop_good {opts : List Opt} (hopts : ∀ o ∈ opts, o.Offered c w)
    (ans : Nat → OptAnswers) {m : MountedAufs} (hm : m.Good h c w) :
    (remountLoop h c w (opts.mapIdx fun i opt => (opt, ans i)) m).2.Good h c w := by
  induction opts generalizing m ans with
  | nil => exact hm
  | cons o opts ih =>
    obtain ⟨ho, htail⟩ := List.forall_mem_cons.mp hopts
    rw [List.mapIdx_cons, remountLoop]
    have hone := Host.remountOpt_good hm ho (ans 0)
    split
    case h_1 hr =>
      rw [hr] at hone
      exact hone
    case h_2 hr =>
      rw [hr] at hone
      exact ih htail (fun i => ans (i + 1)) hone

/-- A remount, whether it succeeds or not. -/
theorem MountedAufs.Good.remount {m : MountedAufs} (hm : m.Good h c w) (e : Int → InitWhEnv)
    (ans : Nat → OptAnswers) (data : List Char) : (aufsRemountFs h c w e ans data m).2.Good h c w := by
  rw [aufsRemountFs]
  split
  · exact hm
  cases hparse : auParseOpts h c w data with
  | error err => exact hm
  | ok opts =>
    have hloop := remountLoop_good (auParseOpts_offered hparse) ans hm
    dsimp only
    rw [auDoOptsRemount]
    split
    case h_1 hr =>
      rw [hr] at hloop
      exact hloop
    case h_2 r m₁ _ hr =>
      rw [hr] at hloop
      obtain ⟨t, ht, hb⟩ := hloop.branches
      have htable := (@verifyOpts_spec m₁.st e).1
      refine ⟨⟨t, ht.sameTable htable, hb⟩, ?_, fun hp => hloop.plink ?_, hloop.flags⟩
      · rw [htable.siBend]
        exact hloop.nonempty
      · exact (plink_verifyLoop e _ m₁.st).symm.trans hp

/-- Every state that mounts and remounts lead to. -/
theorem MountedAufs.Reach.good {m : MountedAufs} (hr : m.Reach h c w) : m.Good h c w := by
  induction hr with
  | mount e ans data hok => exact MountedAufs.good_mount hok
  | remount e ans data _ ih => exact ih.remount e ans data
  | other _ hs hplink ih =>
    obtain ⟨t, ht, hb⟩ := ih.branches
    refine ⟨⟨t, ht.sameTable hs, hb⟩, ?_, fun hp => ih.plink (hplink.symm.trans hp), ih.flags⟩
    rw [hs.siBend]
    exact ih.nonempty

end

end Aufs
