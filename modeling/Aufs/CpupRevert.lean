-- SUMMARY: What a failed copy-up leaves of the dentry: as it was, if the destination lies above all its slots.
import Aufs.CopyUp

/-!
# The revert of a copy-up

`cpup_simple` enters the negative hidden dentry, copies, and on an error takes the slot back
and sets the start to the source of the copy. The source is the old start only for a dentry
that has nothing above the destination.
-/

namespace Aufs

open Prog Op

variable {m : Mount} {sb : SuperBlock} {p : Path} {bdst bsrc : Int}

-- ---------------------------------------------------------------------------
-- The dentry
-- ---------------------------------------------------------------------------

/-- Only the slot `b` of the dentry `p` may differ. -/
def Mount.OnlySlot (m m' : Mount) (p : Path) (b : Int) : Prop :=
  ∃ x, m'.di = (m.setDi p ((m.di p).setHDptr b x)).di

theorem Mount.OnlySlot.refl (m : Mount) (p : Path) (b : Int) : m.OnlySlot m p b := by
  refine ⟨(m.di p).hdentry b, ?_⟩
  rw [Dinfo.setHDptr, Function.update_eq_self]
  exact (Function.update_eq_self p m.di).symm

theorem Mount.OnlySlot.trans {m₁ m₂ : Mount} (h : m.OnlySlot m₁ p bdst) (h' : m₁.OnlySlot m₂ p bdst) :
    m.OnlySlot m₂ p bdst := by
  obtain ⟨x, hx⟩ := h
  obtain ⟨y, hy⟩ := h'
  refine ⟨y, ?_⟩
  rw [hy]
  simp [hx, Dinfo.setHDptr]

theorem Mount.OnlySlot.others {m' : Mount} (h : m.OnlySlot m' p bdst) {q : Path} (hq : q ≠ p) :
    m'.di q = m.di q := by
  obtain ⟨x, hx⟩ := h
  rw [hx]
  exact Function.update_of_ne hq ..

/-- A program that changes no dentry but at one slot. -/
def Op.Only {α : Type} (x : Op α) (p : Path) (b : Int) : Prop :=
  ∀ m, wp x (fun _ m' => m.OnlySlot m' p b) (fun _ m' => m.OnlySlot m' p b) m

namespace Op.Only

variable {α β : Type} {x : Op α} {f : α → Op β}

theorem of_di (h : ∀ m, (x m).2.di = m.di) : Op.Only x p bdst := by
  intro m
  have hsame : ∀ {m' : Mount}, m'.di = m.di → m.OnlySlot m' p bdst := by
    intro m' hdi
    obtain ⟨y, hy⟩ := Mount.OnlySlot.refl m p bdst
    exact ⟨y, hdi.trans hy⟩
  refine .intro (fun a t hx => hsame ?_) fun e t hx => hsame ?_
  · rw [← h m, hx]
  · rw [← h m, hx]

theorem bind (hx : Op.Only x p bdst) (hf : ∀ a, Op.Only (f a) p bdst) :
    Op.Only (x >>= f) p bdst := by
  intro m
  refine wp_bind.mpr ((hx m).mono (fun a m₁ h₁ => ?_) fun _ _ h => h)
  exact (hf a m₁).mono (fun _ _ h => h₁.trans h) fun _ _ h => h₁.trans h

theorem attempt (hx : Op.Only x p bdst) : Op.Only (Prog.attempt x) p bdst := fun m =>
  wp_attempt.mpr ((hx m).mono (fun _ _ h => h) fun _ _ h => h)

theorem onWorld (f : World → Except Errno α × World) : Op.Only (Op.onWorld f) p bdst := by
  refine of_di fun m => ?_
  unfold Op.onWorld
  split <;> rfl

theorem refuse (e : Errno) : Op.Only (Op.refuse e : Op α) p bdst := of_di fun _ => rfl

theorem ret (a : α) : Op.Only (pure a : Op α) p bdst := of_di fun _ => rfl

theorem fail (e : Errno) : Op.Only (Prog.fail e : Op α) p bdst := of_di fun _ => rfl

theorem hDptrI (q : Path) (b : Int) : Op.Only (Op.hDptrI q b) p bdst := by
  refine bind (of_di fun _ => rfl) fun d => ?_
  split
  · exact refuse _
  · exact ret _

theorem inodeOf (h : HDentry) : Op.Only (Op.inodeOf h) p bdst := by
  unfold Op.inodeOf
  split
  · exact refuse _
  · exact ret _

theorem touch : Op.Only (Prog.update fun m : Mount => m.touch p bdst : Op Unit) p bdst :=
  fun _ => wp_update.mpr ⟨_, rfl⟩

end Op.Only

theorem only_cpupEntry : Op.Only (cpupEntry p bdst bsrc) p bdst := by
  refine .bind (.hDptrI _ _) fun s => .bind (.inodeOf s) fun i => .bind (.hDptrI _ _) fun d => ?_
  split
  · refine .bind (.onWorld _) fun _ => .bind (.attempt (.onWorld _)) fun r => ?_
    split
    · exact .ret _
    · refine .bind (.attempt (.onWorld _)) fun r => ?_
      split <;> exact .fail _
  · exact .bind (.onWorld _) fun _ => .bind (.onWorld _) fun _ => .onWorld _
  · exact .onWorld _

theorem only_cpupNew : Op.Only (cpupNew p bdst bsrc) p bdst := by
  refine .bind only_cpupEntry fun _ => .bind .touch fun _ => .bind (.hDptrI _ _) fun d => ?_
  refine .bind (.inodeOf d) fun i => .bind (.attempt (.onWorld _)) fun r => ?_
  split
  · exact .of_di fun _ => rfl
  · refine .bind (.attempt ?_) fun r => ?_
    · split <;> exact .onWorld _
    · split <;> exact .fail _

/-- `cpup_single` changes no dentry but at the slot of the destination. -/
theorem only_cpupSingle : Op.Only (cpupSingle sb p bdst bsrc) p bdst := by
  refine .bind (.of_di fun _ => rfl) fun m => ?_
  split
  · exact only_cpupNew
  · split
    · exact .refuse _
    refine .bind (.hDptrI _ _) fun d => ?_
    split
    · refine .bind (.bind (.of_di fun _ => rfl) fun m => ?_) fun s => .bind (.onWorld _) fun _ => .touch
      split
      · exact .refuse _
      · exact .onWorld _
    · exact only_cpupNew

/-- The slot `b` of the dentry `p` is positive, and nothing else of it differs. -/
def Mount.Filled (m m' : Mount) (p : Path) (b : Int) : Prop :=
  ∃ h : HDentry, h.positive ∧ m'.di = (m.setDi p ((m.di p).setHDptr b (some h))).di

/-- A lookup of a pseudo-link changes no file and no dentry. -/
theorem wp_lkupPlink {i : HInode} {Q : HDentry → Mount → Prop} {E : Errno → Mount → Prop}
    (hok : ∀ h w k, w.fs = m.w.fs → Q h (m.withWorld w k))
    (herr : ∀ e w k, w.fs = m.w.fs → E e (m.withWorld w k)) : wp (lkupPlink sb p bdst i) Q E m := by
  refine wp_bind.mpr (wp_state.mpr ?_)
  cases sb.stobr bdst with
  | none => exact wp_refuse.mpr (herr _ m.w _ rfl)
  | some br => exact wp_lkupOne (fun w hw => hok _ w m.fails hw) fun e w hw => herr e w _ hw

/-- `cpup_single` changes the slot of the destination only, and makes it positive. -/
theorem wp_cpupSingle_di {s d : HDentry} {i : HInode} (hsrc : (m.di p).hDptrI bsrc = some s)
    (hi : s.inode = some i) (hdst : (m.di p).hDptrI bdst = some d) :
    wp (cpupSingle sb p bdst bsrc) (fun _ m' => m.Filled m' p bdst)
      (fun _ m' => m.OnlySlot m' p bdst) m := by
  have hnew : wp (cpupNew p bdst bsrc) (fun _ m' => m.Filled m' p bdst)
      (fun _ m' => m.OnlySlot m' p bdst) m := by
    refine wp_cpupNew hsrc hi hdst (fun w k j _ _ _ _ _ => ⟨d.filled j, rfl, rfl⟩) ?_
    exact fun _ _ _ _ hdi _ => hdi
  have hsame : ∀ (w : World) (k : Nat), m.OnlySlot (m.withWorld w k) p bdst := fun w k =>
    Mount.OnlySlot.refl m p bdst
  refine wp_bind.mpr (wp_state.mpr ?_)
  cases hhi : m.hi p bdst with
  | none => exact hnew
  | some i =>
    dsimp only
    refine wp_ite.mpr ⟨fun _ => wp_refuse.mpr (hsame _ _), fun _ => ?_⟩
    refine wp_bind.mpr (wp_hDptrI (fun h hh => ?_) fun hno => by simp [hdst] at hno)
    obtain rfl := Option.some.inj (hdst.symm.trans hh)
    refine wp_ite.mpr ⟨fun _ => ?_, fun _ => hnew⟩
    -- the second name of an inode
    refine wp_bind.mpr (wp_lkupPlink (fun hs w k hw => ?_) fun e w k _ => hsame w k)
    refine wp_bind.mpr (wp_vfsubLink (fun w' j _ _ _ _ _ _ hsets => wp_update.mpr ?_)
      fun e w' _ => hsame w' _)
    have hnode : (w'.fs d.root).node d.path = some j := by
      have := hsets d.root d.path
      rwa [if_pos ⟨rfl, rfl⟩] at this
    refine ⟨d.filled j, rfl, ?_⟩
    simp [Mount.touch, Mount.withWorld, hdentry_of_hDptrI hdst, hnode, HDentry.filled]

-- ---------------------------------------------------------------------------
-- Success and revert
-- ---------------------------------------------------------------------------

/-- The same mount with other failures to come. -/
def Mount.withFault (m : Mount) (fault : Nat → Option Errno) : Mount := { m with w := { m.w with fault } }

/-- The slot of the destination is new and positive, the range covers it, and nothing else
has changed. -/
structure Mount.Extended (m m' : Mount) (p : Path) (b : Int) : Prop where
  dentry : ∃ h : HDentry, h.positive ∧ m'.di p = { m.di p with
    bstart := min (m.di p).bstart b
    bend := max (m.di p).bend b
    hdentry := Function.update (m.di p).hdentry b (some h) }
  others : ∀ q, q ≠ p → m'.di q = m.di q

/-- The slots of the dentry and their range are as they were. -/
structure Mount.SameSlots (m m' : Mount) (p : Path) : Prop where
  hdentry : (m'.di p).hdentry = (m.di p).hdentry
  bstart : (m'.di p).bstart = (m.di p).bstart
  bend : (m'.di p).bend = (m.di p).bend

/-- Whatever fails, `cpup_simple` extends the dentry by the destination or leaves it alone. -/
def CpupSimpleKeeps (sb : SuperBlock) (m : Mount) (p : Path) (bdst : Int) : Prop :=
  ∀ fault, wp (cpupSimple sb p bdst) (fun _ m' => m.Extended m' p bdst) (fun _ m' => m.SameSlots m' p)
    (m.withFault fault)

/-- The slot that `cpup_simple` copies from, as its assertions and those of `cpup_single` have
it: there, and positive. -/
def Dinfo.HasSource (d : Dinfo) (b : Int) : Prop :=
  ∃ s i, d.hDptrI (cpupSrc d b) = some s ∧ s.inode = some i

/-- The lookup on the destination can give a negative hidden dentry: the parent is there, and
the name can be looked up and is not taken. -/
def Mount.CanEnter (m : Mount) (p : Path) (b : Int) : Prop :=
  ∃ hp, (m.di (dParent p)).hDptrI b = some hp ∧ (dName p).length ≤ nameMax ∧
    m.w.node hp.root (hp.path ++ [dName p]) = none

theorem Dinfo.HasSource.range {d : Dinfo} (h : d.HasSource bdst) (hd : d.Ends) :
    bdst < cpupSrc d bdst ∧ cpupSrc d bdst ≤ d.bend := by
  obtain ⟨s, i, hs, -⟩ := h
  have hfill : (d.hdentry (cpupSrc d bdst)).isSome := by
    rw [hdentry_of_hDptrI hs]
    rfl
  have hle := (hd.range _ hfill).2
  refine ⟨?_, hle⟩
  unfold cpupSrc at hle ⊢
  cases hf : (bindexes (bdst + 1) d.bend).find? fun c => (d.hDptrI c).isSome with
  | none =>
    rw [hf, Option.getD_none] at hle
    omega
  | some c =>
    obtain ⟨-, hc, -⟩ := find?_bindexes.mp hf
    show bdst < c
    omega

/-- Above all slots the source is the old start. -/
theorem Dinfo.Ends.cpupSrc_eq {d : Dinfo} (hd : d.Ends) (hb : bdst < d.bstart) :
    cpupSrc d bdst = d.bstart := by
  obtain ⟨-, ⟨h, hh⟩, hfirst⟩ := cpupSrc_spec hd hb hd.start
  have hle := (hd.range _ (by rw [hh]; rfl)).1
  by_contra hne
  have hnone := hfirst d.bstart hb (by omega)
  have hstart := hd.start
  rw [hnone] at hstart
  cases hstart

theorem wp_lkupNeg_canEnter : wp (Op.lkupNeg p bdst) (fun _ _ => m.CanEnter p bdst) (fun _ _ => True) m := by
  refine wp_onDentry (fun _ d w hl => ?_) fun _ _ _ _ => trivial
  unfold Aufs.lkupNeg at hl
  split at hl
  · simp at hl
  rename_i hp hhp
  split at hl
  · simp at hl
  rename_i h w' hone
  split at hl
  · simp at hl
  rename_i hneg
  refine ⟨hp, hhp, ?_, ?_⟩
  · unfold Aufs.lkupOne at hone
    split at hone
    · simp at hone
    · split at hone
      · simp at hone
      · omega
  · obtain ⟨rfl, -⟩ := lkupOne_ok hone
    simpa [HDentry.positive, World.node] using hneg

/-- One run of `cpup_simple`: the range is extended, or the start is the source. -/
theorem wp_cpupSimple (hd : (m.di p).Ends) (hsrc : (m.di p).HasSource bdst) (hb0 : 0 ≤ bdst) :
    wp (cpupSimple sb p bdst) (fun _ m' => m.Extended m' p bdst)
      (fun _ m' => m.SameSlots m' p ∨ m.CanEnter p bdst ∧ m'.di p = { m.di p with
        bstart := cpupSrc (m.di p) bdst
        hdentry := Function.update (m.di p).hdentry bdst none }) m := by
  obtain ⟨hlt, hle⟩ := hsrc.range hd
  obtain ⟨s, i, hs, hi⟩ := hsrc
  have hn0 := hd.nonneg
  refine wp_bind.mpr (wp_dinfo.mpr (wp_bind.mpr ?_))
  have hlkup : wp (Op.lkupNeg p bdst) (fun _ m' => m.CanEnter p bdst ∧
      ∃ (hp : HDentry) (w : World), m' = ({ m with w }.setDi p { m.di p with
        bstart := if bdst < (m.di p).bstart then bdst else (m.di p).bstart
        bend := if (m.di p).bend < bdst then bdst else (m.di p).bend
        hdentry := Function.update (m.di p).hdentry bdst (some (hp.negative (dName p))) }))
      (fun _ m' => m.SameSlots m' p) m := by
    refine (wp_lkupNeg_canEnter.and (wp_lkupNeg (fun hp w _ _ _ => ⟨hp, w, rfl⟩)
      fun e w _ => ⟨rfl, rfl, rfl⟩)).mono (fun _ _ h => h) fun _ _ h => h.2
  refine hlkup.mono ?_ fun _ _ h => .inl h
  rintro _ _ ⟨hcan, hp, w, rfl⟩
  generalize hd1 : ({ m.di p with
    bstart := if bdst < (m.di p).bstart then bdst else (m.di p).bstart
    bend := if (m.di p).bend < bdst then bdst else (m.di p).bend
    hdentry := Function.update (m.di p).hdentry bdst (some (hp.negative (dName p))) } : Dinfo) = d1
  have hstart : 0 ≤ d1.bstart ∧ d1.bstart ≤ bdst := by
    subst hd1
    dsimp only
    split <;> omega
  have hdst : d1.hDptrI bdst = some (hp.negative (dName p)) := by
    rw [Dinfo.hDptrI_of_le hstart.1 hstart.2, ← hd1]
    exact Function.update_self ..
  have hsrc : d1.hDptrI (cpupSrc (m.di p) bdst) = some s := by
    rw [Dinfo.hDptrI_of_le hstart.1 (by omega), ← hd1, ← hdentry_of_hDptrI hs]
    exact Function.update_of_ne (by omega) ..
  refine wp_bind.mpr (wp_attempt.mpr ((wp_cpupSingle_di (d := hp.negative (dName p)) (s := s) (i := i)
    ?_ hi ?_).mono ?_ ?_))
  · simpa using hsrc
  · simpa using hdst
  · -- the copy is there
    rintro _ m' ⟨h, hpos, hdi⟩
    refine wp_pure.mpr ⟨⟨h, hpos, ?_⟩, fun q hq => ?_⟩
    · rw [hdi]
      simp only [Mount.setDi_di, Function.update_self, Dinfo.setHDptr, ← hd1, Function.update_idem,
        Dinfo.mk.injEq, and_true]
      constructor
      · split <;> omega
      · split <;> omega
    · rw [hdi]
      simp [Function.update_of_ne hq]
  · -- the revert
    rintro e m' ⟨x, hdi⟩
    refine wp_bind.mpr (wp_onDinfo.mpr (wp_fail.mpr (.inr ⟨hcan, ?_⟩)))
    rw [Mount.setDi_di, Function.update_self, hdi]
    simp only [Mount.setDi_di, Function.update_self, Dinfo.setHDptr, ← hd1, Function.update_idem,
      Dinfo.mk.injEq, and_true, true_and]
    rw [if_neg (by omega)]

-- ---------------------------------------------------------------------------
-- When everything fails
-- ---------------------------------------------------------------------------

/-- Every call fails from now on. -/
def World.Dead (w : World) : Prop := ∀ t, w.tick ≤ t → (w.fault t).isSome

theorem World.Dead.ask {w : World} (hw : w.Dead) : ∃ e, w.ask = (some e, w.next) := by
  obtain ⟨e, he⟩ := Option.isSome_iff_exists.mp (hw w.tick (Nat.le_refl _))
  exact ⟨e, by rw [World.ask, he]⟩

theorem wp_vfsubMake_dead (hm : m.w.Dead) (h : HDentry) (mode : FType) (data : Nat) :
    wp (vfsubMake h mode data) (fun _ _ => False) (fun _ _ => True) m := by
  refine wp_onWorld (fun _ w hc => ?_) fun _ _ _ => trivial
  obtain ⟨e, he⟩ := hm.ask
  simp [World.call, he] at hc

theorem wp_lkupPlink_dead (hm : m.w.Dead) (i : HInode) :
    wp (lkupPlink sb p bdst i) (fun _ _ => False) (fun _ _ => True) m := by
  refine wp_bind.mpr (wp_state.mpr ?_)
  cases sb.stobr bdst with
  | none => exact wp_refuse.mpr trivial
  | some br =>
    refine wp_onWorld (fun _ w hl => ?_) fun _ _ _ => trivial
    obtain ⟨e, he⟩ := hm.ask
    simp [Aufs.lkupOne, he] at hl

theorem wp_cpupEntry_dead (hm : m.w.Dead) :
    wp (cpupEntry p bdst bsrc) (fun _ _ => False) (fun _ _ => True) m := by
  refine wp_bind.mpr (wp_hDptrI (fun s _ => ?_) fun _ => trivial)
  refine wp_bind.mpr (wp_inodeOf (fun i _ => ?_) fun _ => trivial)
  refine wp_bind.mpr (wp_hDptrI (fun d _ => ?_) fun _ => trivial)
  cases i.mode
  case reg => exact wp_bind.mpr ((wp_vfsubMake_dead hm d .reg i.data).mono (fun _ _ => False.elim) fun _ _ h => h)
  case lnk =>
    refine wp_bind.mpr (wp_onWorld (fun _ w hk => ?_) fun _ _ _ => trivial)
    obtain ⟨e, he⟩ := hm.ask
    simp [he] at hk
  all_goals exact wp_vfsubMake_dead hm d _ i.data

theorem wp_cpupSingle_dead (hm : m.w.Dead) :
    wp (cpupSingle sb p bdst bsrc) (fun _ _ => False) (fun _ _ => True) m := by
  have hnew : wp (cpupNew p bdst bsrc) (fun _ _ => False) (fun _ _ => True) m :=
    wp_bind.mpr ((wp_cpupEntry_dead hm).mono (fun _ _ => False.elim) fun _ _ h => h)
  refine wp_bind.mpr (wp_state.mpr ?_)
  cases m.hi p bdst with
  | none => exact hnew
  | some i =>
    dsimp only
    refine wp_ite.mpr ⟨fun _ => wp_refuse.mpr trivial, fun _ => ?_⟩
    refine wp_bind.mpr (wp_hDptrI (fun d _ => ?_) fun _ => trivial)
    refine wp_ite.mpr ⟨fun _ => ?_, fun _ => hnew⟩
    exact wp_bind.mpr ((wp_lkupPlink_dead hm i).mono (fun _ _ => False.elim) fun _ _ h => h)

/-- Only the first call succeeds. -/
def Mount.lastCall (m : Mount) : Nat → Option Errno := fun t => if t = m.w.tick then none else some Errno.EIO

/-- If all fails behind the lookup, the start is the source. -/
theorem not_cpupSimpleKeeps (hd : (m.di p).Ends) (hsrc : (m.di p).HasSource bdst)
    (hcan : m.CanEnter p bdst) (hb : (m.di p).bstart ≤ bdst) : ¬CpupSimpleKeeps sb m p bdst := by
  intro hkeeps
  obtain ⟨hlt, -⟩ := hsrc.range hd
  obtain ⟨hp, hhp, hname, hnone⟩ := hcan
  have hrun := hkeeps m.lastCall
  have hrun := wp_bind.mp (wp_dinfo.mp (wp_bind.mp hrun))
  -- the lookup is the one call that works
  have hask : (m.withFault m.lastCall).w.ask = (none, (m.withFault m.lastCall).w.next) := by
    simp [World.ask, Mount.withFault, Mount.lastCall]
  have hlkup : ∃ d, Op.lkupNeg p bdst (m.withFault m.lastCall) = (.ok (),
      { m.withFault m.lastCall with w := (m.withFault m.lastCall).w.next }.setDi p d) := by
    have hneg : ((m.withFault m.lastCall).w.next.fs hp.root).node (hp.path ++ [dName p]) = none := hnone
    have hhp' : ((m.withFault m.lastCall).di (dParent p)).hDptrI bdst = some hp := hhp
    simp only [Op.lkupNeg, onDentry, Aufs.lkupNeg, hhp', Aufs.lkupOne, hask, if_neg (Nat.not_lt.mpr hname),
      hneg, HDentry.positive, Option.isSome_none, Bool.false_eq_true, if_false]
    exact ⟨_, rfl⟩
  obtain ⟨d, hlkup⟩ := hlkup
  have hrun := wp_attempt.mp (wp_bind.mp (hrun.ok hlkup))
  have hdead : (({ m.withFault m.lastCall with w := (m.withFault m.lastCall).w.next } : Mount).setDi p d).w.Dead := by
    intro t ht
    have ht : m.w.tick + 1 ≤ t := ht
    show (m.lastCall t).isSome
    rw [Mount.lastCall, if_neg (by omega)]
    rfl
  have hfail := @wp_cpupSingle_dead _ sb p bdst (cpupSrc ((m.withFault m.lastCall).di p) bdst) hdead
  rcases hx : cpupSingle sb p bdst (cpupSrc ((m.withFault m.lastCall).di p) bdst)
    (({ m.withFault m.lastCall with w := (m.withFault m.lastCall).w.next } : Mount).setDi p d) with ⟨_ | _, m'⟩
  · have hrevert : m.SameSlots _ p := wp_onDinfo.mp (wp_bind.mp (hrun.error hx))
    have hstart := hrevert.bstart
    rw [Mount.setDi_di, Function.update_self] at hstart
    have hstart : cpupSrc (m.di p) bdst = (m.di p).bstart := hstart
    omega
  · exact hfail.ok hx

/-- `cpup_simple` keeps its word exactly if the destination lies above all slots, or its
lookup there cannot find the name missing. -/
theorem cpupSimple_keeps_iff (hd : (m.di p).Ends) (hsrc : (m.di p).HasSource bdst) (hb0 : 0 ≤ bdst) :
    CpupSimpleKeeps sb m p bdst ↔ bdst < (m.di p).bstart ∨ ¬m.CanEnter p bdst := by
  constructor
  · intro hkeeps
    by_contra hno
    rw [not_or, not_not] at hno
    exact not_cpupSimpleKeeps hd hsrc hno.2 (by omega) hkeeps
  · intro hcond fault
    refine (wp_cpupSimple (m := m.withFault fault) hd hsrc hb0).mono
      (fun _ m' h => ⟨h.dentry, h.others⟩) fun e m' h => ?_
    rcases h with h | ⟨hcan, hdi⟩
    · exact ⟨h.hdentry, h.bstart, h.bend⟩
    have hcan : m.CanEnter p bdst := hcan
    have hb := hcond.resolve_right (not_not.mpr hcan)
    have hdi : m'.di p = { m.di p with
        bstart := cpupSrc (m.di p) bdst
        hdentry := Function.update (m.di p).hdentry bdst none } := hdi
    have hslot := hd.eq_none (.inl hb)
    refine ⟨?_, ?_, ?_⟩
    · rw [hdi, ← hslot]
      exact Function.update_eq_self ..
    · rw [hdi]
      exact hd.cpupSrc_eq hb
    · rw [hdi]

-- ---------------------------------------------------------------------------
-- A directory on both sides of the destination
-- ---------------------------------------------------------------------------

/-- A writable branch between two others. -/
def betweenSb : SuperBlock := .ofBranches [.plain 1 .RO, .plain 2 .RW, .plain 3 .RO]

/-- The dentry of the directory `a` of the last branch, and perhaps of the first. -/
def betweenDinfo (above : Bool) : Dinfo where
  bstart := if above then 0 else 2
  bend := 2
  bwh := -1
  bdiropq := -1
  hdentry b :=
    if b = 2 then some ⟨3, [[97]], some ⟨.dir, 3, 1, false⟩⟩
    else if b = 0 ∧ above then some ⟨1, [[97]], some ⟨.dir, 3, 1, false⟩⟩
    else none

private theorem wf_ofList_nil : (Ents.ofList []).Wf (([] : List (Path × FType)).length + 3) := by decide

/-- The root and its branches, which have the directory. -/
def betweenWorld (above : Bool) : World :=
  .ofFs fun root => if root = 3 ∨ root = 1 ∧ above then .ofList [([[97]], .dir)] else .ofList [] wf_ofList_nil

/-- The dentries of the root directory and of `a`. -/
def betweenDi (above : Bool) (p : Path) : Dinfo :=
  if p = [] then rootDinfo betweenSb (betweenWorld above) else betweenDinfo above

/-- A mount with these two directories. -/
def betweenMount (above : Bool) : Mount where
  w := betweenWorld above
  di := betweenDi above
  hi p b := ((betweenDi above p).hdentry b).bind HDentry.inode
  ino _ := 2
  cnt := 0
  fails := 0

theorem ends_betweenDinfo (above : Bool) : (betweenDinfo above).Ends := by
  refine ⟨?_, ?_, rfl, ?_⟩
  · cases above <;> decide
  · cases above <;> decide
  · intro b hb
    simp only [betweenDinfo] at hb ⊢
    by_cases h2 : b = 2
    · subst h2
      split <;> omega
    · rw [if_neg h2] at hb
      split at hb
      case isTrue h0 =>
        rw [h0.1, h0.2]
        decide
      case isFalse => cases hb

/-- A directory that is below the destination only. -/
theorem cpupSimple_keeps_below : CpupSimpleKeeps betweenSb (betweenMount false) [[97]] 1 :=
  (cpupSimple_keeps_iff (ends_betweenDinfo false) ⟨_, _, rfl, rfl⟩ (by decide)).mpr (.inl (by decide))

/-- A directory that is above the destination, too. -/
theorem cpupSimple_not_keeps : ¬∀ (sb : SuperBlock) (m : Mount) (p : Path) (bdst : Int),
    (m.di p).Ends → (m.di p).HasSource bdst → 0 ≤ bdst → CpupSimpleKeeps sb m p bdst := by
  intro hall
  have hends : ((betweenMount true).di [[97]]).Ends := ends_betweenDinfo true
  have hsrc : ((betweenMount true).di [[97]]).HasSource 1 := ⟨_, _, rfl, rfl⟩
  have hcan : (betweenMount true).CanEnter [[97]] 1 := ⟨_, rfl, by decide, by decide⟩
  exact not_cpupSimpleKeeps hends hsrc hcan (by decide) (hall betweenSb _ _ _ hends hsrc (by decide))

end Aufs
