-- SUMMARY: What the operations on hidden files hold: one rule for each function that opens or closes one.
import Mathlib.Algebra.BigOperators.Group.Finset.Basic
import Mathlib.Algebra.Order.BigOperators.Group.Finset
import Mathlib.Algebra.Order.Group.Multiset
import Mathlib.Tactic.Abel
import Aufs.Finfo

/-!
# Rules for hidden files

A filled slot stands for a hidden file and a reference to its branch. Every
function that opens or closes hidden files has one rule: what it holds before
and after are the slots of the file and what it keeps apart from them.
-/

namespace Aufs

open Holder Finset
open Remap (window mem_window)

/-- What a slot holds. -/
def Hfile.own : Option Hfile → Multiset Held
  | none => 0
  | some hf => {.file hf.file.on, .ref hf.br}

/-- What the slots from `lo` to `hi` hold. -/
def slotsOwn (lo hi : Int) (s : Int → Option Hfile) : Multiset Held :=
  ∑ b ∈ window lo hi, Hfile.own (s b)

/-- What a file holds: its slots from `fi_bstart` to `fi_bend`. -/
def Finfo.own (fi : Finfo) : Multiset Held := slotsOwn fi.bstart fi.bend fi.hfile

variable {lo hi lo' hi' b : Int} {s : Int → Option Hfile}

theorem slotsOwn_update (hb : b ∈ window lo hi) (v : Option Hfile) :
    slotsOwn lo hi (Function.update s b v) + Hfile.own (s b) = slotsOwn lo hi s + Hfile.own v := by
  have hrest : ∑ c ∈ (window lo hi).erase b, Hfile.own (Function.update s b v c) =
      ∑ c ∈ (window lo hi).erase b, Hfile.own (s c) := by
    refine sum_congr rfl fun c hc => ?_
    rw [Function.update_of_ne (ne_of_mem_erase hc)]
  rw [slotsOwn, slotsOwn, ← add_sum_erase _ _ hb, ← add_sum_erase _ (fun c => Hfile.own (s c)) hb, hrest,
    Function.update_self]
  abel

theorem slotsOwn_swap {i j : Int} (hi' : i ∈ window lo hi) (hj : j ∈ window lo hi) :
    slotsOwn lo hi (Remap.swap s i j) = slotsOwn lo hi s := by
  refine sum_equiv (Equiv.swap i j) (fun c => ?_) fun c _ => rfl
  rw [Equiv.swap_apply_def]
  split
  · rename_i hc
    simp [hc, hi', hj]
  · split
    · rename_i hc
      simp [hc, hi', hj]
    · rfl

/-- Empty slots hold nothing. -/
theorem slotsOwn_mono (hlo : lo' ≤ lo) (hhi : hi ≤ hi') (h : ∀ b, (s b).isSome → lo ≤ b ∧ b ≤ hi) :
    slotsOwn lo hi s = slotsOwn lo' hi' s := by
  refine sum_subset (fun c hc => ?_) fun c _ hc => ?_
  · have := mem_window.mp hc
    exact mem_window.mpr ⟨hlo.trans this.1, this.2.trans hhi⟩
  · cases hs : s c with
    | none => rfl
    | some p => exact absurd (mem_window.mpr (h c (by simp [hs]))) hc

theorem slotsOwn_empty (h : ∀ b, s b = none) : slotsOwn lo hi s = 0 :=
  sum_eq_zero fun b _ => by rw [h b]; rfl

theorem own_le_slotsOwn (hb : b ∈ window lo hi) : Hfile.own (s b) ≤ slotsOwn lo hi s :=
  single_le_sum (fun c _ => Multiset.zero_le (Hfile.own (s c))) hb

-- ---------------------------------------------------------------------------
-- What a task holds at every point
-- ---------------------------------------------------------------------------

/-- A reference goes with every hidden file that is not kept aside, and every reference is to a
branch of the table. -/
structure Sound (sb : SuperBlock) (own : Multiset Held) : Prop where
  even : ∀ id, own.count (.file id) = own.count (.ref id)
  table : ∀ id, Held.ref id ∈ own → ∃ b, sb.sbrId b = some id

variable {sb : SuperBlock} {own tmp : Multiset Held}

theorem Sound.zero : Sound sb 0 := ⟨fun _ => rfl, fun _ h => absurd h (Multiset.notMem_zero _)⟩

theorem Sound.add (h : Sound sb own) (h' : Sound sb tmp) : Sound sb (own + tmp) where
  even := fun id => by simp only [Multiset.count_add, h.even, h'.even]
  table := fun id hid => (Multiset.mem_add.mp hid).elim (h.table id) (h'.table id)

theorem Sound.pair {b id : Int} (h : sb.sbrId b = some id) :
    Sound sb (↑[Held.file id, Held.ref id] : Multiset Held) where
  even := fun i => by
    simp only [Multiset.coe_count, List.count_cons, List.count_nil, beq_iff_eq, Held.file.injEq,
      Held.ref.injEq, reduceCtorEq, if_false]
    omega
  table := fun i hi => by
    simp only [Multiset.mem_coe, List.mem_cons, Held.ref.injEq, reduceCtorEq, List.not_mem_nil,
      or_false, false_or] at hi
    exact ⟨b, hi ▸ h⟩

theorem Sound.kept (id : Int) : Sound sb (↑[Held.kept id] : Multiset Held) where
  even := fun i => by simp
  table := fun i hi => by simp at hi

/-- The slots up to `N` hold hidden files of branches of the table, next to `tmp`. -/
structure Holds (sb : SuperBlock) (N : Int) (s : Int → Option Hfile) (tmp own : Multiset Held) : Prop where
  own_eq : own = slotsOwn 0 N s + tmp
  range : ∀ b, (s b).isSome → 0 ≤ b ∧ b ≤ N
  same : ∀ b h, s b = some h → h.file.on = h.br
  table : ∀ b h, s b = some h → ∃ c, sb.sbrId c = some h.br
  tmp : Sound sb tmp

namespace Holds

variable {N : Int} {hf : Hfile}

theorem sound (h : Holds sb N s tmp own) : Sound sb own := by
  rw [h.own_eq]
  refine Sound.add ?_ h.tmp
  refine sum_induction _ (Sound sb) (fun _ _ => Sound.add) Sound.zero fun b _ => ?_
  cases hs : s b with
  | none => exact Sound.zero
  | some p =>
      obtain ⟨c, hc⟩ := h.table b p hs
      simp only [Hfile.own, h.same b p hs]
      exact Sound.pair hc

theorem mem_range (h : Holds sb N s tmp own) (hs : s b = some hf) : b ∈ window 0 N :=
  mem_window.mpr (h.range b (by simp [hs]))

/-- The hidden file of a slot can be given back. -/
theorem put (h : Holds sb N s tmp own) (hs : s b = some hf) :
    ↑[Held.file hf.file.on, Held.ref hf.br] ≤ own ∧
      Holds sb N (Function.update s b none) tmp (own - ↑[Held.file hf.file.on, Held.ref hf.br]) := by
  have hb := h.mem_range hs
  have hle := own_le_slotsOwn hb (s := s)
  have hup := slotsOwn_update hb none (s := s)
  have hpair : Hfile.own (some hf) = ↑[Held.file hf.file.on, Held.ref hf.br] := rfl
  rw [hs, hpair] at hle hup
  have hslot : ∀ c p, Function.update s b none c = some p → s c = some p := by
    intro c p hc
    by_cases hcb : c = b
    · simp [hcb] at hc
    · simpa [hcb] using hc
  refine ⟨h.own_eq ▸ hle.trans (Multiset.le_add_right _ _), ?_, fun c hc => ?_,
    fun c p hc => h.same c p (hslot c p hc), fun c p hc => h.table c p (hslot c p hc), h.tmp⟩
  · have hzero : Hfile.own none = 0 := rfl
    rw [hzero, add_zero] at hup
    rw [h.own_eq, ← hup, add_right_comm, Multiset.add_sub_cancel_right]
  · obtain ⟨p, hp⟩ := Option.isSome_iff_exists.mp hc
    exact h.range c (by simp [hslot c p hp])

/-- A hidden file that was opened enters an empty slot. -/
theorem fill {id : Int} {mode : FMode} (h : Holds sb N s (tmp + ↑[Held.file id, Held.ref id]) own)
    (ht : Sound sb tmp) (hs : s b = none) (hb : 0 ≤ b ∧ b ≤ N) {c : Int} (hid : sb.sbrId c = some id) :
    Holds sb N (Function.update s b (some ⟨⟨id, mode⟩, id⟩)) tmp own := by
  have hup := slotsOwn_update (mem_window.mpr hb) (some ⟨⟨id, mode⟩, id⟩) (s := s)
  have hzero : Hfile.own none = 0 := rfl
  rw [hs, hzero, add_zero] at hup
  have hslot : ∀ d p, Function.update s b (some ⟨⟨id, mode⟩, id⟩) d = some p →
      p = ⟨⟨id, mode⟩, id⟩ ∨ s d = some p := by
    intro d p hd
    by_cases hdb : d = b
    · subst hdb
      exact .inl (by simpa using hd.symm)
    · exact .inr (by simpa [hdb] using hd)
  refine ⟨?_, fun d hd => ?_, fun d p hd => ?_, fun d p hd => ?_, ht⟩
  · rw [h.own_eq, hup, add_right_comm, ← add_assoc]
    rfl
  · by_cases hdb : d = b
    · exact hdb ▸ hb
    · exact h.range d (by simpa [hdb] using hd)
  · rcases hslot d p hd with rfl | hd
    · rfl
    · exact h.same d p hd
  · rcases hslot d p hd with rfl | hd
    · exact ⟨c, hid⟩
    · exact h.table d p hd

/-- The branches of hidden files are in the table. -/
theorem findBrindex_nonneg (h : Holds sb N s tmp own) {p : Hfile} (hs : s b = some p) :
    0 ≤ sb.findBrindex p.br := by
  obtain ⟨c, hc⟩ := h.table b p hs
  rcases sb.findBrindex_cases p.br with hf | ⟨-, hf⟩
  · exact (SuperBlock.range_of_sbrId hf).1
  · exact absurd hc (hf c)

theorem eq_zero (h : Holds sb N s 0 own) (hs : ∀ b, s b = none) : own = 0 := by
  rw [h.own_eq, slotsOwn_empty hs, add_zero]

theorem swap (h : Holds sb N s tmp own) {i j : Int} (hi : i ∈ window 0 N) (hj : j ∈ window 0 N) :
    Holds sb N (Remap.swap s i j) tmp own where
  own_eq := by rw [slotsOwn_swap hi hj, h.own_eq]
  range := fun b hb => by
    rw [Remap.swap_apply] at hb
    split at hb
    · rename_i hbi
      exact hbi ▸ mem_window.mp hi
    · split at hb
      · rename_i hbj
        exact hbj ▸ mem_window.mp hj
      · exact h.range b hb
  same := fun _ p hp => h.same _ p hp
  table := fun _ p hp => h.table _ p hp
  tmp := h.tmp

end Holds

-- ---------------------------------------------------------------------------
-- Slots
-- ---------------------------------------------------------------------------

variable {N : Int} {may : Multiset Held → Prop} {fi : Finfo} {e : FileOp.DentryEnv} {α : Type}

/-- What every file keeps between two operations. -/
structure Finfo.Wf (fi : Finfo) : Prop where
  range : ∀ b, (fi.hfile b).isSome → 0 ≤ fi.bstart ∧ fi.bstart ≤ b ∧ b ≤ fi.bend
  distinct : ∀ b c p q, fi.hfile b = some p → fi.hfile c = some q → p.br = q.br → b = c

/-- A file at rest in this branch table. -/
structure Finfo.Ok (sb : SuperBlock) (fi : Finfo) : Prop where
  wf : fi.Wf
  same : ∀ b h, fi.hfile b = some h → h.file.on = h.br
  table : ∀ b h, fi.hfile b = some h → ∃ c, sb.sbrId c = some h.br

/-- Where the branch of a hidden file is now. -/
def hfileTarget (sb : SuperBlock) (p : Hfile) : Option Int :=
  if sb.findBrindex p.br < 0 then none else some (sb.findBrindex p.br)

theorem hfileTarget_eq_some {p : Hfile} {k : Int} :
    hfileTarget sb p = some k ↔ sb.findBrindex p.br = k ∧ 0 ≤ k := by
  unfold hfileTarget
  split
  · simp only [reduceCtorEq, false_iff]
    omega
  · simp only [Option.some.injEq]
    omega

theorem Finfo.Wf.separated (h : fi.Wf) : Remap.Separated (hfileTarget sb) fi.hfile := by
  intro i j p q hi hj hpq
  refine h.distinct i j p q hi hj ?_
  rcases hpq with rfl | ⟨k, hp, hq⟩
  · rfl
  · obtain ⟨hp, hk⟩ := hfileTarget_eq_some.mp hp
    obtain ⟨hq, -⟩ := hfileTarget_eq_some.mp hq
    exact @SuperBlock.findBrindex_inj sb _ _ (by omega) (by omega)

/-- The file without its hidden files at the indices of `L`. -/
def Finfo.without (fi : Finfo) (L : List Int) : Finfo :=
  { fi with hfile := fun b => if b ∈ L then none else fi.hfile b }

@[simp] theorem Finfo.without_nil : fi.without [] = fi := by simp [Finfo.without]

theorem Finfo.without_cons {L : List Int} : (fi.setSlot b none).without L = fi.without (b :: L) := by
  simp only [Finfo.without, Finfo.setSlot, Finfo.mk.injEq, true_and, and_true]
  funext c
  by_cases hc : c = b <;> simp [hc]

namespace FileOp

theorem wp_hiddenOpen {flags : FMode} {Q : Except Errno HiddenFile → Multiset Held → Prop}
    (hown : Sound sb own)
    (hok : ∀ id mode, sb.sbrId b = some id → (e.d.hDptrI b).isSome →
      Q (.ok ⟨id, mode⟩) (own + ↑[Held.file id, Held.ref id]))
    (herr : may own → ∀ err, Q (.error err) own) :
    wp (Sound sb) may (hiddenOpen sb e b flags) Q own := by
  unfold hiddenOpen
  split
  · rename_i br i hbr hi
    have hid : sb.sbrId b = some br.id := by simp [SuperBlock.sbrId, hbr]
    have hd : (e.d.hDptrI b).isSome := by
      cases hd : e.d.hDptrI b with
      | none => simp [hd] at hi
      | some h => rfl
    split
    · exact hown
    · simp only [wp_take, wp_ret]
      exact ⟨hown, ⟨hown.add (.pair hid), hok _ _ hid hd⟩, fun hm err => ⟨hown, herr hm err⟩⟩
  · exact hown

theorem wp_putHFptr {Q : Finfo → Multiset Held → Prop} (h : Holds sb N fi.hfile tmp own)
    (hQ : ∀ own, Holds sb N (Function.update fi.hfile b none) tmp own → Q (fi.setSlot b none) own) :
    wp (Sound sb) may (putHFptr fi b) Q own := by
  unfold putHFptr
  cases hs : fi.hfile b with
  | none =>
      have he : Function.update fi.hfile b none = fi.hfile := by rw [← hs, Function.update_eq_self]
      have hfi : fi.setSlot b none = fi := by simp only [Finfo.setSlot, he]
      have := hQ own (by rwa [he])
      exact ⟨h.sound, by rwa [hfi] at this⟩
  | some hf =>
      obtain ⟨hle, hput⟩ := h.put hs
      have := hput.sound
      simp only [wp_bind, auHfput, give, wp_move, wp_ret, wp_pure, Multiset.coe_nil, add_zero]
      exact ⟨h.sound, hle, this, this, hQ _ hput⟩

theorem wp_putHFptrs {L : List Int} {Q : Finfo → Multiset Held → Prop} (h : Holds sb N fi.hfile tmp own)
    (hQ : ∀ own, Holds sb N (fi.without L).hfile tmp own → Q (fi.without L) own) :
    wp (Sound sb) may (putHFptrs L fi) Q own := by
  induction L generalizing fi own with
  | nil => exact ⟨h.sound, hQ own (by simpa using h)⟩
  | cons b L ih =>
      rw [putHFptrs, wp_bind]
      refine wp_putHFptr h fun own h' => ih h' fun own h'' => ?_
      rw [Finfo.without_cons] at h'' ⊢
      exact hQ own h''

theorem wp_setHFptr {id : Int} {mode : FMode} {Q : Finfo → Multiset Held → Prop}
    (h : Holds sb N fi.hfile (tmp + ↑[Held.file id, Held.ref id]) own) (ht : Sound sb tmp)
    (hid : sb.sbrId b = some id) (hb : b ≤ N)
    (hQ : ∀ own, Holds sb N (fi.setSlot b (some ⟨⟨id, mode⟩, id⟩)).hfile tmp own →
      Q (fi.setSlot b (some ⟨⟨id, mode⟩, id⟩)) own) :
    wp (Sound sb) may (setHFptr sb fi b ⟨id, mode⟩) Q own := by
  rw [setHFptr, wp_bind]
  refine wp_putHFptr h fun own h' => ?_
  have hfill : Holds sb N (Function.update (Function.update fi.hfile b none) b (some ⟨⟨id, mode⟩, id⟩)) tmp own :=
    h'.fill ht (Function.update_self _ _ _) ⟨(SuperBlock.range_of_sbrId hid).1, hb⟩ hid
  have hslot : (fi.setSlot b none).setSlot b (some ⟨⟨id, mode⟩, id⟩) = fi.setSlot b (some ⟨⟨id, mode⟩, id⟩) := by
    simp only [Finfo.setSlot, Function.update_idem]
  rw [Function.update_idem] at hfill
  simp only [hid, wp_pure, hslot]
  exact ⟨h'.sound, hQ own hfill⟩

-- ---------------------------------------------------------------------------
-- Opening
-- ---------------------------------------------------------------------------

/-- A file between two operations, and all that it holds. -/
structure Rests (sb : SuperBlock) (N : Int) (fi : Finfo) (own : Multiset Held) : Prop where
  holds : Holds sb N fi.hfile 0 own
  wf : fi.Wf

/-- A file while its hidden directories from `lo` to `hi` are opened. -/
structure Opened (sb : SuperBlock) (N lo hi : Int) (fi : Finfo) (own : Multiset Held) : Prop where
  holds : Holds sb N fi.hfile 0 own
  bstart : fi.bstart = lo
  bend : fi.bend = hi
  within : ∀ b, (fi.hfile b).isSome → lo ≤ b ∧ b ≤ hi
  aligned : ∀ b h, fi.hfile b = some h → sb.sbrId b = some h.br

theorem Opened.rests (h : Opened sb N lo hi fi own) (hlo : 0 ≤ lo) (hids : sb.DistinctIds) :
    Rests sb N fi own where
  holds := h.holds
  wf :=
    { range := fun b hb => ⟨h.bstart ▸ hlo, h.bstart ▸ (h.within b hb).1, h.bend ▸ (h.within b hb).2⟩
      distinct := fun b c p q hb hc hpq => hids (h.aligned b p hb) (hpq ▸ h.aligned c q hc) }

/-- One hidden directory more. -/
theorem Opened.setHFptr {Q : Finfo → Multiset Held → Prop} {id : Int} {mode : FMode}
    (h : Opened sb N lo hi fi own) (hid : sb.sbrId b = some id) (hb : lo ≤ b ∧ b ≤ hi) (hN : sb.sbend ≤ N)
    (hQ : ∀ own, Opened sb N lo hi (fi.setSlot b (some ⟨⟨id, mode⟩, id⟩)) own →
      Q (fi.setSlot b (some ⟨⟨id, mode⟩, id⟩)) own) :
    wp (Sound sb) may (setHFptr sb fi b ⟨id, mode⟩) Q (own + ↑[Held.file id, Held.ref id]) := by
  have hheld : Holds sb N fi.hfile (0 + ↑[Held.file id, Held.ref id]) (own + ↑[Held.file id, Held.ref id]) :=
    { h.holds with
      own_eq := by rw [h.holds.own_eq, add_zero, zero_add]
      tmp := by simpa using Sound.pair hid }
  refine wp_setHFptr hheld .zero hid ((SuperBlock.range_of_sbrId hid).2.trans hN) fun own' h' => hQ own' ?_
  refine ⟨h', h.bstart, h.bend, fun c hc => ?_, fun c p hc => ?_⟩
  · by_cases hcb : c = b
    · exact hcb ▸ hb
    · exact h.within c (by simpa [Finfo.setSlot, hcb] using hc)
  · by_cases hcb : c = b
    · subst hcb
      obtain rfl : _ = p := by simpa [Finfo.setSlot] using hc
      exact hid
    · exact h.aligned c p (by simpa [Finfo.setSlot, hcb] using hc)

theorem wp_openDirs {flags : FMode} {L : List Int} {Q : Except Errno Unit × Finfo → Multiset Held → Prop}
    (hN : sb.sbend ≤ N) (hL : ∀ b ∈ L, lo ≤ b ∧ b ≤ hi) (h : Opened sb N lo hi fi own)
    (hQ : ∀ r fi own, Opened sb N lo hi fi own → (∀ err, r = .error err → may own) → Q (r, fi) own) :
    wp (Sound sb) may (openDirs sb e flags L fi) Q own := by
  induction L generalizing fi own with
  | nil => exact ⟨h.holds.sound, hQ _ _ _ h fun err he => by simp at he⟩
  | cons b L ih =>
      have hrest := fun c hc => hL c (List.mem_cons_of_mem b hc)
      rw [openDirs]
      split
      · exact ih hrest h
      · rw [wp_bind]
        refine wp_hiddenOpen h.holds.sound (fun id mode hid _ => ?_) fun hm err => ?_
        · rw [wp_bind]
          exact h.setHFptr hid (hL b (List.mem_cons_self ..)) hN fun own' h' => ih hrest h'
        · exact ⟨h.holds.sound, hQ _ _ _ h fun _ _ => hm⟩

theorem wp_reopenDirs {flags : FMode} {L : List Int} {Q : Except Errno Unit × Finfo → Multiset Held → Prop}
    (hN : sb.sbend ≤ N) (hL : ∀ b ∈ L, lo ≤ b ∧ b ≤ hi) (h : Opened sb N lo hi fi own)
    (hQ : ∀ r fi own, Opened sb N lo hi fi own → Q (r, fi) own) :
    wp (Sound sb) may (reopenDirs sb e flags L fi) Q own := by
  induction L generalizing fi own with
  | nil => exact ⟨h.holds.sound, hQ _ _ _ h⟩
  | cons b L ih =>
      have hrest := fun c hc => hL c (List.mem_cons_of_mem b hc)
      rw [reopenDirs]
      split
      · rw [wp_bind]
        refine wp_hiddenOpen h.holds.sound (fun id mode hid _ => ?_) fun hm err => ?_
        · rw [wp_bind]
          exact h.setHFptr hid (hL b (List.mem_cons_self ..)) hN fun own' h' => ih hrest h'
        · exact ⟨h.holds.sound, hQ _ _ _ h⟩
      · exact ih hrest h

theorem Rests.ok (h : Rests sb N fi own) : fi.Ok sb ∧ own = fi.own := by
  refine ⟨⟨h.wf, h.holds.same, h.holds.table⟩, ?_⟩
  rw [h.holds.own_eq, add_zero, Finfo.own,
    slotsOwn_mono (Int.min_le_left 0 fi.bstart) (Int.le_max_left N fi.bend) h.holds.range,
    slotsOwn_mono (Int.min_le_right 0 fi.bstart) (Int.le_max_right N fi.bend) fun b hb => (h.wf.range b hb).2]

theorem rests_of_ok (h : fi.Ok sb) : Rests sb (max fi.bend sb.sbend) fi fi.own where
  holds :=
    { own_eq := by
        rw [add_zero, Finfo.own]
        by_cases hs : ∀ b, fi.hfile b = none
        · rw [slotsOwn_empty hs, slotsOwn_empty hs]
        · obtain ⟨b, hb⟩ := not_forall.mp hs
          have h0 := (h.wf.range b (Option.isSome_iff_ne_none.mpr hb)).1
          exact slotsOwn_mono h0 (Int.le_max_left _ _) fun b hb => (h.wf.range b hb).2
      range := fun b hb => by
        have := h.wf.range b hb
        omega
      same := h.same
      table := h.table
      tmp := .zero }
  wf := h.wf

/-- Everything is closed. -/
theorem wp_auFinFinfo {Q : Unit → Multiset Held → Prop} (h : Rests sb N fi own) (hQ : Q () 0) :
    wp (Sound sb) may (auFinFinfo fi) Q own := by
  unfold auFinFinfo
  split
  · rw [wp_bind]
    refine wp_putHFptrs h.holds fun own' h' => ?_
    have hzero := Holds.eq_zero h' fun b => by
      simp only [Finfo.without, ite_eq_left_iff]
      intro hb
      by_contra hne
      exact hb (mem_bindexes.mpr (h.wf.range b (Option.isSome_iff_ne_none.mpr hne)).2)
    subst hzero
    exact ⟨.zero, hQ⟩
  · rename_i hneg
    have hzero := Holds.eq_zero h.holds fun b => by
      by_contra hne
      exact hneg (h.wf.range b (Option.isSome_iff_ne_none.mpr hne)).1
    subst hzero
    exact ⟨.zero, hQ⟩

/-- How an operation on a file ends: a file that is open holds its slots, and nothing else is
held. -/
def Done (sb : SuperBlock) (r : Except Errno Unit × Option AufsFile) (own : Multiset Held) : Prop :=
  match r.2 with
  | none => own = 0
  | some f => f.fi.Ok sb ∧ own = f.fi.own

theorem holds_none : Holds sb N (fun _ => none) 0 0 where
  own_eq := by rw [slotsOwn_empty fun _ => rfl, add_zero]
  range := fun b hb => by simp at hb
  same := fun b h hb => by simp at hb
  table := fun b h hb => by simp at hb
  tmp := .zero

theorem rests_init {digen : Int} : Rests sb N (Finfo.init digen) 0 where
  holds := holds_none
  wf := ⟨fun b hb => by simp [Finfo.init] at hb, fun b c p q hb => by simp [Finfo.init] at hb⟩

theorem wp_doOpenNondir {flags : FMode} {digen : Int} {Q : Except Errno Unit × Finfo → Multiset Held → Prop}
    (hids : sb.DistinctIds)
    (hQ : ∀ r fi own, Rests sb sb.sbend fi own → Q (r, fi) own) :
    wp (Sound sb) may (doOpenNondir sb e flags (Finfo.init digen)) Q 0 := by
  rw [doOpenNondir, wp_bind]
  refine wp_hiddenOpen .zero (fun id mode hid _ => ?_) fun hm err => ?_
  · have hr := SuperBlock.range_of_sbrId hid
    have hopen : Opened sb sb.sbend e.d.bstart e.d.bstart
        { Finfo.init digen with bstart := e.d.bstart, bend := e.d.bstart } 0 :=
      ⟨holds_none, rfl, rfl, fun b hb => by simp [Finfo.init] at hb, fun b h hb => by simp [Finfo.init] at hb⟩
    rw [wp_bind]
    refine hopen.setHFptr hid ⟨Int.le_refl _, Int.le_refl _⟩ (Int.le_refl _) fun own h => ?_
    exact ⟨h.holds.sound, hQ _ _ _ (h.rests hr.1 hids)⟩
  · exact ⟨.zero, hQ _ _ _ rests_init⟩

/-- The first hidden directory that cannot be opened must be the first one at all: the loop that
should close the others does not run. -/
theorem wp_doOpenDir {flags : FMode} {digen : Int} {Q : Except Errno Unit × Finfo → Multiset Held → Prop}
    (hids : sb.DistinctIds) (hmay : ∀ own, may own → own = 0)
    (hQ : ∀ r fi own, Rests sb sb.sbend fi own → Q (r, fi) own) :
    wp (Sound sb) may (doOpenDir sb e flags (Finfo.init digen)) Q 0 := by
  rw [doOpenDir, wp_bind]
  have hopen : Opened sb sb.sbend e.d.bstart e.d.dbtaildir
      { Finfo.init digen with bstart := e.d.bstart, bend := e.d.dbtaildir } 0 :=
    ⟨holds_none, rfl, rfl, fun b hb => by simp [Finfo.init] at hb, fun b h hb => by simp [Finfo.init] at hb⟩
  refine wp_openDirs (Int.le_refl _) (fun b hb => mem_bindexes.mp hb) hopen fun r fi own h hr => ?_
  cases r with
  | ok u => exact ⟨h.holds.sound, hQ _ _ _ (h.rests e.nonneg hids)⟩
  | error err =>
      obtain rfl := hmay own (hr err rfl)
      -- nothing is open, so the slots are empty
      have hempty : ∀ b, fi.hfile b = none := by
        intro b
        by_contra hne
        obtain ⟨p, hp⟩ := Option.ne_none_iff_exists'.mp hne
        exact absurd (h.holds.put hp).1 (by simp)
      have hclose : closeAll (.error err) (bindexes fi.bstart e.d.dbtaildir) fi = pure fi := by
        cases bindexes fi.bstart e.d.dbtaildir <;> rfl
      simp only [hclose, wp_bind, wp_pure]
      refine ⟨.zero, .zero, hQ _ _ _ ⟨h.holds, ?_, ?_⟩⟩
      · intro b hb
        simp [hempty b] at hb
      · intro b c p q hb
        simp [hempty b] at hb

theorem wp_doOpen {isDir : Bool} {digen : Int} {flags : FMode} (hids : sb.DistinctIds)
    (hmay : isDir → ∀ own, may own → own = 0) :
    wp (Sound sb) may (doOpen sb e isDir flags (Finfo.init digen))
      (fun r own => Rests sb sb.sbend r.2 own) 0 := by
  unfold doOpen
  split
  · rename_i hdir
    exact wp_doOpenDir hids (hmay hdir) fun _ _ _ h => h
  · exact wp_doOpenNondir hids fun _ _ _ h => h

theorem wp_auDoOpen {mem isDir : Bool} {digen : Int} {flags : FMode} (hids : sb.DistinctIds)
    (hmay : isDir → ∀ own, may own → own = 0) :
    wp (Sound sb) may (auDoOpen sb e mem digen isDir flags) (Done sb) 0 := by
  unfold auDoOpen
  split
  · exact ⟨.zero, rfl⟩
  · rw [wp_bind]
    refine (wp_doOpen hids hmay).mono ?_
    rintro ⟨r, fi⟩ own h
    cases r with
    | ok u => exact ⟨h.holds.sound, h.ok⟩
    | error err =>
        simp only [wp_bind]
        exact wp_auFinFinfo h ⟨.zero, rfl⟩

theorem wp_aufsRelease {f : AufsFile} (h : f.fi.Ok sb) :
    wp (Sound sb) may (aufsRelease f) (Done sb) f.fi.own := by
  rw [aufsRelease, wp_bind]
  exact wp_auFinFinfo (rests_of_ok h) ⟨.zero, rfl⟩

-- ---------------------------------------------------------------------------
-- Emptiness tests and copy-ups
-- ---------------------------------------------------------------------------

/-- A hidden file that was just opened is given back by its index. -/
theorem wp_give {id : Int} {Q : Unit → Multiset Held → Prop} (hown : Sound sb own)
    (hid : sb.sbrId b = some id) (hQ : Q () own) :
    wp (Sound sb) may (give [.file id, .ref id] : FileTask Unit) Q (own + ↑[Held.file id, Held.ref id]) := by
  have hcancel : own + ↑[Held.file id, Held.ref id] - ↑[Held.file id, Held.ref id] = own :=
    Multiset.add_sub_cancel_right ..
  simp only [give, wp_move, wp_ret, hcancel, Multiset.coe_nil, add_zero]
  exact ⟨hown.add (.pair hid), Multiset.le_add_left _ _, hown, hQ⟩

theorem wp_doTestEmpty {readdir : Int → Except Errno Unit} {Q : Except Errno Unit → Multiset Held → Prop}
    (hown : Sound sb own) (hQ : ∀ r, Q r own) :
    wp (Sound sb) may (doTestEmpty sb e readdir b) Q own := by
  rw [doTestEmpty, wp_bind]
  refine wp_hiddenOpen hown (fun id mode hid _ => ?_) fun hm err => ⟨hown, hQ _⟩
  simp only [hid, wp_bind]
  exact wp_give hown hid ⟨hown, hQ _⟩

theorem wp_testEmptyFrom {readdir : Int → Except Errno Unit} {L : List Int}
    {Q : Except Errno Unit → Multiset Held → Prop} (hown : Sound sb own) (hQ : ∀ r, Q r own) :
    wp (Sound sb) may (testEmptyFrom sb e readdir L) Q own := by
  induction L with
  | nil => exact ⟨hown, hQ _⟩
  | cons b L ih =>
      rw [testEmptyFrom]
      split
      · rw [wp_bind]
        refine wp_doTestEmpty hown fun r => ?_
        cases r with
        | ok u => exact ih
        | error err => exact ⟨hown, hQ _⟩
      · exact ih

theorem wp_auTestEmptyLower {mem : Bool} {readdir : Int → Except Errno Unit}
    {Q : Except Errno Unit → Multiset Held → Prop} (hown : Sound sb own) (hQ : ∀ r, Q r own) :
    wp (Sound sb) may (auTestEmptyLower sb e mem readdir) Q own := by
  unfold auTestEmptyLower
  split
  · exact ⟨hown, hQ _⟩
  · rw [wp_bind]
    refine wp_doTestEmpty hown fun r => ?_
    cases r with
    | ok u => exact wp_testEmptyFrom hown hQ
    | error err => exact ⟨hown, hQ _⟩

theorem wp_putHidden {id : Int} {mode : FMode} {Q : Unit → Multiset Held → Prop} (hown : Sound sb own)
    (hid : sb.sbrId b = some id) (hQ : Q () own) :
    wp (Sound sb) may (putHidden sb ⟨id, mode⟩ b) Q (own + ↑[Held.file id, Held.ref id]) := by
  simp only [putHidden, hid]
  exact wp_give hown hid hQ

/-- Both hidden files are given back on every way out. -/
theorem wp_cpupRegular {c : CpupCall} {Q : Except Errno Unit → Multiset Held → Prop}
    (hown : Sound sb own) (hQ : ∀ r, Q r own) : wp (Sound sb) may (cpupRegular sb c) Q own := by
  rw [cpupRegular, wp_bind]
  refine wp_hiddenOpen hown (fun src mode hsrc _ => ?_) fun hm err => ?_
  · have hown' := hown.add (Sound.pair hsrc)
    dsimp only
    split
    · rw [wp_bind]
      exact wp_putHidden hown hsrc ⟨hown, hQ _⟩
    · rw [wp_bind]
      refine wp_hiddenOpen hown' (fun dst mode' hdst _ => ?_) fun hm err => ?_
      · dsimp only
        rw [wp_bind]
        refine wp_putHidden hown' hdst ?_
        rw [wp_bind]
        exact wp_putHidden hown hsrc ⟨hown, hQ _⟩
      · rw [wp_bind]
        exact wp_putHidden hown hsrc ⟨hown, hQ _⟩
  · exact ⟨hown, hQ _⟩

theorem wp_copyUp {c : CpupCall} {Q : Except Errno Unit → Multiset Held → Prop}
    (hown : Sound sb own) (hQ : ∀ r, Q r own) : wp (Sound sb) may (copyUp sb c) Q own := by
  unfold copyUp
  split
  · exact ⟨hown, hQ _⟩
  · split
    · rw [wp_bind]
      refine wp_cpupRegular hown fun r => ?_
      cases r with
      | ok u => exact ⟨hown, hQ _⟩
      | error err => exact ⟨hown, hQ _⟩
    · exact ⟨hown, hQ _⟩

-- ---------------------------------------------------------------------------
-- Opening again
-- ---------------------------------------------------------------------------

theorem Rests.generation (h : Rests sb N fi own) {generation : Int} :
    Rests sb N { fi with generation } own :=
  ⟨h.holds, h.wf.range, h.wf.distinct⟩

theorem Rests.setSlot_none (h : Rests sb N fi own) : (fi.setSlot b none).Wf := by
  have hslot : ∀ c p, (fi.setSlot b none).hfile c = some p → fi.hfile c = some p := by
    intro c p hc
    by_cases hcb : c = b
    · simp [Finfo.setSlot, hcb] at hc
    · simpa [Finfo.setSlot, hcb] using hc
  refine ⟨fun c hc => ?_, fun c d p q hc hd => h.wf.distinct c d p q (hslot c p hc) (hslot d q hd)⟩
  obtain ⟨p, hp⟩ := Option.isSome_iff_exists.mp hc
  exact h.wf.range c (by simp [hslot c p hp])

/-- What a task holds next to its slots is given back. -/
theorem wp_giveTmp {ks : List Held} {Q : Unit → Multiset Held → Prop} (h : Holds sb N s ↑ks own)
    (hQ : ∀ own, Holds sb N s 0 own → Q () own) :
    wp (Sound sb) may (give ks : FileTask Unit) Q own := by
  have hcancel : slotsOwn 0 N s + ↑ks - ↑ks = slotsOwn 0 N s := Multiset.add_sub_cancel_right ..
  have h0 : Holds sb N s 0 (slotsOwn 0 N s) := { h with own_eq := (add_zero _).symm, tmp := .zero }
  have hsound := h.sound
  rw [h.own_eq] at hsound ⊢
  simp only [give, wp_move, wp_ret, Multiset.coe_nil, add_zero, hcancel]
  exact ⟨hsound, Multiset.le_add_left _ _, h0.sound, hQ _ h0⟩

/-- The hidden file of the first branch is the only one that stays. -/
theorem wp_reopenAt {f : AufsFile} {ks : List Held} {Q : Except Errno Unit × Finfo → Multiset Held → Prop}
    (h : Holds sb N fi.hfile ↑ks own) (hwf : fi.Wf) (hN : sb.sbend ≤ N)
    (hstart : ∀ b, (fi.hfile b).isSome → e.d.bstart ≤ b)
    (hQ : ∀ r fi own, Rests sb N fi own → Q (r, fi) own) :
    wp (Sound sb) may (reopenAt sb e f ks fi) Q own := by
  rw [reopenAt, wp_bind]
  refine wp_hiddenOpen h.sound (fun id mode hid _ => ?_) fun hm err => ?_
  · have hr := SuperBlock.range_of_sbrId hid
    have hheld : Holds sb N fi.hfile (↑ks + ↑[Held.file id, Held.ref id])
        (own + ↑[Held.file id, Held.ref id]) :=
      { h with own_eq := by rw [h.own_eq, add_assoc], tmp := h.tmp.add (.pair hid) }
    simp only [wp_bind]
    refine wp_setHFptr hheld h.tmp hid (hr.2.trans hN) fun own h => ?_
    rw [wp_bind]
    refine wp_putHFptrs h fun own h => ?_
    rw [wp_bind]
    refine wp_giveTmp h fun own h => ⟨h.sound, hQ _ _ _ ⟨h, ?_, ?_⟩⟩
    all_goals
      have honly : ∀ c p, (if c ∈ bindexes (e.d.bstart + 1) fi.bend then none
          else Function.update fi.hfile e.d.bstart (some ⟨⟨id, mode⟩, id⟩) c) = some p → c = e.d.bstart := by
        intro c p hc
        split at hc
        · simp at hc
        · rename_i hmem
          by_contra hne
          rw [Function.update_of_ne hne] at hc
          have h1 := hstart c (by simp [hc])
          have h2 := (hwf.range c (by simp [hc])).2
          exact hmem (mem_bindexes.mpr ⟨by omega, h2.2⟩)
    · intro c hc
      obtain ⟨p, hp⟩ := Option.isSome_iff_exists.mp hc
      obtain rfl := honly c p hp
      exact ⟨hr.1, Int.le_refl _, Int.le_refl _⟩
    · intro c d p q hc hd _
      rw [honly c p hc, honly d q hd]
  · simp only [wp_bind]
    exact wp_giveTmp h fun own h => ⟨h.sound, hQ _ _ _ ⟨h, hwf⟩⟩

/-- `au_reopen_nondir` of a file without hidden files before `dbstart`. -/
theorem wp_auReopenNondir {f : AufsFile} {Q : Except Errno Unit × Finfo → Multiset Held → Prop}
    (h : Rests sb N fi own) (hN : sb.sbend ≤ N) (hstart : ∀ b, (fi.hfile b).isSome → e.d.bstart ≤ b)
    (hQ : ∀ r fi own, Rests sb N fi own → Q (r, fi) own) :
    wp (Sound sb) may (auReopenNondir sb e f fi) Q own := by
  unfold auReopenNondir
  split
  · split
    · exact h.holds.sound
    · rename_i hf hs
      split
      · exact ⟨h.holds.sound, hQ _ _ _ h⟩
      · obtain ⟨hle, hput⟩ := h.holds.put hs
        refine ⟨h.holds.sound, hle, ?_⟩
        have hkept : Holds sb N (fi.setSlot fi.bstart none).hfile ↑[Held.kept hf.file.on]
            (own - ↑[Held.file hf.file.on, Held.ref hf.br] + ↑[Held.kept hf.file.on]) :=
          { hput with own_eq := by rw [hput.own_eq, add_zero]; rfl, tmp := .kept _ }
        refine wp_reopenAt hkept h.setSlot_none hN (fun c hc => ?_) hQ
        have hcb : c ≠ fi.bstart := by
          rintro rfl
          simp [Finfo.setSlot] at hc
        exact hstart c (by simpa [Finfo.setSlot, hcb] using hc)
  · exact wp_reopenAt h.holds h.wf hN hstart hQ

/-- `reopen_dir` of a file whose slots follow the branch table. -/
theorem wp_reopenDir {f : AufsFile} {Q : Except Errno Unit × Finfo → Multiset Held → Prop}
    (h : Rests sb N fi own) (ha : ∀ b p, fi.hfile b = some p → sb.sbrId b = some p.br)
    (hids : sb.DistinctIds) (hN : sb.sbend ≤ N) (hQ : ∀ r fi own, Rests sb N fi own → Q (r, fi) own) :
    wp (Sound sb) may (reopenDir sb e f fi) Q own := by
  rw [reopenDir, wp_bind]
  refine wp_putHFptrs h.holds fun own h' => ?_
  rw [wp_bind]
  refine wp_putHFptrs h' fun own h' => ?_
  refine wp_reopenDirs hN (fun b hb => mem_bindexes.mp hb) ⟨h', rfl, rfl, fun b hb => ?_, fun b p hb => ?_⟩
    fun r fi own h => hQ r fi own (h.rests e.nonneg hids)
  all_goals simp only [Finfo.without, List.mem_reverse, mem_bindexes] at hb
  · split at hb
    · simp at hb
    · rename_i hlate
      split at hb
      · simp at hb
      · rename_i hearly
        have := h.wf.range b hb
        omega
  · split at hb
    · simp at hb
    · split at hb
      · simp at hb
      · exact ha b p hb

-- ---------------------------------------------------------------------------
-- Refreshing
-- ---------------------------------------------------------------------------

/-- A round is a round of the remapping, and no hidden file is closed. -/
theorem hfileBody_eq {bindex : Int} (h : Holds sb N fi.hfile 0 own) (hN : sb.sbend ≤ N) (h0 : 0 ≤ bindex) :
    ∃ s' j, Remap.step (hfileTarget sb) ⟨fi.hfile, bindex, []⟩ = ⟨s', j, []⟩ ∧
      hfileBody sb fi bindex = pure ({ fi with hfile := s' }, j) ∧ Holds sb N s' 0 own ∧ 0 ≤ j := by
  simp only [Remap.step, hfileBody]
  cases hp : fi.hfile bindex with
  | none => exact ⟨_, _, rfl, rfl, h, by omega⟩
  | some p =>
      have hpos := h.findBrindex_nonneg hp
      have hneg : ¬ sb.findBrindex p.br < 0 := by omega
      simp only [hfileTarget, hneg, if_false]
      by_cases heq : sb.findBrindex p.br = bindex
      · simp only [heq, if_true]
        exact ⟨_, _, rfl, rfl, h, by omega⟩
      · simp only [heq, if_false]
        refine ⟨_, _, rfl, rfl, h.swap (h.mem_range hp) (mem_window.mpr ⟨hpos, ?_⟩), by split <;> omega⟩
        exact (sb.findBrindex_le_sbend p.br).trans hN

/-- The loop ends, closes nothing and brings every hidden file to the place of its branch. -/
theorem wp_hfileLoop {bend bindex : Int} {s₀ : Int → Option Hfile} {fuel : Nat}
    {Q : Finfo → Multiset Held → Prop} (h : Holds sb N fi.hfile 0 own) (hN : sb.sbend ≤ N) (hbend : bend ≤ N)
    (h0 : 0 ≤ bindex) (hinv : Remap.Inv (hfileTarget sb) s₀ bend ⟨fi.hfile, bindex, []⟩)
    (hfuel : Remap.remaining (hfileTarget sb) 0 N ⟨fi.hfile, bindex, []⟩ ≤ fuel)
    (hQ : ∀ s', Holds sb N s' 0 own →
      (∀ k x, s' k = some x ↔ sb.findBrindex x.br = k ∧ ∃ i, s₀ i = some x) → Q { fi with hfile := s' } own) :
    wp (Sound sb) may (hfileLoop sb bend fuel fi bindex) Q own := by
  have hend : ∀ {fi : Finfo} {bindex : Int}, Holds sb N fi.hfile 0 own → bend < bindex →
      Remap.Inv (hfileTarget sb) s₀ bend ⟨fi.hfile, bindex, []⟩ →
      ∀ k x, fi.hfile k = some x ↔ sb.findBrindex x.br = k ∧ ∃ i, s₀ i = some x := by
    intro fi bindex h hlt hinv k x
    rw [(hinv.final hlt).1 k x, hfileTarget_eq_some]
    constructor
    · rintro ⟨⟨h1, -⟩, h2⟩
      exact ⟨h1, h2⟩
    · rintro ⟨h1, i, h2⟩
      have hx := ((hinv.kept x).mp ⟨i, h2⟩).resolve_right (by simp)
      obtain ⟨j, hj⟩ := hx
      exact ⟨⟨h1, h1 ▸ h.findBrindex_nonneg hj⟩, i, h2⟩
  induction fuel generalizing fi bindex with
  | zero =>
      have hlt : bend < bindex := by
        simp only [Remap.remaining] at hfuel
        omega
      rw [hfileLoop, if_neg (by omega)]
      exact ⟨h.sound, hQ fi.hfile h (hend h hlt hinv)⟩
  | succ fuel ih =>
      rw [hfileLoop]
      split
      · rename_i hle
        obtain ⟨s', j, hstep, hbody, h', hj⟩ := hfileBody_eq h hN h0
        have hless := Remap.remaining_step 0 N hinv.separated (show bindex ≤ N by omega) fun k x t _ ht => by
          have := hfileTarget_eq_some.mp ht
          have := sb.findBrindex_le_sbend x.br
          omega
        have hinv' := hinv.step hle
        rw [hstep] at hless hinv'
        rw [hbody, wp_bind]
        exact ⟨h.sound, ih h' hj hinv' (Nat.le_of_lt_succ (hless.trans_le hfuel)) hQ⟩
      · exact ⟨h.sound, hQ fi.hfile h (hend h (by omega) hinv)⟩

/-- What a scan for an end leaves: some hidden files were closed, none of those that stay. -/
structure Scanned (sb : SuperBlock) (N : Int) (stays : Hfile → Bool) (fi fi' : Finfo) (own : Multiset Held) :
    Prop where
  holds : Holds sb N fi'.hfile 0 own
  sub : ∀ b p, fi'.hfile b = some p → fi.hfile b = some p
  keeps : ∀ b p, fi.hfile b = some p → stays p → fi'.hfile b = some p

theorem Scanned.refl {stays : Hfile → Bool} {fi' : Finfo} (h : Holds sb N fi.hfile 0 own)
    (hs : fi'.hfile = fi.hfile) : Scanned sb N stays fi fi' own :=
  ⟨hs ▸ h, fun _ _ hb => hs ▸ hb, fun _ _ hb _ => hs.symm ▸ hb⟩

/-- A hidden file that does not stay was closed before the rest of the scan. -/
theorem Scanned.put {stays : Hfile → Bool} {fi' : Finfo} {p : Hfile} (hs : fi.hfile b = some p)
    (hp : ¬ stays p) (h : Scanned sb N stays (fi.setSlot b none) fi' own) : Scanned sb N stays fi fi' own where
  holds := h.holds
  sub := fun c q hc => by
    have hq := h.sub c q hc
    by_cases hcb : c = b
    · simp [Finfo.setSlot, hcb] at hq
    · simpa [Finfo.setSlot, hcb] using hq
  keeps := fun c q hc hq => h.keeps c q (by
    have hcb : c ≠ b := by
      rintro rfl
      rw [hs] at hc
      exact hp (Option.some.inj hc ▸ hq)
    simpa [Finfo.setSlot, hcb] using hc) hq

theorem setSlot_mem {L : List Int} {P : Int → Prop} (hL : ∀ c, (fi.hfile c).isSome → c ∈ b :: L ∨ P c) :
    ∀ c, ((fi.setSlot b none).hfile c).isSome → c ∈ L ∨ P c := by
  intro c hc
  by_cases hcb : c = b
  · simp [Finfo.setSlot, hcb] at hc
  · refine (hL c (by simpa [Finfo.setSlot, hcb] using hc)).imp_left fun hm => ?_
    exact (List.mem_cons.mp hm).resolve_left hcb

/-- After the scan upwards the slots before `fi_bstart` are empty. -/
theorem wp_scanBstart {stays : Hfile → Bool} {L : List Int} {past : Int} {Q : Finfo → Multiset Held → Prop}
    (h : Holds sb N fi.hfile 0 own) (hsorted : L.Pairwise (· < ·)) (hpast : ∀ b ∈ L, 0 ≤ b ∧ b < past)
    (h0 : 0 ≤ past) (hL : ∀ b, (fi.hfile b).isSome → b ∈ L ∨ past ≤ b)
    (hQ : ∀ fi' own, Scanned sb N stays fi fi' own → 0 ≤ fi'.bstart →
      (∀ b, (fi'.hfile b).isSome → fi'.bstart ≤ b) →
      (fi'.bstart = past ∨ ∃ p, fi'.hfile fi'.bstart = some p ∧ stays p) → Q fi' own) :
    wp (Sound sb) may (scanBstart stays L past fi) Q own := by
  induction L generalizing fi own with
  | nil =>
      exact ⟨h.sound, hQ _ _ (.refl h rfl) h0 (fun b hb => (hL b hb).resolve_left (by simp)) (.inl rfl)⟩
  | cons b L ih =>
      have hrest := List.pairwise_cons.mp hsorted
      have hpast' := fun c hc => hpast c (List.mem_cons_of_mem b hc)
      rw [scanBstart]
      cases hs : fi.hfile b with
      | none =>
          refine ih h hrest.2 hpast' (fun c hc => (hL c hc).imp_left fun hm => ?_) hQ
          refine (List.mem_cons.mp hm).resolve_left ?_
          rintro rfl
          simp [hs] at hc
      | some p =>
          dsimp only
          split
          · rename_i hstays
            refine ⟨h.sound, hQ _ _ (.refl h rfl) (hpast b (List.mem_cons_self ..)).1 (fun c hc => ?_)
              (.inr ⟨p, hs, hstays⟩)⟩
            have hlt := (hpast b (List.mem_cons_self ..)).2
            rcases hL c hc with hm | hm
            · rcases List.mem_cons.mp hm with rfl | hm
              · exact Int.le_refl _
              · exact Int.le_of_lt (hrest.1 c hm)
            · exact Int.le_of_lt (hlt.trans_le hm)
          · rename_i hstays
            obtain ⟨hle, hput⟩ := h.put hs
            simp only [wp_bind, auHfput, give, wp_move, wp_ret, Multiset.coe_nil, add_zero]
            refine ⟨h.sound, hle, hput.sound, ih hput hrest.2 hpast' (setSlot_mem hL) ?_⟩
            exact fun fi' own' hsc => hQ fi' own' (hsc.put hs hstays)

/-- After the scan downwards the slots after `fi_bend` are empty too. -/
theorem wp_scanBend {stays : Hfile → Bool} {L : List Int} {Q : Finfo → Multiset Held → Prop}
    (h : Holds sb N fi.hfile 0 own) (hsorted : L.Pairwise (· > ·)) (hL : ∀ b, (fi.hfile b).isSome → b ∈ L)
    (hQ : ∀ fi' own, Scanned sb N stays fi fi' own → fi'.bstart = fi.bstart →
      (∀ b, (fi'.hfile b).isSome → b ≤ fi'.bend) → Q fi' own) :
    wp (Sound sb) may (scanBend stays L fi) Q own := by
  induction L generalizing fi own with
  | nil => exact ⟨h.sound, hQ _ _ (.refl h rfl) rfl fun b hb => absurd (hL b hb) (by simp)⟩
  | cons b L ih =>
      have hrest := List.pairwise_cons.mp hsorted
      rw [scanBend]
      cases hs : fi.hfile b with
      | none =>
          refine ih h hrest.2 (fun c hc => ?_) hQ
          refine (List.mem_cons.mp (hL c hc)).resolve_left ?_
          rintro rfl
          simp [hs] at hc
      | some p =>
          dsimp only
          split
          · refine ⟨h.sound, hQ _ _ (.refl h rfl) rfl fun c hc => ?_⟩
            rcases List.mem_cons.mp (hL c hc) with rfl | hm
            · exact Int.le_refl _
            · exact Int.le_of_lt (hrest.1 c hm)
          · rename_i hstays
            obtain ⟨hle, hput⟩ := h.put hs
            simp only [wp_bind, auHfput, give, wp_move, wp_ret, Multiset.coe_nil, add_zero]
            refine ⟨h.sound, hle, hput.sound, ih hput hrest.2 (fun c hc => ?_) ?_⟩
            · have hmem : ∀ c, (fi.hfile c).isSome → c ∈ b :: L ∨ False := fun c hc => .inl (hL c hc)
              exact (setSlot_mem hmem c hc).resolve_right id
            · exact fun fi' own' hsc => hQ fi' own' (hsc.put hs hstays)

/-- The slots follow the branch table. -/
def Aligned (sb : SuperBlock) (fi : Finfo) : Prop := ∀ b p, fi.hfile b = some p → sb.sbrId b = some p.br

theorem wp_refreshEnds {r : RefreshEnv} {brid : Int} {Q : Finfo → Multiset Held → Prop}
    (h : Holds sb N fi.hfile 0 own) (ha : Aligned sb fi) (hids : sb.DistinctIds)
    (hQ : ∀ fi' own, Rests sb N fi' own → Aligned sb fi' →
      (∀ b p, fi'.hfile b = some p → fi.hfile b = some p) →
      ((r.mmapped || r.unhashed) = false → ∀ b, (fi'.hfile b).isSome →
        ∃ p, fi.hfile fi'.bstart = some p ∧ r.alive p.br) → Q fi' own) :
    wp (Sound sb) may (refreshEnds sb r brid fi) Q own := by
  have hin : ∀ b, (fi.hfile b).isSome → 0 ≤ b ∧ b ≤ sb.sbend := by
    intro b hb
    obtain ⟨p, hp⟩ := Option.isSome_iff_exists.mp hb
    exact SuperBlock.range_of_sbrId (ha b p hp)
  -- the second scan, after a first one that kept what stays
  have hsecond : ∀ (past : Int) (stays : Hfile → Bool) (fi₁ : Finfo) own,
      Scanned sb N stays fi fi₁ own → 0 ≤ fi₁.bstart → (∀ b, (fi₁.hfile b).isSome → fi₁.bstart ≤ b) →
      ((r.mmapped || r.unhashed) = false → ∀ b, (fi₁.hfile b).isSome →
        ∃ p, fi₁.hfile fi₁.bstart = some p ∧ r.alive p.br) →
      wp (Sound sb) may
        (scanBend (fun hf => r.alive hf.br) (bindexes fi₁.bstart sb.sbend).reverse fi₁) Q own := by
    intro past stays fi₁ own h₁ h0 hlow hstart
    have hsub : ∀ b, (fi₁.hfile b).isSome → b ∈ (bindexes fi₁.bstart sb.sbend).reverse := by
      intro b hb
      obtain ⟨p, hp⟩ := Option.isSome_iff_exists.mp hb
      rw [List.mem_reverse, mem_bindexes]
      exact ⟨hlow b hb, (hin b (by simp [h₁.sub b p hp])).2⟩
    refine wp_scanBend h₁.holds (List.pairwise_reverse.mpr (bindexes_sorted _ _)) hsub
      fun fi₂ own h₂ hst hup => ?_
    have hsub₂ : ∀ b p, fi₂.hfile b = some p → fi.hfile b = some p :=
      fun b p hb => h₁.sub b p (h₂.sub b p hb)
    have ha₂ : Aligned sb fi₂ := fun b p hb => ha b p (hsub₂ b p hb)
    have hlow₂ : ∀ b, (fi₂.hfile b).isSome → (fi₁.hfile b).isSome := by
      intro b hb
      obtain ⟨p, hp⟩ := Option.isSome_iff_exists.mp hb
      simp [h₂.sub b p hp]
    refine hQ fi₂ own ⟨h₂.holds, ⟨fun b hb => ?_, fun b c p q hb hc hpq => ?_⟩⟩ ha₂ hsub₂ fun hm b hb => ?_
    · exact ⟨hst ▸ h0, hst ▸ hlow b (hlow₂ b hb), hup b hb⟩
    · exact hids (ha₂ b p hb) (hpq ▸ ha₂ c q hc)
    · obtain ⟨p, hp, hal⟩ := hstart hm b (hlow₂ b hb)
      exact ⟨p, by rw [hst]; exact h₁.sub _ _ hp, hal⟩
  have hmem : ∀ lo hi past, lo ≤ 0 → past ≤ hi + 1 →
      ∀ b, (fi.hfile b).isSome → b ∈ bindexes lo hi ∨ past ≤ b := by
    intro lo hi past hlo hp b hb
    by_cases hle : b ≤ hi
    · exact .inl (mem_bindexes.mpr ⟨hlo.trans (hin b hb).1, hle⟩)
    · exact .inr (by omega)
  have hsb := sb.neg_one_le_sbend
  unfold refreshEnds
  split
  · rename_i hmode
    rw [wp_bind]
    refine wp_scanBstart h (bindexes_sorted _ _) (fun b hb => ?_) (by omega)
      (hmem 0 sb.sbend (sb.sbend + 1) (Int.le_refl _) (Int.le_refl _)) fun fi₁ own h₁ h0 hlow hstart => ?_
    · have := mem_bindexes.mp hb
      omega
    · refine hsecond (sb.sbend + 1) _ fi₁ own h₁ h0 hlow fun _ b hb => ?_
      rcases hstart with hpast | ⟨p, hp, hal⟩
      · obtain ⟨p, hp⟩ := Option.isSome_iff_exists.mp hb
        have h1 := (hin b (by simp [h₁.sub b p hp])).2
        have h2 := hlow b hb
        omega
      · exact ⟨p, hp, hal⟩
  · rename_i hmode
    dsimp only
    rw [wp_bind]
    refine wp_scanBstart h (bindexes_sorted _ _) (fun b hb => ?_) (by omega)
      (fun b hb => ?_) fun fi₁ own h₁ h0 hlow hstart => ?_
    · have := mem_bindexes.mp hb
      omega
    · by_cases hle : b ≤ sb.findBrindex brid - 1
      · exact .inl (mem_bindexes.mpr ⟨(hin b hb).1, hle⟩)
      · have := (hin b hb).1
        exact .inr (by omega)
    · refine hsecond 0 _ fi₁ own h₁ h0 hlow fun hm b hb => ?_
      simp only [Bool.or_eq_false_iff] at hm
      simp [hm.1, hm.2] at hmode

theorem wp_refreshPlink {r : RefreshEnv} {passes : List PlinkPass}
    {Q : Except Errno DentryEnv → Multiset Held → Prop} (hown : Sound sb own)
    (herr : ∀ err, Q (.error err) own) (hQ : ∀ e, e = r.e ∨ (∃ q ∈ passes, q.e = e) → Q (.ok e) own) :
    wp (Sound sb) may (refreshPlink sb r fi passes) Q own := by
  induction passes with
  | nil => exact hown
  | cons q rest ih =>
      have hrest := ih fun e he => hQ e (he.imp_right fun ⟨q', hq', h⟩ => ⟨q', List.mem_cons_of_mem q hq', h⟩)
      rw [refreshPlink]
      split
      · split
        · exact hown
        · split
          · exact ⟨hown, herr _⟩
          · split
            · exact hrest
            · rw [wp_bind]
              refine wp_copyUp hown fun res => ?_
              cases res with
              | error err => exact ⟨hown, herr _⟩
              | ok u => exact ⟨hown, hQ _ (.inr ⟨q, List.mem_cons_self .., rfl⟩)⟩
      · exact ⟨hown, hQ _ (.inl rfl)⟩

/-- The hidden files of a file that is not a directory, as far as they stay, are not on branches
before `dbstart` of the dentries that `refresh_file` may open with. -/
def RefreshEnv.NotBefore (sb : SuperBlock) (r : RefreshEnv) (fi : Finfo) : Prop :=
  ∀ e, e = r.e ∨ (∃ q ∈ r.passes, q.e = e) →
    ∀ b p, fi.hfile b = some p → r.alive p.br → e.d.bstart ≤ sb.findBrindex p.br

theorem wp_reopen {f : AufsFile} {Q : Except Errno Unit × Finfo → Multiset Held → Prop}
    (h : Rests sb N fi own) (ha : Aligned sb fi) (hids : sb.DistinctIds) (hN : sb.sbend ≤ N)
    (hstart : f.isDir = false → ∀ b, (fi.hfile b).isSome → e.d.bstart ≤ b)
    (hQ : ∀ r fi own, Rests sb N fi own → Q (r, fi) own) :
    wp (Sound sb) may (reopen sb e f fi) Q own := by
  unfold reopen
  split
  · exact wp_reopenDir h ha hids hN hQ
  · rename_i hdir
    exact wp_auReopenNondir h hN (hstart (by simpa using hdir)) hQ

theorem wp_refreshFile {r : RefreshEnv} {f : AufsFile} {Q : Except Errno Unit × Finfo → Multiset Held → Prop}
    (h : Rests sb N f.fi own) (hids : sb.DistinctIds) (hN : N = max f.fi.bend sb.sbend)
    (hbefore : f.isDir = false → r.NotBefore sb f.fi)
    (hQ : ∀ res fi own, Rests sb N fi own → Q (res, fi) own) :
    wp (Sound sb) may (refreshFile sb r f) Q own := by
  have hup : ∀ b, f.fi.bend + 1 ≤ b → f.fi.hfile b = none := by
    intro b hb
    by_contra hne
    have := (h.wf.range b (Option.isSome_iff_ne_none.mpr hne)).2.2
    omega
  unfold refreshFile
  split
  · exact ⟨h.holds.sound, hQ _ _ _ h⟩
  · rename_i p hp
    obtain rfl := kzrealloc_eq hup hp
    dsimp only
    split
    · exact h.holds.sound
    · rename_i first hfirst
      have h0 := (h.wf.range f.fi.bstart (by simp [hfirst])).1
      have hout : ∀ k, k < f.fi.bstart ∨ k > f.fi.bend → f.fi.hfile k = none := by
        intro k hk
        by_contra hne
        have := (h.wf.range k (Option.isSome_iff_ne_none.mpr hne)).2
        omega
      have hsep : Remap.Separated (hfileTarget sb) f.fi.hfile := h.wf.separated
      have hinit := Remap.Inv.init hsep (fun k hk => hout k (.inl hk))
        (fun k hk => hout k (.inr hk))
      rw [wp_bind]
      refine wp_hfileLoop h.holds (by omega) (by omega) h0 hinit ?_ fun s' hs' hfinal => ?_
      · rw [hfileFuel, hN]
        have hle := @Remap.remaining_le _ (hfileTarget sb) ⟨f.fi.hfile, f.fi.bstart, []⟩ 0
          (max f.fi.bend sb.sbend) h0
        rwa [sub_zero] at hle
      · have ha : Aligned sb { f.fi with hfile := s' } := by
          intro b q hb
          have hb' := (hfinal b q).mp hb
          have := hs'.findBrindex_nonneg hb
          have := SuperBlock.sbrId_findBrindex this
          rwa [hb'.1] at this
        rw [wp_bind]
        refine wp_refreshEnds hs' ha hids fun fi own hr ha' hsub hstart => ?_
        split
        · exact ⟨hr.holds.sound, hQ _ _ _ hr.generation⟩
        · rename_i hmode
          rw [wp_bind]
          refine wp_refreshPlink hr.holds.sound (fun err => ⟨hr.holds.sound, hQ _ _ _ hr⟩) fun e he => ?_
          dsimp only
          rw [wp_bind]
          refine wp_reopen hr ha' hids (by omega) (fun hdir b hb => ?_) fun res fi own hr => ?_
          · obtain ⟨q, hq, hal⟩ := hstart (by simpa using hmode) b hb
            obtain ⟨hfind, i, hi⟩ := (hfinal _ q).mp hq
            have h1 := hbefore hdir e he i q hi hal
            have h2 := (hr.wf.range b hb).2.1
            omega
          · cases res with
            | ok u => exact ⟨hr.holds.sound, hQ _ _ _ hr.generation⟩
            | error err =>
                dsimp only
                rw [wp_bind]
                refine wp_putHFptrs hr.holds fun own h' => ⟨h'.sound, hQ _ _ _ ⟨h', ?_, ?_⟩⟩
                · intro b hb
                  refine hr.wf.range b ?_
                  simp only [Finfo.without] at hb
                  split at hb
                  · simp at hb
                  · exact hb
                · intro b c p q hb hc
                  simp only [Finfo.without] at hb hc
                  split at hb
                  · simp at hb
                  · split at hc
                    · simp at hc
                    · exact hr.wf.distinct b c p q hb hc

theorem wp_auRevalAndLockFinfo {v : RevalEnv} {f : AufsFile} (h : f.fi.Ok sb) (hids : sb.DistinctIds)
    (hbefore : f.isDir = false → v.refresh.NotBefore sb f.fi) :
    wp (Sound sb) may (auRevalAndLockFinfo sb v f) (Done sb) f.fi.own := by
  have hr := rests_of_ok h
  unfold auRevalAndLockFinfo
  dsimp only
  split
  · exact ⟨hr.holds.sound, hr.ok⟩
  · split
    · exact ⟨hr.holds.sound, hr.ok⟩
    · rw [wp_bind]
      exact wp_refreshFile hr hids rfl hbefore fun res fi own hr => ⟨hr.holds.sound, hr.ok⟩

theorem wp_cpupWhFile {w : WriteEnv} {f : AufsFile} {Q : Except Errno Unit × Finfo → Multiset Held → Prop}
    (h : Rests sb N f.fi own) (hN : sb.sbend ≤ N) (hstart : w.e.d.bstart ≤ f.fi.bstart)
    (hQ : ∀ r fi own, Rests sb N fi own → Q (r, fi) own) :
    wp (Sound sb) may (cpupWhFile sb w f) Q own := by
  rw [cpupWhFile, wp_bind]
  refine wp_copyUp h.holds.sound fun res => ?_
  cases res with
  | error err => exact ⟨h.holds.sound, hQ _ _ _ h⟩
  | ok u =>
      dsimp only
      rw [wp_bind]
      refine wp_auReopenNondir h hN (fun b hb => hstart.trans (h.wf.range b hb).2.1) fun res fi own hr => ?_
      cases res with
      | error err => exact ⟨hr.holds.sound, hQ _ _ _ hr⟩
      | ok u =>
          dsimp only
          split
          · exact ⟨hr.holds.sound, hQ _ _ _ hr⟩
          · exact ⟨hr.holds.sound, hQ _ _ _ hr⟩

theorem wp_cpupFile {w : WriteEnv} {f : AufsFile} {Q : Except Errno Unit × Finfo → Multiset Held → Prop}
    (h : Rests sb N f.fi own) (hN : sb.sbend ≤ N) (hstart : w.e.d.bstart ≤ f.fi.bstart)
    (hQ : ∀ r fi own, Rests sb N fi own → Q (r, fi) own) :
    wp (Sound sb) may (cpupFile sb w f) Q own := by
  have hfrom : ∀ b, (f.fi.hfile b).isSome → w.e.d.bstart ≤ b :=
    fun b hb => hstart.trans (h.wf.range b hb).2.1
  unfold cpupFile
  split
  · exact wp_auReopenNondir h hN hfrom hQ
  · rw [wp_bind]
    refine wp_copyUp h.holds.sound fun res => ?_
    cases res with
    | error err => exact ⟨h.holds.sound, hQ _ _ _ h⟩
    | ok u => exact wp_auReopenNondir h hN hfrom hQ

theorem wp_auReadyToWrite {w : WriteEnv} {f : AufsFile} (h : f.fi.Ok sb)
    (hstart : w.e.d.bstart ≤ f.fi.bstart) :
    wp (Sound sb) may (auReadyToWrite sb w f) (Done sb) f.fi.own := by
  have hr := rests_of_ok h
  have hN : sb.sbend ≤ max f.fi.bend sb.sbend := Int.le_max_right ..
  have hend : ∀ res fi own, Rests sb (max f.fi.bend sb.sbend) fi own →
      Sound sb own ∧ Done sb (res, some { f with fi }) own :=
    fun res fi own hr => ⟨hr.holds.sound, hr.ok⟩
  unfold auReadyToWrite
  split
  · split
    · exact ⟨hr.holds.sound, hr.ok⟩
    · split
      · exact ⟨hr.holds.sound, hr.ok⟩
      · exact ⟨hr.holds.sound, hr.ok⟩
      · rw [wp_bind]
        split
        · exact wp_cpupWhFile hr hN hstart hend
        · exact wp_cpupFile hr hN hstart hend
  · exact hr.holds.sound

end FileOp

end Aufs
