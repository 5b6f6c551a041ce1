-- SUMMARY: The dentry information of aufs: the array of hidden dentries with its two ends, the whiteout and the opaque index.
import Mathlib.Data.Int.Order.Basic
import Aufs.SuperBlock
import Aufs.LowerFs

/-!
# Dentry information

`struct aufs_dinfo` and the accessors of `dinfo.c`. The array `di_hdentry` is a
function of the branch index; `NULL` is `none`. A hidden dentry is known by the
mounted file system it belongs to and its path there; `inode` is its `d_inode`.
-/

namespace Aufs

/-- The identity of an inode of a lower file system: what a `struct inode *` tells. -/
structure HiPtr where
  root : Nat
  ino : Nat
  deriving DecidableEq, Repr

/-- A hidden dentry. -/
structure HDentry where
  root : Nat
  path : Path
  inode : Option HInode
  deriving DecidableEq, Repr

namespace HDentry

/-- `d_inode` as a pointer -/
def dInode (h : HDentry) : Option HiPtr := h.inode.map fun i => ⟨h.root, i.ino⟩

/-- Is the dentry positive? -/
def positive (h : HDentry) : Bool := h.inode.isSome

/-- Are these two pointers to one dentry? -/
def same (h k : HDentry) : Bool := h.root = k.root ∧ h.path = k.path

end HDentry

/-- `struct aufs_dinfo` -/
structure Dinfo where
  bstart : Int
  bend : Int
  bwh : Int
  bdiropq : Int
  hdentry : Int → Option HDentry

namespace Dinfo

/-- The dentry information of a new dentry, as `au_alloc_dinfo` leaves it. -/
def alloc : Dinfo := ⟨-1, -1, -1, -1, fun _ => none⟩

/-- `au_h_dptr_i` -/
def hDptrI (d : Dinfo) (bindex : Int) : Option HDentry :=
  if d.bstart < 0 ∨ bindex < d.bstart then none else d.hdentry bindex

/-- `au_h_dptr` -/
def hDptr (d : Dinfo) : Option HDentry := d.hDptrI d.bstart

/-- `dbtail` -/
def dbtail (d : Dinfo) : Int :=
  if 0 ≤ d.bend then
    if d.bwh = 0 then d.bwh
    else if 0 < d.bwh ∧ d.bwh < d.bend then d.bwh - 1
    else d.bend
  else d.bend

/-- `dbtaildir` -/
def dbtaildir (d : Dinfo) : Int :=
  if 0 ≤ d.dbtail then
    if 0 ≤ d.bdiropq ∧ d.bdiropq < d.dbtail then d.bdiropq else d.dbtail
  else d.dbtail

/-- `set_h_dptr` -/
def setHDptr (d : Dinfo) (bindex : Int) (h : Option HDentry) : Dinfo :=
  { d with hdentry := Function.update d.hdentry bindex h }

/-- Is there a positive hidden dentry at `bindex`? -/
def positiveAt (d : Dinfo) (bindex : Int) : Bool := (d.hDptrI bindex).any HDentry.positive

/-- The loop of `au_update_dbstart` over the indices that are left. -/
def updateDbstartFrom (d : Dinfo) : List Int → Dinfo
  | [] => d
  | bindex :: rest =>
    match d.hDptrI bindex with
    | none => d.updateDbstartFrom rest
    | some h =>
      if h.positive then { d with bstart := bindex }
      else (d.setHDptr bindex none).updateDbstartFrom rest

/-- `au_update_dbstart` -/
def updateDbstart (d : Dinfo) : Dinfo := d.updateDbstartFrom (bindexes d.bstart d.bend)

/-- `au_find_dbindex` -/
def findDbindex (d : Dinfo) (h : HDentry) : Int :=
  ((bindexes d.bstart d.bend).find? fun bindex => (d.hDptrI bindex).any h.same).getD (-1)

@[simp] theorem setHDptr_bstart (d : Dinfo) (b : Int) (h : Option HDentry) :
    (d.setHDptr b h).bstart = d.bstart := rfl

@[simp] theorem setHDptr_bend (d : Dinfo) (b : Int) (h : Option HDentry) :
    (d.setHDptr b h).bend = d.bend := rfl

@[simp] theorem setHDptr_bwh (d : Dinfo) (b : Int) (h : Option HDentry) :
    (d.setHDptr b h).bwh = d.bwh := rfl

@[simp] theorem setHDptr_bdiropq (d : Dinfo) (b : Int) (h : Option HDentry) :
    (d.setHDptr b h).bdiropq = d.bdiropq := rfl

@[simp] theorem setHDptr_hdentry (d : Dinfo) (b : Int) (h : Option HDentry) :
    (d.setHDptr b h).hdentry = Function.update d.hdentry b h := rfl

theorem hDptrI_of_le {d : Dinfo} {b : Int} (h0 : 0 ≤ d.bstart) (hb : d.bstart ≤ b) :
    d.hDptrI b = d.hdentry b := by
  rw [hDptrI, if_neg (by omega)]

theorem range_of_hDptrI {d : Dinfo} {b : Int} {h : HDentry} (hb : d.hDptrI b = some h) :
    0 ≤ d.bstart ∧ d.bstart ≤ b := by
  unfold hDptrI at hb
  split at hb
  · simp at hb
  · omega

theorem positiveAt_congr {d e : Dinfo} {b : Int} (h : d.hDptrI b = e.hDptrI b) :
    d.positiveAt b = e.positiveAt b := by
  simp only [positiveAt, h]

/-- Clearing the slots up to the first positive one. -/
private theorem updateDbstartFrom_spec {d : Dinfo} (h0 : 0 ≤ d.bstart) {L : List Int}
    (hL : ∀ b ∈ L, d.bstart ≤ b) (hsorted : L.Pairwise (· < ·)) :
    (∃ m, m ∈ L ∧ d.positiveAt m ∧ (∀ c ∈ L, c < m → d.positiveAt c = false) ∧
      d.updateDbstartFrom L = { d with
        bstart := m
        hdentry := fun b => if b ∈ L ∧ b < m then none else d.hdentry b }) ∨
    ((∀ c ∈ L, d.positiveAt c = false) ∧
      d.updateDbstartFrom L = { d with hdentry := fun b => if b ∈ L then none else d.hdentry b }) := by
  induction L generalizing d with
  | nil => exact .inr ⟨by simp, by simp [updateDbstartFrom]⟩
  | cons b L ih =>
      obtain ⟨hb, hL'⟩ := List.pairwise_cons.mp hsorted
      have hbs := hL b List.mem_cons_self
      have hrest := fun c hc => hL c (List.mem_cons_of_mem b hc)
      have hbL : b ∉ L := fun hm => lt_irrefl b (hb b hm)
      have hslot := hDptrI_of_le h0 hbs
      -- a slot that is not positive is cleared, or is clear
      have hskip : d.positiveAt b = false →
          d.updateDbstartFrom (b :: L) = (d.setHDptr b none).updateDbstartFrom L := by
        intro hp
        rw [updateDbstartFrom]
        cases hd : d.hDptrI b with
        | none =>
            have : d.setHDptr b none = d := by
              rw [setHDptr, ← hslot.symm.trans hd, Function.update_eq_self]
            rw [this]
        | some h =>
            have : h.positive = false := by simpa [positiveAt, hd] using hp
            simp [this]
      by_cases hp : d.positiveAt b
      · refine .inl ⟨b, List.mem_cons_self, hp, fun c hc hlt => ?_, ?_⟩
        · rcases List.mem_cons.mp hc with rfl | hc
          · exact absurd hlt (lt_irrefl _)
          · exact absurd hlt (hb c hc).not_gt
        · obtain ⟨h, hh, hpos⟩ := (Option.any_eq_true _ _).mp hp
          simp only [updateDbstartFrom, hh, hpos, if_true]
          congr 1
          funext c
          rw [if_neg]
          rintro ⟨hc, hlt⟩
          rcases List.mem_cons.mp hc with rfl | hc
          · exact lt_irrefl _ hlt
          · exact (hb c hc).not_gt hlt
      · have hp : d.positiveAt b = false := by simpa using hp
        rw [hskip hp]
        have hpos : ∀ c ∈ L, (d.setHDptr b none).positiveAt c = d.positiveAt c := by
          intro c hc
          refine positiveAt_congr ?_
          have hne : c ≠ b := fun he => hbL (he ▸ hc)
          rw [hDptrI_of_le (d := d.setHDptr b none) h0 (hrest c hc), hDptrI_of_le h0 (hrest c hc)]
          simp [hne]
        rcases ih (d := d.setHDptr b none) h0 hrest hL' with ⟨m, hm, hpm, hfirst, he⟩ | ⟨hnone, he⟩
        · refine .inl ⟨m, List.mem_cons_of_mem b hm, hpos m hm ▸ hpm, fun c hc hlt => ?_, ?_⟩
          · rcases List.mem_cons.mp hc with rfl | hc
            · exact hp
            · exact hpos c hc ▸ hfirst c hc hlt
          · rw [he]
            simp only [setHDptr]
            congr 1
            funext c
            by_cases hcb : c = b
            · subst hcb
              simp [hbL, hb m hm]
            · simp [hcb]
        · refine .inr ⟨fun c hc => ?_, ?_⟩
          · rcases List.mem_cons.mp hc with rfl | hc
            · exact hp
            · exact hpos c hc ▸ hnone c hc
          · rw [he]
            simp only [setHDptr]
            congr 1
            funext c
            by_cases hcb : c = b
            · subst hcb
              simp [hbL]
            · simp [hcb]

/-- `au_update_dbstart` with a positive slot in the range: it becomes the first one, and
the slots above it are cleared. -/
theorem updateDbstart_of_positive {d : Dinfo} (h0 : 0 ≤ d.bstart) {m : Int} (hm : d.positiveAt m)
    (hle : m ≤ d.bend) (hfirst : ∀ c < m, d.positiveAt c = false) :
    d.updateDbstart = { d with
      bstart := m
      hdentry := fun b => if d.bstart ≤ b ∧ b < m then none else d.hdentry b } := by
  obtain ⟨h, hh, -⟩ := (Option.any_eq_true _ _).mp hm
  have hms := (range_of_hDptrI hh).2
  have hmem : m ∈ bindexes d.bstart d.bend := mem_bindexes.mpr ⟨hms, hle⟩
  rcases updateDbstartFrom_spec h0 (L := bindexes d.bstart d.bend)
    (fun b hb => (mem_bindexes.mp hb).1) (bindexes_sorted _ _) with ⟨k, hk, hpk, hk', he⟩ | ⟨hnone, -⟩
  · have hkm : k = m := by
      rcases lt_trichotomy k m with hlt | heq | hgt
      · rw [hfirst k hlt] at hpk
        simp at hpk
      · exact heq
      · rw [hk' m hmem hgt] at hm
        simp at hm
    subst hkm
    rw [updateDbstart, he]
    congr 1
    funext b
    have : (b ∈ bindexes d.bstart d.bend ∧ b < k) = (d.bstart ≤ b ∧ b < k) := by
      rw [mem_bindexes]
      exact propext ⟨fun hx => ⟨hx.1.1, hx.2⟩, fun hx => ⟨⟨hx.1, by omega⟩, hx.2⟩⟩
    simp only [this]
  · rw [hnone m hmem] at hm
    simp at hm

/-- No slot is filled below the start. -/
structure Tidy (d : Dinfo) : Prop where
  nonneg : 0 ≤ d.bstart
  below : ∀ b < d.bstart, d.hdentry b = none

/-- Both ends are filled, and nothing is filled outside them. -/
structure Ends (d : Dinfo) : Prop where
  nonneg : 0 ≤ d.bstart
  start : (d.hdentry d.bstart).isSome
  last : (d.hdentry d.bend).isSome
  range : ∀ b, (d.hdentry b).isSome → d.bstart ≤ b ∧ b ≤ d.bend

theorem Tidy.hDptrI {d : Dinfo} (h : d.Tidy) (b : Int) : d.hDptrI b = d.hdentry b := by
  by_cases hb : d.bstart ≤ b
  · exact hDptrI_of_le h.nonneg hb
  · rw [Dinfo.hDptrI, if_pos (.inr (by omega)), h.below b (by omega)]

theorem Ends.eq_none {d : Dinfo} (h : d.Ends) {b : Int} (hb : b < d.bstart ∨ d.bend < b) :
    d.hdentry b = none := by
  by_contra hne
  have := h.range b (Option.isSome_iff_ne_none.mpr hne)
  omega

theorem Ends.tidy {d : Dinfo} (h : d.Ends) : d.Tidy := ⟨h.nonneg, fun _ hb => h.eq_none (.inl hb)⟩

/-- The slots determine exact ends. -/
theorem Ends.unique {d e : Dinfo} (hd : d.Ends) (he : e.Ends) (h : d.hdentry = e.hdentry) :
    d.bstart = e.bstart ∧ d.bend = e.bend := by
  have h1 := hd.range _ (h ▸ he.start)
  have h2 := hd.range _ (h ▸ he.last)
  have h3 := he.range _ (h ▸ hd.start)
  have h4 := he.range _ (h ▸ hd.last)
  omega

/-- With exact ends and a positive start `au_update_dbstart` changes nothing. -/
theorem Ends.updateDbstart {d : Dinfo} (h : d.Ends) (hpos : d.positiveAt d.bstart) :
    d.updateDbstart = d := by
  have hrange := h.range _ h.start
  rw [updateDbstart_of_positive h.nonneg hpos hrange.2 fun c hc => by
    simp [positiveAt, hDptrI, hc]]
  have hsame : (fun b => if d.bstart ≤ b ∧ b < d.bstart then none else d.hdentry b) = d.hdentry := by
    funext b
    rw [if_neg (by omega)]
  rw [hsame]

end Dinfo

end Aufs
