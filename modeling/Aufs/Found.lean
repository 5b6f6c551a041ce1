-- SUMMARY: What fresh lookups in a directory find, and which changes on the branches leave that alone.
import Aufs.WrDir
import Aufs.Lib.Seen

/-!
# What is found in a directory

A fresh lookup of a name finds the hidden entries of a search through the branches of
the directory. Copying the directory up to another branch and changing other names does
not change what is found.
-/

namespace Aufs

open Prog Op Overlay

variable {m m' : Mount} {sb : SuperBlock} {dir : Path} {name n : Name} {b c : Int} {h : HDentry}

/-- The roots of the branches do not overlap, as `is_overlap` sees to. -/
def SuperBlock.DistinctRoots (sb : SuperBlock) : Prop :=
  ∀ b c br br', sb.stobr b = some br → sb.stobr c = some br' → br.root = br'.root → b = c

theorem SuperBlock.distinctRoots_of_nodup (h : (sb.branches.map Branch.root).Nodup) : sb.DistinctRoots := by
  intro b c br br' hb hc he
  have hget : ∀ {x : Int} {br : Branch}, sb.stobr x = some br →
      0 ≤ x ∧ (sb.branches.map Branch.root)[x.toNat]? = some br.root := by
    intro x br hx
    have h0 := (sb.stobr_isSome.mp (by rw [hx]; rfl)).1
    refine ⟨h0, ?_⟩
    rw [stobr, if_pos h0] at hx
    rw [List.getElem?_map, hx]
    rfl
  obtain ⟨hb0, hb⟩ := hget hb
  obtain ⟨hc0, hc⟩ := hget hc
  rw [← he] at hc
  have hlt := (List.getElem?_eq_some_iff.mp hb).1
  have := (List.getElem?_inj hlt h).mp (hb.trans hc.symm)
  omega

/-- What a fresh lookup of a name in the directory finds. -/
def Mount.found (sb : SuperBlock) (m : Mount) (dir : Path) (name : Name) : Scan Int HDentry :=
  (m.di dir).scan sb m.w name

/-- The cells of a directory depend on the files alone. -/
theorem cellAt_fs {w w' : World} (hfs : w.fs = w'.fs) (parent : Dinfo) (name : Name) (b : Int) :
    cellAt sb w parent name b = cellAt sb w' parent name b := by
  rw [cellAt, cellAt, hfs]

/-- A fresh lookup that returns no error has found that. -/
theorem lkupDentry_found {w w' : World} {np : Nat} {d : Dinfo} (h0 : 0 ≤ (m.di dir).bstart) (hfs : w.fs = m.w.fs)
    (hl : lkupDentry sb name (m.di dir) .alloc (m.di dir).bstart none w = (.ok np, d, w')) :
    np = (m.found sb dir name).slots.length ∧ (np ≠ 0 → d = .ofScan (m.found sb dir name)) := by
  have hscan : (m.di dir).scan sb w name = m.found sb dir name :=
    Scan.search_congr fun c _ => cellAt_fs hfs _ _ c
  obtain ⟨-, hnp, hd⟩ := lkupDentry_fresh h0 hl
  rw [hscan] at hnp hd
  exact ⟨hnp, fun hne => hd.trans (if_pos hne)⟩

-- ---------------------------------------------------------------------------
-- The cells
-- ---------------------------------------------------------------------------

/-- The branches that a lookup in the directory may ask. -/
def Mount.asked (m : Mount) (dir : Path) : List Int := bindexes (m.di dir).bstart (m.di dir).dbtaildir

theorem Mount.asked_sorted (m : Mount) (dir : Path) : (m.asked dir).Pairwise (· < ·) := bindexes_sorted _ _

/-- What the branch has under the name. -/
def Mount.cell (sb : SuperBlock) (m : Mount) (dir : Path) (name : Name) (c : Int) : Cell HDentry :=
  cellAt sb m.w (m.di dir) name c

theorem Mount.found_eq (sb : SuperBlock) (m : Mount) (dir : Path) (name : Name) :
    m.found sb dir name = .search HDentry.isDir (m.cell sb dir name) (m.asked dir) := rfl

theorem Mount.Dirs.self (hm : m.Dirs sb dir) : m.DirAt sb dir := hm.dirAt dir (List.prefix_refl _)

theorem Mount.Dirs.mem_asked (hm : m.Dirs sb dir) (hc : (m.di dir).hdentry c = some h) :
    c ∈ m.asked dir ↔ c ≤ (m.di dir).dbtaildir := by
  rw [Mount.asked, mem_bindexes]
  refine and_iff_right ?_
  exact (hm.self.range c (by rw [hc]; rfl)).1

theorem Mount.Dirs.cell_none (hm : m.Dirs sb dir) (hc : (m.di dir).hdentry c = none) (name : Name) :
    m.cell sb dir name c = ⟨false, none, false⟩ := by
  have hno : (m.di dir).hDir c = none := by
    rw [hm.hDir, hm.self.hDptrI, hc]
  exact cellAt_of_no_dir sb m.w name hno

theorem Mount.Dirs.cell_some (hm : m.Dirs sb dir) (hc : (m.di dir).hdentry c = some h) (name : Name) :
    m.cell sb dir name c =
      { mask := sb.sbrIsWhable c && (m.w.node h.root (dir ++ [whName name])).isSome
        entry := (m.w.node h.root (dir ++ [name])).map fun i => ⟨h.root, dir ++ [name], some i⟩
        opq := sb.sbrIsWhable c && (m.w.node h.root (dir ++ [name] ++ [diropqName])).isSome } := by
  have hdir : (m.di dir).hDir c = some h := by
    rw [hm.hDir, hm.self.hDptrI, hc]
  have hpath : h.path = dir := by
    obtain ⟨_, _, -, -, -, rfl⟩ := hm.self.slots c h hc
    rfl
  rw [Mount.cell, cellAt, hdir]
  dsimp only
  rw [hpath]
  rfl

/-- A branch with something under the name has the directory. -/
theorem Mount.Dirs.slot_of_full (hm : m.Dirs sb dir) (hc : Scan.full (m.cell sb dir name c)) :
    ∃ h, (m.di dir).hdentry c = some h := by
  refine Option.ne_none_iff_exists'.mp fun hno => ?_
  rw [hm.cell_none hno] at hc
  rcases hc with hc | hc <;> cases hc

/-- A branch of the directory has nothing under the name. -/
theorem Mount.Dirs.not_full_iff (hm : m.Dirs sb dir) (hc : (m.di dir).hdentry c = some h) :
    ¬ Scan.full (m.cell sb dir name c) ↔ m.w.node h.root (dir ++ [name]) = none ∧
      (sb.sbrIsWhable c → m.w.node h.root (dir ++ [whName name]) = none) := by
  rw [Scan.full, hm.cell_some hc, not_or, and_comm]
  simp only [Bool.and_eq_true, not_and, Bool.not_eq_true, Option.isSome_map, Option.isSome_eq_false_iff,
    Option.isNone_iff_eq_none]

-- ---------------------------------------------------------------------------
-- What does not matter
-- ---------------------------------------------------------------------------

/-- The directory is what it was, but for new slots of directories that have nothing in them. -/
structure Mount.KeepsDir (sb : SuperBlock) (dir : Path) (m m' : Mount) : Prop where
  before : m.Dirs sb dir
  after : m'.Dirs sb dir
  tail : (m'.di dir).dbtaildir = (m.di dir).dbtaildir
  kept : ∀ c h, (m.di dir).hdentry c = some h → (m'.di dir).hdentry c = some h
  fresh : ∀ c h, (m'.di dir).hdentry c = some h → (m.di dir).hdentry c = some h ∨
    ∀ x, m.w.node h.root (dir ++ x) = none

/-- What a lookup of the name looks at is the same. -/
structure Mount.SameAt (dir : Path) (name : Name) (m m' : Mount) : Prop where
  entry : ∀ r, m'.w.node r (dir ++ [name]) = m.w.node r (dir ++ [name])
  wh : ∀ r, (m'.w.node r (dir ++ [whName name])).isSome = (m.w.node r (dir ++ [whName name])).isSome
  opq : ∀ r, (m'.w.node r (dir ++ [name] ++ [diropqName])).isSome =
    (m.w.node r (dir ++ [name] ++ [diropqName])).isSome

theorem Mount.KeepsDir.refl (hm : m.Dirs sb dir) : Mount.KeepsDir sb dir m m :=
  ⟨hm, hm, rfl, fun _ _ hc => hc, fun _ _ hc => .inl hc⟩

/-- The cells of the old slots are the same. -/
theorem Mount.KeepsDir.cell_eq (hk : Mount.KeepsDir sb dir m m') (hs : Mount.SameAt dir name m m')
    (hc : (m.di dir).hdentry c = some h) : m'.cell sb dir name c = m.cell sb dir name c := by
  rw [hk.before.cell_some hc, hk.after.cell_some (hk.kept c h hc), hs.entry, hs.wh, hs.opq]

/-- The cells of new slots are empty. -/
theorem Mount.KeepsDir.cell_fresh (hk : Mount.KeepsDir sb dir m m') (hs : Mount.SameAt dir name m m')
    (hc : (m'.di dir).hdentry c = some h) (hno : (m.di dir).hdentry c = none) :
    ¬ Scan.full (m'.cell sb dir name c) := by
  rcases hk.fresh c h hc with hold | hempty
  · rw [hno] at hold
    cases hold
  · refine (hk.after.not_full_iff hc).mpr ⟨by rw [hs.entry, hempty], fun _ => ?_⟩
    have hwh := hs.wh h.root
    rw [hempty] at hwh
    exact Option.not_isSome_iff_eq_none.mp (by rw [hwh]; exact Bool.false_ne_true)

/-- So the lookup finds the same. -/
theorem Mount.KeepsDir.found_eq (hk : Mount.KeepsDir sb dir m m') (hs : Mount.SameAt dir name m m') :
    m'.found sb dir name = m.found sb dir name := by
  rw [Mount.found_eq, Mount.found_eq]
  refine Scan.search_same (m.asked_sorted dir) (m'.asked_sorted dir) (fun c => ?_) fun c hc => ?_
  · constructor
    · rintro ⟨hmem, hfull⟩
      obtain ⟨h, hh⟩ := hk.before.slot_of_full hfull
      refine ⟨(hk.after.mem_asked (hk.kept c h hh)).mpr ?_, by rwa [hk.cell_eq hs hh]⟩
      rw [hk.tail]
      exact (hk.before.mem_asked hh).mp hmem
    · rintro ⟨hmem, hfull⟩
      obtain ⟨h, hh⟩ := hk.after.slot_of_full hfull
      cases hold : (m.di dir).hdentry c with
      | none => exact absurd hfull (hk.cell_fresh hs hh hold)
      | some h₀ =>
        refine ⟨(hk.before.mem_asked hold).mpr ?_, by rwa [hk.cell_eq hs hold] at hfull⟩
        rw [← hk.tail]
        exact (hk.after.mem_asked hh).mp hmem
  · obtain ⟨h, hh⟩ := hk.before.slot_of_full hc
    exact hk.cell_eq hs hh

end Aufs
