-- SUMMARY: When the refresh of a cached dentry leaves what a new lookup of its name would leave.
import Aufs.HalfLookup

/-!
# Refresh and new lookup

A dentry that a lookup has filled is refreshed under a new branch table, below a
parent that is refreshed already. The refresh keeps the hidden dentries that are
still there without asking whether a whiteout or an opaque directory of a new
branch hides them, goes on with the marks of the earlier lookup, and leaves out
`lkup_dentry` for a file that is in the first branch of the parent.
-/

namespace Aufs

open Overlay

variable {sb : SuperBlock} {name : Name} {parent d : Dinfo} {w w' : World} {type : FType}

/-- The branches in which a lookup below `parent` asks for a name. -/
def layers (parent : Dinfo) : List Int :=
  (bindexes parent.bstart parent.dbtaildir).filter fun b => (parent.hDir b).isSome

/-- What the lookup on the remapped array adds. -/
def resumed (sb : SuperBlock) (w : World) (name : Name) (parent d : Dinfo) : Scan Int HDentry :=
  Scan.resume (cellAt sb w parent name) (markOpt (remapped sb w name parent d).bwh)
    (markOpt (remapped sb w name parent d).bdiropq)
    (Scan.asked (fun j => keeps parent d j = true) (layers parent))

theorem Dinfo.eq_iff {d e : Dinfo} : d = e ↔ (d.hdentry = e.hdentry ∧ d.bwh = e.bwh ∧
    d.bdiropq = e.bdiropq) ∧ d.bstart = e.bstart ∧ d.bend = e.bend := by
  constructor
  · rintro rfl
    exact ⟨⟨rfl, rfl, rfl⟩, rfl, rfl⟩
  · rintro ⟨⟨h1, h2, h3⟩, h4, h5⟩
    exact Dinfo.mk.injEq .. |>.mpr ⟨h4, h5, h2, h3, h1⟩

/-- The dentry information with one slot. -/
def Dinfo.single (b : Int) (h : HDentry) : Dinfo := .ofScan ⟨[(b, h)], none, none⟩

theorem mem_layers_of_full {b : Int} (hb : b ∈ bindexes parent.bstart parent.dbtaildir)
    (hf : Scan.full (cellAt sb w parent name b)) : b ∈ layers parent := by
  refine List.mem_filter.mpr ⟨hb, ?_⟩
  by_contra hno
  rw [cellAt_of_no_dir sb w name (by simpa using hno)] at hf
  simp [Scan.full] at hf

/-- What a lookup of a file finds: at `f`, the first branch with something of the name, the
entry `x` and no whiteout. -/
structure FoundFile (sb : SuperBlock) (w : World) (name : Name) (parent : Dinfo) (f : Int) (x : HDentry) :
    Prop where
  first : First (fun c => c ∈ layers parent ∧ Scan.full (cellAt sb w parent name c)) f
  mask : (cellAt sb w parent name f).mask = false
  entry : (cellAt sb w parent name f).entry = some x

section

variable {f : Int} {x : HDentry}

theorem FoundFile.full (hf : FoundFile sb w name parent f x) : Scan.full (cellAt sb w parent name f) :=
  hf.first.1.2

theorem FoundFile.mem (hf : FoundFile sb w name parent f x) :
    f ∈ bindexes parent.bstart parent.dbtaildir :=
  (List.mem_filter.mp hf.first.1.1).1

theorem FoundFile.le (hf : FoundFile sb w name parent f x) {c : Int}
    (hc : c ∈ bindexes parent.bstart parent.dbtaildir) (hfc : Scan.full (cellAt sb w parent name c)) :
    f ≤ c :=
  hf.first.le ⟨mem_layers_of_full hc hfc, hfc⟩

end

end Aufs
