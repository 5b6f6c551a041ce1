-- SUMMARY: When the listing of a directory and the lookup of its names agree.
import Aufs.DirStream
import Aufs.Lookup

/-!
# Listing and lookup

`read_vdir` and `lkup_dentry` both decide whether a name is in a directory. The
listing counts every whiteout it meets, and a name hides the whiteouts below it
and beside it; the lookup asks for a whiteout first, and only on branches whose
permission `br_whable` accepts.
-/

namespace Aufs

open Overlay

variable {hash : Name → Nat} {sb : SuperBlock} {name : Name} {parent : Dinfo} {w w' : World}

/-- The dentry of a directory: between its ends every slot is that of a hidden directory. -/
structure Dinfo.IsDir (d : Dinfo) : Prop where
  bstart : 0 ≤ d.bstart
  slots : ∀ b h, d.hDptrI b = some h → b ≤ d.dbtaildir → h.isDir

/-- Does the branch `b` have a file of this name in the directory? -/
def Dinfo.nameAt (d : Dinfo) (w : World) (name : Name) (b : Int) : Prop :=
  d.bstart ≤ b ∧ b ≤ d.dbtaildir ∧
    ∃ h, d.hDptrI b = some h ∧ ((w.fs h.root).node (h.path ++ [name])).isSome

theorem nameAt_congr (h : w'.fs = w.fs) : parent.nameAt w' name = parent.nameAt w name := by
  funext b
  simp only [Dinfo.nameAt, h]

theorem Dinfo.isDir_root (sb : SuperBlock) (w : World) : (rootDinfo sb w).IsDir where
  bstart := le_rfl
  slots := by
    intro b h hb _
    rw [hDptrI_of_le le_rfl (range_of_hDptrI hb).2] at hb
    obtain ⟨br, -, rfl⟩ := Option.map_eq_some_iff.mp hb
    exact (w.fs br.root).wf.closed.1

-- ---------------------------------------------------------------------------
-- The listing
-- ---------------------------------------------------------------------------

theorem openHdirs_ok {d : Dinfo} {L : List Int} {hfile : Int → Option HFile}
    (h : openHdirs d L w = (some hfile, w')) :
    w.SameFs w' ∧ ∀ b, hfile b = if b ∈ L then (d.hDptrI b).map fun h => ⟨h.root, h.path, 0⟩ else none := by
  induction L generalizing hfile w with
  | nil =>
      simp only [openHdirs, Prod.mk.injEq, Option.some.injEq] at h
      obtain ⟨rfl, rfl⟩ := h
      exact ⟨.refl w, fun b => by simp⟩
  | cons c L ih =>
      rw [openHdirs] at h
      split at h
      · rename_i hno
        obtain ⟨hs, hf⟩ := ih h
        refine ⟨hs, fun b => ?_⟩
        by_cases hbc : b = c
        · subst hbc
          simp [hf, hno]
        · simp [hf, hbc]
      · rename_i hd hhd
        split at h
        · simp at h
        · rename_i w1 hw1
          obtain ⟨-, rfl⟩ := Prod.mk.inj hw1
          split at h
          · simp at h
          · rename_i hfile1 w2 ho
            simp only [Prod.mk.injEq, Option.some.injEq] at h
            obtain ⟨rfl, rfl⟩ := h
            obtain ⟨hs, hf⟩ := ih ho
            refine ⟨World.SameFs.trans (.next w) hs, fun b => ?_⟩
            by_cases hbc : b = c
            · subst hbc
              simp [hhd]
            · simp [hbc, hf]

/-- A stream that was just opened delivers the names the branches have. -/
theorem mem_delivers {ino : DirInode} {f : DirFile} (h : doOpenDir ino parent w = (some f, w'))
    (h1 : name ≠ dot) (h2 : name ≠ dotdot) (b : Int) :
    name ∈ f.delivers w' b ↔ parent.nameAt w name b := by
  have hstart := DirFile.delivers_of_atStart (doOpenDir_atStart h) w'
  unfold doOpenDir at h
  split at h
  · simp at h
  · rename_i hfile w1 ho
    simp only [Prod.mk.injEq, Option.some.injEq] at h
    obtain ⟨rfl, rfl⟩ := h
    obtain ⟨hs, hf⟩ := openHdirs_ok ho
    rw [hstart]
    simp only [DirFile.holds, Dinfo.nameAt, hf, mem_bindexes]
    by_cases hb : parent.bstart ≤ b ∧ b ≤ parent.dbtaildir
    · simp only [hb, and_self, if_true, true_and]
      cases hd : parent.hDptrI b with
      | none => simp
      | some hp => simp [World.mem_dirents _ h1 h2, hs.fs]
    · rw [if_neg hb]
      simp only [List.not_mem_nil, false_iff]
      exact fun hx => hb ⟨hx.1, hx.2.1⟩

theorem doOpenDir_ok {ino : DirInode} {f : DirFile} (h : doOpenDir ino parent w = (some f, w')) :
    w.SameFs w' ∧ f.fbstart = parent.bstart := by
  unfold doOpenDir at h
  split at h
  · simp at h
  · rename_i hfile w1 ho
    simp only [Prod.mk.injEq, Option.some.injEq] at h
    obtain ⟨rfl, rfl⟩ := h
    exact ⟨(openHdirs_ok ho).1, rfl⟩

theorem isWhName_of_not_hasWhPfx {n : Name} (h : hasWhPfx n = false) : isWhName n = false := by
  simp [isWhName, h]

/-- The listing of a stream that was just opened shows what the branches show. -/
theorem mem_listing {mayRead : Bool} {ino ino' : DirInode} {f f' : DirFile} {w1 w2 : World}
    (hparent : parent.IsDir) (h1 : name ≠ dot) (h2 : name ≠ dotdot)
    (hopen : doOpenDir ino parent w = (some f, w1))
    (hread : readVdir hash sb mayRead ino f w1 = (.ok (), ino', f', w2))
    (hbuild : vdirPlan sb mayRead ino w1 ≠ .serve) :
    ∃ vd, ino'.vdir = some vd ∧ (name ∈ vd.names ↔ isWhName name = false ∧
      ∃ b, Shown (parent.nameAt w name) (parent.nameAt w (whName name)) b) := by
  have h0 : 0 ≤ f.fbstart := (doOpenDir_ok hopen).2 ▸ hparent.bstart
  rcases readVdir_ok hread h0 with ⟨hp, -⟩ | ⟨-, vd, hvd, hm⟩
  · exact absurd hp hbuild
  · refine ⟨vd, hvd, ?_⟩
    have hdot : ∀ n : Name, n.length ≤ 2 → whName name ≠ n := by
      rintro _ hlen rfl
      simp [whName, whPfx] at hlen
    simp only [hm.mem, Shown, mem_delivers hopen h1 h2,
      mem_delivers hopen (hdot dot (by decide)) (hdot dotdot (by decide))]

-- ---------------------------------------------------------------------------
-- The lookup
-- ---------------------------------------------------------------------------

theorem hDir_of_isDir (hparent : parent.IsDir) {b : Int} (hb : b ≤ parent.dbtaildir) :
    parent.hDir b = parent.hDptrI b := by
  rw [Dinfo.hDir]
  cases hd : parent.hDptrI b with
  | none => rfl
  | some h => simpa [Option.filter_eq_some_iff, HDentry.isDir] using hparent.slots b h hd hb

theorem entry_cellAt (hparent : parent.IsDir) (b : Int) :
    b ∈ bindexes parent.bstart parent.dbtaildir ∧ (cellAt sb w parent name b).entry.isSome ↔
      parent.nameAt w name b := by
  rw [mem_bindexes, Dinfo.nameAt, and_assoc]
  refine and_congr_right fun _ => and_congr_right fun hb => ?_
  rw [cellAt, hDir_of_isDir hparent hb]
  cases parent.hDptrI b <;> simp

theorem mask_cellAt (hparent : parent.IsDir) (b : Int) :
    b ∈ bindexes parent.bstart parent.dbtaildir ∧ (cellAt sb w parent name b).mask ↔
      parent.nameAt w (whName name) b ∧ sb.sbrIsWhable b := by
  rw [mem_bindexes, Dinfo.nameAt, and_assoc, and_assoc, and_assoc]
  refine and_congr_right fun _ => and_congr_right fun hb => ?_
  rw [cellAt, hDir_of_isDir hparent hb]
  cases parent.hDptrI b with
  | none => simp
  | some h => simp [and_comm]

/-- A lookup finds what a search from the top finds that stops at the whiteouts of branches
that honour them. -/
theorem lkupDentry_ne_zero_iff {np : Nat} {d' : Dinfo} (hparent : parent.IsDir)
    (h : lkupDentry sb name parent .alloc parent.bstart none w = (.ok np, d', w')) :
    np ≠ 0 ↔ ∃ b, Found (parent.nameAt w name)
      (fun c => parent.nameAt w (whName name) c ∧ sb.sbrIsWhable c) b := by
  obtain ⟨-, rfl, -⟩ := lkupDentry_fresh hparent.bstart h
  rw [ne_eq, List.length_eq_zero_iff, ← ne_eq, Dinfo.scan, Scan.search_slots_ne_nil (bindexes_sorted _ _)]
  simp only [Found, Shown, entry_cellAt hparent, mask_cellAt hparent]

/-- The listing of a directory and the lookup of a name in it agree exactly if the topmost
branch that has the name or its whiteout has the name and no whiteout that it honours, or has
only the whiteout and every branch with the name has such a whiteout at or above it. -/
theorem listing_lookup_agree_iff {mayRead : Bool} {ino ino' : DirInode} {f f' : DirFile}
    {w1 w2 w3 w4 : World} {np : Nat} {d' : Dinfo} (hparent : parent.IsDir)
    (hname : hasWhPfx name = false) (hdot : name ≠ dot) (hdotdot : name ≠ dotdot)
    (hopen : doOpenDir ino parent w = (some f, w1))
    (hread : readVdir hash sb mayRead ino f w1 = (.ok (), ino', f', w2))
    (hbuild : vdirPlan sb mayRead ino w1 ≠ .serve)
    (hsame : w3.fs = w.fs)
    (hlookup : lkupDentry sb name parent .alloc parent.bstart none w3 = (.ok np, d', w4)) :
    ((∃ vd, ino'.vdir = some vd ∧ name ∈ vd.names) ↔ np ≠ 0) ↔
      Agrees (parent.nameAt w name) (parent.nameAt w (whName name)) fun b => sb.sbrIsWhable b := by
  obtain ⟨vd, hvd, hlist⟩ := mem_listing hparent hdot hdotdot hopen hread hbuild
  simp only [isWhName_of_not_hasWhPfx hname, true_and] at hlist
  rw [lkupDentry_ne_zero_iff hparent hlookup, nameAt_congr hsame, nameAt_congr hsame]
  have hlisted : (∃ vd, ino'.vdir = some vd ∧ name ∈ vd.names) ↔
      ∃ b, Shown (parent.nameAt w name) (parent.nameAt w (whName name)) b := by
    rw [← hlist]
    constructor
    · rintro ⟨vd', hvd', h⟩
      rw [hvd] at hvd'
      exact Option.some.inj hvd' ▸ h
    · exact fun h => ⟨vd, hvd, h⟩
  rw [hlisted]
  exact shown_iff_found_iff 0 fun c hc =>
    ⟨fun h => by have := h.1; have := hparent.bstart; omega,
      fun h => by have := h.1; have := hparent.bstart; omega⟩

-- ---------------------------------------------------------------------------
-- A whiteout above a file
-- ---------------------------------------------------------------------------

/-- The whiteout of `a` on the upper branch, the file `a` on the lower one. -/
def whAboveWorld : World :=
  .ofFs fun root => if root = 1 then .ofList [([whName [97]], .reg)] else .oneFile

/-- The mount: the upper branch has this permission, the lower one is read-only. -/
def whAboveSb (perm : BrPerm) : SuperBlock := .ofBranches [.plain 1 perm, .plain 2 .RO]

/-- Its root dentry. -/
def whAboveRoot (perm : BrPerm) : Dinfo := rootDinfo (whAboveSb perm) whAboveWorld

/-- The root directory is opened. -/
def whAboveOpen (perm : BrPerm) : Option DirFile × World :=
  doOpenDir ⟨1, none⟩ (whAboveRoot perm) whAboveWorld

/-- The stream. -/
def whAboveFile (perm : BrPerm) : DirFile := (whAboveOpen perm).1.get (by cases perm <;> decide +kernel)

/-- The stream is listed. -/
def whAboveList (perm : BrPerm) : Except Errno Unit × DirInode × DirFile × World :=
  readVdir List.length (whAboveSb perm) true ⟨1, none⟩ (whAboveFile perm) (whAboveOpen perm).2

/-- The name `a` is looked up. -/
def whAboveLookup (perm : BrPerm) : Except Errno Nat × Dinfo × World :=
  lkupDentry (whAboveSb perm) [97] (whAboveRoot perm) .alloc 0 none whAboveWorld

/-- On a branch that honours whiteouts the listing and the lookup hide the name. -/
theorem whAbove_agree_iff :
    ∃ ino' np, (whAboveList .RW).2.1 = ino' ∧ (whAboveLookup .RW).1 = .ok np ∧
      (((∃ vd, ino'.vdir = some vd ∧ [97] ∈ vd.names) ↔ np ≠ 0) ↔
        Agrees ((whAboveRoot .RW).nameAt whAboveWorld [97])
          ((whAboveRoot .RW).nameAt whAboveWorld (whName [97])) fun b => (whAboveSb .RW).sbrIsWhable b) := by
  have hopen : (whAboveOpen .RW).1 = some (whAboveFile .RW) := by simp [whAboveFile]
  have hlist : (whAboveList .RW).1 = .ok () := by decide +kernel
  have hlookup : (whAboveLookup .RW).1 = .ok 0 := by decide +kernel
  exact ⟨_, 0, rfl, hlookup, listing_lookup_agree_iff (Dinfo.isDir_root _ _) (by decide)
    (by decide) (by decide) (Prod.ext hopen rfl) (Prod.ext hlist rfl) (by decide)
    (show whAboveWorld.fs = whAboveWorld.fs from rfl) (Prod.ext hlookup rfl)⟩

/-- On a writable branch that does not honour them the listing hides the name, and the lookup
finds it. -/
theorem lookup_finds_unlisted :
    ∃ ino' np, (whAboveList .RWNoLinkWH).1 = .ok () ∧ (whAboveList .RWNoLinkWH).2.1 = ino' ∧
      (whAboveLookup .RWNoLinkWH).1 = .ok np ∧
      ¬ ((∃ vd, ino'.vdir = some vd ∧ [97] ∈ vd.names) ↔ np ≠ 0) := by
  refine ⟨_, 1, by decide +kernel, rfl, by decide +kernel, fun h => ?_⟩
  obtain ⟨vd, hvd, hmem⟩ := h.mpr (by decide)
  have hnames : (whAboveList .RWNoLinkWH).2.1.vdir.map Vdir.names = some [dot, dotdot] := by decide +kernel
  rw [hvd] at hnames
  rw [Option.some.inj hnames] at hmem
  exact absurd hmem (by decide)

end Aufs
