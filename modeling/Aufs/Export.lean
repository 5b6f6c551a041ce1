-- SUMMARY: NFS file handles: the word that holds the branch id and the generation, and the branch a handle is resolved on (export.c).
import Aufs.Dinfo
import Aufs.Inode

/-!
# File handles

The first word of a handle holds a branch id and the generation of the mount,
each narrowed to `aufs_bindex_t`. The operands are promoted to `int` before they
are joined, so a generation whose sign bit is set after the narrowing covers the
id with ones.
-/

namespace Aufs

/-- `decode_br_id_sigen`, with `w` the number of bits of `aufs_bindex_t`. -/
def decodeBrIdSigen (w : Nat) (a : BitVec 32) : BitVec w × BitVec w := ((a >>> 16).setWidth w, a.setWidth w)

/-- `encode_br_id_sigen` -/
def encodeBrIdSigen {w : Nat} (brId sigen : BitVec w) : BitVec 32 :=
  (brId.signExtend 32 <<< 16) ||| sigen.signExtend 32

/-- The words of a handle that aufs itself writes. An inode number takes one or two words. -/
structure Fh where
  brIdSigen : BitVec 32
  ino : Nat
  dirIno : Nat
  hIno : Nat
  hIgen : BitVec 32

/-- `Fh_tail` with 64 bit inode numbers. -/
def fhTail : Nat := 9

/-- What a handle is made from: an inode and its number, with the hidden generations. -/
structure FhInode where
  ino : Nat
  ii : Iinfo
  hIgen : Int → BitVec 32

/-- `aufs_encode_fh` up to the handle of the branch. `exportable` says which branches have
`s_export_op`. -/
def aufsEncodeFh {w : Nat} (brId : Int → BitVec w) (gen : BitVec 32) (exportable : Int → Bool)
    (d : Dinfo) (inode : FhInode) (dirIno maxLen : Nat) : Except Errno Fh :=
  if maxLen ≤ fhTail then .error .ENOSPC
  else
    let bindex := inode.ii.bstart
    if !exportable bindex then .error .EPERM
    -- a pseudo-link
    else if bindex < d.bstart ∨ d.bend < bindex ∨ d.hDptrI bindex = none then .error .EPERM
    else
      match inode.ii.hIptr with
      | none => .error .oops
      | some h =>
        .ok {
          brIdSigen := encodeBrIdSigen (brId bindex) (gen.setWidth w)
          ino := inode.ino
          dirIno := dirIno
          hIno := h.ino
          hIgen := inode.hIgen bindex }

/-- The head of `aufs_decode_fh`: the branch of a handle. -/
def fhBranch (w : Nat) (sb : SuperBlock) (gen : BitVec 32) (fh : Fh) : Except Errno Int :=
  let (brId, sigen) := decodeBrIdSigen w fh.brIdSigen
  let bindex := sb.findBrindex brId.toInt
  if bindex < 0 ∨ gen.toInt < sigen.toInt then .error .ESTALE else .ok bindex

/-- `aufs_decode_fh`. `search` are its three ways to find the dentry, of which the last one
starts from the branch. -/
def aufsDecodeFh {α : Type} (w : Nat) (sb : SuperBlock) (gen : BitVec 32) (fh : Fh)
    (search : Int → Except Errno (Option α)) (inodeOf : α → FhInode) (acceptable : α → Bool) : Except Errno α :=
  match fhBranch w sb gen fh with
  | .error e => .error e
  | .ok bindex =>
    match search bindex with
    | .error e => .error e
    | .ok none => .error .ESTALE
    | .ok (some dentry) =>
      let inode := inodeOf dentry
      let held := inode.ii.bstart ≤ bindex ∧ bindex ≤ inode.ii.bend ∧ (inode.ii.hIptrI bindex).isSome
      if held ∧ inode.hIgen bindex = fh.hIgen ∧ acceptable dentry then .ok dentry else .error .ESTALE

-- ---------------------------------------------------------------------------
-- The word
-- ---------------------------------------------------------------------------

variable {w : Nat}

/-- The low half comes back. -/
theorem decode_sigen (hw : w ≤ 16) (brId sigen : BitVec w) :
    (decodeBrIdSigen w (encodeBrIdSigen brId sigen)).2 = sigen := by
  apply BitVec.eq_of_getLsbD_eq
  intro i hi
  have h32 : i < 32 := by omega
  have h16 : i < 16 := by omega
  simp [decodeBrIdSigen, encodeBrIdSigen, BitVec.getElem_signExtend, hi, h32, h16]

/-- The high half comes back unless the sign of the generation covers it. -/
theorem decode_brId (hw : w ≤ 16) (brId sigen : BitVec w) :
    (decodeBrIdSigen w (encodeBrIdSigen brId sigen)).1 = if sigen.msb then BitVec.allOnes w else brId := by
  apply BitVec.eq_of_getLsbD_eq
  intro i hi
  have h1 : 16 + i < 32 := by omega
  have h2 : ¬ 16 + i < w := by omega
  have h3 : i < 32 := by omega
  cases hm : sigen.msb <;>
    simp [decodeBrIdSigen, encodeBrIdSigen, BitVec.getElem_signExtend, hi, h1, h2, h3, hm]

/-- A number without the sign bit after the narrowing is its own remainder. -/
theorem narrow_le_iff (gen : BitVec 32) (h : (gen.setWidth w).msb = false) :
    (gen.setWidth w).toInt ≤ gen.toInt ↔ 0 ≤ gen.toInt := by
  rw [BitVec.toInt_eq_toNat_of_msb h]
  constructor
  · intro hle
    omega
  · intro h0
    have hmsb : gen.msb = false := by
      by_contra hne
      have := BitVec.toInt_neg_of_msb_true (by simpa using hne)
      omega
    rw [BitVec.toInt_eq_toNat_of_msb hmsb, BitVec.toNat_setWidth]
    exact Int.ofNat_le.mpr (Nat.mod_le _ _)

theorem fhBranch_eq_ok {sb : SuperBlock} {gen : BitVec 32} {fh : Fh} {b : Int} :
    fhBranch w sb gen fh = .ok b ↔
      ¬(sb.findBrindex (decodeBrIdSigen w fh.brIdSigen).1.toInt < 0 ∨
        gen.toInt < (decodeBrIdSigen w fh.brIdSigen).2.toInt) ∧
        sb.findBrindex (decodeBrIdSigen w fh.brIdSigen).1.toInt = b := by
  simp only [fhBranch]
  by_cases hstale : sb.findBrindex (decodeBrIdSigen w fh.brIdSigen).1.toInt < 0 ∨
      gen.toInt < (decodeBrIdSigen w fh.brIdSigen).2.toInt
  · rw [if_pos hstale]
    exact ⟨(fun h => by cases h), fun h => absurd hstale h.1⟩
  · rw [if_neg hstale, Except.ok.injEq, and_iff_right hstale]

/-- What `aufs_encode_fh` puts in the first word. -/
theorem aufsEncodeFh_ok {brId : Int → BitVec w} {gen : BitVec 32} {exportable : Int → Bool} {d : Dinfo}
    {inode : FhInode} {dirIno maxLen : Nat} {fh : Fh}
    (h : aufsEncodeFh brId gen exportable d inode dirIno maxLen = .ok fh) :
    fh.brIdSigen = encodeBrIdSigen (brId inode.ii.bstart) (gen.setWidth w) ∧
      fh.hIgen = inode.hIgen inode.ii.bstart ∧ inode.ii.hIptr.isSome := by
  unfold aufsEncodeFh at h
  split at h
  · simp at h
  · dsimp only at h
    split at h
    · simp at h
    · split at h
      · simp at h
      · split at h
        · simp at h
        · rename_i hi hhi
          obtain rfl := Except.ok.inj h
          exact ⟨rfl, rfl, by rw [hhi]; rfl⟩

/-- A handle that is resolved on its branch gives the dentry back when the search finds it with
its inode unchanged. -/
theorem aufsDecodeFh_of_branch {α : Type} {sb : SuperBlock} {brId : Int → BitVec w} {gen : BitVec 32}
    {exportable : Int → Bool} {d : Dinfo} {inode : FhInode} {dirIno maxLen : Nat} {fh : Fh}
    {search : Int → Except Errno (Option α)} {inodeOf : α → FhInode} {acceptable : α → Bool} {dentry : α}
    (hfh : aufsEncodeFh brId gen exportable d inode dirIno maxLen = .ok fh)
    (hbranch : fhBranch w sb gen fh = .ok inode.ii.bstart)
    (hsearch : search inode.ii.bstart = .ok (some dentry)) (hinode : inodeOf dentry = inode)
    (hrange : inode.ii.bstart ≤ inode.ii.bend) (hacceptable : acceptable dentry = true) :
    aufsDecodeFh w sb gen fh search inodeOf acceptable = .ok dentry := by
  obtain ⟨-, hgen, hptr⟩ := aufsEncodeFh_ok hfh
  simp only [aufsDecodeFh, hbranch, hsearch, hinode]
  rw [if_pos ⟨⟨le_rfl, hrange, hptr⟩, hgen.symm, hacceptable⟩]

/-- The branch id and a generation that is not newer come back from the first word of a new
handle, and the handle is resolved on its branch, exactly if the generation keeps its sign in
`aufs_bindex_t` and is not negative, or the id has all bits set and the narrowed generation is
not above the generation. -/
theorem decode_encode_iff {sb : SuperBlock} {brId : Int → BitVec w} {gen : BitVec 32}
    {exportable : Int → Bool} {d : Dinfo} {inode : FhInode} {dirIno maxLen : Nat} {fh : Fh}
    (hw : w ≤ 16) (hids : sb.DistinctIds)
    (hb : sb.sbrId inode.ii.bstart = some (brId inode.ii.bstart).toInt)
    (hfh : aufsEncodeFh brId gen exportable d inode dirIno maxLen = .ok fh) :
    ((decodeBrIdSigen w fh.brIdSigen).1 = brId inode.ii.bstart ∧
        (decodeBrIdSigen w fh.brIdSigen).2.toInt ≤ gen.toInt ∧ fhBranch w sb gen fh = .ok inode.ii.bstart) ↔
      ((gen.setWidth w).msb = false ∧ 0 ≤ gen.toInt) ∨
        ((gen.setWidth w).msb = true ∧ brId inode.ii.bstart = BitVec.allOnes w ∧
          (gen.setWidth w).toInt ≤ gen.toInt) := by
  have hfound : (decodeBrIdSigen w fh.brIdSigen).1 = brId inode.ii.bstart →
      (decodeBrIdSigen w fh.brIdSigen).2.toInt ≤ gen.toInt → fhBranch w sb gen fh = .ok inode.ii.bstart := by
    intro hid hgen
    have hb0 := (SuperBlock.range_of_sbrId hb).1
    have hindex := hids.findBrindex hb
    simp only [fhBranch, hid, hindex]
    rw [if_neg]
    omega
  rw [(aufsEncodeFh_ok hfh).1, decode_brId hw, decode_sigen hw] at hfound ⊢
  cases hm : (gen.setWidth w).msb with
  | false =>
      simp only [hm, Bool.false_eq_true, if_false, true_and, false_and, or_false] at hfound ⊢
      rw [← narrow_le_iff gen hm]
      exact ⟨fun h => h.1, fun h => ⟨h, hfound trivial h⟩⟩
  | true =>
      simp only [hm, if_true, true_and, Bool.true_eq_false, false_and, false_or] at hfound ⊢
      exact ⟨fun h => ⟨h.1.symm, h.2.1⟩, fun h => ⟨h.1.symm, h.2, hfound h.1.symm h.2⟩⟩

-- ---------------------------------------------------------------------------
-- A mount that was remounted often
-- ---------------------------------------------------------------------------

/-- A mount with the branch ids 1 and 2. -/
def exportSb : SuperBlock := .ofBranches [.plain 1 .RW, .plain 2 .RO]

/-- A file on its second branch. -/
def exportInode : FhInode :=
  ⟨100, ⟨1, 1, fun b => if b = 1 then some ⟨⟨2, 5⟩, 2⟩ else none, 1⟩, fun _ => 7⟩

/-- The dentry of the file. -/
def exportDentry : Dinfo := ⟨1, 1, -1, -1, fun b => if b = 1 then some ⟨2, [[97]], none⟩ else none⟩

/-- A handle of the file under some generation, with `aufs_bindex_t` a `short`. -/
def exportFh (gen : BitVec 32) : Except Errno Fh :=
  aufsEncodeFh (fun b => BitVec.ofInt 16 (b + 1)) gen (fun _ => true) exportDentry exportInode 2 64

theorem exportSb_distinctIds : exportSb.DistinctIds := SuperBlock.distinctIds_of_nodup (by decide)

/-- Under the first generation the handle is good. -/
theorem exportFh_first : ∃ fh, exportFh 1 = .ok fh ∧
    (((decodeBrIdSigen 16 fh.brIdSigen).1 = 2 ∧ (decodeBrIdSigen 16 fh.brIdSigen).2.toInt ≤ (1 : BitVec 32).toInt ∧
        fhBranch 16 exportSb 1 fh = .ok 1) ↔
      (((1 : BitVec 32).setWidth 16).msb = false ∧ 0 ≤ (1 : BitVec 32).toInt) ∨
        (((1 : BitVec 32).setWidth 16).msb = true ∧ (2 : BitVec 16) = BitVec.allOnes 16 ∧
          ((1 : BitVec 32).setWidth 16).toInt ≤ (1 : BitVec 32).toInt)) := by
  have hfh : ∃ fh, exportFh 1 = .ok fh := ⟨_, rfl⟩
  obtain ⟨fh, hfh⟩ := hfh
  exact ⟨fh, hfh, decode_encode_iff (by decide) exportSb_distinctIds (by decide) hfh⟩

/-- After 32767 changes of the branch table a new handle is stale at once. -/
theorem exportFh_stale : ∃ fh, exportFh 32768 = .ok fh ∧ (decodeBrIdSigen 16 fh.brIdSigen).1 ≠ 2 ∧
    fhBranch 16 exportSb 32768 fh = .error .ESTALE :=
  ⟨_, rfl, by decide, by decide⟩

end Aufs
