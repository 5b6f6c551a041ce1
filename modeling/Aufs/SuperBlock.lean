-- SUMMARY: The branch table of an aufs mount and the mount flags the modelled code reads.
import Aufs.Basic

/-!
# The super block

`struct aufs_sbinfo` with its branch array. `si_bend` is the length of the
array less one; an index outside the array has no branch, where the source
would read past its end.
-/

namespace Aufs

/-- `struct aufs_branch`. `root` tells the mounted file systems apart
(`br_mnt->mnt_root`), `rdonly` is `MS_RDONLY` of the mounted super block and
`wh` says whether the whiteout base `br_wh` exists. -/
structure Branch where
  id : Int
  perm : BrPerm
  root : Nat
  rdonly : Bool
  nfs : Bool
  wh : Bool
  count : Int
  deriving DecidableEq, Repr

/-- `br_rdonly` -/
def Branch.brRdonly (br : Branch) : Bool := br.rdonly || !brWritable br.perm

/-- `struct aufs_sbinfo` -/
structure SuperBlock where
  branches : List Branch
  generation : Int
  xino : Bool
  plink : Bool
  alwaysDiropq : Bool
  dirwh : Nat
  rdcache : Nat
  deriving DecidableEq, Repr

/-- A branch with its own file system and a whiteout base. -/
def Branch.plain (id : Int) (perm : BrPerm) : Branch := ⟨id, perm, id.toNat, false, false, true, 0⟩

namespace SuperBlock

/-- A mount with these branches and the default flags. -/
def ofBranches (branches : List Branch) : SuperBlock := ⟨branches, 1, true, true, false, 3, 10⟩

/-- `sbend` -/
def sbend (sb : SuperBlock) : Int := (sb.branches.length : Int) - 1

/-- `stobr` -/
def stobr (sb : SuperBlock) (bindex : Int) : Option Branch :=
  if 0 ≤ bindex then sb.branches[bindex.toNat]? else none

/-- `sbr_id` -/
def sbrId (sb : SuperBlock) (bindex : Int) : Option Int := (sb.stobr bindex).map Branch.id

/-- `sbr_is_whable` -/
def sbrIsWhable (sb : SuperBlock) (bindex : Int) : Bool :=
  (sb.stobr bindex).any fun br => brWhable br.perm

/-- `find_brindex`: the index of the branch with this id, `-1` when there is none. -/
def findBrindex (sb : SuperBlock) (brId : Int) : Int :=
  ((bindexes 0 sb.sbend).find? fun bindex => sb.sbrId bindex = some brId).getD (-1)

theorem neg_one_le_sbend (sb : SuperBlock) : -1 ≤ sb.sbend := by
  simp only [sbend]
  omega

theorem stobr_isSome {sb : SuperBlock} {b : Int} :
    (sb.stobr b).isSome ↔ 0 ≤ b ∧ b ≤ sb.sbend := by
  unfold stobr sbend
  split
  · simp only [isSome_getElem?]
    omega
  · simp only [Option.isSome_none, Bool.false_eq_true, false_iff]
    omega

theorem range_of_stobr {sb : SuperBlock} {b : Int} {br : Branch} (h : sb.stobr b = some br) :
    0 ≤ b ∧ b ≤ sb.sbend :=
  stobr_isSome.mp (by simp [h])

theorem range_of_sbrId {sb : SuperBlock} {b i : Int} (h : sb.sbrId b = some i) :
    0 ≤ b ∧ b ≤ sb.sbend := by
  obtain ⟨br, hbr, -⟩ := Option.map_eq_some_iff.mp h
  exact stobr_isSome.mp (by simp [hbr])

theorem exists_sbrId {sb : SuperBlock} {b : Int} (h0 : 0 ≤ b) (h1 : b ≤ sb.sbend) :
    ∃ i, sb.sbrId b = some i := by
  obtain ⟨br, hbr⟩ := Option.isSome_iff_exists.mp (stobr_isSome.mpr ⟨h0, h1⟩)
  exact ⟨br.id, by simp [sbrId, hbr]⟩

theorem mem_ids {sb : SuperBlock} {i : Int} :
    i ∈ sb.branches.map Branch.id ↔ ∃ b, sb.sbrId b = some i := by
  rw [List.mem_iff_getElem?]
  constructor
  · rintro ⟨n, hn⟩
    exact ⟨n, by simpa [sbrId, stobr] using hn⟩
  · rintro ⟨b, hb⟩
    have h0 := (range_of_sbrId hb).1
    exact ⟨b.toNat, by simpa [sbrId, stobr, h0] using hb⟩

/-- The id is found where the table has it, or nowhere. -/
theorem findBrindex_cases (sb : SuperBlock) (brId : Int) :
    (sb.sbrId (sb.findBrindex brId) = some brId) ∨
      (sb.findBrindex brId = -1 ∧ ∀ b, sb.sbrId b ≠ some brId) := by
  unfold findBrindex
  cases h : (bindexes 0 sb.sbend).find? fun bindex => sb.sbrId bindex = some brId with
  | some b =>
      have := List.find?_some h
      exact .inl (by simpa using this)
  | none =>
      refine .inr ⟨rfl, fun b hb => ?_⟩
      have := List.find?_eq_none.mp h b (mem_bindexes.mpr (range_of_sbrId hb))
      simp [hb] at this

theorem sbrId_findBrindex {sb : SuperBlock} {brId : Int} (h : 0 ≤ sb.findBrindex brId) :
    sb.sbrId (sb.findBrindex brId) = some brId := by
  rcases sb.findBrindex_cases brId with h' | ⟨h', -⟩
  · exact h'
  · omega

theorem findBrindex_le_sbend (sb : SuperBlock) (brId : Int) : sb.findBrindex brId ≤ sb.sbend := by
  rcases sb.findBrindex_cases brId with h | ⟨h, -⟩
  · exact (range_of_sbrId h).2
  · have := sb.neg_one_le_sbend
    omega

theorem findBrindex_neg_iff {sb : SuperBlock} {brId : Int} :
    sb.findBrindex brId < 0 ↔ sb.findBrindex brId = -1 := by
  rcases sb.findBrindex_cases brId with h | ⟨h, -⟩
  · have := (range_of_sbrId h).1
    omega
  · omega

/-- Two ids that are found at one index are one id. -/
theorem findBrindex_inj {sb : SuperBlock} {i j : Int} (h : 0 ≤ sb.findBrindex i)
    (he : sb.findBrindex i = sb.findBrindex j) : i = j := by
  have hi := sbrId_findBrindex h
  have hj := sbrId_findBrindex (he ▸ h)
  rw [he, hj] at hi
  exact (Option.some.inj hi).symm

/-- The branch ids are pairwise distinct. -/
def DistinctIds (sb : SuperBlock) : Prop :=
  ∀ ⦃b c i⦄, sb.sbrId b = some i → sb.sbrId c = some i → b = c

theorem distinctIds_of_nodup {sb : SuperBlock} (h : (sb.branches.map Branch.id).Nodup) :
    sb.DistinctIds := by
  intro b c i hb hc
  have hget : ∀ {x : Int}, sb.sbrId x = some i → 0 ≤ x ∧ (sb.branches.map Branch.id)[x.toNat]? = some i := by
    intro x hx
    have h0 := (range_of_sbrId hx).1
    refine ⟨h0, ?_⟩
    simpa [sbrId, stobr, h0] using hx
  obtain ⟨hb0, hb⟩ := hget hb
  obtain ⟨hc0, hc⟩ := hget hc
  have hlt := (List.getElem?_eq_some_iff.mp hb).1
  have := (List.getElem?_inj hlt h).mp (hb.trans hc.symm)
  omega

theorem DistinctIds.findBrindex {sb : SuperBlock} (h : sb.DistinctIds) {b i : Int}
    (hb : sb.sbrId b = some i) : sb.findBrindex i = b := by
  rcases sb.findBrindex_cases i with h' | ⟨-, h'⟩
  · exact h h' hb
  · exact absurd hb (h' b)

end SuperBlock

end Aufs
