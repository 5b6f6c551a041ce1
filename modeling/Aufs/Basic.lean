-- SUMMARY: Names, error numbers, file types and branch permissions shared by every part of the model.
import Mathlib.Data.List.Basic
import Mathlib.Logic.Function.Basic

/-!
# Basic vocabulary

Error numbers, names with the whiteout prefix, the file types of `S_IFMT`, and
the branch permissions of `branch.h` with the predicates the kernel code asks
of them. Branch indices (`aufs_bindex_t`) are integers, with `-1` for "none" as
in the source.
-/

namespace Aufs

/-- The error numbers the modelled functions return. `oops` is not an error
number: it stands for a call that reads outside an array or through a `NULL`
pointer, after which the kernel returns nothing. -/
inductive Errno where
  | EPERM | ENOENT | EIO | ENOMEM | EACCES | EBUSY | EEXIST | EXDEV | ENOTDIR | EISDIR
  | EINVAL | ENOSPC | EROFS | EMLINK | EDOM | ENAMETOOLONG | ENOTEMPTY | ESTALE | ENOSYS
  | EAGAIN | EINTR | E2BIG | oops
  deriving DecidableEq, Repr

-- ---------------------------------------------------------------------------
-- Names
-- ---------------------------------------------------------------------------

/-- A file name: its bytes, without the terminating zero. -/
abbrev Name := List UInt8

/-- A path below the root of a mount, from the root downwards. -/
abbrev Path := List Name

/-- `AUFS_WH_PFX`, the bytes of `.wh.`. -/
def whPfx : Name := [46, 119, 104, 46]

/-- `AUFS_WH_LEN`. -/
def whLen : Nat := whPfx.length

/-- The name of the whiteout of `n`. -/
def whName (n : Name) : Name := whPfx ++ n

/-- `AUFS_DIROPQ_NAME` in a build without `CONFIG_AUFS_COMPAT`: `.wh..opq`. -/
def diropqBase : Name := whPfx ++ [46, 111, 112, 113]

/-- `AUFS_WH_DIROPQ`, the mark of an opaque directory: `.wh..wh..opq`. -/
def diropqName : Name := whName diropqBase

/-- The name test of `lkup_dentry`: does the name begin with the whiteout prefix? -/
def hasWhPfx (n : Name) : Bool := whPfx.isPrefixOf n

/-- The name `.`. -/
def dot : Name := [46]

/-- The name `..`. -/
def dotdot : Name := [46, 46]

/-- `PATH_MAX`. -/
def pathMax : Nat := 4096

/-- `NAME_MAX`. -/
def nameMax : Nat := 255

/-- May a file have this name? -/
def validName (n : Name) : Prop := n ≠ [] ∧ n ≠ dot ∧ n ≠ dotdot ∧ n.length ≤ nameMax

instance (n : Name) : Decidable (validName n) := inferInstanceAs (Decidable (_ ∧ _))

theorem whLen_eq : whLen = 4 := rfl

@[simp] theorem hasWhPfx_whName (n : Name) : hasWhPfx (whName n) = true := by
  simp [hasWhPfx, whName]

theorem hasWhPfx_iff {n : Name} : hasWhPfx n = true ↔ ∃ m, n = whName m := by
  rw [hasWhPfx, List.isPrefixOf_iff_prefix]
  constructor
  · rintro ⟨m, rfl⟩
    exact ⟨m, rfl⟩
  · rintro ⟨m, rfl⟩
    exact List.prefix_append _ _

theorem whName_injective : Function.Injective whName := fun _ _ h =>
  List.append_cancel_left h

@[simp] theorem whName_inj {m n : Name} : whName m = whName n ↔ m = n :=
  whName_injective.eq_iff

/-- A name that may be looked up is never the name of a whiteout. -/
theorem ne_whName_of_not_hasWhPfx {n m : Name} (h : hasWhPfx n = false) : n ≠ whName m := by
  rintro rfl
  simp at h

-- ---------------------------------------------------------------------------
-- File types
-- ---------------------------------------------------------------------------

/-- The file type of an inode, `i_mode & S_IFMT`. -/
inductive FType where
  | reg | dir | lnk | chr | blk | fifo | sock
  deriving DecidableEq, Repr

-- ---------------------------------------------------------------------------
-- Branch permissions
-- ---------------------------------------------------------------------------

/-- The branch permissions `AuBr_*`. -/
inductive BrPerm where
  | RW | RO | RR | RWNoLinkWH | ROWH | RRWH
  deriving DecidableEq, Repr

/-- `br_writable` -/
def brWritable (p : BrPerm) : Bool := p = .RW || p = .RWNoLinkWH

/-- `br_whable`: are whiteouts looked up on a branch of this permission? -/
def brWhable (p : BrPerm) : Bool := p = .RW || p = .ROWH || p = .RRWH

/-- `br_linkable_wh` -/
def brLinkableWh (p : BrPerm) : Bool := p = .RW

/-- A writable branch honours whiteouts exactly when they may be hard links:
`RWNoLinkWH` is the one writable permission `br_whable` leaves out. -/
theorem brWhable_of_brWritable {p : BrPerm} (h : brWritable p = true) :
    brWhable p = brLinkableWh p := by
  cases p <;> simp_all [brWritable, brWhable, brLinkableWh]

-- ---------------------------------------------------------------------------
-- Machine integers
-- ---------------------------------------------------------------------------

/-- What an `int` of 32 bits holds of a number. -/
def cInt (n : Int) : Int := n.bmod 4294967296

theorem cInt_eq {n : Int} (h₁ : -2147483648 ≤ n) (h₂ : n < 2147483648) : cInt n = n :=
  Int.bmod_eq_of_le (by omega) (by omega)

-- ---------------------------------------------------------------------------
-- Index ranges
-- ---------------------------------------------------------------------------

/-- The indices of the loop `for (bindex = lo; bindex <= hi; bindex++)`. -/
def bindexes (lo hi : Int) : List Int := (List.range (hi + 1 - lo).toNat).map fun k : Nat => lo + (k : Int)

theorem mem_bindexes {lo hi b : Int} : b ∈ bindexes lo hi ↔ lo ≤ b ∧ b ≤ hi := by
  simp only [bindexes, List.mem_map, List.mem_range]
  constructor
  · rintro ⟨k, hk, rfl⟩
    omega
  · rintro ⟨h1, h2⟩
    exact ⟨(b - lo).toNat, by omega, by omega⟩

theorem bindexes_of_lt {lo hi : Int} (h : hi < lo) : bindexes lo hi = [] := by
  simp [bindexes, show (hi + 1 - lo).toNat = 0 by omega]

theorem bindexes_cons {lo hi : Int} (h : lo ≤ hi) : bindexes lo hi = lo :: bindexes (lo + 1) hi := by
  obtain ⟨n, hn⟩ : ∃ n, (hi + 1 - lo).toNat = n + 1 := ⟨(hi - lo).toNat, by omega⟩
  have hn' : (hi + 1 - (lo + 1)).toNat = n := by omega
  simp only [bindexes, hn, hn', List.range_succ_eq_map, List.map_cons, List.map_map]
  refine List.cons_eq_cons.mpr ⟨by simp, List.map_congr_left fun k _ => ?_⟩
  simp only [Function.comp_apply, Nat.succ_eq_add_one]
  omega

theorem bindexes_sorted (lo hi : Int) : (bindexes lo hi).Pairwise (· < ·) := by
  rw [bindexes, List.pairwise_map]
  exact List.pairwise_lt_range.imp fun h => by omega

/-- A range splits at any index inside it. -/
theorem bindexes_split {lo hi b : Int} (h1 : lo ≤ b) (h2 : b ≤ hi + 1) :
    bindexes lo hi = bindexes lo (b - 1) ++ bindexes b hi := by
  obtain ⟨n, hn⟩ : ∃ n : Nat, (b - lo).toNat = n := ⟨_, rfl⟩
  induction n generalizing lo with
  | zero =>
      obtain rfl : lo = b := by omega
      simp [bindexes_of_lt (show lo - 1 < lo by omega)]
  | succ n ih =>
      rw [bindexes_cons (show lo ≤ hi by omega), bindexes_cons (show lo ≤ b - 1 by omega),
        ih (by omega) (by omega), List.cons_append]

/-- An upward scan stops at the least index that passes the test. -/
theorem find?_bindexes {lo hi b : Int} {p : Int → Bool} :
    (bindexes lo hi).find? p = some b ↔
      p b ∧ lo ≤ b ∧ b ≤ hi ∧ ∀ c, lo ≤ c → c < b → p c = false := by
  obtain ⟨n, hn⟩ : ∃ n : Nat, (hi + 1 - lo).toNat = n := ⟨_, rfl⟩
  induction n generalizing lo with
  | zero =>
      rw [bindexes_of_lt (by omega), List.find?_nil]
      simp only [reduceCtorEq, false_iff]
      rintro ⟨-, h1, h2, -⟩
      omega
  | succ n ih =>
      rw [bindexes_cons (by omega), List.find?_cons]
      cases hp : p lo with
      | true =>
          simp only [Option.some.injEq]
          constructor
          · rintro rfl
            exact ⟨hp, Int.le_refl _, by omega, fun c h1 h2 => by omega⟩
          · rintro ⟨-, h1, -, h3⟩
            by_contra hne
            simp [h3 lo (Int.le_refl _) (by omega)] at hp
      | false =>
          simp only [ih (show (hi + 1 - (lo + 1)).toNat = n by omega)]
          constructor
          · rintro ⟨h, h1, h2, h3⟩
            refine ⟨h, by omega, h2, fun c hc1 hc2 => ?_⟩
            rcases Int.le_iff_eq_or_lt.mp hc1 with rfl | hlt
            · exact hp
            · exact h3 c (by omega) hc2
          · rintro ⟨h, h1, h2, h3⟩
            have hne : lo ≠ b := by
              rintro rfl
              simp [hp] at h
            exact ⟨h, by omega, h2, fun c hc1 hc2 => h3 c (by omega) hc2⟩

/-- A downward scan stops at the greatest index that passes the test. -/
theorem find?_reverse_bindexes {lo hi b : Int} {p : Int → Bool} :
    (bindexes lo hi).reverse.find? p = some b ↔
      p b ∧ lo ≤ b ∧ b ≤ hi ∧ ∀ c, b < c → c ≤ hi → p c = false := by
  obtain ⟨n, hn⟩ : ∃ n : Nat, (hi + 1 - lo).toNat = n := ⟨_, rfl⟩
  induction n generalizing lo with
  | zero =>
      rw [bindexes_of_lt (by omega), List.reverse_nil, List.find?_nil]
      simp only [reduceCtorEq, false_iff]
      rintro ⟨-, h1, h2, -⟩
      omega
  | succ n ih =>
      have ih := @ih (lo + 1) (by omega)
      rw [bindexes_cons (by omega), List.reverse_cons, List.find?_append, Option.or_eq_some_iff, ih]
      have hnone : (bindexes (lo + 1) hi).reverse.find? p = none ↔
          ∀ c, lo < c → c ≤ hi → p c = false := by
        simp only [List.find?_eq_none, List.mem_reverse, mem_bindexes, Bool.not_eq_true]
        exact ⟨fun h c h1 h2 => h c ⟨by omega, h2⟩, fun h c hc => h c (by omega) hc.2⟩
      rw [hnone]
      constructor
      · rintro (⟨h, h1, h2, h3⟩ | ⟨h, hb⟩)
        · exact ⟨h, by omega, h2, h3⟩
        · have hb' := List.find?_some hb
          obtain rfl : b = lo := by simpa using List.mem_of_find?_eq_some hb
          exact ⟨hb', Int.le_refl _, by omega, h⟩
      · rintro ⟨h, h1, h2, h3⟩
        rcases Int.le_iff_eq_or_lt.mp h1 with rfl | hlt
        · exact .inr ⟨h3, by simp [h]⟩
        · exact .inl ⟨h, by omega, h2, h3⟩

theorem find?_bindexes_eq_none {lo hi : Int} {p : Int → Bool} :
    (bindexes lo hi).find? p = none ↔ ∀ c, lo ≤ c → c ≤ hi → p c = false := by
  simp only [List.find?_eq_none, mem_bindexes, Bool.not_eq_true]
  exact ⟨fun h c h1 h2 => h c ⟨h1, h2⟩, fun h c hc => h c hc.1 hc.2⟩

-- ---------------------------------------------------------------------------
-- Arrays of slots
-- ---------------------------------------------------------------------------

/-- `au_kzrealloc`: `nused` slots are kept, the slots up to `newSz` are cleared. `mem` says
whether the memory block is large enough or `kmalloc` finds one. -/
def kzrealloc {α : Type} (mem : Bool) (nused newSz : Int) (s : Int → Option α) :
    Option (Int → Option α) :=
  if newSz ≤ nused then some s
  else if mem then some fun b => if nused ≤ b ∧ b < newSz then none else s b
  else none

/-- The array is only cleared above the slots in use. -/
theorem kzrealloc_eq {α : Type} {mem : Bool} {nused newSz : Int} {s p : Int → Option α}
    (hs : ∀ b, nused ≤ b → s b = none) (h : kzrealloc mem nused newSz s = some p) : p = s := by
  unfold kzrealloc at h
  split at h
  · exact (Option.some.inj h).symm
  · split at h
    · obtain rfl := Option.some.inj h
      funext b
      split
      · rename_i hb
        exact (hs b hb.1).symm
      · rfl
    · simp at h

end Aufs
