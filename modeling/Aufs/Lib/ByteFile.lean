-- SUMMARY: Library of byte files: reading, writing behind the end, truncation, and zero-filled holes.
import Mathlib.Algebra.Group.Nat.Defs
import Mathlib.Data.List.Basic

/-!
# Byte files

The content of a file is a list of bytes. A write behind the end leaves a hole, which
reads as zeros. A file is determined by its size and by the bytes at all positions, where
a position behind the end counts as zero.
-/

namespace ByteFile

-- ---------------------------------------------------------------------------
-- Operations
-- ---------------------------------------------------------------------------

/-- The byte at a position, zero behind the end. -/
def byteAt (l : List UInt8) (i : Nat) : UInt8 := l.getD i 0

/-- The file grown with zeros to at least `n` bytes. -/
def padTo (l : List UInt8) (n : Nat) : List UInt8 := l ++ List.replicate (n - l.length) 0

/-- Truncate or extend the file to `n` bytes. -/
def setSize (l : List UInt8) (n : Nat) : List UInt8 := (padTo l n).take n

/-- Write `bs` at `pos`. Writing nothing does not grow the file. -/
def writeAt (l : List UInt8) (pos : Nat) (bs : List UInt8) : List UInt8 :=
  if bs = [] then l else setSize l pos ++ bs ++ l.drop (pos + bs.length)

/-- Read up to `n` bytes at `pos`. -/
def readAt (l : List UInt8) (pos n : Nat) : List UInt8 := (l.drop pos).take n

-- ---------------------------------------------------------------------------
-- Sizes
-- ---------------------------------------------------------------------------

@[simp] theorem length_padTo (l : List UInt8) (n : Nat) : (padTo l n).length = max l.length n := by
  rw [padTo, List.length_append, List.length_replicate]
  omega

@[simp] theorem length_setSize (l : List UInt8) (n : Nat) : (setSize l n).length = n := by
  rw [setSize, List.length_take, length_padTo]
  omega

@[simp] theorem writeAt_nil (l : List UInt8) (pos : Nat) : writeAt l pos [] = l := if_pos rfl

theorem length_writeAt {bs : List UInt8} (l : List UInt8) (pos : Nat) (hbs : bs ≠ []) :
    (writeAt l pos bs).length = max l.length (pos + bs.length) := by
  rw [writeAt, if_neg hbs, List.length_append, List.length_append, length_setSize,
    List.length_drop]
  omega

theorem length_readAt (l : List UInt8) (pos n : Nat) :
    (readAt l pos n).length = min n (l.length - pos) := by
  rw [readAt, List.length_take, List.length_drop]

-- ---------------------------------------------------------------------------
-- Bytes
-- ---------------------------------------------------------------------------

@[simp] theorem byteAt_nil (i : Nat) : byteAt [] i = 0 := rfl

theorem byteAt_of_length_le {l : List UInt8} {i : Nat} (h : l.length ≤ i) : byteAt l i = 0 := by
  rw [byteAt, List.getD_eq_getElem?_getD, List.getElem?_eq_none h, Option.getD_none]

theorem byteAt_of_lt {l : List UInt8} {i : Nat} (h : i < l.length) : byteAt l i = l[i] := by
  rw [byteAt, List.getD_eq_getElem?_getD, List.getElem?_eq_getElem h, Option.getD_some]

theorem byteAt_append (l l' : List UInt8) (i : Nat) :
    byteAt (l ++ l') i = if i < l.length then byteAt l i else byteAt l' (i - l.length) := by
  simp only [byteAt, List.getD_eq_getElem?_getD, List.getElem?_append]
  split <;> rfl

theorem byteAt_replicate_zero (n i : Nat) : byteAt (List.replicate n 0) i = 0 := by
  rw [byteAt, List.getD_eq_getElem?_getD, List.getElem?_replicate]
  split <;> rfl

theorem byteAt_take (l : List UInt8) (n i : Nat) :
    byteAt (l.take n) i = if i < n then byteAt l i else 0 := by
  simp only [byteAt, List.getD_eq_getElem?_getD, List.getElem?_take]
  split <;> rfl

theorem byteAt_drop (l : List UInt8) (n i : Nat) : byteAt (l.drop n) i = byteAt l (n + i) := by
  simp only [byteAt, List.getD_eq_getElem?_getD, List.getElem?_drop]

/-- Growing a file with zeros changes no byte. -/
@[simp] theorem byteAt_padTo (l : List UInt8) (n i : Nat) : byteAt (padTo l n) i = byteAt l i := by
  rw [padTo, byteAt_append]
  split
  case isTrue => rfl
  case isFalse h => rw [byteAt_replicate_zero, byteAt_of_length_le (by omega)]

theorem byteAt_setSize (l : List UInt8) (n i : Nat) :
    byteAt (setSize l n) i = if i < n then byteAt l i else 0 := by
  rw [setSize, byteAt_take, byteAt_padTo]

/-- A write changes the bytes written and no others. -/
theorem byteAt_writeAt (l : List UInt8) (pos : Nat) (bs : List UInt8) (i : Nat) :
    byteAt (writeAt l pos bs) i =
      if pos ≤ i ∧ i < pos + bs.length then byteAt bs (i - pos) else byteAt l i := by
  by_cases hbs : bs = []
  · subst hbs
    rw [writeAt_nil, if_neg]
    simp only [List.length_nil]
    omega
  · rw [writeAt, if_neg hbs, byteAt_append, byteAt_append, List.length_append, length_setSize,
      byteAt_setSize, byteAt_drop]
    by_cases hlt : i < pos
    · rw [if_pos (by omega), if_pos hlt, if_pos hlt, if_neg (by omega)]
    · by_cases hin : i < pos + bs.length
      · rw [if_pos hin, if_neg hlt, if_pos ⟨by omega, hin⟩]
      · rw [if_neg hin, if_neg (by omega)]
        congr 1
        omega

/-- A read returns the bytes from the position on. -/
theorem byteAt_readAt (l : List UInt8) (pos n i : Nat) :
    byteAt (readAt l pos n) i = if i < n then byteAt l (pos + i) else 0 := by
  rw [readAt, byteAt_take, byteAt_drop]

/-- A file is its size and its bytes. -/
theorem ext_byteAt {l l' : List UInt8} (hlen : l.length = l'.length)
    (h : ∀ i < l.length, byteAt l i = byteAt l' i) : l = l' := by
  apply List.ext_getElem hlen
  intro i hi hi'
  have hb := h i hi
  rwa [byteAt_of_lt hi, byteAt_of_lt hi'] at hb

theorem forall_mem_eq_zero_iff {l : List UInt8} :
    (∀ b ∈ l, b = 0) ↔ ∀ i < l.length, byteAt l i = 0 := by
  constructor
  · intro h i hi
    rw [byteAt_of_lt hi]
    exact h _ (List.getElem_mem hi)
  · intro h b hb
    obtain ⟨i, hi, rfl⟩ := List.getElem_of_mem hb
    have hz := h i hi
    rwa [byteAt_of_lt hi] at hz

/-- Two writes in a row are one write. -/
theorem writeAt_writeAt_append (l p p' : List UInt8) (pos : Nat) :
    writeAt (writeAt l pos p) (pos + p.length) p' = writeAt l pos (p ++ p') := by
  by_cases hp : p = []
  · subst hp
    rw [writeAt_nil, List.length_nil, Nat.add_zero, List.nil_append]
  by_cases hp' : p' = []
  · subst hp'
    rw [writeAt_nil, List.append_nil]
  have hpp : p ++ p' ≠ [] := fun h => hp (List.append_eq_nil_iff.mp h).1
  apply ext_byteAt
  · rw [length_writeAt _ _ hp', length_writeAt _ _ hp, length_writeAt _ _ hpp, List.length_append]
    omega
  · intro i _
    rw [byteAt_writeAt, byteAt_writeAt, byteAt_writeAt, byteAt_append, List.length_append]
    by_cases h₂ : pos + p.length ≤ i ∧ i < pos + p.length + p'.length
    · rw [if_pos h₂, if_pos (by omega), if_neg (by omega)]
      congr 1
      omega
    · rw [if_neg h₂]
      by_cases h₁ : pos ≤ i ∧ i < pos + p.length
      · rw [if_pos h₁, if_pos (by omega), if_pos (by omega)]
      · rw [if_neg h₁, if_neg (by omega)]

-- ---------------------------------------------------------------------------
-- Reads after writes
-- ---------------------------------------------------------------------------

/-- A read of the range just written returns what was written. -/
theorem readAt_writeAt_same (l : List UInt8) {bs : List UInt8} (pos : Nat) (hbs : bs ≠ []) :
    readAt (writeAt l pos bs) pos bs.length = bs := by
  have hlen : (readAt (writeAt l pos bs) pos bs.length).length = bs.length := by
    rw [length_readAt, length_writeAt _ _ hbs]
    omega
  apply ext_byteAt hlen
  intro i hi
  rw [hlen] at hi
  rw [byteAt_readAt, if_pos hi, byteAt_writeAt, if_pos ⟨by omega, by omega⟩, Nat.add_sub_cancel_left]

/-- A read inside the range just written returns that part. -/
theorem readAt_writeAt_inside (l : List UInt8) {bs : List UInt8} {pos k n : Nat} (h : k + n ≤ bs.length) :
    readAt (writeAt l pos bs) (pos + k) n = (bs.drop k).take n := by
  rcases Nat.eq_zero_or_pos n with hn | hn
  · rw [hn, readAt, List.take_zero, List.take_zero]
  · have hbs : bs ≠ [] := fun hnil => by
      rw [hnil, List.length_nil] at h
      omega
    have hlen : (readAt (writeAt l pos bs) (pos + k) n).length = n := by
      rw [length_readAt, length_writeAt _ _ hbs]
      omega
    apply ext_byteAt
    · rw [hlen, List.length_take, List.length_drop]
      omega
    · intro i hi
      rw [hlen] at hi
      rw [byteAt_readAt, if_pos hi, byteAt_writeAt, if_pos ⟨by omega, by omega⟩, byteAt_take, if_pos hi,
        byteAt_drop]
      congr 1
      omega

/-- Past the old end of the file a write elsewhere leaves zeros to be read. -/
theorem byteAt_readAt_writeAt_disjoint {l bs : List UInt8} {pos pos' n i : Nat}
    (hd : pos + bs.length ≤ pos' ∨ pos' + n ≤ pos) :
    byteAt (readAt (writeAt l pos bs) pos' n) i = byteAt (readAt l pos' n) i := by
  rw [byteAt_readAt, byteAt_readAt]
  by_cases hi : i < n
  · rw [if_pos hi, if_pos hi, byteAt_writeAt, if_neg (by omega)]
  · rw [if_neg hi, if_neg hi]

-- ---------------------------------------------------------------------------
-- Numbers
-- ---------------------------------------------------------------------------

/-- The `n` bytes of a number, the lowest first. -/
def toBytes : Nat → Nat → List UInt8
  | 0, _ => []
  | n + 1, v => UInt8.ofNat v :: toBytes n (v / 256)

/-- The number that is stored in these bytes. -/
def ofBytes : List UInt8 → Nat
  | [] => 0
  | b :: bs => b.toNat + 256 * ofBytes bs

@[simp] theorem length_toBytes (n v : Nat) : (toBytes n v).length = n := by
  induction n generalizing v with
  | zero => rfl
  | succ n ih => rw [toBytes, List.length_cons, ih]

theorem ofBytes_toBytes {n v : Nat} (h : v < 256 ^ n) : ofBytes (toBytes n v) = v := by
  induction n generalizing v with
  | zero =>
    rw [Nat.pow_zero] at h
    rw [toBytes, ofBytes]
    omega
  | succ n ih =>
    have hdiv : v / 256 < 256 ^ n := by
      rw [Nat.pow_succ] at h
      omega
    rw [toBytes, ofBytes, ih hdiv, UInt8.toNat_ofNat']
    omega

theorem toBytes_ofBytes (bs : List UInt8) : toBytes bs.length (ofBytes bs) = bs := by
  induction bs with
  | nil => rfl
  | cons b bs ih =>
    have hlt := b.toNat_lt
    have hdiv : (b.toNat + 256 * ofBytes bs) / 256 = ofBytes bs := by omega
    have hmod : UInt8.ofNat (b.toNat + 256 * ofBytes bs) = b := by
      apply UInt8.toNat_inj.mp
      rw [UInt8.toNat_ofNat']
      omega
    rw [List.length_cons, ofBytes, toBytes, hdiv, hmod, ih]

/-- Zeros behind the end do not count. -/
theorem ofBytes_congr {l l' : List UInt8} (h : ∀ i, byteAt l i = byteAt l' i) :
    ofBytes l = ofBytes l' := by
  induction l generalizing l' with
  | nil =>
    induction l' with
    | nil => rfl
    | cons b' l' ih' =>
      have hb : 0 = b' := h 0
      show 0 = b'.toNat + 256 * ofBytes l'
      rw [← hb, ← ih' (fun i => h (i + 1))]
      rfl
  | cons b l ih =>
    cases l' with
    | nil =>
      have hb : b = 0 := h 0
      show b.toNat + 256 * ofBytes l = 0
      have ht : ofBytes l = ofBytes [] := ih fun i => h (i + 1)
      rw [hb, ht]
      rfl
    | cons b' l' =>
      have hb : b = b' := h 0
      rw [ofBytes, ofBytes, hb, ih (fun i => h (i + 1))]

end ByteFile
