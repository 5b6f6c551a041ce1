-- SUMMARY: The bytes of a block of directory entries: packed entries, their padding, and the end mark (vdir.c).
import Aufs.VdirBlocks
import Aufs.Lib.ByteFile
import Aufs.Lib.Records

/-!
# The bytes of a block

An entry is stored as `struct aufs_de`: the inode number, the type, the length of the name
and the name, padded to a multiple of the inode number's size. A length of zero marks the
end of the block; where not even that fits, the end of the block is the mark.
-/

namespace Aufs

open ByteFile Records

-- ---------------------------------------------------------------------------
-- Entries
-- ---------------------------------------------------------------------------

/-- `struct aufs_de` as it is stored. `type` is the `DT_*` number. -/
structure RawDe where
  ino : Nat
  type : Nat
  str : Name
  deriving DecidableEq, Repr

/-- The number is an `ino_t`, the type an `unsigned char`, and the name has 1 to 255 bytes. -/
structure RawDe.Fits (de : RawDe) : Prop where
  ino : de.ino < 256 ^ 8
  type : de.type < 256
  named : de.str ≠ []
  len : de.str.length ≤ nameMax

/-- What `append_de` stores. -/
def RawDe.bytes (de : RawDe) : List UInt8 :=
  toBytes 8 de.ino ++ [UInt8.ofNat de.type, UInt8.ofNat de.str.length] ++ de.str

/-- `set_deblk_end`: there may be no room for the mark. -/
def setDeblkEnd (b : List UInt8) (p : Nat) : Option (List UInt8) :=
  if calcSize 0 ≤ deblkSize - p then some (writeAt b (p + 9) [0]) else none

/-- `is_deblk_end` -/
def isDeblkEnd (b : List UInt8) (p : Nat) : Bool :=
  if calcSize 0 ≤ deblkSize - p then byteAt b (p + 9) = 0 else true

/-- The entry at a position. -/
def deAt (b : List UInt8) (p : Nat) : RawDe where
  ino := ofBytes (readAt b p 8)
  type := (byteAt b (p + 8)).toNat
  str := readAt b (p + 10) (byteAt b (p + 9)).toNat

/-- The entry at a position and its size, unless the block ends there. -/
def deReader (b : List UInt8) : Reader RawDe := fun p =>
  if isDeblkEnd b p then none else some (deAt b p, calcSize (byteAt b (p + 9)).toNat)

/-- All entries of a block, and where it ends. -/
def walkDeblk (b : List UInt8) : Option (List RawDe × Nat) := walk (deReader b) deblkSize 0

/-- The block holds these entries, and `q` is behind the last. -/
structure Packs (b : List UInt8) (des : List RawDe) (q : Nat) : Prop where
  length : b.length = deblkSize
  meets : Meets (deReader b) 0 des q
  ends : isDeblkEnd b q = true
  le : q ≤ deblkSize

-- ---------------------------------------------------------------------------
-- Sizes
-- ---------------------------------------------------------------------------

theorem add_le_calcSize (n : Nat) : 10 + n ≤ calcSize n := by
  unfold calcSize
  dsimp only
  split <;> omega

theorem takes_deReader (b : List UInt8) : Takes (deReader b) 16 := by
  intro p de n h
  unfold deReader at h
  split at h
  · cases h
  · cases h
    exact le_calcSize _

theorem RawDe.length_bytes (de : RawDe) : de.bytes.length = 10 + de.str.length := by
  rw [bytes, List.length_append, List.length_append, length_toBytes]
  rfl

variable {b b' : List UInt8} {des : List RawDe} {de : RawDe} {p q n : Nat}

-- ---------------------------------------------------------------------------
-- Walking
-- ---------------------------------------------------------------------------

/-- The walk over a block ends, inside the block, and meets what the block holds. -/
theorem Packs.walk (h : Packs b des q) : walkDeblk b = some (des, q) := by
  have hroom := h.meets.room (takes_deReader b)
  have hle := h.le
  refine h.meets.walk ?_ ?_
  · rw [deReader, if_pos h.ends]
  · unfold deblkSize at hle ⊢
    omega

/-- Only the bytes in front of `q` matter to the entries in front of it. -/
theorem readAt_congr (hlen : b.length = b'.length) (h : ∀ i < q, byteAt b i = byteAt b' i) (hp : p + n ≤ q) :
    readAt b p n = readAt b' p n := by
  apply ext_byteAt
  · rw [length_readAt, length_readAt, hlen]
  · intro i hi
    rw [length_readAt] at hi
    rw [byteAt_readAt, byteAt_readAt, h (p + i) (by omega)]

theorem deReader_congr (hlen : b.length = b'.length) (h : ∀ i < q, byteAt b i = byteAt b' i)
    (hp : p + n ≤ q) (hread : deReader b p = some (de, n)) : deReader b' p = some (de, n) := by
  have htakes := takes_deReader b p de n hread
  have hlenByte : byteAt b (p + 9) = byteAt b' (p + 9) := h _ (by omega)
  unfold deReader at hread ⊢
  have hend : isDeblkEnd b p = isDeblkEnd b' p := by
    unfold isDeblkEnd
    rw [hlenByte]
  rw [← hend, ← hlenByte]
  split at hread
  · cases hread
  next hmark =>
    have hsize := add_le_calcSize (byteAt b (p + 9)).toNat
    cases hread
    rw [if_neg hmark]
    have hde : deAt b p = deAt b' p := by
      unfold deAt
      rw [← hlenByte, h (p + 8) (by omega), readAt_congr hlen h (p := p) (n := 8) (by omega),
        readAt_congr hlen h (p := p + 10) (by omega)]
    rw [hde]

/-- What is written behind the entries leaves them alone. -/
theorem Packs.meets_congr (h : Packs b des q) (hlen : b.length = b'.length)
    (hsame : ∀ i < q, byteAt b i = byteAt b' i) : Meets (deReader b') 0 des q := by
  refine h.meets.congr fun x de n _ hx hread => ?_
  exact deReader_congr hlen hsame hx hread

-- ---------------------------------------------------------------------------
-- Writing
-- ---------------------------------------------------------------------------

theorem length_writeAt_inside {bs : List UInt8} (h : p + bs.length ≤ b.length) :
    (writeAt b p bs).length = b.length := by
  by_cases hbs : bs = []
  · rw [hbs, writeAt_nil]
  · rw [length_writeAt b p hbs]
    omega

theorem byteAt_writeAt_below {bs : List UInt8} {i : Nat} (h : i < p) : byteAt (writeAt b p bs) i = byteAt b i := by
  rw [byteAt_writeAt, if_neg (by omega)]

/-- A fresh block with a mark at its start is empty. -/
theorem packs_nil (hlen : b.length = deblkSize) : ∃ b', setDeblkEnd b 0 = some b' ∧ Packs b' [] 0 := by
  refine ⟨writeAt b 9 [0], if_pos (by decide), ?_, .nil 0, ?_, Nat.zero_le _⟩
  · rw [length_writeAt_inside, hlen]
    rw [hlen]
    decide
  · rw [isDeblkEnd, if_pos (by decide), byteAt_writeAt, if_pos (by decide)]
    rfl

/-- An entry that is written is read again. -/
theorem deReader_bytes (hfits : de.Fits) (hroom : p + calcSize de.str.length ≤ deblkSize) :
    deReader (writeAt b p de.bytes) p = some (de, calcSize de.str.length) := by
  have hsize := le_calcSize de.str.length
  have hbytes := de.length_bytes
  have hpos : 0 < de.str.length := List.length_pos_iff.mpr hfits.named
  have hmax : de.str.length ≤ 255 := hfits.len
  have hat : ∀ i, i < 10 + de.str.length → byteAt (writeAt b p de.bytes) (p + i) = byteAt de.bytes i := by
    intro i hi
    rw [byteAt_writeAt, if_pos ⟨by omega, by omega⟩, Nat.add_sub_cancel_left]
  have hbyte : byteAt (writeAt b p de.bytes) (p + 9) = UInt8.ofNat de.str.length := by
    rw [hat 9 (by omega)]
    rfl
  have hnat : (UInt8.ofNat de.str.length).toNat = de.str.length := by
    rw [UInt8.toNat_ofNat']
    omega
  have hmark : isDeblkEnd (writeAt b p de.bytes) p = false := by
    rw [isDeblkEnd, if_pos (by rw [show calcSize 0 = 16 from rfl]; omega), hbyte]
    refine decide_eq_false fun hzero => ?_
    rw [hzero] at hnat
    exact absurd hnat (by rw [UInt8.toNat_zero]; omega)
  have htype : byteAt (writeAt b p de.bytes) (p + 8) = UInt8.ofNat de.type := by
    rw [hat 8 (by omega)]
    rfl
  have hde : deAt (writeAt b p de.bytes) p = de := by
    have hino : readAt (writeAt b p de.bytes) p 8 = toBytes 8 de.ino := readAt_writeAt_inside b (k := 0) (by omega)
    have hstr : readAt (writeAt b p de.bytes) (p + 10) de.str.length = de.str := by
      rw [readAt_writeAt_inside b (by omega)]
      exact List.take_length
    have hT : (UInt8.ofNat de.type).toNat = de.type := by
      have ht := hfits.type
      rw [UInt8.toNat_ofNat']
      omega
    unfold deAt
    rw [hbyte, hnat, hino, hstr, htype, hT, ofBytes_toBytes hfits.ino]
  rw [deReader, if_neg (by rw [hmark]; exact Bool.false_ne_true), hbyte, hnat, hde]

/-- An entry behind the others, and the mark behind it if there is room for one. -/
theorem Packs.push (h : Packs b des q) (hfits : de.Fits) (hroom : q + calcSize de.str.length ≤ deblkSize) :
    Packs ((setDeblkEnd (writeAt b q de.bytes) (q + calcSize de.str.length)).getD (writeAt b q de.bytes))
      (des ++ [de]) (q + calcSize de.str.length) := by
  have hsize := add_le_calcSize de.str.length
  have hbytes := de.length_bytes
  have hlen : (writeAt b q de.bytes).length = deblkSize := by
    rw [length_writeAt_inside, h.length]
    rw [h.length]
    omega
  have hmeets : Meets (deReader (writeAt b q de.bytes)) 0 (des ++ [de]) (q + calcSize de.str.length) := by
    refine .append (h.meets_congr (h.length.trans hlen.symm) fun i hi => ?_) (.single ?_)
    · exact (byteAt_writeAt_below hi).symm
    · exact deReader_bytes hfits hroom
  generalize writeAt b q de.bytes = c at hlen hmeets
  generalize q + calcSize de.str.length = r at hmeets hroom
  unfold setDeblkEnd
  split
  next hmark =>
    have hmark16 : 16 ≤ deblkSize - r := hmark
    have hlen' : (writeAt c (r + 9) [0]).length = deblkSize := by
      rw [length_writeAt_inside, hlen]
      rw [hlen, List.length_singleton]
      omega
    refine ⟨hlen', ?_, ?_, hroom⟩
    · refine hmeets.congr fun x d n _ hx hread => deReader_congr (hlen.trans hlen'.symm) (fun i hi => ?_) hx hread
      exact (byteAt_writeAt_below (by omega)).symm
    · rw [Option.getD_some, isDeblkEnd, if_pos hmark, byteAt_writeAt, if_pos ⟨Nat.le_refl _, Nat.lt_succ_self _⟩,
        Nat.sub_self]
      rfl
  next hmark =>
    refine ⟨hlen, hmeets, ?_, hroom⟩
    rw [Option.getD_none, isDeblkEnd, if_neg hmark]

end Aufs
