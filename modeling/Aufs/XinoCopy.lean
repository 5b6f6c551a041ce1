-- SUMMARY: A copied xino file has the entries of the old one, unless a write of the copy fails (au_copy_file for xino_set).
import Aufs.XinoSet
import Aufs.CopyErrors

/-!
# Copies of xino files

`au_copy_file` drops the errors of the writes of its main loop. Where no write fails for
good, a copy that ends without an error has every byte of the old file. Its size is that of
the old file or, behind a hole at the end, one more, and no entry fits in there.
-/

namespace Aufs

open ByteFile

-- ---------------------------------------------------------------------------
-- Copies whose writes go through
-- ---------------------------------------------------------------------------

/-- Every write of the copy moves something or is to be tried again. -/
def CopyEnv.Writes (e : CopyEnv) : Prop :=
  ∀ t, (∃ n, e.write t = .ok (n + 1)) ∨ ∃ err, e.write t = .error err ∧ retried err = true

/-- The content as a table of entries has it: the bytes, and the size but for one byte that
may follow. -/
structure SameEntries (src dst : List UInt8) : Prop where
  bytes : ∀ i, byteAt dst i = byteAt src i
  le : src.length ≤ dst.length
  lt : dst.length ≤ src.length + 1

theorem SameEntries.refl (l : List UInt8) : SameEntries l l := ⟨fun _ => rfl, Nat.le_refl _, Nat.le_succ _⟩

section

variable {e : CopyEnv} {src : List UInt8}

theorem CopyEnv.Writes.soft (he : e.Writes) (t : Nat) : ¬Hard (e.write t) := by
  rintro ⟨err, herr, hhard⟩
  rcases he t with ⟨n, hn⟩ | ⟨err', herr', hretry⟩
  · cases hn.symm.trans herr
  · obtain rfl := Except.error.inj (herr'.symm.trans herr)
    cases hretry.symm.trans hhard

/-- The end behind a hole: one more byte. -/
theorem lastHole_copied (he : e.Writes) {fuel : Nat} {c c' : Copy} (hc : Copied src src.length c)
    (h : lastHole e fuel c = some (.ok (), c')) : SameEntries src c'.dst := by
  induction fuel generalizing c with
  | zero => cases h
  | succ fuel ih =>
    rw [lastHole] at h
    rcases he c.wr with ⟨n, hn⟩ | ⟨err, herr, hretry⟩
    · rw [hn] at h
      dsimp only at h
      split at h
      · cases h
      · simp only [Option.some.injEq, Prod.mk.injEq, true_and] at h
        subst h
        have hsize := hc.size
        have hlen : (setSize (writeAt c.dst c.dstPos [0]) (c.dstPos + 1)).length = src.length + 1 := by
          rw [length_setSize, hc.dstPos]
        refine ⟨fun i => ?_, ?_, ?_⟩
        · dsimp only
          rw [byteAt_setSize, byteAt_writeAt, hc.bytes i, hc.dstPos]
          by_cases hi : i < src.length
          · rw [if_pos (by omega), if_neg (by omega), if_pos hi]
          · rw [byteAt_of_length_le (by omega : src.length ≤ i)]
            split
            · split
              · have hzero : i - src.length = 0 := by
                  simp only [List.length_singleton] at *
                  omega
                rw [hzero]
                rfl
              · rfl
            · rfl
        · exact Nat.le_of_lt (Nat.lt_of_lt_of_eq (Nat.lt_succ_self _) hlen.symm)
        · exact Nat.le_of_eq hlen
    · rw [herr] at h
      dsimp only at h
      rw [if_pos hretry] at h
      have hnext : Copied src src.length { c with wr := c.wr + 1 } :=
        ⟨hc.srcPos, hc.dstPos, hc.bytes, hc.size, hc.full⟩
      exact ih hnext h

/-- A copy that ends without an error has the entries of the old file. -/
theorem auCopyFile_entries (he : e.Writes) {fuel : Nat} {c : Copy}
    (h : auCopyFile e fuel [] src src.length = some (.ok (), c)) : SameEntries src c.dst := by
  rw [auCopyFile] at h
  split at h
  · cases h
  split at h
  · cases h
  split at h
  · cases h
  · cases h
  · rename_i c₁ hloop
    have hinit : Copied src 0 ⟨[], 0, 0, 0, 0, 0, false, false⟩ :=
      ⟨rfl, rfl, fun _ => rfl, Nat.le_refl 0, fun _ => rfl⟩
    have hc := copyLoop_copied hinit (Nat.le_of_eq (Nat.zero_add _)) hloop fun t _ _ => he.soft t
    rw [Nat.zero_add] at hc
    split at h
    case isTrue => exact lastHole_copied he hc h
    case isFalse hz =>
      simp only [Option.some.injEq, Prod.mk.injEq, true_and] at h
      subst h
      have hlen := hc.full (by simpa using hz)
      refine ⟨fun i => ?_, Nat.le_of_eq hlen.symm, by omega⟩
      rw [hc.bytes i]
      split
      · rfl
      · rw [byteAt_of_length_le (by omega)]

end

-- ---------------------------------------------------------------------------
-- Entries
-- ---------------------------------------------------------------------------

/-- The number that `xino_read` finds in a file with this content. -/
def LongSize.readEntry (l : LongSize) (content : List UInt8) (hIno : Nat) : Except Errno Nat :=
  (⟨l, true, fun _ => 0⟩ : XinoMount).xinoRead (fun _ => content) 0 hIno

/-- A lower read or write that moves a whole entry. -/
def LongSize.Whole (l : LongSize) (ans : Except LowerErrno Nat) : Prop := ∃ n, ans = .ok n ∧ l.size ≤ n

/-- The content of a file with whole entries only. -/
structure LongSize.Table (l : LongSize) (content : List UInt8) : Prop where
  whole : l.size ∣ content.length
  le : content.length ≤ loffMax

/-- `xino_read` of a branch with a file, when the lower read goes through. -/
theorem Host.xinoRead_eq_readEntry {h : Host} {st : Sbinfo} {bindex : Int} {br : AufsBranch}
    {file : XFile} (hx : st.xino = true) (hbr : st.stobr bindex = some br)
    (hfile : br.brXino = some file) (hread : br.brXinoRead = true) {ans : Except LowerErrno Nat}
    (hans : h.long.Whole ans) (hIno : Nat) :
    h.xinoRead st ans bindex hIno = h.long.readEntry (st.files file.id) hIno := by
  obtain ⟨n, rfl, hn⟩ := hans
  simp only [Host.xinoRead, hx, hbr, hfile, hread, LongSize.readEntry, XinoMount.xinoRead, Bool.not_true,
    Bool.false_eq_true, if_false]
  have hno : (st.xinoMount h).noEntry (st.files file.id) (h.long.xinoPos hIno) =
      (⟨h.long, true, fun _ => 0⟩ : XinoMount).noEntry (st.files file.id) (h.long.xinoPos hIno) := rfl
  rw [hno]
  split
  · rfl
  · by_cases hpos : h.long.xinoPos hIno < 0
    · simp only [hiddenRead, if_pos hpos]
    · have hlen : (readAt (st.files file.id) (h.long.xinoPos hIno).toNat h.long.size).length ≤ n := by
        rw [length_readAt]
        omega
      simp only [hiddenRead, if_neg hpos, List.take_of_length_le hlen]

section

variable {l : LongSize} {src dst : List UInt8}

/-- A copy has the entries of the old file. -/
theorem SameEntries.readEntry (hs : SameEntries src dst) (ht : l.Table src) (hIno : Nat) :
    l.readEntry dst hIno = l.readEntry src hIno := by
  obtain ⟨q, hq⟩ := ht.whole
  have hle := ht.le
  have hsl := hs.le
  have hsr := hs.lt
  have hbytes : ∀ p n, ofBytes (readAt dst p n) = ofBytes (readAt src p n) := by
    intro p n
    apply ofBytes_congr
    intro i
    rw [byteAt_readAt, byteAt_readAt, hs.bytes]
  simp only [LongSize.readEntry, XinoMount.xinoRead, Bool.not_true, Bool.false_eq_true, if_false]
  rcases l.xinoPos_cases hIno with ⟨hpos, hlt⟩ | ⟨hpos, hneg, hbig⟩
  · have hno := @XinoMount.noEntry_iff ⟨l, true, fun _ => 0⟩ src _ hlt
    have hno' := @XinoMount.noEntry_iff ⟨l, true, fun _ => 0⟩ dst _ hlt
    dsimp only at hno hno'
    have h0 : ¬((l.slot hIno * l.size : Nat) : Int) < 0 := by omega
    -- entries are whole, so one more byte ends in no other entry
    have hiff : dst.length < l.slot hIno * l.size + l.size ↔
        src.length < l.slot hIno * l.size + l.size := by
      constructor
      · omega
      · intro hlong
        have hqs : q ≤ l.slot hIno := by
          have hmul : l.size * q < l.size * (l.slot hIno + 1) := by
            rw [← hq, Nat.mul_comm l.size (l.slot hIno + 1), Nat.succ_mul]
            exact hlong
          have := Nat.lt_of_mul_lt_mul_left hmul
          omega
        have hmul : l.size * q ≤ l.size * l.slot hIno := Nat.mul_le_mul_left _ hqs
        have hsize : 1 < l.size := by cases l <;> decide
        rw [Nat.mul_comm l.size (l.slot hIno)] at hmul
        omega
    rw [hpos]
    by_cases hlong : src.length < l.slot hIno * l.size + l.size
    · rw [if_pos (hno.mpr hlong), if_pos (hno'.mpr (hiff.mpr hlong))]
    · have hlong' : ¬dst.length < l.slot hIno * l.size + l.size := fun h => hlong (hiff.mp h)
      rw [if_neg (fun h => hlong (hno.mp h)), if_neg (fun h => hlong' (hno'.mp h))]
      simp only [hiddenRead, if_neg h0, Int.toNat_natCast]
      have hfull : ∀ {content : List UInt8}, ¬content.length < l.slot hIno * l.size + l.size →
          (readAt content (l.slot hIno * l.size) l.size).length = l.size := by
        intro content hlen
        rw [length_readAt]
        omega
      rw [if_pos (hfull hlong), if_pos (hfull hlong'), hbytes]
  · -- a negative position is past the end of both files, or read from neither
    have hno : (⟨l, true, fun _ => 0⟩ : XinoMount).noEntry dst (l.xinoPos hIno) =
        (⟨l, true, fun _ => 0⟩ : XinoMount).noEntry src (l.xinoPos hIno) := by
      have hlt : l.slot hIno * l.size < l.range := by
        rw [← LongSize.mul_mod_range]
        exact Nat.mod_lt _ (Nat.pow_pos (by decide))
      simp only [loffMax] at hle
      cases l with
      | long32 =>
        simp only [LongSize.range, LongSize.size] at hlt hbig
        omega
      | long64 =>
        simp only [XinoMount.noEntry, LongSize.size] at *
        rw [hpos]
        apply decide_eq_decide.mpr
        omega
    rw [hno]
    simp only [hiddenRead, if_pos hneg]

/-- Writing the number that an entry has changes nothing. -/
theorem xinoFwrite_same (hs : SameEntries src dst) (ht : l.Table src) {hIno ino : Nat}
    (hread : l.readEntry src hIno = .ok ino) (hino : ino ≠ 0) {ans : Except LowerErrno Nat}
    (hans : l.Whole ans) : xinoFwrite l ans dst hIno ino = (.ok l.size, dst) := by
  obtain ⟨n, rfl, hn⟩ := hans
  have hle := ht.le
  have hsl := hs.le
  simp only [LongSize.readEntry, XinoMount.xinoRead, Bool.not_true, Bool.false_eq_true, if_false] at hread
  split at hread
  · exact absurd (Except.ok.inj hread).symm hino
  by_cases hpos0 : l.xinoPos hIno < 0
  · simp only [hiddenRead, if_pos hpos0] at hread
    cases hread
  simp only [hiddenRead, if_neg hpos0] at hread
  split at hread
  case isFalse => cases hread
  case isTrue hfull =>
    have hval := Except.ok.inj hread
    obtain ⟨p, hp⟩ := Int.eq_ofNat_of_zero_le (Int.not_lt.mp hpos0)
    rw [hp, Int.toNat_natCast] at hfull hval
    have hlen := hfull
    rw [length_readAt] at hlen
    have hsize : 0 < l.size := l.size_pos
    -- the bytes of the entry are those of the number
    have hentry : toBytes l.size ino = readAt src p l.size := by
      rw [← hval]
      have hto := toBytes_ofBytes (readAt src p l.size)
      rw [hfull] at hto
      exact hto
    have hsame : writeAt dst p (toBytes l.size ino) = dst := by
      have hne : toBytes l.size ino ≠ [] := by
        rw [← List.length_pos_iff, length_toBytes]
        exact hsize
      apply ext_byteAt
      · rw [length_writeAt _ _ hne, length_toBytes]
        omega
      · intro i _
        rw [byteAt_writeAt, length_toBytes]
        split
        case isTrue hi =>
          rw [hentry, byteAt_readAt, if_pos (by omega), hs.bytes]
          congr 1
          omega
        case isFalse => rfl
    have htake : (toBytes l.size ino).take n = toBytes l.size ino :=
      List.take_of_length_le (by rw [length_toBytes]; exact hn)
    have hmin : min (toBytes l.size ino).length (loffMax - p) = l.size := by
      rw [length_toBytes]
      omega
    have h0 : ¬((p : Nat) : Int) < 0 := by omega
    simp only [xinoFwrite, hiddenWrite, hp, if_neg h0, Int.toNat_natCast, htake, hmin]
    rw [List.take_of_length_le (Nat.le_of_eq (length_toBytes _ _)), hsame]

/-- A write that fails or moves less leaves no entry. -/
theorem xinoFwrite_short {ans : Except LowerErrno Nat} (hans : ¬l.Whole ans) (content : List UInt8)
    (hIno ino : Nat) : (xinoFwrite l ans content hIno ino).1 ≠ .ok l.size := by
  cases ans with
  | error err =>
    intro he
    cases he
  | ok n =>
    have hlt : n < l.size := Nat.lt_of_not_le fun hn => hans ⟨n, rfl, hn⟩
    rw [xinoFwrite, hiddenWrite]
    split
    · intro he
      cases he
    · intro he
      have hmin := Except.ok.inj he
      rw [List.length_take, length_toBytes] at hmin
      omega

end

end Aufs
