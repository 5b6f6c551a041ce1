-- SUMMARY: The bytes of the external inode number files, file positions in unsigned long, and the map law.
import Mathlib.Algebra.Group.Int.Defs
import Aufs.Xino
import Aufs.Lib.ByteFile

/-!
# Inode number files

An entry of an xino file is an `ino_t`, at the hidden inode number times the size of the
entry. The product is an `unsigned long` and wraps; the file position is a `loff_t`, always
64 bits and signed. `Xino.lean` has the table without positions; here are the files below
it, and what the wrapping does to the table.
-/

namespace Aufs

open ByteFile

-- ---------------------------------------------------------------------------
-- Numbers of the kernel
-- ---------------------------------------------------------------------------

/-- The width of an `unsigned long`. -/
inductive LongSize where
  | long32 | long64
  deriving DecidableEq, Repr

/-- `sizeof(unsigned long)`, which is `sizeof(struct xino)`. -/
def LongSize.size : LongSize → Nat
  | .long32 => 4
  | .long64 => 8

/-- How many values an `unsigned long` has. -/
def LongSize.range (l : LongSize) : Nat := 256 ^ l.size

/-- A number of 64 bits as a `loff_t`. -/
def toLoff (n : Nat) : Int := if n < 2 ^ 63 then n else (n : Int) - 2 ^ 64

/-- The largest `loff_t`. -/
def loffMax : Nat := 2 ^ 63 - 1

/-- `h_ino * sizeof(*xino)` -/
def LongSize.xinoPos (l : LongSize) (hIno : Nat) : Int := toLoff (hIno * l.size % l.range)

-- ---------------------------------------------------------------------------
-- Files
-- ---------------------------------------------------------------------------

/-- The lower write: at most up to the largest offset, and never before the start. -/
def hiddenWrite (content : List UInt8) (pos : Int) (bs : List UInt8) :
    Except Errno Nat × List UInt8 :=
  if pos < 0 then (.error .EINVAL, content)
  else
    let n := min bs.length (loffMax - pos.toNat)
    (.ok n, writeAt content pos.toNat (bs.take n))

/-- The lower read. -/
def hiddenRead (content : List UInt8) (pos : Int) (n : Nat) : Except Errno (List UInt8) :=
  if pos < 0 then .error .EINVAL else .ok (readAt content pos.toNat n)

/-- What `xino_read` and `xino_write` find in a mount: the mount flag and the open file of
each branch. Branches may share one. -/
structure XinoMount where
  long : LongSize
  xino : Bool
  brXino : Int → Nat

/-- The content of every open file. -/
abbrev Files := Nat → List UInt8

namespace XinoMount

variable (m : XinoMount)

/-- `xino_write` -/
def xinoWrite (fs : Files) (bindex : Int) (hIno ino : Nat) : Except Errno Unit × Files :=
  if !m.xino then (.ok (), fs)
  else
    let file := m.brXino bindex
    match hiddenWrite (fs file) (m.long.xinoPos hIno) (toBytes m.long.size ino) with
    | (.error _, content) => (.error Errno.EIO, Function.update fs file content)
    | (.ok sz, content) =>
      (if sz = m.long.size then .ok () else .error Errno.EIO, Function.update fs file content)

/-- `i_size_read(inode) < pos + sizeof(*xino)`. With longs of 64 bits the sum is unsigned. -/
def noEntry (content : List UInt8) (pos : Int) : Bool :=
  match m.long with
  | .long32 => (content.length : Int) < pos + m.long.size
  | .long64 => (content.length : Int) < (pos + m.long.size) % 2 ^ 64

/-- `xino_read` -/
def xinoRead (fs : Files) (bindex : Int) (hIno : Nat) : Except Errno Nat :=
  if !m.xino then .ok 0
  else
    let content := fs (m.brXino bindex)
    let pos := m.long.xinoPos hIno
    if m.noEntry content pos then .ok 0
    else
      match hiddenRead content pos m.long.size with
      | .error err => .error err
      | .ok bs => if bs.length = m.long.size then .ok (ofBytes bs) else .error Errno.EIO

end XinoMount

-- ---------------------------------------------------------------------------
-- Slots
-- ---------------------------------------------------------------------------

namespace LongSize

variable (l : LongSize)

/-- How many entries the positions of an `unsigned long` tell apart. -/
def slots : Nat := l.range / l.size

/-- The entry at which a hidden inode number ends up. -/
def slot (hIno : Nat) : Nat := hIno % l.slots

theorem size_pos : 0 < l.size := by
  cases l <;> decide

theorem range_eq : l.range = l.slots * l.size := by
  cases l <;> rfl

theorem slots_pos : 0 < l.slots := by
  cases l <;> decide

/-- The product wraps by whole entries. -/
theorem mul_mod_range (hIno : Nat) : hIno * l.size % l.range = l.slot hIno * l.size := by
  rw [range_eq, Nat.mul_mod_mul_right]
  rfl

/-- The position is that of the slot, or negative. -/
theorem xinoPos_cases (hIno : Nat) :
    (l.xinoPos hIno = (l.slot hIno * l.size : Nat) ∧ l.slot hIno * l.size < 2 ^ 63) ∨
      (l.xinoPos hIno = (l.slot hIno * l.size : Nat) - 2 ^ 64 ∧ l.xinoPos hIno < 0 ∧
        2 ^ 63 ≤ l.slot hIno * l.size) := by
  rw [xinoPos, mul_mod_range, toLoff]
  have hlt : l.slot hIno * l.size < l.range := by
    rw [← mul_mod_range]
    exact Nat.mod_lt _ (Nat.pow_pos (by decide))
  have hrange : l.range ≤ 2 ^ 64 := by
    cases l <;> decide
  split
  case isTrue h => exact .inl ⟨rfl, h⟩
  case isFalse h => exact .inr ⟨rfl, by omega, by omega⟩

/-- Two hidden inode numbers have one position exactly when they share a slot. -/
theorem xinoPos_eq_iff (hIno hIno' : Nat) :
    l.xinoPos hIno = l.xinoPos hIno' ↔ l.slot hIno = l.slot hIno' := by
  have hinj : ∀ {a b : Nat}, toLoff a = toLoff b → a < 2 ^ 64 → b < 2 ^ 64 → a = b := by
    intro a b h ha hb
    simp only [toLoff] at h
    split at h <;> split at h <;> omega
  have hlt : ∀ a, a * l.size % l.range < 2 ^ 64 := by
    intro a
    apply Nat.lt_of_lt_of_le (Nat.mod_lt _ (Nat.pow_pos (by decide)))
    cases l <;> decide
  constructor
  · intro h
    have := hinj h (hlt _) (hlt _)
    rw [mul_mod_range, mul_mod_range] at this
    exact Nat.eq_of_mul_eq_mul_right l.size_pos this
  · intro h
    rw [xinoPos, xinoPos, mul_mod_range, mul_mod_range, h]

end LongSize

-- ---------------------------------------------------------------------------
-- The table in a file
-- ---------------------------------------------------------------------------

/-- The table that a file holds: whole entries, and zero where nothing was written. -/
def LongSize.table (l : LongSize) (content : List UInt8) : XinoFile where
  size := content.length / l.size
  ino i := ofBytes (readAt content (i * l.size) l.size)

/-- The table after one entry is set. -/
def XinoFile.set (t : XinoFile) (i ino : Nat) : XinoFile :=
  ⟨max t.size (i + 1), Function.update t.ino i ino⟩

@[simp] theorem XinoFile.ino_set_self (t : XinoFile) (i ino : Nat) : (t.set i ino).ino i = ino :=
  Function.update_self ..

theorem XinoFile.ino_set_of_ne (t : XinoFile) {i j : Nat} (ino : Nat) (h : j ≠ i) :
    (t.set i ino).ino j = t.ino j :=
  Function.update_of_ne h ..

/-- Writing a whole entry sets it, and no other. -/
theorem LongSize.table_writeAt (l : LongSize) (content : List UInt8) (i : Nat) {ino : Nat}
    (hino : ino < l.range) :
    l.table (writeAt content (i * l.size) (toBytes l.size ino)) = (l.table content).set i ino := by
  have hs := l.size_pos
  have hne : toBytes l.size ino ≠ [] := by
    rw [← List.length_pos_iff, length_toBytes]
    exact hs
  have hlen := length_toBytes l.size ino
  rw [LongSize.table, XinoFile.set, XinoFile.mk.injEq]
  constructor
  · rw [length_writeAt _ _ hne, hlen, ← Nat.succ_mul, LongSize.table]
    rcases Nat.le_total content.length ((i + 1) * l.size) with h | h
    · have h₁ := Nat.div_le_div_right (c := l.size) h
      rw [Nat.mul_div_cancel _ hs] at h₁
      rw [Nat.max_eq_right h, Nat.mul_div_cancel _ hs, Nat.max_eq_right h₁]
    · have h₁ := Nat.div_le_div_right (c := l.size) h
      rw [Nat.mul_div_cancel _ hs] at h₁
      rw [Nat.max_eq_left h, Nat.max_eq_left h₁]
  · funext j
    by_cases hj : j = i
    · subst hj
      have hread := readAt_writeAt_same content (j * l.size) hne
      rw [hlen] at hread
      rw [Function.update_self, hread, ofBytes_toBytes hino]
    · rw [Function.update_of_ne hj, LongSize.table]
      apply ofBytes_congr
      intro k
      apply byteAt_readAt_writeAt_disjoint
      rw [hlen, ← Nat.succ_mul, ← Nat.succ_mul]
      rcases Nat.lt_or_gt_of_ne hj with h | h
      · exact .inr (Nat.mul_le_mul_right _ h)
      · exact .inl (Nat.mul_le_mul_right _ h)

/-- What `xino_read` makes of entry `i`. -/
def XinoFile.read (t : XinoFile) (i : Nat) : Nat := if t.size < i + 1 then 0 else t.ino i

/-- Behind the end of the table there is nothing. -/
def XinoFile.Clean (t : XinoFile) : Prop := ∀ i, t.size ≤ i → t.ino i = 0

theorem XinoFile.Clean.read {t : XinoFile} (h : t.Clean) (i : Nat) : t.read i = t.ino i := by
  rw [XinoFile.read]
  split
  case isTrue hi => exact (h i (by omega)).symm
  case isFalse => rfl

theorem XinoFile.Clean.set {t : XinoFile} (h : t.Clean) (i ino : Nat) : (t.set i ino).Clean := by
  intro j hj
  simp only [XinoFile.set] at hj
  rw [XinoFile.ino_set_of_ne _ _ (by omega), h j (by omega)]

-- ---------------------------------------------------------------------------
-- The calls on the table
-- ---------------------------------------------------------------------------

namespace XinoMount

variable {m : XinoMount} {fs : Files} {bindex : Int} {hIno ino : Nat}

/-- The size test, for a position that is not negative. -/
theorem noEntry_iff {content : List UInt8} {pos : Nat} (hpos : pos < 2 ^ 63) :
    m.noEntry content pos = true ↔ content.length < pos + m.long.size := by
  obtain ⟨l, x, f⟩ := m
  cases l with
  | long32 =>
    simp only [noEntry, decide_eq_true_eq]
    simp only [LongSize.size]
    omega
  | long64 =>
    simp only [noEntry, decide_eq_true_eq]
    simp only [LongSize.size]
    omega

/-- A write that succeeds sets the entry at the slot of the hidden number, in the file of
its branch. -/
theorem xinoWrite_table (hx : m.xino = true) (hino : ino < m.long.range) {fs' : Files}
    (h : m.xinoWrite fs bindex hIno ino = (.ok (), fs')) :
    ∃ content, fs' = Function.update fs (m.brXino bindex) content ∧
      content.length ≤ max (fs (m.brXino bindex)).length loffMax ∧
      m.long.table content =
        (m.long.table (fs (m.brXino bindex))).set (m.long.slot hIno) ino := by
  have hs := m.long.size_pos
  rcases m.long.xinoPos_cases hIno with ⟨hpos, hlt⟩ | ⟨-, hneg, -⟩
  · have h0 : ¬((m.long.slot hIno * m.long.size : Nat) : Int) < 0 := by omega
    simp only [xinoWrite, hx, hiddenWrite, hpos, if_neg h0, Int.toNat_natCast, length_toBytes,
      Bool.not_true, Bool.false_eq_true, if_false, Prod.mk.injEq] at h
    obtain ⟨hok, rfl⟩ := h
    have hfull : min m.long.size (loffMax - m.long.slot hIno * m.long.size) = m.long.size := by
      by_contra hne
      rw [if_neg hne] at hok
      cases hok
    have htake : (toBytes m.long.size ino).take m.long.size = toBytes m.long.size ino :=
      List.take_of_length_le (Nat.le_of_eq (length_toBytes _ _))
    refine ⟨_, rfl, ?_, ?_⟩
    · rw [hfull, htake, length_writeAt _ _ (by rw [← List.length_pos_iff, length_toBytes]; exact hs),
        length_toBytes]
      omega
    · rw [hfull, htake, LongSize.table_writeAt _ _ _ hino]
  · simp only [xinoWrite, hx, hiddenWrite, if_pos hneg, Bool.not_true, Bool.false_eq_true, if_false,
      Prod.mk.injEq] at h
    cases h.1

/-- A write goes through when its entry lies below the largest offset. -/
theorem xinoWrite_ok (hx : m.xino = true) (fs : Files)
    (hfit : (m.long.slot hIno + 1) * m.long.size ≤ loffMax) :
    (m.xinoWrite fs bindex hIno ino).1 = .ok () := by
  have hsum : (m.long.slot hIno + 1) * m.long.size =
      m.long.slot hIno * m.long.size + m.long.size := Nat.succ_mul _ _
  rcases m.long.xinoPos_cases hIno with ⟨hpos, -⟩ | ⟨-, -, hbig⟩
  · have h0 : ¬((m.long.slot hIno * m.long.size : Nat) : Int) < 0 := by omega
    simp only [xinoWrite, hx, hiddenWrite, hpos, if_neg h0, Int.toNat_natCast, length_toBytes,
      Bool.not_true, Bool.false_eq_true, if_false]
    rw [if_pos (by omega)]
  · simp only [loffMax] at hfit
    omega

/-- So does a read. -/
theorem xinoRead_ok (hx : m.xino = true) (fs : Files)
    (hfit : (m.long.slot hIno + 1) * m.long.size ≤ loffMax) :
    ∃ v, m.xinoRead fs bindex hIno = .ok v := by
  have hsum : (m.long.slot hIno + 1) * m.long.size =
      m.long.slot hIno * m.long.size + m.long.size := Nat.succ_mul _ _
  rcases m.long.xinoPos_cases hIno with ⟨hpos, hlt⟩ | ⟨-, -, hbig⟩
  · simp only [xinoRead, hx, hpos, Bool.not_true, Bool.false_eq_true, if_false]
    by_cases hno : m.noEntry (fs (m.brXino bindex)) (m.long.slot hIno * m.long.size : Nat) = true
    · exact ⟨0, if_pos hno⟩
    · have h0 : ¬((m.long.slot hIno * m.long.size : Nat) : Int) < 0 := by omega
      have hlen : m.long.slot hIno * m.long.size + m.long.size ≤ (fs (m.brXino bindex)).length :=
        Nat.le_of_not_lt fun h => hno ((noEntry_iff hlt).mpr h)
      rw [if_neg hno, hiddenRead, if_neg h0, Int.toNat_natCast]
      refine ⟨_, if_pos ?_⟩
      rw [length_readAt]
      omega
  · simp only [loffMax] at hfit
    omega

/-- A read that succeeds returns what the table has at the slot of the hidden number. -/
theorem xinoRead_table (hx : m.xino = true) {v : Nat}
    (hlen : (fs (m.brXino bindex)).length ≤ loffMax)
    (h : m.xinoRead fs bindex hIno = .ok v) :
    v = (m.long.table (fs (m.brXino bindex))).read (m.long.slot hIno) := by
  generalize hcontent : fs (m.brXino bindex) = content at *
  have hs := m.long.size_pos
  -- the table ends before the slot exactly when the bytes do
  have hend : (m.long.table content).size < m.long.slot hIno + 1 ↔
      content.length < m.long.slot hIno * m.long.size + m.long.size := by
    rw [← Nat.succ_mul]
    exact Nat.div_lt_iff_lt_mul hs
  simp only [xinoRead, hx, hcontent, Bool.not_true, Bool.false_eq_true, if_false] at h
  rcases m.long.xinoPos_cases hIno with ⟨hpos, hlt⟩ | ⟨hpos, hneg, hbig⟩
  · have hno : m.noEntry content (m.long.xinoPos hIno) = true ↔
        content.length < m.long.slot hIno * m.long.size + m.long.size := by
      rw [hpos]
      exact noEntry_iff hlt
    by_cases hlong : content.length < m.long.slot hIno * m.long.size + m.long.size
    · rw [if_pos (hno.mpr hlong)] at h
      rw [XinoFile.read, if_pos (hend.mpr hlong)]
      exact (Except.ok.inj h).symm
    · have h0 : ¬((m.long.slot hIno * m.long.size : Nat) : Int) < 0 := by omega
      rw [if_neg (fun hc => hlong (hno.mp hc)), hpos, hiddenRead, if_neg h0, Int.toNat_natCast] at h
      have hfull : (readAt content (m.long.slot hIno * m.long.size) m.long.size).length =
          m.long.size := by
        rw [length_readAt]
        omega
      simp only [if_pos hfull] at h
      rw [XinoFile.read, if_neg (fun hc => hlong (hend.mp hc))]
      exact (Except.ok.inj h).symm
  · -- a negative position: either past the end, or a read that no file serves
    have hpast : content.length < m.long.slot hIno * m.long.size + m.long.size := by
      simp only [loffMax] at hlen
      omega
    rw [XinoFile.read, if_pos (hend.mpr hpast)]
    by_cases hno : m.noEntry content (m.long.xinoPos hIno) = true
    · rw [if_pos hno] at h
      exact (Except.ok.inj h).symm
    · rw [if_neg hno, hiddenRead, if_pos hneg] at h
      cases h

end XinoMount

-- ---------------------------------------------------------------------------
-- The table without positions
-- ---------------------------------------------------------------------------

section

variable {m : XinoMount} {sb : SuperBlock} {w : World} {fs : Files} {bindex : Int} {br : Branch}
  {hIno : Nat}

/-- Where positions do not wrap, the table without positions reads what the file holds. -/
theorem xinoRead_refines (hm : m.xino = true) (hsb : sb.xino = true)
    (hbr : sb.stobr bindex = some br) (hw : w.Quiet)
    (hfile : w.xino br.root = m.long.table (fs (m.brXino bindex)))
    (hlen : (fs (m.brXino bindex)).length ≤ loffMax) (hslot : hIno < m.long.slots) {v : Nat}
    (h : m.xinoRead fs bindex hIno = .ok v) : (xinoRead sb w bindex hIno).1 = .ok v := by
  have hv := XinoMount.xinoRead_table hm hlen h
  rw [LongSize.slot, Nat.mod_eq_of_lt hslot, ← hfile, XinoFile.read] at hv
  simp only [xinoRead, hsb, hbr, World.ask_of_quiet hw, Bool.not_true, Bool.false_eq_true,
    if_false]
  split
  case isTrue hlt => rw [hv, if_pos hlt]
  case isFalse hlt =>
    rw [hv, if_neg hlt]
    rfl

/-- A write below it keeps the table and the file in step. -/
theorem xinoWrite_refines (hm : m.xino = true) (hsb : sb.xino = true)
    (hbr : sb.stobr bindex = some br) (hw : w.Quiet)
    (hfile : w.xino br.root = m.long.table (fs (m.brXino bindex)))
    (hslot : hIno < m.long.slots) {ino : Nat} (hino : ino < m.long.range) {fs' : Files}
    (h : m.xinoWrite fs bindex hIno ino = (.ok (), fs')) :
    (xinoWrite sb w bindex hIno ino).1 = .ok () ∧
      (xinoWrite sb w bindex hIno ino).2.xino br.root = m.long.table (fs' (m.brXino bindex)) := by
  obtain ⟨content, rfl, -, htable⟩ := XinoMount.xinoWrite_table hm hino h
  rw [LongSize.slot, Nat.mod_eq_of_lt hslot, ← hfile] at htable
  simp only [xinoWrite, hsb, hbr, World.ask_of_quiet hw, Bool.not_true, Bool.false_eq_true,
    if_false, Function.update_self, htable, true_and]
  rfl

end

-- ---------------------------------------------------------------------------
-- Runs
-- ---------------------------------------------------------------------------

/-- One call. -/
inductive XinoCall where
  | read (bindex : Int) (hIno : Nat)
  | write (bindex : Int) (hIno ino : Nat)
  deriving DecidableEq, Repr

namespace XinoCall

def bindex : XinoCall → Int
  | .read bindex _ => bindex
  | .write bindex _ _ => bindex

def hIno : XinoCall → Nat
  | .read _ hIno => hIno
  | .write _ hIno _ => hIno

/-- The number a call stores fits in an `ino_t`. -/
def Fits (l : LongSize) : XinoCall → Prop
  | .read _ _ => True
  | .write _ _ ino => ino < l.range

instance (l : LongSize) : (c : XinoCall) → Decidable (c.Fits l)
  | .read _ _ => inferInstanceAs (Decidable True)
  | .write _ _ ino => inferInstanceAs (Decidable (ino < l.range))

end XinoCall

/-- A map from open files and hidden inode numbers to inode numbers. -/
abbrev InoMap := Nat → Nat → Nat

/-- The map in which nothing is stored. -/
def InoMap.empty : InoMap := fun _ _ => 0

/-- What the map says: the number last stored through a branch with this file. -/
def InoMap.step (brXino : Int → Nat) (M : InoMap) : XinoCall → Nat × InoMap
  | .read bindex hIno => (M (brXino bindex) hIno, M)
  | .write bindex hIno ino =>
    (0, Function.update M (brXino bindex) (Function.update (M (brXino bindex)) hIno ino))

/-- The answers of the map to a run. -/
def InoMap.answers (brXino : Int → Nat) (M : InoMap) : List XinoCall → List Nat
  | [] => []
  | c :: cs => (M.step brXino c).1 :: InoMap.answers brXino (M.step brXino c).2 cs

namespace XinoMount

variable (m : XinoMount)

/-- One call on the files. A write returns 0. -/
def step (fs : Files) : XinoCall → Except Errno Nat × Files
  | .read bindex hIno => (m.xinoRead fs bindex hIno, fs)
  | .write bindex hIno ino =>
    let r := m.xinoWrite fs bindex hIno ino
    (r.1.map fun _ => 0, r.2)

/-- The answers of the files to a run. -/
def answers (fs : Files) : List XinoCall → List (Except Errno Nat)
  | [] => []
  | c :: cs => (m.step fs c).1 :: answers (m.step fs c).2 cs

/-- The calls of a run that use one file use no two hidden numbers that share a slot. -/
def Apart (cs : List XinoCall) : Prop :=
  ∀ c ∈ cs, ∀ c' ∈ cs, m.brXino c.bindex = m.brXino c'.bindex →
    c.hIno % m.long.slots = c'.hIno % m.long.slots → c.hIno = c'.hIno

/-- The files hold what the map says of every number that the calls use. -/
structure Holds (cs : List XinoCall) (fs : Files) (M : InoMap) : Prop where
  length : ∀ f, (fs f).length ≤ loffMax
  clean : ∀ f, (m.long.table (fs f)).Clean
  ino : ∀ c ∈ cs, (m.long.table (fs (m.brXino c.bindex))).ino (m.long.slot c.hIno) =
    M (m.brXino c.bindex) c.hIno

variable {m}

/-- A call that does not fail answers as the map does, and keeps files and map in step. -/
theorem Holds.step {cs : List XinoCall} {fs : Files} {M : InoMap} (h : m.Holds cs fs M)
    (hx : m.xino = true) (ha : m.Apart cs) {c : XinoCall} (hc : c ∈ cs) (hfit : c.Fits m.long)
    {v : Nat} (hv : (m.step fs c).1 = .ok v) :
    v = (M.step m.brXino c).1 ∧ m.Holds cs (m.step fs c).2 (M.step m.brXino c).2 := by
  cases c with
  | read bindex hIno =>
    refine ⟨?_, h⟩
    rw [xinoRead_table hx (h.length _) hv, (h.clean _).read]
    exact h.ino _ hc
  | write bindex hIno ino =>
    generalize hw : m.xinoWrite fs bindex hIno ino = r at *
    obtain ⟨r, fs'⟩ := r
    simp only [XinoMount.step, InoMap.step, hw] at hv ⊢
    cases r with
    | error err => cases hv
    | ok u =>
      obtain ⟨content, rfl, hlen, htable⟩ := xinoWrite_table hx hfit hw
      refine ⟨(Except.ok.inj hv).symm, ⟨fun f => ?_, fun f => ?_, fun c' hc' => ?_⟩⟩
      · by_cases hf : f = m.brXino bindex
        · subst hf
          have := h.length (m.brXino bindex)
          rw [Function.update_self]
          omega
        · rw [Function.update_of_ne hf]
          exact h.length f
      · by_cases hf : f = m.brXino bindex
        · subst hf
          rw [Function.update_self, htable]
          exact (h.clean _).set _ _
        · rw [Function.update_of_ne hf]
          exact h.clean f
      · -- another number through the same file has another slot
        by_cases hf : m.brXino c'.bindex = m.brXino bindex
        · rw [hf, Function.update_self, htable, Function.update_self]
          by_cases hh : c'.hIno = hIno
          · rw [hh, Function.update_self, XinoFile.ino_set_self]
          · have hslot : m.long.slot c'.hIno ≠ m.long.slot hIno := fun he =>
              hh (ha c' hc' _ hc hf he)
            rw [Function.update_of_ne hh, XinoFile.ino_set_of_ne _ _ hslot, ← hf]
            exact h.ino c' hc'
        · rw [Function.update_of_ne hf, Function.update_of_ne hf]
          exact h.ino c' hc'

theorem Holds.answers {cs : List XinoCall} (hx : m.xino = true) (ha : m.Apart cs)
    (hfit : ∀ c ∈ cs, c.Fits m.long) {fs : Files} {M : InoMap} (h : m.Holds cs fs M)
    {todo : List XinoCall} (hsub : todo ⊆ cs)
    (hok : ∀ r ∈ m.answers fs todo, ∃ v, r = .ok v) :
    m.answers fs todo = (M.answers m.brXino todo).map .ok := by
  induction todo generalizing fs M with
  | nil => rfl
  | cons c todo ih =>
    obtain ⟨hc, hsub⟩ := List.cons_subset.mp hsub
    simp only [XinoMount.answers, List.forall_mem_cons] at hok
    obtain ⟨⟨v, hv⟩, hok⟩ := hok
    obtain ⟨hval, hstep⟩ := h.step hx ha hc (hfit c hc) hv
    rw [XinoMount.answers, InoMap.answers, List.map_cons, ih hstep hsub hok, hv, hval]

/-- Two hidden numbers share a file position exactly when they differ by a multiple of the
number of slots. In a run without two such numbers through one file, from empty files on,
every call answers what the map does. -/
theorem xino_map {m : XinoMount} (hx : m.xino = true) :
    (∀ hIno hIno', m.long.xinoPos hIno = m.long.xinoPos hIno' ↔
      hIno % m.long.slots = hIno' % m.long.slots) ∧
    ∀ cs, m.Apart cs → (∀ c ∈ cs, c.Fits m.long) →
      (∀ r ∈ m.answers (fun _ => []) cs, ∃ v, r = .ok v) →
      m.answers (fun _ => []) cs = (InoMap.empty.answers m.brXino cs).map .ok := by
  refine ⟨m.long.xinoPos_eq_iff, fun cs ha hfit hok => ?_⟩
  have hinit : m.Holds cs (fun _ => []) .empty := {
    length := fun _ => Nat.zero_le _
    clean := fun _ _ _ => by simp only [LongSize.table, readAt, List.drop_nil, List.take_nil, ofBytes]
    ino := fun _ _ => by
      simp only [LongSize.table, readAt, List.drop_nil, List.take_nil, ofBytes, InoMap.empty] }
  exact hinit.answers hx ha hfit (List.Subset.refl cs) hok

/-- No call of a run fails whose entries lie below the largest offset. -/
theorem answers_ok {m : XinoMount} (hx : m.xino = true) {cs : List XinoCall}
    (hfit : ∀ c ∈ cs, (m.long.slot c.hIno + 1) * m.long.size ≤ loffMax) (fs : Files) :
    ∀ r ∈ m.answers fs cs, ∃ v, r = .ok v := by
  induction cs generalizing fs with
  | nil => nofun
  | cons c cs ih =>
    obtain ⟨hc, hcs⟩ := List.forall_mem_cons.mp hfit
    refine List.forall_mem_cons.mpr ⟨?_, ih hcs _⟩
    cases c with
    | read bindex hIno => exact xinoRead_ok hx fs hc
    | write bindex hIno ino =>
      have hc' : (m.long.slot hIno + 1) * m.long.size ≤ loffMax := hc
      refine ⟨0, ?_⟩
      rw [step, xinoWrite_ok hx fs hc']
      rfl

/-- Branches 0 and 1 share a file. -/
def shared (long : LongSize) : XinoMount := ⟨long, true, fun b => if b = 2 then 1 else 0⟩

/-- A run on branches that share a file and one that does not. -/
def sharedRun : List XinoCall :=
  [.write 0 5 11, .read 1 5, .read 2 5, .write 1 5 12, .read 0 5, .read 0 6]

theorem xino_map_shared :
    (shared .long64).answers (fun _ => []) sharedRun =
      (InoMap.empty.answers (shared .long64).brXino sharedRun).map .ok :=
  (xino_map (m := shared .long64) rfl).2 sharedRun (by unfold Apart; decide +kernel)
    (by decide +kernel)
    (answers_ok rfl (by decide +kernel) _)

/-- A number written for inode 2 is read for inode 2 + 2^61, or 2 + 2^30 with longs of 32
bits, for which nothing was written. -/
theorem xinoRead_wraps :
    ((shared .long64).answers (fun _ => []) [.write 0 2 11, .read 0 (2 + 2 ^ 61)])[1]? =
        some (.ok 11) ∧
      ((shared .long32).answers (fun _ => []) [.write 0 2 11, .read 0 (2 + 2 ^ 30)])[1]? =
        some (.ok 11) ∧
      LongSize.long64.xinoPos 2 = LongSize.long64.xinoPos (2 + 2 ^ 61) := by
  refine ⟨rfl, rfl, by decide +kernel⟩

end XinoMount

end Aufs
