-- SUMMARY: Copying the content of a file with short transfers, retries and holes (misc.c).
import Aufs.Basic
import Aufs.Lib.ByteFile

/-!
# Copying a file

`au_copy_file` reads block by block, skips a block of zeros with a seek, and gives a copy
that ends with such a hole its size by writing one byte behind it. How many bytes a lower
read or write moves, and when it has to be retried, is up to the lower filesystems: the
answers are streams with one entry for each call.
-/

namespace Aufs

open ByteFile

-- ---------------------------------------------------------------------------
-- The lower filesystems
-- ---------------------------------------------------------------------------

/-- What the copy gets from its surroundings. A read or write that answers `n` moves at
most `n` bytes. -/
structure CopyEnv where
  sBlocksize : Nat
  pageSize : Nat
  /-- The two allocations. -/
  buf : Bool
  ia : Bool
  read : Nat → Except Errno Nat
  write : Nat → Except Errno Nat
  seek : Nat → Option Errno
  notify : Option Errno

/-- The two open files and the locals of the loop. The counters `rd`, `wr` and `sk` say
how many lower calls were made. -/
structure Copy where
  dst : List UInt8
  srcPos : Nat
  dstPos : Nat
  rd : Nat
  wr : Nat
  sk : Nat
  allZero : Bool
  sparse : Bool
  deriving DecidableEq, Repr

/-- The block size of the copy: that of the destination, at most a page. -/
def CopyEnv.blksize (e : CopyEnv) : Nat :=
  if e.sBlocksize = 0 || e.pageSize < e.sBlocksize then e.pageSize else e.sBlocksize

/-- The errors after which a transfer is tried again. -/
def retried (err : Errno) : Bool := err = .EAGAIN || err = .EINTR

-- ---------------------------------------------------------------------------
-- The loops
-- ---------------------------------------------------------------------------

/-- The loop around `vfsub_read_k`: until something is read or a read fails for good. -/
def readLoop (e : CopyEnv) (src : List UInt8) (sz : Nat) :
    Nat → Copy → Option (Except Errno (List UInt8) × Copy)
  | 0, _ => none
  | fuel + 1, c =>
    let c' := { c with rd := c.rd + 1 }
    match e.read c.rd with
    | .error err => if retried err then readLoop e src sz fuel c' else some (.error err, c')
    | .ok n =>
      let bs := (readAt src c.srcPos sz).take n
      if bs = [] then readLoop e src sz fuel c'
      else some (.ok bs, { c' with srcPos := c.srcPos + bs.length })

/-- The loop around `vfsub_write_k`. An error for good only ends this loop: the caller sets
`err = 0` after it. -/
def writeLoop (e : CopyEnv) : Nat → List UInt8 → Copy → Option Copy
  | 0, _, _ => none
  | fuel + 1, p, c =>
    if p = [] then some c
    else
      let c' := { c with wr := c.wr + 1 }
      match e.write c.wr with
      | .error err => if retried err then writeLoop e fuel p c' else some c'
      | .ok n =>
        let b := p.take n
        writeLoop e fuel (p.drop n)
          { c' with dst := writeAt c.dst c.dstPos b, dstPos := c.dstPos + b.length }

/-- Is the block just read, of the `len` bytes that are left, full and all zeros? -/
def CopyEnv.allZero (e : CopyEnv) (len : Nat) (bs : List UInt8) : Bool :=
  bs.length ≤ len && bs.length = e.blksize && bs.all (· = 0)

/-- The main loop. -/
def copyLoop (e : CopyEnv) (src : List UInt8) :
    Nat → Nat → Copy → Option (Except Errno Unit × Copy)
  | 0, _, _ => none
  | fuel + 1, len, c =>
    if len = 0 then some (.ok (), c)
    else
      match readLoop e src (min e.blksize len) fuel c with
      | none => none
      | some (.error err, c) => some (.error err, c)
      | some (.ok bs, c) =>
        let c := { c with allZero := e.allZero len bs }
        if !c.allZero then
          match writeLoop e fuel bs c with
          | none => none
          | some c => copyLoop e src fuel (len - bs.length) c
        else
          let c' := { c with sparse := true, sk := c.sk + 1 }
          match e.seek c.sk with
          | some err => some (.error err, c')
          | none => copyLoop e src fuel (len - bs.length) { c' with dstPos := c.dstPos + bs.length }

/-- The end of a copy whose last block is a hole: one byte is written behind the hole, and
the size is set to the position after it. -/
def lastHole (e : CopyEnv) : Nat → Copy → Option (Except Errno Unit × Copy)
  | 0, _ => none
  | fuel + 1, c =>
    let c' := { c with wr := c.wr + 1 }
    match e.write c.wr with
    | .error err => if retried err then lastHole e fuel c' else some (.error err, c')
    | .ok 0 => some (.ok (), c')
    | .ok (_ + 1) =>
      let c' := { c' with dst := writeAt c.dst c.dstPos [0], dstPos := c.dstPos + 1 }
      match e.notify with
      | some err => some (.error err, c')
      | none => some (.ok (), { c' with dst := setSize c'.dst c'.dstPos })

/-- `au_copy_file`, into a file that holds `dst`. -/
def auCopyFile (e : CopyEnv) (fuel : Nat) (dst src : List UInt8) (len : Nat) :
    Option (Except Errno Unit × Copy) :=
  let c : Copy := ⟨dst, 0, 0, 0, 0, 0, false, false⟩
  if !e.buf then some (.error .ENOMEM, c)
  else if !e.ia then some (.error .ENOMEM, c)
  else
    match copyLoop e src fuel len c with
    | none => none
    | some (.error err, c) => some (.error err, c)
    | some (.ok (), c) => if c.allZero then lastHole e fuel c else some (.ok (), c)

-- ---------------------------------------------------------------------------
-- Transfers that make progress
-- ---------------------------------------------------------------------------

/-- No answer is an error for good, and there is always a later one that moves something. -/
structure Fair (ans : Nat → Except Errno Nat) : Prop where
  progress : ∀ t, ∃ d n, ans (t + d) = .ok (n + 1)
  retried : ∀ t err, ans t = .error err → retried err = true

/-- From call `t` on, the first call that moves something is `u`, and it moves up to `n`. -/
inductive Moved (ans : Nat → Except Errno Nat) : Nat → Nat → Nat → Prop where
  | now {t n : Nat} : ans t = .ok (n + 1) → Moved ans t t (n + 1)
  | zero {t u n : Nat} : ans t = .ok 0 → Moved ans (t + 1) u n → Moved ans t u n
  | again {t u n : Nat} {err : Errno} :
      ans t = .error err → retried err = true → Moved ans (t + 1) u n → Moved ans t u n

/-- The sizes of the reads that copy `len` bytes, from read call `t` on. -/
inductive Reads (e : CopyEnv) : Nat → Nat → List Nat → Prop where
  | done {t : Nat} : Reads e t 0 []
  | read {t u n len : Nat} {sizes : List Nat} :
      0 < len → Moved e.read t u n →
      Reads e (u + 1) (len - min n (min e.blksize len)) sizes →
      Reads e t len (min n (min e.blksize len) :: sizes)

theorem Moved.pos {ans : Nat → Except Errno Nat} {t u n : Nat} (h : Moved ans t u n) : 0 < n := by
  induction h with
  | now _ => exact Nat.succ_pos _
  | zero _ _ ih => exact ih
  | again _ _ _ ih => exact ih

theorem Fair.moved {ans : Nat → Except Errno Nat} (hf : Fair ans) (t : Nat) :
    ∃ u n, Moved ans t u n := by
  obtain ⟨d, n, hd⟩ := hf.progress t
  induction d generalizing t with
  | zero => exact ⟨t, n + 1, .now hd⟩
  | succ d ih =>
    obtain ⟨u, n', hm⟩ := ih (t + 1) (by rw [← hd]; congr 1; omega)
    cases ht : ans t with
    | error err => exact ⟨u, n', .again ht (hf.retried t err ht) hm⟩
    | ok k =>
      cases k with
      | zero => exact ⟨u, n', .zero ht hm⟩
      | succ k => exact ⟨t, k + 1, .now ht⟩

theorem CopyEnv.blksize_pos {e : CopyEnv} (hpage : 0 < e.pageSize) : 0 < e.blksize := by
  rw [blksize]
  split
  case isTrue => exact hpage
  case isFalse h =>
    simp only [Bool.or_eq_true, decide_eq_true_eq, not_or] at h
    omega

/-- Under fair answers every length is read in the end. -/
theorem Reads.exists {e : CopyEnv} (hpage : 0 < e.pageSize) (hread : Fair e.read) (t len : Nat) :
    ∃ sizes, Reads e t len sizes := by
  induction len using Nat.strongRecOn generalizing t with
  | _ len ih =>
    by_cases hlen : len = 0
    · subst hlen
      exact ⟨[], .done⟩
    · obtain ⟨u, n, hm⟩ := hread.moved t
      have hn := hm.pos
      have hb := CopyEnv.blksize_pos hpage
      obtain ⟨sizes, hs⟩ := ih (len - min n (min e.blksize len)) (by omega) (u + 1)
      exact ⟨_, .read (by omega) hm hs⟩

-- ---------------------------------------------------------------------------
-- The transfer loops
-- ---------------------------------------------------------------------------

/-- The read loop ends with the first transfer that moves something. -/
theorem readLoop_moved {e : CopyEnv} {src : List UInt8} {sz t u n : Nat}
    (hm : Moved e.read t u n) {c : Copy} (hrd : c.rd = t) (hsrc : readAt src c.srcPos sz ≠ []) :
    ∃ k, ∀ fuel, readLoop e src sz (fuel + k) c =
      some (.ok ((readAt src c.srcPos sz).take n),
        { c with rd := u + 1, srcPos := c.srcPos + ((readAt src c.srcPos sz).take n).length }) := by
  induction hm generalizing c with
  | @now t n ht =>
    subst hrd
    have hne : (readAt src c.srcPos sz).take (n + 1) ≠ [] := by
      simpa using hsrc
    refine ⟨1, fun fuel => ?_⟩
    simp only [readLoop, ht, if_neg hne]
  | @zero t u n ht _ ih =>
    subst hrd
    obtain ⟨k, hk⟩ := ih (c := { c with rd := c.rd + 1 }) rfl hsrc
    refine ⟨k + 1, fun fuel => ?_⟩
    rw [← Nat.add_assoc]
    simp only [readLoop, ht, List.take_zero, if_true]
    exact hk fuel
  | @again t u n err ht herr _ ih =>
    subst hrd
    obtain ⟨k, hk⟩ := ih (c := { c with rd := c.rd + 1 }) rfl hsrc
    refine ⟨k + 1, fun fuel => ?_⟩
    rw [← Nat.add_assoc]
    simp only [readLoop, ht, if_pos herr]
    exact hk fuel

/-- What the write loop leaves: the bytes `p` behind the old position, and nothing else
changed that the copy depends on. -/
structure Copy.Written (c c' : Copy) (p : List UInt8) : Prop where
  dst : c'.dst = writeAt c.dst c.dstPos p
  dstPos : c'.dstPos = c.dstPos + p.length
  srcPos : c'.srcPos = c.srcPos
  rd : c'.rd = c.rd
  allZero : c'.allZero = c.allZero

/-- One transfer of the write loop, with the retries before it. -/
theorem writeLoop_moved {e : CopyEnv} {t u n : Nat} (hm : Moved e.write t u n) {c : Copy}
    (hwr : c.wr = t) {p : List UInt8} (hp : p ≠ []) :
    ∃ k c', c.Written c' (p.take n) ∧
      ∀ fuel, writeLoop e (fuel + k) p c = writeLoop e fuel (p.drop n) c' := by
  induction hm generalizing c with
  | @now t n ht =>
    subst hwr
    refine ⟨1, { c with wr := c.wr + 1, dst := writeAt c.dst c.dstPos (p.take (n + 1)),
                        dstPos := c.dstPos + (p.take (n + 1)).length },
      ⟨rfl, rfl, rfl, rfl, rfl⟩, fun fuel => ?_⟩
    simp only [writeLoop, if_neg hp, ht]
  | @zero t u n ht _ ih =>
    subst hwr
    obtain ⟨k, c', hw, hk⟩ := ih (c := { c with wr := c.wr + 1 }) rfl
    refine ⟨k + 1, c', ⟨hw.dst, hw.dstPos, hw.srcPos, hw.rd, hw.allZero⟩, fun fuel => ?_⟩
    rw [← Nat.add_assoc]
    simp only [writeLoop, if_neg hp, ht, List.take_zero, writeAt_nil, List.length_nil,
      Nat.add_zero, List.drop_zero]
    exact hk fuel
  | @again t u n err ht herr _ ih =>
    subst hwr
    obtain ⟨k, c', hw, hk⟩ := ih (c := { c with wr := c.wr + 1 }) rfl
    refine ⟨k + 1, c', ⟨hw.dst, hw.dstPos, hw.srcPos, hw.rd, hw.allZero⟩, fun fuel => ?_⟩
    rw [← Nat.add_assoc]
    simp only [writeLoop, if_neg hp, ht, if_pos herr]
    exact hk fuel

/-- The write loop writes everything it was given. -/
theorem writeLoop_written {e : CopyEnv} (hwrite : Fair e.write) (p : List UInt8) (c : Copy) :
    ∃ k c', c.Written c' p ∧ ∀ fuel, writeLoop e (fuel + k) p c = some c' := by
  induction hn : p.length using Nat.strongRecOn generalizing p c with
  | _ m ih =>
    subst hn
    by_cases hp : p = []
    · subst hp
      refine ⟨1, c, ⟨(writeAt_nil _ _).symm, rfl, rfl, rfl, rfl⟩, fun fuel => ?_⟩
      simp only [writeLoop, if_true]
    · obtain ⟨u, n, hm⟩ := hwrite.moved c.wr
      obtain ⟨k₁, c₁, hw₁, hk₁⟩ := writeLoop_moved hm rfl hp
      have hpos : 0 < p.length := List.length_pos_iff.mpr hp
      have hn := hm.pos
      obtain ⟨k₂, c₂, hw₂, hk₂⟩ := ih (p.drop n).length (by rw [List.length_drop]; omega)
        (p.drop n) c₁ rfl
      refine ⟨k₂ + k₁, c₂, ⟨?_, ?_, ?_, ?_, ?_⟩, fun fuel => ?_⟩
      · rw [hw₂.dst, hw₁.dst, hw₁.dstPos, writeAt_writeAt_append, List.take_append_drop]
      · rw [hw₂.dstPos, hw₁.dstPos, Nat.add_assoc, ← List.length_append, List.take_append_drop]
      · rw [hw₂.srcPos, hw₁.srcPos]
      · rw [hw₂.rd, hw₁.rd]
      · rw [hw₂.allZero, hw₁.allZero]
      · rw [← Nat.add_assoc, hk₁, hk₂]

-- ---------------------------------------------------------------------------
-- The main loop
-- ---------------------------------------------------------------------------

/-- The bytes of `src` from `i` to before `j` are zero. -/
def ZeroFrom (src : List UInt8) (i j : Nat) : Prop := ∀ x, i ≤ x → x < j → byteAt src x = 0

/-- Does a copy of `k` bytes whose last read moved `last` bytes end with a hole? -/
def LastHole (e : CopyEnv) (src : List UInt8) (k : Nat) (last : Option Nat) : Prop :=
  last = some e.blksize ∧ ZeroFrom src (k - e.blksize) k

/-- The invariant of the main loop after `k` bytes: the bytes are there, and only a hole at
the end is missing from the size. -/
structure CopyInv (e : CopyEnv) (src : List UInt8) (k : Nat) (last : Option Nat) (c : Copy) :
    Prop where
  srcPos : c.srcPos = k
  dstPos : c.dstPos = k
  bytes : ∀ i, byteAt c.dst i = if i < k then byteAt src i else 0
  allZero : c.allZero = true ↔ LastHole e src k last
  size : c.allZero = false → c.dst.length = k
  hole : c.allZero = true → c.dst.length < k

theorem CopyInv.length_le {e : CopyEnv} {src : List UInt8} {k : Nat} {last : Option Nat}
    {c : Copy} (h : CopyInv e src k last c) : c.dst.length ≤ k := by
  cases hz : c.allZero with
  | false => exact Nat.le_of_eq (h.size hz)
  | true => exact Nat.le_of_lt (h.hole hz)

/-- A block is skipped exactly when the copy would end with a hole after it. -/
theorem allZero_iff {e : CopyEnv} {src bs : List UInt8} {k len s : Nat} (hs : bs.length = s)
    (hle : s ≤ len) (hbs : ∀ i < s, byteAt bs i = byteAt src (k + i)) :
    e.allZero len bs = true ↔ LastHole e src (k + s) (some s) := by
  simp only [CopyEnv.allZero, Bool.and_eq_true, decide_eq_true_eq, List.all_eq_true, hs, hle, true_and, LastHole,
    Option.some.injEq]
  apply and_congr_right
  intro hblk
  rw [forall_mem_eq_zero_iff, hs, ← hblk, Nat.add_sub_cancel]
  constructor
  · intro h x hkx hx
    rw [← Nat.add_sub_of_le hkx, ← hbs _ (by omega)]
    exact h _ (by omega)
  · intro h i hi
    rw [hbs i hi]
    exact h _ (by omega) (by omega)

section

variable {e : CopyEnv} {src : List UInt8} {k s : Nat} {last : Option Nat} {c : Copy}

/-- Skipping a block of zeros keeps the invariant. -/
theorem CopyInv.skip (h : CopyInv e src k last c) {c' : Copy} (hs : 0 < s)
    (hz : LastHole e src (k + s) (some s)) (hsrc : c'.srcPos = k + s) (hdst : c'.dst = c.dst)
    (hdstPos : c'.dstPos = k + s) (hzero : c'.allZero = true) :
    CopyInv e src (k + s) (some s) c' where
  srcPos := hsrc
  dstPos := hdstPos
  bytes i := by
    rw [hdst, h.bytes i]
    by_cases hi : i < k
    · rw [if_pos hi, if_pos (by omega)]
    · by_cases hi' : i < k + s
      · obtain ⟨hblk, hzero⟩ := hz
        have hblk : s = e.blksize := Option.some.inj hblk
        rw [if_neg hi, if_pos hi', hzero i (by omega) hi']
      · rw [if_neg hi, if_neg hi']
  allZero := iff_of_true hzero hz
  size hfalse := absurd (hfalse.symm.trans hzero) Bool.false_ne_true
  hole _ := by
    have := h.length_le
    rw [hdst]
    omega

/-- Writing a block keeps the invariant. -/
theorem CopyInv.written (h : CopyInv e src k last c) {c' : Copy} {bs : List UInt8}
    (hs : bs.length = s) (hpos : 0 < s) (hbs : ∀ i < s, byteAt bs i = byteAt src (k + i))
    (hz : ¬LastHole e src (k + s) (some s)) (hsrc : c'.srcPos = k + s)
    (hdst : c'.dst = writeAt c.dst k bs) (hdstPos : c'.dstPos = k + s)
    (hzero : c'.allZero = false) : CopyInv e src (k + s) (some s) c' where
  srcPos := hsrc
  dstPos := hdstPos
  bytes i := by
    rw [hdst, byteAt_writeAt, h.bytes i, hs]
    by_cases hi : i < k
    · rw [if_neg (by omega), if_pos hi, if_pos (by omega)]
    · by_cases hi' : i < k + s
      · rw [if_pos ⟨by omega, hi'⟩, if_pos hi', hbs _ (by omega)]
        congr 1
        omega
      · rw [if_neg (by omega), if_neg hi, if_neg hi']
  allZero := by
    rw [hzero]
    exact iff_of_false Bool.false_ne_true hz
  size _ := by
    have hne : bs ≠ [] := List.length_pos_iff.mp (by omega)
    have := h.length_le
    rw [hdst, length_writeAt _ _ hne, hs]
    omega
  hole htrue := absurd (hzero.symm.trans htrue) Bool.false_ne_true

end

/-- The main loop copies what it reads, and ends. -/
theorem copyLoop_spec {e : CopyEnv} {src : List UInt8} (hwrite : Fair e.write)
    (hseek : ∀ t, e.seek t = none) {t len : Nat} {sizes : List Nat} (hr : Reads e t len sizes)
    {k : Nat} {last : Option Nat} {c : Copy} (hc : CopyInv e src k last c) (hrd : c.rd = t)
    (hlen : k + len ≤ src.length) (hblk : 0 < e.blksize) :
    ∃ f c', CopyInv e src (k + len) (sizes.getLast?.or last) c' ∧
      ∀ fuel, copyLoop e src (fuel + f) len c = some (.ok (), c') := by
  induction hr generalizing k last c with
  | done =>
    refine ⟨1, c, hc, fun fuel => ?_⟩
    simp only [copyLoop, if_true]
  | @read t u n len sizes hpos hm hrest ih =>
    generalize hs : min n (min e.blksize len) = s at hrest ih ⊢
    have hn := hm.pos
    -- the block that is read
    have hread : readAt src c.srcPos (min e.blksize len) ≠ [] := by
      apply List.length_pos_iff.mp
      rw [length_readAt, hc.srcPos]
      omega
    obtain ⟨f₁, hf₁⟩ := readLoop_moved hm hrd hread
    generalize hbs : (readAt src c.srcPos (min e.blksize len)).take n = bs at hf₁
    have hbsLen : bs.length = s := by
      rw [← hbs, List.length_take, length_readAt, hc.srcPos]
      omega
    have hbsAt : ∀ i < s, byteAt bs i = byteAt src (k + i) := by
      intro i hi
      rw [← hbs, byteAt_take, byteAt_readAt, hc.srcPos, if_pos (by omega), if_pos (by omega)]
    rw [hbsLen, hc.srcPos] at hf₁
    have hzero : e.allZero len bs = true ↔ LastHole e src (k + s) (some s) :=
      allZero_iff hbsLen (by omega) hbsAt
    have hlast : (s :: sizes).getLast?.or last = sizes.getLast?.or (some s) := by
      rw [List.getLast?_cons, Option.some_or]
      cases sizes.getLast? <;> rfl
    have hend : k + len = k + s + (len - s) := by omega
    rw [hlast, hend]
    by_cases hz : LastHole e src (k + s) (some s)
    · -- the block is skipped
      obtain ⟨f₂, c', hc', hf₂⟩ := ih
        (c := ⟨c.dst, k + s, c.dstPos + s, u + 1, c.wr, c.sk + 1, true, true⟩)
        (hc.skip (by omega) hz rfl rfl (by rw [hc.dstPos]) rfl) rfl (by omega)
      refine ⟨f₁ + f₂ + 1, c', hc', fun fuel => ?_⟩
      rw [← Nat.add_assoc, copyLoop, if_neg (by omega), ← Nat.add_assoc, Nat.add_right_comm, hf₁]
      simp only [hzero.mpr hz, hseek, hbsLen, Bool.not_true, Bool.false_eq_true, if_false]
      rw [Nat.add_right_comm]
      exact hf₂ (fuel + f₁)
    · -- the block is written
      obtain ⟨f₂, c₂, hw, hf₂⟩ := writeLoop_written hwrite bs
        ⟨c.dst, k + s, c.dstPos, u + 1, c.wr, c.sk, false, c.sparse⟩
      obtain ⟨f₃, c', hc', hf₃⟩ := ih (c := c₂)
        (hc.written hbsLen (by omega) hbsAt hz hw.srcPos (by rw [hw.dst, hc.dstPos])
          (by rw [hw.dstPos, hc.dstPos, hbsLen]) hw.allZero) hw.rd (by omega)
      refine ⟨f₁ + f₂ + f₃ + 1, c', hc', fun fuel => ?_⟩
      have hread₁ := hf₁ (fuel + f₂ + f₃)
      have hwrite₂ := hf₂ (fuel + f₁ + f₃)
      have hrest₃ := hf₃ (fuel + f₁ + f₂)
      have e₁ : fuel + f₂ + f₃ + f₁ = fuel + (f₁ + f₂ + f₃) := by omega
      have e₂ : fuel + f₁ + f₃ + f₂ = fuel + (f₁ + f₂ + f₃) := by omega
      have e₃ : fuel + f₁ + f₂ + f₃ = fuel + (f₁ + f₂ + f₃) := by omega
      rw [e₁] at hread₁
      rw [e₂] at hwrite₂
      rw [e₃] at hrest₃
      rw [← Nat.add_assoc, copyLoop, if_neg (by omega), hread₁]
      simp only [Bool.eq_false_iff.mpr (fun h => hz (hzero.mp h)), hwrite₂, hbsLen,
        Bool.not_false, if_true]
      exact hrest₃

-- ---------------------------------------------------------------------------
-- The whole copy
-- ---------------------------------------------------------------------------

/-- The byte behind the last hole is written and stays: the size is one too large. When it
is not written, the size stays too small. -/
theorem lastHole_length {e : CopyEnv} (hwrite : Fair e.write) (hnotify : e.notify = none)
    {c : Copy} (hc : c.dst.length < c.dstPos) :
    ∃ f c', c'.dst.length ≠ c.dstPos ∧
      ∀ fuel, lastHole e (fuel + f) c = some (.ok (), c') := by
  obtain ⟨u, n, hm⟩ := hwrite.moved c.wr
  generalize ht : c.wr = t at hm
  induction hm generalizing c with
  | @now t n h =>
    subst ht
    have hne : ([0] : List UInt8) ≠ [] := List.cons_ne_nil _ _
    refine ⟨1, ⟨setSize (writeAt c.dst c.dstPos [0]) (c.dstPos + 1), c.srcPos, c.dstPos + 1, c.rd,
      c.wr + 1, c.sk, c.allZero, c.sparse⟩, ?_, fun fuel => ?_⟩
    · rw [length_setSize]
      omega
    · simp only [lastHole, h, hnotify]
  | @zero t u n h _ _ =>
    subst ht
    refine ⟨1, { c with wr := c.wr + 1 }, ?_, fun fuel => ?_⟩
    · show c.dst.length ≠ c.dstPos
      omega
    · simp only [lastHole, h]
  | @again t u n err h herr _ ih =>
    subst ht
    obtain ⟨f, c', hlen, hf⟩ := ih (c := { c with wr := c.wr + 1 }) hc rfl
    refine ⟨f + 1, c', hlen, fun fuel => ?_⟩
    rw [← Nat.add_assoc]
    simp only [lastHole, h, if_pos herr]
    exact hf fuel

/-- A file with the right bytes is the copy exactly when its size is right. -/
theorem eq_take_iff {l src : List UInt8} {len : Nat} (hlen : len ≤ src.length)
    (h : ∀ i < len, byteAt l i = byteAt src i) : l = src.take len ↔ l.length = len := by
  constructor
  · intro heq
    rw [heq, List.length_take]
    omega
  · intro hl
    apply ext_byteAt
    · rw [hl, List.length_take]
      omega
    · intro i hi
      rw [byteAt_take, if_pos (by omega), h i (by omega)]

/-- A copy in which no transfer fails for good ends and returns 0. The destination then
holds the first `len` bytes of the source exactly when the last read was not a full block
of zeros. -/
theorem auCopyFile_content_iff {e : CopyEnv} {src : List UInt8} {len : Nat}
    (hpage : 0 < e.pageSize) (hbuf : e.buf = true) (hia : e.ia = true) (hread : Fair e.read)
    (hwrite : Fair e.write) (hseek : ∀ t, e.seek t = none) (hnotify : e.notify = none)
    (hlen : len ≤ src.length) :
    (∃ sizes, Reads e 0 len sizes) ∧
      ∀ sizes, Reads e 0 len sizes →
        ∃ f c, (∀ fuel, auCopyFile e (fuel + f) [] src len = some (.ok (), c)) ∧
          (c.dst = src.take len ↔ ¬LastHole e src len sizes.getLast?) := by
  refine ⟨Reads.exists hpage hread 0 len, fun sizes hr => ?_⟩
  have hblk := CopyEnv.blksize_pos hpage
  -- the invariant holds of the empty destination
  have hinit : CopyInv e src 0 none ⟨[], 0, 0, 0, 0, 0, false, false⟩ := {
    srcPos := rfl
    dstPos := rfl
    bytes := fun _ => rfl
    allZero := iff_of_false Bool.false_ne_true (fun h => nomatch h.1)
    size := fun _ => rfl
    hole := nofun }
  obtain ⟨f₁, c₁, hc₁, hf₁⟩ := copyLoop_spec hwrite hseek hr hinit rfl (by omega) hblk
  rw [Nat.zero_add, Option.or_none] at hc₁
  cases hz : c₁.allZero with
  | false =>
    refine ⟨f₁, c₁, fun fuel => ?_, ?_⟩
    · simp only [auCopyFile, hbuf, hia, hf₁, hz, Bool.not_true, Bool.false_eq_true, if_false]
    · rw [eq_take_iff hlen (fun i hi => by rw [hc₁.bytes, if_pos hi]), ← hc₁.allZero]
      exact iff_of_true (hc₁.size hz) (by rw [hz]; exact Bool.false_ne_true)
  | true =>
    have hshort : c₁.dst.length < c₁.dstPos := by
      rw [hc₁.dstPos]
      exact hc₁.hole hz
    obtain ⟨f₂, c₂, hc₂, hf₂⟩ := lastHole_length hwrite hnotify hshort
    refine ⟨f₁ + f₂, c₂, fun fuel => ?_, ?_⟩
    · have hloop := hf₁ (fuel + f₂)
      rw [show fuel + f₂ + f₁ = fuel + (f₁ + f₂) by omega] at hloop
      have hlast := hf₂ (fuel + f₁)
      rw [Nat.add_assoc] at hlast
      simp only [auCopyFile, hbuf, hia, hloop, hz, Bool.not_true, Bool.false_eq_true, if_false,
        if_true, hlast]
    · refine iff_of_false (fun heq => hc₂ ?_) (fun h => h (hc₁.allZero.mp hz))
      rw [heq, hc₁.dstPos, List.length_take]
      omega

/-- Lower files with blocks of two bytes; the first call is interrupted, the others move one
byte each. -/
def slowEnv : CopyEnv where
  sBlocksize := 2
  pageSize := 4096
  buf := true
  ia := true
  read t := if t = 0 then .error .EINTR else .ok 1
  write t := if t = 0 then .error .EAGAIN else .ok 1
  seek _ := none
  notify := none

theorem fair_once {err : Errno} (herr : retried err = true) :
    Fair (fun t => if t = 0 then .error err else .ok 1) where
  progress t := ⟨1, 0, by rw [if_neg (by omega)]⟩
  retried t err' h := by
    cases t with
    | zero => exact Except.error.inj h ▸ herr
    | succ t => rw [if_neg (by omega)] at h; cases h

theorem auCopyFile_slow :
    (∃ sizes, Reads slowEnv 0 2 sizes) ∧
      ∀ sizes, Reads slowEnv 0 2 sizes →
        ∃ f c, (∀ fuel, auCopyFile slowEnv (fuel + f) [] [7, 0, 9] 2 = some (.ok (), c)) ∧
          (c.dst = [7, 0] ↔ ¬LastHole slowEnv [7, 0, 9] 2 sizes.getLast?) :=
  auCopyFile_content_iff (by decide) rfl rfl (fair_once rfl) (fair_once rfl) (fun _ => rfl) rfl
    (by decide)

/-- Lower files that move whole blocks of two bytes. -/
def blockEnv : CopyEnv :=
  { slowEnv with read := fun _ => .ok 2, write := fun _ => .ok 2 }

/-- One block of zeros is copied to a file that is one byte longer. -/
theorem auCopyFile_zero_block :
    auCopyFile blockEnv 4 [] [0, 0] 2 =
        some (.ok (), ⟨[0, 0, 0], 2, 3, 1, 1, 1, true, true⟩) ∧
      ([0, 0, 0] : List UInt8) ≠ List.take 2 [0, 0] := by
  refine ⟨rfl, by decide⟩

/-- A hole inside the copy does no harm. -/
example : (auCopyFile blockEnv 6 [] [0, 0, 5] 3).map (fun r => r.2.dst) = some [0, 0, 5] := rfl

end Aufs
