-- SUMMARY: Delegated reads and writes: page by page through a kernel buffer, and when they equal plain ones.
import Aufs.Basic
import Aufs.Lib.ByteFile
import Aufs.Lib.Chunks
import Aufs.Lib.CMem

/-!
# Delegated input and output

A delegated read or write of a user buffer is done by a kernel thread, which has no user
memory: it goes through a kernel buffer of a page at most. A round that fails ends it with
the error, also when earlier rounds have moved bytes and the position of the file. How
many bytes a lower call moves, and how many bytes a copy from or to the user leaves, is up
to the surroundings: the answers are streams with one entry for each lower call.
-/

namespace Aufs

open ByteFile

/-- The errors of a delegated call: its own, and those of the lower calls. -/
inductive IoError where
  | EFAULT
  | ENOMEM
  | lower (err : Errno)

/-- What a call gets from its surroundings. A lower call that answers `n` moves at most `n` bytes. -/
structure IoEnv where
  pageSize : Nat
  pageSize_pos : 0 < pageSize
  kmalloc : Bool
  lower : Nat → Except Errno Nat
  /-- The bytes that `copy_to_user` or `copy_from_user` leaves. -/
  fault : Nat → Nat

/-- The file with its position, the memory of the user, how many bytes of it were read or written,
and the lower calls made. -/
structure IoState where
  pos : Nat
  file : List UInt8
  user : CMem.Mem
  copied : Nat
  calls : Nat

namespace IoEnv

/-- `do_vfsub_read_k`, also for the part of `do_vfsub_read_u` that reads the file. -/
def doVfsubReadK (e : IoEnv) (s : IoState) (count : Nat) : Except IoError (List UInt8) × IoState :=
  let s' := { s with calls := s.calls + 1 }
  match e.lower s.calls with
  | .error err => (.error (.lower err), s')
  | .ok n =>
    let bs := readAt s.file s.pos (min n count)
    (.ok bs, { s' with pos := s.pos + bs.length })

/-- `do_vfsub_write_k`, also for the part of `do_vfsub_write_u` that writes the file. -/
def doVfsubWriteK (e : IoEnv) (s : IoState) (kbuf : List UInt8) : Except IoError Nat × IoState :=
  let s' := { s with calls := s.calls + 1 }
  match e.lower s.calls with
  | .error err => (.error (.lower err), s')
  | .ok n =>
    let bs := kbuf.take n
    (.ok bs.length, { s' with pos := s.pos + bs.length, file := writeAt s.file s.pos bs })

/-- One round of the loop of `vfsub_read_u`. -/
def readRound (e : IoEnv) (ubuf : Int) (s : IoState) (count read : Nat) : Except IoError Nat × IoState :=
  match e.doVfsubReadK s count with
  | (.error err, s') => (.error err, s')
  | (.ok kbuf, s') =>
    let left := min (e.fault s.calls) kbuf.length
    -- if (err > 0 && copy_to_user(..))
    let copied := kbuf.take (kbuf.length - left)
    let s' :=
      { s' with user := CMem.store s'.user (ubuf + read) copied, copied := s'.copied + copied.length }
    if left ≠ 0 then (.error .EFAULT, s') else (.ok kbuf.length, s')

/-- One round of the loop of `vfsub_write_u`. -/
def writeRound (e : IoEnv) (ubuf : Int) (s : IoState) (count written : Nat) :
    Except IoError Nat × IoState :=
  if min (e.fault s.calls) count ≠ 0 then (.error .EFAULT, s)
  else
    match e.doVfsubWriteK s (CMem.load s.user (ubuf + written) count) with
    | (.error err, s') => (.error err, s')
    | (.ok n, s') => (.ok n, { s' with copied := s'.copied + n })

/-- What both do around their loops. -/
def delegated (e : IoEnv) (round : Chunks.Body IoState IoError) (count : Nat) (s : IoState) :
    Option (Except IoError Nat × IoState) :=
  if count = 0 then some (.ok 0, s)
  else if e.kmalloc then Chunks.loop round count count (min count e.pageSize) 0 s
  else some (.error .ENOMEM, s)

/-- `do_vfsub_read_u` -/
def doVfsubReadU (e : IoEnv) (ubuf : Int) (count : Nat) (s : IoState) : Except IoError Nat × IoState :=
  match e.doVfsubReadK s count with
  | (.error err, s') => (.error err, s')
  | (.ok bs, s') =>
    (.ok bs.length, { s' with user := CMem.store s'.user ubuf bs, copied := s'.copied + bs.length })

/-- `do_vfsub_write_u` -/
def doVfsubWriteU (e : IoEnv) (ubuf : Int) (count : Nat) (s : IoState) : Except IoError Nat × IoState :=
  match e.doVfsubWriteK s (CMem.load s.user ubuf count) with
  | (.error err, s') => (.error err, s')
  | (.ok n, s') => (.ok n, { s' with copied := s'.copied + n })

/-- `vfsub_read_u` -/
def vfsubReadU (e : IoEnv) (ubuf : Int) (count : Nat) (dlgt : Bool) (s : IoState) :
    Option (Except IoError Nat × IoState) :=
  if dlgt then e.delegated (e.readRound ubuf) count s else some (e.doVfsubReadU ubuf count s)

/-- `vfsub_write_u` -/
def vfsubWriteU (e : IoEnv) (ubuf : Int) (count : Nat) (dlgt : Bool) (s : IoState) :
    Option (Except IoError Nat × IoState) :=
  if dlgt then e.delegated (e.writeRound ubuf) count s else some (e.doVfsubWriteU ubuf count s)

-- ---------------------------------------------------------------------------
-- What is expected
-- ---------------------------------------------------------------------------

/-- No transfer is short for another reason than the end of the file, and nothing fails. -/
structure Full (e : IoEnv) (count : Nat) : Prop where
  kmalloc : e.kmalloc = true
  lower : ∀ k, ∃ n, e.lower k = .ok n ∧ count ≤ n
  fault : ∀ k, e.fault k = 0

end IoEnv

/-- The same but for the number of lower calls. -/
def IoState.SameIo (s s' : IoState) : Prop :=
  s.pos = s'.pos ∧ s.file = s'.file ∧ s.user = s'.user ∧ s.copied = s'.copied

/-- Bytes were read from the file and copied to the user. -/
def IoState.afterRead (s : IoState) (addr : Int) (bs : List UInt8) : IoState where
  pos := s.pos + bs.length
  file := s.file
  user := CMem.store s.user addr bs
  copied := s.copied + bs.length
  calls := s.calls + 1

/-- Bytes of the user were written to the file. -/
def IoState.afterWrite (s : IoState) (bs : List UInt8) : IoState where
  pos := s.pos + bs.length
  file := writeAt s.file s.pos bs
  user := s.user
  copied := s.copied + bs.length
  calls := s.calls + 1

/-- A read has moved `n` bytes: the position, and the bytes of the file into the memory of the user. -/
structure ReadMoved (s₀ : IoState) (ubuf : Int) (n : Nat) (s : IoState) : Prop where
  pos : s.pos = s₀.pos + n
  copied : s.copied = s₀.copied + n
  file : s.file = s₀.file
  user : s.user = CMem.store s₀.user ubuf (readAt s₀.file s₀.pos n)
  length : (readAt s₀.file s₀.pos n).length = n

/-- A write has moved `n` bytes: the position, and the bytes of the user into the file. -/
structure WriteMoved (s₀ : IoState) (ubuf : Int) (n : Nat) (s : IoState) : Prop where
  pos : s.pos = s₀.pos + n
  copied : s.copied = s₀.copied + n
  user : s.user = s₀.user
  file : s.file = writeAt s₀.file s₀.pos (CMem.load s₀.user ubuf n)

/-- What should hold of the end of a delegated call: the number that it returns was moved, nothing was
if it returns an error, and without short transfers and errors it is as the plain call. -/
structure Faithful (e : IoEnv) (count : Nat) (Moved : Nat → IoState → Prop)
    (plain : Option (Except IoError Nat × IoState)) (r : Except IoError Nat) (s : IoState) : Prop where
  ok : ∀ n, r = .ok n → Moved n s
  error : ∀ err, r = .error err → Moved 0 s
  full : e.Full count → ∃ s', plain = some (r, s') ∧ s.SameIo s'

/-- An error without short transfers and errors does not come up. -/
theorem Faithful.of_error {e : IoEnv} {count : Nat} {Moved : Nat → IoState → Prop}
    {plain : Option (Except IoError Nat × IoState)} {err : IoError} {s : IoState} (h : Moved 0 s)
    (hfull : ¬ e.Full count) : Faithful e count Moved plain (.error err) s where
  ok n hn := by cases hn
  error _ _ := h
  full hf := absurd hf hfull

namespace IoEnv

variable {e : IoEnv} {ubuf : Int} {count c m n : Nat} {s₀ s s' : IoState} {err : IoError}

/-- The rounds that a delegated call reaches. -/
def RoundOf (e : IoEnv) (round : Chunks.Body IoState IoError) (count : Nat) (s₀ : IoState)
    (c m : Nat) (s : IoState) : Prop :=
  0 < count ∧ e.kmalloc = true ∧ ∃ left, Chunks.Reached round count (min count e.pageSize) s₀ left c m s

/-- All ends of a delegated call are good just when the rounds that fail end well, if the others do. -/
theorem delegated_good_iff (e : IoEnv) (round : Chunks.Body IoState IoError)
    (Good : Except IoError Nat → IoState → Prop)
    (hzero : count = 0 → Good (.ok 0) s₀) (hmem : e.kmalloc = false → Good (.error .ENOMEM) s₀)
    (hok : ∀ left c m n s s', Chunks.Reached round count (min count e.pageSize) s₀ left c m s →
      0 < count → round s c m = (.ok n, s') → n = 0 ∨ left - n = 0 → Good (.ok (m + n)) s') :
    (∃ r s, e.delegated round count s₀ = some (r, s) ∧ Good r s) ↔
      ∀ c m s err s', e.RoundOf round count s₀ c m s → round s c m = (.error err, s') →
        Good (.error err) s' := by
  by_cases hcount : count = 0
  case pos =>
    refine iff_of_true ⟨.ok 0, s₀, if_pos hcount, hzero hcount⟩ ?_
    rintro c m s err s' ⟨hpos, _⟩
    omega
  case neg =>
    have hpos := Nat.pos_of_ne_zero hcount
    rw [delegated, if_neg hcount]
    cases hk : e.kmalloc with
    | false =>
      refine iff_of_true ⟨.error .ENOMEM, s₀, rfl, hmem hk⟩ ?_
      rintro c m s err s' ⟨_, hk', _⟩
      rw [hk] at hk'
      cases hk'
    | true =>
      rw [if_pos rfl, Chunks.loop_good_iff hpos (Nat.le_refl count)
        fun left c m n s s' h => hok left c m n s s' h hpos]
      constructor
      case mp =>
        rintro h c m s err s' ⟨_, _, left, hreached⟩ hround
        exact h left c m s err s' hreached hround
      case mpr =>
        intro h left c m s err s' hreached hround
        exact h c m s err s' ⟨hpos, hk, left, hreached⟩ hround

/-- What a kind of round has to do for its delegated calls to be faithful just when the rounds that they
reach are harmless: go on with what was moved, leave nothing moved behind an error just when it is
harmless, fail only with errors from outside, and end where the plain call does. -/
structure Rounds (e : IoEnv) (round : Chunks.Body IoState IoError) (count : Nat) (s₀ : IoState)
    (Moved : Nat → IoState → Prop) (plain : Option (Except IoError Nat × IoState))
    (Harmless : Nat → Nat → IoState → Prop) : Prop where
  start : Moved 0 s₀
  next : ∀ s c m n s', Moved m s → round s c m = (.ok n, s') → Moved (m + n) s'
  error_iff : ∀ s c m, Moved m s →
    ((∀ err s', round s c m = (.error err, s') → Moved 0 s') ↔ Harmless c m s)
  outside : ∀ s c m err s', round s c m = (.error err, s') → ¬ e.Full count
  nothing : count = 0 → e.Full count → ∃ s', plain = some (.ok 0, s') ∧ s₀.SameIo s'
  whole : ∀ s left c m n s', Moved m s → e.Full count → round s c m = (.ok n, s') →
    left + m = count → 0 < c → c ≤ left → n = 0 ∨ left - n = 0 →
    ∃ t, plain = some (.ok (m + n), t) ∧ s'.SameIo t

/-- Before every round the bytes counted so far were moved. -/
theorem Rounds.moved {round : Chunks.Body IoState IoError} {Moved : Nat → IoState → Prop}
    {plain : Option (Except IoError Nat × IoState)} {Harmless : Nat → Nat → IoState → Prop} {left : Nat}
    (h : Rounds e round count s₀ Moved plain Harmless)
    (hreached : Chunks.Reached round count (min count e.pageSize) s₀ left c m s) : Moved m s := by
  induction hreached with
  | start => exact h.start
  | next _ hround _ _ ih => exact h.next _ _ _ _ _ ih hround

theorem Rounds.faithful_iff {round : Chunks.Body IoState IoError} {Moved : Nat → IoState → Prop}
    {plain : Option (Except IoError Nat × IoState)} {Harmless : Nat → Nat → IoState → Prop}
    (h : Rounds e round count s₀ Moved plain Harmless) :
    (∃ r s, e.delegated round count s₀ = some (r, s) ∧ Faithful e count Moved plain r s) ↔
      ∀ c m s, e.RoundOf round count s₀ c m s → Harmless c m s := by
  refine (delegated_good_iff e round (Faithful e count Moved plain) ?_ ?_ ?_).trans ?_
  · intro hcount
    refine ⟨?_, ?_, h.nothing hcount⟩
    · intro n hn
      obtain rfl := Except.ok.inj hn
      exact h.start
    · intro err herr
      cases herr
  · intro hk
    apply Faithful.of_error h.start
    intro hfull
    rw [hfull.kmalloc] at hk
    cases hk
  · intro left c m n s s' hreached hpos hround hlast
    have hmoved := h.moved hreached
    refine ⟨?_, ?_, ?_⟩
    · intro total htotal
      obtain rfl := Except.ok.inj htotal
      exact h.next _ _ _ _ _ hmoved hround
    · intro err herr
      cases herr
    · intro hfull
      have hchunk : 0 < min count e.pageSize := Nat.lt_min.mpr ⟨hpos, e.pageSize_pos⟩
      exact h.whole s left c m n s' hmoved hfull hround hreached.left_add_moved
        (hreached.chunk_pos hchunk) (hreached.chunk_le (Nat.min_le_left ..)) hlast
  · constructor
    case mp =>
      rintro hall c m s ⟨hpos, hk, left, hreached⟩
      apply (h.error_iff s c m (h.moved hreached)).mp
      intro err s' hround
      exact (hall c m s err s' ⟨hpos, hk, left, hreached⟩ hround).error err rfl
    case mpr =>
      rintro hall c m s err s' ⟨hpos, hk, left, hreached⟩ hround
      have hharmless := hall c m s ⟨hpos, hk, left, hreached⟩
      exact .of_error ((h.error_iff s c m (h.moved hreached)).mpr hharmless err s' hround)
        (h.outside s c m err s' hround)

-- ---------------------------------------------------------------------------
-- Reads
-- ---------------------------------------------------------------------------

/-- The condition on a round of a read: the lower read may only fail in the first round, and what it
has read is copied. -/
def ReadHarmless (e : IoEnv) (count m : Nat) (s : IoState) : Prop :=
  (∀ err, e.lower s.calls = .error err → m = 0) ∧
  ∀ n, e.lower s.calls = .ok n → readAt s.file s.pos (min n count) ≠ [] → e.fault s.calls = 0

/-- Reading as many bytes as a read has given reads the same. -/
private theorem readAt_length (l : List UInt8) (pos n : Nat) :
    readAt l pos (readAt l pos n).length = readAt l pos n := by
  rw [readAt, readAt, List.length_take]
  rcases Nat.le_total n (l.drop pos).length with h | h
  · rw [Nat.min_eq_left h]
  · rw [Nat.min_eq_right h, List.take_length, List.take_of_length_le h]

/-- A read is what its two parts read. -/
private theorem readAt_add (l : List UInt8) (pos m n : Nat) :
    readAt l pos (m + n) = readAt l pos m ++ readAt l (pos + m) n := by
  rw [readAt, readAt, readAt, List.take_add, List.drop_drop]

theorem readMoved_zero (s₀ : IoState) (ubuf : Int) : ReadMoved s₀ ubuf 0 s₀ where
  pos := rfl
  copied := rfl
  file := rfl
  user := (CMem.store_nil s₀.user ubuf).symm
  length := rfl

/-- What a round of a read does. -/
theorem readRound_cases (e : IoEnv) (ubuf : Int) (s : IoState) (c m : Nat) :
    (∃ err, e.lower s.calls = .error err ∧
      e.readRound ubuf s c m = (.error (.lower err), { s with calls := s.calls + 1 })) ∨
    ∃ k bs, e.lower s.calls = .ok k ∧ bs = readAt s.file s.pos (min k c) ∧
      (min (e.fault s.calls) bs.length = 0 ∧
        e.readRound ubuf s c m = (.ok bs.length, s.afterRead (ubuf + m) bs) ∨
      min (e.fault s.calls) bs.length ≠ 0 ∧
        ∃ s', e.readRound ubuf s c m = (.error .EFAULT, s') ∧ s'.pos = s.pos + bs.length) := by
  rcases hlower : e.lower s.calls with err | k
  case error =>
    refine Or.inl ⟨err, rfl, ?_⟩
    simp only [readRound, doVfsubReadK, hlower]
  case ok =>
    refine Or.inr ⟨k, _, rfl, rfl, ?_⟩
    by_cases hleft : min (e.fault s.calls) (readAt s.file s.pos (min k c)).length = 0
    case pos =>
      refine Or.inl ⟨hleft, ?_⟩
      simp only [readRound, doVfsubReadK, hlower, hleft, Nat.sub_zero, List.take_length, ne_eq,
        not_true_eq_false, if_false]
      rfl
    case neg =>
      refine Or.inr ⟨hleft, ?_⟩
      simp only [readRound, doVfsubReadK, hlower, ne_eq, hleft, not_false_eq_true, if_true]
      exact ⟨_, rfl, rfl⟩

/-- A round that moves bytes goes on with what was moved before. -/
theorem readMoved_round (h : ReadMoved s₀ ubuf m s) (hround : e.readRound ubuf s c m = (.ok n, s')) :
    ReadMoved s₀ ubuf (m + n) s' := by
  rcases readRound_cases e ubuf s c m with ⟨err, _, hrun⟩ | ⟨k, bs, _, hbs, ⟨_, hrun⟩ | ⟨_, t, hrun, _⟩⟩
  case inl =>
    rw [hrun] at hround
    cases hround
  case inr.inl =>
    rw [hrun] at hround
    obtain ⟨hn, rfl⟩ := Prod.mk.inj hround
    obtain rfl := Except.ok.inj hn
    have hpart : readAt s₀.file (s₀.pos + m) bs.length = bs := by
      rw [hbs, h.file, h.pos, readAt_length]
    have hwhole : readAt s₀.file s₀.pos (m + bs.length) = readAt s₀.file s₀.pos m ++ bs := by
      rw [readAt_add, hpart]
    have hstore := CMem.store_append s₀.user ubuf (readAt s₀.file s₀.pos m) bs
    rw [h.length] at hstore
    refine ⟨?_, ?_, h.file, ?_, ?_⟩
    · show s.pos + bs.length = _
      rw [h.pos, Nat.add_assoc]
    · show s.copied + bs.length = _
      rw [h.copied, Nat.add_assoc]
    · show CMem.store s.user (ubuf + m) bs = _
      rw [h.user, hstore, hwhole]
    · rw [hwhole, List.length_append, h.length]
  case inr.inr =>
    rw [hrun] at hround
    cases hround

/-- A round that fails leaves nothing moved just when it is harmless. -/
theorem readMoved_error_iff (h : ReadMoved s₀ ubuf m s) :
    (∀ err s', e.readRound ubuf s c m = (.error err, s') → ReadMoved s₀ ubuf 0 s') ↔
      e.ReadHarmless c m s := by
  rcases readRound_cases e ubuf s c m with ⟨err, hlower, hrun⟩ |
    ⟨k, bs, hlower, hbs, ⟨hleft, hrun⟩ | ⟨hleft, t, hrun, hpos⟩⟩
  case inl =>
    have hmoved : ReadMoved s₀ ubuf 0 { s with calls := s.calls + 1 } ↔ m = 0 := by
      constructor
      case mp =>
        intro hzero
        have hpos : s.pos = s₀.pos + 0 := hzero.pos
        rw [h.pos] at hpos
        omega
      case mpr =>
        rintro rfl
        exact ⟨h.pos, h.copied, h.file, h.user, h.length⟩
    constructor
    case mp =>
      intro hall
      refine ⟨fun _ _ => hmoved.mp (hall _ _ hrun), ?_⟩
      intro k hk
      rw [hlower] at hk
      cases hk
    case mpr =>
      rintro hharmless err' s' hround
      rw [hrun] at hround
      obtain ⟨_, rfl⟩ := Prod.mk.inj hround
      exact hmoved.mpr (hharmless.1 err hlower)
  case inr.inl =>
    refine iff_of_true ?_ ⟨?_, ?_⟩
    · intro err s' hround
      rw [hrun] at hround
      cases hround
    · intro err herr
      rw [hlower] at herr
      cases herr
    · intro k' hk' hne
      obtain rfl := Except.ok.inj (hlower.symm.trans hk')
      rw [← hbs] at hne
      have hlen := List.length_pos_of_ne_nil hne
      omega
  case inr.inr =>
    have hne : bs ≠ [] := by
      rintro rfl
      exact hleft (Nat.min_zero _)
    refine iff_of_false ?_ ?_
    · intro hall
      have hzero := (hall _ _ hrun).pos
      have hlen := List.length_pos_of_ne_nil hne
      rw [hpos, h.pos] at hzero
      omega
    · intro hharmless
      have hfault := hharmless.2 k hlower (hbs ▸ hne)
      rw [hfault, Nat.zero_min] at hleft
      exact hleft rfl

/-- The plain read without short transfers and errors. -/
theorem doVfsubReadU_full (hfull : e.Full count) (s : IoState) :
    e.doVfsubReadU ubuf count s = (.ok (readAt s.file s.pos count).length,
      s.afterRead ubuf (readAt s.file s.pos count)) := by
  obtain ⟨k, hlower, hk⟩ := hfull.lower s.calls
  simp only [doVfsubReadU, doVfsubReadK, hlower, Nat.min_eq_right hk]
  rfl

/-- Without short transfers and errors the last round has read all that there is. -/
theorem readMoved_full {left : Nat} (h : ReadMoved s₀ ubuf m s) (hfull : e.Full count)
    (hround : e.readRound ubuf s c m = (.ok n, s')) (hwhole : left + m = count) (hc : 0 < c)
    (hle : c ≤ left) (hlast : n = 0 ∨ left - n = 0) :
    readAt s₀.file s₀.pos (m + n) = readAt s₀.file s₀.pos count := by
  obtain ⟨k, hlower, hk⟩ := hfull.lower s.calls
  have hn : n = (readAt s₀.file (s₀.pos + m) c).length := by
    rcases readRound_cases e ubuf s c m with ⟨err, herr, _⟩ | ⟨k', bs, hk', hbs, ⟨_, hrun⟩ | ⟨_, t, hrun, _⟩⟩
    case inl =>
      rw [hlower] at herr
      cases herr
    case inr.inl =>
      obtain rfl := Except.ok.inj (hlower.symm.trans hk')
      have hmin : min k c = c := Nat.min_eq_right (by omega)
      rw [hrun] at hround
      obtain ⟨hok, _⟩ := Prod.mk.inj hround
      rw [← Except.ok.inj hok, hbs, hmin, h.file, h.pos]
    case inr.inr =>
      rw [hrun] at hround
      cases hround
  rcases hlast with hzero | hrest
  case inl =>
    have hnil : readAt s₀.file (s₀.pos + m) c = [] := List.eq_nil_of_length_eq_zero (hn.symm.trans hzero)
    have hend : s₀.file.drop (s₀.pos + m) = [] := by
      rw [readAt, List.take_eq_nil_iff] at hnil
      exact hnil.resolve_left (Nat.ne_of_gt hc)
    rw [hzero, Nat.add_zero, ← hwhole, Nat.add_comm left m, readAt_add]
    rw [readAt.eq_def s₀.file (s₀.pos + m) left, hend, List.take_nil, List.append_nil]
  case inr =>
    have hnc : n ≤ c := by
      rw [hn, length_readAt]
      exact Nat.min_le_left ..
    have hcount : m + n = count := by omega
    rw [hcount]

/-- No round fails without short transfers and errors. -/
theorem readRound_full (hround : e.readRound ubuf s c m = (.error err, s')) : ¬ e.Full count := by
  intro hfull
  obtain ⟨k, hlower, _⟩ := hfull.lower s.calls
  rcases readRound_cases e ubuf s c m with ⟨err, herr, _⟩ | ⟨k', bs, _, _, ⟨_, hrun⟩ | ⟨hleft, _⟩⟩
  case inl =>
    rw [hlower] at herr
    cases herr
  case inr.inl =>
    rw [hrun] at hround
    cases hround
  case inr.inr =>
    rw [hfull.fault, Nat.zero_min] at hleft
    exact hleft rfl

theorem readRound_rounds (e : IoEnv) (ubuf : Int) (count : Nat) (s₀ : IoState) :
    Rounds e (e.readRound ubuf) count s₀ (ReadMoved s₀ ubuf) (e.vfsubReadU ubuf count false s₀)
      e.ReadHarmless := by
  have hplain : e.vfsubReadU ubuf count false s₀ = some (e.doVfsubReadU ubuf count s₀) := rfl
  refine ⟨readMoved_zero s₀ ubuf, fun _ _ _ _ _ => readMoved_round, fun _ _ _ => readMoved_error_iff,
    fun _ _ _ _ _ => readRound_full, ?_, ?_⟩
  · rintro rfl hfull
    rw [hplain, doVfsubReadU_full hfull]
    exact ⟨_, rfl, rfl, rfl, (CMem.store_nil s₀.user ubuf).symm, rfl⟩
  · intro s left c m n s' hmoved hfull hround hwhole hc hle hlast
    have hend := readMoved_round hmoved hround
    have hall := readMoved_full hmoved hfull hround hwhole hc hle hlast
    rw [hplain, doVfsubReadU_full hfull, ← hall, hend.length]
    refine ⟨_, rfl, hend.pos.trans ?_, hend.file, hend.user, hend.copied.trans ?_⟩
    · show s₀.pos + (m + n) = s₀.pos + (readAt s₀.file s₀.pos (m + n)).length
      rw [hend.length]
    · show s₀.copied + (m + n) = s₀.copied + (readAt s₀.file s₀.pos (m + n)).length
      rw [hend.length]

-- ---------------------------------------------------------------------------
-- Writes
-- ---------------------------------------------------------------------------

/-- The condition on a round of a write: nothing fails but in the first round. -/
def WriteHarmless (e : IoEnv) (count m : Nat) (s : IoState) : Prop :=
  m ≠ 0 → min (e.fault s.calls) count = 0 ∧ ∀ err, e.lower s.calls ≠ .error err

theorem writeMoved_zero (s₀ : IoState) (ubuf : Int) : WriteMoved s₀ ubuf 0 s₀ where
  pos := rfl
  copied := rfl
  user := rfl
  file := (writeAt_nil s₀.file s₀.pos).symm

/-- What a round of a write does. -/
theorem writeRound_cases (e : IoEnv) (ubuf : Int) (s : IoState) (c m : Nat) :
    (min (e.fault s.calls) c ≠ 0 ∧ e.writeRound ubuf s c m = (.error .EFAULT, s)) ∨
    min (e.fault s.calls) c = 0 ∧
      ((∃ err, e.lower s.calls = .error err ∧
        e.writeRound ubuf s c m = (.error (.lower err), { s with calls := s.calls + 1 })) ∨
      ∃ k, e.lower s.calls = .ok k ∧ e.writeRound ubuf s c m =
        (.ok (min k c), s.afterWrite (CMem.load s.user (ubuf + m) (min k c)))) := by
  by_cases hfault : min (e.fault s.calls) c = 0
  case neg => exact Or.inl ⟨hfault, if_pos hfault⟩
  case pos =>
    refine Or.inr ⟨hfault, ?_⟩
    have hround : e.writeRound ubuf s c m =
        match e.doVfsubWriteK s (CMem.load s.user (ubuf + m) c) with
        | (.error err, s') => (.error err, s')
        | (.ok n, s') => (.ok n, { s' with copied := s'.copied + n }) := if_neg (not_not.mpr hfault)
    rcases hlower : e.lower s.calls with err | k
    case error =>
      refine Or.inl ⟨err, rfl, ?_⟩
      simp only [hround, doVfsubWriteK, hlower]
    case ok =>
      refine Or.inr ⟨k, rfl, ?_⟩
      simp only [hround, doVfsubWriteK, hlower, CMem.take_load, CMem.length_load,
        IoState.afterWrite]

/-- A round that moves bytes goes on with what was moved before. -/
theorem writeMoved_round (h : WriteMoved s₀ ubuf m s) (hround : e.writeRound ubuf s c m = (.ok n, s')) :
    WriteMoved s₀ ubuf (m + n) s' := by
  rcases writeRound_cases e ubuf s c m with ⟨_, hrun⟩ | ⟨_, ⟨err, _, hrun⟩ | ⟨k, _, hrun⟩⟩
  case inl =>
    rw [hrun] at hround
    cases hround
  case inr.inl =>
    rw [hrun] at hround
    cases hround
  case inr.inr =>
    rw [hrun] at hround
    obtain ⟨hn, rfl⟩ := Prod.mk.inj hround
    obtain rfl := Except.ok.inj hn
    have hwrite := writeAt_writeAt_append s₀.file (CMem.load s₀.user ubuf m)
      (CMem.load s₀.user (ubuf + m) (min k c)) s₀.pos
    rw [CMem.length_load, ← CMem.load_add] at hwrite
    refine ⟨?_, ?_, h.user, ?_⟩
    · show s.pos + (CMem.load s.user (ubuf + m) (min k c)).length = _
      rw [CMem.length_load, h.pos, Nat.add_assoc]
    · show s.copied + (CMem.load s.user (ubuf + m) (min k c)).length = _
      rw [CMem.length_load, h.copied, Nat.add_assoc]
    · show writeAt s.file s.pos (CMem.load s.user (ubuf + m) (min k c)) = _
      rw [h.file, h.pos, h.user, hwrite]

/-- A round that fails leaves nothing moved just when it is harmless. -/
theorem writeMoved_error_iff (h : WriteMoved s₀ ubuf m s) :
    (∀ err s', e.writeRound ubuf s c m = (.error err, s') → WriteMoved s₀ ubuf 0 s') ↔
      e.WriteHarmless c m s := by
  have hmoved : ∀ calls, WriteMoved s₀ ubuf 0 { s with calls := calls } ↔ m = 0 := by
    intro calls
    constructor
    case mp =>
      intro hzero
      have hpos : s.pos = s₀.pos + 0 := hzero.pos
      rw [h.pos] at hpos
      omega
    case mpr =>
      rintro rfl
      exact ⟨h.pos, h.copied, h.user, h.file⟩
  -- a round that fails has changed no more than the number of calls
  have hfails : ∀ calls err, e.writeRound ubuf s c m = (.error err, { s with calls := calls }) →
      ((∀ err s', e.writeRound ubuf s c m = (.error err, s') → WriteMoved s₀ ubuf 0 s') ↔ m = 0) := by
    intro calls err hrun
    rw [← hmoved calls, hrun]
    constructor
    case mp => exact fun hall => hall _ _ rfl
    case mpr =>
      rintro hm err' s' hround
      obtain ⟨_, rfl⟩ := Prod.mk.inj hround
      exact hm
  rcases writeRound_cases e ubuf s c m with ⟨hfault, hrun⟩ | ⟨hfault, ⟨err, hlower, hrun⟩ | ⟨k, hlower, hrun⟩⟩
  case inl =>
    rw [hfails s.calls _ hrun]
    constructor
    case mp => exact fun hm hm' => absurd hm hm'
    case mpr =>
      intro hharmless
      by_contra hm
      exact hfault (hharmless hm).1
  case inr.inl =>
    rw [hfails (s.calls + 1) _ hrun]
    constructor
    case mp => exact fun hm hm' => absurd hm hm'
    case mpr =>
      intro hharmless
      by_contra hm
      exact (hharmless hm).2 err hlower
  case inr.inr =>
    refine iff_of_true ?_ ?_
    · intro err s' hround
      rw [hrun] at hround
      cases hround
    · intro _
      refine ⟨hfault, ?_⟩
      intro err herr
      rw [hlower] at herr
      cases herr

/-- No round fails without short transfers and errors. -/
theorem writeRound_full (hround : e.writeRound ubuf s c m = (.error err, s')) : ¬ e.Full count := by
  intro hfull
  obtain ⟨k, hlower, _⟩ := hfull.lower s.calls
  rcases writeRound_cases e ubuf s c m with ⟨hfault, _⟩ | ⟨_, ⟨err, herr, _⟩ | ⟨k', _, hrun⟩⟩
  case inl =>
    rw [hfull.fault, Nat.zero_min] at hfault
    exact hfault rfl
  case inr.inl =>
    rw [hlower] at herr
    cases herr
  case inr.inr =>
    rw [hrun] at hround
    cases hround

/-- The plain write without short transfers and errors. -/
theorem doVfsubWriteU_full (hfull : e.Full count) (s : IoState) :
    e.doVfsubWriteU ubuf count s = (.ok count, s.afterWrite (CMem.load s.user ubuf count)) := by
  obtain ⟨k, hlower, hk⟩ := hfull.lower s.calls
  simp only [doVfsubWriteU, doVfsubWriteK, hlower, CMem.take_load, Nat.min_eq_right hk,
    CMem.length_load, IoState.afterWrite]

/-- Without short transfers and errors a round writes its whole chunk. -/
theorem writeRound_full_ok (hfull : e.Full count) (hround : e.writeRound ubuf s c m = (.ok n, s'))
    (hle : c ≤ count) : n = c := by
  obtain ⟨k, hlower, hk⟩ := hfull.lower s.calls
  rcases writeRound_cases e ubuf s c m with ⟨_, hrun⟩ | ⟨_, ⟨err, _, hrun⟩ | ⟨k', hk', hrun⟩⟩
  case inl =>
    rw [hrun] at hround
    cases hround
  case inr.inl =>
    rw [hrun] at hround
    cases hround
  case inr.inr =>
    obtain rfl := Except.ok.inj (hlower.symm.trans hk')
    rw [hrun] at hround
    obtain ⟨hok, _⟩ := Prod.mk.inj hround
    rw [← Except.ok.inj hok]
    omega

theorem writeRound_rounds (e : IoEnv) (ubuf : Int) (count : Nat) (s₀ : IoState) :
    Rounds e (e.writeRound ubuf) count s₀ (WriteMoved s₀ ubuf) (e.vfsubWriteU ubuf count false s₀)
      e.WriteHarmless := by
  have hplain : e.vfsubWriteU ubuf count false s₀ = some (e.doVfsubWriteU ubuf count s₀) := rfl
  refine ⟨writeMoved_zero s₀ ubuf, fun _ _ _ _ _ => writeMoved_round, fun _ _ _ => writeMoved_error_iff,
    fun _ _ _ _ _ => writeRound_full, ?_, ?_⟩
  · rintro rfl hfull
    rw [hplain, doVfsubWriteU_full hfull]
    exact ⟨_, rfl, rfl, (writeAt_nil s₀.file s₀.pos).symm, rfl, rfl⟩
  · intro s left c m n s' hmoved hfull hround hwhole hc hle hlast
    have hend := writeMoved_round hmoved hround
    have hn := writeRound_full_ok hfull hround (by omega)
    have hcount : m + n = count := by omega
    rw [hplain, doVfsubWriteU_full hfull, hcount]
    rw [hcount] at hend
    refine ⟨_, rfl, hend.pos.trans ?_, hend.file, hend.user, hend.copied.trans ?_⟩
    · show s₀.pos + count = s₀.pos + (CMem.load s₀.user ubuf count).length
      rw [CMem.length_load]
    · show s₀.copied + count = s₀.copied + (CMem.load s₀.user ubuf count).length
      rw [CMem.length_load]

-- ---------------------------------------------------------------------------
-- Both
-- ---------------------------------------------------------------------------

/-- Delegated reads and writes return what they have moved, and nothing was moved if they return an
error, and without short transfers and errors they are as the plain ones, just when every round that
they reach is harmless: a lower call fails in the first round only, a copy from the user as well, and
what is read is always copied to the user. -/
theorem vfsubIo_faithful_iff (e : IoEnv) (ubuf : Int) (count : Nat) (s₀ : IoState) :
    ((∃ r s, e.vfsubReadU ubuf count true s₀ = some (r, s) ∧
        Faithful e count (ReadMoved s₀ ubuf) (e.vfsubReadU ubuf count false s₀) r s) ↔
      ∀ c m s, e.RoundOf (e.readRound ubuf) count s₀ c m s → e.ReadHarmless c m s) ∧
    ((∃ r s, e.vfsubWriteU ubuf count true s₀ = some (r, s) ∧
        Faithful e count (WriteMoved s₀ ubuf) (e.vfsubWriteU ubuf count false s₀) r s) ↔
      ∀ c m s, e.RoundOf (e.writeRound ubuf) count s₀ c m s → e.WriteHarmless c m s) :=
  ⟨(readRound_rounds e ubuf count s₀).faithful_iff, (writeRound_rounds e ubuf count s₀).faithful_iff⟩

/-- A lower file that gives one byte, and fails then. -/
def failsLater : IoEnv where
  pageSize := 4096
  pageSize_pos := by decide
  kmalloc := true
  lower := fun k => if k = 0 then .ok 1 else .error Errno.EIO
  fault := fun _ => 0

/-- A file of two bytes. -/
def twoBytes : IoState := ⟨0, [65, 66], fun _ => 0, 0, 0⟩

/-- The error of the second round is returned, although the first one has moved a byte. -/
theorem failsLater_not_faithful :
    ¬ ∃ r s, failsLater.vfsubReadU 0 2 true twoBytes = some (r, s) ∧
      Faithful failsLater 2 (ReadMoved twoBytes 0) (failsLater.vfsubReadU 0 2 false twoBytes) r s := by
  rintro ⟨r, s, hrun, hfaithful⟩
  obtain ⟨rfl, rfl⟩ := Prod.mk.inj (Option.some.inj hrun)
  have hpos := (hfaithful.error _ rfl).pos
  exact absurd hpos (by decide)

end IoEnv

end Aufs
