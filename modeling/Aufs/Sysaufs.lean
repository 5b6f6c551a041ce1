-- SUMMARY: Reading an entry of sysaufs: the buffer that make grows, the slice that sysaufs_read returns, and reads beyond the end (sysaufs.c).
import Aufs.Basic
import Aufs.Lib.Pieces
import Mathlib.Algebra.Group.Nat.Even
import Mathlib.Algebra.Order.Group.Int

/-!
# Entries of sysaufs

The text of an entry is made when it is read first and kept in a buffer until somebody
drops it; the statistics are dropped after every read. `make` does not know the length in
advance: it doubles the buffer until the text fits. The size of the buffer is a number of
bytes as long as it is positive, and otherwise the negative of a page order.
-/

namespace Aufs

open Pieces

-- ---------------------------------------------------------------------------
-- The content functions
-- ---------------------------------------------------------------------------

/-- A call of the `seq_file` functions. -/
inductive SeqCall where
  /-- `seq_puts`, `seq_printf`, `seq_escape`, `seq_path` -/
  | puts (s : List UInt8)
  | putc (c : UInt8)

/-- What the call writes. -/
def SeqCall.text : SeqCall → List UInt8
  | .puts s => s
  | .putc c => [c]

/-- Does it fit behind `count` bytes? A text needs one byte more than it has. -/
def SeqCall.fits (size count : Nat) : SeqCall → Bool
  | .puts s => count + s.length < size
  | .putc _ => count < size

/-- A content function makes its calls until one fails. -/
def seqRun (size : Nat) : List UInt8 → List SeqCall → Option (List UInt8)
  | buf, [] => some buf
  | buf, c :: calls => if c.fits size buf.length then seqRun size (buf ++ c.text) calls else none

/-- The whole text. -/
def seqText (calls : List SeqCall) : List UInt8 := (calls.map SeqCall.text).flatten

-- ---------------------------------------------------------------------------
-- Buffers
-- ---------------------------------------------------------------------------

/-- How a buffer was allocated. -/
inductive BufKind where
  | kmalloc (size : Nat)
  | pages (order : Nat)
  deriving DecidableEq

/-- What the kernel answers: does the `n`-th allocation succeed, is the entry among the children of the parent
(`find_me`), and the calls that the `n`-th call of the content function makes. `sized` is false for the statistics,
which clear `do_size`. -/
structure SysaufsEnv where
  pageSize : Nat
  avail : Nat → BufKind → Bool
  seqMem : Nat → Bool
  found : Bool
  ops : Nat → List SeqCall
  sized : Bool

/-- `struct sysaufs_entry` with the buffers that were allocated and not freed. `bad` is set when a buffer is freed
that is none. `tick` counts the allocations, `calls` those of the content function; `iSize` is what `i_size_write`
has set. -/
structure Sysaufs where
  priv : Option (Nat × List UInt8)
  allocated : Int
  len : Nat
  live : List (Nat × BufKind)
  bad : Bool
  tick : Nat
  calls : Nat
  iSize : Nat

namespace Sysaufs

/-- Bytes or pages, by the sign of `allocated`. -/
def kind (s : Sysaufs) : BufKind :=
  if 0 < s.allocated then .kmalloc s.allocated.toNat else .pages (-s.allocated).toNat

/-- The `size` of the `seq_file`. -/
def seqSize (e : SysaufsEnv) (s : Sysaufs) : Nat :=
  if 0 < s.allocated then s.allocated.toNat else e.pageSize * 2 ^ (-s.allocated).toNat

/-- `free_entry` -/
def freeEntry (s : Sysaufs) : Sysaufs :=
  match s.priv with
  | none => { s with bad := true }
  | some (id, _) =>
    { s with
      priv := none
      len := 0
      live := s.live.erase (id, s.kind)
      bad := s.bad || !s.live.contains (id, s.kind) }

/-- `alloc_entry` -/
def allocEntry (e : SysaufsEnv) (s : Sysaufs) : Except Errno Unit × Sysaufs :=
  if e.avail s.tick s.kind then
    (.ok (), { s with priv := some (s.tick, []), live := (s.tick, s.kind) :: s.live, tick := s.tick + 1 })
  else (.error .ENOMEM, { s with tick := s.tick + 1 })

/-- The next size to try. -/
def grow (e : SysaufsEnv) (s : Sysaufs) : Sysaufs :=
  if 0 < s.allocated then
    { s with allocated := if (e.pageSize : Int) ≤ s.allocated * 2 then 0 else s.allocated * 2 }
  else { s with allocated := s.allocated - 1 }

/-- The loop of `make`. `doSize` is `*do_size`. Without fuel nothing is returned. -/
def makeLoop (e : SysaufsEnv) : Nat → Bool → Sysaufs → Option (Except Errno Unit × Bool × Sysaufs)
  | 0, _, _ => none
  | fuel + 1, doSize, s =>
    match s.allocEntry e with
    | (.error err, s) => some (.error err, doSize, s)
    | (.ok (), s) =>
      let doSize := doSize && e.sized
      match seqRun (s.seqSize e) [] (e.ops s.calls) with
      | some text =>
        some (.ok (), doSize,
          { s with priv := s.priv.map fun p => (p.1, text), len := text.length, calls := s.calls + 1 })
      | none => makeLoop e fuel doSize (grow e { s with calls := s.calls + 1 }.freeEntry)

/-- `make` -/
def make (e : SysaufsEnv) (fuel : Nat) (s : Sysaufs) : Option (Except Errno Unit × Bool × Sysaufs) :=
  if e.seqMem s.tick then makeLoop e fuel true { s with len := 0, tick := s.tick + 1 }
  else some (.error .ENOMEM, true, { s with tick := s.tick + 1 })

/-- `sysaufs_read` up to the text: it is made unless it is there. -/
def fill (e : SysaufsEnv) (fuel : Nat) (s : Sysaufs) : Option (Except Errno Unit × Bool × Sysaufs) :=
  if s.priv.isSome then some (.ok (), true, s)
  else
    match s.make e fuel with
    | none => none
    | some (err, doSize, s) =>
      some (err, doSize, if doSize && e.found then { s with iSize := s.len } else s)

/-- `sysaufs_read`: the return value, which is an error of `make` or a number, and the bytes that were copied. -/
def sysaufsRead (e : SysaufsEnv) (fuel : Nat) (offset sz : Nat) (s : Sysaufs) :
    Option (Except Errno Int × List UInt8 × Sysaufs) :=
  if sz = 0 then some (.ok 0, [], s)
  else
    match s.fill e fuel with
    | none => none
    | some (.error err, _, s) => some (.error err, [], s)
    | some (.ok (), doSize, s) =>
      let len : Int := s.len - offset
      let err := if 0 < len ∧ (sz : Int) < len then (sz : Int) else len
      let copied := if 0 < len then slice ((s.priv.map Prod.snd).getD []) offset err.toNat else []
      some (.ok err, copied, if doSize then s else s.freeEntry)

/-- `sysaufs_free_write` -/
def sysaufsFreeWrite (e : SysaufsEnv) (s : Sysaufs) : Sysaufs :=
  if s.priv.isSome then
    let allocated : Int := (s.seqSize e / 2 : Nat)
    let len := s.len
    let s := s.freeEntry
    let s :=
      if (len : Int) ≤ allocated then
        if 0 ≤ s.allocated then { s with allocated } else { s with allocated := s.allocated + 1 }
      else s
    if e.found then { s with iSize := 0 } else s
  else s

/-- `free_entries` of this entry. -/
def freeEntries (s : Sysaufs) : Sysaufs := if s.priv.isSome then s.freeEntry else s

/-- Reads one behind the other: each starts where the one before has ended, and an error is the end. -/
def readSeq (e : SysaufsEnv) (fuel : Nat) : List Nat → Nat → Sysaufs →
    Option (Except Errno (List (Int × List UInt8)) × Sysaufs)
  | [], _, s => some (.ok [], s)
  | sz :: szs, offset, s =>
    match s.sysaufsRead e fuel offset sz with
    | none => none
    | some (.error err, _, s) => some (.error err, s)
    | some (.ok r, copied, s) =>
      match readSeq e fuel szs (offset + r.toNat) s with
      | none => none
      | some (.error err, s) => some (.error err, s)
      | some (.ok rs, s) => some (.ok ((r, copied) :: rs), s)

end Sysaufs

-- ---------------------------------------------------------------------------
-- The text
-- ---------------------------------------------------------------------------

/-- A content function that succeeds has written its whole text. -/
theorem seqRun_some {size : Nat} {calls : List SeqCall} {buf text : List UInt8}
    (h : seqRun size buf calls = some text) : text = buf ++ seqText calls := by
  induction calls generalizing buf with
  | nil =>
    cases h
    exact (List.append_nil _).symm
  | cons c calls ih =>
    rw [seqRun] at h
    split at h
    · rw [ih h, List.append_assoc]
      rfl
    · cases h

/-- A buffer that is longer than the text is enough. -/
theorem seqRun_of_lt {size : Nat} {calls : List SeqCall} {buf : List UInt8}
    (h : buf.length + (seqText calls).length < size) : seqRun size buf calls = some (buf ++ seqText calls) := by
  induction calls generalizing buf with
  | nil => rw [seqRun, seqText, List.map_nil, List.flatten_nil, List.append_nil]
  | cons c calls ih =>
    have htext : seqText (c :: calls) = c.text ++ seqText calls := rfl
    rw [htext, List.length_append] at h
    have hfits : c.fits size buf.length = true := by
      cases c with
      | puts s =>
        have h : buf.length + (s.length + (seqText calls).length) < size := h
        exact decide_eq_true (by omega)
      | putc b => exact decide_eq_true (by omega)
    rw [seqRun, if_pos hfits, ih (by rw [List.length_append]; omega), List.append_assoc, htext]

namespace Sysaufs

-- ---------------------------------------------------------------------------
-- Buffers that are freed once
-- ---------------------------------------------------------------------------

/-- The buffers that are allocated: that of the entry, of the kind that `allocated` says. -/
def held (s : Sysaufs) : List (Nat × BufKind) := (s.priv.map fun p => (p.1, s.kind)).toList

/-- No buffer is lost or freed wrongly, and `len` is the length of the text. -/
structure Wf (s : Sysaufs) : Prop where
  bad : s.bad = false
  live : s.live = s.held
  len : ∀ id text, s.priv = some (id, text) → s.len = text.length

variable {e : SysaufsEnv} {s s' : Sysaufs}

theorem Wf.live_none (h : s.Wf) (hpriv : s.priv = none) : s.live = [] := by
  rw [h.live, held, hpriv]
  rfl

/-- Without a buffer there is nothing else to say. -/
theorem Wf.of_none (hbad : s.bad = false) (hlive : s.live = []) (hpriv : s.priv = none) : s.Wf := by
  refine ⟨hbad, ?_, fun id text hid => ?_⟩
  · rw [hlive, held, hpriv]
    rfl
  · cases hpriv.symm.trans hid

theorem freeEntry_priv (hpriv : s.priv.isSome) : s.freeEntry.priv = none := by
  obtain ⟨p, hp⟩ := Option.isSome_iff_exists.mp hpriv
  rw [freeEntry, hp]

theorem Wf.freeEntry (h : s.Wf) (hpriv : s.priv.isSome) : s.freeEntry.Wf := by
  obtain ⟨⟨id, text⟩, hp⟩ := Option.isSome_iff_exists.mp hpriv
  have hlive : s.live = [(id, s.kind)] := by
    rw [h.live, held, hp]
    rfl
  have herase : s.live.erase (id, s.kind) = [] := by
    rw [hlive]
    exact List.erase_cons_head (id, s.kind) []
  have hcontains : s.live.contains (id, s.kind) = true := by
    rw [hlive]
    exact List.contains_iff_mem.mpr List.mem_cons_self
  rw [Sysaufs.freeEntry, hp]
  dsimp only
  rw [herase, hcontains, h.bad]
  exact Wf.of_none rfl rfl rfl

/-- An allocation that succeeds gives the entry a buffer. -/
theorem allocEntry_ok (h : s.Wf) (hpriv : s.priv = none) (hrun : s.allocEntry e = (.ok (), s')) :
    s'.allocated = s.allocated ∧ s'.bad = false ∧ s'.priv = some (s.tick, []) ∧ s'.live = [(s.tick, s.kind)] := by
  unfold allocEntry at hrun
  split at hrun
  · cases hrun
    refine ⟨rfl, h.bad, rfl, ?_⟩
    dsimp only
    rw [h.live_none hpriv]
  · cases hrun

theorem allocEntry_error (h : s.Wf) (hpriv : s.priv = none) {err : Errno} (hrun : s.allocEntry e = (.error err, s')) :
    s'.Wf ∧ s'.priv = none := by
  unfold allocEntry at hrun
  split at hrun
  · cases hrun
  · cases hrun
    exact ⟨Wf.of_none h.bad (h.live_none hpriv) hpriv, hpriv⟩

/-- A buffer just allocated, with a text in it. -/
theorem Wf.of_text (hbad : s.bad = false) {id : Nat} {text : List UInt8} (hpriv : s.priv = some (id, text))
    (hlive : s.live = [(id, s.kind)]) (hlen : s.len = text.length) : s.Wf := by
  refine ⟨hbad, ?_, fun id' text' hid => ?_⟩
  · rw [hlive, held, hpriv]
    rfl
  · cases hpriv.symm.trans hid
    exact hlen

theorem grow_wf (e : SysaufsEnv) (h : s.Wf) (hpriv : s.priv = none) : (grow e s).Wf ∧ (grow e s).priv = none := by
  unfold grow
  split
  · exact ⟨Wf.of_none h.bad (h.live_none hpriv) hpriv, hpriv⟩
  · exact ⟨Wf.of_none h.bad (h.live_none hpriv) hpriv, hpriv⟩

/-- A buffer that was too small is freed before the next size is tried. -/
theorem retry_wf (h : s.Wf) (hpriv : s.priv = none) (hrun : s.allocEntry e = (.ok (), s')) (calls : Nat) :
    { s' with calls }.freeEntry.Wf ∧ { s' with calls }.freeEntry.priv = none := by
  obtain ⟨hallocated, hbad, hsome, hlive⟩ := allocEntry_ok h hpriv hrun
  have hkind : s'.kind = s.kind := by
    rw [kind, kind, hallocated]
  have hwf : Wf { s' with calls, len := 0 } := Wf.of_text hbad hsome (hlive.trans (by rw [← hkind]; rfl)) rfl
  have hfree : { s' with calls, len := 0 }.freeEntry = { s' with calls }.freeEntry := by
    unfold freeEntry
    rw [hsome]
    rfl
  have hisSome : ({ s' with calls, len := 0 } : Sysaufs).priv.isSome := by
    rw [hsome]
    rfl
  rw [← hfree]
  exact ⟨hwf.freeEntry hisSome, freeEntry_priv hisSome⟩

/-- How `make` ends: the whole text of one call of the content function, or no buffer. -/
structure Made (e : SysaufsEnv) (r : Except Errno Unit) (s : Sysaufs) : Prop where
  wf : s.Wf
  ok : r = .ok () → ∃ id k, s.priv = some (id, seqText (e.ops k))
  error : ∀ err, r = .error err → s.priv = none ∧ s.live = []

theorem makeLoop_made {fuel : Nat} {doSize doSize' : Bool} {r : Except Errno Unit} (h : s.Wf)
    (hpriv : s.priv = none) (hrun : makeLoop e fuel doSize s = some (r, doSize', s')) : Made e r s' := by
  induction fuel generalizing s doSize with
  | zero => cases hrun
  | succ fuel ih =>
    rw [makeLoop] at hrun
    rcases halloc : s.allocEntry e with ⟨err | _, s₁⟩
    · rw [halloc] at hrun
      cases hrun
      obtain ⟨hwf, hnone⟩ := allocEntry_error h hpriv halloc
      exact ⟨hwf, fun hok => (by cases hok), fun _ _ => ⟨hnone, hwf.live_none hnone⟩⟩
    · rw [halloc] at hrun
      dsimp only at hrun
      cases hseq : seqRun (s₁.seqSize e) [] (e.ops s₁.calls) with
      | some text =>
        rw [hseq] at hrun
        cases hrun
        obtain ⟨hallocated, hbad, hsome, hlive⟩ := allocEntry_ok h hpriv halloc
        have htext : text = seqText (e.ops s₁.calls) := seqRun_some hseq
        have hkind : s₁.kind = s.kind := by
          rw [kind, kind, hallocated]
        have hmap : (s₁.priv.map fun p => (p.1, text)) = some (s.tick, text) := by
          rw [hsome]
          rfl
        rw [hmap]
        refine ⟨Wf.of_text hbad rfl (hlive.trans (by rw [← hkind]; rfl)) rfl, fun _ => ⟨s.tick, s₁.calls, ?_⟩,
          fun _ herr => (by cases herr)⟩
        rw [htext]
      | none =>
        rw [hseq] at hrun
        obtain ⟨hwf, hnone⟩ := retry_wf h hpriv halloc (s₁.calls + 1)
        obtain ⟨hwf, hnone⟩ := grow_wf e hwf hnone
        exact ih hwf hnone hrun

/-- Attempts that are enough: sizes in bytes are doubled up to a page, then orders are counted up to one that the
kernel never has. -/
def attempts (e : SysaufsEnv) (maxOrder : Nat) (s : Sysaufs) : Nat :=
  if 0 < s.allocated then (e.pageSize - s.allocated).toNat + maxOrder + 2 else maxOrder - (-s.allocated).toNat + 1

theorem attempts_pos (e : SysaufsEnv) (maxOrder : Nat) (s : Sysaufs) : 0 < attempts e maxOrder s := by
  unfold attempts
  split
  · exact Nat.succ_pos _
  · exact Nat.succ_pos _

/-- Each size that could be allocated leaves fewer attempts. -/
theorem attempts_grow {maxOrder : Nat} (hPages : ∀ n order, maxOrder ≤ order → e.avail n (.pages order) = false)
    (hrun : s.allocEntry e = (.ok (), s')) (calls : Nat) :
    attempts e maxOrder (grow e { s' with calls }.freeEntry) < attempts e maxOrder s := by
  have havail : e.avail s.tick s.kind = true := by
    unfold allocEntry at hrun
    split at hrun
    · assumption
    · cases hrun
  have hallocated : { s' with calls }.freeEntry.allocated = s.allocated := by
    unfold allocEntry at hrun
    rw [if_pos havail] at hrun
    cases hrun
    rfl
  generalize { s' with calls }.freeEntry = s₁ at hallocated
  unfold grow
  rw [hallocated]
  rcases Int.lt_or_le 0 s.allocated with hpos | hneg
  · rw [if_pos hpos]
    unfold attempts
    rw [if_pos hpos]
    rcases Int.lt_or_le (s.allocated * 2) e.pageSize with hpage | hpage
    · rw [if_neg (Int.not_le.mpr hpage), if_pos (by dsimp only; omega)]
      dsimp only
      omega
    · rw [if_pos hpage, if_neg (lt_irrefl _)]
      dsimp only
      omega
  · have horder : (-s.allocated).toNat < maxOrder := by
      refine Nat.lt_of_not_le fun hle => ?_
      have hkind : s.kind = .pages (-s.allocated).toNat := if_neg (Int.not_lt.mpr hneg)
      rw [hkind, hPages _ _ hle] at havail
      cases havail
    rw [if_neg (Int.not_lt.mpr hneg)]
    unfold attempts
    rw [if_neg (Int.not_lt.mpr hneg), if_neg (by dsimp only; omega)]
    dsimp only
    omega

theorem makeLoop_ends {maxOrder : Nat} (hPages : ∀ n order, maxOrder ≤ order → e.avail n (.pages order) = false)
    {fuel : Nat} (doSize : Bool) (hfuel : attempts e maxOrder s ≤ fuel) : (makeLoop e fuel doSize s).isSome := by
  induction fuel generalizing s doSize with
  | zero => exact absurd (attempts_pos e maxOrder s) (Nat.not_lt.mpr hfuel)
  | succ fuel ih =>
    rw [makeLoop]
    rcases halloc : s.allocEntry e with ⟨err | _, s₁⟩
    · rfl
    · dsimp only
      cases hseq : seqRun (s₁.seqSize e) [] (e.ops s₁.calls) with
      | some text => rfl
      | none => exact ih _ (Nat.le_of_lt_succ ((attempts_grow hPages halloc _).trans_le hfuel))

-- ---------------------------------------------------------------------------
-- Reads
-- ---------------------------------------------------------------------------

/-- A text that a read of the entry can show: the one in the buffer, or one that the content function writes. -/
def Shows (e : SysaufsEnv) (s : Sysaufs) (text : List UInt8) : Prop :=
  (∃ id, s.priv = some (id, text)) ∨ s.priv = none ∧ ∃ k, text = seqText (e.ops k)

/-- The content stays the same. -/
def Constant (e : SysaufsEnv) (s : Sysaufs) (text : List UInt8) : Prop :=
  (∀ k, seqText (e.ops k) = text) ∧ ∀ id t, s.priv = some (id, t) → t = text

theorem Constant.eq {text t : List UInt8} (h : Constant e s text) (ht : Shows e s t) : t = text := by
  rcases ht with ⟨id, hid⟩ | ⟨-, k, hk⟩
  · exact h.2 id t hid
  · exact hk.trans (h.1 k)

theorem exists_shows (e : SysaufsEnv) (s : Sysaufs) : ∃ text, Shows e s text := by
  cases hpriv : s.priv with
  | none => exact ⟨_, .inr ⟨hpriv, 0, rfl⟩⟩
  | some p => exact ⟨p.2, .inl ⟨p.1, hpriv⟩⟩

theorem make_made {fuel : Nat} {doSize : Bool} {r : Except Errno Unit} (h : s.Wf) (hpriv : s.priv = none)
    (hrun : s.make e fuel = some (r, doSize, s')) : Made e r s' := by
  unfold make at hrun
  split at hrun
  · refine makeLoop_made ?_ ?_ hrun
    · exact Wf.of_none h.bad (h.live_none hpriv) hpriv
    · exact hpriv
  · cases hrun
    have hwf : Wf { s with tick := s.tick + 1 } := Wf.of_none h.bad (h.live_none hpriv) hpriv
    exact ⟨hwf, fun hok => (by cases hok), fun _ _ => ⟨hpriv, hwf.live_none hpriv⟩⟩

/-- After `fill` the buffer holds a text that a read can show, or there is none. -/
theorem fill_spec {fuel : Nat} {doSize : Bool} {r : Except Errno Unit} (h : s.Wf)
    (hrun : s.fill e fuel = some (r, doSize, s')) :
    s'.Wf ∧ (r = .ok () → ∃ id text, s'.priv = some (id, text) ∧ Shows e s text) ∧
      ∀ err, r = .error err → s'.priv = none := by
  unfold fill at hrun
  split at hrun
  next hsome =>
    cases hrun
    obtain ⟨⟨id, text⟩, hp⟩ := Option.isSome_iff_exists.mp hsome
    exact ⟨h, fun _ => ⟨id, text, hp, .inl ⟨id, hp⟩⟩, fun _ herr => (by cases herr)⟩
  next hsome =>
    have hpriv : s.priv = none := Option.not_isSome_iff_eq_none.mp hsome
    rcases hmake : s.make e fuel with _ | ⟨r', doSize', s₁⟩
    · rw [hmake] at hrun
      cases hrun
    · rw [hmake] at hrun
      obtain ⟨hwf, hok, herror⟩ := make_made h hpriv hmake
      cases hrun
      have hsize : ∀ b : Bool, Wf (if b then { s₁ with iSize := s₁.len } else s₁) ∧
          (if b then { s₁ with iSize := s₁.len } else s₁).priv = s₁.priv := by
        intro b
        cases b with
        | false => exact ⟨hwf, rfl⟩
        | true => exact ⟨⟨hwf.bad, hwf.live, hwf.len⟩, rfl⟩
      obtain ⟨hwf', hsame⟩ := hsize (doSize && e.found)
      refine ⟨hwf', fun hr => ?_, fun err hr => hsame.trans (herror err hr).1⟩
      obtain ⟨id, k, hid⟩ := hok hr
      exact ⟨id, _, hsame.trans hid, .inr ⟨hpriv, k, rfl⟩⟩

/-- What a read returns, in terms of the text in the buffer. -/
theorem sysaufsRead_ok {fuel offset sz : Nat} {r : Int} {copied : List UInt8} (h : s.Wf) (hsz : sz ≠ 0)
    (hrun : s.sysaufsRead e fuel offset sz = some (.ok r, copied, s')) :
    ∃ text, Shows e s text ∧ s'.Wf ∧ (∀ id t, s'.priv = some (id, t) → t = text) ∧
      r = (if 0 < (text.length : Int) - offset ∧ (sz : Int) < text.length - offset then (sz : Int)
        else text.length - offset) ∧
      copied = if 0 < (text.length : Int) - offset then slice text offset r.toNat else [] := by
  unfold sysaufsRead at hrun
  rw [if_neg hsz] at hrun
  rcases hfill : s.fill e fuel with _ | ⟨err | _, doSize, s₁⟩
  · rw [hfill] at hrun
    cases hrun
  · rw [hfill] at hrun
    cases hrun
  · rw [hfill] at hrun
    obtain ⟨hwf, hok, -⟩ := fill_spec h hfill
    obtain ⟨id, text, hid, hshows⟩ := hok rfl
    have hlen : s₁.len = text.length := hwf.len id text hid
    have hsome : s₁.priv.isSome := by
      rw [hid]
      rfl
    dsimp only at hrun
    rw [hlen, hid] at hrun
    refine ⟨text, hshows, ?_⟩
    cases doSize with
    | true =>
      cases hrun
      refine ⟨hwf, fun id' t ht => ?_, rfl, rfl⟩
      cases hid.symm.trans ht
      rfl
    | false =>
      cases hrun
      refine ⟨hwf.freeEntry hsome, fun id' t ht => ?_, rfl, rfl⟩
      cases (freeEntry_priv hsome).symm.trans ht

/-- What a read of `sz` bytes at `offset` is to return and to copy. -/
def Sliced (text : List UInt8) (offset sz : Nat) (r : Int) (copied : List UInt8) : Prop :=
  r = min (sz : Int) (max 0 (text.length - offset)) ∧ copied = slice text offset sz

theorem Sliced.eq {text copied : List UInt8} {offset sz : Nat} {r : Int} (h : Sliced text offset sz r copied) :
    r = copied.length ∧ copied = slice text offset sz := by
  refine ⟨?_, h.2⟩
  rw [h.1, h.2, length_slice]
  omega

/-- A read of nothing. -/
theorem sysaufsRead_zero {fuel offset : Nat} {r : Int} {copied : List UInt8}
    (hrun : s.sysaufsRead e fuel offset 0 = some (.ok r, copied, s')) : r = 0 ∧ copied = [] ∧ s' = s := by
  unfold sysaufsRead at hrun
  rw [if_pos rfl] at hrun
  cases hrun
  exact ⟨rfl, rfl, rfl⟩

/-- A read at or before the end copies a slice. Behind it a negative number is returned. -/
theorem sliced_iff {text copied : List UInt8} {offset sz : Nat} {r : Int}
    (hr : r = if 0 < (text.length : Int) - offset ∧ (sz : Int) < text.length - offset then (sz : Int)
      else text.length - offset)
    (hcopied : copied = if 0 < (text.length : Int) - offset then slice text offset r.toNat else []) :
    Sliced text offset sz r copied ↔ offset ≤ text.length := by
  constructor
  · intro h
    have hmin := h.1
    split at hr
    next hpos => omega
    next hpos => omega
  · intro hle
    have hmin : r = min (sz : Int) (max 0 (text.length - offset)) := by
      split at hr
      next hpos => omega
      next hpos => omega
    refine ⟨hmin, ?_⟩
    rcases Int.lt_or_le 0 ((text.length : Int) - offset) with hpos | hend
    · rw [hcopied, if_pos hpos]
      have hnat : r.toNat = min sz (text.length - offset) := by omega
      rw [hnat, slice, slice, ← List.length_drop]
      exact List.take_eq_take_min.symm
    · rw [hcopied, if_neg (Int.not_lt.mpr hend), slice_of_le (by omega)]

/-- A read of an entry whose content stays the same. -/
theorem sysaufsRead_constant {text copied : List UInt8} {fuel offset sz : Nat} {r : Int} (h : s.Wf)
    (hconst : Constant e s text) (hrun : s.sysaufsRead e fuel offset sz = some (.ok r, copied, s')) :
    s'.Wf ∧ Constant e s' text ∧ (offset ≤ text.length → Sliced text offset sz r copied) := by
  rcases Nat.eq_zero_or_pos sz with hsz | hsz
  · rw [hsz] at hrun
    obtain ⟨hr, hcopied, hs'⟩ := sysaufsRead_zero hrun
    rw [hs']
    refine ⟨h, hconst, fun _ => ⟨?_, ?_⟩⟩
    · rw [hr, hsz]
      omega
    · rw [hcopied, hsz]
      rfl
  · obtain ⟨t, hshows, hwf, hpriv, hr, hcopied⟩ := sysaufsRead_ok h hsz.ne' hrun
    have ht : t = text := hconst.eq hshows
    rw [ht] at hpriv hr hcopied
    exact ⟨hwf, ⟨hconst.1, hpriv⟩, (sliced_iff hr hcopied).mpr⟩

/-- Reads one behind the other deliver the pieces of the text. -/
theorem readSeq_pieces {text : List UInt8} {fuel : Nat} {szs : List Nat} {offset : Nat} {rs : List (Int × List UInt8)}
    (h : s.Wf) (hconst : Constant e s text) (hoffset : offset ≤ text.length)
    (hrun : s.readSeq e fuel szs offset = some (.ok rs, s')) :
    rs = (pieces text offset szs).map fun p => ((p.length : Int), p) := by
  induction szs generalizing s offset rs with
  | nil =>
    cases hrun
    rfl
  | cons sz szs ih =>
    rw [readSeq] at hrun
    rcases hread : s.sysaufsRead e fuel offset sz with _ | ⟨err | r, copied, s₁⟩
    · rw [hread] at hrun
      cases hrun
    · rw [hread] at hrun
      cases hrun
    · rw [hread] at hrun
      dsimp only at hrun
      obtain ⟨hwf, hconst', hsliced⟩ := sysaufsRead_constant h hconst hread
      obtain ⟨hr, hcopied⟩ := (hsliced hoffset).eq
      have hend : offset + r.toNat = offset + (slice text offset sz).length := by
        rw [hr, hcopied, Int.toNat_natCast]
      rw [hend] at hrun
      rcases hrest : s₁.readSeq e fuel szs (offset + (slice text offset sz).length) with _ | ⟨err | rest, s₂⟩
      · rw [hrest] at hrun
        cases hrun
      · rw [hrest] at hrun
        cases hrun
      · rw [hrest] at hrun
        cases hrun
        rw [ih hwf hconst' (slice_end_le hoffset sz) hrest, pieces, List.map_cons, hr, hcopied]

-- ---------------------------------------------------------------------------
-- Runs
-- ---------------------------------------------------------------------------

/-- The states of an entry: a read, a write and `free_entries` in any order, from an entry that is registered. -/
inductive Reached (e : SysaufsEnv) : Sysaufs → Prop where
  | set (initSize : Nat) :
    Reached e
      { priv := none, allocated := initSize, len := 0, live := [], bad := false, tick := 0, calls := 0, iSize := 0 }
  | read {s s' : Sysaufs} {fuel offset sz : Nat} {r : Except Errno Int} {copied : List UInt8} :
    Reached e s → s.sysaufsRead e fuel offset sz = some (r, copied, s') → Reached e s'
  | write {s : Sysaufs} : Reached e s → Reached e (s.sysaufsFreeWrite e)
  | free {s : Sysaufs} : Reached e s → Reached e s.freeEntries

theorem Wf.sysaufsRead {fuel offset sz : Nat} {r : Except Errno Int} {copied : List UInt8} (h : s.Wf)
    (hrun : s.sysaufsRead e fuel offset sz = some (r, copied, s')) : s'.Wf := by
  rcases Nat.eq_zero_or_pos sz with hsz | hsz
  · unfold Sysaufs.sysaufsRead at hrun
    rw [if_pos hsz] at hrun
    cases hrun
    exact h
  · cases r with
    | ok r =>
      obtain ⟨-, -, hwf, -⟩ := sysaufsRead_ok h hsz.ne' hrun
      exact hwf
    | error err =>
      unfold Sysaufs.sysaufsRead at hrun
      rw [if_neg hsz.ne'] at hrun
      rcases hfill : s.fill e fuel with _ | ⟨err' | _, doSize, s₁⟩
      · rw [hfill] at hrun
        cases hrun
      · rw [hfill] at hrun
        cases hrun
        exact (fill_spec h hfill).1
      · rw [hfill] at hrun
        cases hrun

theorem Wf.sysaufsFreeWrite (e : SysaufsEnv) (h : s.Wf) : (s.sysaufsFreeWrite e).Wf := by
  unfold Sysaufs.sysaufsFreeWrite
  split
  next hsome =>
    have hfree := h.freeEntry hsome
    have hnone := freeEntry_priv hsome
    have hlive := hfree.live_none hnone
    dsimp only
    split
    · split
      · split
        · exact Wf.of_none hfree.bad hlive hnone
        · exact Wf.of_none hfree.bad hlive hnone
      · exact Wf.of_none hfree.bad hlive hnone
    · split
      · split
        · exact Wf.of_none hfree.bad hlive hnone
        · exact Wf.of_none hfree.bad hlive hnone
      · exact hfree
  next => exact h

theorem Reached.wf (h : Reached e s) : s.Wf := by
  induction h with
  | set initSize => exact Wf.of_none rfl rfl rfl
  | read _ hrun ih => exact ih.sysaufsRead hrun
  | write _ ih => exact ih.sysaufsFreeWrite e
  | free _ ih =>
    unfold Sysaufs.freeEntries
    split
    next hsome => exact ih.freeEntry hsome
    next => exact ih

-- ---------------------------------------------------------------------------
-- Reads are slices up to the end
-- ---------------------------------------------------------------------------

/-- A read returns its slice of a text that the entry can show exactly when it does not start behind the end. Reads of
an entry that stays the same, one behind the other, deliver the text once and then nothing. `make` ends with the whole
text in the one buffer, or with an error and none. -/
theorem sysaufsRead_sliced_iff (e : SysaufsEnv) (s : Sysaufs) (h : Reached e s) {maxOrder : Nat}
    (hPages : ∀ n order, maxOrder ≤ order → e.avail n (.pages order) = false) :
    (∀ fuel offset sz r copied s', s.sysaufsRead e fuel offset sz = some (.ok r, copied, s') →
      ∃ text, Shows e s text ∧ (Sliced text offset sz r copied ↔ sz = 0 ∨ offset ≤ text.length)) ∧
    (∀ text fuel szs rs s', Constant e s text → s.readSeq e fuel szs 0 = some (.ok rs, s') →
      (rs.map Prod.snd).flatten = text.take szs.sum ∧ (∀ p ∈ rs, p.1 = p.2.length) ∧
      ∀ front sz, szs = front ++ [sz] → text.length ≤ front.sum → rs.getLast? = some (0, [])) ∧
    (s.priv = none → ∃ enough, ∀ fuel, enough ≤ fuel →
      ∃ r doSize s', s.make e fuel = some (r, doSize, s') ∧
        (r = .ok () ∧ (∃ id k, s'.priv = some (id, seqText (e.ops k)) ∧ s'.live = [(id, s'.kind)]) ∨
        (∃ err, r = .error err) ∧ s'.priv = none ∧ s'.live = [])) := by
  refine ⟨fun fuel offset sz r copied s' hrun => ?_, fun text fuel szs rs s' hconst hrun => ?_, fun hpriv => ?_⟩
  · rcases Nat.eq_zero_or_pos sz with hsz | hsz
    · rw [hsz] at hrun
      obtain ⟨hr, hcopied, -⟩ := sysaufsRead_zero hrun
      obtain ⟨text, hshows⟩ := exists_shows e s
      refine ⟨text, hshows, iff_of_true ⟨?_, ?_⟩ (.inl hsz)⟩
      · rw [hr, hsz]
        omega
      · rw [hcopied, hsz]
        rfl
    · obtain ⟨text, hshows, -, -, hr, hcopied⟩ := sysaufsRead_ok h.wf hsz.ne' hrun
      refine ⟨text, hshows, (sliced_iff hr hcopied).trans ⟨.inr, fun hor => ?_⟩⟩
      exact hor.resolve_left hsz.ne'
  · have hrs := readSeq_pieces h.wf hconst (Nat.zero_le _) hrun
    refine ⟨?_, fun p hp => ?_, fun front sz hszs hfront => ?_⟩
    · rw [hrs, List.map_map]
      have hid : (Prod.snd ∘ fun p : List UInt8 => ((p.length : Int), p)) = id := rfl
      rw [hid, List.map_id, flatten_pieces]
      rfl
    · rw [hrs] at hp
      obtain ⟨q, -, rfl⟩ := List.mem_map.mp hp
      rfl
    · rw [hrs, hszs, pieces_append, List.map_append, endPos_eq, slice_of_le]
      · exact List.getLast?_concat
      · rw [length_slice]
        omega
  · refine ⟨attempts e maxOrder s, fun fuel hfuel => ?_⟩
    have hends : (s.make e fuel).isSome := by
      unfold make
      split
      · exact makeLoop_ends hPages true hfuel
      · rfl
    obtain ⟨⟨r, doSize, s'⟩, hmake⟩ := Option.isSome_iff_exists.mp hends
    obtain ⟨hwf, hok, herror⟩ := make_made h.wf hpriv hmake
    refine ⟨r, doSize, s', hmake, ?_⟩
    cases r with
    | ok u =>
      obtain ⟨id, k, hid⟩ := hok rfl
      refine .inl ⟨rfl, id, k, hid, ?_⟩
      rw [hwf.live, held, hid]
      rfl
    | error err => exact .inr ⟨⟨err, rfl⟩, herror err rfl⟩

/-- An entry of statistics: "wkq 0\n". -/
def statEnv : SysaufsEnv where
  pageSize := 4096
  avail _ kind :=
    match kind with
    | .kmalloc _ => true
    | .pages order => order < 11
  seqMem _ := true
  found := true
  ops _ := [.puts [119, 107, 113], .puts [32, 48], .putc 10]
  sized := false

/-- The entry as it is registered, with `size` bytes to begin with. -/
def registered (size : Nat) : Sysaufs :=
  { priv := none, allocated := size, len := 0, live := [], bad := false, tick := 0, calls := 0, iSize := 0 }

/-- The statistics are read in pieces of four bytes, from a buffer of four bytes at first. -/
theorem sysaufsRead_sliced_stat :
    ((registered 4).readSeq statEnv 9 [4, 4, 4] 0).map Prod.fst =
        some (.ok [(4, [119, 107, 113, 32]), (2, [48, 10]), (0, [])]) ∧
      (∀ rs s', (registered 4).readSeq statEnv 9 [4, 4, 4] 0 = some (.ok rs, s') →
        (rs.map Prod.snd).flatten = [119, 107, 113, 32, 48, 10]) := by
  have hPages : ∀ n order, 11 ≤ order → statEnv.avail n (.pages order) = false := by
    intro n order horder
    exact decide_eq_false (Nat.not_lt.mpr horder)
  refine ⟨by rfl, fun rs s' hrun => ?_⟩
  have hconst : Constant statEnv (registered 4) [119, 107, 113, 32, 48, 10] :=
    ⟨fun _ => rfl, fun _ _ hnone => (by cases hnone)⟩
  exact ((sysaufsRead_sliced_iff statEnv (registered 4) (.set 4) hPages).2.1 _ 9 _ rs s' hconst hrun).1

/-- The statistics have six bytes. A read at the tenth returns minus four. -/
theorem not_sliced_behind :
    ∃ r copied s', (registered 32).sysaufsRead statEnv 9 10 4 = some (.ok r, copied, s') ∧
      Constant statEnv (registered 32) [119, 107, 113, 32, 48, 10] ∧ r = -4 ∧
      ¬ Sliced [119, 107, 113, 32, 48, 10] 10 4 r copied := by
  refine ⟨-4, [], _, by rfl, ⟨fun _ => rfl, fun _ _ hnone => (by cases hnone)⟩, rfl, fun h => ?_⟩
  exact absurd h.1 (by decide)

end Sysaufs

end Aufs
