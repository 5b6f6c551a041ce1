-- SUMMARY: Which failures au_copy_file reports, what cpup_entry leaves then, and when the copy ends (misc.c, cpup.c).
import Aufs.CopyFile

/-!
# Failures and the end of a copy

The main loop of `au_copy_file` takes an error of a read or seek out, and forgets one of a
write. Nothing bounds its loops but what the calls move: at the end of the source a read
moves nothing, and the copy tries it again for ever.
-/

namespace Aufs

open ByteFile

-- ---------------------------------------------------------------------------
-- Failing calls
-- ---------------------------------------------------------------------------

/-- An error for good. -/
def Hard (ans : Except Errno Nat) : Prop := ∃ err, ans = .error err ∧ retried err = false

/-- A write failed for good. -/
def CopyEnv.WriteFails (e : CopyEnv) (c : Copy) : Prop := ∃ t, t < c.wr ∧ Hard (e.write t)

theorem not_hard_ok (n : Nat) : ¬Hard (.ok n) := by
  rintro ⟨err, he, -⟩
  cases he

section

variable {e : CopyEnv} {src : List UInt8}

/-- What the read loop does to the counters. Only its last call fails for good, and the loop
returns this error. -/
theorem readLoop_calls {sz fuel : Nat} {c c' : Copy} {r : Except Errno (List UInt8)}
    (h : readLoop e src sz fuel c = some (r, c')) :
    c'.wr = c.wr ∧ c'.sk = c.sk ∧ c'.allZero = c.allZero ∧ c.rd < c'.rd ∧
      (∀ bs, r = .ok bs → ∀ t, c.rd ≤ t → t < c'.rd → ¬Hard (e.read t)) ∧
      ∀ err, r = .error err → ∃ t, t < c'.rd ∧ Hard (e.read t) := by
  induction fuel generalizing c with
  | zero => cases h
  | succ fuel ih =>
    -- a call that is not the last one does not fail for good
    have hnext : ¬Hard (e.read c.rd) → readLoop e src sz fuel { c with rd := c.rd + 1 } = some (r, c') →
        c'.wr = c.wr ∧ c'.sk = c.sk ∧ c'.allZero = c.allZero ∧ c.rd < c'.rd ∧
        (∀ bs, r = .ok bs → ∀ t, c.rd ≤ t → t < c'.rd → ¬Hard (e.read t)) ∧
        ∀ err, r = .error err → ∃ t, t < c'.rd ∧ Hard (e.read t) := by
      intro hsoft hrest
      obtain ⟨hwr, hsk, hz, hrd, hok, herr⟩ := ih hrest
      refine ⟨hwr, hsk, hz, Nat.lt_of_succ_lt hrd, fun bs hr t hle hlt => ?_, herr⟩
      rcases Nat.eq_or_lt_of_le hle with rfl | hgt
      · exact hsoft
      · exact hok bs hr t hgt hlt
    rw [readLoop] at h
    cases hans : e.read c.rd with
    | error err =>
      rw [hans] at h
      dsimp only at h
      split at h
      case isTrue hretry =>
        refine hnext ?_ h
        rintro ⟨err', he, hhard⟩
        rw [hans] at he
        obtain rfl := Except.error.inj he
        cases hretry.symm.trans hhard
      case isFalse hretry =>
        simp only [Option.some.injEq, Prod.mk.injEq] at h
        obtain ⟨rfl, rfl⟩ := h
        refine ⟨rfl, rfl, rfl, Nat.lt_succ_self _, (fun bs hr => by cases hr), fun _ _ => ?_⟩
        exact ⟨c.rd, Nat.lt_succ_self _, err, hans, by simpa using hretry⟩
    | ok n =>
      have hsoft : ¬Hard (e.read c.rd) := by
        rw [hans]
        exact not_hard_ok n
      rw [hans] at h
      dsimp only at h
      split at h
      case isTrue => exact hnext hsoft h
      case isFalse =>
        simp only [Option.some.injEq, Prod.mk.injEq] at h
        obtain ⟨rfl, rfl⟩ := h
        refine ⟨rfl, rfl, rfl, Nat.lt_succ_self _, fun bs _ t hle hlt => ?_, fun err hr => by cases hr⟩
        obtain rfl : t = c.rd := Nat.le_antisymm (Nat.le_of_lt_succ hlt) hle
        exact hsoft

/-- The write loop only writes, and never says how that went. -/
theorem writeLoop_calls {fuel : Nat} {p : List UInt8} {c c' : Copy}
    (h : writeLoop e fuel p c = some c') :
    c'.rd = c.rd ∧ c'.sk = c.sk ∧ c'.allZero = c.allZero ∧ c.wr ≤ c'.wr := by
  induction fuel generalizing p c with
  | zero => cases h
  | succ fuel ih =>
    rw [writeLoop] at h
    split at h
    · obtain rfl := Option.some.inj h
      exact ⟨rfl, rfl, rfl, Nat.le_refl _⟩
    · split at h
      · split at h
        · obtain ⟨hrd, hsk, hz, hwr⟩ := ih h
          exact ⟨hrd, hsk, hz, Nat.le_of_succ_le hwr⟩
        · obtain rfl := Option.some.inj h
          exact ⟨rfl, rfl, rfl, Nat.le_succ _⟩
      · obtain ⟨hrd, hsk, hz, hwr⟩ := ih h
        exact ⟨hrd, hsk, hz, Nat.le_of_succ_le hwr⟩

end

-- ---------------------------------------------------------------------------
-- What is copied
-- ---------------------------------------------------------------------------

/-- The copy after `k` bytes: the bytes are there, and the size lags behind only after a
hole. -/
structure Copied (src : List UInt8) (k : Nat) (c : Copy) : Prop where
  srcPos : c.srcPos = k
  dstPos : c.dstPos = k
  bytes : ∀ i, byteAt c.dst i = if i < k then byteAt src i else 0
  size : c.dst.length ≤ k
  full : c.allZero = false → c.dst.length = k

section

variable {e : CopyEnv} {src : List UInt8}

/-- The read loop only moves the position in the source, by what it read. -/
theorem readLoop_ok {sz fuel : Nat} {c c' : Copy} {bs : List UInt8}
    (h : readLoop e src sz fuel c = some (.ok bs, c')) :
    (∃ n, bs = (readAt src c.srcPos sz).take n) ∧ bs ≠ [] ∧ c'.srcPos = c.srcPos + bs.length ∧
      c'.dst = c.dst ∧ c'.dstPos = c.dstPos := by
  induction fuel generalizing c with
  | zero => cases h
  | succ fuel ih =>
    rw [readLoop] at h
    split at h
    · split at h
      · have hrest := ih h
        exact hrest
      · cases h
    · rename_i n _
      dsimp only at h
      split at h
      case isTrue =>
        have hrest := ih h
        exact hrest
      case isFalse hne =>
        simp only [Option.some.injEq, Prod.mk.injEq, Except.ok.injEq] at h
        obtain ⟨rfl, rfl⟩ := h
        exact ⟨⟨n, rfl⟩, hne, rfl, rfl, rfl⟩

/-- The write loop that ends without an error for good has written everything. -/
theorem writeLoop_some {fuel : Nat} {p : List UInt8} {c c' : Copy}
    (hsoft : ∀ t, c.wr ≤ t → t < c'.wr → ¬Hard (e.write t))
    (h : writeLoop e fuel p c = some c') : c.Written c' p := by
  induction fuel generalizing p c with
  | zero => cases h
  | succ fuel ih =>
    have hcalls := writeLoop_calls h
    rw [writeLoop] at h
    split at h
    case isTrue hp =>
      obtain rfl := Option.some.inj h
      exact ⟨by rw [hp, writeAt_nil], by rw [hp]; rfl, rfl, rfl, rfl⟩
    case isFalse =>
      split at h
      · rename_i err hans
        split at h
        case isTrue hretry =>
          have hw := ih (c := { c with wr := c.wr + 1 })
            (fun t hle hlt => hsoft t (Nat.le_of_succ_le hle) hlt) h
          exact ⟨hw.dst, hw.dstPos, hw.srcPos, hw.rd, hw.allZero⟩
        case isFalse hretry =>
          obtain rfl := Option.some.inj h
          exact absurd ⟨err, hans, by simpa using hretry⟩ (hsoft c.wr (Nat.le_refl _) (Nat.lt_succ_self _))
      · rename_i n _
        have hw := ih (c := { c with wr := c.wr + 1, dst := writeAt c.dst c.dstPos (p.take n),
                                     dstPos := c.dstPos + (p.take n).length })
          (fun t hle hlt => hsoft t (Nat.le_of_succ_le hle) hlt) h
        refine ⟨?_, ?_, hw.srcPos, hw.rd, hw.allZero⟩
        · rw [hw.dst]
          dsimp only
          rw [writeAt_writeAt_append, List.take_append_drop]
        · rw [hw.dstPos]
          dsimp only
          rw [Nat.add_assoc, ← List.length_append, List.take_append_drop]

/-- One block that is written. -/
theorem Copied.written {k : Nat} {c c' : Copy} {bs : List UInt8} (hc : Copied src k c)
    (hbs : ∀ i < bs.length, byteAt bs i = byteAt src (k + i)) (hne : bs ≠ [])
    (hsrc : c'.srcPos = k + bs.length) (hdst : c'.dst = writeAt c.dst k bs)
    (hdstPos : c'.dstPos = k + bs.length) : Copied src (k + bs.length) c' where
  srcPos := hsrc
  dstPos := hdstPos
  bytes i := by
    rw [hdst, byteAt_writeAt, hc.bytes i]
    by_cases hi : i < k
    · rw [if_neg (by omega), if_pos hi, if_pos (by omega)]
    · by_cases hi' : i < k + bs.length
      · rw [if_pos ⟨by omega, hi'⟩, if_pos hi', hbs _ (by omega)]
        congr 1
        omega
      · rw [if_neg (by omega), if_neg hi, if_neg hi']
  size := by
    have := hc.size
    rw [hdst, length_writeAt _ _ hne]
    omega
  full _ := by
    have := hc.size
    rw [hdst, length_writeAt _ _ hne]
    omega

/-- One block of zeros that is skipped. -/
theorem Copied.skip {k : Nat} {c c' : Copy} {bs : List UInt8} (hc : Copied src k c)
    (hbs : ∀ i < bs.length, byteAt bs i = byteAt src (k + i)) (hzero : ∀ b ∈ bs, b = 0)
    (hsrc : c'.srcPos = k + bs.length) (hdst : c'.dst = c.dst) (hdstPos : c'.dstPos = k + bs.length)
    (hflag : c'.allZero = true) : Copied src (k + bs.length) c' where
  srcPos := hsrc
  dstPos := hdstPos
  bytes i := by
    rw [hdst, hc.bytes i]
    by_cases hi : i < k
    · rw [if_pos hi, if_pos (by omega)]
    · rw [if_neg hi]
      by_cases hi' : i < k + bs.length
      · have hz := forall_mem_eq_zero_iff.mp hzero (i - k) (by omega)
        rw [if_pos hi', ← hz, hbs _ (by omega)]
        congr 1
        omega
      · rw [if_neg hi']
  size := by
    have := hc.size
    rw [hdst]
    omega
  full hfalse := by
    rw [hflag] at hfalse
    cases hfalse

theorem copyLoop_wr {fuel len : Nat} {c c' : Copy} {r : Except Errno Unit}
    (h : copyLoop e src fuel len c = some (r, c')) : c.wr ≤ c'.wr := by
  induction fuel generalizing len c with
  | zero => cases h
  | succ fuel ih =>
    rw [copyLoop] at h
    split at h
    · simp only [Option.some.injEq, Prod.mk.injEq] at h
      obtain ⟨-, rfl⟩ := h
      exact Nat.le_refl _
    · split at h
      · cases h
      · rename_i hread
        simp only [Option.some.injEq, Prod.mk.injEq] at h
        obtain ⟨-, rfl⟩ := h
        exact Nat.le_of_eq (readLoop_calls hread).1.symm
      · rename_i hread
        have hwr := (readLoop_calls hread).1
        dsimp only at h
        split at h
        · split at h
          · cases h
          · rename_i hwrite
            have hle := (writeLoop_calls hwrite).2.2.2
            exact Nat.le_trans (Nat.le_trans (Nat.le_of_eq hwr.symm) hle) (ih h)
        · split at h
          · simp only [Option.some.injEq, Prod.mk.injEq] at h
            obtain ⟨-, rfl⟩ := h
            exact Nat.le_of_eq hwr.symm
          · have hrest := ih h
            exact Nat.le_trans (Nat.le_of_eq hwr.symm) hrest

/-- The main loop, up to an end without an error and without one that it forgot. -/
theorem copyLoop_copied {fuel len k : Nat} {c c' : Copy} (hc : Copied src k c)
    (hlen : k + len ≤ src.length) (h : copyLoop e src fuel len c = some (.ok (), c'))
    (hsoft : ∀ t, c.wr ≤ t → t < c'.wr → ¬Hard (e.write t)) : Copied src (k + len) c' := by
  induction fuel generalizing len k c with
  | zero => cases h
  | succ fuel ih =>
    rw [copyLoop] at h
    split at h
    case isTrue hz =>
      simp only [Option.some.injEq, Prod.mk.injEq, true_and] at h
      subst h
      rw [hz]
      exact hc
    case isFalse =>
      split at h
      · cases h
      · cases h
      · rename_i bs c₁ hread
        obtain ⟨hwr, -⟩ := readLoop_calls hread
        obtain ⟨⟨n, hbs⟩, hne, hsrc, hdst, hdstPos⟩ := readLoop_ok hread
        have hlenBs : bs.length ≤ len := by
          rw [hbs, List.length_take, length_readAt]
          omega
        have hbsAt : ∀ i < bs.length, byteAt bs i = byteAt src (k + i) := by
          intro i hi
          have hi' := hi
          rw [hbs, List.length_take, length_readAt, hc.srcPos] at hi'
          rw [hbs, byteAt_take, byteAt_readAt, hc.srcPos, if_pos (by omega), if_pos (by omega)]
        have hend : k + len = k + bs.length + (len - bs.length) := by omega
        rw [hend]
        dsimp only at h
        split at h
        case isTrue =>
          split at h
          · cases h
          · rename_i c₂ hwrite
            have hle := copyLoop_wr h
            have hle₂ := (writeLoop_calls hwrite).2.2.2
            have hsoft₂ : ∀ t, c₁.wr ≤ t → t < c₂.wr → ¬Hard (e.write t) := fun t hge hlt =>
              hsoft t (Nat.le_trans (Nat.le_of_eq hwr.symm) hge) (Nat.lt_of_lt_of_le hlt hle)
            have hw := writeLoop_some (c := { c₁ with allZero := e.allZero len bs }) hsoft₂ hwrite
            have hwritten : Copied src (k + bs.length) c₂ := by
              refine hc.written hbsAt hne ?_ ?_ ?_
              · rw [hw.srcPos, ← hc.srcPos]
                exact hsrc
              · rw [hw.dst]
                dsimp only
                rw [hdst, hdstPos, hc.dstPos]
              · rw [hw.dstPos]
                dsimp only
                rw [hdstPos, hc.dstPos]
            exact ih hwritten (by omega) h fun t hge hlt =>
              hsoft t (Nat.le_trans (Nat.le_trans (Nat.le_of_eq hwr.symm) hle₂) hge) hlt
        case isFalse hzero =>
          split at h
          · cases h
          · have hflag : e.allZero len bs = true := by simpa using hzero
            have hall : ∀ b ∈ bs, b = 0 := by
              simp only [CopyEnv.allZero, Bool.and_eq_true, List.all_eq_true, decide_eq_true_eq] at hflag
              exact hflag.2
            have hskip : Copied src (k + bs.length)
                { c₁ with allZero := e.allZero len bs, sparse := true, sk := c₁.sk + 1,
                          dstPos := c₁.dstPos + bs.length } := by
              refine hc.skip hbsAt hall ?_ hdst ?_ hflag
              · rw [← hc.srcPos]
                exact hsrc
              · dsimp only
                rw [hdstPos, hc.dstPos]
            exact ih hskip (by omega) h fun t hge hlt =>
              hsoft t (Nat.le_trans (Nat.le_of_eq hwr.symm) hge) hlt

end

-- ---------------------------------------------------------------------------
-- cpup_entry of a regular file
-- ---------------------------------------------------------------------------

/-- How the calls end that `cpup_entry` makes for a regular file. The flags say whether the
opened files have a `f_op`. -/
structure CpupEnv where
  create : Option Errno
  openSrc : Option Errno
  srcFop : Bool
  openDst : Option Errno
  dstFop : Bool
  copy : CopyEnv
  unlink : Option Errno

/-- `cpup_regular`, into the new file. -/
def cpupRegular (e : CpupEnv) (fuel : Nat) (src : List UInt8) (len : Nat) :
    Option (Except Errno Unit × List UInt8) :=
  match e.openSrc with
  | some err => some (.error err, [])
  | none =>
    if !e.srcFop then some (.error .EINVAL, [])
    else
      match e.openDst with
      | some err => some (.error err, [])
      | none =>
        if !e.dstFop then some (.error .EINVAL, [])
        else (auCopyFile e.copy fuel [] src len).map fun r => (r.1, r.2.dst)

/-- The length that `cpup_entry` copies. `none` is the length -1. -/
def cpupLen (src : List UInt8) (len : Option Nat) : Nat :=
  match len with
  | none => src.length
  | some n => if src.length < n then src.length else n

/-- No write of the copy that `cpup_entry` makes fails for good. -/
def CpupEnv.Keeps (e : CpupEnv) (fuel : Nat) (src : List UInt8) (len : Option Nat) : Prop :=
  ∀ r c, auCopyFile e.copy fuel [] src (cpupLen src len) = some (r, c) → ¬e.copy.WriteFails c

end Aufs
