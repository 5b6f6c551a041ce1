-- SUMMARY: An open regular file over every run of reads, writes, copy-ups and branch changes: when every call finds its hidden file.
import Aufs.Handle
import Aufs.Inode

/-!
# Open regular files

`aufs_read` and `aufs_write` use the hidden file at `fbstart` as soon as
`au_reval_and_lock_finfo` has returned 0, and `refresh_file` looks at the branch of that slot
before anything else. So the slot must be filled after every call, whatever failed in it.
-/

namespace Aufs

namespace Handle

-- ---------------------------------------------------------------------------
-- Preparing for a write
-- ---------------------------------------------------------------------------

/-- What `au_ready_to_write` gets from the calls it makes: the parent, how `cpup_dirs` ends,
whether the hidden dentry is unhashed, the name that a copy-up leaves, the answers to
`dentry_open`, and how `vfsub_unlink` of the temporary name in `cpup_wh_file` ends. -/
structure WriteIn where
  parent : Dinfo
  cpupDirs : Except Errno Unit
  unhashed : Bool
  cpup : Except Errno FileName
  answer : Int → Except Errno Unit
  unlink : Except Errno Unit

/-- `cpup_wh_file`. After an error the dentry is as it was before. -/
def cpupWhFile (sb : SuperBlock) (n : FileName) (w : WriteIn) (f : Handle) : Option Ended :=
  match w.cpup with
  | .error err => some (.error err, f, n)
  | .ok n' =>
    match auReopenNondir sb n' w.answer f with
    | none => none
    | some (.error err, f) => some (.error err, f, n)
    | some (.ok (), f) =>
      match w.unlink with
      | .error _ => some (.error Errno.EIO, f, n')
      | .ok () => some (.ok (), f, n')

/-- The copy-up of a name that is hashed, and the opening after it. -/
def cpupFile (sb : SuperBlock) (n : FileName) (w : WriteIn) (bcpup : Int) (f : Handle) : Option Ended :=
  match if (n.d.hDptrI bcpup).isSome then .ok n else w.cpup with
  | .error err => some (.error err, f, n)
  | .ok n =>
    match auReopenNondir sb n w.answer f with
    | none => none
    | some (r, f) => some (r, f, n)

/-- `au_ready_to_write` -/
def auReadyToWrite (sb : SuperBlock) (n : FileName) (w : WriteIn) (f : Handle) : Option Ended :=
  match testRo sb f.bstart n.hi with
  | .error _ => none
  | .ok ro =>
    -- if (!err && (au_h_fptr(file)->f_mode & FMODE_WRITE))
    match if ro then some false else (f.hfile f.bstart).map fun p => p.file.mode.write with
    | none => none
    | some true => some (.ok (), f, n)
    | some false =>
      match findRwParentBr sb w.parent f.bstart with
      | .error err => some (.error err, f, n)
      | .ok bcpup =>
        match if (w.parent.hDptrI bcpup).isNone then w.cpupDirs else .ok () with
        | .error err => some (.error err, f, n)
        | .ok () =>
          -- hidden_dentry = au_h_fptr(file)->f_dentry
          match f.hfile f.bstart with
          | none => none
          | some _ => if n.unhashed || w.unhashed then cpupWhFile sb n w f else cpupFile sb n w bcpup f

-- ---------------------------------------------------------------------------
-- The name of a regular file
-- ---------------------------------------------------------------------------

/-- The dentry of a regular file in this branch table: it has a positive hidden dentry at
`dbstart`, the one of `hd` as long as the name is hashed. -/
def RegName (sb : SuperBlock) (hd : Int → HDentry) (n : FileName) : Prop :=
  ∃ h id, n.d.hDptrI n.d.bstart = some h ∧ h.positive = true ∧ sb.sbrId n.d.bstart = some id ∧
    (n.unhashed = false → h = hd id)

/-- The hidden file is open on the hidden dentry of its branch, unless the name is unhashed. -/
def Named (hd : Int → HDentry) (n : FileName) (f : Handle) : Prop :=
  n.unhashed = false → ∀ b p, f.hfile b = some p → p.file.dentry = hd p.br

/-- No hidden file is on a branch before `dbstart`. -/
def NotBefore (sb : SuperBlock) (n : FileName) (f : Handle) : Prop :=
  ∀ b p, f.hfile b = some p → n.d.bstart ≤ sb.findBrindex p.br

/-- A handle between two calls, after the branch table was followed. -/
structure Ready (sb : SuperBlock) (hd : Int → HDentry) (n : FileName) (f : Handle) : Prop where
  live : Live sb f
  aligned : Aligned sb f
  named : Named hd n f
  before : NotBefore sb n f

/-- The slot at `fbstart` holds a hidden file, and that is the one of the hidden dentry at
`dbstart` unless the file is mapped or the name unhashed. -/
def AtStart (mapped : Bool) (n : FileName) (f : Handle) : Prop :=
  ∃ p, f.hfile f.bstart = some p ∧
    ((mapped || n.unhashed) = false → n.d.hDptrI n.d.bstart = some p.file.dentry)

variable {sb : SuperBlock} {hd : Int → HDentry} {n n' : FileName} {f f' : Handle}
  {answer : Int → Except Errno Unit}

theorem Ready.bstart_le (h : Ready sb hd n f) : n.d.bstart ≤ f.bstart := by
  obtain ⟨p, hp⟩ := Option.isSome_iff_exists.mp h.live.first
  rw [← h.aligned _ p hp]
  exact h.before _ p hp

theorem Ready.sbrId (h : Ready sb hd n f) {b : Int} {p : HdSlot} (hp : f.hfile b = some p) :
    sb.sbrId b = some p.br := by
  have hid := SuperBlock.sbrId_findBrindex (h.live.table b p hp)
  rwa [h.aligned b p hp] at hid

/-- At the index of `dbstart` the hidden file is the one of the hidden dentry. -/
theorem Ready.atStart (h : Ready sb hd n f) (hname : RegName sb hd n) (hb : f.bstart = n.d.bstart)
    (mapped : Bool) : AtStart mapped n f := by
  obtain ⟨p, hp⟩ := Option.isSome_iff_exists.mp h.live.first
  refine ⟨p, hp, fun hkeep => ?_⟩
  have hhashed : n.unhashed = false := (Bool.or_eq_false_iff.mp hkeep).2
  obtain ⟨k, id, hk, -, hid, hhd⟩ := hname
  have hid' := h.sbrId hp
  rw [hb, hid] at hid'
  rw [hk, hhd hhashed, h.named hhashed _ p hp, Option.some.inj hid']

/-- A name that starts no later serves the handle, too. -/
theorem Ready.rename (h : Ready sb hd n f)
    (hle : n'.d.bstart ≤ f.bstart) (hun : n'.unhashed = n.unhashed) : Ready sb hd n' f where
  live := h.live
  aligned := h.aligned
  named := fun hh => h.named (hun ▸ hh)
  before := fun b p hp => by
    have := h.live.range b p hp
    rw [h.aligned b p hp]
    omega

/-- A positive hidden dentry at an index of the table can be opened, if `dentry_open` can. -/
theorem hiddenOpen_regName (hname : RegName sb hd n) (answer : Int → Except Errno Unit)
    (flags : FMode) :
    (∃ err, answer n.d.bstart = .error err ∧
      hiddenOpen sb n answer n.d.bstart flags = some (.error err)) ∨
    ∃ p, answer n.d.bstart = .ok () ∧ hiddenOpen sb n answer n.d.bstart flags = some (.ok p) ∧
      n.d.hDptrI n.d.bstart = some p.file.dentry ∧ alive p = true ∧ sb.sbrId n.d.bstart = some p.br := by
  obtain ⟨k, id, hk, hpos, hid, -⟩ := hname
  obtain ⟨br, hbr, rfl⟩ := Option.map_eq_some_iff.mp hid
  obtain ⟨i, hi⟩ := Option.isSome_iff_exists.mp hpos
  have hro : testRo sb n.d.bstart n.hi =
      .ok (br.brRdonly || (n.hi n.d.bstart).any HInode.immutable) := by
    rw [testRo, hbr]
  rw [hiddenOpen]
  simp only [hbr, hk, hi, hro]
  cases hans : answer n.d.bstart with
  | error err => exact .inl ⟨err, rfl, rfl⟩
  | ok u => exact .inr ⟨_, rfl, rfl, rfl, hpos, hid⟩

/-- A handle with one hidden file, at `dbstart`. -/
def single (f : Handle) (n : FileName) (p : HdSlot) : Handle :=
  { f with bstart := n.d.bstart, bend := n.d.bstart, hfile := Function.update (fun _ => none) n.d.bstart (some p) }

theorem ready_single (hids : sb.DistinctIds) (hname : RegName sb hd n) {p : HdSlot}
    (hd' : n.d.hDptrI n.d.bstart = some p.file.dentry) (hal : alive p = true)
    (hid : sb.sbrId n.d.bstart = some p.br) : Ready sb hd n (single f n p) := by
  have hslot : ∀ b q, (single f n p).hfile b = some q → b = n.d.bstart ∧ q = p := by
    intro b q hq
    by_cases hb : b = n.d.bstart
    · subst hb
      simp only [single, Function.update_self, Option.some.injEq] at hq
      exact ⟨rfl, hq.symm⟩
    · simp [single, hb] at hq
  have hfind := hids.findBrindex hid
  have h0 := (SuperBlock.range_of_sbrId hid).1
  refine ⟨⟨by simp [single], fun b q hq => ?_, fun b c q q' hq hq' _ => ?_, fun b q hq => ?_,
    fun b q hq => ?_⟩, fun b q hq => ?_, fun hh b q hq => ?_, fun b q hq => ?_⟩
  · obtain ⟨rfl, rfl⟩ := hslot b q hq
    exact ⟨h0, Int.le_refl _, Int.le_refl _⟩
  · rw [(hslot b q hq).1, (hslot c q' hq').1]
  · obtain ⟨rfl, rfl⟩ := hslot b q hq
    omega
  · obtain ⟨rfl, rfl⟩ := hslot b q hq
    exact hal
  · obtain ⟨rfl, rfl⟩ := hslot b q hq
    exact hfind
  · obtain ⟨rfl, rfl⟩ := hslot b q hq
    obtain ⟨k, id, hk, -, hid', hhd⟩ := hname
    rw [hk] at hd'
    rw [hid] at hid'
    rw [← Option.some.inj hd', hhd hh, Option.some.inj hid']
  · obtain ⟨rfl, rfl⟩ := hslot b q hq
    omega

-- ---------------------------------------------------------------------------
-- Opening again
-- ---------------------------------------------------------------------------

theorem reopenAt_eq {p : HdSlot}
    (hrange : ∀ b q, f.hfile b = some q → n.d.bstart ≤ b ∧ b ≤ f.bend)
    (hopen : hiddenOpen sb n answer n.d.bstart f.mode = some (.ok p)) :
    reopenAt sb n answer f = some (.ok (), single f n p) := by
  rw [reopenAt]
  simp only [hopen, single, putAll, setHFptr, Option.some.injEq, Prod.mk.injEq, true_and, mk.injEq,
    and_true, mem_bindexes]
  funext b
  by_cases hb : b = n.d.bstart
  · subst hb
    rw [if_neg (by omega), Function.update_self, Function.update_self]
  · rw [Function.update_of_ne hb, Function.update_of_ne hb]
    cases hq : f.hfile b with
    | none => exact ite_self none
    | some q =>
      have := hrange b q hq
      rw [if_pos (by omega)]

/-- `au_reopen_nondir` leaves the handle ready, or the open failed. Where the hidden file at
`dbstart` had to make room for the new one, it is gone then. -/
theorem Ready.reopen (h : Ready sb hd n f) (hids : sb.DistinctIds) (hname : RegName sb hd n)
    (answer : Int → Except Errno Unit) :
    (∃ f', auReopenNondir sb n answer f = some (.ok (), f') ∧ Ready sb hd n f' ∧
      f'.bstart = n.d.bstart ∧ f'.generation = f.generation) ∨
    ∃ err f', answer n.d.bstart = .error err ∧ auReopenNondir sb n answer f = some (.error err, f') ∧
      (f.bstart ≠ n.d.bstart → f' = f) := by
  obtain ⟨first, hfirst⟩ := Option.isSome_iff_exists.mp h.live.first
  have hrange : ∀ b q, f.hfile b = some q → n.d.bstart ≤ b ∧ b ≤ f.bend := by
    intro b q hq
    have := h.live.range b q hq
    have := h.bstart_le
    omega
  have hready : ∀ p, n.d.hDptrI n.d.bstart = some p.file.dentry → alive p = true →
      sb.sbrId n.d.bstart = some p.br → Ready sb hd n (single f n p) :=
    fun p => ready_single hids hname
  rw [auReopenNondir]
  by_cases hb : f.bstart = n.d.bstart
  · simp only [hb, if_true]
    rw [hb] at hfirst
    simp only [hfirst]
    by_cases hmode : f.mode = first.file.mode
    · rw [if_pos hmode]
      exact .inl ⟨f, rfl, h, hb, rfl⟩
    · rw [if_neg hmode]
      -- the hidden file is closed before the new one is opened
      rcases hiddenOpen_regName hname answer f.mode with ⟨err, hans, hopen⟩ | ⟨p, hans, hopen, hp⟩
      · refine .inr ⟨err, f.setHFptr n.d.bstart none, hans, ?_, fun hne => absurd rfl hne⟩
        rw [reopenAt]
        simp only [setHFptr, hopen]
      · refine .inl ⟨_, ?_, hready p hp.1 hp.2.1 hp.2.2, rfl, rfl⟩
        refine (reopenAt_eq (f := f.setHFptr n.d.bstart none) (fun b q hq => ?_) hopen).trans rfl
        by_cases hbn : b = n.d.bstart
        · simp [setHFptr, hbn] at hq
        · exact hrange b q (by simpa [setHFptr, hbn] using hq)
  · rw [if_neg hb]
    rcases hiddenOpen_regName hname answer f.mode with ⟨err, hans, hopen⟩ | ⟨p, hans, hopen, hp⟩
    · refine .inr ⟨err, f, hans, ?_, fun _ => rfl⟩
      rw [reopenAt]
      simp only [hopen]
    · exact .inl ⟨_, reopenAt_eq hrange hopen, hready p hp.1 hp.2.1 hp.2.2, rfl, rfl⟩

-- ---------------------------------------------------------------------------
-- Runs
-- ---------------------------------------------------------------------------

/-- An open regular file. `mapped` is `au_is_mmapped`; `held` says that a revalidation has
returned 0 and the operation goes on, with the file locked. -/
structure RegState where
  sb : SuperBlock
  n : FileName
  f : Handle
  mapped : Bool
  held : Bool

namespace RegState

/-- `au_reval_and_lock_finfo` with `au_reopen_nondir`. -/
def reval (s : RegState) (v : RevalIn) : Option Ended :=
  auRevalAndLockFinfo s.sb false s.mapped s.n v s.f

/-- `au_ready_to_write` -/
def ready (s : RegState) (w : WriteIn) : Option Ended := auReadyToWrite s.sb s.n w s.f

/-- The state after a call. -/
def ended (s : RegState) (e : Ended) : RegState :=
  { s with f := e.2.1, n := e.2.2, held := decide (e.1 = .ok ()) }

/-- What the calls of a revalidation give: the copied-up name is one of this file, not below the
one before, and `au_reopen_nondir` can open the hidden file. -/
structure RevalMeets (hd : Int → HDentry) (s : RegState) (v : RevalIn) : Prop where
  name : ∀ n, v.cpup = .ok n →
    RegName s.sb hd n ∧ n.d.bstart ≤ s.n.d.bstart ∧ n.unhashed = s.n.unhashed
  opens : ∀ n, n = s.n ∨ v.cpup = .ok n → v.answer n.d.bstart = .ok ()

/-- What the calls of `au_ready_to_write` give: the copied-up name starts at the branch it was
copied to or before, and where the hidden file at `dbstart` has to make room for a new one, that
can be opened. -/
structure WriteMeets (hd : Int → HDentry) (s : RegState) (w : WriteIn) : Prop where
  name : ∀ n b, w.cpup = .ok n → findRwParentBr s.sb w.parent s.f.bstart = .ok b →
    RegName s.sb hd n ∧ n.d.bstart ≤ b ∧ n.unhashed = s.n.unhashed
  opens : ∀ n, n = s.n ∨ w.cpup = .ok n → n.d.bstart = s.f.bstart → w.answer n.d.bstart = .ok ()

/-- The states that an open file comes to, with calls whose opens succeed where it matters. The
branch table does not change while an operation goes on, and no branch in use is deleted. -/
inductive Reach (hd : Int → HDentry) : RegState → Prop where
  | start {sb : SuperBlock} {n : FileName} {answer : Int → Except Errno Unit} {flags : FMode}
      {f : Handle} (hids : sb.DistinctIds) (hname : RegName sb hd n)
      (hopen : doOpenNondir sb n answer flags = some (.ok f)) : Reach hd ⟨sb, n, f, false, false⟩
  | reval {s : RegState} (h : Reach hd s) (hheld : s.held = false) (v : RevalIn)
      (hm : s.RevalMeets hd v) {e : Ended} (hr : s.reval v = some e) : Reach hd (s.ended e)
  | ready {s : RegState} (h : Reach hd s) (hheld : s.held = true) (w : WriteIn)
      (hm : s.WriteMeets hd w) {e : Ended} (hr : s.ready w = some e) : Reach hd (s.ended e)
  | done {s : RegState} (h : Reach hd s) : Reach hd { s with held := false }
  | map {s : RegState} (h : Reach hd s) : Reach hd { s with mapped := true }
  | name {s : RegState} (h : Reach hd s) (n : FileName) (hname : RegName s.sb hd n)
      (hbefore : NotBefore s.sb n s.f) (hun : s.n.unhashed = true → n.unhashed = true) :
      Reach hd { s with n }
  | branches {s : RegState} (h : Reach hd s) (hheld : s.held = false) (sb : SuperBlock) (n : FileName)
      (hgen : sb.generation = s.sb.generation + 1) (hids : sb.DistinctIds) (hname : RegName sb hd n)
      (hun : s.n.unhashed = true → n.unhashed = true)
      (hbefore : NotBefore sb n s.f) :
      Reach hd { s with sb, n }

/-- What every state satisfies. -/
structure Inv (hd : Int → HDentry) (s : RegState) : Prop where
  ids : s.sb.DistinctIds
  name : RegName s.sb hd s.n
  live : Live s.sb s.f
  named : Named hd s.n s.f
  before : NotBefore s.sb s.n s.f
  generation : s.f.generation ≤ s.sb.generation
  aligned : s.f.generation = s.sb.generation → Aligned s.sb s.f
  held : s.held = true → s.f.generation = s.sb.generation

variable {s : RegState} {v : RevalIn} {w : WriteIn} {e : Ended}

theorem Inv.ready (h : Inv hd s) (ha : Aligned s.sb s.f) : Ready s.sb hd s.n s.f :=
  ⟨h.live, ha, h.named, h.before⟩

/-- A call that leaves the handle ready leaves a state in order. -/
theorem inv_ended {r : Except Errno Unit} {f : Handle} {n : FileName} (hids : s.sb.DistinctIds)
    (hname : RegName s.sb hd n) (h : Ready s.sb hd n f) (hgen : f.generation ≤ s.sb.generation)
    (hok : r = .ok () → f.generation = s.sb.generation) : Inv hd (s.ended (r, f, n)) :=
  ⟨hids, hname, h.live, h.named, h.before, hgen, fun _ => h.aligned,
    fun hheld => hok (of_decide_eq_true hheld)⟩

/-- The generation is no part of what a handle holds. -/
theorem ready_generation {sb : SuperBlock} {n : FileName} {f : Handle} (h : Ready sb hd n f)
    (generation : Int) : Ready sb hd n { f with generation } where
  live := ⟨h.live.first, h.live.range, h.live.distinct, h.live.table, h.live.positive⟩
  aligned := h.aligned
  named := h.named
  before := h.before

/-- What `refresh_file` makes of the handle before it opens anything is ready. -/
theorem Inv.remapped (h : Inv hd s) {keep : Bool} {f₁ : Handle} (hf : Remapped s.sb keep s.f f₁) :
    Ready s.sb hd s.n f₁ where
  live := hf.live
  aligned := hf.aligned
  named := fun hh b p hp => by
    obtain ⟨-, -, i, hi⟩ := (hf.slots b p).mp hp
    exact h.named hh i p hi
  before := fun b p hp => by
    obtain ⟨-, -, i, hi⟩ := (hf.slots b p).mp hp
    exact h.before i p hi

-- ---------------------------------------------------------------------------
-- One call
-- ---------------------------------------------------------------------------

/-- What is to be shown of a call: it ends, and leaves a state in order. -/
def Ends (hd : Int → HDentry) (s : RegState) (o : Option Ended) : Prop :=
  ∃ e, o = some e ∧ Inv hd (s.ended e) ∧ (e.1 = .ok () → AtStart s.mapped e.2.2 e.2.1)

/-- A call that fails and changes nothing. -/
theorem Inv.failed (h : Inv hd s) (err : Errno) : Ends hd s (some (.error err, s.f, s.n)) :=
  ⟨_, rfl, ⟨h.ids, h.name, h.live, h.named, h.before, h.generation, h.aligned, fun he => by cases he⟩,
    fun he => by cases he⟩

/-- `refresh_file` after the ends are found. -/
theorem Inv.refreshOpen (h : Inv hd s) (hm : s.RevalMeets hd v) {f₁ : Handle}
    (hf : Remapped s.sb false s.f f₁) : Ends hd s (Handle.refreshOpen s.sb false s.n v f₁) := by
  have hready := h.remapped hf
  have hgen : f₁.generation ≤ s.sb.generation := hf.generation ▸ h.generation
  rw [Handle.refreshOpen]
  split
  case h_1 err _ =>
    exact ⟨_, rfl, inv_ended h.ids h.name hready hgen (fun he => by cases he), fun he => by cases he⟩
  case h_2 n hcpup =>
    -- the name, or the name after the copy-up of the pseudo-link
    have hn : RegName s.sb hd n ∧ n.d.bstart ≤ s.n.d.bstart ∧ n.unhashed = s.n.unhashed ∧
        v.answer n.d.bstart = .ok () := by
      split at hcpup
      · obtain ⟨h1, h2, h3⟩ := hm.name n hcpup
        exact ⟨h1, h2, h3, hm.opens n (.inr hcpup)⟩
      · obtain rfl := Except.ok.inj hcpup
        exact ⟨h.name, Int.le_refl _, rfl, hm.opens _ (.inl rfl)⟩
    obtain ⟨hname, hle, hun, hans⟩ := hn
    have hready' : Ready s.sb hd n f₁ := hready.rename (hle.trans hready.bstart_le) hun
    rcases hready'.reopen h.ids hname v.answer with ⟨f', hopen, hf', hb, -⟩ | ⟨err, f', herr, -⟩
    · simp only [Bool.false_eq_true, if_false, hopen]
      have hset := ready_generation hf' s.sb.generation
      exact ⟨_, rfl, inv_ended h.ids hname hset (Int.le_refl _) fun _ => rfl,
        fun _ => hset.atStart hname hb s.mapped⟩
    · rw [hans] at herr
      cases herr

/-- One call of `au_reval_and_lock_finfo`. -/
theorem Inv.reval (h : Inv hd s) (hm : s.RevalMeets hd v) : Ends hd s (s.reval v) := by
  rw [RegState.reval, auRevalAndLockFinfo]
  split
  case isTrue hfast =>
    have hready := h.ready (h.aligned hfast.1.symm)
    exact ⟨_, rfl, inv_ended h.ids h.name hready h.generation fun _ => hfast.1.symm,
      fun _ => hready.atStart h.name hfast.2.2 s.mapped⟩
  case isFalse =>
    split
    case h_1 err _ => exact h.failed err
    case h_2 =>
      rcases h.live.refreshFile false s.mapped s.n v with hmem | ⟨f₁, hf₁, heq⟩
      · rw [hmem]
        exact h.failed .ENOMEM
      rw [heq]
      cases hkeep : s.mapped || s.n.unhashed with
      | false =>
        rw [hkeep] at hf₁
        simp only [Bool.false_eq_true, if_false]
        exact h.refreshOpen hm hf₁
      | true =>
        simp only [if_true]
        have hset := ready_generation (h.remapped hf₁) s.sb.generation
        obtain ⟨p, hp⟩ := Option.isSome_iff_exists.mp hf₁.live.first
        refine ⟨_, rfl, inv_ended h.ids h.name hset (Int.le_refl _) fun _ => rfl,
          fun _ => ⟨p, hp, fun hk => ?_⟩⟩
        rw [hkeep] at hk
        cases hk

/-- The opening again in `au_ready_to_write`. -/
theorem Inv.reopen (h : Inv hd s) (hheld : s.held = true) {n : FileName} (hname : RegName s.sb hd n)
    (hle : n.d.bstart ≤ s.f.bstart) (hun : n.unhashed = s.n.unhashed)
    (hopens : n.d.bstart = s.f.bstart → w.answer n.d.bstart = .ok ()) :
    (∃ f, auReopenNondir s.sb n w.answer s.f = some (.ok (), f) ∧ Ready s.sb hd n f ∧
      f.generation = s.sb.generation) ∨
    ∃ err, auReopenNondir s.sb n w.answer s.f = some (.error err, s.f) := by
  have hgen := h.held hheld
  have hready : Ready s.sb hd n s.f := (h.ready (h.aligned hgen)).rename hle hun
  rcases hready.reopen h.ids hname w.answer with ⟨f, hopen, hf, -, hg⟩ | ⟨err, f, herr, hopen, hsame⟩
  · exact .inl ⟨f, hopen, hf, hg.trans hgen⟩
  · refine .inr ⟨err, ?_⟩
    have hne : s.f.bstart ≠ n.d.bstart := by
      intro hb
      rw [hopens hb.symm] at herr
      cases herr
    rw [hopen, hsame hne]

/-- One call of `au_ready_to_write`. -/
theorem Inv.readyToWrite (h : Inv hd s) (hheld : s.held = true) (hm : s.WriteMeets hd w) :
    ∃ e, s.ready w = some e ∧ Inv hd (s.ended e) := by
  have hgen := h.held hheld
  have hready := h.ready (h.aligned hgen)
  obtain ⟨p, hp⟩ := Option.isSome_iff_exists.mp h.live.first
  have hfail : ∀ err, ∃ e, some (.error err, s.f, s.n) = some e ∧ Inv hd (s.ended e) := fun err =>
    have ⟨e, he, hinv, _⟩ := h.failed err
    ⟨e, he, hinv⟩
  have hro : ∃ ro, testRo s.sb s.f.bstart s.n.hi = .ok ro := by
    obtain ⟨br, hbr, -⟩ := Option.map_eq_some_iff.mp (hready.sbrId hp)
    rw [testRo, hbr]
    exact ⟨_, rfl⟩
  obtain ⟨ro, hro⟩ := hro
  rw [RegState.ready, auReadyToWrite]
  simp only [hro, hp, Option.map_some]
  split
  case h_1 hnone =>
    split at hnone <;> cases hnone
  case h_2 =>
    exact ⟨_, rfl, inv_ended h.ids h.name hready h.generation fun _ => hgen⟩
  case h_3 =>
    split
    case h_1 err _ => exact hfail err
    case h_2 bcpup hfind =>
      have hle := (findRwParentBr_ok hfind).2
      split
      case h_1 err _ => exact hfail err
      case h_2 =>
        split
        case isTrue hwh =>
          rw [cpupWhFile]
          split
          case h_1 err _ => exact hfail err
          case h_2 n hcpup =>
            obtain ⟨hname, hbn, hun⟩ := hm.name n bcpup hcpup hfind
            rcases h.reopen hheld hname (hbn.trans hle) hun (hm.opens n (.inr hcpup)) with
              ⟨f, hopen, hf, hg⟩ | ⟨err, hopen⟩
            · simp only [hopen]
              have hend : ∀ r, ∃ e, some (r, f, n) = some e ∧ Inv hd (s.ended e) := fun r =>
                ⟨_, rfl, inv_ended h.ids hname hf (Int.le_of_eq hg) fun _ => hg⟩
              split
              · exact hend _
              · exact hend _
            · simp only [hopen]
              exact hfail err
        case isFalse hhashed =>
          rw [cpupFile]
          split
          case h_1 err _ => exact hfail err
          case h_2 n hcpup =>
            have hn : RegName s.sb hd n ∧ n.d.bstart ≤ s.f.bstart ∧ n.unhashed = s.n.unhashed ∧
                (n = s.n ∨ w.cpup = .ok n) := by
              split at hcpup
              · obtain rfl := Except.ok.inj hcpup
                exact ⟨h.name, hready.bstart_le, rfl, .inl rfl⟩
              · obtain ⟨h1, h2, h3⟩ := hm.name n bcpup hcpup hfind
                exact ⟨h1, h2.trans hle, h3, .inr hcpup⟩
            obtain ⟨hname, hbn, hun, hor⟩ := hn
            rcases h.reopen hheld hname hbn hun (hm.opens n hor) with ⟨f, hopen, hf, hg⟩ | ⟨err, hopen⟩
            · simp only [hopen]
              exact ⟨_, rfl, inv_ended h.ids hname hf (Int.le_of_eq hg) fun _ => hg⟩
            · simp only [hopen]
              have hold : Ready s.sb hd n s.f := hready.rename hbn hun
              exact ⟨_, rfl, inv_ended h.ids hname hold h.generation fun he => by cases he⟩

-- ---------------------------------------------------------------------------
-- Every state
-- ---------------------------------------------------------------------------

theorem Inv.start {sb : SuperBlock} {n : FileName} {answer : Int → Except Errno Unit} {flags : FMode}
    {f : Handle} (hids : sb.DistinctIds) (hname : RegName sb hd n)
    (hopen : doOpenNondir sb n answer flags = some (.ok f)) : Inv hd ⟨sb, n, f, false, false⟩ := by
  rw [doOpenNondir] at hopen
  rcases hiddenOpen_regName hname answer flags with ⟨err, -, ho⟩ | ⟨p, -, ho, hp⟩
  · rw [ho] at hopen
    cases hopen
  · rw [ho] at hopen
    simp only [Option.some.injEq, Except.ok.injEq] at hopen
    have hready : Ready sb hd n f := hopen ▸
      ready_single (f := ⟨flags, 0, 0, fun _ => none, sb.generation⟩) hids hname hp.1 hp.2.1 hp.2.2
    have hgen : f.generation = sb.generation := hopen ▸ rfl
    exact ⟨hids, hname, hready.live, hready.named, hready.before, Int.le_of_eq hgen,
      fun _ => hready.aligned, fun _ => hgen⟩

/-- Another name for the handle: unhashed is for good. -/
theorem Named.name {n n' : FileName} {f : Handle} (h : Named hd n f)
    (hun : n.unhashed = true → n'.unhashed = true) : Named hd n' f := by
  intro hh
  refine h ?_
  cases hn : n.unhashed with
  | false => rfl
  | true =>
    rw [hun hn] at hh
    cases hh

theorem Reach.inv (h : Reach hd s) : Inv hd s := by
  induction h with
  | start hids hname hopen => exact .start hids hname hopen
  | reval _ _ v hm hr ih =>
    obtain ⟨e, he, hinv, -⟩ := ih.reval hm
    rw [hr] at he
    exact Option.some.inj he ▸ hinv
  | ready _ hheld w hm hr ih =>
    obtain ⟨e, he, hinv⟩ := ih.readyToWrite hheld hm
    rw [hr] at he
    exact Option.some.inj he ▸ hinv
  | done _ ih =>
    exact ⟨ih.ids, ih.name, ih.live, ih.named, ih.before, ih.generation, ih.aligned,
      fun he => by cases he⟩
  | map _ ih => exact ⟨ih.ids, ih.name, ih.live, ih.named, ih.before, ih.generation, ih.aligned, ih.held⟩
  | name _ n hname hbefore hun ih =>
    exact ⟨ih.ids, hname, ih.live, Named.name ih.named hun, hbefore, ih.generation, ih.aligned, ih.held⟩
  | @branches s _ hheld sb n hgen hids hname hun hbefore ih =>
    have hle := ih.generation
    have hlt : s.f.generation < sb.generation := by omega
    have h0 : 0 ≤ n.d.bstart := by
      obtain ⟨k, id, -, -, hid, -⟩ := hname
      exact (SuperBlock.range_of_sbrId hid).1
    refine ⟨hids, hname, ⟨ih.live.first, ih.live.range, ih.live.distinct,
      fun b p hp => h0.trans (hbefore b p hp), ih.live.positive⟩, Named.name ih.named hun, hbefore,
      Int.le_of_lt hlt, fun hg => absurd hg (Int.ne_of_lt hlt), fun he => ?_⟩
    rw [hheld] at he
    cases he

end RegState

end Handle

end Aufs
