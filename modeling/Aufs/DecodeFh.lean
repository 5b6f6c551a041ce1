-- SUMMARY: aufs_decode_fh of export.c on any words under any length: which handles of a client it answers without harm.
import Aufs.DecodePath

/-!
# A handle from a client

The words of a handle and its length come from the network. `aufs_decode_fh` looks for the dentry in
three ways: by the cached inode, by its cached parent, and by a path. A read behind the
length, an assertion that fails and a pointer that leads nowhere end the call without an answer.
-/

namespace Aufs

-- ---------------------------------------------------------------------------
-- The words
-- ---------------------------------------------------------------------------

/-- What ends a call without an answer. -/
inductive FhFault where
  | word
  | assertion
  | pointer
  deriving DecidableEq, Repr

/-- A handle: the memory from its first word on, and the length it is given with. -/
structure FhWords where
  words : Nat → BitVec 32
  len : Int

namespace FhWords

/-- A word of the handle is read. -/
def word (fh : FhWords) (i : Nat) : Except FhFault (BitVec 32) :=
  if i < fh.len then .ok (fh.words i) else .error .word

/-- The number in two words, the low one first. -/
def inoAt (fh : FhWords) (i : Nat) : Nat := (fh.words (i + 1) ++ fh.words i).toNat

/-- `decode_ino` -/
def decodeIno (fh : FhWords) (i : Nat) : Except FhFault Nat := do
  let lo ← fh.word i
  let hi ← fh.word (i + 1)
  pure (hi ++ lo).toNat

/-- The words that are handed to the branch. -/
def tail (fh : FhWords) : List (BitVec 32) :=
  (List.range (fh.len - fhTail).toNat).map fun k => fh.words (fhTail + k)

/-- The words that aufs itself writes. -/
def fh (fh : FhWords) : Fh := ⟨fh.words 0, fh.inoAt 1, fh.inoAt 3, fh.inoAt 5, fh.words 7⟩

end FhWords

/-- `DEBUG_ON`, where the assertions are compiled in. -/
def debugOn (debug bad : Bool) : Except FhFault Unit := if debug && bad then .error .assertion else .ok ()

-- ---------------------------------------------------------------------------
-- The caches
-- ---------------------------------------------------------------------------

/-- A dentry of an inode in the cache. -/
structure FhAlias where
  id : Nat
  anon : Bool
  parentIno : Nat

/-- An inode that `ilookup` finds, with its dentries and the one that `d_find_alias` chooses. -/
structure FhCached where
  bad : Bool
  isDir : Bool
  inode : FhInode
  range : inode.ii.bstart ≤ inode.ii.bend
  aliases : List FhAlias
  dAlias : Option FhAlias

def FhCached.dentry (i : FhCached) (d : FhAlias) : FhDentry := ⟨d.id, d.anon, .own i.inode i.range⟩

/-- What `aufs_decode_fh` depends on: the build, the mount, what the caches and the lower file systems
answer, and what the caller accepts. -/
structure FhEnv where
  debug : Bool
  tracing : Bool
  w : Nat
  sb : SuperBlock
  gen : BitVec 32
  ilookup : Nat → Option FhCached
  dentryOpen : FhAlias → Option Errno
  getname : Option Errno
  calls : FhAlias → List ReadCall
  lookupOneLen : FhAlias → Name → Except Errno FhDentry
  exportable : Int → Bool
  hDecodeFh : Int → List (BitVec 32) → BitVec 32 → Except Errno (Option HFhDentry)
  path : Int → PathEnv
  acceptable : FhDentry → Bool

/-- `struct find_name_by_ino` -/
structure FindName where
  called : Nat
  found : Nat
  name : Name

/-- `find_name_by_ino` -/
def findNameByIno (ino : Nat) (a : FindName) (e : NameEnt) : Bool × FindName :=
  let a := { a with called := a.called + 1 }
  if e.ino ≠ ino then (false, a) else (true, { a with name := e.name, found := 1 })

/-- The entries of one call, until the callback has what it wants. -/
def findNames (ino : Nat) : List NameEnt → FindName → FindName
  | [], a => a
  | e :: es, a =>
    match findNameByIno ino a e with
    | (true, a) => a
    | (false, a) => findNames ino es a

/-- The loop over the calls of `vfsub_readdir`, with the error of the last one. -/
def readFindNames (ino : Nat) : List ReadCall → FindName → Option Errno × FindName
  | [], a => (none, { a with called := 0 })
  | c :: cs, a =>
    let a := findNames ino c.ents { a with called := 0 }
    if c.err = none ∧ a.found = 0 ∧ a.called ≠ 0 then readFindNames ino cs a else (c.err, a)

namespace FhEnv

/-- `decode_by_ino` -/
def decodeByIno (e : FhEnv) (ino dirIno : Nat) : Except Errno (Option FhDentry) :=
  match e.ilookup ino with
  | none => .ok none
  | some inode =>
    if inode.bad then .error .ESTALE
    else if !inode.isDir then
      .ok ((inode.aliases.find? fun d => !d.anon && d.parentIno == dirIno).map inode.dentry)
    else .ok ((inode.dAlias.filter fun d => !d.anon && d.parentIno == dirIno).map inode.dentry)

/-- `decode_by_dir_ino` -/
def decodeByDirIno (e : FhEnv) (ino dirIno : Nat) : Except Errno (Option FhDentry) :=
  match e.ilookup dirIno with
  | none => .ok none
  | some dir =>
    if dir.bad then .error .ESTALE
    else
      match dir.dAlias with
      | none => .ok none
      | some parent =>
        if parent.anon then .ok none
        else
          match e.dentryOpen parent with
          | some err => .error err
          | none =>
            match e.getname with
            | some _ => .error .ENOMEM
            | none =>
              let (err, a) := readFindNames ino (e.calls parent) ⟨0, 0, []⟩
              if a.found ≠ 0 then (e.lookupOneLen parent a.name).map some
              else
                match err with
                | some err => .error err
                | none => .ok none

/-- The environment of `decode_by_path`: the branch decodes the rest of the handle. -/
def pathEnv (e : FhEnv) (fh : FhWords) (bindex : Int) : PathEnv :=
  { e.path bindex with
    hIno := fh.inoAt 5
    decodeFh := e.hDecodeFh bindex fh.tail (fh.words 8) }

/-- `decode_by_path`: the operations of a branch that cannot be exported are no pointer. The number is
in the words before the type, so it does not matter here that it is read later. -/
def decodeByPath (e : FhEnv) (fh : FhWords) (bindex : Int) :
    Except FhFault (Except Errno (Option FhDentry)) :=
  if !e.exportable bindex then .error .pointer
  else do
    let _ ← fh.word 8
    let _ ← fh.decodeIno 5
    let r := Aufs.decodeByPath (e.pathEnv fh bindex)
    debugOn e.debug r.bug
    pure r.res

/-- The end of `aufs_decode_fh`, from `accept` on. An inode that is none, or of another file system,
has no table of hidden inodes. -/
def accept (e : FhEnv) (fh : FhWords) (bindex : Int) (dentry : FhDentry) :
    Except FhFault (Except Errno FhDentry) :=
  match dentry.inode with
  | .none => .error .pointer
  | .foreign _ => .error .pointer
  | .own inode _ =>
    if inode.ii.bstart ≤ bindex ∧ bindex ≤ inode.ii.bend ∧ (inode.ii.hIptrI bindex).isSome then do
      let hIgen ← fh.word 7
      if inode.hIgen bindex = hIgen ∧ e.acceptable dentry then pure (.ok dentry) else pure (.error .ESTALE)
    else pure (.error .ESTALE)

/-- `LKTRTrace` at the beginning of `aufs_decode_fh`, where tracing is on. -/
def trace (e : FhEnv) (fh : FhWords) : Except FhFault Unit :=
  if e.debug && e.tracing then do
    let _ ← fh.word 1
    let _ ← fh.word 0
    let _ ← fh.word 5
    pure ()
  else pure ()

/-- `aufs_decode_fh` where nothing is cached: the path, and the number of what is there. -/
def findByPath (e : FhEnv) (fh : FhWords) (bindex : Int) (ino : Nat) :
    Except FhFault (Except Errno FhDentry) := do
  let r ← e.decodeByPath fh bindex
  match r with
  | .error err => pure (.error err)
  | .ok none => pure (.error .ESTALE)
  | .ok (some dentry) =>
    match dentry.inode.ino with
    | none => .error .pointer
    | some i => if i ≠ ino then pure (.error .ESTALE) else e.accept fh bindex dentry

/-- `aufs_decode_fh` on the branch of the handle: the three ways to find the dentry. -/
def findDentry (e : FhEnv) (fh : FhWords) (bindex : Int) : Except FhFault (Except Errno FhDentry) := do
  let ino ← fh.decodeIno 1
  let dirIno ← fh.decodeIno 3
  match e.decodeByIno ino dirIno with
  | .error err => pure (.error err)
  | .ok (some dentry) => e.accept fh bindex dentry
  | .ok none =>
    match e.decodeByDirIno ino dirIno with
    | .error err => pure (.error err)
    | .ok (some dentry) => e.accept fh bindex dentry
    | .ok none => e.findByPath fh bindex ino

/-- `aufs_decode_fh` -/
def aufsDecodeFh (e : FhEnv) (fh : FhWords) : Except FhFault (Except Errno FhDentry) := do
  e.trace fh
  debugOn e.debug (decide (fh.len < fhTail))
  let a ← fh.word 0
  let (brId, sigen) := decodeBrIdSigen e.w a
  debugOn e.debug brId.msb
  let bindex := e.sb.findBrindex brId.toInt
  if bindex < 0 ∨ e.gen.toInt < sigen.toInt then pure (.error .ESTALE) else e.findDentry fh bindex

end FhEnv

-- ---------------------------------------------------------------------------
-- Calls that answer
-- ---------------------------------------------------------------------------

section

variable {ε α β : Type} {f : α → Except ε β} {a : α} {b : β}

theorem bind_eq_ok {x : Except ε α} : (x >>= f) = .ok b ↔ ∃ a, x = .ok a ∧ f a = .ok b := by
  cases x with
  | error err => exact ⟨(fun h => by cases h), fun ⟨_, h, _⟩ => by cases h⟩
  | ok a => exact ⟨(fun h => ⟨a, rfl, h⟩), fun ⟨_, h, hb⟩ => Except.ok.inj h ▸ hb⟩

theorem pure_eq_ok {a' : α} : (pure a : Except ε α) = .ok a' ↔ a = a' :=
  ⟨Except.ok.inj, congrArg Except.ok⟩

end

theorem FhWords.word_eq_ok {fh : FhWords} {i : Nat} {a : BitVec 32} :
    fh.word i = .ok a ↔ i < fh.len ∧ fh.words i = a := by
  unfold word
  split
  · rename_i h
    rw [Except.ok.injEq, and_iff_right h]
  · rename_i h
    exact ⟨(fun he => by cases he), fun ⟨hlt, _⟩ => absurd hlt h⟩

theorem FhWords.decodeIno_eq_ok {fh : FhWords} {i n : Nat} :
    fh.decodeIno i = .ok n ↔ (i : Int) + 1 < fh.len ∧ fh.inoAt i = n := by
  simp only [decodeIno, bind_eq_ok, word_eq_ok, pure_eq_ok, inoAt]
  constructor
  · rintro ⟨_, ⟨-, rfl⟩, _, ⟨h, rfl⟩, rfl⟩
    exact ⟨by omega, rfl⟩
  · rintro ⟨h, rfl⟩
    exact ⟨_, ⟨by omega, rfl⟩, _, ⟨by omega, rfl⟩, rfl⟩

theorem debugOn_eq_ok {debug bad : Bool} {u : Unit} :
    debugOn debug bad = .ok u ↔ (debug = true → bad = false) := by
  cases debug <;> cases bad <;> simp [debugOn]

namespace FhEnv

variable {e : FhEnv} {fh : FhWords} {b : Int} {d : FhDentry}

/-- The dentry has an inode of aufs, and the handle has its generation where that is compared. -/
def Accepts (fh : FhWords) (bindex : Int) (dentry : FhDentry) : Prop :=
  ∃ i h, dentry.inode = .own i h ∧
    (i.ii.bstart ≤ bindex ∧ bindex ≤ i.ii.bend ∧ (i.ii.hIptrI bindex).isSome → 7 < fh.len)

theorem accept_answers : (∃ r, e.accept fh b d = .ok r) ↔ Accepts fh b d := by
  unfold accept Accepts
  cases d.inode with
  | none => exact ⟨(fun ⟨_, h⟩ => by cases h), fun ⟨_, _, h, _⟩ => by cases h⟩
  | foreign ino => exact ⟨(fun ⟨_, h⟩ => by cases h), fun ⟨_, _, h, _⟩ => by cases h⟩
  | own i h =>
    by_cases hheld : i.ii.bstart ≤ b ∧ b ≤ i.ii.bend ∧ (i.ii.hIptrI b).isSome
    · simp only [if_pos hheld, bind_eq_ok, FhWords.word_eq_ok]
      constructor
      · rintro ⟨_, _, ⟨h7, -⟩, -⟩
        exact ⟨i, h, rfl, fun _ => h7⟩
      · rintro ⟨_, _, heq, h7⟩
        cases heq
        by_cases hc : i.hIgen b = fh.words 7 ∧ e.acceptable d = true
        · exact ⟨_, _, ⟨h7 hheld, rfl⟩, if_pos hc⟩
        · exact ⟨_, _, ⟨h7 hheld, rfl⟩, if_neg hc⟩
    · simp only [if_neg hheld]
      exact ⟨fun _ => ⟨i, h, rfl, fun hc => absurd hc hheld⟩, fun _ => ⟨_, rfl⟩⟩

/-- What `decode_by_path` needs: the branch can be exported, the handle has all of its words, and the
number is not that of `.` or `..` where that is asserted. -/
def PathAnswers (e : FhEnv) (fh : FhWords) (bindex : Int) : Prop :=
  e.exportable bindex = true ∧ 8 < fh.len ∧ (e.debug = true → ¬(e.pathEnv fh bindex).FindsDot)

theorem decodeByPath_eq_ok {r : Except Errno (Option FhDentry)} :
    e.decodeByPath fh b = .ok r ↔ e.PathAnswers fh b ∧ (Aufs.decodeByPath (e.pathEnv fh b)).res = r := by
  unfold decodeByPath PathAnswers
  cases hx : e.exportable b with
  | false => exact ⟨(fun h => by cases h), fun ⟨⟨h, _⟩, _⟩ => by cases h⟩
  | true =>
    have hbug : (Aufs.decodeByPath (e.pathEnv fh b)).bug = false ↔ ¬(e.pathEnv fh b).FindsDot := by
      rw [← decodeByPath_bug_iff, Bool.not_eq_true]
    simp only [Bool.not_true, Bool.false_eq_true, if_false, bind_eq_ok, pure_eq_ok, FhWords.word_eq_ok,
      FhWords.decodeIno_eq_ok, debugOn_eq_ok, hbug]
    constructor
    · rintro ⟨_, ⟨h8, -⟩, _, -, _, hdot, hr⟩
      exact ⟨⟨trivial, h8, hdot⟩, hr⟩
    · rintro ⟨⟨-, h8, hdot⟩, hr⟩
      exact ⟨_, ⟨h8, rfl⟩, _, ⟨by omega, rfl⟩, ⟨⟩, hdot, hr⟩

/-- What the two caches give. -/
def cached (e : FhEnv) (fh : FhWords) : Except Errno (Option FhDentry) :=
  match e.decodeByIno (fh.inoAt 1) (fh.inoAt 3) with
  | .ok none => e.decodeByDirIno (fh.inoAt 1) (fh.inoAt 3)
  | r => r

/-- What the search for the dentry needs on a branch. -/
def Finds (e : FhEnv) (fh : FhWords) (bindex : Int) : Prop :=
  4 < fh.len ∧
    (∀ d, e.cached fh = .ok (some d) → Accepts fh bindex d) ∧
    (e.cached fh = .ok none → e.PathAnswers fh bindex ∧
      ∀ d, (Aufs.decodeByPath (e.pathEnv fh bindex)).res = .ok (some d) →
        ∃ i, d.inode.ino = some i ∧ (i = fh.inoAt 1 → Accepts fh bindex d))

/-- The handles that do no harm. -/
def Harmless (e : FhEnv) (fh : FhWords) : Prop :=
  0 < fh.len ∧
    (e.debug = true → fhTail ≤ fh.len ∧ (decodeBrIdSigen e.w (fh.words 0)).1.msb = false) ∧
    ∀ b, fhBranch e.w e.sb e.gen fh.fh = .ok b → e.Finds fh b

/-- The third way answers where the path does and what is there has an inode. -/
theorem findByPath_answers {ino : Nat} : (∃ r, e.findByPath fh b ino = .ok r) ↔
    e.PathAnswers fh b ∧ ∀ d, (Aufs.decodeByPath (e.pathEnv fh b)).res = .ok (some d) →
      ∃ i, d.inode.ino = some i ∧ (i = ino → Accepts fh b d) := by
  simp only [findByPath, bind_eq_ok, decodeByPath_eq_ok]
  rcases (Aufs.decodeByPath (e.pathEnv fh b)).res with err | _ | d
  · constructor
    · rintro ⟨_, _, ⟨hp, -⟩, -⟩
      exact ⟨hp, fun d h => by cases h⟩
    · rintro ⟨hp, -⟩
      exact ⟨_, _, ⟨hp, rfl⟩, rfl⟩
  · constructor
    · rintro ⟨_, _, ⟨hp, -⟩, -⟩
      exact ⟨hp, fun d h => by cases h⟩
    · rintro ⟨hp, -⟩
      exact ⟨_, _, ⟨hp, rfl⟩, rfl⟩
  · constructor
    · rintro ⟨r, _, ⟨hp, rfl⟩, hr⟩
      refine ⟨hp, fun d' hd' => ?_⟩
      obtain rfl : d = d' := Option.some.inj (Except.ok.inj hd')
      dsimp only at hr
      cases hi : d.inode.ino with
      | none =>
        rw [hi] at hr
        cases hr
      | some i =>
        refine ⟨i, rfl, fun hino => (accept_answers (e := e)).mp ⟨r, ?_⟩⟩
        rw [hi] at hr
        dsimp only at hr
        rwa [if_neg (fun h => h hino)] at hr
    · rintro ⟨hp, hd⟩
      obtain ⟨i, hi, hacc⟩ := hd d rfl
      by_cases hino : i = ino
      · obtain ⟨r, hr⟩ := accept_answers.mpr (hacc hino)
        refine ⟨r, _, ⟨hp, rfl⟩, ?_⟩
        dsimp only
        rw [hi]
        dsimp only
        rwa [if_neg (fun h => h hino)]
      · refine ⟨.error .ESTALE, _, ⟨hp, rfl⟩, ?_⟩
        dsimp only
        rw [hi]
        exact if_pos hino

/-- The search answers where it finds what it needs. -/
theorem findDentry_answers : (∃ r, e.findDentry fh b = .ok r) ↔ e.Finds fh b := by
  unfold Finds
  by_cases h4 : 4 < fh.len
  case neg =>
    simp only [findDentry, bind_eq_ok, FhWords.decodeIno_eq_ok]
    constructor
    · rintro ⟨_, _, -, _, ⟨h, -⟩, -⟩
      exact absurd (by omega) h4
    · rintro ⟨h, -⟩
      exact absurd h h4
  have h₁ : fh.decodeIno 1 = .ok (fh.inoAt 1) := FhWords.decodeIno_eq_ok.mpr ⟨by omega, rfl⟩
  have h₃ : fh.decodeIno 3 = .ok (fh.inoAt 3) := FhWords.decodeIno_eq_ok.mpr ⟨by omega, rfl⟩
  have hacc : ∀ d, (∃ r, e.accept fh b d = .ok r) ↔ Accepts fh b d := fun _ => accept_answers
  rw [and_iff_right h4]
  rcases hino : e.decodeByIno (fh.inoAt 1) (fh.inoAt 3) with err | _ | d
  · simp [findDentry, cached, bind, Except.bind, h₁, h₃, hino, pure_eq_ok]
  · rcases hdir : e.decodeByDirIno (fh.inoAt 1) (fh.inoAt 3) with err | _ | d
    · simp [findDentry, cached, bind, Except.bind, h₁, h₃, hino, hdir, pure_eq_ok]
    · simp [findDentry, cached, bind, Except.bind, h₁, h₃, hino, hdir, findByPath_answers]
    · simp [findDentry, cached, bind, Except.bind, h₁, h₃, hino, hdir, hacc]
  · simp [findDentry, cached, bind, Except.bind, h₁, h₃, hino, hacc]

theorem trace_answers (h : e.debug = true → fhTail ≤ fh.len) : e.trace fh = .ok () := by
  unfold trace
  split
  · rename_i hd
    have h9 : (9 : Int) ≤ fh.len := h (Bool.and_eq_true_iff.mp hd).1
    simp only [bind_eq_ok, FhWords.word_eq_ok]
    exact ⟨_, ⟨by omega, rfl⟩, _, ⟨by omega, rfl⟩, _, ⟨by omega, rfl⟩, rfl⟩
  · rfl

-- ---------------------------------------------------------------------------
-- The dentry that is answered
-- ---------------------------------------------------------------------------

/-- The inode of aufs that a dentry has, or none. -/
def inodeOf (d : FhDentry) : FhInode :=
  match d.inode with
  | .own inode _ => inode
  | _ => ⟨0, ⟨0, -1, fun _ => none, 0⟩, fun _ => 0⟩

/-- The three ways, where none of them does harm. -/
def search (e : FhEnv) (fh : FhWords) (bindex : Int) : Except Errno (Option FhDentry) :=
  match e.cached fh with
  | .ok none =>
    match (Aufs.decodeByPath (e.pathEnv fh bindex)).res with
    | .ok (some d) => if d.inode.ino = some (fh.inoAt 1) then .ok (some d) else .error .ESTALE
    | r => r
  | r => r

/-- What becomes of a dentry in the end. -/
def verdict (e : FhEnv) (fh : FhWords) (bindex : Int) (d : FhDentry) : Except Errno FhDentry :=
  if ((inodeOf d).ii.bstart ≤ bindex ∧ bindex ≤ (inodeOf d).ii.bend ∧ ((inodeOf d).ii.hIptrI bindex).isSome) ∧
    (inodeOf d).hIgen bindex = fh.words 7 ∧ e.acceptable d then .ok d
  else .error .ESTALE

theorem accept_ok {r : Except Errno FhDentry} (h : e.accept fh b d = .ok r) : r = e.verdict fh b d := by
  unfold accept at h
  cases hd : d.inode with
  | none =>
    rw [hd] at h
    cases h
  | foreign ino =>
    rw [hd] at h
    cases h
  | own i hr =>
    rw [hd] at h
    dsimp only at h
    have hi : inodeOf d = i := by rw [inodeOf, hd]
    rw [verdict, hi]
    split at h
    · rename_i hheld
      simp only [bind_eq_ok, FhWords.word_eq_ok] at h
      obtain ⟨_, ⟨-, rfl⟩, h⟩ := h
      split at h
      · rename_i hc
        rw [if_pos ⟨hheld, hc⟩]
        exact (Except.ok.inj h).symm
      · rename_i hc
        rw [if_neg fun h => hc h.2]
        exact (Except.ok.inj h).symm
    · rename_i hheld
      rw [if_neg fun hc => hheld hc.1]
      exact (Except.ok.inj h).symm

/-- What the branch answers. -/
def answer (e : FhEnv) (fh : FhWords) (bindex : Int) : Except Errno FhDentry :=
  match e.search fh bindex with
  | .error err => .error err
  | .ok none => .error .ESTALE
  | .ok (some d) => e.verdict fh bindex d

theorem findByPath_ok {r : Except Errno FhDentry} (h : e.findByPath fh b (fh.inoAt 1) = .ok r)
    (hc : e.cached fh = .ok none) : r = e.answer fh b := by
  simp only [findByPath, bind_eq_ok, decodeByPath_eq_ok] at h
  obtain ⟨_, ⟨-, hres⟩, h⟩ := h
  unfold answer search
  rw [hc, hres]
  rename_i res
  rcases res with err | _ | d
  · exact (Except.ok.inj h).symm
  · exact (Except.ok.inj h).symm
  · dsimp only at h ⊢
    cases hi : d.inode.ino with
    | none =>
      rw [hi] at h
      cases h
    | some i =>
      rw [hi] at h
      dsimp only at h
      split at h
      · rename_i hne
        rw [if_neg fun he => hne (Option.some.inj he)]
        exact (Except.ok.inj h).symm
      · rename_i heq
        rw [if_pos (congrArg some (not_not.mp heq))]
        exact accept_ok h

theorem findDentry_ok {r : Except Errno FhDentry} (h : e.findDentry fh b = .ok r) : r = e.answer fh b := by
  simp only [findDentry, bind_eq_ok, FhWords.decodeIno_eq_ok] at h
  obtain ⟨_, ⟨-, rfl⟩, _, ⟨-, rfl⟩, h⟩ := h
  rcases hino : e.decodeByIno (fh.inoAt 1) (fh.inoAt 3) with err | _ | d
  · rw [hino] at h
    simp only [answer, search, cached, hino]
    exact (Except.ok.inj h).symm
  · rw [hino] at h
    rcases hdir : e.decodeByDirIno (fh.inoAt 1) (fh.inoAt 3) with err | _ | d
    · rw [hdir] at h
      simp only [answer, search, cached, hino, hdir]
      exact (Except.ok.inj h).symm
    · rw [hdir] at h
      exact findByPath_ok h (by simp only [cached, hino, hdir])
    · rw [hdir] at h
      simp only [answer, search, cached, hino, hdir]
      exact accept_ok h
  · rw [hino] at h
    simp only [answer, search, cached, hino]
    exact accept_ok h

/-- An answer is the one of `aufs_decode_fh` on the words as fields. -/
theorem aufsDecodeFh_ok {r : Except Errno FhDentry} (h : e.aufsDecodeFh fh = .ok r) :
    r = Aufs.aufsDecodeFh e.w e.sb e.gen fh.fh (e.search fh) inodeOf e.acceptable := by
  simp only [aufsDecodeFh, bind_eq_ok, FhWords.word_eq_ok] at h
  obtain ⟨_, -, _, -, _, ⟨-, rfl⟩, _, -, h⟩ := h
  split at h
  · rename_i hstale
    have hbranch : fhBranch e.w e.sb e.gen fh.fh = .error .ESTALE := if_pos hstale
    simp only [Aufs.aufsDecodeFh, hbranch]
    exact (Except.ok.inj h).symm
  · rename_i hok
    have hbranch : fhBranch e.w e.sb e.gen fh.fh =
        .ok (e.sb.findBrindex (decodeBrIdSigen e.w (fh.words 0)).1.toInt) := fhBranch_eq_ok.mpr ⟨hok, rfl⟩
    rw [findDentry_ok h]
    simp only [Aufs.aufsDecodeFh, hbranch, answer]
    rcases e.search fh (e.sb.findBrindex (decodeBrIdSigen e.w (fh.words 0)).1.toInt) with err | _ | d
    · rfl
    · rfl
    · rfl

end FhEnv

/-- `aufs_decode_fh` answers with a dentry or an error, without a read behind the length, a failed
assertion or a stray pointer, exactly for the harmless handles: a handle has its first word; with
the assertions compiled in it has all nine words and a branch id that is not negative; and on the
branch of the handle the search for the dentry finds what it needs. -/
theorem aufsDecodeFh_answers_iff (e : FhEnv) (fh : FhWords) :
    (∃ r, e.aufsDecodeFh fh = .ok r) ↔ e.Harmless fh := by
  have hbranch : ∀ b, fhBranch e.w e.sb e.gen fh.fh = .ok b ↔
      ¬(e.sb.findBrindex (decodeBrIdSigen e.w (fh.words 0)).1.toInt < 0 ∨
        e.gen.toInt < (decodeBrIdSigen e.w (fh.words 0)).2.toInt) ∧
        e.sb.findBrindex (decodeBrIdSigen e.w (fh.words 0)).1.toInt = b :=
    fun _ => fhBranch_eq_ok
  constructor
  · rintro ⟨r, hr⟩
    simp only [FhEnv.aufsDecodeFh, bind_eq_ok, FhWords.word_eq_ok, debugOn_eq_ok,
      decide_eq_false_iff_not, Int.not_lt] at hr
    obtain ⟨_, -, _, hlen, _, ⟨h0, rfl⟩, _, hid, hr⟩ := hr
    refine ⟨h0, fun hd => ⟨hlen hd, hid hd⟩, fun b hb => ?_⟩
    obtain ⟨hne, rfl⟩ := (hbranch b).mp hb
    rw [if_neg hne] at hr
    exact FhEnv.findDentry_answers.mp ⟨r, hr⟩
  · rintro ⟨h0, hdebug, hfind⟩
    have htrace := FhEnv.trace_answers (e := e) fun hd => (hdebug hd).1
    simp only [FhEnv.aufsDecodeFh, bind_eq_ok, FhWords.word_eq_ok, debugOn_eq_ok,
      decide_eq_false_iff_not, Int.not_lt, htrace]
    by_cases hstale : e.sb.findBrindex (decodeBrIdSigen e.w (fh.words 0)).1.toInt < 0 ∨
        e.gen.toInt < (decodeBrIdSigen e.w (fh.words 0)).2.toInt
    · exact ⟨.error .ESTALE, (), trivial, (), fun hd => (hdebug hd).1, _, ⟨h0, rfl⟩, (), fun hd => (hdebug hd).2,
        if_pos hstale⟩
    · obtain ⟨r, hr⟩ := FhEnv.findDentry_answers.mpr (hfind _ ((hbranch _).mpr ⟨hstale, rfl⟩))
      exact ⟨r, (), trivial, (), fun hd => (hdebug hd).1, _, ⟨h0, rfl⟩, (), fun hd => (hdebug hd).2,
        (if_neg hstale).trans hr⟩

-- ---------------------------------------------------------------------------
-- A handle that leads nowhere
-- ---------------------------------------------------------------------------

/-- A mount with nothing in its caches, whose branches cannot be exported. -/
def uncachedEnv (debug : Bool) : FhEnv where
  debug := debug
  tracing := false
  w := 16
  sb := exportSb
  gen := 1
  ilookup _ := none
  dentryOpen _ := none
  getname := none
  calls _ := []
  lookupOneLen _ _ := .error .ENOENT
  exportable _ := false
  hDecodeFh _ _ _ := .ok none
  path _ := deepFile 7 [] []
  acceptable _ := true

/-- Handles with the first word `a`. -/
def fhOf (a : BitVec 32) (len : Int) : FhWords := ⟨fun i => if i = 0 then a else 0, len⟩

/-- A short handle fails an assertion, or is read behind its end; a long one fails an assertion if its
first bit is set, and follows the null pointer of a branch that cannot be exported. -/
theorem uncachedEnv_harmed :
    (uncachedEnv true).aufsDecodeFh (fhOf 0x10001 8) = .error .assertion ∧
      (uncachedEnv false).aufsDecodeFh (fhOf 0x10001 3) = .error .word ∧
      (uncachedEnv true).aufsDecodeFh (fhOf 0x80000000 9) = .error .assertion ∧
      (uncachedEnv true).aufsDecodeFh (fhOf 0x10001 9) = .error .pointer := by
  refine ⟨by rfl, by rfl, by rfl, by rfl⟩

end Aufs
