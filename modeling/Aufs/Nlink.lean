-- SUMMARY: The link counts of directories: recomputed from the lower ones, counted up and down, and what they drift to.
import Aufs.Basic
import Mathlib.Algebra.Order.Ring.Nat
import Mathlib.Data.List.Basic
import Mathlib.Logic.Function.Basic

/-!
# Link counts of directories

`au_cpup_attr_nlink` computes `i_nlink` of a directory from its hidden directories.
Between two such calls `mkdir` counts it up, the removal of a directory on the first
branch counts it down, and a branch of the root adds or takes off what it has. A
filesystem that always reports one link gives the recomputation nothing to count the
subdirectories with, but each of them is still counted down when it is removed.

The links that a directory was given and that were taken from it since its count was last
computed are kept next to it, as natural numbers. The root is directory 0.
-/

namespace Aufs

/-- `i_nlink`, an unsigned integer of 32 bits -/
abbrev Nlink : Type := BitVec 32

/-- The hidden directories of a directory: `ibstart`, the link count of the first one, and those of
the branches below, as far as they have one. -/
structure HiddenDirs where
  ibstart : Nat
  first : Nlink
  rest : List (Option Nlink)

namespace DirNlink

-- ---------------------------------------------------------------------------
-- The functions
-- ---------------------------------------------------------------------------

/-- `au_add_nlink` -/
def auAddNlink (dir hDir : Nlink) : Nlink :=
  let n := dir + (hDir - 2)
  if hDir < 2 then n + 2 else n

/-- `au_sub_nlink` -/
def auSubNlink (dir hDir : Nlink) : Nlink :=
  let n := dir - (hDir - 2)
  if hDir < 2 then n - 2 else n

/-- The loop of `au_cpup_attr_nlink` over the hidden inodes below the first one. -/
def addNlinks (dir : Nlink) : List (Option Nlink) → Nlink
  | [] => dir
  | none :: rest => addNlinks dir rest
  | some hDir :: rest => addNlinks (auAddNlink dir hDir) rest

/-- `au_cpup_attr_nlink` -/
def auCpupAttrNlink (hd : HiddenDirs) : Nlink := addNlinks hd.first hd.rest

/-- `au_cpup_attr_all`, as far as `i_nlink` goes -/
def auCpupAttrAll (hd : HiddenDirs) (nlink : Nlink) : Nlink :=
  if 0 < nlink then auCpupAttrNlink hd else nlink

end DirNlink

open DirNlink

/-- What an operation does to `i_nlink` of one directory. -/
inductive NlinkChange where
  | keep
  | inc
  | dec
  | clear
  | attrNlink (hd : HiddenDirs)
  | attrAll (hd : HiddenDirs)
  | add (hDir : Nlink)
  | sub (hDir : Nlink)

/-- The count after a change. -/
def NlinkChange.apply : NlinkChange → Nlink → Nlink
  | keep, n => n
  | inc, n => n + 1
  | dec, n => n - 1
  | clear, _ => 0
  | attrNlink hd, _ => auCpupAttrNlink hd
  | attrAll hd, n => auCpupAttrAll hd n
  | add hDir, n => auAddNlink n hDir
  | sub hDir, n => auSubNlink n hDir

/-- What happens to directories. -/
inductive NlinkEvent where
  /-- the hidden directories change, and report any link counts -/
  | lower (dir : Nat) (hd : HiddenDirs)
  /-- a directory is found or made: it gets an inode (`set_inode`) -/
  | iget (dir : Nat) (hd : HiddenDirs)
  /-- the end of `aufs_mkdir` in the directory -/
  | mkdir (dir : Nat)
  /-- the end of `aufs_rmdir` of the directory -/
  | rmdir (dir : Nat)
  /-- the end of `rmdir_whtmp` in the directory, at once or later -/
  | rmdirWhtmp (dir bindex : Nat)
  /-- the end of `aufs_rename` of a directory -/
  | rename (srcDir dir : Nat)
  /-- `au_cpup_attr_all` of the directory -/
  | refresh (dir : Nat)
  /-- the directory is copied up (`cpup_entry`) -/
  | cpupDir (dir : Nat)
  /-- the end of `au_br_add`: the root gets a hidden directory -/
  | addBranch (bindex : Nat) (hDir : Nlink)
  /-- the end of `au_br_del` -/
  | delBranch (bindex : Nat)

/-- The directories that have an inode, with their hidden directories. -/
abbrev NlinkDirs : Type := Nat → Option HiddenDirs

/-- A change of one directory only. -/
def changeOf (dir : Nat) (c : NlinkChange) : Nat → NlinkChange := fun d => if d = dir then c else .keep

/-- The branch that is added to the root. -/
def HiddenDirs.insert (hd : HiddenDirs) (bindex : Nat) (hDir : Nlink) : HiddenDirs :=
  match bindex with
  | 0 => { hd with first := hDir, rest := some hd.first :: hd.rest }
  | b + 1 => { hd with rest := hd.rest.insertIdx b (some hDir) }

namespace NlinkEvent

/-- What `au_br_del` does to the root, if it has another branch. -/
def delRoot (hd : HiddenDirs) : Nat → Option (HiddenDirs × NlinkChange)
  | 0 =>
    match hd.rest with
    | some first :: rest =>
      let hd := { hd with first, rest }
      some (hd, .attrAll hd)
    | _ => none
  | b + 1 =>
    match hd.rest[b]? with
    | some (some hDir) => some ({ hd with rest := hd.rest.eraseIdx b }, .sub hDir)
    | _ => none

/-- The directories after an event, and what it does to the counts. -/
def effect (dirs : NlinkDirs) : NlinkEvent → NlinkDirs × (Nat → NlinkChange)
  | lower dir hd => (if (dirs dir).isSome then Function.update dirs dir (some hd) else dirs, fun _ => .keep)
  | iget dir hd =>
    if (dirs dir).isSome then (dirs, fun _ => .keep)
    else (Function.update dirs dir (some hd), changeOf dir (.attrNlink hd))
  | mkdir dir => (dirs, changeOf dir .inc)
  | rmdir dir => if dir = 0 then (dirs, fun _ => .keep) else (Function.update dirs dir none, changeOf dir .clear)
  | rmdirWhtmp dir bindex =>
    match dirs dir with
    | none => (dirs, fun _ => .keep)
    | some hd => (dirs, if hd.ibstart = bindex then changeOf dir .dec else fun _ => .keep)
  | rename srcDir dir =>
    (dirs, fun d => match dirs d with
      | none => .keep
      | some hd => if d = srcDir ∨ d = dir then .attrNlink hd else .keep)
  | refresh dir =>
    match dirs dir with
    | none => (dirs, fun _ => .keep)
    | some hd => (dirs, changeOf dir (.attrAll hd))
  | cpupDir dir =>
    match dirs dir with
    | none => (dirs, fun _ => .keep)
    | some hd => (dirs, changeOf dir (.attrNlink hd))
  | addBranch bindex hDir =>
    match dirs 0 with
    | none => (dirs, fun _ => .keep)
    | some hd =>
      let hd := hd.insert bindex hDir
      (Function.update dirs 0 (some hd), changeOf 0 (if bindex = 0 then .attrAll hd else .add hDir))
  | delBranch bindex =>
    match (dirs 0).bind (delRoot · bindex) with
    | none => (dirs, fun _ => .keep)
    | some (hd, c) => (Function.update dirs 0 (some hd), changeOf 0 c)

end NlinkEvent

/-- The directories and their counts. -/
structure NlinkState where
  dirs : NlinkDirs
  nlink : Nat → Nlink

namespace NlinkState

/-- The state after an event. -/
def step (s : NlinkState) (e : NlinkEvent) : NlinkState where
  dirs := (e.effect s.dirs).1
  nlink := fun d => ((e.effect s.dirs).2 d).apply (s.nlink d)

/-- The state after a run. -/
def after (s : NlinkState) : List NlinkEvent → NlinkState
  | [] => s
  | e :: run => (s.step e).after run

/-- The mount with its first branch, which the root takes its attributes from. -/
def start (hDir : Nlink) : NlinkState where
  dirs := Function.update (fun _ => none) 0 (some ⟨0, hDir, []⟩)
  nlink := fun _ => auCpupAttrAll ⟨0, hDir, []⟩ 2

/-- Every directory has a link. -/
def Positive (s : NlinkState) : Prop := ∀ d hd, s.dirs d = some hd → 0 < (s.nlink d).toNat

end NlinkState

namespace DirNlink

/-- The links that a hidden directory below the first one gives: those of its subdirectories, or
all that it has if it has less than two. -/
def gain (hDir : Nlink) : Nat := if hDir.toNat < 2 then hDir.toNat else hDir.toNat - 2

/-- The links that the hidden directories give together. -/
def total (hd : HiddenDirs) : Nat := hd.first.toNat + (hd.rest.map fun h => (h.map gain).getD 0).sum

end DirNlink

/-- The count of a directory falls below zero. -/
def NlinkChange.Wraps (n : Nlink) : NlinkChange → Prop
  | dec => n.toNat = 0
  | sub hDir => n.toNat < gain hDir
  | _ => False

namespace NlinkState

/-- An event takes the count of a directory below zero. -/
def Wraps (s : NlinkState) (e : NlinkEvent) : Prop :=
  ∃ d hd, s.dirs d = some hd ∧ ((e.effect s.dirs).2 d).Wraps (s.nlink d)

/-- In every state of a run the directories have links, and no event takes a count below zero. -/
def Linked (s : NlinkState) : List NlinkEvent → Prop
  | [] => s.Positive
  | e :: run => s.Positive ∧ ¬ s.Wraps e ∧ (s.step e).Linked run

end NlinkState

-- ---------------------------------------------------------------------------
-- What was given and taken since
-- ---------------------------------------------------------------------------

/-- What happened to a directory since its count was last computed: the hidden directories that it
was computed from, and the links given and taken after it. -/
structure NlinkSince where
  hd : HiddenDirs
  given : Nat
  taken : Nat

/-- An event and what happened since. -/
def NlinkChange.record : NlinkChange → NlinkSince → NlinkSince
  | keep, s => s
  | inc, s => { s with given := s.given + 1 }
  | dec, s => { s with taken := s.taken + 1 }
  | clear, s => s
  | attrNlink hd, _ => ⟨hd, 0, 0⟩
  | attrAll hd, _ => ⟨hd, 0, 0⟩
  | add hDir, s => { s with given := s.given + gain hDir }
  | sub hDir, s => { s with taken := s.taken + gain hDir }

/-- The directories and what happened to them. No count is looked at. -/
structure NlinkLog where
  dirs : NlinkDirs
  since : Nat → NlinkSince

namespace NlinkLog

/-- The log after an event. -/
def step (l : NlinkLog) (e : NlinkEvent) : NlinkLog where
  dirs := (e.effect l.dirs).1
  since := fun d => ((e.effect l.dirs).2 d).record (l.since d)

/-- The mount with its first branch. -/
def start (hDir : Nlink) : NlinkLog where
  dirs := Function.update (fun _ => none) 0 (some ⟨0, hDir, []⟩)
  since := fun _ => ⟨⟨0, hDir, []⟩, 0, 0⟩

/-- Something holds of what happened to every directory, all along a run. -/
def Along (P : NlinkSince → Prop) (l : NlinkLog) : List NlinkEvent → Prop
  | [] => ∀ d hd, l.dirs d = some hd → P (l.since d)
  | e :: run => (∀ d hd, l.dirs d = some hd → P (l.since d)) ∧ Along P (l.step e) run

end NlinkLog

namespace NlinkSince

/-- Fewer links were taken than there are: those of the hidden directories and those given. -/
def FewerTaken (s : NlinkSince) : Prop := s.taken < total s.hd + s.given

/-- The links do not exceed an unsigned integer. -/
def Fits (s : NlinkSince) : Prop := total s.hd + s.given < s.taken + 4294967296

instance (s : NlinkSince) : Decidable s.FewerTaken :=
  inferInstanceAs (Decidable (s.taken < total s.hd + s.given))

instance (s : NlinkSince) : Decidable s.Fits :=
  inferInstanceAs (Decidable (total s.hd + s.given < s.taken + 4294967296))

/-- The count is what the hidden directories and what was given and taken since say. -/
def Counts (n : Nlink) (s : NlinkSince) : Prop := n.toNat + s.taken = total s.hd + s.given

end NlinkSince

open NlinkSince

-- ---------------------------------------------------------------------------
-- One change
-- ---------------------------------------------------------------------------

namespace DirNlink

private theorem lt_two (hDir : Nlink) : hDir < 2 ↔ hDir.toNat < 2 := BitVec.lt_def

theorem auAddNlink_toNat (dir hDir : Nlink) :
    (auAddNlink dir hDir).toNat = (dir.toNat + gain hDir) % 4294967296 := by
  have hd := dir.isLt
  have hh := hDir.isLt
  simp only [auAddNlink, gain, lt_two]
  by_cases hlt : hDir.toNat < 2
  case pos =>
    rw [if_pos hlt, if_pos hlt]
    bv_omega
  case neg =>
    rw [if_neg hlt, if_neg hlt]
    bv_omega

theorem auSubNlink_toNat (dir hDir : Nlink) :
    (auSubNlink dir hDir).toNat = (dir.toNat + 4294967296 - gain hDir) % 4294967296 := by
  have hd := dir.isLt
  have hh := hDir.isLt
  simp only [auSubNlink, gain, lt_two]
  by_cases hlt : hDir.toNat < 2
  case pos =>
    rw [if_pos hlt, if_pos hlt]
    bv_omega
  case neg =>
    rw [if_neg hlt, if_neg hlt]
    bv_omega

theorem addNlinks_toNat (rest : List (Option Nlink)) (dir : Nlink) :
    (addNlinks dir rest).toNat =
      (dir.toNat + (rest.map fun h => (h.map gain).getD 0).sum) % 4294967296 := by
  induction rest generalizing dir with
  | nil =>
    simp only [addNlinks, List.map_nil, List.sum_nil]
    exact (Nat.mod_eq_of_lt dir.isLt).symm
  | cons h rest ih =>
    cases h with
    | none =>
      simp only [addNlinks, List.map_cons, List.sum_cons, Option.map_none, Option.getD_none, ih]
      omega
    | some hDir =>
      simp only [addNlinks, List.map_cons, List.sum_cons, Option.map_some, Option.getD_some, ih,
        auAddNlink_toNat]
      omega

theorem auCpupAttrNlink_toNat (hd : HiddenDirs) :
    (auCpupAttrNlink hd).toNat = total hd % 4294967296 := addNlinks_toNat hd.rest hd.first

end DirNlink

/-- A count that is computed anew is right, unless it does not fit. -/
theorem NlinkChange.counts_attrNlink {hd : HiddenDirs} (n : Nlink) {s : NlinkSince}
    (hfits : ((attrNlink hd).record s).Fits) :
    Counts ((attrNlink hd).apply n) ((attrNlink hd).record s) := by
  simp only [record, Fits] at hfits
  simp only [Counts, apply, record, auCpupAttrNlink_toNat]
  omega

/-- A change keeps a count right, if the links are neither too many nor too few. -/
theorem NlinkChange.counts_record {c : NlinkChange} {n : Nlink} {s : NlinkSince}
    (hn : Counts n s) (hpos : 0 < n.toNat) (hclear : c ≠ .clear) (hfits : (c.record s).Fits)
    (hwraps : ¬ c.Wraps n) : Counts (c.apply n) (c.record s) := by
  have hlt := n.isLt
  cases c with
  | keep => exact hn
  | clear => exact absurd rfl hclear
  | attrNlink hd => exact counts_attrNlink n hfits
  | attrAll hd =>
    have happly : (attrAll hd).apply n = (attrNlink hd).apply n := by
      apply if_pos
      rw [BitVec.lt_def]
      exact hpos
    rw [happly]
    exact counts_attrNlink (s := s) n hfits
  | inc =>
    simp only [Counts, Fits, record, apply] at hn hfits ⊢
    bv_omega
  | dec =>
    simp only [Counts, Wraps, record, apply] at hn hwraps ⊢
    bv_omega
  | add hDir =>
    simp only [Counts, Fits, record, apply, auAddNlink_toNat] at hn hfits ⊢
    omega
  | sub hDir =>
    simp only [Counts, Wraps, record, apply, auSubNlink_toNat] at hn hwraps ⊢
    omega

/-- A change that takes a count below zero takes more links than there are. -/
theorem NlinkChange.not_fewerTaken {c : NlinkChange} {n : Nlink} {s : NlinkSince}
    (hn : Counts n s) (hwraps : c.Wraps n) : ¬ (c.record s).FewerTaken := by
  cases c with
  | dec =>
    simp only [Counts, Wraps, FewerTaken, record] at hn hwraps ⊢
    omega
  | sub hDir =>
    simp only [Counts, Wraps, FewerTaken, record] at hn hwraps ⊢
    omega
  | _ => exact absurd hwraps id

-- ---------------------------------------------------------------------------
-- One event
-- ---------------------------------------------------------------------------

/-- What an event can do to a directory: it is there before and after the event, or not at all; its
count is computed when it gets an inode; or it is removed. -/
inductive NlinkChange.On (old new : Option HiddenDirs) : NlinkChange → Prop where
  | same {c} (hlive : new.isSome = old.isSome) (hclear : c ≠ .clear) : On old new c
  | found {hd} : On old new (.attrNlink hd)
  | removed (hgone : new = none) : On old new .clear

/-- A change of one directory only. -/
theorem NlinkChange.on_changeOf {dirs : NlinkDirs} {dir : Nat} {c : NlinkChange} (d : Nat)
    {new : Option HiddenDirs} (h : On (dirs dir) new c) :
    On (dirs d) (Function.update dirs dir new d) (changeOf dir c d) := by
  by_cases hd : d = dir
  case pos =>
    subst hd
    rw [Function.update_self, changeOf, if_pos rfl]
    exact h
  case neg =>
    rw [Function.update_of_ne hd, changeOf, if_neg hd]
    exact On.same rfl nofun

theorem NlinkChange.on_keep (old : Option HiddenDirs) : On old old .keep := by
  apply On.same rfl
  intro h
  cases h

/-- A change of a directory that does not come or go. -/
theorem NlinkChange.on_changeOf_same {dirs : NlinkDirs} {dir : Nat} {c : NlinkChange} (d : Nat)
    (hclear : c ≠ .clear) : On (dirs d) (dirs d) (changeOf dir c d) := by
  have hsame : On (dirs dir) (dirs dir) c := On.same rfl hclear
  have hon := on_changeOf d hsame
  rwa [Function.update_eq_self] at hon

/-- Removing a branch does not remove the root. -/
theorem NlinkEvent.delRoot_ne_clear {hd hd' : HiddenDirs} {bindex : Nat} {c : NlinkChange}
    (h : delRoot hd bindex = some (hd', c)) : c ≠ .clear := by
  rintro rfl
  cases bindex with
  | zero =>
    rcases hrest : hd.rest with _ | ⟨_ | first, rest⟩ <;> simp [delRoot, hrest] at h
  | succ b =>
    rcases hget : hd.rest[b]? with _ | _ | hDir <;> simp [delRoot, hget] at h

theorem NlinkEvent.on_effect (dirs : NlinkDirs) (e : NlinkEvent) (d : Nat) :
    ((e.effect dirs).2 d).On (dirs d) ((e.effect dirs).1 d) := by
  cases e with
  | lower dir hd =>
    simp only [effect]
    rcases hlive : (dirs dir).isSome with _ | _
    case false => exact NlinkChange.on_keep _
    case true =>
      by_cases h : d = dir
      case pos =>
        subst h
        rw [if_pos rfl, Function.update_self]
        exact .same hlive.symm (by simp)
      case neg =>
        rw [if_pos rfl, Function.update_of_ne h]
        exact NlinkChange.on_keep _
  | iget dir hd =>
    simp only [effect]
    rcases (dirs dir).isSome with _ | _
    case false => exact NlinkChange.on_changeOf d .found
    case true => exact NlinkChange.on_keep _
  | mkdir dir => exact NlinkChange.on_changeOf_same d (by simp)
  | rmdir dir =>
    simp only [effect]
    by_cases hroot : dir = 0
    case pos =>
      rw [if_pos hroot]
      exact NlinkChange.on_keep _
    case neg =>
      rw [if_neg hroot]
      exact NlinkChange.on_changeOf d (.removed rfl)
  | rmdirWhtmp dir bindex =>
    simp only [effect]
    rcases dirs dir with _ | hd
    case none => exact NlinkChange.on_keep _
    case some =>
      by_cases hfirst : hd.ibstart = bindex
      case pos =>
        simp only [if_pos hfirst]
        exact NlinkChange.on_changeOf_same d (by simp)
      case neg =>
        simp only [if_neg hfirst]
        exact NlinkChange.on_keep _
  | rename srcDir dir =>
    simp only [effect]
    rcases dirs d with _ | hd
    case none => exact NlinkChange.on_keep _
    case some =>
      by_cases hmoved : d = srcDir ∨ d = dir
      case pos =>
        simp only [if_pos hmoved]
        exact .found
      case neg =>
        simp only [if_neg hmoved]
        exact NlinkChange.on_keep _
  | refresh dir =>
    simp only [effect]
    rcases dirs dir with _ | hd
    case none => exact NlinkChange.on_keep _
    case some => exact NlinkChange.on_changeOf_same d (by simp)
  | cpupDir dir =>
    simp only [effect]
    rcases dirs dir with _ | hd
    case none => exact NlinkChange.on_keep _
    case some => exact NlinkChange.on_changeOf_same d (by simp)
  | addBranch bindex hDir =>
    simp only [effect]
    rcases hroot : dirs 0 with _ | hd
    case none => exact NlinkChange.on_keep _
    case some =>
      apply NlinkChange.on_changeOf d
      rw [hroot]
      refine .same rfl ?_
      split <;> simp
  | delBranch bindex =>
    simp only [effect]
    rcases hroot : dirs 0 with _ | hd
    case none => exact NlinkChange.on_keep _
    case some =>
      simp only [Option.bind_some]
      rcases hdel : delRoot hd bindex with _ | ⟨hd', c⟩
      case none => exact NlinkChange.on_keep _
      case some =>
        apply NlinkChange.on_changeOf d
        rw [hroot]
        exact .same rfl (delRoot_ne_clear hdel)

/-- A directory is there after an event: it was there before, or its count is computed. -/
theorem NlinkEvent.live_of_effect {dirs : NlinkDirs} {e : NlinkEvent} {d : Nat} {hd : HiddenDirs}
    (h : (e.effect dirs).1 d = some hd) :
    (∃ hd', dirs d = some hd') ∧ (e.effect dirs).2 d ≠ .clear ∨
      ∃ hd', (e.effect dirs).2 d = .attrNlink hd' := by
  have hon := e.on_effect dirs d
  generalize (e.effect dirs).2 d = c at hon
  cases hon with
  | same hlive hclear =>
    rw [h] at hlive
    exact Or.inl ⟨Option.isSome_iff_exists.mp hlive.symm, hclear⟩
  | found => exact Or.inr ⟨_, rfl⟩
  | removed hgone =>
    rw [h] at hgone
    cases hgone

/-- A directory whose count falls below zero is still there after the event. -/
theorem NlinkEvent.live_of_wraps {dirs : NlinkDirs} {e : NlinkEvent} {d : Nat} {hd : HiddenDirs}
    {n : Nlink} (h : dirs d = some hd) (hwraps : ((e.effect dirs).2 d).Wraps n) :
    ∃ hd', (e.effect dirs).1 d = some hd' := by
  have hon := e.on_effect dirs d
  generalize (e.effect dirs).2 d = c at hon hwraps
  cases hon with
  | same hlive _ =>
    rw [h] at hlive
    exact Option.isSome_iff_exists.mp hlive
  | found => exact absurd hwraps id
  | removed _ => exact absurd hwraps id

theorem NlinkLog.Along.head {P : NlinkSince → Prop} {l : NlinkLog} {run : List NlinkEvent}
    (h : l.Along P run) : ∀ d hd, l.dirs d = some hd → P (l.since d) := by
  cases run with
  | nil => exact h
  | cons e run => exact h.1

namespace NlinkState

/-- The log has the directories of the state, and says their counts. -/
structure Agrees (s : NlinkState) (l : NlinkLog) : Prop where
  dirs : l.dirs = s.dirs
  counts : ∀ d hd, s.dirs d = some hd → Counts (s.nlink d) (l.since d)

theorem Agrees.start (hDir : Nlink) : Agrees (NlinkState.start hDir) (NlinkLog.start hDir) := by
  refine ⟨rfl, ?_⟩
  intro d hd _
  show (auCpupAttrAll ⟨0, hDir, []⟩ 2).toNat + 0 = hDir.toNat + 0 + 0
  rfl

/-- Every directory has a link when fewer were taken than there are. -/
theorem Agrees.positive_iff {s : NlinkState} {l : NlinkLog} (h : Agrees s l) :
    s.Positive ↔ ∀ d hd, l.dirs d = some hd → (l.since d).FewerTaken := by
  rw [h.dirs]
  refine forall₃_congr ?_
  intro d hd hlive
  have hcounts := h.counts d hd hlive
  simp only [Counts, FewerTaken] at hcounts ⊢
  omega

/-- An event keeps the counts right. -/
theorem Agrees.step {s : NlinkState} {l : NlinkLog} {e : NlinkEvent} (h : Agrees s l)
    (hpos : s.Positive) (hwraps : ¬ s.Wraps e)
    (hfits : ∀ d hd, (l.step e).dirs d = some hd → ((l.step e).since d).Fits) :
    Agrees (s.step e) (l.step e) := by
  obtain ⟨hdirs, hcounts⟩ := h
  obtain ⟨ldirs, since⟩ := l
  subst hdirs
  refine ⟨rfl, ?_⟩
  intro d hd hlive
  have hfit := hfits d hd hlive
  rcases NlinkEvent.live_of_effect hlive with ⟨⟨hd', hold⟩, hclear⟩ | ⟨hd', hattr⟩
  case inl =>
    apply NlinkChange.counts_record (hcounts d hd' hold) (hpos d hd' hold) hclear hfit
    intro hwrap
    exact hwraps ⟨d, hd', hold, hwrap⟩
  case inr =>
    simp only [NlinkState.step, NlinkLog.step] at hfit ⊢
    rw [hattr] at hfit ⊢
    exact NlinkChange.counts_attrNlink _ hfit

/-- Along a run on which the links fit, the directories keep their links and no count wraps as long
as fewer links are taken than there are. -/
theorem Agrees.linked_iff {run : List NlinkEvent} {s : NlinkState} {l : NlinkLog} (h : Agrees s l)
    (hfits : l.Along Fits run) : s.Linked run ↔ l.Along FewerTaken run := by
  induction run generalizing s l with
  | nil => exact h.positive_iff
  | cons e run ih =>
    constructor
    case mp =>
      rintro ⟨hpos, hwraps, hrun⟩
      have hstep := h.step hpos hwraps hfits.2.head
      exact ⟨h.positive_iff.mp hpos, (ih hstep hfits.2).mp hrun⟩
    case mpr =>
      rintro ⟨hfewer, hrun⟩
      have hpos := h.positive_iff.mpr hfewer
      have hwraps : ¬ s.Wraps e := by
        rintro ⟨d, hd, hlive, hwrap⟩
        obtain ⟨hd', hlive'⟩ := NlinkEvent.live_of_wraps hlive hwrap
        rw [← h.dirs] at hlive' hwrap
        exact NlinkChange.not_fewerTaken (h.counts d hd hlive) hwrap (hrun.head d hd' hlive')
      exact ⟨hpos, hwraps, (ih (h.step hpos hwraps hfits.2.head) hfits.2).mpr hrun⟩

end NlinkState

-- ---------------------------------------------------------------------------
-- The link counts of a mount
-- ---------------------------------------------------------------------------

/-- As long as the links fit an unsigned integer: along a run every directory has a link and no
count falls below zero just when, at every point, fewer links were taken from every directory since
its count was last computed than its hidden directories had and it was given. -/
theorem nlink_linked_iff {hDir : Nlink} {run : List NlinkEvent}
    (hfits : (NlinkLog.start hDir).Along Fits run) :
    (NlinkState.start hDir).Linked run ↔ (NlinkLog.start hDir).Along FewerTaken run :=
  (NlinkState.Agrees.start hDir).linked_iff hfits

/-- A directory on a filesystem that counts subdirectories, one of which is removed. -/
theorem nlink_linked_one :
    (NlinkState.start 3).Linked [.iget 1 ⟨0, 2, []⟩, .rmdir 1, .rmdirWhtmp 0 0] := by
  refine (nlink_linked_iff ?_).mpr ?_
  all_goals
    refine ⟨?_, ?_, ?_, ?_⟩
    all_goals
      intro d hd hlive
      rcases d with _ | _ | d
      case zero => decide
      case succ.zero => decide
      case succ.succ => cases hlive

/-- On a filesystem that always reports one link, the first removal of a subdirectory that was there
takes the last link of its parent. -/
theorem oneLink_not_linked :
    ¬ (NlinkState.start 1).Linked [.iget 1 ⟨0, 1, []⟩, .rmdir 1, .rmdirWhtmp 0 0] := by
  intro h
  have hpos := h.2.2.2.2.2.2 0 ⟨0, 1, []⟩ rfl
  exact absurd hpos (by decide)

end Aufs
