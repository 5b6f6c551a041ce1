-- SUMMARY: Copying up a deleted file that is open: who owns the references to the hidden dentries afterwards.
import Aufs.Finfo
import Aufs.Lib.RefSlots

/-!
# References around `cpup_wh_file`

A dentry keeps a reference to each of its hidden dentries, and an open hidden
file keeps one to its own. `cpup_wh_file` works on a temporary name: it puts the
temporary dentry and the dentry of the hidden file into two slots of the aufs
dentry without taking references for them. It gives the slots their content
back only when it fails.

A hidden dentry is a number, its address. Counted is `d_count`.
-/

namespace Aufs

open RefSlots

/-- A dentry with an open file: `di_bstart`, `di_bend` and the hidden dentries, `fi_bstart`,
`fi_bend` and the dentry that each hidden file is open on. -/
structure WhFile where
  cnt : Nat → Int
  dbstart : Nat
  dbend : Nat
  hdentry : List (Option Nat)
  fbstart : Nat
  fbend : Nat
  hfile : List (Option Nat)

/-- How the calls of `cpup_wh_file` end; `borrowed` are the hidden dentries that `cpup_single`
takes references to and puts them. -/
structure WhCalls where
  lkupWhtmp : Except Errno Nat
  borrowed : List Nat
  cpupSingle : Except Errno Unit
  sameMode : Bool
  hiddenOpen : Except Errno Unit
  unlink : Except Errno Unit

namespace WhFile

-- ---------------------------------------------------------------------------
-- The functions
-- ---------------------------------------------------------------------------

/-- `set_h_fptr` -/
def setHFptr (w : WhFile) (bindex : Nat) (val : Option Nat) : WhFile :=
  { w with cnt := dput (get w.hfile bindex) w.cnt, hfile := w.hfile.set bindex val }

/-- The loop that closes the hidden files at these indices. -/
def closeFiles : List Nat → WhFile → WhFile
  | [], w => w
  | bindex :: rest, w => closeFiles rest (w.setHFptr bindex none)

/-- The file that `au_reopen_nondir` keeps in `h_file_tmp`. -/
def hFileTmp (w : WhFile) : Option Nat := if w.fbstart = w.dbstart then get w.hfile w.dbstart else none

/-- The file after it has been put there. -/
def keepFile (w : WhFile) : WhFile :=
  if w.fbstart = w.dbstart then { w with hfile := w.hfile.set w.dbstart none } else w

/-- `au_reopen_nondir` from `hidden_open` on -/
def reopenAt (c : WhCalls) (tmp : Option Nat) (w : WhFile) : Except Errno Unit × WhFile :=
  match c.hiddenOpen, get w.hdentry w.dbstart with
  | .error err, _ => (.error err, { w with cnt := dput tmp w.cnt })
  | .ok (), none => (.error .oops, { w with cnt := dput tmp w.cnt })
  | .ok (), some h =>
    let w := { w with cnt := dget (some h) w.cnt, fbstart := w.dbstart }
    let w := w.setHFptr w.dbstart (some h)
    -- close lower files
    let w := closeFiles (List.range' (w.dbstart + 1) (w.fbend - w.dbstart)) w
    (.ok (), { w with fbend := w.dbstart, cnt := dput tmp w.cnt })

/-- `au_reopen_nondir` -/
def auReopenNondir (c : WhCalls) (w : WhFile) : Except Errno Unit × WhFile :=
  if w.fbstart = w.dbstart ∧ c.sameMode then (.ok (), w)
  else reopenAt c w.hFileTmp w.keepFile

/-- `cpup_single`, as far as references go -/
def cpupSingle (c : WhCalls) (w : WhFile) : Except Errno Unit × WhFile :=
  (c.cpupSingle, { w with cnt := dputs (c.borrowed.map some) (dgets (c.borrowed.map some) w.cnt) })

/-- The slots that `cpup_wh_file` overwrites. -/
def overwrite (w : WhFile) (bdst tmp : Nat) (hiddenFile : Option Nat) : WhFile :=
  { w with dbstart := bdst, hdentry := (w.hdentry.set bdst (some tmp)).set w.dbstart hiddenFile }

/-- The temporary dentry is taken, and the slots are overwritten. -/
def swapped (w : WhFile) (bdst tmp : Nat) : WhFile :=
  { w with cnt := dget (some tmp) w.cnt }.overwrite bdst tmp (get w.hfile w.fbstart)

/-- The slots with what they had in `old`. -/
def restore (w : WhFile) (bdst : Nat) (old : WhFile) : WhFile :=
  { w with dbstart := old.dbstart
           hdentry := (w.hdentry.set old.dbstart (get old.hdentry old.dbstart)).set bdst (get old.hdentry bdst) }

/-- The copy-up and the opening after it. -/
def copyAndReopen (c : WhCalls) (w : WhFile) : Except Errno Unit × WhFile :=
  match (cpupSingle c w).1 with
  | .error err => (.error err, (cpupSingle c w).2)
  | .ok () => auReopenNondir c (cpupSingle c w).2

/-- `cpup_wh_file` -/
def cpupWhFile (c : WhCalls) (bdst : Nat) (w : WhFile) : Except Errno Unit × WhFile :=
  match c.lkupWhtmp with
  | .error err => (.error err, w)
  | .ok tmp =>
    match copyAndReopen c (w.swapped bdst tmp) with
    | (.error err, v) =>
      let v := v.restore bdst w
      (.error err, { v with cnt := dput (some tmp) v.cnt })
    | (.ok (), v) =>
      -- the slots stay as they are
      let v := { v with cnt := dput (some tmp) v.cnt }
      match c.unlink with
      | .error _ => (.error Errno.EIO, v)
      | .ok () => (.ok (), v)

/-- `aufs_d_release`: the counts after the loop over `di_hdentry`. -/
def aufsDRelease (w : WhFile) : Nat → Int :=
  dputs ((w.hdentry.drop w.dbstart).take (w.dbend + 1 - w.dbstart)) w.cnt

-- ---------------------------------------------------------------------------
-- References that nobody has
-- ---------------------------------------------------------------------------

/-- The references to a hidden dentry that neither a slot nor a hidden file owns. -/
def rest (w : WhFile) (k : Nat) : Int := w.cnt k - held w.hdentry k - held w.hfile k

/-- Every slot owns the reference that was taken for it, no reference is lost, and everything is
in the range. `others` are the references of others. -/
structure Owned (others : Nat → Int) (w : WhFile) : Prop where
  rest : ∀ k, w.rest k = others k
  range : Within w.dbstart w.dbend w.hdentry

variable {w v : WhFile} {c : WhCalls} {others : Nat → Int} {bdst tmp bindex : Nat} {x : Option Nat} {k : Nat}

/-- The slots of the dentry are as they were. -/
def SameSlots (v w : WhFile) : Prop := v.dbstart = w.dbstart ∧ v.dbend = w.dbend ∧ v.hdentry = w.hdentry

theorem SameSlots.trans {u : WhFile} (h : SameSlots u v) (h' : SameSlots v w) : SameSlots u w :=
  ⟨h.1.trans h'.1, h.2.1.trans h'.2.1, h.2.2.trans h'.2.2⟩

/-- A hidden file that is set takes over a reference of its opener. -/
theorem rest_setHFptr (h : bindex < w.hfile.length) : (w.setHFptr bindex x).rest k = w.rest k - one x k := by
  simp only [rest, setHFptr, dput, held_set h]
  omega

/-- Hidden files that are closed put what they own. -/
theorem rest_closeFiles (l : List Nat) : (closeFiles l w).rest k = w.rest k := by
  induction l generalizing w with
  | nil => rfl
  | cons b l ih =>
      rw [closeFiles, ih]
      rcases Nat.lt_or_ge b w.hfile.length with hlt | hge
      · rw [rest_setHFptr hlt, one_none, Int.sub_zero]
      · have hnone : get w.hfile b = none := List.getD_eq_default w.hfile none hge
        simp [rest, setHFptr, dput, hnone, List.set_eq_of_length_le hge]

theorem closeFiles_same (l : List Nat) :
    SameSlots (closeFiles l w) w ∧ (closeFiles l w).hfile.length = w.hfile.length := by
  induction l generalizing w with
  | nil => exact ⟨⟨rfl, rfl, rfl⟩, rfl⟩
  | cons b l ih =>
      obtain ⟨hsame, hlen⟩ := ih (w := w.setHFptr b none)
      exact ⟨hsame.trans ⟨rfl, rfl, rfl⟩, hlen.trans (List.length_set ..)⟩

/-- A file that is kept open until it is put. -/
theorem rest_keepFile : w.keepFile.rest k = w.rest k + one w.hFileTmp k := by
  unfold keepFile hFileTmp
  split
  case isFalse => rw [one_none, Int.add_zero]
  case isTrue =>
    rcases Nat.lt_or_ge w.dbstart w.hfile.length with hlt | hge
    · simp only [rest, held_set hlt, one_none]
      omega
    · have hnone : get w.hfile w.dbstart = none := List.getD_eq_default w.hfile none hge
      rw [List.set_eq_of_length_le hge, hnone, one_none, Int.add_zero]

theorem keepFile_same : SameSlots w.keepFile w ∧ w.keepFile.hfile.length = w.hfile.length := by
  unfold keepFile
  split
  case isFalse => exact ⟨⟨rfl, rfl, rfl⟩, rfl⟩
  case isTrue => exact ⟨⟨rfl, rfl, rfl⟩, List.length_set ..⟩

/-- Opening the file again moves references between the hidden files and nothing else. -/
theorem reopenAt_spec (h : w.dbstart < w.hfile.length) :
    (∀ k, (reopenAt c x w).2.rest k = w.rest k - one x k) ∧ SameSlots (reopenAt c x w).2 w := by
  unfold reopenAt
  cases c.hiddenOpen with
  | error err =>
      refine ⟨fun k => ?_, rfl, rfl, rfl⟩
      simp only [rest, dput]
      omega
  | ok u =>
      cases hslot : get w.hdentry w.dbstart with
      | none =>
          refine ⟨fun k => ?_, rfl, rfl, rfl⟩
          simp only [rest, dput]
          omega
      | some d =>
          dsimp only
          have hset := fun k => rest_setHFptr (x := some d) (k := k)
            (show w.dbstart < ({ w with cnt := dget (some d) w.cnt, fbstart := w.dbstart } : WhFile).hfile.length from h)
          have hclose := fun l k => rest_closeFiles (k := k) l
            (w := ({ w with cnt := dget (some d) w.cnt, fbstart := w.dbstart } : WhFile).setHFptr w.dbstart (some d))
          refine ⟨fun k => ?_, ?_⟩
          · have h₁ := hset k
            have h₂ := hclose (List.range' (w.dbstart + 1) (w.fbend - w.dbstart)) k
            simp only [rest, dput, dget, setHFptr] at h₁ h₂ ⊢
            omega
          · exact (closeFiles_same _).1.trans ⟨rfl, rfl, rfl⟩

/-- So does `au_reopen_nondir`. -/
theorem auReopenNondir_spec (h : w.dbstart < w.hfile.length) :
    (∀ k, (auReopenNondir c w).2.rest k = w.rest k) ∧ SameSlots (auReopenNondir c w).2 w := by
  unfold auReopenNondir
  split
  case isTrue => exact ⟨fun _ => rfl, rfl, rfl, rfl⟩
  case isFalse =>
    obtain ⟨hsame, hlen⟩ := keepFile_same (w := w)
    have hlt : w.keepFile.dbstart < w.keepFile.hfile.length := by rwa [hsame.1, hlen]
    obtain ⟨hrest, hslots⟩ := reopenAt_spec (c := c) (x := w.hFileTmp) hlt
    refine ⟨fun k => ?_, hslots.trans hsame⟩
    rw [hrest, rest_keepFile]
    omega

/-- The copy-up puts every reference that it takes. -/
theorem cpupSingle_spec : (∀ k, (cpupSingle c w).2.rest k = w.rest k) ∧ SameSlots (cpupSingle c w).2 w := by
  refine ⟨fun k => ?_, rfl, rfl, rfl⟩
  simp only [cpupSingle, rest, dputs_apply, dgets_apply]
  omega

theorem copyAndReopen_spec (h : w.dbstart < w.hfile.length) :
    (∀ k, (copyAndReopen c w).2.rest k = w.rest k) ∧ SameSlots (copyAndReopen c w).2 w := by
  obtain ⟨hrest, hsame⟩ := cpupSingle_spec (c := c) (w := w)
  unfold copyAndReopen
  split
  case h_1 => exact ⟨hrest, hsame⟩
  case h_2 =>
    have hlt : (cpupSingle c w).2.dbstart < (cpupSingle c w).2.hfile.length := h
    obtain ⟨hrest', hsame'⟩ := auReopenNondir_spec (c := c) hlt
    exact ⟨fun k => (hrest' k).trans (hrest k), hsame'.trans hsame⟩

-- ---------------------------------------------------------------------------
-- The whole call
-- ---------------------------------------------------------------------------

/-- The call gets as far as to leave its dentries in the slots: there is a temporary name, the file
is copied up, and it is open on the new branch already or can be opened there. -/
def GoesThrough (c : WhCalls) (bdst : Nat) (w : WhFile) : Prop :=
  (∃ tmp, c.lkupWhtmp = .ok tmp) ∧ c.cpupSingle = .ok () ∧
    ((w.fbstart = bdst ∧ c.sameMode = true) ∨ c.hiddenOpen = .ok ())

/-- What the callers promise: the branch is in the tables, as the first one of the dentry is, and
the hidden file is open. -/
structure Ready (bdst : Nat) (w : WhFile) : Prop where
  start : w.dbstart < w.hdentry.length
  hdentry : bdst < w.hdentry.length
  hfile : bdst < w.hfile.length
  opened : get w.hfile w.fbstart ≠ none

theorem auReopenNondir_ok_iff {d : Nat} (h : get w.hdentry w.dbstart = some d) :
    (auReopenNondir c w).1 = .ok () ↔ (w.fbstart = w.dbstart ∧ c.sameMode = true) ∨ c.hiddenOpen = .ok () := by
  unfold auReopenNondir
  split
  case isTrue hsame => exact ⟨fun _ => .inl hsame, fun _ => rfl⟩
  case isFalse hsame =>
    have hkeep : get w.keepFile.hdentry w.keepFile.dbstart = some d := by
      rw [keepFile_same.1.1, keepFile_same.1.2.2, h]
    unfold reopenAt
    rw [hkeep]
    cases c.hiddenOpen with
    | ok u => exact ⟨fun _ => .inr rfl, fun _ => rfl⟩
    | error err =>
        constructor
        · intro herr
          cases herr
        · rintro (h' | h')
          · exact absurd h' hsame
          · cases h'

/-- The copy-up leaves its dentries in the slots exactly when it gets through. -/
theorem copyAndReopen_ok_iff (h : Ready bdst w) (htmp : c.lkupWhtmp = .ok tmp) :
    (copyAndReopen c (w.swapped bdst tmp)).1 = .ok () ↔ GoesThrough c bdst w := by
  have hslot : ∃ d, get (cpupSingle c (w.swapped bdst tmp)).2.hdentry bdst = some d := by
    show ∃ d, get ((w.hdentry.set bdst (some tmp)).set w.dbstart (get w.hfile w.fbstart)) bdst = some d
    by_cases heq : w.dbstart = bdst
    · rw [heq, get_set_self (by rw [List.length_set]; exact h.hdentry)]
      exact Option.ne_none_iff_exists'.mp h.opened
    · rw [get_set_ne heq, get_set_self h.hdentry]
      exact ⟨tmp, rfl⟩
  obtain ⟨d, hd⟩ := hslot
  have hiff := auReopenNondir_ok_iff (c := c) (w := (cpupSingle c (w.swapped bdst tmp)).2) hd
  unfold copyAndReopen GoesThrough
  rw [htmp]
  cases hcpup : c.cpupSingle with
  | error err =>
      simp only [cpupSingle, hcpup]
      constructor
      · intro herr
        cases herr
      · rintro ⟨-, herr, -⟩
        cases herr
  | ok u =>
      have hone : (cpupSingle c (w.swapped bdst tmp)).1 = .ok () := hcpup
      rw [hone]
      refine hiff.trans ⟨fun h' => ⟨⟨tmp, rfl⟩, rfl, h'⟩, fun h' => h'.2.2⟩

/-- The end of a call, whichever way it goes: the slots are those from before, or the others. -/
theorem cpupWhFile_cases (h : Ready bdst w) :
    (GoesThrough c bdst w ∧ ∃ tmp v, c.lkupWhtmp = .ok tmp ∧ SameSlots v (w.swapped bdst tmp) ∧
        (∀ k, v.rest k = (w.swapped bdst tmp).rest k) ∧
        (cpupWhFile c bdst w).2 = { v with cnt := dput (some tmp) v.cnt }) ∨
      (¬ GoesThrough c bdst w ∧ SameSlots (cpupWhFile c bdst w).2 w ∧
        ∀ k, (cpupWhFile c bdst w).2.rest k = w.rest k) := by
  unfold cpupWhFile
  cases htmp : c.lkupWhtmp with
  | error err =>
      refine .inr ⟨?_, ⟨rfl, rfl, rfl⟩, fun _ => rfl⟩
      rintro ⟨⟨tmp, h'⟩, -⟩
      rw [htmp] at h'
      cases h'
  | ok tmp =>
      have hlt : (w.swapped bdst tmp).dbstart < (w.swapped bdst tmp).hfile.length := h.hfile
      obtain ⟨hrest, hsame⟩ := copyAndReopen_spec (c := c) hlt
      have hiff := copyAndReopen_ok_iff h htmp
      dsimp only
      rcases hend : copyAndReopen c (w.swapped bdst tmp) with ⟨r, v⟩
      rw [hend] at hrest hsame hiff
      cases r with
      | error err =>
          have hslots : SameSlots (v.restore bdst w) w := by
            refine ⟨rfl, hsame.2.1, ?_⟩
            rw [restore, hsame.2.2]
            exact set_restore
          refine .inr ⟨?_, hslots, fun k => ?_⟩
          · intro hgo
            cases hiff.mpr hgo
          · have hk := hrest k
            have hback : (v.restore bdst w).hdentry = w.hdentry := hslots.2.2
            simp only [rest, dput] at hk ⊢
            rw [hback]
            rw [hsame.2.2] at hk
            simp only [swapped, overwrite, dget, restore] at hk ⊢
            omega
      | ok u =>
          refine .inl ⟨hiff.mp rfl, tmp, v, rfl, hsame, hrest, ?_⟩
          cases c.unlink <;> rfl

-- ---------------------------------------------------------------------------
-- Who owns what afterwards
-- ---------------------------------------------------------------------------

/-- Where every slot owns its reference, the release of the dentry puts each exactly once: the
references of the others and of the hidden files remain. -/
theorem aufsDRelease_apply (h : Owned others w) (k : Nat) : w.aufsDRelease k = others k + held w.hfile k := by
  have hrest := h.rest k
  rw [aufsDRelease, dputs_apply, held_within h.range]
  simp only [rest] at hrest
  omega

/-- The two slots after they were overwritten own the same as before only if they are one slot,
and the hidden file is open on the dentry in it. -/
theorem owned_swapped_iff (h : Owned others w) (hready : Ready bdst w) :
    (∀ k, held (w.swapped bdst tmp).hdentry k = held w.hdentry k) ∧
        Within bdst w.dbend (w.swapped bdst tmp).hdentry ↔
      bdst = w.dbstart ∧ get w.hdentry w.dbstart = get w.hfile w.fbstart := by
  obtain ⟨f, hf⟩ := Option.ne_none_iff_exists'.mp hready.opened
  have hstart : w.dbstart < (w.hdentry.set bdst (some tmp)).length := by
    rw [List.length_set]
    exact hready.start
  have hslots : (w.swapped bdst tmp).hdentry = (w.hdentry.set bdst (some tmp)).set w.dbstart (some f) := by
    rw [← hf]
    rfl
  have hheld (k : Nat) : held (w.swapped bdst tmp).hdentry k =
      held w.hdentry k - one (get w.hdentry bdst) k + one (some tmp) k -
        one (get (w.hdentry.set bdst (some tmp)) w.dbstart) k + one (some f) k := by
    rw [hslots, held_set hstart, held_set hready.hdentry]
  rw [hf]
  by_cases hb : bdst = w.dbstart
  case pos =>
    have hself : get (w.hdentry.set bdst (some tmp)) w.dbstart = some tmp := by
      rw [← hb]
      exact get_set_self hready.hdentry
    constructor
    · rintro ⟨hsame, -⟩
      refine ⟨hb, ?_⟩
      rw [← hb]
      refine eq_of_one fun k => ?_
      have hk := hheld k
      rw [hsame, hself] at hk
      omega
    · rintro ⟨-, hold⟩
      have hback : (w.swapped bdst tmp).hdentry = w.hdentry := by
        rw [hslots, hb, List.set_set, ← hold]
        exact set_get
      rw [hback, hb]
      exact ⟨fun _ => rfl, h.range⟩
  case neg =>
    refine iff_of_false ?_ fun h' => hb h'.1
    rintro ⟨hsame, hrange⟩
    have hself : get (w.hdentry.set bdst (some tmp)) w.dbstart = get w.hdentry w.dbstart := get_set_ne hb
    have hbelow : bdst ≤ w.dbstart := by
      refine (hrange w.dbstart ?_).1
      rw [hslots, get_set_self hstart]
      exact Option.some_ne_none f
    have hfree : get w.hdentry bdst = none := by
      by_contra hne
      exact hb (Nat.le_antisymm hbelow (h.range bdst hne).1)
    have htwo (k : Nat) : one (get w.hdentry w.dbstart) k = one (some tmp) k + one (some f) k := by
      have hk := hheld k
      rw [hsame, hself, hfree, one_none] at hk
      omega
    -- one slot would own both dentries
    have hat := htwo tmp
    have haf := htwo f
    simp only [one_some_self] at hat haf
    unfold one at hat haf
    split at hat <;> split at haf <;> grind

/-- After a copy-up of a deleted file that is open, every hidden dentry of the aufs dentry owns the
reference that was taken for it, and the release puts each once, exactly if the call fails before its
dentries stay in the slots, or there is one slot and it keeps its dentry. -/
theorem cpupWhFile_owned_iff {others : Nat → Int} (c : WhCalls) {bdst : Nat} {w : WhFile} (h : Owned others w)
    (hready : Ready bdst w) :
    (Owned others (cpupWhFile c bdst w).2 ∧
        ∀ k, (cpupWhFile c bdst w).2.aufsDRelease k = others k + held (cpupWhFile c bdst w).2.hfile k) ↔
      ¬ GoesThrough c bdst w ∨ (bdst = w.dbstart ∧ get w.hdentry w.dbstart = get w.hfile w.fbstart) := by
  have howned : Owned others (cpupWhFile c bdst w).2 ↔
      ¬ GoesThrough c bdst w ∨ (bdst = w.dbstart ∧ get w.hdentry w.dbstart = get w.hfile w.fbstart) := by
    rcases cpupWhFile_cases (c := c) hready with ⟨hgo, tmp, v, -, hsame, hrest, hend⟩ | ⟨hgo, hsame, hrest⟩
    · have hiff : Owned others (cpupWhFile c bdst w).2 ↔
          (∀ k, held (w.swapped bdst tmp).hdentry k = held w.hdentry k) ∧
            Within bdst w.dbend (w.swapped bdst tmp).hdentry := by
        have hk (k : Nat) : (cpupWhFile c bdst w).2.rest k =
            others k + held w.hdentry k - held (w.swapped bdst tmp).hdentry k := by
          have hv := hrest k
          have hw := h.rest k
          rw [hend]
          simp only [WhFile.rest, dput] at hv hw ⊢
          have hcnt : (w.swapped bdst tmp).cnt k = w.cnt k + one (some tmp) k := rfl
          have hfile : (w.swapped bdst tmp).hfile = w.hfile := rfl
          rw [hcnt, hfile] at hv
          omega
        constructor
        · intro how
          refine ⟨fun k => ?_, ?_⟩
          · have hck := hk k
            rw [how.rest] at hck
            omega
          · have hrange := how.range
            rw [hend] at hrange
            rw [← hsame.2.2, ← show v.dbstart = bdst from hsame.1, ← show v.dbend = w.dbend from hsame.2.1]
            exact hrange
        · rintro ⟨hheld, hrange⟩
          refine ⟨fun k => ?_, ?_⟩
          · rw [hk, hheld]
            omega
          · rw [hend]
            rw [← hsame.2.2, ← show v.dbstart = bdst from hsame.1, ← show v.dbend = w.dbend from hsame.2.1] at hrange
            exact hrange
      rw [hiff, owned_swapped_iff h hready]
      exact ⟨.inr, fun h' => h'.resolve_left (not_not.mpr hgo)⟩
    · refine iff_of_true ⟨fun k => (hrest k).trans (h.rest k), ?_⟩ (.inl hgo)
      rw [hsame.1, hsame.2.1, hsame.2.2]
      exact h.range
  rw [← howned]
  exact ⟨fun h' => h'.1, fun h' => ⟨h', aufsDRelease_apply h'⟩⟩

-- ---------------------------------------------------------------------------
-- A deleted file on the second of two branches
-- ---------------------------------------------------------------------------

/-- The file was opened, deleted, and has the hidden dentry 5 on the second branch. -/
def deletedFile : WhFile where
  cnt := fun k => if k = 5 then 2 else 0
  dbstart := 1
  dbend := 1
  hdentry := [none, some 5]
  fbstart := 1
  fbend := 1
  hfile := [none, some 5]

theorem deletedFile_owned : Owned (fun _ => 0) deletedFile where
  rest k := by
    simp only [WhFile.rest, deletedFile, held, List.count_cons, List.count_nil]
    by_cases hk : k = 5
    · rw [hk]
      rfl
    · have hne : (some 5 == some k) = false := by simpa using fun h => hk h.symm
      rw [if_neg hk, hne]
      rfl
  range i hi := by
    have hlt : i < 2 := lt_of_get hi
    obtain rfl | rfl : i = 0 ∨ i = 1 := by omega
    · exact absurd rfl hi
    · exact ⟨Nat.le_refl 1, Nat.le_refl 1⟩

theorem deletedFile_ready : Ready 0 deletedFile :=
  ⟨by decide, by decide, by decide, by decide⟩

/-- The temporary dentry is 9, and the copy-up ends with `cpup`. -/
def deletedCalls (cpup : Except Errno Unit) : WhCalls := ⟨.ok 9, [5, 9], cpup, false, .ok (), .ok ()⟩

/-- There is no room for the copy: every reference is where it was. -/
theorem cpupWhFile_owned_nospc :
    Owned (fun _ => 0) (cpupWhFile (deletedCalls (.error .ENOSPC)) 0 deletedFile).2 :=
  ((cpupWhFile_owned_iff (deletedCalls (.error .ENOSPC)) deletedFile_owned deletedFile_ready).mpr
    (.inl fun h => by cases h.2.1)).1

/-- The file is copied up: nobody owns the reference to the dentry in the first slot. -/
theorem deletedFile_not_owned :
    ¬ Owned (fun _ => 0) (cpupWhFile (deletedCalls (.ok ())) 0 deletedFile).2 := by
  intro h
  have hrest := h.rest 9
  have hlost : (cpupWhFile (deletedCalls (.ok ())) 0 deletedFile).2.rest 9 = -1 := by decide
  rw [hlost] at hrest
  cases hrest

end WhFile

end Aufs
