-- SUMMARY: The passes of refresh_file from the label again: when the copy-up of a pseudo-link is tried for ever.
import Aufs.FileLock

/-!
# The retries of `refresh_file`

A file that is open below the first branch of its inode follows a pseudo-link.
`refresh_file` picks the branch to copy up to, locks the dentry again and starts
over if the inode begins on another branch than the one it picked. It means to
see that someone changed the inode, but a branch it picked because the first
one is readonly is another one as well, and every pass picks it again.
-/

namespace Aufs

open Holder

/-- What a pass reads of the inode: `ibstart`, the hidden inodes, and whether it is plinked. -/
structure PlinkInode where
  ibstart : Int
  hi : Int → Option HInode
  plinked : Bool

/-- How a pass from `again` ends: nothing is to be copied up, an error is returned, the pass
starts over, or it copies up to a branch. With `oops` the branch table was left. -/
inductive PassEnd where
  | skip
  | fails (err : Errno)
  | restart
  | copies (bstart : Int)
  | oops
  deriving DecidableEq, Repr

namespace FileOp

/-- The rest of a pass that picked a branch, where the inode begins on `ibstart`. -/
def pickEnd (ibstart : Int) : Except Errno Int → PassEnd
  | .error err => .fails err
  | .ok bstart => if bstart ≠ ibstart then .restart else .copies bstart

variable (sb : SuperBlock) (i : PlinkInode) (fiBstart : Int)

/-- One pass of `refresh_file` from `again`, for an inode that stays as it is. -/
def plinkPass (parent : Dinfo) : PassEnd :=
  if i.ibstart < fiBstart ∧ sb.plink ∧ i.plinked then
    match testRo sb i.ibstart i.hi with
    | .error _ => .oops
    | .ok ro => pickEnd i.ibstart (if ro then findRwParentBr sb parent i.ibstart else .ok i.ibstart)
  else .skip

/-- The passes, each with the parent as it finds it: how they end, unless all start over. -/
def again : List Dinfo → Option PassEnd
  | [] => none
  | parent :: rest =>
    match plinkPass sb i fiBstart parent with
    | .restart => again rest
    | r => some r

/-- These passes as `refresh_file` makes them. -/
def plinkPasses (cpup : CpupCall) (e : DentryEnv) (parents : List Dinfo) : List PlinkPass :=
  parents.map fun parent => ⟨i.ibstart, findRwParentBr sb parent i.ibstart, i.ibstart, cpup, e⟩

/-- What `refresh_file` does after the passes. -/
def afterPasses (r : RefreshEnv) (cpup : CpupCall) (e : DentryEnv) :
    Option PassEnd → FileTask (Except Errno DentryEnv)
  | some .skip => pure (.ok r.e)
  | some (.fails err) => pure (.error err)
  | some (.copies _) => copyUp sb cpup >>= fun
    | .error err => pure (.error err)
    | .ok () => pure (.ok e)
  | _ => halt

variable {sb i fiBstart}

/-- The passes are those of `refresh_file`. -/
theorem refreshPlink_again {r : RefreshEnv} {cpup : CpupCall} {e : DentryEnv} {fi : Finfo}
    (hhi : r.e.hi = i.hi) (hplinked : r.plinked = i.plinked) (parents : List Dinfo) :
    refreshPlink sb r fi (plinkPasses sb i cpup e parents) =
      afterPasses sb r cpup e (again sb i fi.bstart parents) := by
  induction parents with
  | nil => rfl
  | cons parent rest ih =>
      rw [plinkPasses] at ih
      rw [plinkPasses, List.map_cons, refreshPlink, again, plinkPass, hhi, hplinked, ih]
      by_cases hplink : i.ibstart < fi.bstart ∧ sb.plink ∧ i.plinked
      · rw [if_pos hplink, if_pos hplink]
        cases testRo sb i.ibstart i.hi with
        | error err => rfl
        | ok ro =>
            dsimp only
            cases if ro then findRwParentBr sb parent i.ibstart else .ok i.ibstart with
            | error err => rfl
            | ok bstart =>
                dsimp only
                rw [pickEnd]
                by_cases hb : bstart ≠ i.ibstart
                · rw [if_pos hb, if_pos hb]
                · rw [if_neg hb, if_neg hb]
                  rfl
      · rw [if_neg hplink, if_neg hplink]
        rfl

-- ---------------------------------------------------------------------------
-- The passes that start over
-- ---------------------------------------------------------------------------

/-- Is there a writable branch not below this one? -/
def WritableUpTo (sb : SuperBlock) (bend : Int) : Prop := ∃ b, b ≤ bend ∧ sb.brRdonly b = false

/-- Is there a writable branch not below this one that has the parent? -/
def WritableParentUpTo (sb : SuperBlock) (parent : Dinfo) (bend : Int) : Prop :=
  ∃ b, parent.bstart ≤ b ∧ b ≤ bend ∧ (parent.hDptrI b).isSome ∧ sb.brRdonly b = false

/-- A pass starts over: the file is open below the first branch of a plinked inode, and that
branch is readonly with a writable one above it, or the hidden inode on it cannot be changed, the
parent is not there, and a writable branch above it has the parent. -/
structure StartsOver (sb : SuperBlock) (i : PlinkInode) (fiBstart : Int) (parent : Dinfo) : Prop where
  plinked : i.ibstart < fiBstart ∧ sb.plink ∧ i.plinked
  table : (sb.stobr i.ibstart).isSome
  elsewhere : (sb.brRdonly i.ibstart = true ∧ WritableUpTo sb i.ibstart) ∨
    (sb.brRdonly i.ibstart = false ∧ (i.hi i.ibstart).any HInode.immutable = true ∧
      parent.hDptrI i.ibstart = none ∧ WritableParentUpTo sb parent i.ibstart)

theorem findRwParent_eq_none {parent : Dinfo} {bend : Int} (h : findRwParent sb parent bend = none) :
    ¬ WritableParentUpTo sb parent bend := by
  rintro ⟨b, hge, hle, hsome, hwr⟩
  dsimp only [findRwParent] at h
  split at h
  case isTrue => cases h
  case isFalse =>
    have hb := find?_bindexes_eq_none.mp h b hge hle
    simp [hsome, hwr] at hb

/-- A branch that is found has the parent. -/
theorem findRwParent_eq_some {parent : Dinfo} {bend b : Int} (h : findRwParent sb parent bend = some b) :
    (parent.hDptrI b).isSome ∧ sb.brRdonly b = false ∧ (b ≠ bend → parent.bstart ≤ b) := by
  dsimp only [findRwParent] at h
  split at h
  case isTrue hw =>
    cases h
    simp only [Bool.and_eq_true, Bool.not_eq_true'] at hw
    exact ⟨hw.1, hw.2, fun hne => absurd rfl hne⟩
  case isFalse =>
    obtain ⟨hw, hge, -, -⟩ := find?_bindexes.mp h
    simp only [Bool.and_eq_true, Bool.not_eq_true'] at hw
    exact ⟨hw.1, hw.2, fun _ => hge⟩

theorem nonneg_of_writable {b : Int} (h : sb.brRdonly b = false) : 0 ≤ b := by
  obtain ⟨br, hbr, -⟩ := stobr_of_not_brRdonly h
  unfold SuperBlock.stobr at hbr
  split at hbr
  case isTrue hb => exact hb
  case isFalse => cases hbr

/-- Of the branches not below a writable one, that one is found. -/
theorem findRwBr_writable {bend : Int} (h : sb.brRdonly bend = false) : findRwBr sb bend = some bend := by
  refine find?_reverse_bindexes.mpr ⟨by rw [h]; rfl, nonneg_of_writable h, le_rfl, ?_⟩
  intro c hlt hle
  exact absurd hle (not_le.mpr hlt)

theorem findRwBr_eq_none {bend : Int} (h : findRwBr sb bend = none) : ¬ WritableUpTo sb bend := by
  rintro ⟨b, hle, hwr⟩
  have hb := List.find?_eq_none.mp h b (List.mem_reverse.mpr (mem_bindexes.mpr ⟨nonneg_of_writable hwr, hle⟩))
  rw [hwr] at hb
  exact hb rfl

/-- Nothing is found only where no branch is writable. -/
theorem findRwParentBr_error {parent : Dinfo} {bend : Int} {err : Errno}
    (h : findRwParentBr sb parent bend = .error err) : ¬ WritableUpTo sb bend := by
  unfold findRwParentBr at h
  split at h
  case h_1 => cases h
  case h_2 =>
    split at h
    case h_1 => cases h
    case h_2 hnone => exact findRwBr_eq_none hnone

/-- From a readonly branch another one is found exactly if there is a writable one. -/
theorem findRwParentBr_other_of_rdonly {parent : Dinfo} {bend : Int} (hro : sb.brRdonly bend = true) :
    (∃ b, findRwParentBr sb parent bend = .ok b ∧ b ≠ bend) ↔ WritableUpTo sb bend := by
  constructor
  · rintro ⟨b, hb, -⟩
    obtain ⟨hwr, hle⟩ := findRwParentBr_ok hb
    exact ⟨b, hle, hwr⟩
  · intro hwr
    cases hb : findRwParentBr sb parent bend with
    | ok b =>
        refine ⟨b, rfl, ?_⟩
        rintro rfl
        rw [(findRwParentBr_ok hb).1] at hro
        cases hro
    | error err => exact absurd hwr (findRwParentBr_error hb)

/-- From a writable branch another one is found exactly if only another one has the parent. -/
theorem findRwParentBr_other_of_writable {parent : Dinfo} {bend : Int} (hwr : sb.brRdonly bend = false) :
    (∃ b, findRwParentBr sb parent bend = .ok b ∧ b ≠ bend) ↔
      parent.hDptrI bend = none ∧ WritableParentUpTo sb parent bend := by
  unfold findRwParentBr
  cases hfind : findRwParent sb parent bend with
  | none =>
      rw [findRwBr_writable hwr]
      constructor
      · rintro ⟨b, hb, hne⟩
        cases hb
        exact absurd rfl hne
      · rintro ⟨-, hparent⟩
        exact absurd hparent (findRwParent_eq_none hfind)
  | some c =>
      obtain ⟨hsome, hcwr, hge⟩ := findRwParent_eq_some hfind
      have hle : c ≤ bend := (findRwParentBr_ok (b := c) (by rw [findRwParentBr, hfind])).2
      constructor
      · rintro ⟨b, hb, hne⟩
        cases hb
        refine ⟨?_, c, hge hne, hle, hsome, hcwr⟩
        cases hat : parent.hDptrI bend with
        | none => rfl
        | some h =>
            have hself : findRwParent sb parent bend = some bend := by simp [findRwParent, hat, hwr]
            rw [hself] at hfind
            exact absurd (Option.some.inj hfind).symm hne
      · rintro ⟨hnone, -⟩
        refine ⟨c, rfl, ?_⟩
        rintro rfl
        rw [hnone] at hsome
        cases hsome

theorem pickEnd_over_iff {ibstart : Int} {r : Except Errno Int} :
    pickEnd ibstart r = .restart ↔ ∃ b, r = .ok b ∧ b ≠ ibstart := by
  cases r with
  | error err =>
      constructor
      · intro h
        cases h
      · rintro ⟨b, hb, -⟩
        cases hb
  | ok b =>
      rw [pickEnd]
      by_cases hb : b ≠ ibstart
      · rw [if_pos hb]
        exact ⟨fun _ => ⟨b, rfl, hb⟩, fun _ => rfl⟩
      · rw [if_neg hb]
        constructor
        · intro h
          cases h
        · rintro ⟨c, hc, hne⟩
          cases hc
          exact absurd hne hb

/-- A pass starts over exactly where the branch that it picks is another one. -/
theorem plinkPass_over_iff {parent : Dinfo} :
    plinkPass sb i fiBstart parent = .restart ↔ StartsOver sb i fiBstart parent := by
  unfold plinkPass
  by_cases hplink : i.ibstart < fiBstart ∧ sb.plink ∧ i.plinked
  case neg =>
    rw [if_neg hplink]
    constructor
    · intro h
      cases h
    · intro h
      exact absurd h.plinked hplink
  case pos =>
    rw [if_pos hplink, testRo]
    cases hbr : sb.stobr i.ibstart with
    | none =>
        constructor
        · intro h
          cases h
        · intro h
          have htable := h.table
          rw [hbr] at htable
          cases htable
    | some br =>
        have hro : sb.brRdonly i.ibstart = br.brRdonly := by simp [SuperBlock.brRdonly, hbr]
        dsimp only
        rw [← hro, pickEnd_over_iff]
        have hover : _ → StartsOver sb i fiBstart parent := StartsOver.mk hplink (by rw [hbr]; rfl)
        cases hrd : sb.brRdonly i.ibstart with
        | true =>
            rw [Bool.true_or, if_pos rfl, findRwParentBr_other_of_rdonly hrd]
            constructor
            · intro h
              exact hover (.inl ⟨hrd, h⟩)
            · intro h
              rcases h.elsewhere with ⟨-, h⟩ | ⟨hwr, -⟩
              · exact h
              · rw [hrd] at hwr
                cases hwr
        | false =>
            rw [Bool.false_or]
            cases himm : (i.hi i.ibstart).any HInode.immutable with
            | true =>
                rw [if_pos rfl, findRwParentBr_other_of_writable hrd]
                constructor
                · intro h
                  exact hover (.inr ⟨hrd, himm, h⟩)
                · intro h
                  rcases h.elsewhere with ⟨hrd', -⟩ | ⟨-, -, h⟩
                  · rw [hrd] at hrd'
                    cases hrd'
                  · exact h
            | false =>
                rw [if_neg Bool.false_ne_true]
                constructor
                · rintro ⟨b, hb, hne⟩
                  cases hb
                  exact absurd rfl hne
                · intro h
                  rcases h.elsewhere with ⟨hrd', -⟩ | ⟨-, himm', -⟩
                  · rw [hrd] at hrd'
                    cases hrd'
                  · rw [himm] at himm'
                    cases himm'

-- ---------------------------------------------------------------------------
-- The loop
-- ---------------------------------------------------------------------------

/-- The passes go on exactly as long as each starts over. -/
theorem again_eq_none_iff {parents : List Dinfo} :
    again sb i fiBstart parents = none ↔ ∀ parent ∈ parents, StartsOver sb i fiBstart parent := by
  induction parents with
  | nil =>
      constructor
      · intro _ parent hmem
        cases hmem
      · intro _
        rfl
  | cons parent rest ih =>
      rw [List.forall_mem_cons, ← ih, ← plinkPass_over_iff, again]
      cases hpass : plinkPass sb i fiBstart parent with
      | restart => exact ⟨fun h => ⟨rfl, h⟩, fun h => h.2⟩
      | _ =>
          constructor
          · intro h
            cases h
          · rintro ⟨h, -⟩
            cases h

/-- With an inode that nobody changes, the loop is over after two passes at the latest, unless
both find the first branch of the inode readonly or unchangeable and pick another one. -/
theorem again_twice_iff (sb : SuperBlock) (i : PlinkInode) (fiBstart : Int) (first second : Dinfo) :
    (∃ r, again sb i fiBstart [first, second] = some r) ↔
      ¬ (StartsOver sb i fiBstart first ∧ StartsOver sb i fiBstart second) := by
  rw [← Option.isSome_iff_exists, Option.isSome_iff_ne_none, ne_eq, again_eq_none_iff]
  simp only [List.forall_mem_cons, List.not_mem_nil, false_implies, implies_true, and_true]

/-- If the parent does not change either, a pass that starts over is repeated for ever. -/
theorem again_for_ever {parent : Dinfo} (h : StartsOver sb i fiBstart parent) (n : Nat) :
    again sb i fiBstart (List.replicate n parent) = none := by
  refine again_eq_none_iff.mpr ?_
  intro p hp
  rw [List.eq_of_mem_replicate hp]
  exact h

-- ---------------------------------------------------------------------------
-- A first hidden inode on a readonly branch
-- ---------------------------------------------------------------------------

/-- A writable branch was added over two that are readonly. -/
def plinkSb : SuperBlock := .ofBranches [.plain 3 .RW, .plain 1 .RO, .plain 2 .RO]

/-- A file with two names: by one of them it was copied up to what is the second branch now. -/
def plinkInode : PlinkInode where
  ibstart := 1
  hi := fun b => if b = 1 then some ⟨.reg, 7, 0, false⟩ else if b = 2 then some ⟨.reg, 5, 0, false⟩ else none
  plinked := true

/-- The root directory, which both names are in. -/
def plinkParent : Dinfo where
  bstart := 0
  bend := 2
  bwh := -1
  bdiropq := -1
  hdentry := fun b => (plinkSb.stobr b).map fun br => ⟨br.root, [], some ⟨.dir, 1, 0, false⟩⟩

/-- The file is open by its other name: no pass gets further. -/
theorem plinkInode_not_ended : ¬ ∃ r, again plinkSb plinkInode 2 [plinkParent, plinkParent] = some r := by
  rintro ⟨r, hr⟩
  have hnone : again plinkSb plinkInode 2 [plinkParent, plinkParent] = none := by rfl
  rw [hnone] at hr
  cases hr

end FileOp

end Aufs
