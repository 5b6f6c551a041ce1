-- SUMMARY: Open files when a branch becomes read-only (br_mod): which hidden files lose FMODE_WRITE in every remount.
import Aufs.Finfo
import Aufs.BrUse
import Aufs.XinoEvents

/-!
# Making a branch read-only

When `br_mod` makes a writable branch read-only it goes through the open files and takes
`FMODE_WRITE` from hidden files. It knows the branch by its index in the table, and of a file
only `fi_bstart`, which is the index that the branch of its first hidden file had when the file
was refreshed last.
-/

namespace Aufs

namespace RoFiles

/-- `f_flags`: what `au_file_roflags` sets and clears, and the rest. -/
structure FFlags where
  wronly : Bool
  rdwr : Bool
  append : Bool
  creat : Bool
  trunc : Bool
  noatime : Bool
  others : Nat
  deriving DecidableEq, Repr

/-- `au_file_roflags`. `O_RDONLY` is 0. -/
def auFileRoflags (flags : FFlags) : FFlags :=
  { flags with wronly := false, rdwr := false, append := false, creat := false, trunc := false, noatime := true }

/-- `struct aufs_hfile` with `hf_file` set: the id of `hf_br`, and what the hidden file is open for. -/
structure HFile where
  br : Int
  fFlags : FFlags
  fMode : FMode
  deriving DecidableEq, Repr

/-- A file in `s_files`. A slot whose `hf_file` is `NULL` is `none`. -/
structure SFile where
  type : FType
  fMode : FMode
  fbstart : Int
  hfile : Int → Option HFile

-- ---------------------------------------------------------------------------
-- The loop over the files
-- ---------------------------------------------------------------------------

/-- `au_h_fptr` -/
def SFile.hFptr (f : SFile) : Option HFile := f.hfile f.fbstart

/-- What `br_mod` does to a hidden file. -/
def HFile.toRo (hf : HFile) : HFile :=
  { hf with fFlags := auFileRoflags hf.fFlags, fMode := { hf.fMode with write := false } }

/-- The file with another first hidden file. -/
def SFile.setFirst (f : SFile) (hf : HFile) : SFile :=
  { f with hfile := Function.update f.hfile f.fbstart (some hf) }

/-- One round of the loop. `none` when it would follow a null pointer. -/
def SFile.modRo (bindex : Int) (f : SFile) : Option SFile :=
  if f.type ≠ .reg ∨ f.fMode.write = false ∨ f.fbstart ≠ bindex then some f
  else f.hFptr.map fun hf => f.setFirst hf.toRo

/-- The loop of `br_mod` over `s_files`. -/
def modRoLoop (bindex : Int) : List SFile → Option (List SFile)
  | [] => some []
  | f :: fs =>
    match f.modRo bindex with
    | none => none
    | some f => (modRoLoop bindex fs).map (f :: ·)

/-- The index with which `br_mod` comes to the loop: a branch was writable, its whiteout base has
been removed, and the new permission is not writable. -/
def brModRo (st : Sbinfo) (e : ModEnv) (hRoot : HiddenDentry) (perm : BrPerm) : Option Int :=
  let bindex := st.findDbindex hRoot
  if bindex < 0 then none
  else
    match testBr e.rdonly perm with
    | .error _ => none
    | .ok () =>
      match st.stobr bindex with
      | none => none
      | some br =>
        if br.brPerm = perm then none
        else if brWritable br.brPerm then
          match initBrWh e.wh st.plink .RO br with
          | (.error _, _) => none
          | (.ok (), _) => if brWritable perm then none else some bindex
        else none

/-- An option of a remount, as far as the open files go. -/
def optFiles (st : Sbinfo) (o : AuOpt) (files : List SFile) : Option (List SFile) :=
  match o with
  | .mod e hRoot perm =>
    match brModRo st e hRoot perm with
    | some bindex => modRoLoop bindex files
    | none => some files
  | _ => some files

/-- One option of a remount: the branches and the files before it and after it. -/
structure OptStep where
  opt : AuOpt
  st : Sbinfo
  files : List SFile
  st' : Sbinfo
  files' : Option (List SFile)

/-- The loop of `au_do_opts_remount`, one step for each option that it comes to. `s_files` does
not change on the way but for `br_mod`. -/
def remountSteps (h : Host) : List AuOpt → Sbinfo → List SFile → List OptStep
  | [], _, _ => []
  | o :: os, st, files =>
    ⟨o, st, files, (h.remountOpt st o).2, optFiles st o files⟩ ::
      match (h.remountOpt st o).1, optFiles st o files with
      | .ok (), some files' => remountSteps h os (h.remountOpt st o).2 files'
      | _, _ => []

-- ---------------------------------------------------------------------------
-- What is to hold
-- ---------------------------------------------------------------------------

/-- Is this the first hidden file of a regular file opened for writing, and on the branch? -/
structure SFile.FirstOn (f : SFile) (id b : Int) (hf : HFile) : Prop where
  reg : f.type = .reg
  write : f.fMode.write = true
  first : b = f.fbstart
  on : hf.br = id

/-- A file before and after: `FMODE_WRITE` is lost by its first hidden file on the branch if the
file is one to write to, and by no other, and what is on another branch stays as it is. -/
structure ExactFile (id : Int) (f f' : SFile) : Prop where
  file : f' = { f with hfile := f'.hfile }
  slots : ∀ b, (f'.hfile b).map HFile.br = (f.hfile b).map HFile.br
  loses : ∀ b hf hf', f.hfile b = some hf → f'.hfile b = some hf' →
    ((hf.fMode.write = true ∧ hf'.fMode.write = false) ↔ (hf.fMode.write = true ∧ f.FirstOn id b hf))
  frame : ∀ b hf, f.hfile b = some hf → hf.br ≠ id → f'.hfile b = some hf

/-- The files before and after, if no null pointer is followed. -/
def Exact (id : Int) (files : List SFile) (files' : Option (List SFile)) : Prop :=
  ∃ fs, files' = some fs ∧ List.Forall₂ (ExactFile id) files fs

/-- If the option is a `mod` that makes a writable branch read-only, it is exact. -/
def OptStep.Exact (s : OptStep) : Prop :=
  ∀ e hRoot perm, s.opt = .mod e hRoot perm → ∀ b br br', s.st.stobr b = some br →
    brWritable br.brPerm = true → s.st'.stobr b = some br' → brWritable br'.brPerm = false →
    RoFiles.Exact br.brId s.files s.files'

/-- The index of the file tells whether its first hidden file is on the branch: where it is the
index of the branch, the hidden file is on the branch or was read-only before, and where it is
not, the hidden file is on another branch or is not open for writing. -/
def SFile.Tells (id bindex : Int) (f : SFile) : Prop :=
  f.type = .reg → f.fMode.write = true →
    (f.fbstart = bindex → ∃ hf, f.hFptr = some hf ∧ (hf.br = id ∨ hf.toRo = hf)) ∧
    ∀ hf, f.hFptr = some hf → hf.br = id → hf.fMode.write = true → f.fbstart = bindex

/-- Where the option comes to the loop, every file tells whether it is on the branch. -/
def OptStep.Tells (s : OptStep) : Prop :=
  ∀ e hRoot perm, s.opt = .mod e hRoot perm → ∀ b br, brModRo s.st e hRoot perm = some b →
    s.st.stobr b = some br → ∀ f ∈ s.files, f.Tells br.brId b

-- ---------------------------------------------------------------------------
-- One file
-- ---------------------------------------------------------------------------

variable {id bindex : Int} {f f' : SFile}

@[simp] theorem setFirst_hfile_self (hf : HFile) : (f.setFirst hf).hfile f.fbstart = some hf :=
  Function.update_self ..

theorem setFirst_hfile_of_ne {b : Int} (hb : b ≠ f.fbstart) (hf : HFile) :
    (f.setFirst hf).hfile b = f.hfile b :=
  Function.update_of_ne hb ..

/-- A file that the loop goes past. -/
theorem exactFile_self_iff :
    ExactFile id f f ↔ ∀ b hf, f.hfile b = some hf → hf.fMode.write = true → ¬ f.FirstOn id b hf := by
  constructor
  · intro he b hf hb hw hfirst
    have hboth := (he.loses b hf hf hb hb).mpr ⟨hw, hfirst⟩
    rw [hw] at hboth
    exact absurd hboth.2 (by decide)
  · intro hno
    refine ⟨rfl, fun _ => rfl, fun b hf hf' hb hb' => ?_, fun _ _ hb _ => hb⟩
    obtain rfl := Option.some.inj (hb.symm.trans hb')
    constructor
    · rintro ⟨hw, hnot⟩
      exact absurd (hw.symm.trans hnot) (by decide)
    · rintro ⟨hw, hfirst⟩
      exact absurd hfirst (hno b hf hb hw)

/-- A file whose first hidden file is made read-only. -/
theorem exactFile_toRo_iff {hf : HFile} (hreg : f.type = .reg) (hwrite : f.fMode.write = true)
    (hfirst : f.hFptr = some hf) :
    ExactFile id f (f.setFirst hf.toRo) ↔ hf.br = id ∨ hf.toRo = hf := by
  constructor
  · intro he
    by_cases hon : hf.br = id
    · exact .inl hon
    · have hkept := he.frame f.fbstart hf hfirst hon
      rw [setFirst_hfile_self] at hkept
      exact .inr (Option.some.inj hkept)
  · intro hor
    refine ⟨rfl, fun b => ?_, fun b x x' hb hb' => ?_, fun b x hb hne => ?_⟩
    · by_cases hbs : b = f.fbstart
      · subst hbs
        simp only [setFirst_hfile_self, show f.hfile f.fbstart = some hf from hfirst, Option.map_some,
          HFile.toRo]
      · simp only [setFirst_hfile_of_ne hbs]
    · by_cases hbs : b = f.fbstart
      · subst hbs
        obtain rfl := Option.some.inj (hb.symm.trans hfirst)
        rw [setFirst_hfile_self] at hb'
        obtain rfl := Option.some.inj hb'
        refine and_congr_right fun hw => iff_of_true rfl ⟨hreg, hwrite, rfl, hor.resolve_right fun heq => ?_⟩
        rw [← heq] at hw
        exact absurd hw (by simp [HFile.toRo])
      · rw [setFirst_hfile_of_ne hbs] at hb'
        obtain rfl := Option.some.inj (hb.symm.trans hb')
        refine and_congr_right fun hw => iff_of_false (by simp [hw]) fun h => hbs h.first
    · by_cases hbs : b = f.fbstart
      · subst hbs
        obtain rfl := Option.some.inj (hb.symm.trans hfirst)
        rw [setFirst_hfile_self, hor.resolve_left hne]
      · rw [setFirst_hfile_of_ne hbs, hb]

/-- One round of the loop is right for exactly the files that tell. -/
theorem modRo_exact_iff :
    (∃ f', f.modRo bindex = some f' ∧ ExactFile id f f') ↔ f.Tells id bindex := by
  unfold SFile.modRo
  split
  case isTrue hskip =>
    simp only [Option.some.injEq, exists_eq_left', exactFile_self_iff]
    constructor
    · intro hno hreg hwrite
      refine ⟨fun hidx => ?_, fun hf hfirst hon hw => absurd ⟨hreg, hwrite, rfl, hon⟩ (hno _ hf hfirst hw)⟩
      rcases hskip with h | h | h
      · exact absurd hreg h
      · exact absurd (hwrite.symm.trans h) (by decide)
      · exact absurd hidx h
    · rintro htells b hf hb hw ⟨hreg, hwrite, rfl, hon⟩
      have hidx := (htells hreg hwrite).2 hf hb hon hw
      rcases hskip with h | h | h
      · exact absurd hreg h
      · exact absurd (hwrite.symm.trans h) (by decide)
      · exact absurd hidx h
  case isFalse hhit =>
    simp only [not_or, Decidable.not_not, Bool.not_eq_false] at hhit
    obtain ⟨hreg, hwrite, hidx⟩ := hhit
    cases hfirst : f.hFptr with
    | none =>
        refine iff_of_false (by simp) fun htells => ?_
        obtain ⟨hf, hsome, -⟩ := (htells hreg hwrite).1 hidx
        rw [hfirst] at hsome
        cases hsome
    | some hf =>
        simp only [Option.map_some, Option.some.injEq, exists_eq_left',
          exactFile_toRo_iff hreg hwrite hfirst]
        constructor
        · intro hor _ _
          exact ⟨fun _ => ⟨hf, hfirst, hor⟩, fun _ _ _ _ => hidx⟩
        · intro htells
          obtain ⟨x, hx, hor⟩ := (htells hreg hwrite).1 hidx
          obtain rfl := Option.some.inj (hx.symm.trans hfirst)
          exact hor

-- ---------------------------------------------------------------------------
-- One option
-- ---------------------------------------------------------------------------

theorem modRoLoop_exact_iff {files : List SFile} :
    Exact id files (modRoLoop bindex files) ↔ ∀ f ∈ files, f.Tells id bindex := by
  induction files with
  | nil => exact iff_of_true ⟨[], rfl, .nil⟩ (by simp)
  | cons f files ih =>
      rw [List.forall_mem_cons, ← modRo_exact_iff, ← ih]
      constructor
      · rintro ⟨fs, hfs, hall⟩
        unfold modRoLoop at hfs
        cases hf : f.modRo bindex with
        | none =>
            rw [hf] at hfs
            cases hfs
        | some f' =>
            rw [hf] at hfs
            obtain ⟨fs', hfs', rfl⟩ := Option.map_eq_some_iff.mp hfs
            obtain ⟨h1, h2⟩ := List.forall₂_cons.mp hall
            exact ⟨⟨f', rfl, h1⟩, fs', hfs', h2⟩
      · rintro ⟨⟨f', hf, h1⟩, fs, hfs, h2⟩
        refine ⟨f' :: fs, ?_, .cons h1 h2⟩
        rw [modRoLoop, hf]
        dsimp only
        rw [hfs, Option.map_some]

/-- What a change of one branch leaves of the permissions. -/
theorem perm_setBranch {st : Sbinfo} {i : Int} {br₀ br₁ : AufsBranch} (h0 : 0 ≤ i)
    (hi : st.stobr i = some br₀) (c : Int) :
    ((st.setBranch i fun _ => br₁).stobr c).map AufsBranch.brPerm =
      if c = i then some br₁.brPerm else (st.stobr c).map AufsBranch.brPerm := by
  rw [Sbinfo.stobr_setBranch h0, hi]
  split <;> rfl

/-- `br_mod` leaves all permissions and does not come to the loop, or it changes one, and comes to
the loop if the branch becomes read-only. -/
theorem brMod_cases (st : Sbinfo) (e : ModEnv) (hRoot : HiddenDentry) (perm : BrPerm) (remount : Bool) :
    (brModRo st e hRoot perm = none ∧ ∀ c, ((brMod st e hRoot perm remount).2.stobr c).map AufsBranch.brPerm =
      (st.stobr c).map AufsBranch.brPerm) ∨
    ∃ i br₀, st.stobr i = some br₀ ∧
      (∀ c, ((brMod st e hRoot perm remount).2.stobr c).map AufsBranch.brPerm =
        if c = i then some perm else (st.stobr c).map AufsBranch.brPerm) ∧
      brModRo st e hRoot perm =
        if brWritable br₀.brPerm = true ∧ brWritable perm = false then some i else none := by
  by_cases hneg : st.findDbindex hRoot < 0
  · exact .inl ⟨by simp only [brModRo, if_pos hneg], by simp only [brMod, if_pos hneg, implies_true]⟩
  cases htest : testBr e.rdonly perm with
  | error err =>
      exact .inl ⟨by simp only [brModRo, if_neg hneg, htest],
        by simp only [brMod, if_neg hneg, htest, implies_true]⟩
  | ok u =>
      have h0 : 0 ≤ st.findDbindex hRoot := by omega
      cases hi : st.stobr (st.findDbindex hRoot) with
      | none =>
          exact .inl ⟨by simp only [brModRo, if_neg hneg, htest, hi],
            by simp only [brMod, if_neg hneg, htest, hi, implies_true]⟩
      | some br₀ =>
          by_cases hperm : br₀.brPerm = perm
          · exact .inl ⟨by simp only [brModRo, if_neg hneg, htest, hi, if_pos hperm],
              by simp only [brMod, if_neg hneg, htest, hi, if_pos hperm, implies_true]⟩
          by_cases hw : brWritable br₀.brPerm = true
          · cases hinit : initBrWh e.wh st.plink .RO br₀ with
            | mk r br₁ =>
                have hkept : br₁.brPerm = br₀.brPerm := by
                  have hkey := key_initBrWh e.wh st.plink .RO br₀
                  rw [hinit] at hkey
                  exact congrArg BrKey.perm hkey
                cases r with
                | error err =>
                    refine .inl ⟨by simp only [brModRo, if_neg hneg, htest, hi, if_neg hperm, if_pos hw, hinit],
                      fun c => ?_⟩
                    simp only [brMod, if_neg hneg, htest, hi, if_neg hperm, if_pos hw, hinit]
                    rw [perm_setBranch h0 hi, hkept]
                    split
                    case isTrue hc => rw [hc, hi, Option.map_some]
                    case isFalse => rfl
                | ok u' =>
                    refine .inr ⟨_, br₀, hi, fun c => ?_, ?_⟩
                    · simp only [brMod, if_neg hneg, htest, hi, if_neg hperm, if_pos hw, hinit]
                      exact perm_setBranch h0 hi c
                    · simp only [brModRo, if_neg hneg, htest, hi, if_neg hperm, if_pos hw, hinit]
                      cases brWritable perm <;> simp [hw]
          · refine .inr ⟨_, br₀, hi, fun c => ?_, ?_⟩
            · simp only [brMod, if_neg hneg, htest, hi, if_neg hperm, if_neg hw]
              exact perm_setBranch h0 hi c
            · simp only [brModRo, if_neg hneg, htest, hi, if_neg hperm, if_neg hw]
              simp [hw]

/-- `br_mod` comes to the loop just when it makes a writable branch read-only, and with the index
of this branch. -/
theorem brModRo_iff {st : Sbinfo} {e : ModEnv} {hRoot : HiddenDentry} {perm : BrPerm} {remount : Bool}
    {b : Int} {br : AufsBranch} (hbr : st.stobr b = some br) :
    brModRo st e hRoot perm = some b ↔ brWritable br.brPerm = true ∧
      ∃ br', (brMod st e hRoot perm remount).2.stobr b = some br' ∧ brWritable br'.brPerm = false := by
  have hread : ∀ p, ((brMod st e hRoot perm remount).2.stobr b).map AufsBranch.brPerm = some p →
      ((∃ br', (brMod st e hRoot perm remount).2.stobr b = some br' ∧ brWritable br'.brPerm = false) ↔
        brWritable p = false) := by
    intro p hp
    obtain ⟨br', hbr', rfl⟩ := Option.map_eq_some_iff.mp hp
    rw [hbr']
    simp only [Option.some.injEq, exists_eq_left']
  rcases brMod_cases st e hRoot perm remount with ⟨hro, hperms⟩ | ⟨i, br₀, hi, hperms, hro⟩
  · rw [hread br.brPerm (by rw [hperms, hbr, Option.map_some]), hro]
    simp
  · by_cases hb : b = i
    · obtain rfl := Option.some.inj (hbr.symm.trans (hb ▸ hi))
      rw [hread perm (by rw [hperms, if_pos hb]), hro, ← hb]
      simp
    · rw [hread br.brPerm (by rw [hperms, if_neg hb, hbr, Option.map_some]), hro]
      refine iff_of_false (fun h => ?_) (by simp)
      split at h
      · exact hb (Option.some.inj h).symm
      · cases h

/-- The files after a `mod` that comes to the loop. -/
theorem optFiles_mod {st : Sbinfo} {e : ModEnv} {hRoot : HiddenDentry} {perm : BrPerm} {b : Int}
    {files : List SFile} (h : brModRo st e hRoot perm = some b) :
    optFiles st (.mod e hRoot perm) files = modRoLoop b files := by
  simp only [optFiles, h]

/-- The branches after a `mod`. -/
theorem remountOpt_mod (h : Host) (st : Sbinfo) (e : ModEnv) (hRoot : HiddenDentry) (perm : BrPerm) :
    (h.remountOpt st (.mod e hRoot perm)).2 = (brMod st e hRoot perm true).2 := rfl

/-- A step of a remount: what it does to the branches and the files. -/
structure OptStep.Runs (h : Host) (s : OptStep) : Prop where
  st' : s.st' = (h.remountOpt s.st s.opt).2
  files' : s.files' = optFiles s.st s.opt s.files

theorem runs_of_mem {h : Host} {opts : List AuOpt} {st : Sbinfo} {files : List SFile} {s : OptStep}
    (hs : s ∈ remountSteps h opts st files) : s.Runs h := by
  induction opts generalizing st files with
  | nil => cases hs
  | cons o os ih =>
      unfold remountSteps at hs
      rcases List.mem_cons.mp hs with rfl | hs
      · exact ⟨rfl, rfl⟩
      · split at hs
        · exact ih hs
        · cases hs

/-- One option: it is exact just when the files tell. -/
theorem OptStep.Runs.exact_iff {h : Host} {s : OptStep} (hs : s.Runs h) : s.Exact ↔ s.Tells := by
  constructor
  · intro hex e hRoot perm hopt b br hro hbr
    obtain ⟨hw, br', hbr', hnot⟩ := (@brModRo_iff s.st e hRoot perm true b br hbr).mp hro
    rw [← modRoLoop_exact_iff, ← optFiles_mod hro, ← hopt, ← hs.files']
    refine hex e hRoot perm hopt b br br' hbr hw ?_ hnot
    rw [hs.st', hopt, remountOpt_mod, hbr']
  · intro htells e hRoot perm hopt b br br' hbr hw hbr' hnot
    rw [hs.st', hopt, remountOpt_mod] at hbr'
    have hro := (@brModRo_iff s.st e hRoot perm true b br hbr).mpr ⟨hw, br', hbr', hnot⟩
    rw [hs.files', hopt, optFiles_mod hro, modRoLoop_exact_iff]
    exact htells e hRoot perm hopt b br hro hbr

/-- In every remount, `br_mod` takes `FMODE_WRITE` from exactly the writers of the branch that
becomes read-only just when the index of every file tells whether it is on that branch. -/
theorem remount_exact_iff (h : Host) (opts : List AuOpt) (st : Sbinfo) (files : List SFile) :
    (∀ s ∈ remountSteps h opts st files, s.Exact) ↔ ∀ s ∈ remountSteps h opts st files, s.Tells :=
  forall₂_congr fun _ hs => (runs_of_mem hs).exact_iff

-- ---------------------------------------------------------------------------
-- Files that are up to date
-- ---------------------------------------------------------------------------

/-- What a refresh leaves of a file to write to: its first hidden file is on the branch that has
its index. -/
def SFile.Aligned (st : Sbinfo) (f : SFile) : Prop :=
  f.type = .reg → f.fMode.write = true → ∃ hf br, f.hFptr = some hf ∧ st.InTable f.fbstart ∧
    st.stobr f.fbstart = some br ∧ br.brId = hf.br

/-- The branches of the table keep their index. -/
def Stays (st st' : Sbinfo) : Prop :=
  ∀ b br, st.InTable b → st.stobr b = some br →
    st'.InTable b ∧ ∃ br', st'.stobr b = some br' ∧ br'.brId = br.brId

/-- May the option move a branch to another index? -/
def moves : AuOpt → Bool
  | .prepend .. | .add .. | .del .. => true
  | _ => false

theorem brModRo_eq {st : Sbinfo} {e : ModEnv} {hRoot : HiddenDentry} {perm : BrPerm} {b : Int}
    (h : brModRo st e hRoot perm = some b) : b = st.findDbindex hRoot ∧ 0 ≤ b := by
  unfold brModRo at h
  dsimp only at h
  split at h
  · cases h
  split at h
  · cases h
  split at h
  · cases h
  split at h
  · cases h
  split at h
  · split at h
    · cases h
    · split at h
      · cases h
      · obtain rfl := Option.some.inj h
        exact ⟨rfl, by omega⟩
  · cases h

/-- An up to date file tells. -/
theorem SFile.Aligned.tells {h : Host} {st : Sbinfo} (ht : h.Tabled st) (hal : f.Aligned st) {e : ModEnv}
    {hRoot : HiddenDentry} {perm : BrPerm} {b : Int} {br : AufsBranch}
    (hro : brModRo st e hRoot perm = some b) (hbr : st.stobr b = some br) : f.Tells br.brId b := by
  obtain ⟨t, ht⟩ := ht
  intro hreg hwrite
  obtain ⟨hf, br₀, hfirst, hin, hbr₀, hid⟩ := hal hreg hwrite
  refine ⟨fun hidx => ⟨hf, hfirst, .inl ?_⟩, fun x hx hon _ => ?_⟩
  · rw [hidx, hbr] at hbr₀
    rw [← hid, Option.some.inj hbr₀]
  · obtain rfl := Option.some.inj (hfirst.symm.trans hx)
    obtain ⟨heq, h0⟩ := brModRo_eq hro
    have hb : st.InTable b := by
      rcases ht.holds.findDbindex_cases hRoot with ⟨i, s, hfind, hs, -⟩ | ⟨hfind, -⟩
      · have hlt := (List.getElem?_eq_some_iff.mp hs).1
        have hend := ht.holds.siBend
        exact ⟨h0, by omega⟩
      · omega
    exact ht.tableOk.distinct _ _ _ _ hin hb hbr₀ hbr (hid.trans hon)

theorem SFile.Aligned.stays {st st' : Sbinfo} (hal : f.Aligned st) (hstay : Stays st st') :
    f.Aligned st' := by
  intro hreg hwrite
  obtain ⟨hf, br, hfirst, hin, hbr, hid⟩ := hal hreg hwrite
  obtain ⟨hin', br', hbr', hid'⟩ := hstay _ br hin hbr
  exact ⟨hf, br', hfirst, hin', hbr', hid'.trans hid⟩

/-- A round of the loop does not change what makes a file up to date. -/
theorem SFile.Aligned.modRo {st : Sbinfo} (hal : f.Aligned st) (h : f.modRo bindex = some f') :
    f'.Aligned st := by
  unfold SFile.modRo at h
  split at h
  · exact Option.some.inj h ▸ hal
  · obtain ⟨hf, hfirst, rfl⟩ := Option.map_eq_some_iff.mp h
    intro hreg hwrite
    obtain ⟨x, br, hx, hin, hbr, hid⟩ := hal hreg hwrite
    obtain rfl := Option.some.inj (hx.symm.trans hfirst)
    exact ⟨x.toRo, br, setFirst_hfile_self _, hin, hbr, hid⟩

theorem aligned_modRoLoop {st : Sbinfo} {files files' : List SFile}
    (hal : ∀ f ∈ files, f.Aligned st) (h : modRoLoop bindex files = some files') :
    ∀ f ∈ files', f.Aligned st := by
  induction files generalizing files' with
  | nil =>
      obtain rfl := Option.some.inj h
      simp
  | cons f files ih =>
      obtain ⟨hf, hrest⟩ := List.forall_mem_cons.mp hal
      unfold modRoLoop at h
      cases hr : f.modRo bindex with
      | none =>
          rw [hr] at h
          cases h
      | some f' =>
          rw [hr] at h
          obtain ⟨fs, hfs, rfl⟩ := Option.map_eq_some_iff.mp h
          exact List.forall_mem_cons.mpr ⟨hf.modRo hr, ih hrest hfs⟩

theorem aligned_optFiles {st : Sbinfo} {o : AuOpt} {files files' : List SFile}
    (hal : ∀ f ∈ files, f.Aligned st) (h : optFiles st o files = some files') :
    ∀ f ∈ files', f.Aligned st := by
  have hsame : some files = some files' → ∀ f ∈ files', f.Aligned st :=
    fun heq => Option.some.inj heq ▸ hal
  cases o with
  | mod e hRoot perm =>
      unfold optFiles at h
      dsimp only at h
      split at h
      · exact aligned_modRoLoop hal h
      · exact hsame h
  | _ => exact hsame h


/-- A table that begins with the branches of another one. -/
theorem stays_of_prefix {h : Host} {st st' : Sbinfo} {t t' : BrList h} (ht : st.Is t) (ht' : st'.Is t')
    (hpre : t.slots.map Slot.id <+: t'.slots.map Slot.id) : Stays st st' := by
  intro b br hin hbr
  obtain ⟨h0, hle⟩ := hin
  obtain ⟨s, hs, hkey⟩ := ht.holds.slot_of_stobr hbr hle
  have hlt := (List.getElem?_eq_some_iff.mp hs).1
  have hlen := hpre.length_le
  simp only [List.length_map] at hlen
  have hend' := ht'.holds.siBend
  have hlt' : b.toNat < t'.slots.length := by omega
  obtain ⟨br', hbr', hkey'⟩ := ht'.holds.stobr (List.getElem?_eq_getElem hlt')
  rw [Int.toNat_of_nonneg h0] at hbr'
  refine ⟨⟨h0, by omega⟩, br', hbr', ?_⟩
  have hid : (t.slots.map Slot.id)[b.toNat]? = (t'.slots.map Slot.id)[b.toNat]? := by
    obtain ⟨rest, hrest⟩ := hpre
    rw [← hrest, List.getElem?_append_left (by rw [List.length_map]; exact hlt)]
  rw [List.getElem?_map, List.getElem?_map, hs, List.getElem?_eq_getElem hlt'] at hid
  exact (congrArg BrKey.id hkey').trans ((Option.some.inj hid).symm.trans (congrArg BrKey.id hkey).symm)

/-- An option that does not move branches leaves each of them at its index. -/
theorem remountOpt_stays {h : Host} {st : Sbinfo} (ht : h.Tabled st) {o : AuOpt} (ho : moves o = false) :
    Stays st (h.remountOpt st o).2 := by
  obtain ⟨t, ht⟩ := ht
  have hsame : ∀ {st' : Sbinfo}, st'.Is t → Stays st st' := fun ht' =>
    stays_of_prefix ht ht' (List.prefix_refl _)
  cases o with
  | append e perm nd =>
      have hlen := ht.holds.siBend
      rcases Host.brAdd_spec ht e ⟨st.siBend + 1, perm, nd⟩ true with ht' | ⟨s, hi, hs, -, -, -, ht', -⟩
      · exact hsame ht'
      · refine stays_of_prefix ht ht' ?_
        have hend : (st.siBend + 1).toNat = t.slots.length := by omega
        simp only [BrList.add, hend, List.insertIdx_length_self, List.map_append]
        exact List.prefix_append ..
  | mod e hRoot perm =>
      rcases Host.brMod_spec ht e hRoot perm true with ht' | ⟨i, s, -, -, -, ht'⟩
      · exact hsame ht'
      · have hids : (t.chperm i perm).slots.map Slot.id = t.slots.map Slot.id :=
          BrList.map_modify (f := Slot.chperm perm) (fun _ => rfl) t.slots i
        exact stays_of_prefix ht ht' (hids ▸ List.prefix_refl _)
  | plink on => exact hsame (ht.sameTable ⟨rfl, rfl, rfl, rfl, rfl, rfl, rfl, rfl, rfl, rfl⟩)
  | simple => exact hsame ht
  | xino e place => exact hsame (ht.sameTable (@Host.sameRest_doOptXino h st true (.xino e place)).sameTable)
  | noxino => exact hsame (ht.sameTable (@Host.sameRest_doOptXino h st true .noxino).sameTable)
  | prepend | add | del => cases ho

/-- In a remount that moves no branch, `br_mod` is exact for files that are up to date. -/
theorem remount_exact_of_aligned {h : Host} {opts : List AuOpt} {st : Sbinfo} {files : List SFile}
    (ht : h.Tabled st) (hal : ∀ f ∈ files, f.Aligned st) (hopts : ∀ o ∈ opts, moves o = false) :
    ∀ s ∈ remountSteps h opts st files, s.Exact := by
  induction opts generalizing st files with
  | nil => simp [remountSteps]
  | cons o os ih =>
      obtain ⟨ho, hos⟩ := List.forall_mem_cons.mp hopts
      intro s hs
      unfold remountSteps at hs
      rcases List.mem_cons.mp hs with rfl | hs
      · rw [OptStep.Runs.exact_iff (h := h) ⟨rfl, rfl⟩]
        intro e hRoot perm _ b br hro hbr f hf
        exact (hal f hf).tells ht hro hbr
      · split at hs
        case h_1 files' hok hfiles =>
          exact ih (h.remountOpt_use ht o).1
            (fun f hf => (aligned_optFiles hal hfiles f hf).stays (remountOpt_stays ht ho)) hos s hs
        case h_2 => cases hs


-- ---------------------------------------------------------------------------
-- A branch is added in front
-- ---------------------------------------------------------------------------

/-- A mount of one writable branch. -/
def oneWritable : Sbinfo := (Host.plain.call (.init false false) (.addDir 3 [97] 0)).2

/-- A file on that branch, open for reading and writing. -/
def writer : SFile :=
  ⟨.reg, ⟨true, true⟩, 0, fun b =>
    if b = 0 then some ⟨1, ⟨false, true, false, false, false, false, 0⟩, ⟨true, true⟩⟩ else none⟩

/-- The branch becomes read-only. -/
def modFirst : AuOpt := .mod ⟨false, ⟨none, none, none, none⟩⟩ ⟨3, [[97]]⟩ .RO

/-- Another branch is added in front and the first one becomes read-only: the file on it keeps its
hidden file open for writing. -/
theorem not_exact_added_in_front :
    ¬ ∀ s ∈ remountSteps Host.plain [.addDir 5 [98] 0 .fine, modFirst] oneWritable [writer], s.Exact := by
  intro hall
  have hro : brModRo (Host.plain.remountOpt oneWritable (.addDir 5 [98] 0 .fine)).2
      ⟨false, ⟨none, none, none, none⟩⟩ ⟨3, [[97]]⟩ .RO = some 1 := by decide +kernel
  have hbr : (Host.plain.remountOpt oneWritable (.addDir 5 [98] 0 .fine)).2.stobr 1 =
      some ⟨none, false, false, 1, .RW, 3, 0, true, false⟩ := by decide +kernel
  have hex := hall ⟨modFirst, (Host.plain.remountOpt oneWritable (.addDir 5 [98] 0 .fine)).2, [writer], _, _⟩
    (.tail _ (.head _))
  rw [OptStep.Runs.exact_iff (h := Host.plain) ⟨rfl, rfl⟩] at hex
  have hidx := (hex _ _ _ rfl 1 _ hro hbr writer (.head _) rfl rfl).2 _ rfl rfl rfl
  exact absurd hidx (by decide)

end RoFiles

end Aufs
