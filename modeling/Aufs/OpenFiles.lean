-- SUMMARY: Files of aufs and the operations under way on them: the use counts of the branches over every run.
import Mathlib.Algebra.BigOperators.Ring.Finset
import Mathlib.Algebra.Order.Group.Int
import Mathlib.Algebra.Order.BigOperators.Group.List
import Aufs.HiddenFiles
import Aufs.Inode

/-!
# Open files

The open files of a mount with the operations under way on them, in any
interleaving: an operation takes one action at a time, between two of them any
other may act. A change of the branch table waits until no operation runs, a
branch whose `br_count` is not zero stays.
-/

namespace Aufs

open Holder FileOp

/-- A file at rest, an operation under way with what it holds, or nothing any more. `dirOpen`
says that the operation opens a directory. -/
inductive OpenFile where
  | rest (f : AufsFile)
  | busy (dirOpen : Bool) (own : Multiset Held) (op : FileTask (Except Errno Unit × Option AufsFile))
  | gone

/-- What a file or an operation holds. -/
def OpenFile.own : OpenFile → Multiset Held
  | .rest f => f.fi.own
  | .busy _ own _ => own
  | .gone => 0

/-- Is this an operation? -/
def OpenFile.running : OpenFile → Bool
  | .busy .. => true
  | _ => false

/-- The hidden files on a branch among what is held. -/
def hiddenOn (id : Int) (own : Multiset Held) : Nat := own.count (.file id) + own.count (.kept id)

/-- When the pool may refuse a task: an operation that opens a directory only as long as it holds
nothing. -/
def mayRefuse (dirOpen : Bool) (own : Multiset Held) : Prop := dirOpen → own = 0

/-- A file at rest is in order, an operation under way ends with a file in order. -/
def OpenFile.Ok (sb : SuperBlock) : OpenFile → Prop
  | .rest f => f.fi.Ok sb
  | .busy dirOpen own op => wp (Sound sb) (mayRefuse dirOpen) op (Done sb) own
  | .gone => True

theorem OpenFile.Ok.sound {sb : SuperBlock} {f : OpenFile} (h : f.Ok sb) : Sound sb f.own := by
  cases f with
  | rest f => exact (rests_of_ok h).holds.sound
  | busy d own op => exact wp.inv h
  | gone => exact .zero

/-- The mount as far as open files go. `opened` counts the hidden files that are open. -/
structure OpenFiles where
  sb : SuperBlock
  brCount : Int → Int
  opened : Int → Int
  files : List OpenFile

/-- What can happen. A file is known by its place among the files. -/
inductive FileEvent where
  | openFile (e : DentryEnv) (mem : Bool) (digen : Int) (isDir : Bool) (flags : FMode)
  | testEmpty (e : DentryEnv) (readdir : Int → Except Errno Unit)
  | testEmptyLower (e : DentryEnv) (mem : Bool) (readdir : Int → Except Errno Unit)
  | copyUp (c : CpupCall)
  | release (i : Nat)
  | reval (i : Nat) (v : RevalEnv)
  | readyToWrite (i : Nat) (w : WriteEnv)
  /-- The operation at `i` takes its next action; `answer` is what a lower open comes to. -/
  | act (i : Nat) (answer : Except Errno Unit)
  /-- The branch table changes. -/
  | branches (sb : SuperBlock)

namespace OpenFiles

/-- A mount without open files. -/
def start (sb : SuperBlock) : OpenFiles := ⟨sb, fun _ => 0, fun _ => 0, []⟩

/-- An operation that no open file belongs to. -/
def spawn (s : OpenFiles) (dirOpen : Bool) (op : FileTask (Except Errno Unit × Option AufsFile)) :
    OpenFiles :=
  { s with files := s.files ++ [.busy dirOpen 0 op] }

/-- An operation on the file at `i`. -/
def onFile (s : OpenFiles) (i : Nat) (op : AufsFile → FileTask (Except Errno Unit × Option AufsFile)) :
    OpenFiles :=
  match s.files[i]? with
  | some (.rest f) => { s with files := s.files.set i (.busy false f.fi.own (op f)) }
  | _ => s

/-- An operation that leaves no file. -/
def noFile (op : FileTask (Except Errno Unit)) : FileTask (Except Errno Unit × Option AufsFile) := do
  let err ← op
  pure (err, none)

/-- The next action of the operation at `i`. -/
def act (s : OpenFiles) (i : Nat) (answer : Except Errno Unit) : OpenFiles :=
  match s.files[i]? with
  | some (.busy _ _ (.ret (_, none))) => { s with files := s.files.set i .gone }
  | some (.busy _ _ (.ret (_, some f))) => { s with files := s.files.set i (.rest f) }
  | some (.busy dirOpen own op) =>
    { sb := s.sb
      brCount := fun id => s.brCount id - op.given.count (.ref id) + (op.taken answer).count (.ref id)
      opened := fun id => s.opened id - hiddenOn id op.given + hiddenOn id (op.taken answer)
      files := s.files.set i (.busy dirOpen (op.holds answer own) (op.act answer)) }
  | _ => s

/-- Can the branch table become `sb`? No operation runs, the ids are distinct and no branch in
use is missing (`br_del` answers `-EBUSY`). -/
def canBecome (s : OpenFiles) (sb : SuperBlock) : Bool :=
  s.files.all (fun f => !f.running) && (sb.branches.map Branch.id).Nodup &&
    s.sb.branches.all fun br => s.brCount br.id = 0 || br.id ∈ sb.branches.map Branch.id

/-- What an event does. -/
def step (s : OpenFiles) : FileEvent → OpenFiles
  | .openFile e mem digen isDir flags => s.spawn isDir (auDoOpen s.sb e mem digen isDir flags)
  | .testEmpty e readdir => s.spawn false (noFile (FileOp.testEmpty s.sb e readdir))
  | .testEmptyLower e mem readdir => s.spawn false (noFile (auTestEmptyLower s.sb e mem readdir))
  | .copyUp c => s.spawn false (noFile (FileOp.copyUp s.sb c))
  | .release i => s.onFile i aufsRelease
  | .reval i v => s.onFile i (auRevalAndLockFinfo s.sb v)
  | .readyToWrite i w => s.onFile i (auReadyToWrite s.sb w)
  | .act i answer => s.act i answer
  | .branches sb =>
    if s.canBecome sb then
      -- a new branch starts with br_count 0
      { s with
        sb
        brCount := fun id => if id ∈ s.sb.branches.map Branch.id then s.brCount id else 0 }
    else s

/-- What a run of events leaves. -/
def run (s : OpenFiles) (evs : List FileEvent) : OpenFiles := evs.foldl step s

/-- The hidden files held on a branch by files and operations. -/
def held (s : OpenFiles) (id : Int) : Nat := (s.files.map fun f => hiddenOn id f.own).sum

/-- The hidden files on a branch that `au_reopen_nondir` keeps in `h_file_tmp`. -/
def kept (s : OpenFiles) (id : Int) : Nat := (s.files.map fun f => f.own.count (.kept id)).sum

/-- The use counts balance: every `br_count` is the number of hidden files held on the branch, and
no other hidden file is open. -/
def Balanced (s : OpenFiles) : Prop := ∀ id, s.brCount id = s.held id ∧ s.opened id = s.held id

/-- What the balance needs of an event. -/
def Meets (s : OpenFiles) : FileEvent → Prop
  | .reval i v => ∀ f, s.files[i]? = some (.rest f) → f.isDir = false → v.refresh.NotBefore s.sb f.fi
  | .readyToWrite i w => ∀ f, s.files[i]? = some (.rest f) → w.e.d.bstart ≤ f.fi.bstart
  | .act i (.error _) =>
    -- a directory that is opened holds no hidden directory yet
    ∀ own ks next, s.files[i]? = some (.busy true own (.take ks next)) → own = 0
  | _ => True

/-- Every event of a run meets its condition where it happens. -/
def RunMeets (s : OpenFiles) : List FileEvent → Prop
  | [] => True
  | ev :: evs => s.Meets ev ∧ (s.step ev).RunMeets evs

-- ---------------------------------------------------------------------------
-- The invariant
-- ---------------------------------------------------------------------------

/-- What every state of a run satisfies. -/
structure Inv (s : OpenFiles) : Prop where
  ids : s.sb.DistinctIds
  ok : ∀ f ∈ s.files, f.Ok s.sb
  brCount : ∀ id, s.brCount id = (s.files.map fun f => (f.own.count (.ref id) : Int)).sum
  opened : ∀ id, s.opened id = (s.files.map fun f => (hiddenOn id f.own : Int)).sum

theorem sum_map_set {α : Type} {l : List α} {i : Nat} {a b : α} (f : α → Int) (hi : l[i]? = some a) :
    ((l.set i b).map f).sum = (l.map f).sum - f a + f b := by
  induction l generalizing i with
  | nil => simp at hi
  | cons c l ih =>
      cases i with
      | zero =>
          obtain rfl : c = a := by simpa using hi
          simp only [List.set_cons_zero, List.map_cons, List.sum_cons]
          omega
      | succ i =>
          have := ih (i := i) (by simpa using hi)
          simp only [List.set_cons_succ, List.map_cons, List.sum_cons, this]
          omega

variable {s : OpenFiles} {i : Nat}

theorem Inv.start {sb : SuperBlock} (hids : sb.DistinctIds) : Inv (start sb) where
  ids := hids
  ok := fun f hf => absurd hf (by simp [OpenFiles.start])
  brCount := fun id => rfl
  opened := fun id => rfl

/-- An entry is replaced by one that holds the same. -/
theorem Inv.set (h : Inv s) {f g : OpenFile} (hi : s.files[i]? = some f) (hg : g.Ok s.sb)
    (hown : g.own = f.own) : Inv { s with files := s.files.set i g } where
  ids := h.ids
  ok := fun k hk => (List.mem_or_eq_of_mem_set hk).elim (h.ok k) fun he => he ▸ hg
  brCount := fun id => by
    rw [sum_map_set _ hi, hown, h.brCount id]
    omega
  opened := fun id => by
    rw [sum_map_set _ hi, hown, h.opened id]
    omega

theorem Inv.spawn (h : Inv s) {dirOpen : Bool} {op : FileTask (Except Errno Unit × Option AufsFile)}
    (hop : wp (Sound s.sb) (mayRefuse dirOpen) op (Done s.sb) 0) : Inv (s.spawn dirOpen op) where
  ids := h.ids
  ok := fun f hf => by
    rcases List.mem_append.mp hf with hf | hf
    · exact h.ok f hf
    · obtain rfl := List.mem_singleton.mp hf
      exact hop
  brCount := fun id => by
    simp [OpenFiles.spawn, h.brCount id, OpenFile.own]
  opened := fun id => by
    simp [OpenFiles.spawn, h.opened id, OpenFile.own, hiddenOn]

theorem Inv.onFile (h : Inv s) {op : AufsFile → FileTask (Except Errno Unit × Option AufsFile)}
    (hop : ∀ f, s.files[i]? = some (.rest f) → f.fi.Ok s.sb →
      wp (Sound s.sb) (mayRefuse false) (op f) (Done s.sb) f.fi.own) : Inv (s.onFile i op) := by
  unfold OpenFiles.onFile
  split
  · rename_i f hi
    have hf : f.fi.Ok s.sb := h.ok _ (List.mem_of_getElem? hi)
    exact h.set hi (hop f hi hf) rfl
  · exact h

theorem Inv.act (h : Inv s) {answer : Except Errno Unit} (hm : s.Meets (.act i answer)) :
    Inv (s.act i answer) := by
  unfold OpenFiles.act
  split
  · rename_i hi
    have hw : wp _ _ _ _ _ := h.ok _ (List.mem_of_getElem? hi)
    exact h.set hi trivial hw.2.symm
  · rename_i f hi
    have hw : wp _ _ _ _ _ := h.ok _ (List.mem_of_getElem? hi)
    exact h.set hi hw.2.1 hw.2.2.symm
  · rename_i dirOpen own op _ _ hi
    have hw : wp _ _ op _ own := h.ok _ (List.mem_of_getElem? hi)
    have hnext := hw.act (r := answer) fun ks next e hop he hdir => by
      subst hop he
      obtain rfl : dirOpen = true := hdir
      exact hm own ks next hi
    refine ⟨h.ids, fun g hg => ?_, fun id => ?_, fun id => ?_⟩
    · rcases List.mem_or_eq_of_mem_set hg with hg | rfl
      · exact h.ok g hg
      · exact hnext
    · have hc := hw.count_holds answer (.ref id)
      simp only [sum_map_set _ hi, h.brCount id, OpenFile.own]
      omega
    · have hc := hw.count_holds answer (.file id)
      have hk := hw.count_holds answer (.kept id)
      simp only [sum_map_set _ hi, h.opened id, OpenFile.own, hiddenOn, Multiset.coe_count]
      omega
  · exact h

/-- A branch of a hidden file is in use. -/
theorem Inv.brCount_pos (h : Inv s) {f : AufsFile} (hf : .rest f ∈ s.files) {b : Int} {p : Hfile}
    (hp : f.fi.hfile b = some p) : s.brCount p.br ≠ 0 := by
  have hok : f.fi.Ok s.sb := h.ok _ hf
  have hmem : Held.ref p.br ∈ f.fi.own := by
    have hle := own_le_slotsOwn (Remap.mem_window.mpr (hok.wf.range b (by simp [hp])).2) (s := f.fi.hfile)
    rw [hp] at hle
    exact Multiset.mem_of_le hle (by simp [Hfile.own])
  have hpos : 1 ≤ (f.fi.own.count (.ref p.br) : Int) := by
    have := Multiset.one_le_count_iff_mem.mpr hmem
    omega
  have hle : (f.fi.own.count (.ref p.br) : Int) ≤ s.brCount p.br := by
    rw [h.brCount]
    refine List.single_le_sum (fun x hx => ?_) _ (List.mem_map.mpr ⟨_, hf, rfl⟩)
    obtain ⟨g, -, rfl⟩ := List.mem_map.mp hx
    exact Int.natCast_nonneg _
  omega

/-- A branch that is in use is in the table. -/
theorem Inv.mem_table (h : Inv s) {id : Int} (hid : s.brCount id ≠ 0) : id ∈ s.sb.branches.map Branch.id := by
  have hex : ∃ f ∈ s.files, (f.own.count (.ref id) : Int) ≠ 0 := by
    by_contra hno
    push Not at hno
    refine hid ((h.brCount id).trans (List.sum_eq_zero fun x hx => ?_))
    obtain ⟨f, hf, rfl⟩ := List.mem_map.mp hx
    exact hno f hf
  obtain ⟨f, hf, hne⟩ := hex
  have hmem : Held.ref id ∈ f.own := by
    by_contra hnot
    exact hne (by simp [Multiset.count_eq_zero_of_notMem hnot])
  exact SuperBlock.mem_ids.mpr ((h.ok f hf).sound.table id hmem)

theorem Inv.branches (h : Inv s) {sb : SuperBlock} (hsb : s.canBecome sb) :
    Inv { s with
      sb
      brCount := fun id => if id ∈ s.sb.branches.map Branch.id then s.brCount id else 0 } := by
  simp only [canBecome, Bool.and_eq_true, decide_eq_true_eq, List.all_eq_true] at hsb
  obtain ⟨⟨hq, hnodup⟩, hkeep⟩ := hsb
  refine ⟨SuperBlock.distinctIds_of_nodup hnodup, fun f hf => ?_, fun id => ?_, h.opened⟩
  · cases f with
    | gone => trivial
    | busy d own op => simpa [OpenFile.running] using hq _ hf
    | rest f =>
        have hok : f.fi.Ok s.sb := h.ok _ hf
        refine ⟨hok.wf, hok.same, fun b p hp => ?_⟩
        -- a branch in use stays in the table
        have huse := h.brCount_pos hf hp
        obtain ⟨br, hbr, hid⟩ := List.mem_map.mp (SuperBlock.mem_ids.mpr (hok.table b p hp))
        have := hkeep br hbr
        rw [hid, Bool.or_eq_true, decide_eq_true_eq, decide_eq_true_eq] at this
        exact SuperBlock.mem_ids.mp (this.resolve_left huse)
  · rw [← h.brCount id]
    dsimp only
    split
    · rfl
    · rename_i hout
      by_contra hne
      exact hout (h.mem_table fun h0 => hne h0.symm)

theorem wp_noFile {sb : SuperBlock} {may : Multiset Held → Prop} {op : FileTask (Except Errno Unit)}
    (h : wp (Sound sb) may op (fun _ own => own = 0) 0) : wp (Sound sb) may (noFile op) (Done sb) 0 := by
  rw [noFile, wp_bind]
  exact h.mono fun r own ho => ⟨ho ▸ .zero, ho⟩

/-- Every event that meets its condition keeps the invariant. -/
theorem Inv.step (h : Inv s) {ev : FileEvent} (hm : s.Meets ev) : Inv (s.step ev) := by
  cases ev with
  | openFile e mem digen isDir flags => exact h.spawn (wp_auDoOpen h.ids fun hd own ho => ho hd)
  | testEmpty e readdir => exact h.spawn (wp_noFile (wp_testEmptyFrom .zero fun _ => rfl))
  | testEmptyLower e mem readdir => exact h.spawn (wp_noFile (wp_auTestEmptyLower .zero fun _ => rfl))
  | copyUp c => exact h.spawn (wp_noFile (wp_copyUp .zero fun _ => rfl))
  | release i => exact h.onFile fun f _ hf => wp_aufsRelease hf
  | reval i v => exact h.onFile fun f hi hf => wp_auRevalAndLockFinfo hf h.ids (hm f hi)
  | readyToWrite i w => exact h.onFile fun f hi hf => wp_auReadyToWrite hf (hm f hi)
  | act i answer => exact h.act hm
  | branches sb =>
      simp only [OpenFiles.step]
      split
      · rename_i hsb
        exact h.branches hsb
      · exact h

theorem Inv.run (h : Inv s) {evs : List FileEvent} (hm : s.RunMeets evs) : Inv (s.run evs) := by
  induction evs generalizing s with
  | nil => exact h
  | cons ev evs ih => exact ih (h.step hm.1) hm.2

-- ---------------------------------------------------------------------------
-- The balance
-- ---------------------------------------------------------------------------

/-- Every reference goes with a hidden file, and the hidden files without one are those that
`au_reopen_nondir` keeps aside. -/
theorem Inv.balance (h : Inv s) (id : Int) :
    s.opened id = s.held id ∧ s.brCount id + s.kept id = s.held id := by
  have hsum : ∀ (l : List OpenFile), (∀ f ∈ l, f.Ok s.sb) →
      (l.map fun f => (hiddenOn id f.own : Int)).sum =
        (l.map fun f => (f.own.count (.ref id) : Int)).sum +
          (l.map fun f => (f.own.count (.kept id) : Int)).sum := by
    intro l hl
    induction l with
    | nil => rfl
    | cons f l ih =>
        have heven := (hl f (List.mem_cons_self ..)).sound.even id
        have hf : (hiddenOn id f.own : Int) = f.own.count (.ref id) + f.own.count (.kept id) := by
          simp [hiddenOn, heven]
        simp only [List.map_cons, List.sum_cons, hf, ih fun g hg => hl g (List.mem_cons_of_mem f hg)]
        omega
  have hheld : ((s.held id : Nat) : Int) = (s.files.map fun f => (hiddenOn id f.own : Int)).sum := by
    rw [held, Nat.cast_list_sum, List.map_map]
    rfl
  have hkept : ((s.kept id : Nat) : Int) = (s.files.map fun f => (f.own.count (.kept id) : Int)).sum := by
    rw [kept, Nat.cast_list_sum, List.map_map]
    rfl
  rw [hheld, hkept, h.opened, h.brCount, hsum s.files h.ok]
  exact ⟨rfl, rfl⟩

/-- A file at rest keeps nothing aside. -/
theorem Inv.kept_eq_zero (h : Inv s) (hq : ∀ f ∈ s.files, f.running = false) (id : Int) : s.kept id = 0 := by
  refine List.sum_eq_zero fun x hx => ?_
  obtain ⟨f, hf, rfl⟩ := List.mem_map.mp hx
  cases f with
  | gone => rfl
  | busy d own op => simpa [OpenFile.running] using hq _ hf
  | rest f =>
      have hok : f.fi.Ok s.sb := h.ok _ hf
      refine Multiset.count_eq_zero_of_notMem fun hmem => ?_
      simp only [OpenFile.own, Finfo.own, slotsOwn, Multiset.mem_sum] at hmem
      obtain ⟨b, -, hb⟩ := hmem
      cases hs : f.fi.hfile b with
      | none => simp [Hfile.own, hs] at hb
      | some p => simp [Hfile.own, hs] at hb

/-- Branch use counts balance in every run that meets the conditions, but for the hidden files that
`au_reopen_nondir` keeps aside while it runs. Without an operation under way nothing is kept
aside, and without an open file every count is 0 and no hidden file is open. -/
theorem run_balanced {sb : SuperBlock} (hids : (sb.branches.map Branch.id).Nodup) {evs : List FileEvent}
    (hm : (OpenFiles.start sb).RunMeets evs) :
    let s := (OpenFiles.start sb).run evs
    (s.Balanced ↔ ∀ id, s.kept id = 0) ∧
      ((∀ f ∈ s.files, f.running = false) → s.Balanced) ∧
      ((∀ f ∈ s.files, f = .gone) → ∀ id, s.brCount id = 0 ∧ s.opened id = 0) := by
  intro s
  have h : Inv s := (Inv.start (SuperBlock.distinctIds_of_nodup hids)).run hm
  have hiff : s.Balanced ↔ ∀ id, s.kept id = 0 := by
    refine ⟨fun hb id => ?_, fun hk id => ?_⟩
    · have := h.balance id
      have := hb id
      omega
    · have := h.balance id
      have := hk id
      omega
  refine ⟨hiff, fun hq => hiff.mpr fun id => h.kept_eq_zero hq id, fun hgone id => ?_⟩
  have hzero : s.held id = 0 := by
    refine List.sum_eq_zero fun x hx => ?_
    obtain ⟨f, hf, rfl⟩ := List.mem_map.mp hx
    rw [hgone f hf]
    rfl
  have hk := h.kept_eq_zero (fun f hf => by rw [hgone f hf]; rfl) id
  have := h.balance id
  omega

/-- A directory on the two branches of ids 1 and 2. -/
def pairEnv : DentryEnv where
  d := pairDentry [1, 2]
  hi := fun _ => none
  nonneg := by decide

/-- Two branches. -/
def pairTable : SuperBlock := .ofBranches [.plain 1 .RW, .plain 2 .RO]

/-- An open that fails at once, then one that succeeds with the file released. -/
def openClose : List FileEvent :=
  [.openFile pairEnv true 1 true ⟨true, false⟩, .act 0 (.error .EACCES), .act 0 (.ok ()),
    .openFile pairEnv true 1 true ⟨true, false⟩, .act 1 (.ok ()), .act 1 (.ok ()), .act 1 (.ok ()),
    .release 1, .act 1 (.ok ()), .act 1 (.ok ()), .act 1 (.ok ())]

theorem run_balanced_openClose :
    let s := (OpenFiles.start pairTable).run openClose
    s.files.length = 2 ∧ s.brCount 1 = 0 ∧ s.opened 1 = 0 ∧ s.brCount 2 = 0 ∧ s.opened 2 = 0 := by
  have hgone : ((OpenFiles.start pairTable).run openClose).files = [.gone, .gone] := rfl
  have hm : (OpenFiles.start pairTable).RunMeets openClose := by
    refine ⟨trivial, ?_, trivial, trivial, trivial, trivial, trivial, trivial, trivial, trivial, trivial, trivial⟩
    intro own ks next h
    exact (OpenFile.busy.inj (Option.some.inj h)).2.1.symm
  have h := (run_balanced (by decide) hm).2.2 (by simp [hgone])
  exact ⟨rfl, (h 1).1, (h 1).2, (h 2).1, (h 2).2⟩

/-- The second hidden directory cannot be opened: the first one stays open for ever. -/
theorem run_leaks :
    let s := (OpenFiles.start pairTable).run
      [.openFile pairEnv true 1 true ⟨true, false⟩, .act 0 (.ok ()), .act 0 (.error .EACCES), .act 0 (.ok ())]
    s.files.all (fun f => match f with | .gone => true | _ => false) ∧ s.brCount 1 = 1 ∧ s.opened 1 = 1 ∧
      ¬ s.Balanced :=
  ⟨rfl, rfl, rfl, fun h => absurd (h 1).1 (by decide)⟩

end OpenFiles

end Aufs
