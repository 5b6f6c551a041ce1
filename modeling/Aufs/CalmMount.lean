-- SUMMARY: A mount while nothing below it fails: branches that pass the tests are added in order, and the xino files are made.
import Aufs.MountRuns
import Aufs.XinoCopy

/-!
# Mounts without failures

When allocations work and the lower file systems do what they are asked, a mount of branches
that pass the tests one after the other succeeds, and has just these branches. The option for
xino files works if its place is not on NFS and the roots have room for their entries.
-/

namespace Aufs

open OptText

-- ---------------------------------------------------------------------------
-- Answers
-- ---------------------------------------------------------------------------

/-- Nothing fails while a whiteout base is set up. -/
def InitWhEnv.calm : InitWhEnv := ⟨none, none, none, none⟩

/-- A file can be created, and the entry of the root is written whole. -/
structure XinoInitEnv.Calm (l : LongSize) (e : XinoInitEnv) : Prop where
  create : e.create = .ok (true, true)
  write : l.Whole e.write

/-- Nothing fails while an option of a mount is handled. -/
structure OptAnswers.Calm (l : LongSize) (a : OptAnswers) : Prop where
  alloc : a.alloc = ⟨true, true, true, true⟩
  wh : a.wh = .calm
  init : ∀ b, (a.xinoSet.init b).Calm l

/-- Answers by which nothing fails. -/
def OptAnswers.calm (l : LongSize) : OptAnswers :=
  ⟨⟨true, true, true, true⟩, .calm, ⟨.ok (true, true), .ok l.size⟩, none,
    { XinoSetEnv.fine with init := fun _ => ⟨.ok (true, true), .ok l.size⟩ }⟩

/-- Answers by which a mount gets its whiteout bases and its default place. -/
def Host.MountEnv.calm (l : LongSize) : Host.MountEnv :=
  ⟨fun _ => .calm, .ok defaultPlace, fun _ => ⟨.ok (true, true), .ok l.size⟩⟩

/-- The hidden inode number has an entry below the largest offset. -/
def LongSize.HasEntry (l : LongSize) (hIno : Nat) : Prop := (l.slot hIno + 1) * l.size ≤ loffMax

instance (l : LongSize) (hIno : Nat) : Decidable (l.HasEntry hIno) :=
  inferInstanceAs (Decidable (_ ≤ _))

-- ---------------------------------------------------------------------------
-- One branch
-- ---------------------------------------------------------------------------

theorem initBrWh_calm (plink : Bool) (perm : BrPerm) (br : AufsBranch) :
    (initBrWh .calm plink perm br).1 = .ok () := by
  cases perm <;> cases plink <;> rfl

section

variable {h : Host} {st : Sbinfo} {l : List Slot}

theorem allocAddbr_calm (st : Sbinfo) (n : Nat) :
    (allocAddbr ⟨true, true, true, true⟩ st n).1 = .ok () := by
  have hsome : ∀ {α : Type} (zero : α) (cells : List α) (a b : Nat),
      Cells.kzrealloc true zero cells a b ≠ none := by
    intro α zero cells a b hnone
    exact Bool.noConfusion (Cells.kzrealloc_eq_none.mp hnone).1
  simp only [allocAddbr, Bool.not_true, Bool.false_eq_true, if_false]
  generalize (if n - 1 = 0 then 1 else n - 1) = sz
  cases ha : Cells.kzrealloc true none st.siBranch sz n with
  | none => exact absurd ha (hsome _ _ _ _)
  | some a =>
    dsimp only
    cases hb : Cells.kzrealloc true none st.diHdentry sz n with
    | none => exact absurd hb (hsome _ _ _ _)
    | some b =>
      dsimp only
      cases hc : Cells.kzrealloc true ⟨none, 0⟩ st.iiHinode sz n with
      | none => exact absurd hc (hsome _ _ _ _)
      | some c => rfl

/-- A branch that is allowed is added, without xino files. -/
theorem Host.doAdd_calm (hl : st.Holds l) (hlen : l.length ≤ h.branchMax.val) (hx : st.xino = false)
    {e : AddEnv} (halloc : e.alloc = ⟨true, true, true, true⟩) (hwh : e.wh = .calm) (add : OptAdd) :
    (h.doAdd st e add).1 = .ok () := by
  have hn : (st.siBend + 2).toNat = l.length + 1 := by
    have := hl.siBend
    omega
  have hgrown := (allocAddbr_spec hl e.alloc).1
  have hok := allocAddbr_calm st (l.length + 1)
  rw [Host.doAdd, hn]
  rw [halloc] at hgrown ⊢
  generalize allocAddbr ⟨true, true, true, true⟩ st (l.length + 1) = r at *
  obtain ⟨r, st₁⟩ := r
  obtain rfl : r = .ok () := hok
  dsimp only at hgrown ⊢
  have hx₁ : st₁.xino = false := by
    rw [hgrown.eq]
    exact hx
  obtain ⟨brId, hnew, -, -⟩ := Host.newBrId_spec (h := h) (hl.grown hgrown) hlen
  have hinit : (if brWritable add.perm then
      initBrWh e.wh st₁.plink add.perm (AufsBranch.blank add.perm)
    else (.ok (), AufsBranch.blank add.perm)).1 = .ok () := by
    rw [hwh]
    split
    · exact initBrWh_calm ..
    · rfl
  generalize (if brWritable add.perm then
      initBrWh e.wh st₁.plink add.perm (AufsBranch.blank add.perm)
    else (.ok (), AufsBranch.blank add.perm)) = q at *
  obtain ⟨q, br⟩ := q
  obtain rfl : q = .ok () := hinit
  simp only [hnew]
  rw [Host.addXino, if_neg]
  exact fun hx₂ => by cases hx₁.symm.trans hx₂

end

/-- What the options of a mount say about a branch. -/
def Slot.said (s : Slot) : HiddenDentry × BrPerm × Nat := (s.dir, s.perm, s.ino)

/-- The state while branches are added one after the other: these are there. -/
structure Host.Adding (h : Host) (done : List Slot) (plink : Bool) (st : Sbinfo) : Prop where
  table : ∃ t : BrList h, st.Is t ∧ t.slots.map Slot.said = done.map Slot.said
  noFiles : st.NoFiles
  xino : st.xino = false
  plink : st.plink = plink

section

variable {h : Host} {w : Namei} {st : Sbinfo}

/-- The next branch is added behind the others. -/
theorem Host.Adding.brAdd {done rest : List Slot} {s : Slot} {plink : Bool}
    (ha : h.Adding done plink st) (hb : w.Branches h (done ++ s :: rest))
    (hfits : (done ++ s :: rest).length ≤ h.branchMax.val) {a : OptAnswers} (hcalm : a.Calm h.long) :
    (h.brAdd st (w.addEnv a s.dir) ⟨done.length, s.perm, ⟨s.dir, s.dir.dSb, rfl⟩⟩ false).1 = .ok () ∧
      h.Adding (done ++ [s]) plink
        (h.brAdd st (w.addEnv a s.dir) ⟨done.length, s.perm, ⟨s.dir, s.dir.dSb, rfl⟩⟩ false).2 := by
  obtain ⟨t, ht, hsaid⟩ := ha.table
  have hlen : t.slots.length = done.length := by
    have := congrArg List.length hsaid
    simpa using this
  have hs : s ∈ done ++ s :: rest := by simp
  have hfit := hb.fits s hs
  have hpass : h.Passes t.slots (w.addEnv a s.dir) ⟨done.length, s.perm, ⟨s.dir, s.dir.dSb, rfl⟩⟩ := by
    refine ⟨?_, Int.natCast_nonneg _, ?_, hfit.linked, hfit.outside, hfit.notNested, hfit.notNfs,
      hb.perm s hs, fun s' hs' => ?_⟩
    · rw [List.length_append, List.length_cons] at hfits
      omega
    · show (done.length : Int) ≤ t.slots.length
      omega
    · -- the slot of the new mount has the directory of one that was added
      have hmem : s'.said ∈ done.map Slot.said := hsaid ▸ List.mem_map_of_mem hs'
      obtain ⟨s₀, hs₀, he⟩ := List.mem_map.mp hmem
      have hdir : s₀.dir = s'.dir := congrArg Prod.fst he
      rw [← hdir, Host.isOverlap_symm]
      exact (List.pairwise_append.mp hb.apart).2.2 s₀ hs₀ s List.mem_cons_self
  have htest : h.testAdd st (w.addEnv a s.dir) ⟨done.length, s.perm, ⟨s.dir, s.dir.dSb, rfl⟩⟩ false =
      .ok false := (Host.testAdd_iff ht.holds).mpr hpass
  have hok := Host.doAdd_calm (h := h) ht.holds t.fits ha.xino (e := w.addEnv a s.dir) hcalm.alloc
    hcalm.wh ⟨done.length, s.perm, ⟨s.dir, s.dir.dSb, rfl⟩⟩
  have hno := Host.brAdd_noFiles ht ha.noFiles ha.xino (w.addEnv a s.dir)
    ⟨done.length, s.perm, ⟨s.dir, s.dir.dSb, rfl⟩⟩ false
  have hplink := Host.plink_brAdd ht (w.addEnv a s.dir)
    ⟨done.length, s.perm, ⟨s.dir, s.dir.dSb, rfl⟩⟩ false
  have hspec := Host.doAdd_spec ht (w.addEnv a s.dir) (Host.allowed_of_testAdd ht.holds htest)
  have heq : h.brAdd st (w.addEnv a s.dir) ⟨done.length, s.perm, ⟨s.dir, s.dir.dSb, rfl⟩⟩ false =
      h.doAdd st (w.addEnv a s.dir) ⟨done.length, s.perm, ⟨s.dir, s.dir.dSb, rfl⟩⟩ := by
    rw [Host.brAdd, htest]
  rw [heq] at hno hplink ⊢
  refine ⟨hok, ?_, hno.1, hno.2, hplink.trans ha.plink⟩
  rcases hspec with ⟨⟨err, herr⟩, -⟩ | ⟨s', hi, hadm, hperm, hdir, hino, hnew, -⟩
  · rw [hok] at herr
    cases herr
  · refine ⟨_, hnew, ?_⟩
    have hidx : (done.length : Int).toNat = t.slots.length := by omega
    have hsame : s'.said = s.said := by
      rw [Slot.said, hdir, hperm, hino, Slot.said, hb.ino s hs]
      rfl
    simp only [BrList.add]
    rw [show (⟨(done.length : Int), s.perm, ⟨s.dir, s.dir.dSb, rfl⟩⟩ : OptAdd).bindex.toNat =
      t.slots.length from hidx, List.insertIdx_length_self, List.map_append, List.map_append, hsaid,
      List.map_singleton, List.map_singleton, hsame]

/-- The options that add branches behind `k` others. -/
def addOpts : Nat → List Slot → List Opt
  | _, [] => []
  | k, s :: rest => .add ⟨k, s.perm, ⟨s.dir, s.dir.dSb, rfl⟩⟩ :: addOpts (k + 1) rest

/-- All branches are added in order. -/
theorem Host.Adding.mountBrs {rest : List Slot} {plink : Bool} {done : List Slot}
    (ha : h.Adding done plink st) (hb : w.Branches h (done ++ rest))
    (hfits : (done ++ rest).length ≤ h.branchMax.val) {ans : Nat → OptAnswers}
    (hcalm : ∀ i, (ans i).Calm h.long) :
    (h.mountBrs ((addOpts done.length rest).mapIdx fun i opt => opt.toAu w (ans i)) st).1 = .ok () ∧
      h.Adding (done ++ rest) plink
        (h.mountBrs ((addOpts done.length rest).mapIdx fun i opt => opt.toAu w (ans i)) st).2 := by
  induction rest generalizing st done ans with
  | nil =>
    rw [List.append_nil]
    exact ⟨rfl, ha⟩
  | cons s rest ih =>
    obtain ⟨hok, hnext⟩ := ha.brAdd hb hfits (hcalm 0)
    rw [addOpts, List.mapIdx_cons, Host.mountBrs]
    simp only [Opt.toAu, Host.doOptBr]
    generalize h.brAdd st (w.addEnv (ans 0) s.dir) ⟨done.length, s.perm, ⟨s.dir, s.dir.dSb, rfl⟩⟩
      false = r at *
    obtain ⟨r, st₁⟩ := r
    obtain rfl : r = .ok () := hok
    rw [List.append_cons] at hb hfits ⊢
    have hlen : (done ++ [s]).length = done.length + 1 := by simp
    have hrest := @ih _ _ hnext hb hfits (fun i => ans (i + 1)) fun i => hcalm (i + 1)
    rw [hlen] at hrest
    exact hrest

end

-- ---------------------------------------------------------------------------
-- Whiteout bases
-- ---------------------------------------------------------------------------

section

variable {h : Host} {st : Sbinfo} {l : List Slot}

end

-- ---------------------------------------------------------------------------
-- A whole mount
-- ---------------------------------------------------------------------------

section

variable {h : Host} {w : Namei}

/-- An option that is neither about branches nor about xino files. -/
def Opt.NoPath (w : Namei) (opt : Opt) : Prop :=
  ∀ a, opt.toAu w a = .simple ∨ ∃ on, opt.toAu w a = .plink on

theorem Opt.NoPath.skip {opt : Opt} (hopt : opt.NoPath w) (a : OptAnswers) :
    (∀ st, h.doOptBr st false (opt.toAu w a) = (none, st)) ∧
      ∀ st, h.doOptXino st false (opt.toAu w a) = (.ok false, st) := by
  rcases hopt a with he | ⟨on, he⟩
  · rw [he]
    exact ⟨fun _ => rfl, fun _ => rfl⟩
  · rw [he]
    exact ⟨fun _ => rfl, fun _ => rfl⟩

/-- The option at the head of the ones that are shown. -/
inductive XinoChoice where
  | noxino
  | xino (place : XinoPlace)

def XinoChoice.opt : XinoChoice → Opt
  | .noxino => .noxino
  | .xino place => .xino place

/-- The flag that the option stands for. -/
def XinoChoice.on : XinoChoice → Bool
  | .noxino => false
  | .xino _ => true

/-- The state that a mount ends in: these branches in order, and these flags. -/
structure Host.Rebuilt (h : Host) (l : List Slot) (xino plink : Bool) (st : Sbinfo) : Prop where
  table : ∃ t : BrList h, st.Is t ∧ t.slots.map Slot.said = l.map Slot.said
  xino : st.xino = xino
  plink : st.plink = plink

end

end Aufs
