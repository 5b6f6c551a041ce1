-- SUMMARY: An open directory over every run of listings, revalidations and branch changes: when its hidden files are those of its dentry.
import Aufs.Handle
import Aufs.Inode

/-!
# Open directories

After branches came, went or changed places, `refresh_file` moves the hidden files of an open
directory and `reopen_dir` opens what is missing. A directory that was listed keeps its
listing in the word that `au_is_mmapped` tests, and is not opened again.
-/

namespace Aufs

namespace Handle

-- ---------------------------------------------------------------------------
-- The name of a directory
-- ---------------------------------------------------------------------------

/-- The dentry of a directory in this branch table. `hd` has the hidden dentry of the directory
for every branch id. -/
structure DirName (sb : SuperBlock) (hd : Int → HDentry) (n : FileName) : Prop where
  on : ∀ b h, n.d.hDptrI b = some h → h.positive = true ∧ ∃ id, sb.sbrId b = some id ∧ h = hd id

/-- The ends are those of the dentry, and every hidden file is opened on the hidden dentry at
its index and tagged with the branch at that index. -/
structure Within (sb : SuperBlock) (n : FileName) (f : Handle) : Prop where
  bstart : f.bstart = n.d.bstart
  bend : f.bend = n.d.dbtaildir
  slots : ∀ b p, f.hfile b = some p → n.d.bstart ≤ b ∧ b ≤ n.d.dbtaildir ∧
    n.d.hDptrI b = some p.file.dentry ∧ alive p = true ∧ sb.sbrId b = some p.br

/-- Such a file has an open hidden file wherever the dentry has a hidden dentry. -/
structure Follows (sb : SuperBlock) (n : FileName) (f : Handle) : Prop extends Within sb n f where
  opened : ∀ b, n.d.bstart ≤ b → b ≤ n.d.dbtaildir → (n.d.hDptrI b).isSome → (f.hfile b).isSome

variable {sb : SuperBlock} {hd : Int → HDentry} {n : FileName} {f f' : Handle}
  {answer : Int → Except Errno Unit}

theorem DirName.hd_eq (h : DirName sb hd n) {b id : Int} {k : HDentry} (hk : n.d.hDptrI b = some k)
    (hid : sb.sbrId b = some id) : k = hd id := by
  obtain ⟨-, id', hid', rfl⟩ := h.on b k hk
  rw [hid] at hid'
  rw [Option.some.inj hid']

-- ---------------------------------------------------------------------------
-- Opening
-- ---------------------------------------------------------------------------

/-- A hidden file is opened on the hidden dentry at the index, which is positive. -/
theorem hiddenOpen_ok {b : Int} {flags : FMode} {p : HdSlot}
    (h : hiddenOpen sb n answer b flags = some (.ok p)) :
    n.d.hDptrI b = some p.file.dentry ∧ alive p = true ∧ sb.sbrId b = some p.br := by
  rw [hiddenOpen] at h
  split at h
  case h_2 => cases h
  case h_1 br k hbr hk =>
    split at h
    case h_2 => cases h
    case h_1 i ro hi _ =>
      split at h
      case h_1 => cases h
      case h_2 =>
        simp only [Option.some.injEq, Except.ok.injEq] at h
        subst h
        refine ⟨hk, ?_, by rw [SuperBlock.sbrId, hbr]; rfl⟩
        rw [alive, HDentry.positive, hi]
        rfl

/-- What a loop over the hidden directories leaves. -/
structure Opens (sb : SuperBlock) (n : FileName) (L : List Int) (f f' : Handle) : Prop where
  bstart : f'.bstart = f.bstart
  bend : f'.bend = f.bend
  generation : f'.generation = f.generation
  kept : ∀ b p, f.hfile b = some p → f'.hfile b = some p
  fresh : ∀ b p, f'.hfile b = some p → f.hfile b = some p ∨
    b ∈ L ∧ n.d.hDptrI b = some p.file.dentry ∧ alive p = true ∧ sb.sbrId b = some p.br

theorem Opens.refl (L : List Int) : Opens sb n L f f :=
  ⟨rfl, rfl, rfl, fun _ _ h => h, fun _ _ h => .inl h⟩

theorem openDirs_opens {L : List Int} {r : Except Errno Unit}
    (h : openDirs sb n answer L f = some (r, f')) :
    Opens sb n L f f' ∧
      (r = .ok () → ∀ b ∈ L, (n.d.hDptrI b).isSome → (f'.hfile b).isSome) := by
  induction L generalizing f with
  | nil =>
    simp only [openDirs, Option.some.injEq, Prod.mk.injEq] at h
    obtain ⟨-, rfl⟩ := h
    exact ⟨.refl _, fun _ b hb => by cases hb⟩
  | cons c L ih =>
    rw [openDirs] at h
    split at h
    case h_1 k hk hc =>
      split at h
      case h_1 => cases h
      case h_2 err hopen =>
        simp only [Option.some.injEq, Prod.mk.injEq] at h
        obtain ⟨rfl, rfl⟩ := h
        exact ⟨.refl _, fun he => by cases he⟩
      case h_3 p hopen =>
        obtain ⟨ho, hall⟩ := ih h
        have hp := hiddenOpen_ok hopen
        have hslot : f'.hfile c = some p := ho.kept c p (by simp [setHFptr])
        refine ⟨⟨ho.bstart, ho.bend, ho.generation, fun b q hb => ho.kept b q ?_, fun b q hb => ?_⟩,
          fun hr b hb hs => ?_⟩
        · have hbc : b ≠ c := by
            rintro rfl
            rw [hc] at hb
            cases hb
          simpa [setHFptr, hbc] using hb
        · by_cases hbc : b = c
          · subst hbc
            rw [hslot] at hb
            obtain rfl := Option.some.inj hb
            exact .inr ⟨List.mem_cons_self .., hp⟩
          · rcases ho.fresh b q hb with hq | ⟨hm, hq⟩
            · exact .inl (by simpa [setHFptr, hbc] using hq)
            · exact .inr ⟨List.mem_cons_of_mem c hm, hq⟩
        · rcases List.mem_cons.mp hb with rfl | hb
          · rw [hslot]
            rfl
          · exact hall hr b hb hs
    case h_2 hother =>
      obtain ⟨ho, hall⟩ := ih h
      refine ⟨⟨ho.bstart, ho.bend, ho.generation, ho.kept, fun b q hb => ?_⟩, fun hr b hb hs => ?_⟩
      · exact (ho.fresh b q hb).imp_right fun hq => ⟨List.mem_cons_of_mem c hq.1, hq.2⟩
      · rcases List.mem_cons.mp hb with rfl | hb
        · obtain ⟨k, hk⟩ := Option.isSome_iff_exists.mp hs
          cases hq : f.hfile b with
          | none => exact (hother k hk hq).elim
          | some q =>
            rw [ho.kept b q hq]
            rfl
        · exact hall hr b hb hs

theorem Within.openDirs (h : Within sb n f) {r : Except Errno Unit}
    (ho : Handle.openDirs sb n answer (bindexes n.d.bstart n.d.dbtaildir) f = some (r, f')) :
    Within sb n f' ∧ f'.generation = f.generation ∧ (r = .ok () → Follows sb n f') := by
  obtain ⟨ho, hall⟩ := openDirs_opens ho
  have hw : Within sb n f' :=
    { bstart := ho.bstart.trans h.bstart
      bend := ho.bend.trans h.bend
      slots := fun b p hb => by
        rcases ho.fresh b p hb with hb | ⟨hm, hp⟩
        · exact h.slots b p hb
        · have := mem_bindexes.mp hm
          exact ⟨this.1, this.2, hp⟩ }
  exact ⟨hw, ho.generation, fun hr =>
    { hw with opened := fun b h1 h2 hs => hall hr b (mem_bindexes.mpr ⟨h1, h2⟩) hs }⟩

/-- `reopen_dir` of a file whose hidden files are at the hidden dentries of the name. -/
theorem reopenDir_within (hl : Live sb f) (ha : Aligned sb f)
    (hon : ∀ b p, f.hfile b = some p → n.d.hDptrI b = some p.file.dentry) {r : Except Errno Unit}
    (h : reopenDir sb n answer f = some (r, f')) :
    Within sb n f' ∧ f'.generation = f.generation ∧ (r = .ok () → Follows sb n f') := by
  have hw : Within sb n { f.putAll (bindexes f.bstart (n.d.bstart - 1) ++
      bindexes (n.d.dbtaildir + 1) f.bend) with bstart := n.d.bstart, bend := n.d.dbtaildir } := by
    refine ⟨rfl, rfl, fun b p hb => ?_⟩
    simp only [putAll, List.mem_append, mem_bindexes] at hb
    split at hb
    case isTrue => cases hb
    case isFalse hout =>
      have hr := hl.range b p hb
      have hid := SuperBlock.sbrId_findBrindex (hl.table b p hb)
      rw [ha b p hb] at hid
      exact ⟨by omega, by omega, hon b p hb, hl.positive b p hb, hid⟩
  exact hw.openDirs h

/-- A file that follows its dentry is in order. -/
theorem Follows.live (h : Follows sb n f) (hids : sb.DistinctIds) (hfirst : (f.hfile f.bstart).isSome) :
    Live sb f where
  first := hfirst
  range := fun b p hb => by
    have hslot := h.slots b p hb
    have := Dinfo.range_of_hDptrI hslot.2.2.1
    rw [h.bstart, h.bend]
    omega
  distinct := fun b c p q hb hc hpq => hids (h.slots b p hb).2.2.2.2 (hpq ▸ (h.slots c q hc).2.2.2.2)
  table := fun b p hb => by
    have hid := (h.slots b p hb).2.2.2.2
    rw [hids.findBrindex hid]
    exact (SuperBlock.range_of_sbrId hid).1
  positive := fun b p hb => (h.slots b p hb).2.2.2.1

-- ---------------------------------------------------------------------------
-- Runs
-- ---------------------------------------------------------------------------

/-- An open directory. `listed` says whether it keeps a listing, which lies where
`fi_h_vm_ops` is. -/
structure DirState where
  sb : SuperBlock
  n : FileName
  f : Handle
  listed : Bool

namespace DirState

/-- `au_reval_and_lock_finfo` with `reopen_dir`. No directory is a pseudo-link. -/
def reval (s : DirState) (v : RevalIn) : Option Ended :=
  auRevalAndLockFinfo s.sb true s.listed s.n { v with plinked := false } s.f

/-- The branches of hidden files stay, and with them the hidden dentries. -/
def Keeps (f : Handle) (sb : SuperBlock) (n : FileName) : Prop :=
  ∀ b p, f.hfile b = some p → ∃ h, n.d.hDptrI (sb.findBrindex p.br) = some h

/-- An opened directory. -/
structure Start (hd : Int → HDentry) (s : DirState) : Prop where
  ids : s.sb.DistinctIds
  name : DirName s.sb hd s.n
  opened : ∃ answer flags, doOpenDir s.sb s.n answer flags = some (.ok s.f)
  listed : s.listed = false

/-- The hidden files are on the branches of the hidden dentries, and the first one is the first
hidden dentry. -/
structure Settled (s : DirState) : Prop where
  first : ∃ p, s.f.hfile s.f.bstart = some p ∧ s.sb.findBrindex p.br = s.n.d.bstart
  all : ∀ b, s.n.d.bstart ≤ b →
    ((∃ i p, s.f.hfile i = some p ∧ s.sb.findBrindex p.br = b) ↔
      b ≤ s.n.d.dbtaildir ∧ (s.n.d.hDptrI b).isSome)
  last : (s.n.d.hDptrI s.n.d.dbtaildir).isSome

/-- A directory may be looked at again: it has no listing and is not unhashed, or there is
nothing to be opened or closed. -/
def Meets (s : DirState) : Prop :=
  Fast s.sb s.n s.f ∨ (s.listed = false ∧ s.n.unhashed = false) ∨ s.Settled

/-- The states that an open directory comes to, with revalidations where it may be looked at. A
branch in use is not deleted, and the refreshed dentry has its hidden dentries on the branches
that are still there. -/
inductive Reach (hd : Int → HDentry) : DirState → Prop where
  | start {s : DirState} (h : Start hd s) : Reach hd s
  | reval {s : DirState} (h : Reach hd s) (hm : s.Meets) (v : RevalIn) {r : Except Errno Unit}
      {f : Handle} {n : FileName} (hr : s.reval v = some (r, f, n)) : Reach hd { s with n, f }
  | list {s : DirState} (h : Reach hd s) : Reach hd { s with listed := true }
  | branches {s : DirState} (h : Reach hd s) (sb : SuperBlock) (n : FileName)
      (hgen : sb.generation = s.sb.generation + 1) (hids : sb.DistinctIds) (hname : DirName sb hd n)
      (hkeeps : Keeps s.f sb n) : Reach hd { s with sb, n }

-- ---------------------------------------------------------------------------
-- The invariant
-- ---------------------------------------------------------------------------

/-- The hidden files are open, on the hidden dentries of their branches. -/
structure Open (hd : Int → HDentry) (s : DirState) : Prop where
  live : Live s.sb s.f
  named : ∀ b p, s.f.hfile b = some p → p.file.dentry = hd p.br
  keeps : Keeps s.f s.sb s.n
  follows : s.f.generation = s.sb.generation → Follows s.sb s.n s.f

/-- The file has no first hidden file, as all were closed after one could not be opened. A
later call either returns at once and all is well, or looks at the slot. -/
structure Closed (s : DirState) : Prop where
  first : s.f.hfile s.f.bstart = none
  fast : Fast s.sb s.n s.f → Follows s.sb s.n s.f

/-- What every state satisfies. -/
structure Inv (hd : Int → HDentry) (s : DirState) : Prop where
  ids : s.sb.DistinctIds
  name : DirName s.sb hd s.n
  generation : s.f.generation ≤ s.sb.generation
  state : Open hd s ∨ Closed s

variable {s : DirState} {v : RevalIn} {r : Except Errno Unit}

/-- A file that follows its dentry is open on the hidden dentries of its branches. -/
theorem state_of_follows (hids : s.sb.DistinctIds) (hname : DirName s.sb hd s.n)
    (h : Follows s.sb s.n s.f) : Open hd s ∨ Closed s := by
  cases hfirst : s.f.hfile s.f.bstart with
  | none => exact .inr ⟨hfirst, fun _ => h⟩
  | some first =>
    refine .inl ⟨h.live hids (by rw [hfirst]; rfl), fun b p hp => ?_, fun b p hp => ?_, fun _ => h⟩
    · exact hname.hd_eq (h.slots b p hp).2.2.1 (h.slots b p hp).2.2.2.2
    · have hslot := h.slots b p hp
      rw [hids.findBrindex hslot.2.2.2.2]
      exact ⟨_, hslot.2.2.1⟩

theorem Start.inv (h : Start hd s) : Inv hd s := by
  obtain ⟨answer, flags, hopen⟩ := h.opened
  rw [doOpenDir] at hopen
  split at hopen
  case h_1 => cases hopen
  case h_2 => cases hopen
  case h_3 f hdirs =>
    simp only [Option.some.injEq, Except.ok.injEq] at hopen
    have hw : Within s.sb s.n
        ⟨flags, s.n.d.bstart, s.n.d.dbtaildir, fun _ => none, s.sb.generation⟩ :=
      ⟨rfl, rfl, fun b p hb => by cases hb⟩
    obtain ⟨-, hgen, hfollows⟩ := hw.openDirs hdirs
    rw [hopen] at hgen hfollows
    exact ⟨h.ids, h.name, Int.le_of_eq hgen, state_of_follows h.ids h.name (hfollows rfl)⟩

/-- The hidden files at the indices of their branches are on the hidden dentries there. -/
theorem Open.dentry (h : Open hd s) (hname : DirName s.sb hd s.n) {f : Handle}
    {keep : Bool} (hf : Remapped s.sb keep s.f f) {b : Int} {p : HdSlot} (hp : f.hfile b = some p) :
    s.n.d.hDptrI b = some p.file.dentry := by
  obtain ⟨-, hfind, i, hi⟩ := (hf.slots b p).mp hp
  obtain ⟨k, hk⟩ := h.keeps i p hi
  rw [hfind] at hk
  have hid := SuperBlock.sbrId_findBrindex (h.live.table i p hi)
  rw [hfind] at hid
  rw [hk, h.named i p hi, hname.hd_eq hk hid]

/-- A directory that is not opened again follows its dentry if there is nothing to be opened. -/
theorem Settled.follows (hs : s.Settled) (h : Open hd s) (hname : DirName s.sb hd s.n) {f : Handle}
    (hf : Remapped s.sb true s.f f) : Follows s.sb s.n f := by
  have hbstart : f.bstart = s.n.d.bstart := by
    obtain ⟨first, hfirst, hstart⟩ := hf.start
    obtain ⟨p, hp, hfind⟩ := hs.first
    rw [hfirst] at hp
    rw [hstart, Option.some.inj hp, hfind]
  have hfilled : ∀ b, s.n.d.bstart ≤ b → ((f.hfile b).isSome ↔
      b ≤ s.n.d.dbtaildir ∧ (s.n.d.hDptrI b).isSome) := by
    intro b hb
    rw [← hs.all b hb, Option.isSome_iff_exists]
    constructor
    · rintro ⟨p, hp⟩
      obtain ⟨-, hfind, i, hi⟩ := (hf.slots b p).mp hp
      exact ⟨i, p, hi, hfind⟩
    · rintro ⟨i, p, hi, hfind⟩
      exact ⟨p, (hf.slots b p).mpr ⟨by omega, hfind, i, hi⟩⟩
  have hlow : ∀ b p, f.hfile b = some p → s.n.d.bstart ≤ b := fun b p hb => by
    have := hf.live.range b p hb
    omega
  have htail : s.n.d.bstart ≤ s.n.d.dbtaildir := by
    obtain ⟨k, hk⟩ := Option.isSome_iff_exists.mp hs.last
    exact (Dinfo.range_of_hDptrI hk).2
  have hbend : f.bend = s.n.d.dbtaildir := by
    obtain ⟨p, hp⟩ := Option.isSome_iff_exists.mp hf.last
    have hle := ((hfilled _ (hlow _ p hp)).mp hf.last).1
    obtain ⟨q, hq⟩ := Option.isSome_iff_exists.mp
      ((hfilled _ htail).mpr ⟨Int.le_refl _, hs.last⟩)
    have := (hf.live.range _ q hq).2.2
    omega
  refine ⟨⟨hbstart, hbend, fun b p hb => ?_⟩, fun b h1 h2 h3 => (hfilled b h1).mpr ⟨h2, h3⟩⟩
  have hid := SuperBlock.sbrId_findBrindex (hf.live.table b p hb)
  rw [hf.aligned b p hb] at hid
  refine ⟨hlow b p hb, ((hfilled b (hlow b p hb)).mp (by rw [hb]; rfl)).1, h.dentry hname hf hb,
    hf.live.positive b p hb, hid⟩

/-- The generation is no part of what a file holds. -/
theorem follows_generation {sb : SuperBlock} {n : FileName} {f : Handle} (h : Follows sb n f)
    (generation : Int) : Follows sb n { f with generation } :=
  { bstart := h.bstart, bend := h.bend, slots := h.slots, opened := h.opened }

/-- A refresh of a file without a first hidden file follows a null pointer. -/
theorem Closed.refreshFile (h : Closed s) {f : Handle} {n : FileName} {isDir mapped : Bool}
    (hr : Handle.refreshFile s.sb isDir mapped s.n v s.f = some (r, f, n)) :
    r = .error .ENOMEM ∧ f = s.f ∧ n = s.n := by
  rw [Handle.refreshFile] at hr
  split at hr
  case h_1 =>
    simp only [Option.some.injEq, Prod.mk.injEq] at hr
    obtain ⟨rfl, rfl, rfl⟩ := hr
    exact ⟨rfl, rfl, rfl⟩
  case h_2 p hp =>
    have hnone : p s.f.bstart = none := by
      rw [kzrealloc] at hp
      split at hp
      · rw [← Option.some.inj hp, h.first]
      · split at hp
        · rw [← Option.some.inj hp]
          simp only [h.first, ite_self]
        · cases hp
    simp only [hnone] at hr
    cases hr

theorem Open.refreshFile (h : Open hd s) (hids : s.sb.DistinctIds) (hname : DirName s.sb hd s.n)
    (hslow : ¬Fast s.sb s.n s.f) (hgen : s.f.generation ≤ s.sb.generation)
    (hm : (s.listed = false ∧ s.n.unhashed = false) ∨ s.Settled) {f : Handle} {n : FileName}
    (hplink : v.plinked = false)
    (hr : Handle.refreshFile s.sb true s.listed s.n v s.f = some (r, f, n)) :
    n = s.n ∧ f.generation ≤ s.sb.generation ∧ (Open hd { s with f } ∨ Closed { s with f }) ∧
      (r = .ok () → Follows s.sb s.n f) := by
  rcases h.live.refreshFile true s.listed s.n v with hmem | ⟨f₁, hf₁, heq⟩
  · rw [hmem] at hr
    simp only [Option.some.injEq, Prod.mk.injEq] at hr
    obtain ⟨rfl, rfl, rfl⟩ := hr
    exact ⟨rfl, hgen, .inl h, fun he => by cases he⟩
  rw [heq] at hr
  cases hkeep : s.listed || s.n.unhashed with
  | true =>
    rw [hkeep] at hf₁
    simp only [hkeep, if_true, Option.some.injEq, Prod.mk.injEq] at hr
    obtain ⟨rfl, rfl, rfl⟩ := hr
    have hsettled : s.Settled := by
      refine hm.resolve_left fun hno => ?_
      rw [hno.1, hno.2] at hkeep
      cases hkeep
    have hfollows := follows_generation (hsettled.follows h hname hf₁) s.sb.generation
    exact ⟨rfl, Int.le_refl _, state_of_follows hids hname hfollows, fun _ => hfollows⟩
  | false =>
    rw [hkeep] at hf₁
    have hnone : ¬(s.n.ibstart < f₁.bstart ∧ s.sb.plink = true ∧ v.plinked = true) := by
      rw [hplink]
      rintro ⟨-, -, he⟩
      cases he
    simp only [hkeep, Bool.false_eq_true, if_false, refreshOpen, hnone, if_true] at hr
    split at hr
    case h_1 => cases hr
    case h_2 f₂ hopen =>
      obtain ⟨-, -, hok⟩ := reopenDir_within hf₁.live hf₁.aligned (fun b p => h.dentry hname hf₁) hopen
      simp only [Option.some.injEq, Prod.mk.injEq] at hr
      obtain ⟨rfl, rfl, rfl⟩ := hr
      have hfollows := follows_generation (hok rfl) s.sb.generation
      exact ⟨rfl, Int.le_refl _, state_of_follows hids hname hfollows, fun _ => hfollows⟩
    case h_3 err f₂ hopen =>
      obtain ⟨hw, hgen₂, -⟩ := reopenDir_within hf₁.live hf₁.aligned (fun b p => h.dentry hname hf₁) hopen
      simp only [Option.some.injEq, Prod.mk.injEq] at hr
      obtain ⟨rfl, rfl, rfl⟩ := hr
      have hgen₃ : f₂.generation = s.f.generation := hgen₂.trans hf₁.generation
      refine ⟨rfl, hgen₃ ▸ hgen, .inr ⟨?_, fun hfast => absurd ?_ hslow⟩, fun he => by cases he⟩
      · -- all slots between the ends are closed
        simp only [putAll, mem_bindexes]
        cases hp : f₂.hfile f₂.bstart with
        | none => exact ite_self none
        | some p =>
          have hslot := hw.slots _ p hp
          rw [if_pos ⟨Int.le_refl _, by rw [hw.bend]; exact hslot.2.1⟩]
      · have hg : s.f.generation = s.sb.generation := hgen₃.symm.trans hfast.1.symm
        exact ⟨hg.symm, hfast.2.1, (h.follows hg).bstart⟩

/-- One call of `au_reval_and_lock_finfo`. -/
theorem Inv.reval (h : Inv hd s) (hm : s.Meets) {f : Handle} {n : FileName}
    (hr : s.reval v = some (r, f, n)) :
    Inv hd { s with n, f } ∧ (r = .ok () → Follows s.sb n f) := by
  rw [DirState.reval, auRevalAndLockFinfo] at hr
  have hsame : r ≠ .ok () → f = s.f → n = s.n → Inv hd { s with n, f } ∧ (r = .ok () → Follows s.sb n f) := by
    rintro hne rfl rfl
    exact ⟨h, fun he => absurd he hne⟩
  split at hr
  case isTrue hfast =>
    simp only [Option.some.injEq, Prod.mk.injEq] at hr
    obtain ⟨rfl, rfl, rfl⟩ := hr
    refine ⟨h, fun _ => ?_⟩
    rcases h.state with hopen | hclosed
    · exact hopen.follows hfast.1.symm
    · exact hclosed.fast hfast
  case isFalse hslow =>
    split at hr
    case h_1 =>
      simp only [Option.some.injEq, Prod.mk.injEq] at hr
      obtain ⟨rfl, rfl, rfl⟩ := hr
      exact hsame (by simp) rfl rfl
    case h_2 =>
      rcases h.state with hopen | hclosed
      · obtain ⟨rfl, hgen, hstate, hok⟩ := hopen.refreshFile h.ids h.name hslow h.generation
          (hm.resolve_left hslow) rfl hr
        exact ⟨⟨h.ids, h.name, hgen, hstate⟩, hok⟩
      · obtain ⟨rfl, rfl, rfl⟩ := hclosed.refreshFile hr
        exact hsame (by simp) rfl rfl

theorem Reach.inv (h : Reach hd s) : Inv hd s := by
  induction h with
  | start h => exact h.inv
  | reval _ hm v hr ih => exact (ih.reval hm hr).1
  | list _ ih =>
    exact ⟨ih.ids, ih.name, ih.generation, ih.state.imp
      (fun h => ⟨h.live, h.named, h.keeps, h.follows⟩) fun h => ⟨h.first, h.fast⟩⟩
  | @branches s _ sb n hgen hids hname hkeeps ih =>
    have hle := ih.generation
    have hne : s.f.generation ≠ sb.generation := by omega
    refine ⟨hids, hname, by simp only; omega, ?_⟩
    rcases ih.state with h | h
    · refine .inl ⟨⟨h.live.first, h.live.range, h.live.distinct, fun b p hp => ?_, h.live.positive⟩,
        h.named, hkeeps, fun hg => absurd hg hne⟩
      obtain ⟨k, hk⟩ := hkeeps b p hp
      obtain ⟨-, id, hid, -⟩ := hname.on _ k hk
      exact (SuperBlock.range_of_sbrId hid).1
    · exact .inr ⟨h.first, fun hfast => absurd hfast.1.symm hne⟩

/-- The other direction: a directory that was not opened again has its hidden directories only
if there was nothing to be opened. -/
theorem Inv.meets (h : Inv hd s) {f : Handle} {n : FileName} (hr : s.reval v = some (.ok (), f, n))
    (hf : Follows s.sb n f) : s.Meets := by
  by_cases hfast : Fast s.sb s.n s.f
  · exact .inl hfast
  refine .inr ?_
  rw [DirState.reval, auRevalAndLockFinfo, if_neg hfast] at hr
  split at hr
  case h_1 => cases hr
  rcases h.state with hopen | hclosed
  case inr => cases (hclosed.refreshFile hr).1
  rcases hopen.live.refreshFile true s.listed s.n { v with plinked := false } with hmem | ⟨f₁, hf₁, heq⟩
  · rw [hmem] at hr
    cases hr
  rw [heq] at hr
  cases hkeep : s.listed || s.n.unhashed with
  | false => exact .inl (Bool.or_eq_false_iff.mp hkeep)
  | true =>
    rw [hkeep] at hf₁
    simp only [hkeep, if_true, Option.some.injEq, Prod.mk.injEq, true_and] at hr
    obtain ⟨rfl, rfl⟩ := hr
    have hbstart : f₁.bstart = s.n.d.bstart := hf.bstart
    refine .inr ⟨?_, fun b hb => ?_, ?_⟩
    · obtain ⟨first, hfirst, hstart⟩ := hf₁.start
      exact ⟨first, hfirst, hstart.symm.trans hbstart⟩
    · constructor
      · rintro ⟨i, p, hi, hfind⟩
        have hslot := hf.slots b p ((hf₁.slots b p).mpr ⟨by omega, hfind, i, hi⟩)
        exact ⟨hslot.2.1, by rw [hslot.2.2.1]; rfl⟩
      · rintro ⟨hle, hsome⟩
        obtain ⟨p, hp⟩ := Option.isSome_iff_exists.mp (hf.opened b hb hle hsome)
        obtain ⟨-, hfind, i, hi⟩ := (hf₁.slots b p).mp hp
        exact ⟨i, p, hi, hfind⟩
    · obtain ⟨p, hp⟩ := Option.isSome_iff_exists.mp hf₁.last
      have hslot := hf.slots f₁.bend p hp
      have hbend : f₁.bend = s.n.d.dbtaildir := hf.bend
      rw [← hbend, hslot.2.2.1]
      rfl

/-- Over every run of listings and branch changes: a call that returns 0 leaves the directory
with its hidden directories exactly if it may be looked at. -/
theorem revalDir_follows_iff (hd : Int → HDentry) (s : DirState) (h : Reach hd s) (v : RevalIn)
    (f : Handle) (n : FileName) (hr : s.reval v = some (.ok (), f, n)) :
    Follows s.sb n f ↔ s.Meets :=
  ⟨h.inv.meets hr, fun hm => (h.inv.reval hm hr).2 rfl⟩

-- ---------------------------------------------------------------------------
-- A branch is added
-- ---------------------------------------------------------------------------

/-- A table of writable branches with these ids. -/
def dirTable (ids : List Nat) (generation : Int) : SuperBlock :=
  { SuperBlock.ofBranches (ids.map fun i : Nat => .plain (i : Int) .RW) with generation }

/-- A directory that all of these branches have. -/
def dirName (ids : List Nat) : FileName := ⟨pairDentry ids, fun _ => none, 0, false⟩

/-- Its hidden dentry on the branch of an id. -/
def dirHd (id : Int) : HDentry := pairHDentry id.toNat

theorem dirName_ok (ids : List Nat) (generation : Int) :
    DirName (dirTable ids generation) dirHd (dirName ids) := by
  refine ⟨fun b h hb => ?_⟩
  have h0 : (0 : Int) ≤ b := (Dinfo.range_of_hDptrI hb).2
  have hslot : (ids[b.toNat]?).map pairHDentry = some h := by
    rw [Dinfo.hDptrI, if_neg (by simp only [dirName, pairDentry]; omega)] at hb
    simpa only [dirName, pairDentry, h0, if_true] using hb
  obtain ⟨i, hi, rfl⟩ := Option.map_eq_some_iff.mp hslot
  refine ⟨rfl, i, ?_, rfl⟩
  simp only [SuperBlock.sbrId, SuperBlock.stobr, dirTable, SuperBlock.ofBranches, h0, if_true,
    List.getElem?_map, hi, Option.map_some, Branch.plain]

/-- A hidden directory that is open. -/
def dirSlot (id : Nat) : HdSlot := ⟨⟨pairHDentry id, ⟨true, false⟩⟩, id⟩

/-- A directory that was opened on the branch of id 1. -/
def openedDir : DirState where
  sb := dirTable [1] 1
  n := dirName [1]
  f := ⟨⟨true, false⟩, 0, 0, Function.update (fun _ => none) 0 (some (dirSlot 1)), 1⟩
  listed := false

/-- It was listed or not, and the branch of id 2 was added at the top. -/
def dirWithBranch (listed : Bool) : DirState :=
  { openedDir with sb := dirTable [2, 1] 2, n := dirName [2, 1], listed := listed }

/-- Every call succeeds. -/
def quietReval : RevalIn := ⟨true, .ok (), true, false, .ok (dirName []), fun _ => .ok ()⟩

theorem dirWithBranch_reach (listed : Bool) : Reach dirHd (dirWithBranch listed) := by
  have hstart : Reach dirHd openedDir :=
    .start ⟨SuperBlock.distinctIds_of_nodup (by decide), dirName_ok [1] 1,
      ⟨fun _ => .ok (), ⟨true, false⟩, rfl⟩, rfl⟩
  have hlisted : Reach dirHd { openedDir with listed } := by
    cases listed with
    | false => exact hstart
    | true => exact hstart.list
  refine hlisted.branches (dirTable [2, 1] 2) (dirName [2, 1]) rfl
    (SuperBlock.distinctIds_of_nodup (by decide)) (dirName_ok [2, 1] 2) fun b p hp => ?_
  have hb : b = 0 := by
    by_contra hne
    simp [openedDir, hne] at hp
  subst hb
  obtain rfl : dirSlot 1 = p := Option.some.inj hp
  exact ⟨_, rfl⟩

/-- The new branch has the directory. After a listing the call returns 0 and does not open it. -/
theorem revalDir_listed :
    Reach dirHd (dirWithBranch true) ∧
      ∃ f n, (dirWithBranch true).reval quietReval = some (.ok (), f, n) ∧ f.hfile 0 = none ∧
        ¬Follows (dirTable [2, 1] 2) n f :=
  ⟨dirWithBranch_reach true, _, _, rfl, rfl, fun h => absurd h.bstart (by decide)⟩

/-- Without a listing both hidden directories are open. -/
theorem revalDir_follows_unlisted :
    ∃ f n, (dirWithBranch false).reval quietReval = some (.ok (), f, n) ∧
      Follows (dirTable [2, 1] 2) n f :=
  ⟨_, _, rfl, (revalDir_follows_iff dirHd (dirWithBranch false) (dirWithBranch_reach false) quietReval
    _ _ rfl).mpr (.inr (.inl ⟨rfl, rfl⟩))⟩

end DirState

end Handle

end Aufs
