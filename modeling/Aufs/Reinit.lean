-- SUMMARY: Whiteout creation at the link limit and the deferred re-creation of the whiteout base, with remounts in between (whout.c).
import Mathlib.Data.List.Perm.Basic
import Aufs.BrUse

/-!
# Re-creating the whiteout base

A whiteout is a link to the base of its branch. When the base can have no more links,
`kick_reinit_br_wh` queues the work `reinit_br_wh`, which makes a new base. Whiteouts are
created under the read lock of the super block, the work and a remount take the write lock:
so creations go on side by side in small steps, and the work and a remount come in between,
each at once, while no creation runs.
-/

namespace Aufs

-- ---------------------------------------------------------------------------
-- The parties
-- ---------------------------------------------------------------------------

/-- Where a `link_or_create_wh` stands in `kick_reinit_br_wh`: before the increment of
`br_wh_running`, as the one to queue the work, before the decrement, or past it. -/
inductive KickPc where
  | inc | alloc | dec | create
  deriving DecidableEq, Repr

/-- A `link_or_create_wh` on the branch with an id, after the link failed with `-EMLINK`. -/
structure Creator where
  brId : Int
  pc : KickPc
  deriving DecidableEq, Repr

/-- The super block, `br_wh_running` of the branches by their ids, the branches whose
`reinit_br_wh` is queued, and the creations that run. `held` counts the other references to
a branch. -/
structure WhSys where
  sb : Sbinfo
  running : Int → Int
  work : List Int
  creators : List Creator
  held : Int → Nat

/-- What `reinit_br_wh` gets from the file system below. -/
structure ReinitEnv where
  unlink : Option LowerErrno
  wh : InitWhEnv
  deriving DecidableEq, Repr

/-- `br_get` and `br_put` of the branch with an id. -/
def Sbinfo.brAddRef (st : Sbinfo) (brId n : Int) : Sbinfo :=
  st.setBranch (st.findBrindex brId) fun br => { br with brCount := br.brCount + n }

/-- `reinit_br_wh` under the lock, up to its label `out`. A branch that is not in the table
was freed, so `find_brindex` cannot fail for the branch of the argument. -/
def reinitBrWh (e : ReinitEnv) (st : Sbinfo) (brId : Int) : Except Errno Unit × Sbinfo :=
  let bindex := st.findBrindex brId
  match st.stobr bindex with
  | none => (.error .oops, st)
  | some br =>
    if !brWritable br.brPerm then (.ok (), st)
    -- the parent of the base is read
    else if !br.brWh then (.error .oops, st)
    else
      match e.unlink with
      | some err => (.error err.1, st.setBranch bindex fun _ => { br with brWh := false })
      | none =>
        let (r, br') := initWh e.wh st.plink { br with brWh := false }
        (r, st.setBranch bindex fun _ => br')

-- ---------------------------------------------------------------------------
-- Steps
-- ---------------------------------------------------------------------------

/-- What happens next: a creation links the base, with the answer of the link; a creation
takes its next step, in which an allocation may fail; a queued work runs; a remount; a file
is opened or closed on a branch. -/
inductive WhEvent where
  | link (bindex : Int) (ans : Option LowerErrno)
  | kick (k : Nat) (arg : Bool)
  | reinit (k : Nat) (e : ReinitEnv)
  | remount (e : Int → InitWhEnv) (opts : List AuOpt)
  | get (brId : Int)
  | put (brId : Int)

namespace WhSys

/-- The first half of `link_or_create_wh`. -/
def link (s : WhSys) (bindex : Int) (ans : Option LowerErrno) : WhSys :=
  match s.sb.stobr bindex with
  | none => s
  | some br =>
    if br.brWh && ans.map Subtype.val = some .EMLINK then
      { s with creators := s.creators ++ [⟨br.brId, .inc⟩] }
    else s

/-- The next step of a creation. -/
def kick (s : WhSys) (k : Nat) (c : Creator) (arg : Bool) : WhSys :=
  let go (pc : KickPc) := s.creators.set k ⟨c.brId, pc⟩
  match c.pc with
  | .inc =>
    let n := s.running c.brId + 1
    { s with
      running := Function.update s.running c.brId n
      creators := go (if n ≠ 1 then .dec else .alloc) }
  | .alloc =>
    if arg then
      { s with sb := s.sb.brAddRef c.brId 1, work := s.work ++ [c.brId], creators := go .create }
    else { s with creators := go .dec }
  | .dec =>
    { s with
      running := Function.update s.running c.brId (s.running c.brId - 1)
      creators := go .create }
  | .create => { s with creators := s.creators.eraseIdx k }

/-- The label `out` of `reinit_br_wh`. -/
def finish (s : WhSys) (k : Nat) (brId : Int) (st : Sbinfo) : WhSys :=
  { s with
    sb := st.brAddRef brId (-1)
    running := Function.update s.running brId (s.running brId - 1)
    work := s.work.eraseIdx k }

end WhSys

/-- A step, unless a lock keeps it from happening. -/
def Host.whEvent (h : Host) (s : WhSys) : WhEvent → Option (Except Errno Unit × WhSys)
  | .link bindex ans =>
    if 0 ≤ bindex ∧ bindex ≤ s.sb.siBend then some (.ok (), s.link bindex ans) else none
  | .kick k arg => (s.creators[k]?).map fun c => (.ok (), s.kick k c arg)
  | .reinit k e =>
    if s.creators = [] then
      (s.work[k]?).map fun brId =>
        match reinitBrWh e s.sb brId with
        | (.error .oops, st) => (.error .oops, { s with sb := st })
        | (_, st) => (.ok (), s.finish k brId st)
    else none
  | .remount e opts =>
    if s.creators = [] then
      let (r, st) := h.doOptsRemount e opts s.sb
      some (r, { s with sb := st })
    else none
  | .get brId =>
    if 0 ≤ s.sb.findBrindex brId then
      some (.ok (), { s with
        sb := s.sb.brAddRef brId 1
        held := Function.update s.held brId (s.held brId + 1) })
    else none
  | .put brId =>
    if 0 < s.held brId then
      some (.ok (), { s with
        sb := s.sb.brAddRef brId (-1)
        held := Function.update s.held brId (s.held brId - 1) })
    else none

/-- The states that steps of a kind lead to after a mount. A missing base ends the run. -/
inductive Host.WhReach (h : Host) (ok : WhSys → WhEvent → Prop) : WhSys → Prop
  | mount (e : Host.MountEnv) (opts : List AuOpt) (xino plink : Bool)
      (hok : (h.doOptsMount e opts (.init xino plink)).1 = .ok ()) :
      WhReach h ok ⟨(h.doOptsMount e opts (.init xino plink)).2, fun _ => 0, [], [], fun _ => 0⟩
  | event {s s' : WhSys} {r : Except Errno Unit} (ev : WhEvent) (hr : WhReach h ok s)
      (hev : ok s ev) (hstep : h.whEvent s ev = some (r, s')) (hne : r ≠ .error .oops) :
      WhReach h ok s'

-- ---------------------------------------------------------------------------
-- Branches by their ids
-- ---------------------------------------------------------------------------

namespace Sbinfo

variable {h : Host} {st st' : Sbinfo}

/-- The branch at an index of the table has this id. -/
structure Has (st : Sbinfo) (brId b : Int) (br : AufsBranch) : Prop where
  inTable : st.InTable b
  stobr : st.stobr b = some br
  brId : br.brId = brId

theorem Has.unique (ht : h.Tabled st) {brId b c : Int} {br br' : AufsBranch} (hb : st.Has brId b br)
    (hc : st.Has brId c br') : b = c ∧ br = br' := by
  obtain ⟨t, ht⟩ := ht
  obtain rfl := ht.tableOk.distinct b c br br' hb.inTable hc.inTable hb.stobr hc.stobr
    (hb.brId.trans hc.brId.symm)
  exact ⟨rfl, Option.some.inj (hb.stobr.symm.trans hc.stobr)⟩

theorem Has.findBrindex (ht : h.Tabled st) {brId b : Int} {br : AufsBranch} (hb : st.Has brId b br) :
    st.findBrindex brId = b := by
  have hfind : (bindexes 0 st.siBend).find? (fun b => (st.stobr b).any (·.brId = brId)) = some b := by
    refine find?_bindexes.mpr ⟨?_, hb.inTable.1, hb.inTable.2, fun c h0 hlt => ?_⟩
    · rw [hb.stobr, Option.any_some, hb.brId, decide_eq_true_eq]
    · cases hc : st.stobr c with
      | none => rfl
      | some br' =>
        rw [Option.any_some, decide_eq_false_iff_not]
        intro hid
        have hbend := hb.inTable.2
        have := (Has.unique ht hb ⟨⟨h0, by omega⟩, hc, hid⟩).1
        omega
  rw [Sbinfo.findBrindex, hfind, Option.getD_some]

theorem has_of_findBrindex {brId : Int} (h0 : 0 ≤ st.findBrindex brId) :
    ∃ br, st.Has brId (st.findBrindex brId) br := by
  cases hfind : (bindexes 0 st.siBend).find? (fun b => (st.stobr b).any (·.brId = brId)) with
  | none =>
    rw [Sbinfo.findBrindex, hfind, Option.getD_none] at h0
    omega
  | some b =>
    obtain ⟨hp, h0, hle, -⟩ := find?_bindexes.mp hfind
    obtain ⟨br, hbr, hid⟩ := (Option.any_eq_true _ _).mp hp
    rw [Sbinfo.findBrindex, hfind, Option.getD_some]
    exact ⟨br, ⟨h0, hle⟩, hbr, of_decide_eq_true hid⟩

theorem has_of_stobr {brId : Int} (h0 : 0 ≤ st.findBrindex brId) {br : AufsBranch}
    (hbr : st.stobr (st.findBrindex brId) = some br) : st.Has brId (st.findBrindex brId) br := by
  obtain ⟨br', hb⟩ := has_of_findBrindex h0
  obtain rfl := Option.some.inj (hb.stobr.symm.trans hbr)
  exact hb

/-- What a change of the branch with an id does to the table. -/
theorem Has.setBranch {brId b : Int} {br : AufsBranch} (hb : st.Has brId b br)
    {f : AufsBranch → AufsBranch} (hf : (f br).brId = br.brId) {brId' c : Int} {br' : AufsBranch} :
    (st.setBranch b f).Has brId' c br' ↔
      (c = b ∧ brId' = brId ∧ br' = f br) ∨ (c ≠ b ∧ st.Has brId' c br') := by
  have hget := @stobr_setBranch st b hb.inTable.1 f c
  by_cases hcb : c = b
  · subst hcb
    rw [if_pos rfl, hb.stobr, Option.map_some] at hget
    constructor
    · rintro ⟨-, hbr', hid⟩
      obtain rfl := Option.some.inj (hget.symm.trans hbr')
      exact .inl ⟨rfl, (hid.symm.trans hf).trans hb.brId, rfl⟩
    · rintro (⟨-, rfl, rfl⟩ | ⟨hne, -⟩)
      · exact ⟨hb.inTable, hget, hf.trans hb.brId⟩
      · exact absurd rfl hne
  · rw [if_neg hcb] at hget
    constructor
    · rintro ⟨hc, hbr', hid⟩
      exact .inr ⟨hcb, hc, hget.symm.trans hbr', hid⟩
    · rintro (⟨rfl, -, -⟩ | ⟨-, hc⟩)
      · exact absurd rfl hcb
      · exact ⟨hc.inTable, hget.trans hc.stobr, hc.brId⟩

/-- A reference more or less changes the use count of one branch. -/
theorem Has.brAddRef (ht : h.Tabled st) {brId b : Int} {br : AufsBranch} (hb : st.Has brId b br) (n : Int)
    {brId' c : Int} {br' : AufsBranch} :
    (st.brAddRef brId n).Has brId' c br' ↔
      (c = b ∧ brId' = brId ∧ br' = { br with brCount := br.brCount + n }) ∨ (c ≠ b ∧ st.Has brId' c br') := by
  rw [Sbinfo.brAddRef, hb.findBrindex ht]
  exact hb.setBranch rfl

theorem sameTable_brAddRef (brId n : Int) : st.SameTable (st.brAddRef brId n) :=
  sameTable_setBranch _ fun _ => rfl

/-- The branch with an id is there, and it has a whiteout base if it is writable. -/
def Ready (st : Sbinfo) (brId : Int) : Prop :=
  ∃ b br, st.Has brId b br ∧ (brWritable br.brPerm = true → br.brWh = true)

/-- The branch with an id is there, and it has a whiteout base. -/
def Based (st : Sbinfo) (brId : Int) : Prop := ∃ b br, st.Has brId b br ∧ br.brWh = true

theorem Based.ready {brId : Int} (hb : st.Based brId) : st.Ready brId := by
  obtain ⟨b, br, hb, hwh⟩ := hb
  exact ⟨b, br, hb, fun _ => hwh⟩

/-- References have nothing to do with whiteout bases. -/
theorem exists_brAddRef (ht : h.Tabled st) {brId b : Int} {br : AufsBranch} (hb : st.Has brId b br) (n : Int)
    {P : AufsBranch → Prop} (hP : ∀ br m, P br → P { br with brCount := m }) {brId' : Int}
    (hex : ∃ c br', st.Has brId' c br' ∧ P br') : ∃ c br', (st.brAddRef brId n).Has brId' c br' ∧ P br' := by
  obtain ⟨c, br', hc, hp⟩ := hex
  by_cases hcb : c = b
  · subst hcb
    obtain rfl := Option.some.inj (hb.stobr.symm.trans hc.stobr)
    refine ⟨c, _, (hb.brAddRef ht n).mpr (.inl ⟨rfl, hc.brId.symm.trans hb.brId, rfl⟩), hP _ _ hp⟩
  · exact ⟨c, br', (hb.brAddRef ht n).mpr (.inr ⟨hcb, hc⟩), hp⟩

theorem WhOnly.brAddRef (ht : h.Tabled st) (hwh : st.WhOnly) {brId b : Int} {br : AufsBranch}
    (hb : st.Has brId b br) (n : Int) : (st.brAddRef brId n).WhOnly := by
  intro c br' hc hbr' hbase
  rcases (hb.brAddRef ht n).mp ⟨hc, hbr', rfl⟩ with ⟨rfl, -, rfl⟩ | ⟨-, hold⟩
  · exact hwh c br hb.inTable hb.stobr hbase
  · exact hwh c br' hold.inTable hold.stobr hbase

end Sbinfo

-- ---------------------------------------------------------------------------
-- The invariant
-- ---------------------------------------------------------------------------

/-- The creation counts in `br_wh_running` of the branch. -/
def Creator.counts (brId : Int) (c : Creator) : Bool := c.brId = brId && (c.pc = .alloc || c.pc = .dec)

/-- The creation is the one that queues the work. -/
def Creator.wins (brId : Int) (c : Creator) : Bool := c.brId = brId && c.pc = .alloc

/-- `br_wh_running` counts the queued work and the creations in between, of which one at most
can queue another one; a use count has a reference for the work; and work is queued only for
a branch that is there and has its base if it is writable. -/
structure Host.WhInv (h : Host) (s : WhSys) : Prop where
  tabled : h.Tabled s.sb
  whOnly : s.sb.WhOnly
  running : ∀ id, s.running id = s.work.count id + s.creators.countP (Creator.counts id)
  one : ∀ id, s.work.count id + s.creators.countP (Creator.wins id) ≤ 1
  count : ∀ id b br, s.sb.Has id b br → br.brCount = s.held id + s.work.count id
  gone : ∀ id, (∀ b br, ¬s.sb.Has id b br) → s.held id = 0 ∧ s.work.count id = 0
  work : ∀ id ∈ s.work, s.sb.Ready id
  creators : ∀ c ∈ s.creators, s.sb.Based c.brId

theorem countP_eraseIdx {α : Type} {l : List α} {k : Nat} {a : α} (hk : l[k]? = some a) (p : α → Bool) :
    l.countP p = (l.eraseIdx k).countP p + if p a then 1 else 0 := by
  obtain ⟨hlt, rfl⟩ := List.getElem?_eq_some_iff.mp hk
  rw [← (List.getElem_cons_eraseIdx_perm hlt).countP_eq, List.countP_cons]

theorem countP_set_of {α : Type} {l : List α} {k : Nat} {a : α} (hk : l[k]? = some a) (b : α) (p : α → Bool) :
    (l.set k b).countP p + (if p a then 1 else 0) = l.countP p + if p b then 1 else 0 := by
  obtain ⟨hlt, rfl⟩ := List.getElem?_eq_some_iff.mp hk
  have hpos : p l[k] = true → 0 < l.countP p := fun hp =>
    List.countP_pos_iff.mpr ⟨l[k], List.getElem_mem hlt, hp⟩
  rw [List.countP_set hlt]
  split
  case isTrue hp =>
    have := hpos hp
    omega
  case isFalse => omega

section

variable {h : Host} {s : WhSys}

-- ---------------------------------------------------------------------------
-- Creations
-- ---------------------------------------------------------------------------

theorem Host.WhInv.link (hs : h.WhInv s) {bindex : Int} (hb : s.sb.InTable bindex)
    (ans : Option LowerErrno) : h.WhInv (s.link bindex ans) := by
  unfold WhSys.link
  split
  · exact hs
  rename_i br hbr
  split
  · rename_i hfull
    have hwh : br.brWh = true := (Bool.and_eq_true_iff.mp hfull).1
    refine ⟨hs.tabled, hs.whOnly, fun id => ?_, fun id => ?_, hs.count, hs.gone, hs.work, fun c hc => ?_⟩
    · have hnot : Creator.counts id ⟨br.brId, .inc⟩ = false := by simp [Creator.counts]
      dsimp only
      rw [List.countP_append, List.countP_singleton, hnot]
      exact hs.running id
    · have hnot : Creator.wins id ⟨br.brId, .inc⟩ = false := by simp [Creator.wins]
      dsimp only
      rw [List.countP_append, List.countP_singleton, hnot]
      exact hs.one id
    · rcases List.mem_append.mp hc with hold | hnew
      · exact hs.creators c hold
      · obtain rfl := List.mem_singleton.mp hnew
        exact ⟨bindex, br, ⟨hb, hbr, rfl⟩, hwh⟩
  · exact hs

theorem Creator.counts_of_wins {id : Int} {c : Creator} (hw : c.wins id = true) : c.counts id = true := by
  simp only [Creator.wins, Bool.and_eq_true, decide_eq_true_eq] at hw
  simp [Creator.counts, hw.1, hw.2]

/-- A step of a creation keeps the creations on their branches. -/
theorem Host.WhInv.creators_set (hs : h.WhInv s) {k : Nat} {c : Creator} (hk : s.creators[k]? = some c)
    (pc : KickPc) : ∀ c' ∈ s.creators.set k ⟨c.brId, pc⟩, s.sb.Based c'.brId := by
  intro c' hc'
  rcases List.mem_or_eq_of_mem_set hc' with hold | rfl
  · exact hs.creators c' hold
  · exact hs.creators c (List.mem_of_getElem? hk)

/-- The increment: whoever finds zero queues the work. -/
theorem Host.WhInv.inc (hs : h.WhInv s) {k : Nat} {brId : Int} (hk : s.creators[k]? = some ⟨brId, .inc⟩)
    (arg : Bool) : h.WhInv (s.kick k ⟨brId, .inc⟩ arg) := by
  have hnot : ∀ id, Creator.counts id ⟨brId, .inc⟩ = false ∧ Creator.wins id ⟨brId, .inc⟩ = false := by
    intro id
    simp [Creator.counts, Creator.wins]
  simp only [WhSys.kick]
  refine ⟨hs.tabled, hs.whOnly, fun id => ?_, fun id => ?_, hs.count, hs.gone, hs.work,
    hs.creators_set hk _⟩
  · have hcount := countP_set_of hk ⟨brId, if s.running brId + 1 ≠ 1 then .dec else .alloc⟩
      (Creator.counts id)
    rw [(hnot id).1, if_neg Bool.false_ne_true] at hcount
    have hrun := hs.running id
    dsimp only
    by_cases hid : id = brId
    · subst hid
      have hnew : Creator.counts id ⟨id, if s.running id + 1 ≠ 1 then .dec else .alloc⟩ = true := by
        split <;> simp [Creator.counts]
      rw [hnew, if_pos rfl] at hcount
      rw [Function.update_self]
      omega
    · have hnew : Creator.counts id ⟨brId, if s.running brId + 1 ≠ 1 then .dec else .alloc⟩ = false := by
        simp [Creator.counts, Ne.symm hid]
      rw [hnew, if_neg Bool.false_ne_true] at hcount
      rw [Function.update_of_ne hid]
      omega
  · have hcount := countP_set_of hk ⟨brId, if s.running brId + 1 ≠ 1 then .dec else .alloc⟩
      (Creator.wins id)
    rw [(hnot id).2, if_neg Bool.false_ne_true] at hcount
    have hone := hs.one id
    dsimp only
    by_cases hwins : Creator.wins id ⟨brId, if s.running brId + 1 ≠ 1 then .dec else .alloc⟩ = true
    · rw [hwins, if_pos rfl] at hcount
      -- the counter was zero: no work is queued, and nobody is about to queue one
      obtain ⟨hid, hpc⟩ : brId = id ∧ s.running brId + 1 = 1 := by
        simp only [Creator.wins, Bool.and_eq_true, decide_eq_true_eq] at hwins
        refine ⟨hwins.1, ?_⟩
        by_contra hne
        have hpc := hwins.2
        rw [if_pos hne] at hpc
        cases hpc
      have hrun := hs.running id
      have hle : s.creators.countP (Creator.wins id) ≤ s.creators.countP (Creator.counts id) :=
        List.countP_mono_left fun _ _ => Creator.counts_of_wins
      rw [← hid] at hrun hle hcount ⊢
      omega
    · rw [Bool.not_eq_true] at hwins
      rw [hwins, if_neg Bool.false_ne_true] at hcount
      omega

/-- The work is queued. -/
theorem Host.WhInv.queue (hs : h.WhInv s) {k : Nat} {brId : Int} (hk : s.creators[k]? = some ⟨brId, .alloc⟩) :
    h.WhInv (s.kick k ⟨brId, .alloc⟩ true) := by
  obtain ⟨b, br, hb, hwh⟩ := hs.creators _ (List.mem_of_getElem? hk)
  replace hb : s.sb.Has brId b br := hb
  have hget := fun id c br' => @Sbinfo.Has.brAddRef h s.sb hs.tabled _ _ _ hb 1 id c br'
  have hwork : ∀ id, (s.work ++ [brId]).count id = s.work.count id + if brId = id then 1 else 0 := by
    intro id
    rw [List.count_append, List.count_singleton]
    by_cases hid : brId = id
    · simp [hid]
    · simp [hid]
  simp only [WhSys.kick, if_true]
  refine ⟨hs.tabled.sameTable (Sbinfo.sameTable_brAddRef _ _), hs.whOnly.brAddRef hs.tabled hb 1,
    fun id => ?_, fun id => ?_, fun id c br' hc => ?_, fun id hno => ?_, fun id hid => ?_, fun c hc => ?_⟩
  · have hcount := countP_set_of hk ⟨brId, .create⟩ (Creator.counts id)
    have hrun := hs.running id
    have hnew : Creator.counts id ⟨brId, .create⟩ = false := by simp [Creator.counts]
    have hold : Creator.counts id ⟨brId, .alloc⟩ = decide (brId = id) := by simp [Creator.counts]
    rw [hnew, hold, if_neg Bool.false_ne_true] at hcount
    dsimp only
    rw [hwork]
    simp only [decide_eq_true_eq] at hcount
    omega
  · have hcount := countP_set_of hk ⟨brId, .create⟩ (Creator.wins id)
    have hone := hs.one id
    have hnew : Creator.wins id ⟨brId, .create⟩ = false := by simp [Creator.wins]
    have hold : Creator.wins id ⟨brId, .alloc⟩ = decide (brId = id) := by simp [Creator.wins]
    rw [hnew, hold, if_neg Bool.false_ne_true] at hcount
    dsimp only
    rw [hwork]
    simp only [decide_eq_true_eq] at hcount
    omega
  · dsimp only
    rw [hwork]
    rcases (hget id c br').mp hc with ⟨rfl, rfl, rfl⟩ | ⟨hne, hold⟩
    · have := hs.count _ _ _ hb
      dsimp only
      rw [if_pos rfl]
      omega
    · have hid : brId ≠ id := by
        rintro rfl
        exact hne (hold.unique hs.tabled hb).1
      rw [if_neg hid, Nat.add_zero]
      exact hs.count _ _ _ hold
  · have hid : brId ≠ id := by
      rintro rfl
      exact hno b _ ((hget brId b _).mpr (.inl ⟨rfl, rfl, rfl⟩))
    have hgone : ∀ c br', ¬s.sb.Has id c br' := by
      intro c br' hc
      by_cases hcb : c = b
      · subst hcb
        obtain rfl := Option.some.inj (hb.stobr.symm.trans hc.stobr)
        exact hid (hb.brId.symm.trans hc.brId)
      · exact hno c br' ((hget id c br').mpr (.inr ⟨hcb, hc⟩))
    dsimp only
    rw [hwork, if_neg hid]
    exact hs.gone id hgone
  · have hready : s.sb.Ready id := by
      rcases List.mem_append.mp hid with hold | hnew
      · exact hs.work id hold
      · obtain rfl := List.mem_singleton.mp hnew
        exact ⟨b, br, hb, fun _ => hwh⟩
    exact Sbinfo.exists_brAddRef hs.tabled hb 1 (fun _ _ hp => hp) hready
  · exact Sbinfo.exists_brAddRef hs.tabled hb 1 (fun _ _ hp => hp) (hs.creators_set hk .create c hc)

theorem Host.WhInv.kick (hs : h.WhInv s) {k : Nat} {c : Creator} (hk : s.creators[k]? = some c) (arg : Bool) :
    h.WhInv (s.kick k c arg) := by
  obtain ⟨brId, pc⟩ := c
  cases pc with
  | inc => exact hs.inc hk arg
  | alloc =>
    cases arg with
    | true => exact hs.queue hk
    | false =>
      simp only [WhSys.kick, Bool.false_eq_true, if_false]
      refine ⟨hs.tabled, hs.whOnly, fun id => ?_, fun id => ?_, hs.count, hs.gone, hs.work,
        hs.creators_set hk _⟩
      · have hcount := countP_set_of hk ⟨brId, .dec⟩ (Creator.counts id)
        have hnew : Creator.counts id ⟨brId, .dec⟩ = Creator.counts id ⟨brId, .alloc⟩ := by
          simp [Creator.counts]
        rw [hnew, Nat.add_right_cancel_iff] at hcount
        dsimp only
        rw [hcount]
        exact hs.running id
      · have hcount := countP_set_of hk ⟨brId, .dec⟩ (Creator.wins id)
        have hone := hs.one id
        have hnew : Creator.wins id ⟨brId, .dec⟩ = false := by simp [Creator.wins]
        rw [hnew, if_neg Bool.false_ne_true] at hcount
        dsimp only
        omega
  | dec =>
    simp only [WhSys.kick]
    refine ⟨hs.tabled, hs.whOnly, fun id => ?_, fun id => ?_, hs.count, hs.gone, hs.work,
      hs.creators_set hk _⟩
    · have hcount := countP_set_of hk ⟨brId, .create⟩ (Creator.counts id)
      have hrun := hs.running id
      have hnew : Creator.counts id ⟨brId, .create⟩ = false := by simp [Creator.counts]
      rw [hnew, if_neg Bool.false_ne_true] at hcount
      dsimp only
      by_cases hid : id = brId
      · subst hid
        have hold : Creator.counts id ⟨id, .dec⟩ = true := by simp [Creator.counts]
        rw [hold, if_pos rfl] at hcount
        rw [Function.update_self]
        omega
      · have hold : Creator.counts id ⟨brId, .dec⟩ = false := by simp [Creator.counts, Ne.symm hid]
        rw [hold, if_neg Bool.false_ne_true] at hcount
        rw [Function.update_of_ne hid]
        omega
    · have hcount := countP_set_of hk ⟨brId, .create⟩ (Creator.wins id)
      have hone := hs.one id
      have hnew : Creator.wins id ⟨brId, .create⟩ = false := by simp [Creator.wins]
      rw [hnew, if_neg Bool.false_ne_true] at hcount
      dsimp only
      omega
  | create =>
    simp only [WhSys.kick]
    refine ⟨hs.tabled, hs.whOnly, fun id => ?_, fun id => ?_, hs.count, hs.gone, hs.work,
      fun c hc => hs.creators c (List.mem_of_mem_eraseIdx hc)⟩
    · have hcount := countP_eraseIdx hk (Creator.counts id)
      have hrun := hs.running id
      have hold : Creator.counts id ⟨brId, .create⟩ = false := by simp [Creator.counts]
      rw [hold, if_neg Bool.false_ne_true] at hcount
      dsimp only
      omega
    · have hcount := countP_eraseIdx hk (Creator.wins id)
      have hone := hs.one id
      dsimp only
      omega

-- ---------------------------------------------------------------------------
-- Other references
-- ---------------------------------------------------------------------------

/-- A reference that comes or goes with its count in `held`. -/
theorem Host.WhInv.ref (hs : h.WhInv s) {brId b : Int} {br : AufsBranch} (hb : s.sb.Has brId b br)
    {n : Int} {m : Nat} (hm : (m : Int) = s.held brId + n) :
    h.WhInv { s with sb := s.sb.brAddRef brId n, held := Function.update s.held brId m } := by
  have hget := fun id c br' => @Sbinfo.Has.brAddRef h s.sb hs.tabled _ _ _ hb n id c br'
  refine ⟨hs.tabled.sameTable (Sbinfo.sameTable_brAddRef _ _), hs.whOnly.brAddRef hs.tabled hb n,
    hs.running, hs.one, fun id c br' hc => ?_, fun id hno => ?_,
    fun id hid => Sbinfo.exists_brAddRef hs.tabled hb n (fun _ _ hp => hp) (hs.work id hid),
    fun c hc => Sbinfo.exists_brAddRef hs.tabled hb n (fun _ _ hp => hp) (hs.creators c hc)⟩
  · dsimp only
    rcases (hget id c br').mp hc with ⟨rfl, rfl, rfl⟩ | ⟨hne, hold⟩
    · have := hs.count _ _ _ hb
      dsimp only
      rw [Function.update_self]
      omega
    · have hid : id ≠ brId := by
        rintro rfl
        exact hne (hold.unique hs.tabled hb).1
      rw [Function.update_of_ne hid]
      exact hs.count _ _ _ hold
  · have hid : id ≠ brId := by
      rintro rfl
      exact hno b _ ((hget id b _).mpr (.inl ⟨rfl, rfl, rfl⟩))
    have hgone : ∀ c br', ¬s.sb.Has id c br' := by
      intro c br' hc
      by_cases hcb : c = b
      · subst hcb
        obtain rfl := Option.some.inj (hb.stobr.symm.trans hc.stobr)
        exact hid (hc.brId.symm.trans hb.brId)
      · exact hno c br' ((hget id c br').mpr (.inr ⟨hcb, hc⟩))
    dsimp only
    rw [Function.update_of_ne hid]
    exact hs.gone id hgone

/-- Who has a reference or queued work finds the branch. -/
theorem Host.WhInv.has (hs : h.WhInv s) {id : Int} (hid : s.held id + s.work.count id ≠ 0) :
    ∃ b br, s.sb.Has id b br := by
  by_contra hno
  obtain ⟨hheld, hwork⟩ := hs.gone id fun b br hb => hno ⟨b, br, hb⟩
  omega

-- ---------------------------------------------------------------------------
-- The work
-- ---------------------------------------------------------------------------

theorem initWh_rw {e : InitWhEnv} {plink : Bool} {br : AufsBranch} (hperm : br.brPerm = .RW)
    (hwh : br.brWh = false) : (initWh e plink br).2.brWh = true ↔ e.fails plink .RW = false := by
  obtain ⟨lookup, linkable, create, plinkDir⟩ := e
  obtain ⟨xino, hasRead, hasWrite, id, perm, mntSb, count, wh, pl⟩ := br
  obtain rfl : perm = .RW := hperm
  obtain rfl : wh = false := hwh
  cases lookup <;> cases plink <;> cases linkable <;> cases create <;> cases plinkDir <;>
    simp [initWh, initPlink, InitWhEnv.fails]

/-- A work on a branch that has its base, if it is writable: no missing base is met, and in
the end the branch has a base if it is `rw` and making the new one succeeded. -/
theorem reinitBrWh_spec {e : ReinitEnv} {st : Sbinfo} (ht : h.Tabled st) (hwh : st.WhOnly) {brId b : Int}
    {br : AufsBranch} (hb : st.Has brId b br) (hready : brWritable br.brPerm = true → br.brWh = true) :
    (reinitBrWh e st brId).1 ≠ .error .oops ∧
    h.Tabled (reinitBrWh e st brId).2 ∧ (reinitBrWh e st brId).2.WhOnly ∧
    ∃ wh pl, (wh = true ↔ br.brPerm = .RW ∧ e.unlink = none ∧ e.wh.fails st.plink .RW = false) ∧
      ∀ id c br', (reinitBrWh e st brId).2.Has id c br' ↔
        (c = b ∧ id = brId ∧ br' = { br with brWh := wh, brPlink := pl }) ∨ (c ≠ b ∧ st.Has id c br') := by
  have hbase := hwh b br hb.inTable hb.stobr
  have hself : ∀ id c br', st.Has id c br' ↔ (c = b ∧ id = brId ∧ br' = br) ∨ (c ≠ b ∧ st.Has id c br') := by
    intro id c br'
    constructor
    · intro hc
      by_cases hcb : c = b
      · subst hcb
        obtain rfl := Option.some.inj (hb.stobr.symm.trans hc.stobr)
        exact .inl ⟨rfl, hc.brId.symm.trans hb.brId, rfl⟩
      · exact .inr ⟨hcb, hc⟩
    · rintro (⟨rfl, rfl, rfl⟩ | ⟨-, hc⟩)
      · exact hb
      · exact hc
  have hset : ∀ wh pl, (wh = true → br.brPerm = .RW) →
      h.Tabled (st.setBranch b fun _ => { br with brWh := wh, brPlink := pl }) ∧
        (st.setBranch b fun _ => { br with brWh := wh, brPlink := pl }).WhOnly := by
    intro wh pl hnew
    obtain ⟨i, rfl⟩ := Int.eq_ofNat_of_zero_le hb.inTable.1
    refine ⟨ht.sameTable (Sbinfo.sameTable_setBranch_of hb.stobr rfl), ?_⟩
    refine (Sbinfo.keepsUse_setBranch hb.inTable.1 fun br' hbr' => ?_).whOnly hwh
    obtain rfl := Option.some.inj (hb.stobr.symm.trans hbr')
    exact ⟨rfl, rfl, fun _ hw => hnew hw⟩
  rw [reinitBrWh]
  dsimp only
  rw [hb.findBrindex ht, hb.stobr]
  dsimp only
  cases hwritable : brWritable br.brPerm with
  | false =>
    have hno : br.brWh = false := by
      rw [← Bool.not_eq_true]
      intro hw
      rw [hbase hw] at hwritable
      cases hwritable
    refine ⟨(fun he => by cases he), ht, hwh, br.brWh, br.brPlink, ⟨fun hw => ?_, fun hrw => ?_⟩, hself⟩
    · cases hno.symm.trans hw
    · rw [hrw.1] at hwritable
      cases hwritable
  | true =>
    have hw := hready hwritable
    have hrw := hbase hw
    rw [hw]
    simp only [Bool.not_true, Bool.false_eq_true, if_false]
    cases hunlink : e.unlink with
    | some err =>
      obtain ⟨ht', hwh'⟩ := hset false br.brPlink (fun he => by cases he)
      exact ⟨lower_ne_oops err, ht', hwh', false, br.brPlink, ⟨(fun he => by cases he), fun hr => by cases hr.2.1⟩,
        fun id c br' => hb.setBranch rfl⟩
    | none =>
      dsimp only
      obtain ⟨wh, pl, heq, -⟩ := initWh_eq e.wh st.plink { br with brWh := false }
      have hiff := @initWh_rw e.wh st.plink { br with brWh := false } hrw rfl
      rw [heq] at hiff
      obtain ⟨ht', hwh'⟩ := hset wh pl fun _ => hrw
      rw [heq]
      exact ⟨initWh_ne_oops _ _ _, ht', hwh', wh, pl, ⟨fun hnew => ⟨hrw, rfl, hiff.mp hnew⟩,
        fun hr => hiff.mpr hr.2.2⟩, fun id c br' => hb.setBranch rfl⟩

theorem count_eraseIdx_of {l : List Int} {k : Nat} {a : Int} (hk : l[k]? = some a) (id : Int) :
    l.count id = (l.eraseIdx k).count id + if id = a then 1 else 0 := by
  have hcount := countP_eraseIdx hk (· == id)
  simp only [beq_iff_eq, eq_comm (a := a)] at hcount
  exact hcount

/-- A work that runs while no creation does. -/
theorem Host.WhInv.finish (hs : h.WhInv s) (hnone : s.creators = []) {k : Nat} {brId : Int}
    (hk : s.work[k]? = some brId) (e : ReinitEnv) : h.WhInv (s.finish k brId (reinitBrWh e s.sb brId).2) := by
  have hmem := List.mem_of_getElem? hk
  obtain ⟨b, br, hb, hready⟩ := hs.work brId hmem
  obtain ⟨-, ht, hwh, wh, pl, -, hget⟩ := reinitBrWh_spec (e := e) hs.tabled hs.whOnly hb hready
  generalize (reinitBrWh e s.sb brId).2 = st at *
  have hb' : st.Has brId b { br with brWh := wh, brPlink := pl } := (hget _ _ _).mpr (.inl ⟨rfl, rfl, rfl⟩)
  have hget' := fun id c br' => @Sbinfo.Has.brAddRef h st ht _ _ _ hb' (-1) id c br'
  have hcount := count_eraseIdx_of hk
  -- no other work is queued for the branch, and the other branches are those of before
  have hlast : (s.work.eraseIdx k).count brId = 0 := by
    have hone := hs.one brId
    have := hcount brId
    rw [if_pos rfl] at this
    omega
  have hother : ∀ id, id ≠ brId → ∀ c br', (st.brAddRef brId (-1)).Has id c br' ↔ s.sb.Has id c br' := by
    intro id hid c br'
    rw [hget', hget]
    constructor
    · rintro (⟨-, he, -⟩ | ⟨hne, ⟨-, he, -⟩ | ⟨-, hc⟩⟩)
      · exact absurd he hid
      · exact absurd he hid
      · exact hc
    · intro hc
      have hne : c ≠ b := by
        rintro rfl
        obtain rfl := Option.some.inj (hb.stobr.symm.trans hc.stobr)
        exact hid (hc.brId.symm.trans hb.brId)
      exact .inr ⟨hne, .inr ⟨hne, hc⟩⟩
  have hcountNe : ∀ id, id ≠ brId → (s.work.eraseIdx k).count id = s.work.count id := by
    intro id hid
    rw [hcount id, if_neg hid, Nat.add_zero]
  rw [WhSys.finish]
  refine ⟨ht.sameTable (Sbinfo.sameTable_brAddRef _ _), hwh.brAddRef ht hb' (-1), fun id => ?_, fun id => ?_,
    fun id c br' hc => ?_, fun id hno => ?_, fun id hid => ?_, fun c hc => ?_⟩
  · have hrun := hs.running id
    dsimp only
    by_cases hid : id = brId
    · subst hid
      have := hcount id
      rw [if_pos rfl] at this
      rw [Function.update_self]
      omega
    · rw [Function.update_of_ne hid, hcountNe id hid]
      exact hrun
  · have hone := hs.one id
    have := hcount id
    dsimp only
    omega
  · dsimp only at hc ⊢
    by_cases hid : id = brId
    · subst hid
      have hold := hs.count _ _ _ hb
      have hmany := hcount id
      rw [if_pos rfl] at hmany
      rcases (hget' id c br').mp hc with ⟨rfl, -, rfl⟩ | ⟨hne, hc'⟩
      · dsimp only
        omega
      · exact absurd (hc'.unique ht hb').1 hne
    · rw [hcountNe id hid]
      exact hs.count id c br' ((hother id hid c br').mp hc)
  · dsimp only at hno ⊢
    have hid : id ≠ brId := by
      rintro rfl
      exact hno b _ ((hget' id b _).mpr (.inl ⟨rfl, rfl, rfl⟩))
    rw [hcountNe id hid]
    exact hs.gone id fun c br' hc => hno c br' ((hother id hid c br').mpr hc)
  · replace hid : id ∈ s.work.eraseIdx k := hid
    have hne : id ≠ brId := by
      rintro rfl
      have := List.count_pos_iff.mpr hid
      omega
    obtain ⟨c, br', hc, hp⟩ := hs.work id (List.mem_of_mem_eraseIdx hid)
    exact ⟨c, br', (hother id hne c br').mpr hc, hp⟩
  · rw [hnone] at hc
    cases hc

-- ---------------------------------------------------------------------------
-- Remounts
-- ---------------------------------------------------------------------------

theorem verifyLoop_append (e : Int → InitWhEnv) (as bs : List Int) (st : Sbinfo) :
    verifyLoop e (as ++ bs) st =
      match verifyLoop e as st with
      | (.error err, st) => (.error err, st)
      | (.ok (), st) => verifyLoop e bs st := by
  induction as generalizing st with
  | nil => rfl
  | cons a as ih =>
    rw [List.cons_append, verifyLoop, verifyLoop]
    cases st.stobr a with
    | none => rfl
    | some br =>
      dsimp only
      split
      · exact ih st
      · cases initWh (e a) st.plink br with
        | mk r br' =>
          cases r with
          | error err => rfl
          | ok u => exact ih _

/-- Does `verify_opts` leave the `rw` branch at an index with a whiteout base? It does if all
branches up to it pass, or if it ends before that branch and the base is there. -/
def Sbinfo.BaseAfter (e : Int → InitWhEnv) (st : Sbinfo) (b : Int) (br : AufsBranch) : Prop :=
  (∀ c, 0 ≤ c → c ≤ b → st.Verifies e c) ∨
    ((∃ c, 0 ≤ c ∧ c < b ∧ ¬st.Verifies e c) ∧ br.brWh = true)

theorem verifyOpts_base {e : Int → InitWhEnv} {st : Sbinfo} {b : Int} {br : AufsBranch} (hb : st.InTable b)
    (hbr : st.stobr b = some br) (hrw : br.brPerm = .RW) (hbase : st.BaseAfter e b br) :
    ∃ br', (verifyOpts e st).2.stobr b = some br' ∧ br'.key = br.key ∧ br'.brWh = true := by
  have hend := @bindexes_split 0 st.siBend (b + 1) (by have := hb.1; omega) (by have := hb.2; omega)
  rw [Int.add_sub_cancel] at hend
  have hkey : ∀ br', (verifyOpts e st).2.stobr b = some br' → br'.key = br.key := by
    intro br' hbr'
    have hsame := (@verifyOpts_spec st e).1.stobr b
    rw [hbr, hbr'] at hsame
    exact Option.some.inj hsame
  suffices hwh : ∃ br', (verifyOpts e st).2.stobr b = some br' ∧ br'.brWh = true by
    obtain ⟨br', hbr', hwh⟩ := hwh
    exact ⟨br', hbr', hkey br' hbr', hwh⟩
  rcases hbase with hall | ⟨⟨c, h0, hlt, hfails⟩, hwh⟩
  · -- all branches up to this one pass
    have hnodup : (bindexes 0 b).Nodup := (bindexes_sorted 0 b).imp fun hlt => Int.ne_of_lt hlt
    have hmem : b ∈ bindexes 0 b := mem_bindexes.mpr ⟨hb.1, Int.le_refl b⟩
    rcases verifyLoop_matches e (fun c hc => (mem_bindexes.mp hc).1) hnodup st with
      ⟨hok, hmatches⟩ | ⟨-, c, hc, hpass, -⟩
    · obtain ⟨br', hbr', hwants⟩ := (hmatches b hmem).2
      have hrun : verifyOpts e st = verifyLoop e (bindexes (b + 1) st.siBend) (verifyLoop e (bindexes 0 b) st).2 := by
        rw [verifyOpts, hend, verifyLoop_append]
        generalize verifyLoop e (bindexes 0 b) st = r at hok
        obtain ⟨r, st₁⟩ := r
        obtain rfl : r = .ok () := hok
        rfl
      have hafter : ∀ c ∈ bindexes (b + 1) st.siBend, 0 ≤ c := by
        intro c hc
        have := (mem_bindexes.mp hc).1
        have := hb.1
        omega
      have hnot : b ∉ bindexes (b + 1) st.siBend := by
        intro hc
        have := (mem_bindexes.mp hc).1
        omega
      have hget : (verifyOpts e st).2.stobr b = some br' := by
        rw [hrun, verifyLoop_other e hafter hnot]
        exact hbr'
      refine ⟨br', hget, hwants.brWh.mpr ?_⟩
      exact (congrArg BrKey.perm (hkey br' hget)).trans hrw
    · exact absurd (hall c (mem_bindexes.mp hc).1 (mem_bindexes.mp hc).2) hpass
  · -- the check ends before it gets to this one
    have hend' := @bindexes_split 0 st.siBend b hb.1 (by have := hb.2; omega)
    have hnodup : (bindexes 0 (b - 1)).Nodup := (bindexes_sorted 0 _).imp fun hlt => Int.ne_of_lt hlt
    rcases verifyLoop_matches e (fun c hc => (mem_bindexes.mp hc).1) hnodup st with
      ⟨-, hmatches⟩ | ⟨⟨err, herr⟩, -⟩
    · exact absurd (hmatches c (mem_bindexes.mpr ⟨h0, by omega⟩)).1 hfails
    · have hrun : (verifyOpts e st).2 = (verifyLoop e (bindexes 0 (b - 1)) st).2 := by
        rw [verifyOpts, hend', verifyLoop_append]
        generalize verifyLoop e (bindexes 0 (b - 1)) st = r at herr
        obtain ⟨r, st₁⟩ := r
        obtain rfl : r = .error err := herr
        rfl
      have hnot : b ∉ bindexes 0 (b - 1) := by
        intro hc
        have := (mem_bindexes.mp hc).2
        omega
      refine ⟨br, ?_, hwh⟩
      rw [hrun, verifyLoop_other e (fun c hc => (mem_bindexes.mp hc).1) hnot]
      exact hbr

/-- A remount is harmless to a queued work unless it leaves the branch writable and without a
whiteout base: as `rw+nolwh`, or as `rw` after an `init_wh` that failed. -/
def WhEvent.Safe (h : Host) (s : WhSys) : WhEvent → Prop
  | .remount e opts =>
    ∀ b br, (h.remountOpts opts s.sb).2.InTable b → (h.remountOpts opts s.sb).2.stobr b = some br →
      br.brId ∈ s.work → brWritable br.brPerm = true →
      br.brPerm = .RW ∧ (h.remountOpts opts s.sb).2.BaseAfter e b br
  | _ => True

theorem Host.WhInv.remount (hs : h.WhInv s) (hnone : s.creators = []) {e : Int → InitWhEnv}
    {opts : List AuOpt} (hsafe : (WhEvent.remount e opts).Safe h s)
    (hne : (h.doOptsRemount e opts s.sb).1 ≠ .error .oops) :
    h.WhInv { s with sb := (h.doOptsRemount e opts s.sb).2 } := by
  obtain ⟨ht, hkeeps⟩ := Host.doOptsRemount_use hs.tabled e opts
  obtain ⟨ht₁, hkeeps₁⟩ := Host.remountOpts_use hs.tabled opts
  have hend : (h.doOptsRemount e opts s.sb).2 = (verifyOpts e (h.remountOpts opts s.sb).2).2 := by
    rw [Host.doOptsRemount] at hne ⊢
    split at hne
    · exact absurd rfl hne
    · rename_i heq
      rw [heq]
  -- a branch with references is still there
  have hstays : ∀ id, s.held id + s.work.count id ≠ 0 → ∀ st, s.sb.KeepsUse st →
      ∃ b br, st.Has id b br ∧ br.brCount = s.held id + s.work.count id := by
    intro id hid st hst
    obtain ⟨b, br, hb⟩ := hs.has hid
    have hcount := hs.count id b br hb
    obtain ⟨b', br', hb', hbr', hid', hn⟩ := (hst.counted id br.brCount (by omega)).mpr
      ⟨b, br, hb.inTable, hb.stobr, hb.brId, rfl⟩
    exact ⟨b', br', ⟨hb', hbr', hid'⟩, hn.trans hcount⟩
  refine ⟨ht, hkeeps.whOnly hs.whOnly, hs.running, hs.one, fun id b br hb => ?_, fun id hno => ?_,
    fun id hid => ?_, fun c hc => ?_⟩
  · by_cases hn : s.held id + s.work.count id = 0
    · -- a branch without references has the count zero
      by_contra hcount
      dsimp only at hb hcount
      obtain ⟨c, br', hc, hbr', hid', hn'⟩ := (hkeeps.counted id br.brCount (by omega)).mp
        ⟨b, br, hb.inTable, hb.stobr, hb.brId, rfl⟩
      have := hs.count id c br' ⟨hc, hbr', hid'⟩
      omega
    · obtain ⟨c, br', hc, hcount⟩ := hstays id hn _ hkeeps
      obtain ⟨-, rfl⟩ := Sbinfo.Has.unique ht hb hc
      exact hcount
  · by_contra hn
    dsimp only at hn
    obtain ⟨b, br, hb, -⟩ := hstays id (by omega) _ hkeeps
    exact hno b br hb
  · have hpos := List.count_pos_iff.mpr hid
    obtain ⟨b, br, hb, -⟩ := hstays id (by dsimp only at hpos; omega) _ hkeeps₁
    have htable := (@verifyOpts_spec (h.remountOpts opts s.sb).2 e).1
    dsimp only
    rw [hend]
    by_cases hwritable : brWritable br.brPerm = true
    · obtain ⟨hrw, hbase⟩ := hsafe b br hb.inTable hb.stobr (hb.brId ▸ hid) hwritable
      obtain ⟨br', hbr', hkey, hwh⟩ := verifyOpts_base hb.inTable hb.stobr hrw hbase
      exact ⟨b, br', ⟨htable.inTable.mpr hb.inTable, hbr', (congrArg BrKey.id hkey).trans hb.brId⟩, fun _ => hwh⟩
    · have hsame := htable.stobr b
      rw [hb.stobr] at hsame
      obtain ⟨br', hbr', hkey⟩ := Option.map_eq_some_iff.mp hsame
      refine ⟨b, br', ⟨htable.inTable.mpr hb.inTable, hbr', (congrArg BrKey.id hkey).trans hb.brId⟩, fun hw => ?_⟩
      rw [show br'.brPerm = br.brPerm from congrArg BrKey.perm hkey] at hw
      exact absurd hw hwritable
  · dsimp only at hc
    rw [hnone] at hc
    cases hc

-- ---------------------------------------------------------------------------
-- Runs
-- ---------------------------------------------------------------------------

theorem Host.WhInv.event (hs : h.WhInv s) {ev : WhEvent} (hev : ev.Safe h s) {r : Except Errno Unit}
    {s' : WhSys} (hstep : h.whEvent s ev = some (r, s')) (hne : r ≠ .error .oops) : h.WhInv s' := by
  cases ev with
  | link bindex ans =>
    simp only [Host.whEvent] at hstep
    split at hstep
    · rename_i hb
      cases hstep
      exact hs.link hb ans
    · cases hstep
  | kick k arg =>
    obtain ⟨c, hk, heq⟩ := Option.map_eq_some_iff.mp hstep
    cases heq
    exact hs.kick hk arg
  | reinit k e =>
    simp only [Host.whEvent] at hstep
    split at hstep
    · rename_i hnone
      obtain ⟨id, hk, heq⟩ := Option.map_eq_some_iff.mp hstep
      have hfinish := hs.finish hnone hk e
      split at heq
      case h_1 =>
        cases heq
        exact absurd rfl hne
      case h_2 hr =>
        rw [hr] at hfinish
        cases heq
        exact hfinish
    · cases hstep
  | remount e opts =>
    simp only [Host.whEvent] at hstep
    split at hstep
    · rename_i hnone
      cases hstep
      exact hs.remount hnone hev hne
    · cases hstep
  | get brId =>
    simp only [Host.whEvent] at hstep
    split at hstep
    · rename_i h0
      obtain ⟨br, hb⟩ := Sbinfo.has_of_findBrindex h0
      cases hstep
      exact hs.ref hb (by omega)
    · cases hstep
  | put brId =>
    simp only [Host.whEvent] at hstep
    split at hstep
    · rename_i hpos
      obtain ⟨b, br, hb⟩ := @Host.WhInv.has h s hs brId (by omega)
      cases hstep
      exact hs.ref hb (by omega)
    · cases hstep

theorem Host.WhReach.inv (hr : h.WhReach (fun s ev => ev.Safe h s) s) : h.WhInv s := by
  induction hr with
  | mount e opts xino plink hok =>
    obtain ⟨ht, hkeeps⟩ := Host.doOptsMount_use ⟨_, Sbinfo.is_init h xino plink⟩ e opts
    have hempty : ∀ b, ¬(Sbinfo.init xino plink).InTable b := by
      rintro b ⟨h0, hle⟩
      have hle : b ≤ -1 := hle
      omega
    refine ⟨ht, hkeeps.whOnly fun b _ hb => absurd hb (hempty b), fun _ => rfl, fun _ => Nat.zero_le 1,
      fun id b br hb => ?_, fun _ _ => ⟨rfl, rfl⟩, fun _ hid => absurd hid List.not_mem_nil,
      fun _ hc => absurd hc List.not_mem_nil⟩
    -- a mount begins without branches, and no new branch is in use
    by_contra hn
    obtain ⟨c, -, hc, -⟩ := (hkeeps.counted id br.brCount hn).mp
      ⟨b, br, hb.inTable, hb.stobr, hb.brId, rfl⟩
    exact hempty c hc
  | event ev _ hev hstep hne ih => exact ih.event hev hstep hne

/-- In every run in which no remount leaves a branch with queued work writable and without its
base: one work at most is queued for a branch, the counters tell the queued works and the
creations in between, and a work that runs meets its base, ends with the counters as they
were before it was queued, and leaves a base just on a `rw` branch whose new base could be
made. -/
theorem reinitBrWh_run : ∀ s, h.WhReach (fun s ev => ev.Safe h s) s →
    (∀ id, s.work.count id ≤ 1) ∧
    (∀ id, s.running id = s.work.count id + s.creators.countP (Creator.counts id)) ∧
    (∀ id b br, s.sb.Has id b br → br.brCount = s.held id + s.work.count id) ∧
    ∀ k e id, s.creators = [] → s.work[k]? = some id →
      ∃ s', h.whEvent s (.reinit k e) = some (.ok (), s') ∧ s'.held = s.held ∧
        s'.work.count id = 0 ∧ s'.running id = 0 ∧
        ∃ b br br', s.sb.Has id b br ∧ s'.sb.Has id b br' ∧ br'.brCount = s.held id ∧
          br'.brPerm = br.brPerm ∧
          (br'.brWh = true ↔
            br.brPerm = .RW ∧ e.unlink = none ∧ e.wh.fails s.sb.plink .RW = false) := by
  intro s hr
  have hs := hr.inv
  refine ⟨fun id => ?_, hs.running, hs.count, fun k e id hnone hk => ?_⟩
  · have := hs.one id
    omega
  obtain ⟨b, br, hb, hready⟩ := hs.work id (List.mem_of_getElem? hk)
  obtain ⟨hok, ht, -, wh, pl, hiff, hget⟩ := reinitBrWh_spec (e := e) hs.tabled hs.whOnly hb hready
  have hs' := hs.finish hnone hk e
  have hstep : h.whEvent s (.reinit k e) = some (.ok (), s.finish k id (reinitBrWh e s.sb id).2) := by
    simp only [Host.whEvent, if_pos hnone, hk, Option.map_some]
  generalize (reinitBrWh e s.sb id).2 = st at *
  have hb' : st.Has id b { br with brWh := wh, brPlink := pl } := (hget _ _ _).mpr (.inl ⟨rfl, rfl, rfl⟩)
  have hzero : (s.work.eraseIdx k).count id = 0 := by
    have hone := hs.one id
    have := count_eraseIdx_of hk id
    rw [if_pos rfl] at this
    omega
  have hafter : (st.brAddRef id (-1)).Has id b
      { br with brWh := wh, brPlink := pl, brCount := br.brCount + -1 } :=
    (hb'.brAddRef ht (-1)).mpr (.inl ⟨rfl, rfl, rfl⟩)
  refine ⟨_, hstep, rfl, hzero, ?_, b, br, _, hb, hafter, ?_, rfl, hiff⟩
  · have hrun := hs'.running id
    rw [hrun]
    show ((s.work.eraseIdx k).count id : Int) + (s.creators.countP (Creator.counts id) : Nat) = 0
    rw [hzero, hnone]
    rfl
  · have hcount := hs'.count id b _ hafter
    rw [hcount]
    show (s.held id : Int) + ((s.work.eraseIdx k).count id : Nat) = s.held id
    rw [hzero]
    exact Int.add_zero _

end

-- ---------------------------------------------------------------------------
-- A base that has gone
-- ---------------------------------------------------------------------------

theorem emlink_ne_oops : Errno.EMLINK ≠ .oops := nofun

/-- The only branch of a mount, at its link limit: a creation fails to link the base. -/
def atLimit : WhSys :=
  WhSys.link ⟨oneBranch, fun _ => 0, [], [], fun _ => 0⟩ 0 (some ⟨.EMLINK, emlink_ne_oops⟩)

/-- The creation queues the work and is done. -/
def workQueued : WhSys :=
  ((atLimit.kick 0 ⟨1, .inc⟩ true).kick 0 ⟨1, .alloc⟩ true).kick 0 ⟨1, .create⟩ true

theorem reach_workQueued {ok : WhSys → WhEvent → Prop} (hlink : ∀ s b ans, ok s (.link b ans))
    (hkick : ∀ s k arg, ok s (.kick k arg)) : Host.plain.WhReach ok workQueued := by
  have hmount : Host.plain.WhReach ok ⟨oneBranch, fun _ => 0, [], [], fun _ => 0⟩ :=
    .mount .fine [.addDir 3 [97] 0 .fine] true true (by decide +kernel)
  have hne : (.ok () : Except Errno Unit) ≠ .error .oops := fun he => by cases he
  have hstep : ∀ (s : WhSys) c, Host.plain.WhReach ok s → s.creators[0]? = some c →
      Host.plain.WhReach ok (s.kick 0 c true) := by
    intro s c hr hc
    refine .event (.kick 0 true) hr (hkick s 0 true) ?_ hne
    rw [Host.whEvent, hc]
    rfl
  have hlimit : Host.plain.WhReach ok atLimit := by
    refine .event (.link 0 (some ⟨.EMLINK, emlink_ne_oops⟩)) hmount (hlink _ _ _) ?_ hne
    have hb : 0 ≤ (0 : Int) ∧ 0 ≤ oneBranch.siBend := ⟨by decide, by decide +kernel⟩
    rw [Host.whEvent, if_pos hb]
    rfl
  have hinc := hstep atLimit ⟨1, .inc⟩ hlimit (by decide +kernel)
  have halloc := hstep _ ⟨1, .alloc⟩ hinc (by decide +kernel)
  exact hstep _ ⟨1, .create⟩ halloc (by decide +kernel)

/-- No failing step. -/
def ReinitEnv.fine : ReinitEnv := ⟨none, ⟨none, none, none, none⟩⟩

theorem reinitBrWh_run_workQueued :
    (workQueued.creators = [] ∧ workQueued.work[0]? = some 1) ∧
    ∃ s', Host.plain.whEvent workQueued (.reinit 0 .fine) = some (.ok (), s') ∧
      s'.work.count 1 = 0 ∧ s'.running 1 = 0 := by
  have hreach := @reach_workQueued (fun s ev => ev.Safe Host.plain s) (fun _ _ _ => trivial)
    (fun _ _ _ => trivial)
  have hnone : workQueued.creators = [] := by decide +kernel
  have hk : workQueued.work[0]? = some 1 := by decide +kernel
  obtain ⟨-, -, -, hwork⟩ := reinitBrWh_run workQueued hreach
  obtain ⟨s', hstep, -, hzero, hrun, -⟩ := hwork 0 .fine 1 hnone hk
  exact ⟨⟨hnone, hk⟩, s', hstep, hzero, hrun⟩

/-- The branch becomes `rw+nolwh` before the work runs. -/
def nolwhQueued : WhSys :=
  { workQueued with
    sb := (Host.plain.doOptsRemount (fun _ => ⟨none, none, none, none⟩)
      [.mod ⟨false, ⟨none, none, none, none⟩⟩ ⟨3, [[97]]⟩ .RWNoLinkWH] workQueued.sb).2 }

/-- A creation at the link limit queues the work, a remount without any error makes the
branch `rw+nolwh`, and the work reads the parent of a base that is not there. -/
theorem reinitBrWh_meets_null :
    Host.plain.WhReach (fun _ _ => True) nolwhQueued ∧
      (Host.plain.whEvent nolwhQueued (.reinit 0 .fine)).map Prod.fst = some (.error .oops) := by
  have hreach := @reach_workQueued (fun _ _ => True) (fun _ _ _ => trivial) (fun _ _ _ => trivial)
  refine ⟨.event (r := .ok ()) (.remount (fun _ => ⟨none, none, none, none⟩)
    [.mod ⟨false, ⟨none, none, none, none⟩⟩ ⟨3, [[97]]⟩ .RWNoLinkWH]) hreach trivial ?_
    (fun he => by cases he), by decide +kernel⟩
  have hnone : workQueued.creators = [] := by decide +kernel
  have hok : (Host.plain.doOptsRemount (fun _ => ⟨none, none, none, none⟩)
      [.mod ⟨false, ⟨none, none, none, none⟩⟩ ⟨3, [[97]]⟩ .RWNoLinkWH] workQueued.sb).1 = .ok () := by
    decide +kernel
  simp only [Host.whEvent, if_pos hnone]
  rw [hok]
  rfl

end Aufs
