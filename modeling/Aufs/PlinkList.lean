-- SUMMARY: The list of pseudo-linked inodes when a branch is deleted, and which inodes it leaves without their ends.
import Aufs.Inode
import Aufs.Lib.Ring

/-!
# The pseudo-link list

`half_refresh_plink` walks over the list after a branch was deleted. From every inode it
takes the hidden inode of that branch, and an inode that has none left is taken off the
list and released. The range of an inode that stays is not searched again: its ends may be
the slot that was emptied.
-/

namespace Aufs

/-- `si_plink`, the head of the list. -/
def siPlink : Nat := 0

/-- The memory that `half_refresh_plink` works on: the links of the list, the entries that are
allocated and the inode of each, the inodes and their counts, and the hidden inodes given to
`aufs_hiput`, the last one first. -/
structure PlinkSys where
  links : Ring.Links Nat
  plink : Nat → Option Nat
  ii : Nat → Iinfo
  iCount : Nat → Int
  hiput : List Hinode

namespace PlinkSys

/-- `igrab` -/
def igrab (s : PlinkSys) (i : Nat) : PlinkSys :=
  { s with iCount := Function.update s.iCount i (s.iCount i + 1) }

/-- `iput` -/
def iput (s : PlinkSys) (i : Nat) : PlinkSys :=
  { s with iCount := Function.update s.iCount i (s.iCount i - 1) }

/-- `set_h_iptr` with `NULL`. -/
def clearHIptr (s : PlinkSys) (i : Nat) (bindex : Int) : PlinkSys :=
  { s with
    ii := Function.update s.ii i
      { s.ii i with hinode := Function.update (s.ii i).hinode bindex none }
    hiput := ((s.ii i).hinode bindex).toList ++ s.hiput }

/-- `do_put_plink`. `none` when an entry is read that was freed. -/
def doPutPlink (s : PlinkSys) (plink : Nat) (doDel : Bool) : Option PlinkSys :=
  match s.plink plink with
  | none => none
  | some i =>
    some { s.iput i with
      links := if doDel then s.links.del plink else s.links
      plink := Function.update s.plink plink none }

end PlinkSys

/-- The first hidden inode of a branch that the loop finds. -/
def Iinfo.findId (ii : Iinfo) (brId : Int) : Option Int :=
  (bindexes ii.bstart ii.bend).find? fun b => ((ii.hinode b).map Hinode.id) = some brId

/-- The test behind it: is there a hidden inode left? -/
def Iinfo.anyHinode (ii : Iinfo) : Bool := (bindexes ii.bstart ii.bend).any fun b => (ii.hinode b).isSome

/-- The hidden inodes of an inode are within its range. -/
def Iinfo.Within (ii : Iinfo) : Prop :=
  ∀ b, (ii.hinode b).isSome → 0 ≤ ii.bstart ∧ ii.bstart ≤ b ∧ b ≤ ii.bend

namespace PlinkSys

/-- What the loop of `half_refresh_plink` does to an entry and its inode, as long as it holds the
inode. -/
def refreshInode (s : PlinkSys) (brId : Int) (plink i : Nat) : Option PlinkSys :=
  if 0 ≤ (s.ii i).bstart then
    match (s.ii i).findId brId with
    | none => some s
    | some bindex =>
      let s := s.clearHIptr i bindex
      if (s.ii i).anyHinode then some s else s.doPutPlink plink true
  else s.doPutPlink plink true

/-- The body of the loop. -/
def refreshEntry (s : PlinkSys) (brId : Int) (plink : Nat) : Option PlinkSys :=
  match s.plink plink with
  | none => none
  | some i =>
    match (s.igrab i).refreshInode brId plink i with
    | none => none
    | some s => some (s.iput i)

/-- `half_refresh_plink` -/
def halfRefreshPlink (s : PlinkSys) (fuel : Nat) (brId : Int) : Option PlinkSys :=
  Ring.forEachSafe PlinkSys.links (refreshEntry · brId) siPlink fuel s

/-- The list: its entries are allocated, with one inode each. -/
structure Lists (s : PlinkSys) (l : List (Nat × Nat)) : Prop where
  ring : s.links.Holds siPlink (l.map Prod.fst)
  plink : ∀ p ∈ l, s.plink p.1 = some p.2

/-- What `append_plink` and the setters of an inode keep up: no inode is listed twice, and its hidden
inodes are within its range. -/
structure Proper (s : PlinkSys) (l : List (Nat × Nat)) : Prop where
  lists : s.Lists l
  once : (l.map Prod.snd).Nodup
  within : ∀ p ∈ l, (s.ii p.2).Within

end PlinkSys

/-- A slot that holds a hidden inode of another branch. -/
def Iinfo.HoldsOther (ii : Iinfo) (brId b : Int) : Prop := ∃ h, ii.hinode b = some h ∧ h.id ≠ brId

/-- The condition on an inode: its only hidden inode is of the branch, or both ends of its range are
hidden inodes of other branches and only one is of this. -/
def Iinfo.Tidy (ii : Iinfo) (brId : Int) : Prop :=
  0 ≤ ii.bstart →
    (∃ b h, ii.hinode b = some h ∧ h.id = brId ∧ ∀ b', (ii.hinode b').isSome → b' = b) ∨
    (ii.HoldsOther brId ii.bstart ∧ ii.HoldsOther brId ii.bend ∧
      ∀ b h b' h', ii.hinode b = some h → h.id = brId → ii.hinode b' = some h' → h'.id = brId → b = b')

namespace PlinkSys

/-- What the deletion of a branch should leave: no listed inode has a hidden inode of the branch, the
inodes without any were taken off the list and released once, the others are listed as before, and
their ranges end at hidden inodes. -/
structure Cleaned (brId : Int) (l l' : List (Nat × Nat)) (s s' : PlinkSys) : Prop where
  lists : s'.Lists l'
  gone : ∀ p ∈ l', ∀ b h, (s'.ii p.2).hinode b = some h → h.id ≠ brId
  sublist : l'.Sublist l
  removed : ∀ p ∈ l, p ∈ l' ↔ ∃ b, ((s'.ii p.2).hinode b).isSome
  released : ∀ p ∈ l, s'.iCount p.2 = if p ∈ l' then s.iCount p.2 else s.iCount p.2 - 1
  ends : ∀ p ∈ l', ((s'.ii p.2).hinode (s'.ii p.2).bstart).isSome ∧
    ((s'.ii p.2).hinode (s'.ii p.2).bend).isSome

end PlinkSys

-- ---------------------------------------------------------------------------
-- One inode
-- ---------------------------------------------------------------------------

namespace Iinfo

/-- The inode after the loop has looked at it. -/
def dropId (ii : Iinfo) (brId : Int) : Iinfo :=
  if 0 ≤ ii.bstart then
    match ii.findId brId with
    | none => ii
    | some b => { ii with hinode := Function.update ii.hinode b none }
  else ii

/-- Does the inode stay on the list? -/
def stays (ii : Iinfo) (brId : Int) : Bool :=
  decide (0 ≤ ii.bstart) && ((ii.findId brId).isNone || (ii.dropId brId).anyHinode)

/-- What should hold of an inode behind the loop. -/
structure Clean (ii : Iinfo) (brId : Int) : Prop where
  gone : ii.stays brId → ∀ b h, (ii.dropId brId).hinode b = some h → h.id ≠ brId
  removed : ii.stays brId ↔ ∃ b, ((ii.dropId brId).hinode b).isSome
  ends : ii.stays brId → ((ii.dropId brId).hinode ii.bstart).isSome ∧
    ((ii.dropId brId).hinode ii.bend).isSome

variable {ii : Iinfo} {brId b : Int}

theorem anyHinode_iff (h : ii.Within) : ii.anyHinode ↔ ∃ b, (ii.hinode b).isSome := by
  simp only [anyHinode, List.any_eq_true, mem_bindexes]
  constructor
  case mp =>
    rintro ⟨b, _, hb⟩
    exact ⟨b, hb⟩
  case mpr =>
    rintro ⟨b, hb⟩
    exact ⟨b, (h b hb).2, hb⟩

theorem findId_eq_none (h : ii.Within) :
    ii.findId brId = none ↔ ∀ b hi, ii.hinode b = some hi → hi.id ≠ brId := by
  rw [findId, find?_bindexes_eq_none]
  constructor
  case mp =>
    intro hnone b hi hb heq
    have hrange := h b (by rw [hb]; rfl)
    have hno := hnone b hrange.2.1 hrange.2.2
    simp [hb, heq] at hno
  case mpr =>
    intro hno b _ _
    rcases hb : ii.hinode b with _ | hi
    case none => rfl
    case some => simpa using hno b hi hb

theorem findId_eq_some (h : ii.findId brId = some b) : ∃ hi, ii.hinode b = some hi ∧ hi.id = brId := by
  have hfound := (find?_bindexes.mp h).1
  rcases hb : ii.hinode b with _ | hi
  case none => simp [hb] at hfound
  case some => exact ⟨hi, rfl, by simpa [hb] using hfound⟩

/-- The range is not touched. -/
theorem dropId_bstart (ii : Iinfo) (brId : Int) : (ii.dropId brId).bstart = ii.bstart := by
  rw [dropId]
  split
  case isTrue => cases ii.findId brId <;> rfl
  case isFalse => rfl

theorem dropId_bend (ii : Iinfo) (brId : Int) : (ii.dropId brId).bend = ii.bend := by
  rw [dropId]
  split
  case isTrue => cases ii.findId brId <;> rfl
  case isFalse => rfl

/-- An inode without hidden inodes leaves the list, and nothing is wrong with it. -/
theorem clean_of_none (hstart : ii.bstart < 0) (h : ii.Within) : ii.Clean brId := by
  have hdrop : ii.dropId brId = ii := if_neg (by omega)
  have hstays : ii.stays brId = false := by
    rw [stays, decide_eq_false (by omega), Bool.false_and]
  rw [Bool.eq_false_iff] at hstays
  refine ⟨fun hs => absurd hs hstays, iff_of_false hstays ?_, fun hs => absurd hs hstays⟩
  rw [hdrop]
  rintro ⟨b, hb⟩
  have hrange := h b hb
  omega

/-- No hidden inode is of the branch: the inode stays as it is. -/
theorem clean_iff_of_findId_none (hstart : 0 ≤ ii.bstart) (h : ii.Within)
    (hfind : ii.findId brId = none) : ii.Clean brId ↔ ii.Tidy brId := by
  have hdrop : ii.dropId brId = ii := by
    rw [dropId, if_pos hstart, hfind]
  have hstays : ii.stays brId = true := by
    rw [stays, hfind, decide_eq_true hstart]
    rfl
  have hother := (findId_eq_none h).mp hfind
  constructor
  case mp =>
    intro hclean _
    have hends := hclean.ends hstays
    rw [hdrop] at hends
    obtain ⟨hi, hlo⟩ := Option.isSome_iff_exists.mp hends.1
    obtain ⟨hi', hhi⟩ := Option.isSome_iff_exists.mp hends.2
    refine Or.inr ⟨⟨hi, hlo, hother _ _ hlo⟩, ⟨hi', hhi, hother _ _ hhi⟩, ?_⟩
    intro b h₁ b' h₂ hb hid _ _
    exact absurd hid (hother b h₁ hb)
  case mpr =>
    intro htidy
    rcases htidy hstart with ⟨b, hi, hb, hid, _⟩ | ⟨⟨hi, hlo, _⟩, ⟨hi', hhi, _⟩, _⟩
    case inl => exact absurd hid (hother b hi hb)
    case inr =>
      refine ⟨?_, ?_, ?_⟩
      · intro _ b h₁ hb
        rw [hdrop] at hb
        exact hother b h₁ hb
      · rw [hdrop]
        exact iff_of_true hstays ⟨ii.bstart, by rw [hlo]; rfl⟩
      · intro _
        rw [hdrop, hlo, hhi]
        exact ⟨rfl, rfl⟩

/-- A hidden inode is of the branch: the first one is dropped. -/
theorem clean_iff_of_findId_some (hstart : 0 ≤ ii.bstart) (h : ii.Within)
    (hfind : ii.findId brId = some b) : ii.Clean brId ↔ ii.Tidy brId := by
  obtain ⟨hi, hb, hid⟩ := findId_eq_some hfind
  have hdrop : ii.dropId brId = { ii with hinode := Function.update ii.hinode b none } := by
    rw [dropId, if_pos hstart, hfind]
  have hgone : (ii.dropId brId).hinode b = none := by
    rw [hdrop]
    exact Function.update_self ..
  have hkept : ∀ c, c ≠ b → (ii.dropId brId).hinode c = ii.hinode c := by
    intro c hc
    rw [hdrop]
    exact Function.update_of_ne hc ..
  have hne : ∀ c, ((ii.dropId brId).hinode c).isSome → c ≠ b := by
    rintro c hc rfl
    rw [hgone] at hc
    cases hc
  have hwithin : (ii.dropId brId).Within := by
    intro c hc
    have hc' := hc
    rw [hkept c (hne c hc)] at hc'
    rw [hdrop]
    exact h c hc'
  have hstays : ii.stays brId ↔ ∃ c, ((ii.dropId brId).hinode c).isSome := by
    rw [← anyHinode_iff hwithin, stays, hfind, decide_eq_true hstart]
    rfl
  constructor
  case mp =>
    intro hclean _
    by_cases hs : ii.stays brId
    case pos =>
      have hother : ∀ c, ((ii.dropId brId).hinode c).isSome → ii.HoldsOther brId c := by
        intro c hc
        obtain ⟨h₁, hc₁⟩ := Option.isSome_iff_exists.mp hc
        refine ⟨h₁, ?_, hclean.gone hs c h₁ hc₁⟩
        rwa [hkept c (hne c hc)] at hc₁
      have honly : ∀ c h₁, ii.hinode c = some h₁ → h₁.id = brId → c = b := by
        intro c h₁ hc hcid
        by_contra hcb
        rw [← hkept c hcb] at hc
        exact hclean.gone hs c h₁ hc hcid
      refine Or.inr ⟨hother _ (hclean.ends hs).1, hother _ (hclean.ends hs).2, ?_⟩
      intro c h₁ c' h₂ hc hcid hc' hcid'
      rw [honly c h₁ hc hcid, honly c' h₂ hc' hcid']
    case neg =>
      refine Or.inl ⟨b, hi, hb, hid, ?_⟩
      intro c hc
      by_contra hcb
      rw [← hkept c hcb] at hc
      exact hs (hstays.mpr ⟨c, hc⟩)
  case mpr =>
    intro htidy
    rcases htidy hstart with ⟨c, _, _, _, honly⟩ | ⟨⟨h₁, hlo, hlo'⟩, ⟨h₂, hhi, hhi'⟩, honly⟩
    case inl =>
      have hs : ¬ ii.stays brId := by
        rw [hstays]
        rintro ⟨d, hd⟩
        have hdb := hne d hd
        rw [hkept d hdb] at hd
        exact hdb ((honly d hd).trans (honly b (by rw [hb]; rfl)).symm)
      exact ⟨fun h => absurd h hs, hstays, fun h => absurd h hs⟩
    case inr =>
      have hend : ∀ c h', ii.hinode c = some h' → h'.id ≠ brId →
          ((ii.dropId brId).hinode c).isSome := by
        intro c h' hc hc'
        have hcb : c ≠ b := by
          rintro rfl
          rw [hb] at hc
          exact hc' (Option.some.inj hc ▸ hid)
        rw [hkept c hcb, hc]
        rfl
      refine ⟨?_, hstays, fun _ => ⟨hend _ h₁ hlo hlo', hend _ h₂ hhi hhi'⟩⟩
      intro _ c h' hc hcid
      have hcb := hne c (by rw [hc]; rfl)
      rw [hkept c hcb] at hc
      exact hcb (honly c h' b hi hc hcid hb hid)

theorem clean_iff_tidy (h : ii.Within) : ii.Clean brId ↔ ii.Tidy brId := by
  rcases Int.lt_or_le ii.bstart 0 with hneg | hstart
  case inl =>
    refine iff_of_true (clean_of_none hneg h) ?_
    intro hstart
    omega
  case inr =>
    rcases hfind : ii.findId brId with _ | b
    case none => exact clean_iff_of_findId_none hstart h hfind
    case some => exact clean_iff_of_findId_some hstart h hfind

end Iinfo

-- ---------------------------------------------------------------------------
-- One entry
-- ---------------------------------------------------------------------------

namespace PlinkSys

variable {s : PlinkSys} {brId : Int} {x i : Nat}

/-- What the loop does to an entry that stays. -/
structure Kept (brId : Int) (x i : Nat) (s s' : PlinkSys) : Prop where
  links : s'.links = s.links
  plink : s'.plink = s.plink
  ii : s'.ii = Function.update s.ii i ((s.ii i).dropId brId)
  iCount : s'.iCount = s.iCount

/-- What the loop does to an entry that is put. -/
structure Put (brId : Int) (x i : Nat) (s s' : PlinkSys) : Prop where
  links : s'.links = s.links.del x
  plink : s'.plink = Function.update s.plink x none
  ii : s'.ii = Function.update s.ii i ((s.ii i).dropId brId)
  iCount : s'.iCount = Function.update s.iCount i (s.iCount i - 1)

/-- The reference that the loop takes for itself is given back. -/
theorem Kept.of_igrab {t : PlinkSys} (h : Kept brId x i (s.igrab i) t) :
    Kept brId x i s (t.iput i) := by
  refine ⟨h.links, h.plink, h.ii, ?_⟩
  have hcount : t.iCount = Function.update s.iCount i (s.iCount i + 1) := h.iCount
  show Function.update t.iCount i (t.iCount i - 1) = _
  rw [hcount, Function.update_idem, Function.update_self, Int.add_sub_cancel,
    Function.update_eq_self]

theorem Put.of_igrab {t : PlinkSys} (h : Put brId x i (s.igrab i) t) : Put brId x i s (t.iput i) := by
  refine ⟨h.links, h.plink, h.ii, ?_⟩
  have hcount : t.iCount = Function.update (s.igrab i).iCount i ((s.igrab i).iCount i - 1) := h.iCount
  have hself : t.iCount i = s.iCount i := by
    rw [hcount, Function.update_self]
    show Function.update s.iCount i (s.iCount i + 1) i - 1 = _
    rw [Function.update_self, Int.add_sub_cancel]
  show Function.update t.iCount i (t.iCount i - 1) = _
  rw [hself, hcount, Function.update_idem]
  exact Function.update_idem ..

/-- An entry is taken off and freed, and its inode has one reference less. -/
theorem doPutPlink_put {t : PlinkSys} (h : s.plink x = some i) (hlinks : t.links = s.links)
    (hplink : t.plink = s.plink) (hii : t.ii = Function.update s.ii i ((s.ii i).dropId brId))
    (hcount : t.iCount = s.iCount) : ∃ t', t.doPutPlink x true = some t' ∧ Put brId x i s t' := by
  rw [← hplink] at h
  refine ⟨{ t.iput i with
    links := t.links.del x
    plink := Function.update t.plink x none }, ?_, ?_, ?_, hii, ?_⟩
  · simp only [doPutPlink, h, if_true]
  · exact congrArg (fun links => Ring.Links.del links x) hlinks
  · exact congrArg (fun plink => Function.update plink x none) hplink
  · exact congrArg (fun cnt => Function.update cnt i (cnt i - 1)) hcount

/-- The hidden inode of the branch is dropped, and the entry is put if the inode does not stay. -/
theorem refreshInode_spec (brId : Int) (h : s.plink x = some i) :
    ∃ t, s.refreshInode brId x i = some t ∧
      ((s.ii i).stays brId = true ∧ Kept brId x i s t ∨
        (s.ii i).stays brId = false ∧ Put brId x i s t) := by
  have hself : Function.update s.ii i (s.ii i) = s.ii := Function.update_eq_self i s.ii
  by_cases hstart : 0 ≤ (s.ii i).bstart
  case neg =>
    have hdrop : (s.ii i).dropId brId = s.ii i := if_neg hstart
    have hstays : (s.ii i).stays brId = false := by
      rw [Iinfo.stays, decide_eq_false hstart, Bool.false_and]
    obtain ⟨t, ht, hput⟩ := doPutPlink_put h rfl rfl (hdrop.symm ▸ hself.symm) rfl
    rw [refreshInode, if_neg hstart]
    exact ⟨t, ht, Or.inr ⟨hstays, hput⟩⟩
  case pos =>
    rw [refreshInode, if_pos hstart]
    rcases hfind : (s.ii i).findId brId with _ | b
    case none =>
      have hdrop : (s.ii i).dropId brId = s.ii i := by
        rw [Iinfo.dropId, if_pos hstart, hfind]
      have hstays : (s.ii i).stays brId = true := by
        rw [Iinfo.stays, hfind, decide_eq_true hstart]
        rfl
      exact ⟨s, rfl, Or.inl ⟨hstays, rfl, rfl, hdrop.symm ▸ hself.symm, rfl⟩⟩
    case some =>
      have hii : (s.clearHIptr i b).ii = Function.update s.ii i ((s.ii i).dropId brId) := by
        rw [Iinfo.dropId, if_pos hstart, hfind]
        rfl
      have hany : ((s.clearHIptr i b).ii i).anyHinode = (s.ii i).stays brId := by
        rw [hii, Function.update_self, Iinfo.stays, hfind, decide_eq_true hstart]
        rfl
      dsimp only
      rw [hany]
      cases (s.ii i).stays brId with
      | true => exact ⟨_, rfl, Or.inl ⟨rfl, rfl, rfl, hii, rfl⟩⟩
      | false =>
        obtain ⟨t, ht, hput⟩ := doPutPlink_put (t := s.clearHIptr i b) h rfl rfl hii rfl
        exact ⟨t, ht, Or.inr ⟨rfl, hput⟩⟩

theorem refreshEntry_spec (brId : Int) (h : s.plink x = some i) :
    ∃ s', s.refreshEntry brId x = some s' ∧
      ((s.ii i).stays brId = true ∧ Kept brId x i s s' ∨
        (s.ii i).stays brId = false ∧ Put brId x i s s') := by
  have hgrab : (s.igrab i).plink x = some i := h
  obtain ⟨t, ht, hspec⟩ := refreshInode_spec brId hgrab
  refine ⟨t.iput i, by simp only [refreshEntry, h, ht], ?_⟩
  exact hspec.imp (And.imp_right Kept.of_igrab) (And.imp_right Put.of_igrab)

-- ---------------------------------------------------------------------------
-- The list
-- ---------------------------------------------------------------------------

/-- Does the inode of an entry stay on the list? -/
def staysOn (s : PlinkSys) (brId : Int) (p : Nat × Nat) : Bool := (s.ii p.2).stays brId

/-- What holds in the middle of the walk: `done` was looked at, `todo` is to come. -/
structure Walking (brId : Int) (s : PlinkSys) (done todo : List (Nat × Nat)) (t : PlinkSys) : Prop where
  lists : t.Lists (done.filter (s.staysOn brId) ++ todo)
  dropped : ∀ p ∈ done, t.ii p.2 = (s.ii p.2).dropId brId
  same : ∀ p ∈ todo, t.ii p.2 = s.ii p.2
  released : ∀ p ∈ done,
    t.iCount p.2 = if s.staysOn brId p then s.iCount p.2 else s.iCount p.2 - 1
  held : ∀ p ∈ todo, t.iCount p.2 = s.iCount p.2

variable {t t' : PlinkSys} {done todo : List (Nat × Nat)} {p : Nat × Nat}

/-- What the walk says about the inodes, after any of the two ends of the body. -/
private theorem Walking.inodes (h : Walking brId s done (p :: todo) t)
    (hnodup : ((done ++ p :: todo).map Prod.snd).Nodup)
    (hii : t'.ii = Function.update t.ii p.2 ((t.ii p.2).dropId brId))
    (hother : ∀ i, i ≠ p.2 → t'.iCount i = t.iCount i)
    (hself : t'.iCount p.2 = if s.staysOn brId p then t.iCount p.2 else t.iCount p.2 - 1)
    (hlists : t'.Lists ((done ++ [p]).filter (s.staysOn brId) ++ todo)) :
    Walking brId s (done ++ [p]) todo t' := by
  rw [List.map_append, List.map_cons, List.nodup_middle, List.nodup_cons, ← List.map_append] at hnodup
  have hne : ∀ q ∈ done ++ todo, q.2 ≠ p.2 := by
    intro q hq heq
    exact hnodup.1 (List.mem_map.mpr ⟨q, hq, heq⟩)
  have hdone : ∀ q ∈ done, q.2 ≠ p.2 := fun q hq => hne q (List.mem_append_left todo hq)
  have htodo : ∀ q ∈ todo, q.2 ≠ p.2 := fun q hq => hne q (List.mem_append_right done hq)
  have hp : t.ii p.2 = s.ii p.2 := h.same p List.mem_cons_self
  refine ⟨hlists, ?_, ?_, ?_, ?_⟩
  · intro q hq
    rw [hii]
    rcases List.mem_append.mp hq with hq | hq
    case inl =>
      rw [Function.update_of_ne (hdone q hq)]
      exact h.dropped q hq
    case inr =>
      obtain rfl := List.mem_singleton.mp hq
      rw [Function.update_self, hp]
  · intro q hq
    rw [hii, Function.update_of_ne (htodo q hq)]
    exact h.same q (List.mem_cons_of_mem p hq)
  · intro q hq
    rcases List.mem_append.mp hq with hq | hq
    case inl =>
      rw [hother q.2 (hdone q hq)]
      exact h.released q hq
    case inr =>
      obtain rfl := List.mem_singleton.mp hq
      rw [hself, h.held q List.mem_cons_self]
  · intro q hq
    rw [hother q.2 (htodo q hq)]
    exact h.held q (List.mem_cons_of_mem p hq)

theorem Walking.step (h : Walking brId s done (p :: todo) t)
    (hnodup : ((done ++ p :: todo).map Prod.snd).Nodup) :
    ∃ t', t.refreshEntry brId p.1 = some t' ∧ Walking brId s (done ++ [p]) todo t' := by
  have hplink : t.plink p.1 = some p.2 := h.lists.plink p (by simp)
  have hp := h.same p List.mem_cons_self
  obtain ⟨t', hrun, hspec⟩ := refreshEntry_spec brId hplink
  refine ⟨t', hrun, ?_⟩
  have hstaysOn : (t.ii p.2).stays brId = s.staysOn brId p := by
    rw [hp]
    rfl
  rw [hstaysOn] at hspec
  rcases hspec with ⟨hstays, hkept⟩ | ⟨hstays, hput⟩
  case inl =>
    have hfilter : (done ++ [p]).filter (s.staysOn brId) ++ todo =
        done.filter (s.staysOn brId) ++ p :: todo := by
      rw [List.filter_append, List.filter_cons_of_pos hstays, List.append_assoc]
      rfl
    have hcount := congrFun hkept.iCount
    refine h.inodes hnodup hkept.ii (fun i _ => hcount i) ?_ ?_
    · rw [if_pos hstays, hcount]
    · rw [hfilter]
      refine ⟨hkept.links ▸ h.lists.ring, ?_⟩
      intro q hq
      rw [hkept.plink]
      exact h.lists.plink q hq
  case inr =>
    have hstays' := Bool.eq_false_iff.mp hstays
    have hfilter : (done ++ [p]).filter (s.staysOn brId) ++ todo =
        done.filter (s.staysOn brId) ++ todo := by
      rw [List.filter_append, List.filter_cons_of_neg hstays', List.filter_nil, List.append_nil]
    have hcount := congrFun hput.iCount
    refine h.inodes hnodup hput.ii ?_ ?_ ?_
    · intro i hi
      rw [hcount, Function.update_of_ne hi]
    · rw [if_neg hstays', hcount, Function.update_self]
    · rw [hfilter]
      have hring := h.lists.ring
      rw [List.map_append, List.map_cons] at hring
      constructor
      case ring =>
        rw [hput.links, List.map_append]
        exact hring.del
      case plink =>
        intro q hq
        have hentries := (List.nodup_cons.mp hring.nodup).2
        rw [List.nodup_middle, List.nodup_cons, ← List.map_append] at hentries
        have hne : q.1 ≠ p.1 := by
          intro heq
          exact hentries.1 (List.mem_map.mpr ⟨q, hq, heq⟩)
        rw [hput.plink, Function.update_of_ne hne]
        apply h.lists.plink q
        rw [List.mem_append, List.mem_cons]
        exact (List.mem_append.mp hq).imp_right Or.inr

/-- The walk as its rule sees it: the entries that were kept, and those to come. -/
private def Visited (brId : Int) (s : PlinkSys) (l : List (Nat × Nat)) (ys rest : List Nat)
    (t : PlinkSys) : Prop :=
  ∃ done todo, l = done ++ todo ∧ ys = (done.filter (s.staysOn brId)).map Prod.fst ∧
    rest = todo.map Prod.fst ∧ Walking brId s done todo t

/-- The walk ends with the inodes that stay, for any fuel that is enough for the list. -/
theorem halfRefreshPlink_walks {l : List (Nat × Nat)} {fuel : Nat} (brId : Int) (h : s.Proper l)
    (hfuel : l.length ≤ fuel) :
    ∃ s', s.halfRefreshPlink fuel brId = some s' ∧ Walking brId s l [] s' := by
  have hinit : Visited brId s l [] (l.map Prod.fst) s := by
    refine ⟨[], l, rfl, rfl, rfl, h.lists, ?_, fun _ _ => rfl, ?_, fun _ _ => rfl⟩
    all_goals
      intro p hp
      cases hp
  have hring : ∀ ys rest t, Visited brId s l ys rest t → t.links.Holds siPlink (ys ++ rest) := by
    rintro ys rest t ⟨done, todo, _, rfl, rfl, hwalk⟩
    rw [← List.map_append]
    exact hwalk.lists.ring
  have hbody : ∀ ys x rest t, Visited brId s l ys (x :: rest) t →
      ∃ ys' t', t.refreshEntry brId x = some t' ∧ Visited brId s l ys' rest t' := by
    rintro ys x rest t ⟨done, _ | ⟨p, todo⟩, hl, _, hrest, hwalk⟩
    case nil => cases hrest
    case cons =>
      obtain ⟨rfl, rfl⟩ := List.cons.inj hrest
      have hnodup := h.once
      rw [hl] at hnodup
      obtain ⟨t', hrun, hwalk'⟩ := hwalk.step hnodup
      refine ⟨_, t', hrun, done ++ [p], todo, ?_, rfl, rfl, hwalk'⟩
      rw [hl, List.append_assoc]
      rfl
  have hlen : (l.map Prod.fst).length ≤ fuel := by
    rw [List.length_map]
    exact hfuel
  obtain ⟨ys, s', hrun, done, todo, hl, _, htodo, hwalk⟩ := Ring.forEachSafe_rule hring hbody hlen hinit
  obtain rfl := List.map_eq_nil_iff.mp htodo.symm
  rw [List.append_nil] at hl
  subst hl
  exact ⟨s', hrun, hwalk⟩

/-- The links and the entries say what the list is. -/
theorem Lists.eq {l l' : List (Nat × Nat)} (h : s.Lists l) (h' : s.Lists l') : l = l' := by
  have hpairs : ∀ l, s.Lists l → (l.map Prod.fst).map (fun x => (x, (s.plink x).getD 0)) = l := by
    intro l hl
    rw [List.map_map]
    refine (List.map_congr_left ?_).trans (List.map_id l)
    intro p hp
    show (p.1, (s.plink p.1).getD 0) = p
    rw [hl.plink p hp]
    rfl
  rw [← hpairs l h, ← hpairs l' h', h.ring.eq h'.ring]

/-- Behind the walk the list is cleaned just when every inode is clean. -/
theorem Walking.cleaned_iff {l : List (Nat × Nat)} {s' : PlinkSys} (hwalk : Walking brId s l [] s') :
    (∃ l', Cleaned brId l l' s s') ↔ ∀ p ∈ l, (s.ii p.2).Clean brId := by
  have hlists := hwalk.lists
  rw [List.append_nil] at hlists
  have hmem : ∀ p ∈ l, p ∈ l.filter (s.staysOn brId) ↔ (s.ii p.2).stays brId := by
    intro p hp
    rw [List.mem_filter]
    exact and_iff_right hp
  constructor
  case mp =>
    rintro ⟨l', hcleaned⟩ p hp
    obtain rfl := hcleaned.lists.eq hlists
    have hii := hwalk.dropped p hp
    refine ⟨?_, ?_, ?_⟩
    · intro hstays
      rw [← hii]
      exact hcleaned.gone p ((hmem p hp).mpr hstays)
    · rw [← hmem p hp, ← hii]
      exact hcleaned.removed p hp
    · intro hstays
      have hends := hcleaned.ends p ((hmem p hp).mpr hstays)
      rwa [hii, Iinfo.dropId_bstart, Iinfo.dropId_bend] at hends
  case mpr =>
    intro hclean
    refine ⟨l.filter (s.staysOn brId), hlists, ?_, List.filter_sublist, ?_, ?_, ?_⟩
    · intro p hp
      have hpl := List.mem_of_mem_filter hp
      rw [hwalk.dropped p hpl]
      exact (hclean p hpl).gone ((hmem p hpl).mp hp)
    · intro p hp
      rw [hmem p hp, hwalk.dropped p hp]
      exact (hclean p hp).removed
    · intro p hp
      have hreleased := hwalk.released p hp
      simp only [hmem p hp]
      exact hreleased
    · intro p hp
      have hpl := List.mem_of_mem_filter hp
      rw [hwalk.dropped p hpl, Iinfo.dropId_bstart, Iinfo.dropId_bend]
      exact (hclean p hpl).ends ((hmem p hpl).mp hp)

/-- Deleting a branch leaves a clean list of pseudo-linked inodes just when every listed inode either
has no other hidden inode, or has hidden inodes of other branches at both ends of its range and not
more than one of this. -/
theorem halfRefreshPlink_cleaned_iff {s : PlinkSys} {l : List (Nat × Nat)} {fuel : Nat} (brId : Int)
    (h : s.Proper l) (hfuel : l.length ≤ fuel) :
    (∃ s' l', s.halfRefreshPlink fuel brId = some s' ∧ Cleaned brId l l' s s') ↔
      ∀ p ∈ l, (s.ii p.2).Tidy brId := by
  obtain ⟨s', hrun, hwalk⟩ := halfRefreshPlink_walks brId h hfuel
  have hclean : (∀ p ∈ l, (s.ii p.2).Clean brId) ↔ ∀ p ∈ l, (s.ii p.2).Tidy brId :=
    forall₂_congr fun p hp => Iinfo.clean_iff_tidy (h.within p hp)
  rw [← hclean, ← hwalk.cleaned_iff]
  constructor
  case mp =>
    rintro ⟨s₁, l', hrun₁, hcleaned⟩
    obtain rfl := Option.some.inj (hrun.symm.trans hrun₁)
    exact ⟨l', hcleaned⟩
  case mpr =>
    rintro ⟨l', hcleaned⟩
    exact ⟨s', l', hrun, hcleaned⟩

-- ---------------------------------------------------------------------------
-- A file on three branches
-- ---------------------------------------------------------------------------

/-- A file with a hidden inode on each of three branches, of the ids 3, 4 and 5. -/
def onThree : Iinfo where
  bstart := 0
  bend := 2
  hinode := fun b =>
    if b = 0 then some ⟨⟨0, 10⟩, 3⟩
    else if b = 1 then some ⟨⟨1, 20⟩, 4⟩
    else if b = 2 then some ⟨⟨2, 30⟩, 5⟩
    else none
  generation := 1

/-- The list of one entry, at address 1, for the inode 7. -/
def oneEntry (ii : Iinfo) : PlinkSys where
  links := ⟨fun a => if a = 0 then 1 else 0, fun a => if a = 0 then 1 else 0⟩
  plink := fun a => if a = 1 then some 7 else none
  ii := fun _ => ii
  iCount := fun _ => 2
  hiput := []

theorem oneEntry_proper {ii : Iinfo} (h : ii.Within) : (oneEntry ii).Proper [(1, 7)] where
  lists := by
    refine ⟨⟨by decide, ?_⟩, ?_⟩
    · simp [Ring.Links.Linked, oneEntry, siPlink]
    · intro p hp
      obtain rfl := List.mem_singleton.mp hp
      rfl
  once := List.nodup_singleton 7
  within p _ := h

theorem onThree_within : onThree.Within := by
  intro b hb
  simp only [onThree] at hb ⊢
  split at hb
  · omega
  · split at hb
    · omega
    · split at hb
      · omega
      · cases hb

/-- The branch in the middle is deleted. -/
theorem halfRefreshPlink_cleaned_middle :
    ∃ s' l', (oneEntry onThree).halfRefreshPlink 1 4 = some s' ∧
      Cleaned 4 [(1, 7)] l' (oneEntry onThree) s' := by
  refine (halfRefreshPlink_cleaned_iff 4 (oneEntry_proper onThree_within) (Nat.le_refl 1)).mpr ?_
  intro p _ _
  refine Or.inr ⟨⟨_, rfl, by decide⟩, ⟨_, rfl, by decide⟩, ?_⟩
  have honly : ∀ b h, onThree.hinode b = some h → h.id = 4 → b = 1 := by
    intro b h hb hid
    simp only [onThree] at hb
    split at hb
    · cases hb
      cases hid
    · split at hb
      · assumption
      · split at hb
        · cases hb
          cases hid
        · cases hb
  intro b h b' h' hb hid hb' hid'
  exact (honly b h hb hid).trans (honly b' h' hb' hid').symm

/-- The first branch is deleted, and the inode stays with an empty slot at its start. -/
theorem onThree_not_cleaned :
    ¬ ∃ s' l', (oneEntry onThree).halfRefreshPlink 1 3 = some s' ∧
      Cleaned 3 [(1, 7)] l' (oneEntry onThree) s' := by
  rintro ⟨s', l', hrun, hcleaned⟩
  obtain ⟨s₁, hrun₁, hwalk⟩ :=
    halfRefreshPlink_walks 3 (oneEntry_proper onThree_within) (Nat.le_refl 1)
  obtain rfl := Option.some.inj (hrun₁.symm.trans hrun)
  have hclean := hwalk.cleaned_iff.mp ⟨l', hcleaned⟩ (1, 7) List.mem_cons_self
  exact absurd (hclean.ends rfl).1 (by decide)

end PlinkSys

end Aufs
