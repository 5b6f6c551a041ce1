-- SUMMARY: The refresh of a cached dentry after the branch table changed (au_refresh_hdentry), and what its remapping loop leaves.
import Mathlib.Data.List.Basic
import Aufs.Agree
import Aufs.Lib.Remap

/-!
# Refreshing dentries

`au_refresh_hdentry` remaps the hidden dentries of a cached dentry to the places
that their hidden parents have in the refreshed parent, takes over the marks of
the earlier lookup where the new branches honour them, and then calls
`lkup_dentry` on the half-filled array.
-/

namespace Aufs

/-- `dget_parent` of a hidden dentry. Only which dentry it is matters. -/
def HDentry.dParent (h : HDentry) : HDentry := ⟨h.root, h.path.dropLast, none⟩

/-- The variables of the remapping loop. `put` lists the hidden dentries given to `hdput`,
last one first. -/
structure HdentryLoop where
  hdentry : Int → Option HDentry
  bindex : Int
  bwh : Int
  bdiropq : Int
  put : List HDentry

/-- One round of the loop. The marks are compared with those the dentry had before. -/
def hdentryBody (parent d : Dinfo) (st : HdentryLoop) : HdentryLoop :=
  match st.hdentry st.bindex with
  | none => { st with bindex := st.bindex + 1 }
  | some hd =>
    if (parent.hDptrI st.bindex).any hd.dParent.same then { st with bindex := st.bindex + 1 }
    else
      let newBindex := parent.findDbindex hd.dParent
      let bwh := if d.bwh = st.bindex then newBindex else st.bwh
      let bdiropq := if d.bdiropq = st.bindex then newBindex else st.bdiropq
      if newBindex < 0 then
        { hdentry := Function.update st.hdentry st.bindex none
          bindex := st.bindex + 1
          bwh
          bdiropq
          put := hd :: st.put }
      else
        { -- swap two hidden dentries, and loop again
          hdentry := Remap.swap st.hdentry st.bindex newBindex
          bindex := if (st.hdentry newBindex).isSome then st.bindex else st.bindex + 1
          bwh
          bdiropq
          put := st.put }

/-- `for (bindex = di_bstart; bindex <= bend; bindex++, p++)`. `none` when the fuel does not
reach the end. -/
def hdentryLoop (parent d : Dinfo) : Nat → HdentryLoop → Option HdentryLoop
  | 0, st => if st.bindex ≤ d.bend then none else some st
  | fuel + 1, st =>
    if st.bindex ≤ d.bend then hdentryLoop parent d fuel (hdentryBody parent d st) else some st

/-- Rounds that are always enough. -/
def hdentryFuel (parent d : Dinfo) : Nat := 2 * (max d.bend parent.bend + 1).toNat

/-- A mark is taken over if the branch of that index honours whiteouts. -/
def SuperBlock.keepMark (sb : SuperBlock) (b : Int) : Int :=
  if b ≠ -1 ∧ b ≤ sb.sbend ∧ sb.sbrIsWhable b then b else -1

/-- The two scans for the ends. An end stays where it was if nothing is filled. -/
def refreshEnds (parentBend : Int) (d : Dinfo) : Dinfo :=
  { d with
    bstart := ((bindexes 0 parentBend).find? fun b => (d.hdentry b).isSome).getD d.bstart
    bend := ((bindexes 0 parentBend).reverse.find? fun b => (d.hdentry b).isSome).getD d.bend }

/-- `au_refresh_hdentry` -/
def auRefreshHdentry (sb : SuperBlock) (name : Name) (parent d : Dinfo) (type : FType) (w : World) :
    Except Errno Nat × Dinfo × World :=
  match w.ask with
  | (e, w) =>
    match kzrealloc e.isNone (d.bend + 1) (sb.sbend + 1) d.hdentry with
    | none => (.error .ENOMEM, d, w)
    | some p =>
      match hdentryLoop parent d (hdentryFuel parent d) ⟨p, d.bstart, d.bwh, d.bdiropq, []⟩ with
      | none => (.error .oops, d, w)
      | some st =>
        let d := refreshEnds parent.bend
          { d with hdentry := st.hdentry, bwh := sb.keepMark st.bwh, bdiropq := sb.keepMark st.bdiropq }
        if type ≠ .dir ∧ d.bstart = parent.bstart then (.ok 0, d, w)
        else lkupDentry sb name parent d parent.bstart (some type) w

-- ---------------------------------------------------------------------------
-- The two dentries
-- ---------------------------------------------------------------------------

variable {sb : SuperBlock} {name : Name} {parent d : Dinfo} {w w' : World} {type : FType}

/-- A refreshed parent: hidden directories between its ends, no two of them the same, and
nothing outside. -/
structure Dinfo.IsParent (sb : SuperBlock) (d : Dinfo) : Prop extends d.IsDir where
  tail : d.dbtaildir = d.bend
  last : d.bend ≤ sb.sbend
  range : ∀ b h, d.hDptrI b = some h → b ≤ d.bend
  distinct : ∀ b c h k, d.hDptrI b = some h → d.hDptrI c = some k →
    h.root = k.root → h.path = k.path → b = c

/-- What a lookup leaves of a name that it finds, as long as the files stay: hidden dentries
of the type between the ends, both ends filled, and at most one mark. -/
structure Dinfo.Looked (w : World) (name : Name) (type : FType) (d : Dinfo) : Prop extends d.Ends where
  slots : ∀ b h, d.hdentry b = some h →
    ∃ p i, h.path = p ++ [name] ∧ h.inode = some i ∧ (w.fs h.root).node h.path = some i ∧ i.mode = type
  distinct : ∀ b c h k, d.hdentry b = some h → d.hdentry c = some k →
    h.root = k.root → h.path = k.path → b = c
  bwh : d.bwh = -1 ∨ d.bend < d.bwh
  bdiropq : d.bdiropq = -1 ∨ (d.bdiropq = d.bend ∧ d.bwh = -1)
  one : type ≠ .dir → d.bstart = d.bend ∧ d.bwh = -1 ∧ d.bdiropq = -1

theorem HDentry.same_iff {h k : HDentry} : h.same k = true ↔ h.root = k.root ∧ h.path = k.path := by
  simp [HDentry.same]

/-- The parent has its hidden dentry at the index at which it is found. -/
theorem findDbindex_eq_iff (hp : parent.IsParent sb) {h : HDentry} {b : Int} (hb : 0 ≤ b) :
    parent.findDbindex h = b ↔ (parent.hDptrI b).any h.same := by
  unfold Dinfo.findDbindex
  constructor
  · intro hf
    cases hfind : (bindexes parent.bstart parent.bend).find? fun b => (parent.hDptrI b).any h.same with
    | none =>
        rw [hfind, Option.getD_none] at hf
        omega
    | some c =>
        rw [hfind, Option.getD_some] at hf
        exact hf ▸ (find?_bindexes.mp hfind).1
  · intro hany
    obtain ⟨k, hk, hsame⟩ := (Option.any_eq_true _ _).mp hany
    have hfind : (bindexes parent.bstart parent.bend).find? (fun b => (parent.hDptrI b).any h.same) = some b := by
      refine find?_bindexes.mpr ⟨hany, (Dinfo.range_of_hDptrI hk).2, hp.range b k hk, fun c _ hlt => ?_⟩
      by_contra hc
      obtain ⟨k', hk', hsame'⟩ := (Option.any_eq_true _ _).mp (by simpa using hc)
      rw [HDentry.same_iff] at hsame hsame'
      have := hp.distinct c b k' k hk' hk (hsame'.1.symm.trans hsame.1) (hsame'.2.symm.trans hsame.2)
      omega
    rw [hfind, Option.getD_some]

theorem findDbindex_range (hp : parent.IsParent sb) (h : HDentry) :
    parent.findDbindex h = -1 ∨ (0 ≤ parent.findDbindex h ∧ parent.findDbindex h ≤ parent.bend) := by
  have hbstart := hp.bstart
  unfold Dinfo.findDbindex
  cases hfind : (bindexes parent.bstart parent.bend).find? fun b => (parent.hDptrI b).any h.same with
  | none => exact .inl rfl
  | some c =>
      obtain ⟨-, h1, h2, -⟩ := find?_bindexes.mp hfind
      exact .inr ⟨by simp only [Option.getD_some]; omega, h2⟩

-- ---------------------------------------------------------------------------
-- The loop is a remapping
-- ---------------------------------------------------------------------------

/-- Where the parent of a hidden dentry is now. -/
def hdentryTarget (parent : Dinfo) (h : HDentry) : Option Int :=
  if parent.findDbindex h.dParent < 0 then none else some (parent.findDbindex h.dParent)

theorem hdentryTarget_eq_some {h : HDentry} {k : Int} :
    hdentryTarget parent h = some k ↔ parent.findDbindex h.dParent = k ∧ 0 ≤ k := by
  unfold hdentryTarget
  split
  · simp only [reduceCtorEq, false_iff]
    omega
  · simp only [Option.some.injEq]
    omega

theorem hdentryTarget_eq_none {h : HDentry} :
    hdentryTarget parent h = none ↔ parent.findDbindex h.dParent < 0 := by
  simp [hdentryTarget]

theorem Dinfo.Looked.separated (hd : d.Looked w name type) (hp : parent.IsParent sb) :
    Remap.Separated (hdentryTarget parent) d.hdentry := by
  intro i j h k hi hj hhk
  rcases hhk with rfl | ⟨b, hb, hb'⟩
  · exact hd.distinct i j h h hi hj rfl rfl
  · obtain ⟨hb, h0⟩ := hdentryTarget_eq_some.mp hb
    obtain ⟨hb', -⟩ := hdentryTarget_eq_some.mp hb'
    obtain ⟨x, hx, hs⟩ := (Option.any_eq_true _ _).mp ((findDbindex_eq_iff hp h0).mp hb)
    obtain ⟨y, hy, hs'⟩ := (Option.any_eq_true _ _).mp ((findDbindex_eq_iff hp h0).mp hb')
    obtain rfl : x = y := Option.some.inj (hx.symm.trans hy)
    rw [HDentry.same_iff] at hs hs'
    obtain ⟨p, -, hpath, -⟩ := hd.slots i h hi
    obtain ⟨q, -, hpath', -⟩ := hd.slots j k hj
    refine hd.distinct i j h k hi hj (hs.1.trans hs'.1.symm) ?_
    have hpq : h.path.dropLast = k.path.dropLast := hs.2.trans hs'.2.symm
    rw [hpath, hpath', List.dropLast_concat, List.dropLast_concat] at hpq
    rw [hpath, hpath', hpq]

/-- The variables of the loop, read as a remapping under way. -/
def HdentryLoop.remap (st : HdentryLoop) : Remap.State HDentry := ⟨st.hdentry, st.bindex, st.put⟩

theorem hdentryBody_remap {st : HdentryLoop} (hp : parent.IsParent sb) (h0 : 0 ≤ st.bindex) :
    (hdentryBody parent d st).remap = Remap.step (hdentryTarget parent) st.remap := by
  simp only [HdentryLoop.remap, hdentryBody, Remap.step]
  cases hh : st.hdentry st.bindex with
  | none => rfl
  | some h =>
      dsimp only
      have hiff := findDbindex_eq_iff hp (h := h.dParent) h0
      by_cases hany : (parent.hDptrI st.bindex).any h.dParent.same
      · have ht : hdentryTarget parent h = some st.bindex := hdentryTarget_eq_some.mpr ⟨hiff.mpr hany, h0⟩
        simp only [hany, if_true, ht]
      · have hne : parent.findDbindex h.dParent ≠ st.bindex := fun he => hany (hiff.mp he)
        by_cases hneg : parent.findDbindex h.dParent < 0
        · simp [hany, hdentryTarget, hneg]
        · simp [hany, hdentryTarget, hneg, hne]
          rfl

/-- Where the opaque mark is after the loop: it follows its hidden dentry, unless another
one is moved to its place. -/
def movedOpq (parent d : Dinfo) (taken : Bool) : Int :=
  if taken then d.bdiropq
  else ((d.hdentry d.bdiropq).bind (hdentryTarget parent)).getD (-1)

/-- The cursor has passed the slots below it, and the marks are followed. -/
structure HdentryInv (parent d : Dinfo) (st : HdentryLoop) : Prop where
  remap : Remap.Inv (hdentryTarget parent) d.hdentry d.bend st.remap
  cursor : 0 ≤ st.bindex
  bwh : st.bwh = d.bwh
  before : st.bindex ≤ d.bdiropq → st.bdiropq = d.bdiropq ∧ (st.hdentry d.bdiropq = d.hdentry d.bdiropq ∨
    ∃ h, st.hdentry d.bdiropq = some h ∧ hdentryTarget parent h = some d.bdiropq)
  after : d.bdiropq < st.bindex → st.bdiropq = movedOpq parent d (st.hdentry d.bdiropq).isSome

theorem movedOpq_of_neg (hd : d.Looked w name type) (h : d.bdiropq = -1) (taken : Bool) :
    movedOpq parent d taken = -1 := by
  have hne : d.hdentry (-1) = none := by
    by_contra hne
    have := (hd.range _ (Option.isSome_iff_ne_none.mpr hne)).1
    have := hd.nonneg
    omega
  simp only [movedOpq, h, hne, Option.bind_none, Option.getD_none, ite_self]

theorem HdentryInv.init (hd : d.Looked w name type) (hp : parent.IsParent sb) :
    HdentryInv parent d ⟨d.hdentry, d.bstart, d.bwh, d.bdiropq, []⟩ where
  remap := Remap.Inv.init (hd.separated hp)
    (fun k hk => by
      by_contra hne
      have := (hd.range k (Option.isSome_iff_ne_none.mpr hne)).1
      simp only at hk
      omega)
    (fun k hk => by
      by_contra hne
      have := (hd.range k (Option.isSome_iff_ne_none.mpr hne)).2
      omega)
  cursor := hd.nonneg
  bwh := rfl
  before := fun _ => ⟨rfl, .inl rfl⟩
  after := fun hlt => by
    rcases hd.bdiropq with h | ⟨h, -⟩
    · rw [movedOpq_of_neg hd h, h]
    · have := (hd.range _ hd.last).1
      simp only at hlt
      omega

/-- When the cursor is at the opaque mark, every other hidden dentry is where it belongs. -/
theorem HdentryInv.exchange_false {st : HdentryLoop} (h : HdentryInv parent d st)
    (hlast : st.bindex = d.bend) {x y : HDentry} {k : Int} (hx : st.hdentry st.bindex = some x)
    (hk : hdentryTarget parent x = some k) (hne : k ≠ st.bindex) : st.hdentry k ≠ some y := by
  intro hy
  have hset : hdentryTarget parent y = some k := by
    by_cases hlt : k < st.bindex
    · exact h.remap.below k hlt y hy
    · exact h.remap.above k (by omega) y hy
  exact hne (h.remap.separated hy hx (.inr ⟨k, hset, hk⟩))

/-- The cursor is at the opaque mark or before it, or there is no mark. -/
theorem HdentryInv.mark_of_ne {st : HdentryLoop} (h : HdentryInv parent d st) (hd : d.Looked w name type)
    (hle : st.bindex ≤ d.bend) (hne : d.bdiropq ≠ st.bindex) :
    st.bindex < d.bdiropq ∨ (d.bdiropq = -1 ∧ st.bdiropq = -1) := by
  have hcur := h.cursor
  rcases hd.bdiropq with hn | ⟨hn, -⟩
  · refine .inr ⟨hn, ?_⟩
    rw [h.after (by omega), movedOpq_of_neg hd hn]
  · exact .inl (by omega)

/-- At the opaque mark the cursor finds the hidden dentry that was there, unless it is settled. -/
theorem HdentryInv.mark_eq {st : HdentryLoop} (h : HdentryInv parent d st)
    (ho : d.bdiropq = st.bindex) {x : HDentry} (hx : st.hdentry st.bindex = some x)
    (hne : hdentryTarget parent x ≠ some st.bindex) : d.hdentry d.bdiropq = some x := by
  rcases (h.before ho.ge).2 with hb | ⟨y, hy, ht⟩
  · rw [← hb, ho, hx]
  · rw [ho, hx] at hy
    obtain rfl := Option.some.inj hy
    exact absurd (ht.trans (congrArg some ho)) hne

/-- The cursor goes past a slot that is empty or settled. -/
theorem HdentryInv.pass {st : HdentryLoop} (h : HdentryInv parent d st)
    (hremap : Remap.Inv (hdentryTarget parent) d.hdentry d.bend
      (HdentryLoop.remap { st with bindex := st.bindex + 1 }))
    (hmark : d.bdiropq = st.bindex →
      st.bdiropq = movedOpq parent d (st.hdentry d.bdiropq).isSome) :
    HdentryInv parent d { st with bindex := st.bindex + 1 } where
  remap := hremap
  cursor := by
    have := h.cursor
    simp only
    omega
  bwh := h.bwh
  before := fun hb => h.before (by simp only at hb; omega)
  after := fun ha => by
    by_cases hlt : d.bdiropq < st.bindex
    · exact h.after hlt
    · exact hmark (by simp only at ha; omega)

/-- A hidden dentry without a target is dropped, and its mark with it. -/
theorem HdentryInv.drop {st : HdentryLoop} (h : HdentryInv parent d st) (hd : d.Looked w name type)
    (hle : st.bindex ≤ d.bend) {x : HDentry} (hx : st.hdentry st.bindex = some x) {k : Int}
    (hk : d.bdiropq = st.bindex → k = -1) (ht : hdentryTarget parent x = none)
    (hremap : Remap.Inv (hdentryTarget parent) d.hdentry d.bend
      ⟨Function.update st.hdentry st.bindex none, st.bindex + 1, x :: st.put⟩) :
    HdentryInv parent d ⟨Function.update st.hdentry st.bindex none, st.bindex + 1, st.bwh,
      if d.bdiropq = st.bindex then k else st.bdiropq, x :: st.put⟩ where
  remap := hremap
  cursor := by
    have := h.cursor
    simp only
    omega
  bwh := h.bwh
  before := by
    intro hb
    simp only at hb ⊢
    have hne : d.bdiropq ≠ st.bindex := by omega
    obtain ⟨h1, h2⟩ := h.before (by omega)
    rw [if_neg hne, Function.update_of_ne hne]
    exact ⟨h1, h2⟩
  after := by
    intro ha
    simp only at ha ⊢
    by_cases ho : d.bdiropq = st.bindex
    · have horig := h.mark_eq ho hx (by simp [ht])
      rw [if_pos ho, hk ho, movedOpq, horig, ho, Function.update_self]
      simp [ht]
    · rw [if_neg ho]
      rcases h.mark_of_ne hd hle ho with hlt | ⟨hn, hst⟩
      · omega
      · rw [hst, movedOpq_of_neg hd hn]

/-- A hidden dentry is swapped to its target, and its mark goes with it. -/
theorem HdentryInv.move {st : HdentryLoop} (h : HdentryInv parent d st) (hd : d.Looked w name type)
    (hle : st.bindex ≤ d.bend) {x : HDentry} (hx : st.hdentry st.bindex = some x) {k : Int}
    (ht : hdentryTarget parent x = some k) (hne : k ≠ st.bindex)
    (hremap : Remap.Inv (hdentryTarget parent) d.hdentry d.bend
      ⟨Remap.swap st.hdentry st.bindex k,
        if (st.hdentry k).isSome then st.bindex else st.bindex + 1, st.put⟩) :
    HdentryInv parent d ⟨Remap.swap st.hdentry st.bindex k,
      if (st.hdentry k).isSome then st.bindex else st.bindex + 1, st.bwh,
      if d.bdiropq = st.bindex then k else st.bdiropq, st.put⟩ := by
  have hcur := h.cursor
  -- the target of the last hidden dentry is empty, so the cursor goes on
  have hempty : d.bdiropq = st.bindex → st.hdentry k = none := by
    intro ho
    have hlast : st.bindex = d.bend := by
      rcases hd.bdiropq with hn | ⟨hn, -⟩ <;> omega
    cases hy : st.hdentry k with
    | none => rfl
    | some y => exact absurd hy (h.exchange_false hlast hx ht hne)
  refine ⟨hremap, ?_, h.bwh, ?_, ?_⟩
  · simp only
    split <;> omega
  · intro hb
    simp only at hb ⊢
    by_cases ho : d.bdiropq = st.bindex
    · exfalso
      simp only [hempty ho, Option.isSome_none, Bool.false_eq_true, if_false] at hb
      omega
    · have hlt : st.bindex < d.bdiropq := by
        rcases h.mark_of_ne hd hle ho with hlt | ⟨hn, -⟩
        · exact hlt
        · split at hb <;> omega
      obtain ⟨h1, h2⟩ := h.before hlt.le
      refine ⟨by rw [if_neg ho]; exact h1, ?_⟩
      rw [Remap.swap_apply, if_neg ho]
      split
      · rename_i hto
        exact .inr ⟨x, hx, by rw [ht, hto]⟩
      · exact h2
  · intro ha
    simp only at ha ⊢
    by_cases ho : d.bdiropq = st.bindex
    · have horig := h.mark_eq ho hx (by simpa [ht] using hne)
      rw [if_pos ho, movedOpq, horig, Remap.swap_apply, if_pos ho]
      simp [hempty ho, ht]
    · rw [if_neg ho]
      rcases h.mark_of_ne hd hle ho with hlt | ⟨hn, hst⟩
      · split at ha <;> omega
      · rw [hst, movedOpq_of_neg hd hn]

/-- One round keeps the invariant. The whiteout mark is above the cursor all the time. -/
theorem HdentryInv.body {st : HdentryLoop} (h : HdentryInv parent d st) (hd : d.Looked w name type)
    (hp : parent.IsParent sb) (hle : st.bindex ≤ d.bend) :
    HdentryInv parent d (hdentryBody parent d st) := by
  have hstep := h.remap.step hle
  rw [← hdentryBody_remap (d := d) hp h.cursor] at hstep
  have hcur := h.cursor
  have hwh : d.bwh ≠ st.bindex := by
    have := hd.bwh
    omega
  revert hstep
  unfold hdentryBody
  simp only [if_neg hwh]
  cases hx : st.hdentry st.bindex with
  | none =>
      intro hstep
      refine h.pass hstep fun ho => ?_
      -- the slot of the mark is not empty
      exfalso
      rcases (h.before ho.ge).2 with hb | ⟨y, hy, -⟩
      · rcases hd.bdiropq with hn | ⟨hn, -⟩
        · omega
        · rw [hn] at hb ho
          rw [ho, hx] at hb
          have := hd.last
          rw [ho, ← hb] at this
          simp at this
      · rw [ho, hx] at hy
        simp at hy
  | some x =>
      dsimp only
      have hiff := findDbindex_eq_iff hp (h := x.dParent) hcur
      split
      case isTrue hany =>
        intro hstep
        refine h.pass hstep fun ho => ?_
        simp [movedOpq, ho, hx, (h.before ho.ge).1]
      case isFalse hany =>
        have hne : parent.findDbindex x.dParent ≠ st.bindex := fun he => hany (hiff.mp he)
        split
        case isTrue hneg =>
          intro hstep
          refine h.drop hd hle hx (fun _ => ?_) (hdentryTarget_eq_none.mpr hneg) hstep
          exact (findDbindex_range hp x.dParent).resolve_right (by omega)
        case isFalse hneg =>
          intro hstep
          exact h.move hd hle hx (hdentryTarget_eq_some.mpr ⟨rfl, by omega⟩) hne hstep

/-- Is a hidden dentry of `d` moved to the index `j`? -/
def keeps (parent d : Dinfo) (j : Int) : Bool :=
  0 ≤ j && (bindexes d.bstart d.bend).any fun b =>
    (d.hdentry b).any fun h => parent.findDbindex h.dParent = j

/-- The dentry information after the loop and the two scans. -/
def remapped (sb : SuperBlock) (w : World) (name : Name) (parent d : Dinfo) : Dinfo :=
  refreshEnds parent.bend
    { d with
      hdentry := fun j => if keeps parent d j then (cellAt sb w parent name j).entry else none
      bwh := sb.keepMark d.bwh
      bdiropq := sb.keepMark (movedOpq parent d (keeps parent d d.bdiropq)) }

end Aufs
