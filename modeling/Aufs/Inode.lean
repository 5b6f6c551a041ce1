-- SUMMARY: The inode information of aufs and its remapping after the branch table changed (au_refresh_hinode).
import Mathlib.Order.Bounds.Basic
import Aufs.Dinfo
import Aufs.Lib.Remap

/-!
# Inodes

`struct aufs_iinfo` and `au_refresh_hinode`. A hidden inode remembers the id of
its branch (`hi_id`); after a change of the branch table the array is remapped
in place, the positive hidden dentries fill what is missing, and both ends are
searched again.
-/

namespace Aufs

/-- `struct aufs_hinode` with `hi_inode` set. -/
structure Hinode where
  inode : HiPtr
  id : Int
  deriving DecidableEq, Repr

/-- `struct aufs_iinfo`; a slot whose `hi_inode` is `NULL` is `none`. -/
structure Iinfo where
  bstart : Int
  bend : Int
  hinode : Int → Option Hinode
  generation : Int

/-- What `au_refresh_hinode` reads and writes of a `struct inode`. `attrFrom` is the
hidden inode from which `au_cpup_attr_all` copied the attributes last. -/
structure Inode where
  isDir : Bool
  version : Nat
  attrFrom : Option HiPtr
  ii : Iinfo

namespace Iinfo

/-- `au_h_iptr_i` -/
def hIptrI (ii : Iinfo) (bindex : Int) : Option HiPtr := (ii.hinode bindex).map Hinode.inode

/-- `au_h_iptr` -/
def hIptr (ii : Iinfo) : Option HiPtr := ii.hIptrI ii.bstart

/-- `set_h_iptr` for an inode that is there: the slot takes the id of its branch. The
inode number table and the inotify watch, which it also updates, are not in the array. -/
def setHIptr (sb : SuperBlock) (ii : Iinfo) (bindex : Int) (h : HiPtr) : Option Iinfo :=
  (sb.sbrId bindex).map fun id =>
    { ii with hinode := Function.update ii.hinode bindex (some ⟨h, id⟩) }

end Iinfo

/-- `au_cpup_attr_all`, which reads through `au_h_iptr`. -/
def auCpupAttrAll (i : Inode) : Option Inode :=
  i.ii.hIptr.map fun h => { i with attrFrom := some h }

-- ---------------------------------------------------------------------------
-- The remapping loop
-- ---------------------------------------------------------------------------

/-- The variables of the remapping loop. `put` lists the hidden inodes given to
`aufs_hiput`, last one first. -/
structure HinodeLoop where
  ii : Iinfo
  bindex : Int
  update : Nat
  put : List Hinode

/-- One round of the loop. -/
def hinodeBody (sb : SuperBlock) (st : HinodeLoop) : HinodeLoop :=
  match st.ii.hinode st.bindex with
  | none => { st with bindex := st.bindex + 1 }
  | some p =>
    if sb.findBrindex p.id = st.bindex then { st with bindex := st.bindex + 1 }
    else if sb.findBrindex p.id < 0 then
      { ii := { st.ii with hinode := Function.update st.ii.hinode st.bindex none }
        bindex := st.bindex + 1
        update := st.update + 1
        put := p :: st.put }
    else
      let newBindex := sb.findBrindex p.id
      { ii :=
          { st.ii with
            bstart := min st.ii.bstart newBindex
            bend := max st.ii.bend newBindex
            -- swap two hidden inodes, and loop again
            hinode := Remap.swap st.ii.hinode st.bindex newBindex }
        bindex := if (st.ii.hinode newBindex).isSome then st.bindex else st.bindex + 1
        update := st.update
        put := st.put }

/-- `for (bindex = ii_bstart; bindex <= ii_bend; bindex++, p++)`: `ii_bend` is read again
in every round. `none` when the fuel does not reach the end. -/
def hinodeLoop (sb : SuperBlock) : Nat → HinodeLoop → Option HinodeLoop
  | 0, st => if st.bindex ≤ st.ii.bend then none else some st
  | fuel + 1, st =>
    if st.bindex ≤ st.ii.bend then hinodeLoop sb fuel (hinodeBody sb st) else some st

/-- Rounds that are always enough: two for each slot of the array. -/
def hinodeFuel (sb : SuperBlock) (ii : Iinfo) : Nat := 2 * (max ii.bend sb.sbend + 1).toNat

-- ---------------------------------------------------------------------------
-- The slots of the dentry
-- ---------------------------------------------------------------------------

/-- The second loop: every positive hidden dentry whose slot is empty enters its inode. -/
def hinodeFromDentry (sb : SuperBlock) (d : Dinfo) :
    List Int → Iinfo → Nat → Except Errno Unit × Iinfo × Nat
  | [], ii, update => (.ok (), ii, update)
  | bindex :: rest, ii, update =>
    match (d.hDptrI bindex).bind HDentry.dInode with
    | none => hinodeFromDentry sb d rest ii update
    | some hd =>
      match (if ii.bstart ≤ bindex ∧ bindex ≤ ii.bend then ii.hIptrI bindex else none) with
      | some hi =>
        if hi = hd then hinodeFromDentry sb d rest ii update else (.error .ESTALE, ii, update)
      | none =>
        let ii := { ii with bstart := min ii.bstart bindex, bend := max ii.bend bindex }
        match ii.setHIptr sb bindex hd with
        | none => (.error .oops, ii, update)
        | some ii => hinodeFromDentry sb d rest ii (update + 1)

/-- The two scans for the ends. -/
def hinodeEnds (ii : Iinfo) : Iinfo :=
  let bend := ii.bend
  let bstart := ((bindexes 0 bend).find? fun b => (ii.hinode b).isSome).getD ii.bstart
  -- for (bindex = bend; bindex > iinfo->ii_bstart; bindex--, p--)
  let last := (bindexes (bstart + 1) bend).reverse.find? fun b => (ii.hinode b).isSome
  { ii with bstart := bstart, bend := last.getD bend }

/-- `au_refresh_hinode`. Next to the error it returns the inode and the hidden inodes
that were released. -/
def auRefreshHinode (sb : SuperBlock) (mem : Bool) (i : Inode) (d : Dinfo) :
    Except Errno Unit × Inode × List Hinode :=
  match kzrealloc mem (i.ii.bend + 1) (sb.sbend + 1) i.ii.hinode with
  | none => (.error .ENOMEM, i, [])
  | some p =>
    let ii := { i.ii with hinode := p }
    let first := ii.hIptrI ii.bstart
    match hinodeLoop sb (hinodeFuel sb ii) ⟨ii, ii.bstart, 0, []⟩ with
    | none => (.error .oops, i, [])
    | some st =>
      match hinodeFromDentry sb d (bindexes d.bstart d.bend) st.ii st.update with
      | (.error e, ii, _) => (.error e, { i with ii := hinodeEnds ii }, st.put)
      | (.ok (), ii, update) =>
        let i := { i with ii := hinodeEnds ii }
        match (if first ≠ i.ii.hIptr then auCpupAttrAll i else some i) with
        | none => (.error .oops, i, st.put)
        | some i =>
          let version := if update ≠ 0 ∧ i.isDir then i.version + 1 else i.version
          (.ok (), { i with version, ii := { i.ii with generation := sb.generation } }, st.put)

-- ---------------------------------------------------------------------------
-- The loop is a remapping
-- ---------------------------------------------------------------------------

/-- Where the branch of a hidden inode is now. -/
def hinodeTarget (sb : SuperBlock) (p : Hinode) : Option Int :=
  if sb.findBrindex p.id < 0 then none else some (sb.findBrindex p.id)

/-- What every inode with hidden inodes keeps between two calls. -/
structure Iinfo.Wf (ii : Iinfo) : Prop where
  nonneg : 0 ≤ ii.bstart
  start : (ii.hinode ii.bstart).isSome
  range : ∀ b, (ii.hinode b).isSome → ii.bstart ≤ b ∧ b ≤ ii.bend
  distinct : ∀ b c p q, ii.hinode b = some p → ii.hinode c = some q → p.id = q.id → b = c

variable {sb : SuperBlock} {ii : Iinfo} {d : Dinfo}

theorem hinodeTarget_eq_some {p : Hinode} {k : Int} :
    hinodeTarget sb p = some k ↔ sb.findBrindex p.id = k ∧ 0 ≤ k := by
  unfold hinodeTarget
  split
  · simp only [reduceCtorEq, false_iff]
    omega
  · simp only [Option.some.injEq]
    omega

theorem hinodeTarget_eq_none {p : Hinode} :
    hinodeTarget sb p = none ↔ sb.findBrindex p.id < 0 := by
  simp [hinodeTarget]

theorem Iinfo.Wf.separated (h : ii.Wf) : Remap.Separated (hinodeTarget sb) ii.hinode := by
  intro i j p q hi hj hpq
  refine h.distinct i j p q hi hj ?_
  rcases hpq with rfl | ⟨k, hp, hq⟩
  · rfl
  · obtain ⟨hp, hk⟩ := hinodeTarget_eq_some.mp hp
    obtain ⟨hq, -⟩ := hinodeTarget_eq_some.mp hq
    exact @SuperBlock.findBrindex_inj sb _ _ (by omega) (by omega)

/-- The variables of the loop, read as a remapping under way. -/
def HinodeLoop.remap (st : HinodeLoop) : Remap.State Hinode := ⟨st.ii.hinode, st.bindex, st.put⟩

theorem hinodeBody_remap {st : HinodeLoop} (h0 : 0 ≤ st.bindex) :
    (hinodeBody sb st).remap = Remap.step (hinodeTarget sb) st.remap := by
  simp only [HinodeLoop.remap, hinodeBody, Remap.step]
  cases hp : st.ii.hinode st.bindex with
  | none => rfl
  | some p =>
      by_cases hneg : sb.findBrindex p.id < 0
      · have hne : sb.findBrindex p.id ≠ st.bindex := by omega
        simp only [hinodeTarget, hneg, if_true, if_neg hne]
      · by_cases heq : sb.findBrindex p.id = st.bindex
        · have hb : ¬ st.bindex < 0 := by omega
          simp [hinodeTarget, heq, hb]
        · simp [hinodeTarget, hneg, heq]
          rfl

/-- The range of the loop covers the filled slots, and its end has moved only to a
slot that was filled for good. -/
structure HinodeInv (sb : SuperBlock) (ii₀ : Iinfo) (st : HinodeLoop) : Prop where
  remap : Remap.Inv (hinodeTarget sb) ii₀.hinode st.ii.bend st.remap
  nonneg : 0 ≤ st.ii.bstart
  cursor : 0 ≤ st.bindex
  range : ∀ b, (st.ii.hinode b).isSome → st.ii.bstart ≤ b ∧ b ≤ st.ii.bend
  grows : ii₀.bend ≤ st.ii.bend
  bounded : st.ii.bend ≤ max ii₀.bend sb.sbend
  bend : st.ii.bend = ii₀.bend ∨
    ∃ p, st.ii.hinode st.ii.bend = some p ∧ hinodeTarget sb p = some st.ii.bend

theorem HinodeInv.init (h : ii.Wf) : HinodeInv sb ii ⟨ii, ii.bstart, 0, []⟩ where
  remap := Remap.Inv.init h.separated
    (fun k hk => by
      by_contra hne
      have := (h.range k (Option.isSome_iff_ne_none.mpr hne)).1
      simp only at hk
      omega)
    (fun k hk => by
      by_contra hne
      have := (h.range k (Option.isSome_iff_ne_none.mpr hne)).2
      simp only at hk
      omega)
  nonneg := h.nonneg
  cursor := h.nonneg
  range := h.range
  grows := Int.le_refl _
  bounded := Int.le_max_left _ _
  bend := .inl rfl

/-- One round keeps the invariant. The swap extends the range to the target of the
item it moves, and no round moves an item that is at its target. -/
theorem HinodeInv.body {st : HinodeLoop} (h : HinodeInv sb ii st) (hle : st.bindex ≤ st.ii.bend) :
    HinodeInv sb ii (hinodeBody sb st) := by
  have hstep := h.remap.step hle
  rw [← hinodeBody_remap h.cursor] at hstep
  have hcur := h.cursor
  have h0 := h.nonneg
  revert hstep
  unfold hinodeBody
  cases hp : st.ii.hinode st.bindex with
  | none =>
      intro hstep
      exact { h with remap := hstep, cursor := by simp only; omega }
  | some p =>
      have hpr := h.range st.bindex (by simp [hp])
      dsimp only
      split
      · intro hstep
        exact { h with remap := hstep, cursor := by simp only; omega }
      · rename_i hne
        split
        · rename_i hneg
          intro hstep
          refine ⟨hstep, h0, by simp only; omega, fun b hb => ?_, h.grows, h.bounded, ?_⟩
          · by_cases hbc : b = st.bindex
            · simp [hbc] at hb
            · exact h.range b (by simpa [hbc] using hb)
          · rcases h.bend with hb | ⟨q, hq, ht⟩
            · exact .inl hb
            · refine .inr ⟨q, ?_, ht⟩
              have : st.ii.bend ≠ st.bindex := by
                intro he
                rw [he, hp] at hq
                obtain rfl := Option.some.inj hq
                rw [hinodeTarget_eq_none.mpr hneg] at ht
                simp at ht
              simpa [this] using hq
        · rename_i hneg
          have hj : 0 ≤ sb.findBrindex p.id := by omega
          have hjs := sb.findBrindex_le_sbend p.id
          intro hstep
          have hgrow : st.ii.bend ≤ max st.ii.bend (sb.findBrindex p.id) := Int.le_max_left _ _
          have hbounded := h.bounded
          have hgrows := h.grows
          refine ⟨hstep.mono hgrow, by simp only; omega, ?_, fun b hb => ?_, ?_, ?_, ?_⟩
          · simp only
            split <;> omega
          · simp only [Remap.swap_apply] at hb ⊢
            split at hb
            · omega
            · split at hb
              · omega
              · have := h.range b hb
                omega
          · simp only; omega
          · simp only; omega
          · simp only [Remap.swap_apply]
            by_cases hlt : st.ii.bend < sb.findBrindex p.id
            · refine .inr ⟨p, ?_, ?_⟩
              · rw [Int.max_eq_right (by omega), if_neg hne, if_pos rfl, hp]
              · rw [Int.max_eq_right (by omega)]
                exact hinodeTarget_eq_some.mpr ⟨rfl, hj⟩
            · rw [Int.max_eq_left (by omega)]
              rcases h.bend with hb | ⟨q, hq, ht⟩
              · exact .inl hb
              · refine .inr ?_
                by_cases hbj : st.ii.bend = sb.findBrindex p.id
                · refine ⟨p, ?_, hinodeTarget_eq_some.mpr ⟨hbj.symm, by omega⟩⟩
                  rw [hbj, if_neg hne, if_pos rfl, hp]
                · refine ⟨q, ?_, ht⟩
                  have : st.ii.bend ≠ st.bindex := by
                    intro he
                    rw [he, hp] at hq
                    obtain rfl := Option.some.inj hq
                    rw [he] at ht
                    exact hne (hinodeTarget_eq_some.mp ht).1
                  rw [if_neg this, if_neg hbj, hq]

/-- Two rounds for each slot of the array are enough, and what is left after them is
the remapped array. -/
theorem hinodeLoop_spec {fuel : Nat} {st : HinodeLoop} (h : HinodeInv sb ii st)
    (hfuel : Remap.remaining (hinodeTarget sb) 0 (max ii.bend sb.sbend) st.remap ≤ fuel) :
    ∃ st', hinodeLoop sb fuel st = some st' ∧ HinodeInv sb ii st' ∧ st'.ii.bend < st'.bindex := by
  induction fuel generalizing st with
  | zero =>
      have hb := h.bounded
      have : st.ii.bend < st.bindex := by
        simp only [Remap.remaining, HinodeLoop.remap] at hfuel
        omega
      exact ⟨st, by rw [hinodeLoop, if_neg (by omega)], h, this⟩
  | succ fuel ih =>
      rw [hinodeLoop]
      split
      · rename_i hle
        refine ih (h.body hle) ?_
        have hlt := Remap.remaining_step 0 (max ii.bend sb.sbend) h.remap.separated
          (h.bounded.trans' hle) fun k x j _ hj => by
            have := (hinodeTarget_eq_some.mp hj)
            have := sb.findBrindex_le_sbend x.id
            omega
        rw [← hinodeBody_remap h.cursor] at hlt
        omega
      · rename_i hgt
        exact ⟨st, rfl, h, by omega⟩

/-- The remapping loop ends. -/
theorem hinodeLoop_terminates (sb : SuperBlock) (h : ii.Wf) :
    ∃ st, hinodeLoop sb (hinodeFuel sb ii) ⟨ii, ii.bstart, 0, []⟩ = some st ∧
      HinodeInv sb ii st ∧ st.ii.bend < st.bindex :=
  hinodeLoop_spec (HinodeInv.init h)
    ((Remap.remaining_le 0 _ h.nonneg).trans (by simp [hinodeFuel]))

-- ---------------------------------------------------------------------------
-- The slots of the dentry, and the ends
-- ---------------------------------------------------------------------------

/-- The range between the ends covers the filled slots. -/
def Iinfo.Covers (ii : Iinfo) : Prop :=
  0 ≤ ii.bstart ∧ ∀ b, (ii.hinode b).isSome → ii.bstart ≤ b ∧ b ≤ ii.bend

/-- What the second loop adds: the slots of `L` that were empty and have a positive
hidden dentry. The end of the range moves only to a slot that is filled. -/
structure FilledFrom (sb : SuperBlock) (d : Dinfo) (L : List Int) (ii ii' : Iinfo) : Prop where
  covers : ii'.Covers
  grows : ii.bend ≤ ii'.bend
  bend : ii'.bend = ii.bend ∨ (ii'.hinode ii'.bend).isSome
  kept : ∀ k p, ii.hinode k = some p → ii'.hinode k = some p
  new : ∀ k p, ii'.hinode k = some p → ii.hinode k = some p ∨
    (d.hDptrI k).bind HDentry.dInode = some p.inode ∧ sb.sbrId k = some p.id
  full : ∀ k ∈ L, d.positiveAt k → (ii'.hinode k).isSome
  only : ∀ k, (ii'.hinode k).isSome → (ii.hinode k).isSome ∨ k ∈ L

theorem dInode_isSome {k : Int} :
    ((d.hDptrI k).bind HDentry.dInode).isSome ↔ d.positiveAt k := by
  cases h : d.hDptrI k <;> simp [Dinfo.positiveAt, HDentry.positive, HDentry.dInode, h]

theorem hinodeFromDentry_ok {L : List Int} {ii ii' : Iinfo} {u u' : Nat}
    (h : hinodeFromDentry sb d L ii u = (.ok (), ii', u')) (hc : ii.Covers) :
    FilledFrom sb d L ii ii' := by
  induction L generalizing ii u with
  | nil =>
      simp only [hinodeFromDentry, Prod.mk.injEq, true_and] at h
      obtain ⟨rfl, -⟩ := h
      exact ⟨hc, Int.le_refl _, .inl rfl, fun _ _ h => h, fun _ _ h => .inl h, by simp,
        fun _ h => .inl h⟩
  | cons b L ih =>
      simp only [hinodeFromDentry] at h
      split at h
      · -- no positive hidden dentry at `b`
        rename_i hd
        have hf := ih h hc
        refine { hf with full := fun k hk hpos => ?_, only := fun k hk => ?_ }
        · rcases List.mem_cons.mp hk with rfl | hk
          · rw [← dInode_isSome, hd] at hpos
            simp at hpos
          · exact hf.full k hk hpos
        · exact (hf.only k hk).imp_right (List.mem_cons_of_mem b)
      · rename_i hd hhd
        split at h
        · -- the slot is filled already
          rename_i hi hhi
          split at h
          · have hfill : (ii.hinode b).isSome := by
              split at hhi
              · simp only [Iinfo.hIptrI, Option.map_eq_some_iff] at hhi
                obtain ⟨p, hp, -⟩ := hhi
                simp [hp]
              · simp at hhi
            have hf := ih h hc
            refine { hf with full := fun k hk hpos => ?_, only := fun k hk => ?_ }
            · rcases List.mem_cons.mp hk with rfl | hk
              · obtain ⟨p, hp⟩ := Option.isSome_iff_exists.mp hfill
                simp [hf.kept _ p hp]
              · exact hf.full k hk hpos
            · exact (hf.only k hk).imp_right (List.mem_cons_of_mem b)
          · simp at h
        · -- the slot is empty and takes the inode of the hidden dentry
          rename_i hnone
          have hempty : ii.hinode b = none := by
            by_contra hne
            have hr := hc.2 b (Option.isSome_iff_ne_none.mpr hne)
            rw [if_pos hr] at hnone
            simp [Iinfo.hIptrI, hne] at hnone
          cases hid : sb.sbrId b with
          | none => simp [Iinfo.setHIptr, hid] at h
          | some id =>
              simp only [Iinfo.setHIptr, hid, Option.map_some] at h
              have hb0 := (SuperBlock.range_of_sbrId hid).1
              have hc0 := hc.1
              have hf := ih h (by
                refine ⟨by simp only; omega, fun k hk => ?_⟩
                simp only at hk ⊢
                by_cases hkb : k = b
                · omega
                · have := hc.2 k (by simpa [hkb] using hk)
                  omega)
              have hbset : ii'.hinode b = some ⟨hd, id⟩ := hf.kept b _ (by simp)
              have hgrows := hf.grows
              simp only at hgrows
              refine ⟨hf.covers, by omega, ?_, fun k p hk => ?_, fun k p hk => ?_, fun k hk hpos => ?_,
                fun k hk => ?_⟩
              · rcases hf.bend with he | he
                · simp only at he
                  by_cases hlt : ii.bend < b
                  · rw [Int.max_eq_right (by omega)] at he
                    exact .inr (by rw [he, hbset]; rfl)
                  · exact .inl (by omega)
                · exact .inr he
              · refine hf.kept k p ?_
                have hkb : k ≠ b := by
                  rintro rfl
                  simp [hempty] at hk
                simpa [hkb] using hk
              · rcases hf.new k p hk with hk' | hk'
                · by_cases hkb : k = b
                  · subst hkb
                    simp only [Function.update_self, Option.some.injEq] at hk'
                    subst hk'
                    exact .inr ⟨hhd, hid⟩
                  · exact .inl (by simpa [hkb] using hk')
                · exact .inr hk'
              · rcases List.mem_cons.mp hk with rfl | hk
                · simp [hbset]
                · exact hf.full k hk hpos
              · by_cases hkb : k = b
                · exact .inr (hkb ▸ List.mem_cons_self)
                · refine (hf.only k hk).imp (fun h' => ?_) (List.mem_cons_of_mem b)
                  simpa [hkb] using h'

/-- The scan for the first slot is right whenever a slot is filled. -/
theorem hinodeEnds_bstart (hc : ii.Covers) {b : Int} (hb : (ii.hinode b).isSome) :
    IsLeast {k | (ii.hinode k).isSome} (hinodeEnds ii).bstart := by
  have h0 := hc.1
  simp only [hinodeEnds]
  cases hf : (bindexes 0 ii.bend).find? fun b => (ii.hinode b).isSome with
  | none =>
      have hr := hc.2 b hb
      have := find?_bindexes_eq_none.mp hf b (by omega) hr.2
      simp [hb] at this
  | some m =>
      obtain ⟨hm, h1, h2, h3⟩ := find?_bindexes.mp hf
      refine ⟨hm, fun k hk => ?_⟩
      by_contra hlt
      have hr := hc.2 k hk
      have := h3 k (by omega) (by simpa using hlt)
      simp [show (ii.hinode k).isSome = true from hk] at this

/-- The scan for the last slot stops short of the first one: with a single filled slot
the end stays where it was. -/
theorem hinodeEnds_bend (hc : ii.Covers) {b : Int} (hb : (ii.hinode b).isSome) :
    IsGreatest {k | (ii.hinode k).isSome} (hinodeEnds ii).bend ↔
      ∀ m, {k | (ii.hinode k).isSome} = {m} → ii.bend ≤ m := by
  have hleast := hinodeEnds_bstart hc hb
  obtain ⟨m, hm⟩ : ∃ m, (hinodeEnds ii).bstart = m := ⟨_, rfl⟩
  rw [hm] at hleast
  have hbend : (hinodeEnds ii).bend =
      ((bindexes (m + 1) ii.bend).reverse.find? fun b => (ii.hinode b).isSome).getD ii.bend := by
    rw [← hm]
    rfl
  rw [hbend]
  cases hf : (bindexes (m + 1) ii.bend).reverse.find? fun b => (ii.hinode b).isSome with
  | some e =>
      obtain ⟨he, h1, h2, h3⟩ := find?_reverse_bindexes.mp hf
      have hgreat : IsGreatest {k | (ii.hinode k).isSome} e := by
        refine ⟨he, fun k hk => ?_⟩
        by_contra hlt
        have := h3 k (by simpa using hlt) (hc.2 k hk).2
        simp [show (ii.hinode k).isSome = true from hk] at this
      refine iff_of_true hgreat fun n hn => ?_
      have h4 : m = n := by simpa [hn] using hleast.1
      have h5 : e = n := by simpa [hn] using hgreat.1
      omega
  | none =>
      have hsingle : {k | (ii.hinode k).isSome} = {m} := by
        refine Set.eq_singleton_iff_unique_mem.mpr ⟨hleast.1, fun k hk => ?_⟩
        have h1 := hleast.2 hk
        by_contra hne
        rw [List.find?_eq_none] at hf
        have := hf k (List.mem_reverse.mpr (mem_bindexes.mpr ⟨by omega, (hc.2 k hk).2⟩))
        exact this hk
      rw [hsingle]
      simp only [Option.getD_none, Set.singleton_eq_singleton_iff, forall_eq']
      have hr := (hc.2 m hleast.1).2
      constructor
      · intro hg
        exact Int.le_of_eq (by simpa using hg.1)
      · intro hle
        rw [Int.le_antisymm hle hr]
        exact isGreatest_singleton

-- ---------------------------------------------------------------------------
-- The refreshed inode
-- ---------------------------------------------------------------------------

/-- The slots a refresh fills: those of the branches that are left, and those of the
positive hidden dentries. -/
def refreshSlots (sb : SuperBlock) (ii : Iinfo) (d : Dinfo) : Set Int :=
  {k | (∃ b p, ii.hinode b = some p ∧ hinodeTarget sb p = some k) ∨ d.positiveAt k ∧ k ≤ d.bend}

/-- The hidden inodes `ii` had are on their branches in `ii'`, or were released if the
branch is gone, and the ends of `ii'` are exact. -/
structure HinodeRefreshed (sb : SuperBlock) (d : Dinfo) (ii ii' : Iinfo) (put : List Hinode) :
    Prop where
  survivor : ∀ b p, ii.hinode b = some p → 0 ≤ sb.findBrindex p.id →
    ii'.hinode (sb.findBrindex p.id) = some p
  once : ∀ b p, ii.hinode b = some p → ∀ k, ii'.hinode k = some p → k = sb.findBrindex p.id
  new : ∀ k p, ii'.hinode k = some p → (∃ b, ii.hinode b = some p) ∨
    (d.hDptrI k).bind HDentry.dInode = some p.inode ∧ sb.sbrId k = some p.id
  released : put.Nodup ∧ ∀ p, p ∈ put ↔ sb.findBrindex p.id < 0 ∧ ∃ b, ii.hinode b = some p
  first : IsLeast {k | (ii'.hinode k).isSome} ii'.bstart
  last : IsGreatest {k | (ii'.hinode k).isSome} ii'.bend
  inTable : ii'.bend ≤ sb.sbend

/-- The slots after both loops, in terms of the inode before them. -/
theorem refreshSlots_eq {st : HinodeLoop} {ii' : Iinfo} (hst : HinodeInv sb ii st)
    (hend : st.ii.bend < st.bindex)
    (hf : FilledFrom sb d (bindexes d.bstart d.bend) st.ii ii') :
    {k | (ii'.hinode k).isSome} = refreshSlots sb ii d := by
  obtain ⟨hslots, -, -⟩ := hst.remap.final hend
  ext k
  simp only [Set.mem_ofPred_eq, refreshSlots]
  constructor
  · intro hk
    obtain ⟨p, hp⟩ := Option.isSome_iff_exists.mp hk
    rcases hf.new k p hp with hst' | ⟨hd, -⟩
    · obtain ⟨ht, b, hb⟩ := (hslots k p).mp hst'
      exact .inl ⟨b, p, hb, ht⟩
    · rcases hf.only k hk with hk' | hk'
      · obtain ⟨q, hq⟩ := Option.isSome_iff_exists.mp hk'
        obtain ⟨ht, b, hb⟩ := (hslots k q).mp hq
        exact .inl ⟨b, q, hb, ht⟩
      · exact .inr ⟨dInode_isSome.mp (by simp [hd]), (mem_bindexes.mp hk').2⟩
  · rintro (⟨b, p, hb, ht⟩ | ⟨hpos, hk⟩)
    · have := hf.kept k p ((hslots k p).mpr ⟨ht, b, hb⟩)
      simp [this]
    · refine hf.full k (mem_bindexes.mpr ⟨?_, hk⟩) hpos
      obtain ⟨h, hh, -⟩ := Option.any_eq_true _ _ |>.mp hpos
      exact (Dinfo.range_of_hDptrI hh).2

/-- The steps of a call that returns 0. The attributes are read through `ii_bstart`,
so there is a hidden inode. -/
theorem auRefreshHinode_ok {mem : Bool} {i i' : Inode} {put : List Hinode} (hwf : i.ii.Wf)
    (h : auRefreshHinode sb mem i d = (.ok (), i', put)) :
    ∃ st ii u, hinodeLoop sb (hinodeFuel sb i.ii) ⟨i.ii, i.ii.bstart, 0, []⟩ = some st ∧
      hinodeFromDentry sb d (bindexes d.bstart d.bend) st.ii st.update = (.ok (), ii, u) ∧
      put = st.put ∧ i'.ii = { hinodeEnds ii with generation := sb.generation } ∧
      (hinodeEnds ii).hIptr.isSome := by
  simp only [auRefreshHinode] at h
  split at h
  · simp at h
  · rename_i p hp
    obtain rfl := kzrealloc_eq (fun b hb => by
      by_contra hne
      have := (hwf.range b (Option.isSome_iff_ne_none.mpr hne)).2
      omega) hp
    split at h
    · simp at h
    · rename_i st hst
      split at h
      · simp at h
      · rename_i ii u hfd
        split at h
        · simp at h
        · rename_i j hj
          simp only [Prod.mk.injEq, true_and] at h
          obtain ⟨rfl, rfl⟩ := h
          refine ⟨st, ii, u, hst, hfd, rfl, ?_⟩
          split at hj
          · simp only [auCpupAttrAll, Option.map_eq_some_iff] at hj
            obtain ⟨k, hk, rfl⟩ := hj
            exact ⟨rfl, by simp [hk]⟩
          · rename_i heq
            obtain rfl := Option.some.inj hj
            refine ⟨rfl, ?_⟩
            have hstart := hwf.start
            simp only [ne_eq, Decidable.not_not] at heq
            rw [← heq]
            simpa [Iinfo.hIptrI] using hstart

/-- The remapping loop ends. A refresh that returns 0 puts every hidden inode where it
belongs, and it finds the ends exactly if, when one slot alone is filled, `ii_bend` was
not above it already: the last scan does not look at `ii_bstart`. -/
theorem auRefreshHinode_refreshed_iff {mem : Bool} {i : Inode} (hwf : i.ii.Wf)
    (hids : sb.DistinctIds) :
    (∃ st, hinodeLoop sb (hinodeFuel sb i.ii) ⟨i.ii, i.ii.bstart, 0, []⟩ = some st) ∧
      ∀ i' put, auRefreshHinode sb mem i d = (.ok (), i', put) →
        (HinodeRefreshed sb d i.ii i'.ii put ↔
          ∀ m, refreshSlots sb i.ii d = {m} → i.ii.bend ≤ m) := by
  obtain ⟨st, hst, hinv, hend⟩ := hinodeLoop_terminates sb hwf
  refine ⟨⟨st, hst⟩, fun i' put h => ?_⟩
  obtain ⟨st', ii, u, hst', hfd, rfl, hi', hfirst⟩ := auRefreshHinode_ok hwf h
  obtain rfl : st = st' := Option.some.inj (hst.symm.trans hst')
  obtain ⟨hslots, hnodup, hput⟩ := hinv.remap.final hend
  have hf := hinodeFromDentry_ok hfd ⟨hinv.nonneg, hinv.range⟩
  have hset := refreshSlots_eq hinv hend hf
  have hfill : (ii.hinode (hinodeEnds ii).bstart).isSome := by
    simpa [Iinfo.hIptr, Iinfo.hIptrI, hinodeEnds] using hfirst
  have hleast := hinodeEnds_bstart hf.covers hfill
  have hlast := hinodeEnds_bend hf.covers hfill
  have hsurv : ∀ b p, i.ii.hinode b = some p → 0 ≤ sb.findBrindex p.id →
      ii.hinode (sb.findBrindex p.id) = some p := fun b p hb h0 =>
    hf.kept _ _ ((hslots _ p).mpr ⟨hinodeTarget_eq_some.mpr ⟨rfl, h0⟩, b, hb⟩)
  have hplace : ∀ k p, ii.hinode k = some p → k = sb.findBrindex p.id := by
    intro k p hk
    rcases hf.new k p hk with hk' | ⟨-, hid⟩
    · exact (hinodeTarget_eq_some.mp ((hslots k p).mp hk').1).1.symm
    · exact (hids.findBrindex hid).symm
  -- the end before the last scan is the old one or a filled slot
  have hbend : ∀ m, {k | (ii.hinode k).isSome} = {m} → (ii.bend ≤ m ↔ i.ii.bend ≤ m) := by
    intro m hm
    have hgrow := hinv.grows
    have hgrow' := hf.grows
    refine ⟨fun _ => by omega, fun hle => ?_⟩
    have hin : ∀ k, (ii.hinode k).isSome → k = m := fun k hk => by simpa using hm.subset hk
    rcases hf.bend with he | he
    · rcases hinv.bend with he' | ⟨p, hp, -⟩
      · omega
      · have := hin st.ii.bend (by simp [hf.kept _ p hp])
        omega
    · exact Int.le_of_eq (hin _ he)
  have hiff : IsGreatest {k | (ii.hinode k).isSome} (hinodeEnds ii).bend ↔
      ∀ m, refreshSlots sb i.ii d = {m} → i.ii.bend ≤ m := by
    rw [hlast, ← hset]
    exact forall_congr' fun m => forall_congr' fun hm => hbend m hm
  rw [← hiff, hi']
  refine ⟨fun hr => hr.last, fun hg => ?_⟩
  refine ⟨hsurv, fun b p _ k hk => hplace k p hk, fun k p hk => ?_, ⟨hnodup, fun p => ?_⟩, hleast, hg, ?_⟩
  · refine (hf.new k p hk).imp (fun hk' => ((hslots k p).mp hk').2) id
  · exact (hput p).trans (by rw [hinodeTarget_eq_none])
  · obtain ⟨p, hp⟩ := Option.isSome_iff_exists.mp (show (ii.hinode _).isSome from hg.1)
    have := sb.findBrindex_le_sbend p.id
    have := hplace _ p hp
    simp only
    omega

/-- A directory on the two branches of ids 1 and 2. -/
def pairInode : Inode where
  isDir := true
  version := 0
  attrFrom := none
  ii :=
    { bstart := 0, bend := 1, generation := 0
      hinode := fun b =>
        if b = 0 then some ⟨⟨1, 7⟩, 1⟩ else if b = 1 then some ⟨⟨2, 8⟩, 2⟩ else none }

/-- The hidden dentry of that directory on the branch of id `root`. -/
def pairHDentry (root : Nat) : HDentry := ⟨root, [[100]], some ⟨.dir, root + 6, 0, false⟩⟩

/-- Its dentry with hidden dentries on these branches, in the order of the table. -/
def pairDentry (roots : List Nat) : Dinfo where
  bstart := 0
  bend := (roots.length : Int) - 1
  bwh := -1
  bdiropq := -1
  hdentry := fun b => if 0 ≤ b then (roots[b.toNat]?).map pairHDentry else none

theorem pairInode_wf : pairInode.ii.Wf where
  nonneg := by decide
  start := by decide
  range := by
    intro b hb
    simp only [pairInode] at hb ⊢
    split at hb
    · omega
    · split at hb
      · omega
      · simp at hb
  distinct := by
    intro b c p q hb hc hpq
    simp only [pairInode] at hb hc
    split at hb <;> split at hc <;> simp_all <;> grind

/-- The branches of ids 1 and 2 have changed places. -/
theorem auRefreshHinode_swapped :
    ∃ i' put, auRefreshHinode (.ofBranches [.plain 2 .RO, .plain 1 .RW]) true pairInode
        (pairDentry [2, 1]) = (.ok (), i', put) ∧
      HinodeRefreshed (.ofBranches [.plain 2 .RO, .plain 1 .RW]) (pairDentry [2, 1]) pairInode.ii i'.ii put := by
  obtain ⟨i', put, h⟩ : ∃ i' put, auRefreshHinode (.ofBranches [.plain 2 .RO, .plain 1 .RW]) true
      pairInode (pairDentry [2, 1]) = (.ok (), i', put) := ⟨_, _, rfl⟩
  have hids : (SuperBlock.ofBranches [.plain 2 .RO, .plain 1 .RW]).DistinctIds :=
    SuperBlock.distinctIds_of_nodup (by decide)
  refine ⟨i', put, h, ((auRefreshHinode_refreshed_iff pairInode_wf hids).2 i' put h).mpr ?_⟩
  intro m hm
  have h0 : (0 : Int) = m := hm.subset (.inl ⟨1, ⟨⟨2, 8⟩, 2⟩, by decide, by decide⟩)
  have h1 : (1 : Int) = m := hm.subset (.inl ⟨0, ⟨⟨1, 7⟩, 1⟩, by decide, by decide⟩)
  omega

/-- The branch of id 2 was deleted: `ii_bend` stays at 1, above the last branch. -/
theorem auRefreshHinode_bend_stale :
    ∃ i' put, auRefreshHinode (.ofBranches [.plain 1 .RW]) true pairInode (pairDentry [1]) =
        (.ok (), i', put) ∧ i'.ii.bend = 1 ∧ SuperBlock.sbend (.ofBranches [.plain 1 .RW]) = 0 ∧
      ¬ HinodeRefreshed (.ofBranches [.plain 1 .RW]) (pairDentry [1]) pairInode.ii i'.ii put :=
  ⟨_, _, rfl, rfl, rfl, fun h => absurd h.inTable (by decide)⟩

end Aufs
