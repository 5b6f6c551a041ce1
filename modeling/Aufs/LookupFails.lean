-- SUMMARY: What a failing lkup_dentry leaves in the dentry, against what was there before the branch that failed.
import Aufs.Dentry

/-!
# Lookups that fail

`lkup_dentry` gives up at the first branch whose lookup fails. Of the three lookups there
the last, that of the opaque mark, comes after the slot was filled and the ends were moved;
the second may come after the whiteout was noted. `lkupFails` tells which branch it was and
what the dentry was before it.
-/

namespace Aufs

variable (sb : SuperBlock) (name : Name) (parent : Dinfo)

/-- What one turn of the loop of `lkup_dentry` comes to. -/
inductive LkupTurn where
  | stop (npositive : Nat) (d : Dinfo) (w : World)
  | next (v : LkupVars) (d : Dinfo) (w : World)
  | fail (e : Errno) (d : Dinfo) (w : World)

/-- One turn of the loop. -/
def lkupTurn (bindex : Int) (v : LkupVars) (d : Dinfo) (w : World) : LkupTurn :=
  match d.hDptrI bindex with
  | some h =>
    let v := if h.positive then { v with npositive := v.npositive + 1 } else v
    if v.type ≠ some .dir then .stop v.npositive d w else .next v d w
  | none =>
    match parent.hDir bindex with
    | none => .next v d w
    | some hParent =>
      match doLookup sb name hParent d bindex v.allowNeg v.type w with
      | (.error e, d, w) => .fail e d w
      | (.ok h, d, w) =>
        let v := { v with allowNeg := false }
        if d.bwh ≠ -1 then .stop v.npositive d w
        else
          match h.bind HDentry.inode with
          | none => .next v d w
          | some i =>
            let v : LkupVars := ⟨false, some (v.type.getD i.mode), v.npositive + 1⟩
            if v.type ≠ some .dir then .stop v.npositive d w
            else if d.bdiropq ≠ -1 then .stop v.npositive d w
            else .next v d w

/-- A branch that is tried: its index, its hidden parent, and what the loop has come to. -/
structure LkupTry where
  bindex : Int
  hParent : HDentry
  v : LkupVars
  d : Dinfo
  w : World

/-- The branch at which the loop fails, as it was before it was tried. -/
def lkupFailsAt : List Int → LkupVars → Dinfo → World → Option LkupTry
  | [], _, _, _ => none
  | bindex :: rest, v, d, w =>
    match lkupTurn sb name parent bindex v d w with
    | .stop _ _ _ => none
    | .next v d w => lkupFailsAt rest v d w
    | .fail _ _ _ => (parent.hDir bindex).map fun hParent => ⟨bindex, hParent, v, d, w⟩

/-- The branch at which `lkup_dentry` fails; none when it fails before the first. -/
def lkupFails (bstart : Int) (type : Option FType) (d : Dinfo) (w : World) : Option LkupTry :=
  if hasWhPfx name then none
  else
    match allocWhname name w with
    | (.error _, _) => none
    | (.ok _, w) =>
      lkupFailsAt sb name parent (bindexes bstart parent.dbtaildir) ⟨type.isNone, type, 0⟩ d w

/-- Both ends are filled whenever any slot is. -/
def Dinfo.EndsSet (d : Dinfo) : Prop :=
  (∃ b, (d.hdentry b).isSome) → (d.hdentry d.bstart).isSome ∧ (d.hdentry d.bend).isSome

/-- The dentry is new, or both ends are filled. -/
def Dinfo.NewOrSet (d : Dinfo) : Prop :=
  (d.bstart = -1 ∧ d.bend = -1 ∧ ∀ b, d.hdentry b = none) ∨
    ((d.hdentry d.bstart).isSome ∧ (d.hdentry d.bend).isSome)

/-- The lookup of the whiteout of the name, on branches that have whiteouts. -/
def whLookup (hParent : HDentry) (bindex : Int) (w : World) : Except Errno Bool × World :=
  if sb.sbrIsWhable bindex then isWh w hParent (whName name) else (.ok false, w)

/-- When the failing lookup of the branch leaves the dentry alone: it is that of the whiteout;
or it is that of the name, and no whiteout was found or it was noted before; or it is that of
the opaque mark, and the branch is between the ends. -/
def LkupTry.Keeps (t : LkupTry) : Prop :=
  match whLookup sb name t.hParent t.bindex t.w with
  | (.error _, _) => True
  | (.ok found, w) =>
    match lkupOne w t.hParent name with
    | (.error _, _) => found = true → t.d.bwh = t.bindex
    | (.ok _, _) => t.d.bstart ≠ -1 ∧ t.d.bstart ≤ t.bindex ∧ t.bindex ≤ t.d.bend

variable {sb name parent} {d d' : Dinfo} {w w' : World} {e : Errno}

/-- The loop is its turns. -/
theorem lkupLoop_cons (bindex : Int) (rest : List Int) (v : LkupVars) (d : Dinfo) (w : World) :
    lkupLoop sb name parent (bindex :: rest) v d w = match lkupTurn sb name parent bindex v d w with
      | .stop n d w => (.ok n, d, w)
      | .next v d w => lkupLoop sb name parent rest v d w
      | .fail e d w => (.error e, d, w) := by
  simp only [lkupLoop, lkupTurn]
  cases d.hDptrI bindex with
  | some h =>
      dsimp only
      generalize (if h.positive = true then { v with npositive := v.npositive + 1 } else v : LkupVars) = v'
      by_cases ht : v'.type ≠ some .dir
      · rw [if_pos ht, if_pos ht]
      · rw [if_neg ht, if_neg ht]
  | none =>
      cases parent.hDir bindex with
      | none => rfl
      | some hParent =>
          dsimp only
          obtain ⟨res, d₁, w₁, hdo⟩ : ∃ res d₁ w₁,
            doLookup sb name hParent d bindex v.allowNeg v.type w = (res, d₁, w₁) := ⟨_, _, _, rfl⟩
          rw [hdo]
          cases res with
          | error e => rfl
          | ok h =>
              dsimp only
              by_cases hwh : d₁.bwh ≠ -1
              · rw [if_pos hwh, if_pos hwh]
              · rw [if_neg hwh, if_neg hwh]
                cases h.bind HDentry.inode with
                | none => rfl
                | some i =>
                    dsimp only
                    by_cases ht : some (v.type.getD i.mode) ≠ some .dir
                    · rw [if_pos ht, if_pos ht]
                    · rw [if_neg ht, if_neg ht]
                      by_cases ho : d₁.bdiropq ≠ -1
                      · rw [if_pos ho, if_pos ho]
                      · rw [if_neg ho, if_neg ho]

/-- A turn that fails is a failing `do_lookup`. -/
theorem lkupTurn_fail {bindex : Int} {v : LkupVars}
    (h : lkupTurn sb name parent bindex v d w = .fail e d' w') :
    ∃ hParent, parent.hDir bindex = some hParent ∧ d.hDptrI bindex = none ∧
      doLookup sb name hParent d bindex v.allowNeg v.type w = (.error e, d', w') := by
  simp only [lkupTurn] at h
  cases hslot : d.hDptrI bindex with
  | some x =>
      simp only [hslot] at h
      repeat' split at h
      all_goals simp at h
  | none =>
      simp only [hslot] at h
      cases hdir : parent.hDir bindex with
      | none => simp only [hdir] at h; cases h
      | some hParent =>
          refine ⟨hParent, rfl, rfl, ?_⟩
          simp only [hdir] at h
          split at h
          · rename_i hdo
            cases h
            exact hdo
          · split at h
            · cases h
            · split at h
              · cases h
              · split at h
                · cases h
                · split at h <;> cases h

-- ---------------------------------------------------------------------------
-- One branch
-- ---------------------------------------------------------------------------

/-- A slot that is filled and cleared again is what it was, but the ends have moved. -/
theorem Dinfo.enter_clear_iff {b : Int} {h : HDentry} (h0 : 0 ≤ b) (hneg : -1 ≤ d.bstart)
    (hslot : d.hDptrI b = none) :
    (d.enter b h).setHDptr b none = d ↔ d.bstart ≠ -1 ∧ d.bstart ≤ b ∧ b ≤ d.bend := by
  constructor
  · intro he
    have hstart := congrArg Dinfo.bstart he
    have hend := congrArg Dinfo.bend he
    simp only [setHDptr_bstart, setHDptr_bend, enter] at hstart hend
    by_cases hs : d.bstart = -1 ∨ b < d.bstart
    · rw [if_pos hs] at hstart
      omega
    · by_cases hle : d.bend ≤ b
      · rw [if_pos hle] at hend
        omega
      · omega
  · rintro ⟨h₁, h₂, h₃⟩
    rw [hDptrI_of_le (by omega) h₂] at hslot
    have hstart : ¬(d.bstart = -1 ∨ b < d.bstart) := by omega
    have hend : (if d.bend ≤ b then b else d.bend) = d.bend := by
      split <;> omega
    simp only [setHDptr, enter, hend, if_neg hstart, Function.update_idem]
    rw [← hslot, Function.update_eq_self]

/-- A `do_lookup` that fails leaves the dentry as it was exactly where it keeps it. -/
theorem doLookup_error_iff {t : LkupTry} (h0 : 0 ≤ t.bindex) (hneg : -1 ≤ t.d.bstart) (hslot : t.d.hDptrI t.bindex = none)
    (h : doLookup sb name t.hParent t.d t.bindex t.v.allowNeg t.v.type t.w = (.error e, d', w')) :
    d' = t.d ↔ t.Keeps sb name := by
  unfold doLookup at h
  obtain ⟨res, w₁, hwh⟩ : ∃ res w₁, whLookup sb name t.hParent t.bindex t.w = (res, w₁) := ⟨_, _, rfl⟩
  unfold LkupTry.Keeps
  rw [hwh]
  unfold whLookup at hwh
  simp only [hwh] at h
  cases res with
  | error e₁ =>
      simp only [Prod.mk.injEq] at h
      exact iff_of_true h.2.1.symm trivial
  | ok found =>
      dsimp only at h ⊢
      split at h
      · simp at h
      · obtain ⟨res₂, w₂, hone⟩ : ∃ res₂ w₂, lkupOne w₁ t.hParent name = (res₂, w₂) := ⟨_, _, rfl⟩
        rw [hone] at h ⊢
        cases res₂ with
        | error e₂ =>
            simp only [Prod.mk.injEq] at h ⊢
            obtain ⟨-, rfl, -⟩ := h
            cases found with
            | false => exact iff_of_true rfl (by simp)
            | true =>
                simp only [if_true, true_imp_iff]
                constructor
                · intro he
                  exact (congrArg Dinfo.bwh he).symm
                · intro he
                  rw [← he]
        | ok x =>
            -- only the opaque mark is left to fail
            have hopq : ∃ d₁, (found = false) ∧ d₁ = t.d ∧ d' = (d₁.enter t.bindex x).setHDptr t.bindex none := by
              dsimp only at h
              split at h
              · split at h <;> simp at h
              · split at h
                · simp at h
                · rename_i i hi hsame
                  split at h
                  · simp at h
                  · split at h
                    · simp only [Prod.mk.injEq] at h
                      obtain ⟨-, rfl, -⟩ := h
                      cases found with
                      | false => exact ⟨t.d, rfl, rfl, rfl⟩
                      | true => simp at hsame
                    · simp at h
                    · simp at h
            obtain ⟨d₁, -, rfl, rfl⟩ := hopq
            exact Dinfo.enter_clear_iff h0 hneg hslot

-- ---------------------------------------------------------------------------
-- The loop
-- ---------------------------------------------------------------------------

/-- The ends of a dentry are indices or -1, and filled if it was new. -/
structure Dinfo.Bounded (new : Prop) (d : Dinfo) : Prop where
  neg : -1 ≤ d.bstart
  set : new → d.NewOrSet

theorem Dinfo.Bounded.enter {new : Prop} (h : d.Bounded new) {b : Int} (h0 : 0 ≤ b) (x : HDentry) :
    (d.enter b x).Bounded new := by
  have hneg := h.neg
  refine ⟨?_, fun hnew => .inr ?_⟩
  · simp only [Dinfo.enter]
    split <;> omega
  · have hat : (Function.update d.hdentry b (some x) b).isSome := by
      rw [Function.update_self]
      rfl
    have hkeep : ∀ c, (d.hdentry c).isSome → (Function.update d.hdentry b (some x) c).isSome := by
      intro c hc
      by_cases hcb : c = b
      · rwa [hcb]
      · rwa [Function.update_of_ne hcb]
    simp only [Dinfo.enter]
    rcases h.set hnew with ⟨hs, he, -⟩ | ⟨hs, he⟩
    · rw [if_pos (Or.inl hs), if_pos (by omega)]
      exact ⟨hat, hat⟩
    · refine ⟨?_, ?_⟩
      · split
        · exact hat
        · exact hkeep _ hs
      · split
        · exact hat
        · exact hkeep _ he

theorem Dinfo.NewOrSet.endsSet (h : d.NewOrSet) : d.EndsSet := by
  rintro ⟨b, hb⟩
  rcases h with ⟨-, -, hnone⟩ | h
  · rw [hnone] at hb
    cases hb
  · exact h

theorem doLookup_bounded {new : Prop} (h : d.Bounded new) {b : Int} (h0 : 0 ≤ b) {hp : HDentry} {an : Bool}
    {type : Option FType} {r : Option HDentry} (hdo : doLookup sb name hp d b an type w = (.ok r, d', w')) :
    d'.Bounded new := by
  have hbwh : ∀ found : Bool, (if found then { d with bwh := b } else d).Bounded new := by
    intro found
    split <;> exact ⟨h.neg, h.set⟩
  unfold doLookup at hdo
  obtain ⟨res, w₁, hwh⟩ : ∃ res w₁, whLookup sb name hp b w = (res, w₁) := ⟨_, _, rfl⟩
  unfold whLookup at hwh
  simp only [hwh] at hdo
  cases res with
  | error e₁ => simp at hdo
  | ok found =>
    have hd := hbwh found
    dsimp only at hdo
    generalize (if found = true then { d with bwh := b } else d : Dinfo) = d₁ at hd hdo
    split at hdo
    · simp only [Prod.mk.injEq] at hdo
      exact hdo.2.1 ▸ hd
    · split at hdo
      · simp at hdo
      · split at hdo
        · split at hdo
          · simp only [Prod.mk.injEq] at hdo
            exact hdo.2.1 ▸ hd.enter h0 _
          · simp only [Prod.mk.injEq] at hdo
            exact hdo.2.1 ▸ hd
        · split at hdo
          · simp only [Prod.mk.injEq] at hdo
            exact hdo.2.1 ▸ hd
          · split at hdo
            · simp only [Prod.mk.injEq] at hdo
              exact hdo.2.1 ▸ hd.enter h0 _
            · split at hdo
              · simp at hdo
              · simp only [Prod.mk.injEq] at hdo
                have := hd.enter h0 ‹HDentry›
                exact hdo.2.1 ▸ ⟨this.neg, this.set⟩
              · simp only [Prod.mk.injEq] at hdo
                exact hdo.2.1 ▸ hd.enter h0 _

theorem lkupTurn_bounded {new : Prop} (h : d.Bounded new) {b : Int} (h0 : 0 ≤ b) {v v' : LkupVars}
    (ht : lkupTurn sb name parent b v d w = .next v' d' w') : d'.Bounded new := by
  simp only [lkupTurn] at ht
  split at ht
  · rename_i x _
    generalize (if x.positive = true then { v with npositive := v.npositive + 1 } else v : LkupVars) = v₁ at ht
    split at ht
    · simp at ht
    · simp only [LkupTurn.next.injEq] at ht
      exact ht.2.1 ▸ h
  · split at ht
    · simp only [LkupTurn.next.injEq] at ht
      exact ht.2.1 ▸ h
    · split at ht
      · simp at ht
      · rename_i hdo
        have hd := doLookup_bounded h h0 hdo
        split at ht
        · simp at ht
        · split at ht
          · simp only [LkupTurn.next.injEq] at ht
            exact ht.2.1 ▸ hd
          · split at ht
            · simp at ht
            · split at ht
              · simp at ht
              · simp only [LkupTurn.next.injEq] at ht
                exact ht.2.1 ▸ hd

/-- A loop that fails does so at the branch that `lkupFailsAt` tells. -/
theorem lkupLoop_error {new : Prop} {L : List Int} {v : LkupVars} (h0 : ∀ b ∈ L, 0 ≤ b) (hd : d.Bounded new)
    (h : lkupLoop sb name parent L v d w = (.error e, d', w')) :
    ∃ t, lkupFailsAt sb name parent L v d w = some t ∧ 0 ≤ t.bindex ∧ t.d.Bounded new ∧
      t.d.hDptrI t.bindex = none ∧ doLookup sb name t.hParent t.d t.bindex t.v.allowNeg t.v.type t.w = (.error e, d', w') := by
  induction L generalizing v d w with
  | nil => simp [lkupLoop] at h
  | cons b L ih =>
      obtain ⟨hb, h0⟩ := List.forall_mem_cons.mp h0
      rw [lkupLoop_cons] at h
      rw [lkupFailsAt]
      cases ht : lkupTurn sb name parent b v d w with
      | stop n d₁ w₁ => simp [ht] at h
      | next v₁ d₁ w₁ =>
          simp only [ht] at h
          exact ih h0 (lkupTurn_bounded hd hb ht) h
      | fail e₁ d₁ w₁ =>
          simp only [ht, Prod.mk.injEq, Except.error.injEq] at h
          obtain ⟨rfl, rfl, rfl⟩ := h
          obtain ⟨hp, hdir, hslot, hdo⟩ := lkupTurn_fail ht
          simp only [hdir, Option.map_some]
          exact ⟨_, rfl, hb, hd, hslot, hdo⟩

/-- Before the first branch a failure leaves the dentry alone. At a branch it leaves the
dentry as it was before that branch, with both ends filled whenever any slot is, if and only if
the failing lookup is one that keeps it and the ends were filled before; and they were if
the dentry was new or came with its ends filled. -/
theorem lkupDentry_error_iff {bstart : Int} {type : Option FType} (h0 : 0 ≤ bstart) (hneg : -1 ≤ d.bstart)
    (h : lkupDentry sb name parent d bstart type w = (.error e, d', w')) :
    (lkupFails sb name parent bstart type d w = none → d' = d) ∧
      ∀ t, lkupFails sb name parent bstart type d w = some t →
        (d' = t.d ∧ d'.EndsSet ↔ t.Keeps sb name ∧ t.d.EndsSet) ∧ (d.NewOrSet → t.d.EndsSet) := by
  unfold lkupDentry at h
  unfold lkupFails
  split at h
  · rename_i hpfx
    simp only [Prod.mk.injEq] at h
    rw [if_pos hpfx]
    exact ⟨fun _ => h.2.1.symm, by simp⟩
  · rename_i hpfx
    rw [if_neg hpfx]
    rcases halloc : allocWhname name w with ⟨err | x, w₁⟩
    · rw [halloc] at h
      simp only [Prod.mk.injEq] at h
      exact ⟨fun _ => h.2.1.symm, by simp⟩
    · rw [halloc] at h
      dsimp only at h ⊢
      split at h
      · rename_i hloop
        simp only [Prod.mk.injEq, Except.error.injEq] at h
        obtain ⟨rfl, rfl, rfl⟩ := h
        have hL : ∀ b ∈ bindexes bstart parent.dbtaildir, 0 ≤ b := fun b hb =>
          h0.trans (mem_bindexes.mp hb).1
        obtain ⟨t, ht, hb, hbounded, hslot, hdo⟩ :=
          lkupLoop_error hL (⟨hneg, id⟩ : d.Bounded d.NewOrSet) hloop
        have hkeeps := doLookup_error_iff hb hbounded.neg hslot hdo
        simp only [ht]
        refine ⟨by simp, fun t' ht' => ?_⟩
        obtain rfl := Option.some.inj ht'
        refine ⟨⟨fun ⟨he, hends⟩ => ⟨hkeeps.mp he, he ▸ hends⟩, fun ⟨hk, hends⟩ => ?_⟩,
          fun hnew => (hbounded.set hnew).endsSet⟩
        have he := hkeeps.mpr hk
        exact ⟨he, he ▸ hends⟩
      · simp at h

-- ---------------------------------------------------------------------------
-- A new dentry on one branch
-- ---------------------------------------------------------------------------

/-- The mount with one branch. -/
def lkupSb : SuperBlock := .ofBranches [.plain 1 .RW]

/-- The name `a` is looked up in its root directory. -/
def lkupA (w : World) : Except Errno Nat × Dinfo × World :=
  lkupDentry lkupSb [97] (rootDinfo lkupSb w) .alloc 0 none w

/-- The branch at which that fails. -/
def lkupAFails (w : World) : Option LkupTry := lkupFails lkupSb [97] (rootDinfo lkupSb w) 0 none .alloc w

/-- The whiteout of `a` is a directory. -/
def whDirWorld : World := .ofFs fun _ => .ofList [([whName [97]], .dir)]

/-- The file `a` is a directory, and its opaque mark is a directory, too. -/
def markDirWorld : World := .ofFs fun _ => .ofList [([[97]], .dir), ([[97], diropqName], .dir)]

/-- The lookup of the whiteout fails, and the dentry stays new. -/
theorem lkupDentry_error_whDir :
    ∃ d' w', lkupA whDirWorld = (.error Errno.EIO, d', w') ∧
      ((lkupAFails whDirWorld = none → d' = .alloc) ∧
        ∀ t, lkupAFails whDirWorld = some t →
          (d' = t.d ∧ d'.EndsSet ↔ t.Keeps lkupSb [97] ∧ t.d.EndsSet) ∧
            (Dinfo.alloc.NewOrSet → t.d.EndsSet)) := by
  have hrun : lkupA whDirWorld = (.error Errno.EIO, (lkupA whDirWorld).2) := Prod.ext (by decide +kernel) rfl
  exact ⟨_, _, hrun, lkupDentry_error_iff (by decide) (by decide) hrun⟩

/-- The lookup of the opaque mark fails: the dentry was new before that branch, and is left
with both ends at an empty slot. -/
theorem lkupDentry_error_markDir :
    ∃ d' w' t, lkupA markDirWorld = (.error Errno.EIO, d', w') ∧ lkupAFails markDirWorld = some t ∧
      t.d.bstart = -1 ∧ t.d.bend = -1 ∧ d'.bstart = 0 ∧ d'.bend = 0 ∧ d'.hdentry 0 = none := by
  have hrun : lkupA markDirWorld = (.error Errno.EIO, (lkupA markDirWorld).2) :=
    Prod.ext (by decide +kernel) rfl
  obtain ⟨t, ht, hb⟩ := Option.map_eq_some_iff.mp
    (show (lkupAFails markDirWorld).map (fun t => (t.d.bstart, t.d.bend)) = some (-1, -1) by decide +kernel)
  obtain ⟨hs, he⟩ := Prod.mk.inj hb
  exact ⟨_, _, t, hrun, ht, hs, he, by decide +kernel, by decide +kernel, by decide +kernel⟩

end Aufs
