-- SUMMARY: What a fresh lookup finds: lkup_dentry as a search through the layers that the branches make.
import Aufs.Dentry
import Aufs.Listing

/-!
# Fresh lookups

Under one name every branch has a cell: a whiteout that is honoured, a file, an
opaque mark that is honoured. A lookup of a new dentry is the search of
`Lib/Overlay.lean` through these cells, and the dentry information it leaves is
read off the result.
-/

namespace Aufs

open Overlay

variable {sb : SuperBlock} {name : Name} {parent : Dinfo} {w w' : World}

/-- What the branch `b` has under `name` in the directory `parent`. -/
def cellAt (sb : SuperBlock) (w : World) (parent : Dinfo) (name : Name) (b : Int) : Cell HDentry :=
  match parent.hDir b with
  | none => ⟨false, none, false⟩
  | some h =>
    let fs := w.fs h.root
    { mask := sb.sbrIsWhable b && (fs.node (h.path ++ [whName name])).isSome
      entry := (fs.node (h.path ++ [name])).map fun i => ⟨h.root, h.path ++ [name], some i⟩
      opq := sb.sbrIsWhable b && (fs.node (h.path ++ [name] ++ [diropqName])).isSome }

/-- Is the hidden dentry one of a directory? -/
def HDentry.isDir (h : HDentry) : Bool := h.inode.any HInode.isDir

/-- The result of a lookup as dentry information. -/
def Dinfo.ofScan (r : Scan Int HDentry) : Dinfo where
  bstart := (r.slots.head?.map Prod.fst).getD (-1)
  bend := (r.slots.getLast?.map Prod.fst).getD (-1)
  bwh := r.maskAt.getD (-1)
  bdiropq := r.opaqueAt.getD (-1)
  hdentry := fun b => r.slots.lookup b

-- ---------------------------------------------------------------------------
-- One branch
-- ---------------------------------------------------------------------------

theorem lkupOne_ok {hp h : HDentry} (hl : lkupOne w hp name = (.ok h, w')) :
    h = ⟨hp.root, hp.path ++ [name], (w.fs hp.root).node (hp.path ++ [name])⟩ ∧ w' = w.next := by
  unfold lkupOne at hl
  split at hl
  · simp at hl
  · rename_i w1 hw
    obtain ⟨-, rfl⟩ := Prod.mk.inj hw
    split at hl
    · simp at hl
    · simp only [Prod.mk.injEq, Except.ok.injEq] at hl
      exact ⟨hl.1.symm, hl.2.symm⟩

theorem isWh_ok {hp : HDentry} {wh : Name} {found : Bool} (h : isWh w hp wh = (.ok found, w')) :
    found = ((w.fs hp.root).node (hp.path ++ [wh])).isSome ∧ w' = w.next := by
  unfold isWh at h
  split at h
  · simp at h
  · rename_i hd w1 hl
    obtain ⟨rfl, rfl⟩ := lkupOne_ok hl
    dsimp only at h
    split at h
    · rename_i hn
      simp only [Prod.mk.injEq, Except.ok.injEq] at h
      exact ⟨by rw [hn, ← h.1]; rfl, h.2.symm⟩
    · rename_i i hi
      split at h
      · simp only [Prod.mk.injEq, Except.ok.injEq] at h
        exact ⟨by rw [hi, ← h.1]; rfl, h.2.symm⟩
      · simp at h

theorem World.SameFs.next (w : World) : w.SameFs w.next := ⟨rfl, rfl, rfl⟩

/-- The negative hidden dentry of `name` below `hp`. -/
def HDentry.negative (hp : HDentry) (name : Name) : HDentry := ⟨hp.root, hp.path ++ [name], none⟩

/-- What `do_lookup` does to the dentry when it returns no error, by what the branch has. -/
inductive DoLookupCase (c : Cell HDentry) (hp : HDentry) (name : Name) (b : Int) (allowNeg : Bool)
    (type : Option FType) (d : Dinfo) : Option HDentry → Dinfo → Prop where
  | mask {r : Option HDentry} (hm : c.mask = true) (hr : r.bind HDentry.inode = none) :
      DoLookupCase c hp name b allowNeg type d r
        (if allowNeg && c.entry.isNone then { d with bwh := b }.enter b (hp.negative name)
          else { d with bwh := b })
  | absent {r : Option HDentry} (hm : c.mask = false) (he : c.entry = none)
      (hr : r.bind HDentry.inode = none) :
      DoLookupCase c hp name b allowNeg type d r
        (if allowNeg then d.enter b (hp.negative name) else d)
  | otherType {h : HDentry} {i : HInode} (hm : c.mask = false) (he : c.entry = some h)
      (hi : h.inode = some i) (ht : type.any (· ≠ i.mode) = true) :
      DoLookupCase c hp name b allowNeg type d none d
  | found {h : HDentry} {i : HInode} (hm : c.mask = false) (he : c.entry = some h)
      (hi : h.inode = some i) (ht : type.any (· ≠ i.mode) = false) :
      DoLookupCase c hp name b allowNeg type d (some h)
        (if i.isDir && c.opq then { d.enter b h with bdiropq := b } else d.enter b h)

theorem doLookup_ok {hp : HDentry} {d d' : Dinfo} {b : Int} {an : Bool} {type : Option FType}
    {r : Option HDentry} (hhp : parent.hDir b = some hp)
    (h : doLookup sb name hp d b an type w = (.ok r, d', w')) :
    w.SameFs w' ∧ DoLookupCase (cellAt sb w parent name b) hp name b an type d r d' := by
  have hmask : ∀ found w1, (if sb.sbrIsWhable b then isWh w hp (whName name) else (.ok false, w)) =
      (.ok found, w1) → found = (cellAt sb w parent name b).mask ∧ w.SameFs w1 := by
    intro found w1 h1
    simp only [cellAt, hhp]
    split at h1
    · rename_i hwa
      obtain ⟨rfl, rfl⟩ := isWh_ok h1
      exact ⟨by simp [hwa], .next w⟩
    · rename_i hwa
      simp only [Prod.mk.injEq, Except.ok.injEq] at h1
      obtain ⟨rfl, rfl⟩ := h1
      exact ⟨by simp [hwa], .refl w⟩
  unfold doLookup at h
  dsimp only at h
  split at h
  · simp at h
  · rename_i found w1 h1
    obtain ⟨hfound, hs1⟩ := hmask found w1 h1
    split at h
    · -- a whiteout, and a negative dentry is not wanted
      rename_i hf
      simp only [Bool.and_eq_true, Bool.not_eq_eq_eq_not, Bool.not_true] at hf
      simp only [Prod.mk.injEq, Except.ok.injEq] at h
      obtain ⟨rfl, rfl, rfl⟩ := h
      have : DoLookupCase (cellAt sb w parent name b) hp name b an type d none _ :=
        .mask (hfound ▸ hf.1) rfl
      simp only [hf.2, Bool.false_and, Bool.false_eq_true, if_false] at this
      rw [hf.1, if_pos rfl]
      exact ⟨hs1, hf.2 ▸ this⟩
    · rename_i hf
      split at h
      · simp at h
      · rename_i hd w2 h2
        obtain ⟨rfl, rfl⟩ := lkupOne_ok h2
        have hs2 : w.SameFs w1.next := hs1.trans (.next w1)
        have hentry : (cellAt sb w parent name b).entry =
            ((w1.fs hp.root).node (hp.path ++ [name])).map fun i => ⟨hp.root, hp.path ++ [name], some i⟩ := by
          simp only [cellAt, hhp, hs1.fs]
        have hopq : (cellAt sb w parent name b).opq = (sb.sbrIsWhable b &&
            ((w1.fs hp.root).node (hp.path ++ [name] ++ [diropqName])).isSome) := by
          simp only [cellAt, hhp, hs1.fs]
        cases hn : (w1.fs hp.root).node (hp.path ++ [name]) with
        | none =>
            simp only [hn] at h
            rw [hn, Option.map_none] at hentry
            cases an with
            | false =>
                simp only [Bool.false_eq_true, if_false, Prod.mk.injEq, Except.ok.injEq] at h
                obtain ⟨rfl, rfl, rfl⟩ := h
                have hff : found = false := by simpa using hf
                rw [hff] at hfound ⊢
                exact ⟨hs2, .absent hfound.symm hentry rfl⟩
            | true =>
                simp only [if_true, Prod.mk.injEq, Except.ok.injEq] at h
                obtain ⟨rfl, rfl, rfl⟩ := h
                refine ⟨hs2, ?_⟩
                cases found with
                | false => exact .absent hfound.symm hentry rfl
                | true =>
                    have : DoLookupCase (cellAt sb w parent name b) hp name b true type d
                      (some (hp.negative name)) _ := .mask hfound.symm rfl
                    rwa [hentry] at this
        | some i =>
            simp only [hn] at h
            rw [hn, Option.map_some] at hentry
            split at h
            · -- a whiteout, or a file of another type
              rename_i hft
              simp only [Prod.mk.injEq, Except.ok.injEq] at h
              obtain ⟨rfl, rfl, rfl⟩ := h
              refine ⟨hs2, ?_⟩
              cases found with
              | false => exact .otherType hfound.symm hentry rfl (by simpa using hft)
              | true =>
                  have : DoLookupCase (cellAt sb w parent name b) hp name b an type d none _ :=
                    .mask hfound.symm rfl
                  rwa [hentry, Option.isNone_some, Bool.and_false, if_neg Bool.false_ne_true] at this
            · rename_i hft
              simp only [Bool.or_eq_true, not_or, Bool.not_eq_true] at hft
              obtain ⟨rfl, htype⟩ := hft
              have hfoundCase : DoLookupCase (cellAt sb w parent name b) hp name b an type d
                (some ⟨hp.root, hp.path ++ [name], some i⟩) _ := .found hfound.symm hentry rfl htype
              rw [hopq] at hfoundCase
              split at h
              · rename_i hnd
                simp only [Prod.mk.injEq, Except.ok.injEq] at h
                obtain ⟨rfl, rfl, rfl⟩ := h
                refine ⟨hs2, ?_⟩
                have hno : (i.isDir && (sb.sbrIsWhable b && ((w1.fs hp.root).node
                    (hp.path ++ [name] ++ [diropqName])).isSome)) = false := by
                  rw [Bool.or_eq_true, Bool.not_eq_true', Bool.not_eq_true'] at hnd
                  rcases hnd with hnd | hnd <;> simp [hnd]
                rwa [hno, if_neg Bool.false_ne_true] at hfoundCase
              · rename_i hnd
                simp only [Bool.or_eq_true, Bool.not_eq_true', not_or, Bool.not_eq_false] at hnd
                rw [hnd.1, hnd.2, Bool.true_and, Bool.true_and] at hfoundCase
                split at h
                · simp at h
                · rename_i w3 hw3
                  obtain ⟨ho, rfl⟩ := isWh_ok hw3
                  simp only [Prod.mk.injEq, Except.ok.injEq] at h
                  obtain ⟨rfl, rfl, rfl⟩ := h
                  have ho : true = ((w1.fs hp.root).node (hp.path ++ [name] ++ [diropqName])).isSome := ho
                  refine ⟨hs2.trans (.next _), ?_⟩
                  rwa [if_pos ho.symm] at hfoundCase
                · rename_i w3 hw3
                  obtain ⟨ho, rfl⟩ := isWh_ok hw3
                  simp only [Prod.mk.injEq, Except.ok.injEq] at h
                  obtain ⟨rfl, rfl, rfl⟩ := h
                  have ho : false = ((w1.fs hp.root).node (hp.path ++ [name] ++ [diropqName])).isSome := ho
                  refine ⟨hs2.trans (.next _), ?_⟩
                  rwa [← ho, if_neg Bool.false_ne_true] at hfoundCase

-- ---------------------------------------------------------------------------
-- The loop
-- ---------------------------------------------------------------------------

/-- The slots `acc` were filled, without a whiteout or an opaque directory. -/
def Dinfo.ofSlots (acc : List (Int × HDentry)) : Dinfo := .ofScan ⟨acc, none, none⟩

theorem lookup_eq_none {acc : List (Int × HDentry)} {b : Int} (h : ∀ e ∈ acc, e.1 ≠ b) :
    acc.lookup b = none := by
  rw [List.lookup_eq_none_iff]
  intro e he
  simpa using (h e he).symm

theorem hDptrI_ofSlots {acc : List (Int × HDentry)} {b : Int} (h : ∀ e ∈ acc, e.1 < b) :
    (Dinfo.ofSlots acc).hDptrI b = none := by
  unfold Dinfo.hDptrI
  split
  · rfl
  · exact lookup_eq_none fun e he => (h e he).ne

theorem enter_ofSlots {acc : List (Int × HDentry)} {b : Int} {h : HDentry} (h0 : 0 ≤ b)
    (hacc : ∀ e ∈ acc, 0 ≤ e.1 ∧ e.1 < b) :
    (Dinfo.ofSlots acc).enter b h = .ofSlots (acc ++ [(b, h)]) := by
  have hslots : Function.update (fun c => acc.lookup c) b (some h) = fun c => (acc ++ [(b, h)]).lookup c := by
    funext c
    rw [List.lookup_append]
    by_cases hc : c = b
    · rw [hc, Function.update_self, lookup_eq_none fun e he => (hacc e he).2.ne]
      simp
    · have : ([(b, h)] : List (Int × HDentry)).lookup c = none := lookup_eq_none (by simpa using Ne.symm hc)
      rw [Function.update_of_ne hc, this, Option.or_none]
  have hstart : ∀ s : Int, (acc.head?.map Prod.fst).getD (-1) = s →
      (if s = -1 ∨ b < s then b else s) = ((acc ++ [(b, h)]).head?.map Prod.fst).getD (-1) := by
    intro s hs
    cases acc with
    | nil =>
        rw [if_pos (.inl hs.symm)]
        rfl
    | cons e acc =>
        have := hacc e List.mem_cons_self
        have hs : e.1 = s := hs
        rw [if_neg (by omega)]
        exact hs.symm
  have hend : ∀ s : Int, (acc.getLast?.map Prod.fst).getD (-1) = s →
      (if s ≤ b then b else s) = ((acc ++ [(b, h)]).getLast?.map Prod.fst).getD (-1) := by
    rintro _ rfl
    rw [List.getLast?_append, List.getLast?_singleton, Option.some_or, Option.map_some, Option.getD_some]
    cases hl : acc.getLast? with
    | none =>
        simp only [Option.map_none, Option.getD_none]
        rw [if_pos (by omega)]
    | some e =>
        have := hacc e (List.mem_of_getLast? hl)
        simp only [Option.map_some, Option.getD_some]
        rw [if_pos (by omega)]
  exact Dinfo.mk.injEq .. |>.mpr ⟨hstart _ rfl, hend _ rfl, rfl, rfl, hslots⟩

theorem isDir_of_mode {h : HDentry} {i : HInode} (hi : h.inode = some i) : h.isDir = i.isDir := by
  simp [HDentry.isDir, hi]

/-- Every entry of a cell is positive. -/
theorem inode_of_entry {b : Int} {h : HDentry} (he : (cellAt sb w parent name b).entry = some h) :
    ∃ i, h.inode = some i := by
  unfold cellAt at he
  split at he
  · simp at he
  · obtain ⟨i, -, rfl⟩ := Option.map_eq_some_iff.mp he
    exact ⟨i, rfl⟩

theorem cellAt_of_sameFs (sb : SuperBlock) (parent : Dinfo) (name : Name) (hs : w.SameFs w') (b : Int) :
    cellAt sb w' parent name b = cellAt sb w parent name b := by
  simp only [cellAt, hs.fs]

theorem cellAt_of_no_dir (sb : SuperBlock) (w : World) (name : Name) {b : Int} (h : parent.hDir b = none) :
    cellAt sb w parent name b = ⟨false, none, false⟩ := by
  simp only [cellAt, h]

/-- The slots found so far lie above the branches that are left. -/
def Above (acc : List (Int × HDentry)) (L : List Int) : Prop :=
  ∀ b ∈ L, 0 ≤ b ∧ ∀ e ∈ acc, 0 ≤ e.1 ∧ e.1 < b

theorem Above.tail {acc : List (Int × HDentry)} {b : Int} {L : List Int} (h : Above acc (b :: L)) :
    Above acc L := fun c hc => h c (List.mem_cons_of_mem b hc)

theorem Above.append {acc : List (Int × HDentry)} {b : Int} {L : List Int} {x : HDentry}
    (h : Above acc (b :: L)) (hb : ∀ c ∈ L, b < c) : Above (acc ++ [(b, x)]) L := by
  intro c hc
  obtain ⟨h0, hacc⟩ := h c (List.mem_cons_of_mem b hc)
  refine ⟨h0, fun e he => ?_⟩
  rcases List.mem_append.mp he with he | he
  · exact hacc e he
  · obtain rfl := List.mem_singleton.mp he
    exact ⟨(h b List.mem_cons_self).1, hb c hc⟩

/-- The loop after a directory was found. -/
theorem lkupLoop_dirs {L : List Int} {acc : List (Int × HDentry)} {np n : Nat} {d' : Dinfo}
    (hL : L.Pairwise (· < ·)) (hacc : Above acc L)
    (h : lkupLoop sb name parent L ⟨false, some .dir, np⟩ (.ofSlots acc) w = (.ok n, d', w')) :
    w.SameFs w' ∧ n = np + (Scan.dirs HDentry.isDir (cellAt sb w parent name) L).slots.length ∧
      d' = .ofScan ((Scan.dirs HDentry.isDir (cellAt sb w parent name) L).prepend acc) := by
  induction L generalizing acc np w with
  | nil =>
      simp only [lkupLoop, Prod.mk.injEq, Except.ok.injEq] at h
      obtain ⟨rfl, rfl, rfl⟩ := h
      exact ⟨.refl w, rfl, by simp [Scan.dirs, Scan.prepend, Dinfo.ofSlots]⟩
  | cons b L ih =>
      obtain ⟨hb, hL'⟩ := List.pairwise_cons.mp hL
      obtain ⟨h0, hlt⟩ := hacc b List.mem_cons_self
      rw [lkupLoop, hDptrI_ofSlots fun e he => (hlt e he).2] at h
      dsimp only at h
      split at h
      · rename_i hno
        obtain ⟨h1, h2, h3⟩ := ih hL' hacc.tail h
        have hcell := cellAt_of_no_dir sb w name hno
        refine ⟨h1, ?_, ?_⟩
        · rw [h2, Scan.dirs, hcell]
          rfl
        · rw [h3, Scan.dirs, hcell]
          rfl
      · rename_i hp hhp
        split at h
        · simp at h
        · rename_i r d1 w1 hdo
          obtain ⟨hs1, hc⟩ := doLookup_ok hhp hdo
          have hcells := fun c => cellAt_of_sameFs sb parent name hs1 c
          cases hc with
          | mask hm hr =>
              simp only [Bool.false_and, Bool.false_eq_true, if_false] at h
              rw [if_pos (show b ≠ -1 by omega)] at h
              simp only [Prod.mk.injEq, Except.ok.injEq] at h
              obtain ⟨rfl, rfl, rfl⟩ := h
              refine ⟨hs1, by simp [Scan.dirs, hm], ?_⟩
              rw [Scan.dirs, if_pos hm]
              simp [Scan.prepend, Dinfo.ofSlots, Dinfo.ofScan]
          | absent hm he hr =>
              simp only [Bool.false_eq_true, if_false] at h
              rw [if_neg (by simp [Dinfo.ofSlots, Dinfo.ofScan])] at h
              simp only [hr] at h
              obtain ⟨h1, h2, h3⟩ := ih hL' hacc.tail h
              rw [Scan.dirs_congr fun c _ => hcells c] at h2 h3
              rw [Scan.dirs, if_neg (by simp [hm]), he]
              exact ⟨hs1.trans h1, h2, h3⟩
          | @otherType hd i hm he hi ht =>
              rw [if_neg (by simp [Dinfo.ofSlots, Dinfo.ofScan])] at h
              simp only [Option.bind_none] at h
              obtain ⟨h1, h2, h3⟩ := ih hL' hacc.tail h
              rw [Scan.dirs_congr fun c _ => hcells c] at h2 h3
              have hmode : i.mode ≠ .dir := fun hm => by simp [hm] at ht
              have hnd : hd.isDir = false := by simp [isDir_of_mode hi, HInode.isDir, hmode]
              rw [Scan.dirs, if_neg (by simp [hm]), he]
              simp only [hnd, Bool.false_eq_true, if_false]
              exact ⟨hs1.trans h1, h2, h3⟩
          | @found hd i hm he hi ht =>
              have hmode : i.mode = .dir := by
                by_contra hne
                simp [Ne.symm hne] at ht
              have hd' : hd.isDir = true := by rw [isDir_of_mode hi]; simp [HInode.isDir, hmode]
              rw [enter_ofSlots h0 hlt] at h
              rw [Scan.dirs, if_neg (by simp [hm]), he]
              simp only [hd', if_true]
              cases ho : (cellAt sb w parent name b).opq with
              | true =>
                  simp only [HInode.isDir, hmode, ho, decide_true, Bool.and_self, if_true,
                    Option.bind_some, hi] at h
                  rw [if_neg (by simp [Dinfo.ofSlots, Dinfo.ofScan])] at h
                  simp only [Option.getD_some, ne_eq, not_true_eq_false, if_false] at h
                  rw [if_pos (show b ≠ -1 by omega)] at h
                  simp only [Prod.mk.injEq, Except.ok.injEq] at h
                  obtain ⟨rfl, rfl, rfl⟩ := h
                  exact ⟨hs1, rfl, by simp [Scan.prepend, Dinfo.ofSlots, Dinfo.ofScan]⟩
              | false =>
                  simp only [HInode.isDir, hmode, ho, decide_true, Bool.and_false, Bool.false_eq_true,
                    if_false, Option.bind_some, hi] at h
                  rw [if_neg (by simp [Dinfo.ofSlots, Dinfo.ofScan])] at h
                  simp only [Option.getD_some, ne_eq, not_true_eq_false, if_false] at h
                  rw [if_neg (by simp [Dinfo.ofSlots, Dinfo.ofScan])] at h
                  obtain ⟨h1, h2, h3⟩ := ih hL' (hacc.append hb) h
                  rw [Scan.dirs_congr fun c _ => hcells c] at h2 h3
                  refine ⟨hs1.trans h1, ?_, ?_⟩
                  · rw [h2]
                    simp only [Bool.false_eq_true, if_false, Scan.cons_slots, List.length_cons]
                    omega
                  · rw [h3]
                    simp only [Bool.false_eq_true, if_false, Scan.prepend_cons]

/-- The negative dentry that a lookup leaves in the first branch with the directory. -/
def negSlot (sb : SuperBlock) (w : World) (parent : Dinfo) (name : Name) : List Int → List (Int × HDentry)
  | [] => []
  | b :: bs =>
    match parent.hDir b with
    | none => negSlot sb w parent name bs
    | some hp => if (cellAt sb w parent name b).entry.isNone then [(b, hp.negative name)] else []

theorem negSlot_of_sameFs (hs : w.SameFs w') (L : List Int) :
    negSlot sb w' parent name L = negSlot sb w parent name L := by
  induction L with
  | nil => rfl
  | cons b L ih => simp only [negSlot, ih, cellAt_of_sameFs sb parent name hs]

/-- The loop until something is found. -/
theorem lkupLoop_search {L : List Int} {acc : List (Int × HDentry)} {an : Bool} {n : Nat} {d' : Dinfo}
    (hL : L.Pairwise (· < ·)) (hacc : Above acc L)
    (h : lkupLoop sb name parent L ⟨an, none, 0⟩ (.ofSlots acc) w = (.ok n, d', w')) :
    w.SameFs w' ∧ n = (Scan.search HDentry.isDir (cellAt sb w parent name) L).slots.length ∧
      d' = .ofScan ((Scan.search HDentry.isDir (cellAt sb w parent name) L).prepend
        (acc ++ if an then negSlot sb w parent name L else [])) := by
  induction L generalizing acc an w with
  | nil =>
      simp only [lkupLoop, Prod.mk.injEq, Except.ok.injEq] at h
      obtain ⟨rfl, rfl, rfl⟩ := h
      exact ⟨.refl w, rfl, by simp [Scan.search, Scan.prepend, Dinfo.ofSlots, negSlot]⟩
  | cons b L ih =>
      obtain ⟨hb, hL'⟩ := List.pairwise_cons.mp hL
      obtain ⟨h0, hlt⟩ := hacc b List.mem_cons_self
      rw [lkupLoop, hDptrI_ofSlots fun e he => (hlt e he).2] at h
      dsimp only at h
      split at h
      · rename_i hno
        obtain ⟨h1, h2, h3⟩ := ih hL' hacc.tail h
        have hcell := cellAt_of_no_dir sb w name hno
        refine ⟨h1, ?_, ?_⟩
        · rw [h2, Scan.search, hcell]
          rfl
        · rw [h3, Scan.search, hcell, negSlot, hno]
          rfl
      · rename_i hp hhp
        split at h
        · simp at h
        · rename_i r d1 w1 hdo
          obtain ⟨hs1, hc⟩ := doLookup_ok hhp hdo
          have hcells := fun c => cellAt_of_sameFs sb parent name hs1 c
          cases hc with
          | mask hm hr =>
              rw [Scan.search, if_pos hm, negSlot, hhp]
              dsimp only
              by_cases hneg : (an && (cellAt sb w parent name b).entry.isNone) = true
              · simp only [hneg, if_true] at h
                rw [if_pos (show (Dinfo.enter { Dinfo.ofSlots acc with bwh := b } b
                  (hp.negative name)).bwh ≠ -1 by simp only [Dinfo.enter]; omega)] at h
                simp only [Prod.mk.injEq, Except.ok.injEq] at h
                obtain ⟨rfl, rfl, rfl⟩ := h
                simp only [Bool.and_eq_true] at hneg
                refine ⟨hs1, rfl, ?_⟩
                have henter := enter_ofSlots (h := hp.negative name) h0 hlt
                simp only [hneg.1, hneg.2, if_true, Scan.prepend, List.append_nil]
                calc Dinfo.enter { Dinfo.ofSlots acc with bwh := b } b (hp.negative name)
                    = { (Dinfo.ofSlots acc).enter b (hp.negative name) with bwh := b } := rfl
                  _ = { Dinfo.ofSlots (acc ++ [(b, hp.negative name)]) with bwh := b } := by rw [henter]
              · simp only [hneg, if_false, Bool.false_eq_true] at h
                rw [if_pos (show b ≠ -1 by omega)] at h
                simp only [Prod.mk.injEq, Except.ok.injEq] at h
                obtain ⟨rfl, rfl, rfl⟩ := h
                have hnone : (if an then if (cellAt sb w parent name b).entry.isNone then
                    [(b, hp.negative name)] else [] else []) = [] := by
                  cases an with
                  | false => rfl
                  | true => simpa using hneg
                exact ⟨hs1, rfl, by rw [hnone, List.append_nil, Scan.prepend, List.append_nil]; rfl⟩
          | absent hm he hr =>
              have hneg : (if an then (Dinfo.ofSlots acc).enter b (hp.negative name) else .ofSlots acc) =
                  .ofSlots (acc ++ if an then negSlot sb w parent name (b :: L) else []) := by
                cases an with
                | false => simp
                | true => simp [negSlot, hhp, he, enter_ofSlots h0 hlt]
              rw [hneg] at h
              rw [if_neg (by simp [Dinfo.ofSlots, Dinfo.ofScan])] at h
              simp only [hr] at h
              have habove : Above (acc ++ if an then negSlot sb w parent name (b :: L) else []) L := by
                cases an with
                | false => simpa using hacc.tail
                | true => simpa [negSlot, hhp, he] using hacc.append hb
              obtain ⟨h1, h2, h3⟩ := ih hL' habove h
              rw [Scan.search_congr fun c _ => hcells c] at h2 h3
              rw [Scan.search, if_neg (by simp [hm]), he]
              refine ⟨hs1.trans h1, h2, ?_⟩
              rw [h3, if_neg Bool.false_ne_true, List.append_nil]
          | @otherType hd i hm he hi ht => simp at ht
          | @found hd i hm he hi ht =>
              have hnone : (if an then negSlot sb w parent name (b :: L) else []) = [] := by
                cases an with
                | false => rfl
                | true => simp [negSlot, hhp, he]
              rw [hnone, List.append_nil]
              rw [enter_ofSlots h0 hlt] at h
              rw [Scan.search, if_neg (by simp [hm]), he]
              simp only [isDir_of_mode hi]
              cases hdir : i.isDir with
              | false =>
                  have hmode : i.mode ≠ .dir := by simpa [HInode.isDir] using hdir
                  simp only [hdir, Bool.false_and, Bool.false_eq_true, if_false, Option.bind_some, hi] at h
                  rw [if_neg (by simp [Dinfo.ofSlots, Dinfo.ofScan])] at h
                  simp only [Option.getD_none] at h
                  rw [if_pos (by simpa using hmode)] at h
                  simp only [Prod.mk.injEq, Except.ok.injEq] at h
                  obtain ⟨rfl, rfl, rfl⟩ := h
                  exact ⟨hs1, rfl, by simp [Scan.prepend, Dinfo.ofSlots]⟩
              | true =>
                  have hmode : i.mode = .dir := by simpa [HInode.isDir] using hdir
                  simp only [if_true]
                  cases ho : (cellAt sb w parent name b).opq with
                  | true =>
                      simp only [hdir, ho, Bool.and_self, if_true, Option.bind_some, hi] at h
                      rw [if_neg (by simp [Dinfo.ofSlots, Dinfo.ofScan])] at h
                      simp only [Option.getD_none, hmode, ne_eq, not_true_eq_false, if_false] at h
                      rw [if_pos (show b ≠ -1 by omega)] at h
                      simp only [Prod.mk.injEq, Except.ok.injEq] at h
                      obtain ⟨rfl, rfl, rfl⟩ := h
                      exact ⟨hs1, rfl, by simp [Scan.prepend, Dinfo.ofSlots, Dinfo.ofScan]⟩
                  | false =>
                      simp only [hdir, ho, Bool.and_false, Bool.false_eq_true, if_false,
                        Option.bind_some, hi] at h
                      rw [if_neg (by simp [Dinfo.ofSlots, Dinfo.ofScan])] at h
                      simp only [Option.getD_none, hmode, ne_eq, not_true_eq_false, if_false] at h
                      rw [if_neg (by simp [Dinfo.ofSlots, Dinfo.ofScan])] at h
                      obtain ⟨h1, h2, h3⟩ := lkupLoop_dirs hL' (hacc.append hb) h
                      rw [Scan.dirs_congr fun c _ => hcells c] at h2 h3
                      refine ⟨hs1.trans h1, ?_, ?_⟩
                      · rw [h2]
                        simp only [Bool.false_eq_true, if_false, Scan.cons_slots, List.length_cons]
                        omega
                      · rw [h3]
                        simp only [Bool.false_eq_true, if_false, Scan.prepend_cons]

-- ---------------------------------------------------------------------------
-- A new dentry
-- ---------------------------------------------------------------------------

theorem negSlot_cases (sb : SuperBlock) (w : World) (parent : Dinfo) (name : Name) {L : List Int} (hL : L.Pairwise (· < ·)) :
    negSlot sb w parent name L = [] ∨
      ∃ (b : Int) (hp : HDentry), negSlot sb w parent name L = [(b, hp.negative name)] ∧
      b ∈ L ∧ ∀ e ∈ (Scan.search HDentry.isDir (cellAt sb w parent name) L).slots, b < e.1 := by
  induction L with
  | nil => exact .inl rfl
  | cons b L ih =>
      obtain ⟨hb, hL⟩ := List.pairwise_cons.mp hL
      have hlater : ∀ e ∈ (Scan.search HDentry.isDir (cellAt sb w parent name) L).slots, b < e.1 :=
        fun e he => hb e.1 ((Scan.search_sublist _ _ L).subset (List.mem_map_of_mem he))
      rw [negSlot]
      split
      · rename_i hno
        have hcell := cellAt_of_no_dir sb w name hno
        refine (ih hL).imp_right ?_
        rintro ⟨c, hp, h, hc, hlt⟩
        refine ⟨c, hp, h, List.mem_cons_of_mem b hc, ?_⟩
        rw [Scan.search, hcell]
        exact hlt
      · rename_i hp hhp
        split
        · rename_i he
          rw [Option.isNone_iff_eq_none] at he
          refine .inr ⟨b, hp, rfl, List.mem_cons_self, ?_⟩
          rw [Scan.search]
          split
          · simp
          · rw [he]
            exact hlater
        · exact .inl rfl

theorem hdentry_ofScan (r : Scan Int HDentry) (b : Int) : (Dinfo.ofScan r).hdentry b = r.slots.lookup b := rfl

/-- The negative slots in front of the first positive one are dropped. -/
theorem updateDbstart_ofScan {r : Scan Int HDentry} {neg : List (Int × HDentry)} (hr : r.slots ≠ [])
    (hkeys : ((neg ++ r.slots).map Prod.fst).Pairwise (· < ·)) (h0 : ∀ e ∈ neg ++ r.slots, 0 ≤ e.1)
    (hneg : ∀ e ∈ neg, e.2.positive = false) (hpos : ∀ e ∈ r.slots, e.2.positive) :
    (Dinfo.ofScan (r.prepend neg)).updateDbstart = .ofScan r := by
  obtain ⟨⟨m, h⟩, rest, hrest⟩ := List.exists_cons_of_ne_nil hr
  have hmem : (m, h) ∈ r.slots := by rw [hrest]; exact List.mem_cons_self
  rw [List.pairwise_map, List.pairwise_append] at hkeys
  obtain ⟨hkneg, hkpos, hlt⟩ := hkeys
  have hfirst : ∀ e ∈ r.slots, m ≤ e.1 := by
    intro e he
    rw [hrest] at he hkpos
    rcases List.mem_cons.mp he with rfl | he
    · exact le_rfl
    · exact (List.rel_of_pairwise_cons hkpos he).le
  have hslot : ∀ b, (Dinfo.ofScan (r.prepend neg)).hdentry b = (neg.lookup b).or (r.slots.lookup b) := by
    intro b
    rw [hdentry_ofScan, Scan.prepend_slots, List.lookup_append]
  have hnegm : ∀ b, m ≤ b → neg.lookup b = none := fun b hb =>
    lookup_eq_none fun e he => ((hlt e he _ hmem).trans_le hb).ne
  have hposm : ∀ b, b < m → r.slots.lookup b = none := fun b hb =>
    lookup_eq_none fun e he => (hb.trans_le (hfirst e he)).ne'
  have hstart : 0 ≤ (Dinfo.ofScan (r.prepend neg)).bstart ∧
      ∀ e ∈ neg ++ r.slots, (Dinfo.ofScan (r.prepend neg)).bstart ≤ e.1 := by
    simp only [Dinfo.ofScan, Scan.prepend_slots]
    cases neg with
    | nil => simpa [hrest] using ⟨h0 (m, h) (by simpa using hmem), by simpa [hrest] using hfirst⟩
    | cons e neg =>
        refine ⟨h0 e (by simp), fun k hk => ?_⟩
        simp only [List.cons_append, List.head?_cons, Option.map_some, Option.getD_some]
        rcases List.mem_append.mp hk with hk | hk
        · rcases List.mem_cons.mp hk with rfl | hk
          · exact le_rfl
          · exact (List.rel_of_pairwise_cons hkneg hk).le
        · exact (hlt e List.mem_cons_self k hk).le
  have hend : (Dinfo.ofScan (r.prepend neg)).bend = (Dinfo.ofScan r).bend := by
    simp only [Dinfo.ofScan, Scan.prepend_slots, List.getLast?_append]
    rw [List.getLast?_eq_getLast_of_ne_nil hr, Option.some_or]
  have hm : (Dinfo.ofScan (r.prepend neg)).positiveAt m := by
    rw [Dinfo.positiveAt, Dinfo.hDptrI_of_le hstart.1 (hstart.2 _ (List.mem_append_right _ hmem)), hslot,
      hnegm m le_rfl, hrest]
    simpa using hpos _ hmem
  rw [Dinfo.updateDbstart_of_positive (m := m) hstart.1 hm]
  · rw [hend]
    refine Dinfo.mk.injEq .. |>.mpr ⟨by simp [hrest], rfl, rfl, rfl, funext fun b => ?_⟩
    rw [hslot]
    by_cases hb : b < m
    · rw [hposm b hb]
      split
      · rfl
      · rename_i hlow
        rw [lookup_eq_none, Option.none_or]
        intro e he hbe
        exact hlow ⟨hbe ▸ hstart.2 e (List.mem_append_left _ he), hb⟩
    · rw [if_neg fun hx => hb hx.2, hnegm b (not_lt.mp hb), Option.none_or]
  · have hlast := List.getLast_mem hr
    rw [hend]
    simp only [Dinfo.ofScan, List.getLast?_eq_getLast_of_ne_nil hr, Option.map_some, Option.getD_some]
    exact hfirst _ hlast
  · intro c hc
    by_cases hcs : (Dinfo.ofScan (r.prepend neg)).bstart ≤ c
    · rw [Dinfo.positiveAt, Dinfo.hDptrI_of_le hstart.1 hcs, hslot, hposm c hc, Option.or_none]
      cases hl : neg.lookup c with
      | none => rfl
      | some x =>
          have : (c, x) ∈ neg := by
            obtain ⟨l₁, l₂, heq, -⟩ := List.lookup_eq_some_iff.mp hl
            simp [heq]
          exact hneg _ this
    · rw [Dinfo.positiveAt, Dinfo.hDptrI, if_pos (.inr (not_le.mp hcs))]
      rfl

/-- The search that a lookup of `name` in `parent` makes. -/
def Dinfo.scan (sb : SuperBlock) (w : World) (parent : Dinfo) (name : Name) : Scan Int HDentry :=
  .search HDentry.isDir (cellAt sb w parent name) (bindexes parent.bstart parent.dbtaildir)

theorem alloc_eq_ofSlots : Dinfo.alloc = .ofSlots [] := rfl

theorem scan_sorted : ((parent.scan sb w name).slots.map Prod.fst).Pairwise (· < ·) :=
  (bindexes_sorted _ _).sublist (Scan.search_sublist _ _ _)

theorem scan_range {e : Int × HDentry} (he : e ∈ (parent.scan sb w name).slots) :
    parent.bstart ≤ e.1 ∧ e.1 ≤ parent.dbtaildir :=
  mem_bindexes.mp ((Scan.search_sublist _ _ _).subset (List.mem_map_of_mem he))

theorem scan_positive {e : Int × HDentry} (he : e ∈ (parent.scan sb w name).slots) : e.2.positive := by
  obtain ⟨i, hi⟩ := inode_of_entry (Scan.entry_of_mem_search he).2
  simp [HDentry.positive, hi]

/-- A lookup that returns no error is its loop and the search for the first positive slot. -/
theorem lkupDentry_ok {d d' : Dinfo} {bstart : Int} {type : Option FType} {n : Nat}
    (h : lkupDentry sb name parent d bstart type w = (.ok n, d', w')) :
    ∃ w1 d1, w.SameFs w1 ∧ lkupLoop sb name parent (bindexes bstart parent.dbtaildir)
        ⟨type.isNone, type, 0⟩ d w1 = (.ok n, d1, w') ∧
      d' = if n ≠ 0 then d1.updateDbstart else d1 := by
  unfold lkupDentry at h
  split at h
  · simp at h
  · split at h
    · simp at h
    · rename_i wh w1 hal
      have hs : w.SameFs w1 := by
        unfold allocWhname at hal
        split at hal
        · simp at hal
        · split at hal
          · simp at hal
          · rename_i w2 hw2
            obtain ⟨-, rfl⟩ := Prod.mk.inj hw2
            simp only [Prod.mk.injEq] at hal
            exact hal.2 ▸ .next w
      split at h
      · simp at h
      · rename_i n1 d1 w2 hloop
        simp only [Prod.mk.injEq, Except.ok.injEq] at h
        obtain ⟨rfl, rfl, rfl⟩ := h
        exact ⟨w1, d1, hs, hloop, rfl⟩

/-- What the lookup of a new dentry leaves. -/
theorem lkupDentry_fresh {np : Nat} {d' : Dinfo} (h0 : 0 ≤ parent.bstart)
    (h : lkupDentry sb name parent .alloc parent.bstart none w = (.ok np, d', w')) :
    w.SameFs w' ∧ np = (parent.scan sb w name).slots.length ∧
      d' = if np ≠ 0 then .ofScan (parent.scan sb w name)
        else .ofScan ((parent.scan sb w name).prepend
          (negSlot sb w parent name (bindexes parent.bstart parent.dbtaildir))) := by
  obtain ⟨w1, d1, hs, hloop, rfl⟩ := lkupDentry_ok h
  rw [alloc_eq_ofSlots] at hloop
  obtain ⟨h1, h2, h3⟩ := lkupLoop_search (bindexes_sorted parent.bstart parent.dbtaildir)
    (fun b hb => ⟨h0.trans (mem_bindexes.mp hb).1, by simp⟩) hloop
  have hcells := fun c => cellAt_of_sameFs sb parent name hs c
  rw [Scan.search_congr fun c _ => hcells c] at h2 h3
  simp only [Option.isNone_none, if_true, List.nil_append, negSlot_of_sameFs hs] at h3
  refine ⟨hs.trans h1, h2, ?_⟩
  by_cases hn : np = 0
  · simp only [hn, ne_eq, not_true_eq_false, if_false]
    exact h3
  · rw [if_pos hn, if_pos hn, h3]
    have hne : (parent.scan sb w name).slots ≠ [] := by
      rintro hnil
      rw [Dinfo.scan] at hnil
      simp [hnil] at h2
      exact hn h2
    obtain hneg | ⟨b, hp, hneg, hb, hlt⟩ := negSlot_cases sb w parent name
      (bindexes_sorted parent.bstart parent.dbtaildir)
    · rw [hneg]
      exact updateDbstart_ofScan hne scan_sorted (fun e he => h0.trans (scan_range he).1) (by simp)
        fun e he => scan_positive he
    · rw [hneg]
      refine updateDbstart_ofScan hne ?_ ?_ (by simp [HDentry.positive, HDentry.negative])
        fun e he => scan_positive he
      · rw [List.singleton_append, List.map_cons, List.pairwise_cons]
        refine ⟨fun k hk => ?_, scan_sorted⟩
        obtain ⟨e, he, rfl⟩ := List.mem_map.mp hk
        exact hlt e he
      · intro e he
        rcases List.mem_append.mp he with he | he
        · obtain rfl := List.mem_singleton.mp he
          exact h0.trans (mem_bindexes.mp hb).1
        · exact h0.trans (scan_range he).1

end Aufs
