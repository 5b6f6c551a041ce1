-- SUMMARY: The memory of a vdir: its array of pointers and its blocks in a heap, and what append_de leaves in it (vdir.c, misc.c).
import Aufs.DeblkBytes
import Aufs.Lib.Cells
import Aufs.Lib.Kheap

/-!
# The memory of a vdir

The blocks of a `vdir` are allocated one by one, and an array holds the pointers to them.
Any allocation may fail. The array is allocated anew when it is too small for one pointer
more; what is allocated and not yet written holds anything.
-/

namespace Aufs

open ByteFile Records

-- ---------------------------------------------------------------------------
-- Memory
-- ---------------------------------------------------------------------------

/-- What is allocated: a block, or an array of pointers as long as `ksize` says. -/
inductive Chunk where
  | deblk (bytes : List UInt8)
  | ptrs (slots : List (Option Nat))

/-- Does the `n`-th allocation fail, what does a block hold that it returns, and which slots has an array beyond the
size that was asked for? -/
structure KmallocEnv where
  fails : Nat → Bool
  garbage : Nat → Nat → UInt8
  spare : Nat → List (Option Nat)

/-- The heap, and the allocations so far. -/
structure Kmem where
  heap : Kheap Chunk
  tick : Nat

namespace Kmem

/-- The bytes of a block. -/
def deblkAt (m : Kmem) (a : Nat) : Option (List UInt8) :=
  match m.heap.cell a with
  | some (.deblk b) => some b
  | _ => none

/-- The slots of an array. -/
def slotsAt (m : Kmem) (a : Nat) : List (Option Nat) :=
  match m.heap.cell a with
  | some (.ptrs l) => l
  | _ => []

/-- An allocation whose cell is not of interest. -/
def ask (e : KmallocEnv) (m : Kmem) : Bool × Kmem := (e.fails m.tick, { m with tick := m.tick + 1 })

/-- `kmalloc(AUFS_DEBLK_SIZE)` -/
def kmallocDeblk (e : KmallocEnv) (m : Kmem) : Option Nat × Kmem :=
  if e.fails m.tick then (none, { m with tick := m.tick + 1 })
  else
    let r := m.heap.kmalloc (.deblk ((List.range deblkSize).map (e.garbage m.tick)))
    (some r.1, { heap := r.2, tick := m.tick + 1 })

/-- `kfree` -/
def kfree (m : Kmem) (p : Option Nat) : Kmem := { m with heap := m.heap.kfree p }

/-- `au_kzrealloc` of an array, with sizes in pointers. -/
def auKzrealloc (e : KmallocEnv) (m : Kmem) (p nused newSz : Nat) : Option Nat × Kmem :=
  match Cells.kzrealloc (!e.fails m.tick) none (m.slotsAt p) nused newSz with
  | none => (none, { m with tick := m.tick + 1 })
  | some l =>
    if newSz ≤ nused then (some p, m)
    else if newSz ≤ (m.slotsAt p).length then (some p, { m with heap := m.heap.store p (.ptrs l) })
    else
      let r := m.heap.kmalloc (.ptrs (l ++ e.spare m.tick))
      (some r.1, { heap := r.2.kfree (some p), tick := m.tick + 1 })

/-- Write a slot of an array. -/
def setSlot (m : Kmem) (p i : Nat) (x : Option Nat) : Kmem :=
  if i < (m.slotsAt p).length then { m with heap := m.heap.store p (.ptrs ((m.slotsAt p).set i x)) }
  else { m with heap := m.heap.fault }

/-- Overwrite a block with the bytes of another. -/
def copyDeblk (m : Kmem) (dst : Nat) (b : List UInt8) : Kmem := { m with heap := m.heap.store dst (.deblk b) }

/-- Write into a block. -/
def write (m : Kmem) (a p : Nat) (bs : List UInt8) : Kmem :=
  match m.deblkAt a with
  | some b =>
    if p + bs.length ≤ b.length then m.copyDeblk a (writeAt b p bs) else { m with heap := m.heap.fault }
  | none => { m with heap := m.heap.fault }

/-- `set_deblk_end` at a pointer; nothing when it fails. -/
def setDeblkEnd (m : Kmem) (p : Nat × Nat) : Option Kmem :=
  if calcSize 0 ≤ deblkSize - p.2 then some (m.write p.1 (p.2 + 9) [0]) else none

end Kmem

-- ---------------------------------------------------------------------------
-- Appending
-- ---------------------------------------------------------------------------

/-- `struct aufs_vdir`: `deblk` points at the array, and `lastI` and `lastP` are `vd_last`, a pointer being a block
and an offset. -/
structure VdirMem where
  deblk : Nat
  nblk : Nat
  lastI : Nat
  lastP : Nat × Nat
  version : Nat
  jiffy : Nat

namespace VdirMem

/-- `append_deblk` -/
def appendDeblk (e : KmallocEnv) (v : VdirMem) (m : Kmem) : Except Errno Unit × VdirMem × Kmem :=
  match m.auKzrealloc e v.deblk v.nblk (v.nblk + 1) with
  | (none, m) => (.error .ENOMEM, v, m)
  | (some o, m) =>
    let v := { v with deblk := o }
    match m.kmallocDeblk e with
    | (none, m) => (.error .ENOMEM, v, m)
    | (some p, m) =>
      let i := v.nblk
      let m := m.setSlot v.deblk i (some p)
      let v := { v with nblk := i + 1, lastI := i, lastP := (p, 0) }
      match m.setDeblkEnd (p, 0) with
      | some m => (.ok (), v, m)
      | none => (.error .EPERM, v, m)

/-- `alloc_vdir`: the `vdir` itself, an array of one slot, and a block. -/
def alloc (e : KmallocEnv) (m : Kmem) : Except Errno VdirMem × Kmem :=
  match m.ask e with
  | (true, m) => (.error .ENOMEM, m)
  | (false, m) =>
    if e.fails m.tick then (.error .ENOMEM, { m with tick := m.tick + 1 })
    else
      let r := m.heap.kmalloc (.ptrs (none :: (e.spare m.tick)))
      match appendDeblk e ⟨r.1, 0, 0, (0, 0), 0, 0⟩ { heap := r.2, tick := m.tick + 1 } with
      | (.ok (), v, m) => (.ok v, m)
      | (.error err, v, m) => (.error err, m.kfree (some v.deblk))

/-- `append_de` up to the end mark. The room that is left is that of the last block, where `vd_last` points. -/
def putDe (hash : Name → Nat) (e : KmallocEnv) (v : VdirMem) (delist : Nhash (Nat × Nat)) (de : RawDe) (m : Kmem) :
    Except Errno Unit × VdirMem × Nhash (Nat × Nat) × Kmem :=
  match (if calcSize de.str.length > deblkSize - v.lastP.2 then v.appendDeblk e m else (.ok (), v, m)) with
  | (.error err, v, m) => (.error err, v, delist, m)
  | (.ok (), v, m) =>
    match m.ask e with
    | (true, m) => (.error .ENOMEM, v, delist, m)
    | (false, m) =>
      let delist := delist.add hash de.str (v.lastP.1, v.lastP.2 + 9)
      let m := m.write v.lastP.1 v.lastP.2 de.bytes
      (.ok (), { v with lastP := (v.lastP.1, v.lastP.2 + calcSize de.str.length) }, delist, m)

/-- `append_de` -/
def appendDe (hash : Name → Nat) (e : KmallocEnv) (v : VdirMem) (delist : Nhash (Nat × Nat)) (de : RawDe) (m : Kmem) :
    Except Errno Unit × VdirMem × Nhash (Nat × Nat) × Kmem :=
  match v.putDe hash e delist de m with
  | (.error err, v, delist, m) => (.error err, v, delist, m)
  | (.ok (), v, delist, m) =>
    match m.setDeblkEnd v.lastP with
    | some m => (.ok (), v, delist, m)
    | none =>
      match v.appendDeblk e m with
      | (r, v, m) => (r, v, delist, m)

/-- What became of a call of `append_de`: did the entry get into the last block, what was returned, and how much room is
left in the block. -/
structure AppendOut where
  put : Bool
  res : Except Errno Unit
  left : Nat

/-- Calls of `append_de` one after the other, whatever they return. -/
def appendAll (hash : Name → Nat) (e : KmallocEnv) (v : VdirMem) (delist : Nhash (Nat × Nat)) :
    List RawDe → Kmem → List AppendOut × VdirMem × Nhash (Nat × Nat) × Kmem
  | [], m => ([], v, delist, m)
  | de :: des, m =>
    let put := (v.putDe hash e delist de m).1.isOk
    match v.appendDe hash e delist de m with
    | (res, v, delist, m) =>
      match appendAll hash e v delist des m with
      | (outs, r) => (⟨put, res, deblkSize - v.lastP.2⟩ :: outs, r)

-- ---------------------------------------------------------------------------
-- Walking
-- ---------------------------------------------------------------------------

/-- Walk the blocks that these slots point at. -/
def walkSlots (m : Kmem) : List (Option Nat) → Option (List (List RawDe × Nat))
  | [] => some []
  | none :: _ => none
  | some a :: slots =>
    match (m.deblkAt a).bind walkDeblk, walkSlots m slots with
    | some r, some rs => some (r :: rs)
    | _, _ => none

/-- The entries of every block, and where it ends. -/
def walk (m : Kmem) (v : VdirMem) : Option (List (List RawDe × Nat)) := walkSlots m ((m.slotsAt v.deblk).take v.nblk)

end VdirMem

-- ---------------------------------------------------------------------------
-- What one operation leaves alone
-- ---------------------------------------------------------------------------

namespace Kmem

variable {e : KmallocEnv} {m m' : Kmem} {a p o : Nat} {b : List UInt8}

theorem deblkAt_eq (h : m.heap.cell a = some (.deblk b)) : m.deblkAt a = some b := by
  rw [deblkAt, h]

theorem slotsAt_eq {l : List (Option Nat)} (h : m.heap.cell a = some (.ptrs l)) : m.slotsAt a = l := by
  rw [slotsAt, h]

/-- A fresh block. -/
theorem kmallocDeblk_some (h : m.kmallocDeblk e = (some p, m')) :
    e.fails m.tick = false ∧ m'.tick = m.tick + 1 ∧ p = m.heap.next ∧ m'.heap.next = m.heap.next + 1 ∧
      m'.heap.bad = m.heap.bad ∧ (∃ b, b.length = deblkSize ∧ m'.heap.cell p = some (.deblk b)) ∧
      ∀ a, a ≠ p → m'.heap.cell a = m.heap.cell a := by
  unfold kmallocDeblk at h
  split at h
  · cases h
  next hok =>
    cases h
    refine ⟨Bool.not_eq_true _ ▸ hok, rfl, rfl, rfl, rfl, ⟨_, ?_, Kheap.kmalloc_cell_new ..⟩, fun a ha => ?_⟩
    · rw [List.length_map, List.length_range]
    · exact Kheap.kmalloc_cell_of_ne ha

theorem kmallocDeblk_none (h : m.kmallocDeblk e = (none, m')) :
    e.fails m.tick = true ∧ m' = { m with tick := m.tick + 1 } := by
  unfold kmallocDeblk at h
  split at h
  next hfail =>
    cases h
    exact ⟨hfail, rfl⟩
  · cases h

/-- What `au_kzrealloc` leaves: the used slots, cleared ones behind them, and the old array or a new one. -/
structure Grown (m : Kmem) (p newSz : Nat) (used : List (Option Nat)) (o : Nat) (m' : Kmem) : Prop where
  array : ∃ rest, m'.heap.cell o = some (.ptrs (used ++ List.replicate (newSz - used.length) none ++ rest))
  frame : ∀ a, a ≠ p → a ≠ o → m'.heap.cell a = m.heap.cell a
  moved : o = p ∨ o = m.heap.next ∧ m'.heap.cell p = none
  bad : m'.heap.bad = m.heap.bad
  tick : m.tick ≤ m'.tick
  next : m.heap.next ≤ m'.heap.next

theorem auKzrealloc_some {used rest : List (Option Nat)} {newSz : Nat}
    (hcell : m.heap.cell p = some (.ptrs (used ++ rest)))
    (h : m.auKzrealloc e p used.length newSz = (some o, m')) :
    m.Grown p newSz used o m' ∧ ∀ t, m.tick ≤ t → t < m'.tick → e.fails t = false := by
  unfold auKzrealloc at h
  rw [slotsAt_eq hcell] at h
  cases hl : Cells.kzrealloc (!e.fails m.tick) none (used ++ rest) used.length newSz with
  | none =>
    rw [hl] at h
    cases h
  | some l =>
    obtain ⟨rest', hrest'⟩ := Cells.kzrealloc_append hl
    rw [hl] at h
    dsimp only at h
    split at h
    next hsame =>
      cases h
      refine ⟨⟨⟨rest, ?_⟩, fun _ _ _ => rfl, .inl rfl, rfl, Nat.le_refl _, Nat.le_refl _⟩, fun t h₁ h₂ => by omega⟩
      rw [hcell, Nat.sub_eq_zero_of_le hsame, List.replicate_zero, List.append_nil]
    next hgrow =>
      split at h
      next hfits =>
        cases h
        refine ⟨⟨⟨rest', ?_⟩, fun a ha _ => ?_, .inl rfl, ?_, Nat.le_refl _, Nat.le_of_eq ?_⟩, fun t h₁ h₂ => ?_⟩
        · rw [← hrest']
          exact Kheap.store_cell_self hcell
        · exact Kheap.store_cell_of_ne ha
        · exact Kheap.store_bad hcell
        · exact (Kheap.store_next ..).symm
        · exact absurd h₁ (Nat.not_le.mpr h₂)
      next hsmall =>
        have halloc : e.fails m.tick = false := by
          cases hfails : e.fails m.tick with
          | false => rfl
          | true =>
            rw [hfails] at hl
            have hnone : Cells.kzrealloc (!true) none (used ++ rest) used.length newSz = none :=
              Cells.kzrealloc_eq_none.mpr ⟨rfl, by omega, by omega⟩
            cases hnone.symm.trans hl
        cases h
        have hne : p ≠ m.heap.next := Nat.ne_of_lt (Kheap.lt_next hcell)
        have hold : (m.heap.kmalloc (.ptrs (l ++ e.spare m.tick))).2.cell p = some (.ptrs (used ++ rest)) :=
          Kheap.kmalloc_cell_old hcell
        refine ⟨⟨⟨rest' ++ e.spare m.tick, ?_⟩, fun a ha hao => ?_, .inr ⟨rfl, ?_⟩, ?_, Nat.le_succ _, ?_⟩,
          fun t h₁ h₂ => ?_⟩
        · rw [Kheap.kmalloc_fst, Kheap.kfree_some, Kheap.release_cell_of_ne hne.symm, Kheap.kmalloc_cell_new, hrest',
            List.append_assoc _ rest']
        · rw [Kheap.kfree_some, Kheap.release_cell_of_ne ha]
          exact Kheap.kmalloc_cell_of_ne hao
        · exact Kheap.release_cell_self ..
        · rw [Kheap.kfree_some, Kheap.release_bad hold, Kheap.kmalloc_bad]
        · exact Nat.le_succ _
        · have ht : t = m.tick := by
            have : t < m.tick + 1 := h₂
            omega
          rw [ht, halloc]

theorem auKzrealloc_none {nused newSz : Nat} (h : m.auKzrealloc e p nused newSz = (none, m')) :
    e.fails m.tick = true ∧ m' = { m with tick := m.tick + 1 } := by
  unfold auKzrealloc at h
  cases hl : Cells.kzrealloc (!e.fails m.tick) none (m.slotsAt p) nused newSz with
  | none =>
    rw [hl] at h
    cases h
    obtain ⟨hfail, -, -⟩ := Cells.kzrealloc_eq_none.mp hl
    refine ⟨?_, rfl⟩
    rwa [Bool.not_eq_false'] at hfail
  | some l =>
    rw [hl] at h
    dsimp only at h
    split at h
    · cases h
    · split at h
      · cases h
      · cases h

theorem setSlot_spec {l : List (Option Nat)} {i : Nat} {x : Option Nat} (hcell : m.heap.cell p = some (.ptrs l))
    (hi : i < l.length) :
    (m.setSlot p i x).heap.cell p = some (.ptrs (l.set i x)) ∧
      (∀ a, a ≠ p → (m.setSlot p i x).heap.cell a = m.heap.cell a) ∧
      (m.setSlot p i x).heap.bad = m.heap.bad ∧ (m.setSlot p i x).tick = m.tick ∧
      (m.setSlot p i x).heap.next = m.heap.next := by
  unfold setSlot
  rw [slotsAt_eq hcell, if_pos hi]
  exact ⟨Kheap.store_cell_self hcell, fun a ha => Kheap.store_cell_of_ne ha, Kheap.store_bad hcell, rfl,
    Kheap.store_next ..⟩

/-- A write inside a block. -/
theorem write_spec {q : Nat} {bs : List UInt8} (hcell : m.heap.cell p = some (.deblk b))
    (hin : q + bs.length ≤ b.length) :
    (m.write p q bs).heap.cell p = some (.deblk (writeAt b q bs)) ∧
      (∀ a, a ≠ p → (m.write p q bs).heap.cell a = m.heap.cell a) ∧
      (m.write p q bs).heap.bad = m.heap.bad ∧ (m.write p q bs).tick = m.tick ∧
      (m.write p q bs).heap.next = m.heap.next := by
  unfold write
  rw [deblkAt_eq hcell]
  dsimp only
  rw [if_pos hin]
  exact ⟨Kheap.store_cell_self hcell, fun a ha => Kheap.store_cell_of_ne ha, Kheap.store_bad hcell, rfl,
    Kheap.store_next ..⟩

/-- `set_deblk_end` sets the mark if there is room for one. -/
theorem setDeblkEnd_spec {q : Nat} {b' : List UInt8} (hcell : m.heap.cell p = some (.deblk b))
    (hlen : b.length = deblkSize) (hend : Aufs.setDeblkEnd b q = some b') :
    ∃ m', m.setDeblkEnd (p, q) = some m' ∧ m'.heap.cell p = some (.deblk b') ∧
      (∀ a, a ≠ p → m'.heap.cell a = m.heap.cell a) ∧ m'.heap.bad = m.heap.bad ∧ m'.tick = m.tick ∧
      m'.heap.next = m.heap.next := by
  unfold Aufs.setDeblkEnd at hend
  split at hend
  next hroom =>
    cases hend
    have hroom16 : 16 ≤ deblkSize - q := hroom
    refine ⟨m.write p (q + 9) [0], if_pos hroom, write_spec hcell ?_⟩
    rw [hlen, List.length_singleton]
    omega
  · cases hend

theorem setDeblkEnd_none {q : Nat} (hend : Aufs.setDeblkEnd b q = none) : m.setDeblkEnd (p, q) = none := by
  unfold Aufs.setDeblkEnd at hend
  split at hend
  · cases hend
  next hroom => exact if_neg hroom

/-- The block holds these entries. -/
def Holds (m : Kmem) (a : Nat) (des : List RawDe) : Prop := ∃ b q, m.heap.cell a = some (.deblk b) ∧ Packs b des q

theorem Holds.congr {des : List RawDe} (h : m.Holds a des) (hcell : m'.heap.cell a = m.heap.cell a) :
    m'.Holds a des := by
  obtain ⟨b, q, hb, hpacks⟩ := h
  exact ⟨b, q, hcell.trans hb, hpacks⟩

theorem holds_congr {ids : List Nat} {contents : List (List RawDe)} (h : List.Forall₂ m.Holds ids contents)
    (hcell : ∀ a ∈ ids, m'.heap.cell a = m.heap.cell a) : List.Forall₂ m'.Holds ids contents := by
  induction h with
  | nil => exact .nil
  | cons ha _ ih =>
    refine .cons (ha.congr (hcell _ List.mem_cons_self)) (ih fun b hb => ?_)
    exact hcell b (List.mem_cons_of_mem _ hb)

/-- A block that holds entries is allocated as a block. -/
theorem deblk_of_mem {ids : List Nat} {contents : List (List RawDe)} (h : List.Forall₂ m.Holds ids contents)
    (ha : a ∈ ids) : ∃ b, m.heap.cell a = some (.deblk b) := by
  induction h with
  | nil => cases ha
  | cons hhead _ ih =>
    rcases List.mem_cons.mp ha with rfl | ha
    · obtain ⟨b, -, hb, -⟩ := hhead
      exact ⟨b, hb⟩
    · exact ih ha

end Kmem

-- ---------------------------------------------------------------------------
-- A further block
-- ---------------------------------------------------------------------------

namespace VdirMem

/-- The array of the `vdir` points at these blocks, and they hold these entries. -/
structure Stored (v : VdirMem) (m : Kmem) (ids : List Nat) (contents : List (List RawDe)) : Prop where
  array : ∃ rest, m.heap.cell v.deblk = some (.ptrs (ids.map some ++ rest))
  nblk : v.nblk = ids.length
  nodup : ids.Nodup
  blocks : List.Forall₂ m.Holds ids contents

/-- `vd_last` is the end of the last block, where entries may still be put. -/
structure Last (v : VdirMem) (m : Kmem) (ids : List Nat) (a : Nat) (des : List RawDe) : Prop where
  lastI : v.lastI = ids.length
  lastP : v.lastP.1 = a
  block : ∃ b, m.heap.cell a = some (.deblk b) ∧ Packs b des v.lastP.2

variable {e : KmallocEnv} {v v' : VdirMem} {m m' : Kmem} {ids : List Nat} {contents : List (List RawDe)}

theorem Stored.ne_deblk (h : v.Stored m ids contents) {a : Nat} (ha : a ∈ ids) : a ≠ v.deblk := by
  rintro rfl
  obtain ⟨rest, hrest⟩ := h.array
  obtain ⟨b, hb⟩ := Kmem.deblk_of_mem h.blocks ha
  cases hrest.symm.trans hb

/-- Growing the array leaves the blocks where they are. -/
theorem Stored.grown (h : v.Stored m ids contents) {o newSz : Nat}
    (hgrown : m.Grown v.deblk newSz (ids.map some) o m') :
    ∀ a ∈ ids, m'.heap.cell a = m.heap.cell a := by
  intro a ha
  refine hgrown.frame a (h.ne_deblk ha) ?_
  rintro rfl
  obtain ⟨b, hb⟩ := Kmem.deblk_of_mem h.blocks ha
  rcases hgrown.moved with hmoved | ⟨hmoved, -⟩
  · exact h.ne_deblk ha hmoved
  · exact absurd (Kheap.lt_next hb) (by rw [hmoved]; exact lt_irrefl _)

/-- A fresh block enters the slot behind the others, with the end mark at its start. -/
theorem link_deblk {o p : Nat} {rest : List (Option Nat)}
    (harray : m.heap.cell o = some (.ptrs (ids.map some ++ none :: rest)))
    (hblock : m.kmallocDeblk e = (some p, m')) :
    ∃ m₂ b, (m'.setSlot o ids.length (some p)).setDeblkEnd (p, 0) = some m₂ ∧
      m₂.heap.cell o = some (.ptrs ((ids ++ [p]).map some ++ rest)) ∧ m₂.heap.cell p = some (.deblk b) ∧
      Packs b [] 0 ∧ p = m.heap.next ∧ (∀ a, a ≠ o → a ≠ p → m₂.heap.cell a = m.heap.cell a) ∧
      m₂.heap.bad = m.heap.bad := by
  obtain ⟨-, -, hp, -, hbad, ⟨b, hb, hcell⟩, hframe⟩ := Kmem.kmallocDeblk_some hblock
  have hop : o ≠ p := by
    rw [hp]
    exact Nat.ne_of_lt (Kheap.lt_next harray)
  have hlt : ids.length < (ids.map some ++ none :: rest).length := by
    rw [List.length_append, List.length_map, List.length_cons]
    omega
  obtain ⟨harray₁, hframe₁, hbad₁, -, -⟩ :=
    Kmem.setSlot_spec (x := some p) ((hframe o hop).trans harray) hlt
  obtain ⟨b', hb', hpacks⟩ := packs_nil hb
  obtain ⟨m₂, hset, hcell₂, hframe₂, hbad₂, -, -⟩ :=
    Kmem.setDeblkEnd_spec ((hframe₁ p hop.symm).trans hcell) hb hb'
  refine ⟨m₂, b', hset, ?_, hcell₂, hpacks, hp, fun a hao hap => ?_, hbad₂.trans (hbad₁.trans hbad)⟩
  · rw [hframe₂ o hop, harray₁, List.set_append_right _ _ (by rw [List.length_map]), List.length_map, Nat.sub_self,
      List.set_cons_zero, List.map_append, List.append_assoc]
    rfl
  · rw [hframe₂ a hap, hframe₁ a hao, hframe a hap]

theorem appendDeblk_ok (h : v.Stored m ids contents) (hrun : v.appendDeblk e m = (.ok (), v', m')) :
    ∃ a, v'.Stored m' (ids ++ [a]) (contents ++ [[]]) ∧ v'.Last m' ids a [] ∧ v'.lastP = (a, 0) ∧
      m'.heap.bad = m.heap.bad := by
  unfold appendDeblk at hrun
  obtain ⟨rest, hrest⟩ := h.array
  have hlen : v.nblk = (ids.map some).length := by
    rw [h.nblk, List.length_map]
  rcases hgrow : m.auKzrealloc e v.deblk v.nblk (v.nblk + 1) with ⟨_ | o, m₁⟩
  · rw [hgrow] at hrun
    cases hrun
  rw [hgrow] at hrun
  dsimp only at hrun
  rw [hlen] at hgrow
  obtain ⟨hgrown, -⟩ := Kmem.auKzrealloc_some hrest hgrow
  have hids₁ := h.grown hgrown
  obtain ⟨rest₁, hrest₁⟩ := hgrown.array
  rw [Nat.add_sub_cancel_left, List.append_assoc] at hrest₁
  rcases hblock : m₁.kmallocDeblk e with ⟨_ | p, m₂⟩
  · rw [hblock] at hrun
    cases hrun
  obtain ⟨m₃, b, hset, harray, hcell, hpacks, hp, hframe, hbad⟩ := link_deblk hrest₁ hblock
  have hset' : (m₂.setSlot o v.nblk (some p)).setDeblkEnd (p, 0) = some m₃ := by
    rw [h.nblk]
    exact hset
  rw [hblock] at hrun
  dsimp only at hrun
  rw [hset'] at hrun
  cases hrun
  have hnew : ∀ a ∈ ids, a < p := by
    intro a ha
    obtain ⟨c, hc⟩ := Kmem.deblk_of_mem h.blocks ha
    rw [hp]
    exact Kheap.lt_next ((hids₁ a ha).trans hc)
  have hids : ∀ a ∈ ids, m'.heap.cell a = m.heap.cell a := by
    intro a ha
    obtain ⟨c, hc⟩ := Kmem.deblk_of_mem h.blocks ha
    refine (hframe a ?_ (Nat.ne_of_lt (hnew a ha))).trans (hids₁ a ha)
    rintro rfl
    cases hrest₁.symm.trans ((hids₁ _ ha).trans hc)
  have hlast : m'.Holds p [] := ⟨b, 0, hcell, hpacks⟩
  refine ⟨p, ⟨⟨rest₁, harray⟩, ?_, ?_, ?_⟩, ⟨h.nblk, rfl, ⟨b, hcell, hpacks⟩⟩, rfl, hbad.trans hgrown.bad⟩
  · rw [List.length_append, List.length_singleton, ← h.nblk]
  · refine List.nodup_append.mpr ⟨h.nodup, List.nodup_singleton p, fun a ha c hc => ?_⟩
    rw [List.mem_singleton.mp hc]
    exact Nat.ne_of_lt (hnew a ha)
  · exact List.rel_append (Kmem.holds_congr h.blocks hids) (.cons hlast .nil)

/-- When no block can be had the array may be a new one, and all else is as it was. -/
theorem appendDeblk_error (h : v.Stored m ids contents) {err : Errno}
    (hrun : v.appendDeblk e m = (.error err, v', m')) :
    err = .ENOMEM ∧ v'.Stored m' ids contents ∧ (∀ a ∈ ids, m'.heap.cell a = m.heap.cell a) ∧
      v'.lastI = v.lastI ∧ v'.lastP = v.lastP ∧ m'.heap.bad = m.heap.bad := by
  unfold appendDeblk at hrun
  obtain ⟨rest, hrest⟩ := h.array
  have hlen : v.nblk = (ids.map some).length := by
    rw [h.nblk, List.length_map]
  rcases hgrow : m.auKzrealloc e v.deblk v.nblk (v.nblk + 1) with ⟨_ | o, m₁⟩
  · rw [hgrow] at hrun
    obtain ⟨-, hm₁⟩ := Kmem.auKzrealloc_none hgrow
    cases hrun
    rw [hm₁]
    exact ⟨rfl, ⟨h.array, h.nblk, h.nodup, h.blocks⟩, fun _ _ => rfl, rfl, rfl, rfl⟩
  rw [hgrow] at hrun
  dsimp only at hrun
  rw [hlen] at hgrow
  obtain ⟨hgrown, -⟩ := Kmem.auKzrealloc_some hrest hgrow
  have hids₁ := h.grown hgrown
  obtain ⟨rest₁, hrest₁⟩ := hgrown.array
  rw [Nat.add_sub_cancel_left, List.append_assoc] at hrest₁
  rcases hblock : m₁.kmallocDeblk e with ⟨_ | p, m₂⟩
  · rw [hblock] at hrun
    obtain ⟨-, hm₂⟩ := Kmem.kmallocDeblk_none hblock
    cases hrun
    rw [hm₂]
    refine ⟨rfl, ⟨⟨_, hrest₁⟩, h.nblk, h.nodup, ?_⟩, hids₁, rfl, rfl, hgrown.bad⟩
    exact Kmem.holds_congr h.blocks hids₁
  · obtain ⟨m₃, b, hset, -⟩ := link_deblk hrest₁ hblock
    rw [hblock] at hrun
    dsimp only at hrun
    rw [h.nblk, hset] at hrun
    cases hrun

/-- `append_deblk` keeps the version and the time. -/
theorem appendDeblk_version (e : KmallocEnv) (v : VdirMem) (m : Kmem) :
    (v.appendDeblk e m).2.1.version = v.version ∧ (v.appendDeblk e m).2.1.jiffy = v.jiffy := by
  unfold appendDeblk
  rcases m.auKzrealloc e v.deblk v.nblk (v.nblk + 1) with ⟨_ | o, m₁⟩
  · exact ⟨rfl, rfl⟩
  · dsimp only
    rcases m₁.kmallocDeblk e with ⟨_ | p, m₂⟩
    · exact ⟨rfl, rfl⟩
    · dsimp only
      cases (m₂.setSlot o v.nblk (some p)).setDeblkEnd (p, 0) with
      | none => exact ⟨rfl, rfl⟩
      | some m₃ => exact ⟨rfl, rfl⟩

-- ---------------------------------------------------------------------------
-- One entry
-- ---------------------------------------------------------------------------

/-- The blocks hold these entries, and `vd_last` is the end of the last block. -/
structure Ends (v : VdirMem) (m : Kmem) (blocks : List (List RawDe)) : Prop where
  ends : ∃ ids a done last, blocks = done ++ [last] ∧ v.Stored m (ids ++ [a]) blocks ∧ v.Last m ids a last

/-- An entry behind those of the last block. -/
def putLast (blocks : List (List RawDe)) (de : RawDe) : List (List RawDe) :=
  blocks.dropLast ++ [blocks.getLast?.getD [] ++ [de]]

theorem putLast_append (done : List (List RawDe)) (last : List RawDe) (de : RawDe) :
    putLast (done ++ [last]) de = done ++ [last ++ [de]] := by
  rw [putLast, List.dropLast_concat, List.getLast?_concat, Option.getD_some]

variable {blocks : List (List RawDe)}

theorem Ends.ne_nil (h : v.Ends m blocks) : blocks ≠ [] := by
  obtain ⟨ids, a, done, last, hblocks, -⟩ := h.ends
  rw [hblocks]
  exact List.append_ne_nil_of_right_ne_nil _ (List.cons_ne_nil _ _)

theorem flatten_putLast (hne : blocks ≠ []) (de : RawDe) : (putLast blocks de).flatten = blocks.flatten ++ [de] := by
  rw [← List.dropLast_append_getLast hne, putLast_append, List.flatten_append, List.flatten_append, List.append_assoc,
    List.flatten_singleton, List.flatten_singleton]

/-- A block is opened behind the others: no entry is added. -/
theorem Ends.appendDeblk_ok (h : v.Ends m blocks) (hrun : v.appendDeblk e m = (.ok (), v', m')) :
    v'.Ends m' (blocks ++ [[]]) ∧ v'.lastP.2 = 0 ∧ m'.heap.bad = m.heap.bad := by
  obtain ⟨ids, a, done, last, -, hstored, -⟩ := h.ends
  obtain ⟨a', hstored', hlast, hlastP, hbad⟩ := VdirMem.appendDeblk_ok hstored hrun
  exact ⟨⟨ids ++ [a], a', blocks, [], rfl, hstored', hlast⟩, by rw [hlastP], hbad⟩

theorem Ends.appendDeblk_error (h : v.Ends m blocks) {err : Errno} (hrun : v.appendDeblk e m = (.error err, v', m')) :
    err = .ENOMEM ∧ v'.Ends m' blocks ∧ v'.lastP = v.lastP ∧ m'.heap.bad = m.heap.bad := by
  obtain ⟨ids, a, done, last, hblocks, hstored, hlast⟩ := h.ends
  obtain ⟨herr, hstored', hcell, hlastI, hlastP, hbad⟩ := VdirMem.appendDeblk_error hstored hrun
  obtain ⟨b, hb, hpacks⟩ := hlast.block
  refine ⟨herr, ⟨ids, a, done, last, hblocks, hstored', ⟨hlastI.trans hlast.lastI, ?_, b, ?_, ?_⟩⟩, hlastP, hbad⟩
  · rw [hlastP, hlast.lastP]
  · rw [hcell a (List.mem_append_right _ List.mem_cons_self), hb]
  · rwa [hlastP]

/-- Only the last block is written. -/
theorem Last.write {ids : List Nat} {a : Nat} {done : List (List RawDe)} {last des : List RawDe}
    {b : List UInt8} {q : Nat}
    (hstored : v.Stored m (ids ++ [a]) (done ++ [last])) (hlast : v.Last m ids a last)
    (hcell : m'.heap.cell a = some (.deblk b)) (hpacks : Packs b des q)
    (hframe : ∀ c, c ≠ a → m'.heap.cell c = m.heap.cell c) :
    { v with lastP := (v.lastP.1, q) }.Ends m' (done ++ [des]) := by
  refine ⟨ids, a, done, des, rfl, ⟨?_, ?_, hstored.nodup, ?_⟩, ⟨hlast.lastI, hlast.lastP, b, hcell, hpacks⟩⟩
  · obtain ⟨rest, hrest⟩ := hstored.array
    have hne : v.deblk ≠ a := (hstored.ne_deblk (List.mem_append_right _ List.mem_cons_self)).symm
    exact ⟨rest, (hframe _ hne).trans hrest⟩
  · exact hstored.nblk
  · have hnodup := List.nodup_append.mp hstored.nodup
    have hfront : List.Forall₂ m.Holds ids done := by
      have htake := List.forall₂_take_append _ _ _ hstored.blocks
      have hlen : done.length = ids.length := by
        have hall := hstored.blocks.length_eq
        rw [List.length_append, List.length_append, List.length_singleton, List.length_singleton] at hall
        omega
      rwa [hlen, List.take_left] at htake
    refine List.rel_append (Kmem.holds_congr hfront fun c hc => hframe c ?_) (.cons ⟨b, q, hcell, hpacks⟩ .nil)
    exact hnodup.2.2 c hc a List.mem_cons_self

/-- The entry is put behind the others, and the mark behind it if there is room for one. -/
theorem Ends.put {de : RawDe} (h : v.Ends m blocks) (hfits : de.Fits)
    (hroom : v.lastP.2 + calcSize de.str.length ≤ deblkSize) :
    ∃ m₂, { v with lastP := (v.lastP.1, v.lastP.2 + calcSize de.str.length) }.Ends m₂ (putLast blocks de) ∧
      m₂.heap.bad = m.heap.bad ∧
      (calcSize 0 ≤ deblkSize - (v.lastP.2 + calcSize de.str.length) ∧
          (m.write v.lastP.1 v.lastP.2 de.bytes).setDeblkEnd
            (v.lastP.1, v.lastP.2 + calcSize de.str.length) = some m₂ ∨
        ¬ calcSize 0 ≤ deblkSize - (v.lastP.2 + calcSize de.str.length) ∧
          (m.write v.lastP.1 v.lastP.2 de.bytes).setDeblkEnd (v.lastP.1, v.lastP.2 + calcSize de.str.length) = none ∧
          m₂ = m.write v.lastP.1 v.lastP.2 de.bytes) := by
  obtain ⟨ids, a, done, last, rfl, hstored, hlast⟩ := h.ends
  obtain ⟨b, hb, hpacks⟩ := hlast.block
  have hpush := hpacks.push hfits hroom
  have hsize := add_le_calcSize de.str.length
  have hbytes := de.length_bytes
  obtain ⟨hcell, hframe, hbad, -, -⟩ := Kmem.write_spec (q := v.lastP.2) hb
    (show v.lastP.2 + de.bytes.length ≤ b.length by rw [hpacks.length]; omega)
  rw [← hlast.lastP] at hcell hframe hbad
  have hlen : (writeAt b v.lastP.2 de.bytes).length = deblkSize := by
    rw [length_writeAt_inside, hpacks.length]
    rw [hpacks.length]
    omega
  rw [putLast_append]
  by_cases hmark : calcSize 0 ≤ deblkSize - (v.lastP.2 + calcSize de.str.length)
  · have hset : setDeblkEnd (writeAt b v.lastP.2 de.bytes) (v.lastP.2 + calcSize de.str.length) = some _ :=
      if_pos hmark
    rw [hset, Option.getD_some] at hpush
    obtain ⟨m₂, hset₂, hcell₂, hframe₂, hbad₂, -, -⟩ := Kmem.setDeblkEnd_spec hcell hlen hset
    refine ⟨m₂, ?_, hbad₂.trans hbad, .inl ⟨hmark, hset₂⟩⟩
    rw [hlast.lastP] at hcell₂ hframe₂ hframe
    exact hlast.write hstored hcell₂ hpush fun c hc => (hframe₂ c hc).trans (hframe c hc)
  · have hset : setDeblkEnd (writeAt b v.lastP.2 de.bytes) (v.lastP.2 + calcSize de.str.length) = none := if_neg hmark
    rw [hset, Option.getD_none] at hpush
    refine ⟨_, ?_, hbad, .inr ⟨hmark, if_neg hmark, rfl⟩⟩
    rw [hlast.lastP] at hcell hframe
    have hends := hlast.write hstored hcell hpush hframe
    rwa [hlast.lastP] at hends ⊢

theorem Ends.of_heap (h : v.Ends m blocks) (hheap : m'.heap = m.heap) : v.Ends m' blocks := by
  obtain ⟨ids, a, done, last, hblocks, hstored, hlast⟩ := h.ends
  refine ⟨ids, a, done, last, hblocks, ⟨?_, hstored.nblk, hstored.nodup, ?_⟩, ⟨hlast.lastI, hlast.lastP, ?_⟩⟩
  · rw [hheap]
    exact hstored.array
  · exact Kmem.holds_congr hstored.blocks fun c _ => by rw [hheap]
  · rw [hheap]
    exact hlast.block

theorem Ends.lastP_le (h : v.Ends m blocks) : v.lastP.2 ≤ deblkSize := by
  obtain ⟨ids, a, done, last, -, -, hlast⟩ := h.ends
  obtain ⟨b, -, hpacks⟩ := hlast.block
  exact hpacks.le

/-- All entries of the blocks. -/
def Filled (v : VdirMem) (m : Kmem) (des : List RawDe) : Prop := ∃ blocks, v.Ends m blocks ∧ blocks.flatten = des

variable {hash : Name → Nat} {delist delist' : Nhash (Nat × Nat)} {de : RawDe} {des : List RawDe}

/-- Before an entry is put there is room for it. -/
theorem Ends.makeRoom (h : v.Ends m blocks) (hfits : de.Fits) {r : Except Errno Unit}
    (hrun : (if calcSize de.str.length > deblkSize - v.lastP.2 then v.appendDeblk e m else (.ok (), v, m)) =
      (r, v', m')) :
    (∃ blocks', v'.Ends m' blocks' ∧ blocks'.flatten = blocks.flatten) ∧ m'.heap.bad = m.heap.bad ∧
      (∀ err, r = .error err → err = .ENOMEM) ∧ (r = .ok () → v'.lastP.2 + calcSize de.str.length ≤ deblkSize) := by
  have hsize := calcSize_le hfits.len
  split at hrun
  next hfull =>
    cases r with
    | ok u =>
      obtain ⟨hends, hzero, hbad⟩ := h.appendDeblk_ok hrun
      refine ⟨⟨_, hends, ?_⟩, hbad, fun _ herr => (by cases herr), fun _ => by omega⟩
      rw [List.flatten_append, List.flatten_singleton, List.append_nil]
    | error err =>
      obtain ⟨herr, hends, -, hbad⟩ := h.appendDeblk_error hrun
      refine ⟨⟨_, hends, rfl⟩, hbad, fun err' herr' => ?_, fun hok => (by cases hok)⟩
      cases herr'
      exact herr
  next hfull =>
    have hle := h.lastP_le
    cases hrun
    exact ⟨⟨_, h, rfl⟩, rfl, fun _ herr => (by cases herr), fun _ => by omega⟩

/-- The entry was put, and the block may lack its end mark. -/
structure Unmarked (v : VdirMem) (m : Kmem) (des : List RawDe) (bad : Bool) : Prop where
  mark : ∃ m₂, v.Filled m₂ des ∧ m₂.heap.bad = bad ∧
    (m.setDeblkEnd v.lastP = some m₂ ∨
      m.setDeblkEnd v.lastP = none ∧ m₂ = m ∧ deblkSize - v.lastP.2 < calcSize 0)

theorem putDe_spec (h : v.Filled m des) (hfits : de.Fits) {r : Except Errno Unit}
    (hrun : v.putDe hash e delist de m = (r, v', delist', m')) :
    (r = .ok () → v'.Unmarked m' (des ++ [de]) m.heap.bad) ∧
      ∀ err, r = .error err → err = .ENOMEM ∧ v'.Filled m' des ∧ m'.heap.bad = m.heap.bad := by
  unfold putDe at hrun
  generalize hroom : (if calcSize de.str.length > deblkSize - v.lastP.2 then v.appendDeblk e m
    else (.ok (), v, m)) = x at hrun
  obtain ⟨r₁, v₁, m₁⟩ := x
  obtain ⟨blocks, hends, hdes⟩ := h
  obtain ⟨⟨blocks₁, hends₁, hflat⟩, hbad, herr, hfit⟩ := hends.makeRoom hfits hroom
  rw [hdes] at hflat
  cases r₁ with
  | error err =>
    cases hrun
    refine ⟨fun hok => (by cases hok), fun err' herr' => ?_⟩
    cases herr'
    exact ⟨herr _ rfl, ⟨_, hends₁, hflat⟩, hbad⟩
  | ok u =>
    dsimp only at hrun
    have hask : (m₁.ask e).2.heap = m₁.heap := rfl
    rcases hasked : m₁.ask e with ⟨_ | _, m₂⟩
    · rw [hasked] at hrun hask
      cases hrun
      refine ⟨fun _ => ⟨?_⟩, fun _ herr' => (by cases herr')⟩
      obtain ⟨m₃, hput, hbad₃, hmark⟩ := (hends₁.of_heap hask).put hfits (hfit rfl)
      refine ⟨m₃, ⟨_, hput, ?_⟩, hbad₃.trans ?_, hmark.imp And.right fun ⟨hno, hnone, hm₃⟩ => ⟨hnone, hm₃, ?_⟩⟩
      · rw [flatten_putLast hends₁.ne_nil, hflat]
      · rw [hask, hbad]
      · exact Nat.lt_of_not_le hno
    · rw [hasked] at hrun hask
      cases hrun
      refine ⟨fun hok => (by cases hok), fun err' herr' => ?_⟩
      cases herr'
      exact ⟨rfl, ⟨_, hends₁.of_heap hask, hflat⟩, by rw [hask, hbad]⟩

/-- After `append_de` the blocks hold the entry if it was put, whatever is returned. -/
theorem appendDe_spec (h : v.Filled m des) (hfits : de.Fits) {r : Except Errno Unit}
    (hrun : v.appendDe hash e delist de m = (r, v', delist', m')) :
    m'.heap.bad = m.heap.bad ∧
      ((v.putDe hash e delist de m).1 = .ok () ∧ v'.Filled m' (des ++ [de]) ∧
          (r = .ok () ∨ r = .error .ENOMEM ∧ deblkSize - v'.lastP.2 < calcSize 0) ∨
        (v.putDe hash e delist de m).1 ≠ .ok () ∧ v'.Filled m' des ∧ r = .error .ENOMEM) := by
  unfold appendDe at hrun
  rcases hput : v.putDe hash e delist de m with ⟨err | u, v₁, delist₁, m₁⟩
  · rw [hput] at hrun
    obtain ⟨-, herror⟩ := putDe_spec h hfits hput
    obtain ⟨herr, hfilled, hbad⟩ := herror err rfl
    cases hrun
    exact ⟨hbad, .inr ⟨fun hok => (by cases hok), hfilled, by rw [herr]⟩⟩
  · rw [hput] at hrun
    obtain ⟨hok, -⟩ := putDe_spec h hfits hput
    obtain ⟨m₂, hfilled, hbad, hmark⟩ := (hok rfl).mark
    dsimp only at hrun
    rcases hmark with hmark | ⟨hmark, rfl, hleft⟩
    · rw [hmark] at hrun
      cases hrun
      exact ⟨hbad, .inl ⟨rfl, hfilled, .inl rfl⟩⟩
    · rw [hmark] at hrun
      dsimp only at hrun
      rcases happ : v₁.appendDeblk e m₂ with ⟨err | u, v₂, m₃⟩
      · rw [happ] at hrun
        cases hrun
        obtain ⟨blocks, hends, hdes⟩ := hfilled
        obtain ⟨herr, hends', hlastP, hbad'⟩ := hends.appendDeblk_error happ
        refine ⟨hbad'.trans hbad, .inl ⟨rfl, ⟨_, hends', hdes⟩, .inr ⟨by rw [herr], ?_⟩⟩⟩
        rwa [hlastP]
      · rw [happ] at hrun
        cases hrun
        obtain ⟨blocks, hends, hdes⟩ := hfilled
        obtain ⟨hends', -, hbad'⟩ := hends.appendDeblk_ok happ
        refine ⟨hbad'.trans hbad, .inl ⟨rfl, ⟨_, hends', ?_⟩, .inl rfl⟩⟩
        rw [List.flatten_append, List.flatten_singleton, List.append_nil, hdes]

-- ---------------------------------------------------------------------------
-- All entries
-- ---------------------------------------------------------------------------

/-- The entries that were put. -/
def kept : List RawDe → List AppendOut → List RawDe
  | [], _ => []
  | _ :: _, [] => []
  | de :: des, o :: outs => if o.put then de :: kept des outs else kept des outs

/-- An entry that was put is reported as an error only where no block could be opened behind it. -/
def AppendOut.Sound (o : AppendOut) : Prop :=
  (o.res = .ok () ∨ o.res = .error .ENOMEM) ∧ (o.res = .ok () → o.put = true) ∧
    (o.put = true → o.res ≠ .ok () → o.left < calcSize 0)

theorem appendAll_spec {more : List RawDe} (h : v.Filled m des) (hfits : ∀ de ∈ more, de.Fits) {outs : List AppendOut}
    (hrun : v.appendAll hash e delist more m = (outs, v', delist', m')) :
    v'.Filled m' (des ++ kept more outs) ∧ m'.heap.bad = m.heap.bad ∧ outs.length = more.length ∧
      ∀ o ∈ outs, o.Sound := by
  induction more generalizing v delist m des outs with
  | nil =>
    cases hrun
    refine ⟨?_, rfl, rfl, fun o ho => (by cases ho)⟩
    rw [kept, List.append_nil]
    exact h
  | cons de more ih =>
    obtain ⟨hde, hmore⟩ := List.forall_mem_cons.mp hfits
    rw [appendAll] at hrun
    rcases happ : v.appendDe hash e delist de m with ⟨r, v₁, delist₁, m₁⟩
    rw [happ] at hrun
    dsimp only at hrun
    rcases hrest : v₁.appendAll hash e delist₁ more m₁ with ⟨outs₁, v₂, delist₂, m₂⟩
    rw [hrest] at hrun
    cases hrun
    obtain ⟨hbad, hput | hput⟩ := appendDe_spec h hde happ
    · obtain ⟨hok, hfilled, hr⟩ := hput
      obtain ⟨hfilled', hbad', hlen, hsound⟩ := ih hfilled hmore hrest
      refine ⟨?_, hbad'.trans hbad, by rw [List.length_cons, List.length_cons, hlen],
        List.forall_mem_cons.mpr ⟨⟨?_, fun _ => ?_, fun _ hne => ?_⟩, hsound⟩⟩
      · rw [List.append_assoc] at hfilled'
        rw [kept, hok]
        exact hfilled'
      · exact hr.imp_right And.left
      · rw [hok]
        rfl
      · exact (hr.resolve_left hne).2
    · obtain ⟨hne, hfilled, hr⟩ := hput
      obtain ⟨hfilled', hbad', hlen, hsound⟩ := ih hfilled hmore hrest
      have hput : (v.putDe hash e delist de m).1.isOk = false := by
        cases hp : (v.putDe hash e delist de m).1 with
        | ok u => exact absurd hp hne
        | error err => rfl
      refine ⟨?_, hbad'.trans hbad, by rw [List.length_cons, List.length_cons, hlen],
        List.forall_mem_cons.mpr ⟨⟨.inr hr, fun hok => ?_, fun hput' => ?_⟩, hsound⟩⟩
      · rw [kept, hput]
        exact hfilled'
      · cases hr.symm.trans hok
      · cases hput.symm.trans hput'

-- ---------------------------------------------------------------------------
-- Walking all blocks
-- ---------------------------------------------------------------------------

theorem walkSlots_holds {ids : List Nat} {contents : List (List RawDe)} (h : List.Forall₂ m.Holds ids contents) :
    ∃ blocks, walkSlots m (ids.map some) = some blocks ∧ blocks.map Prod.fst = contents ∧
      ∀ r ∈ blocks, r.2 ≤ deblkSize := by
  induction h with
  | nil => exact ⟨[], rfl, rfl, fun r hr => (by cases hr)⟩
  | cons ha _ ih =>
    obtain ⟨b, q, hb, hpacks⟩ := ha
    obtain ⟨blocks, hwalk, hcontents, hle⟩ := ih
    refine ⟨(_, q) :: blocks, ?_, by rw [List.map_cons, hcontents], List.forall_mem_cons.mpr ⟨hpacks.le, hle⟩⟩
    rw [List.map_cons, walkSlots, Kmem.deblkAt_eq hb, hwalk]
    rw [Option.bind_some, hpacks.walk]

theorem Stored.walk {ids : List Nat} {contents : List (List RawDe)} (h : v.Stored m ids contents) :
    ∃ blocks, v.walk m = some blocks ∧ blocks.map Prod.fst = contents ∧ ∀ r ∈ blocks, r.2 ≤ deblkSize := by
  obtain ⟨rest, hrest⟩ := h.array
  obtain ⟨blocks, hwalk, hcontents, hle⟩ := walkSlots_holds h.blocks
  refine ⟨blocks, ?_, hcontents, hle⟩
  have htake : (ids.map some ++ rest).take v.nblk = ids.map some := by
    rw [h.nblk, ← List.length_map some, List.take_left]
  rw [VdirMem.walk, Kmem.slotsAt_eq hrest, htake, hwalk]

/-- `vd_last` is in the last block, at the end mark where the walk over that block stops. -/
def AtEndMark (v : VdirMem) (m : Kmem) : Prop :=
  v.lastI + 1 = v.nblk ∧ (m.slotsAt v.deblk)[v.lastI]? = some (some v.lastP.1) ∧
    ∃ b des, m.deblkAt v.lastP.1 = some b ∧ walkDeblk b = some (des, v.lastP.2) ∧ isDeblkEnd b v.lastP.2 = true

theorem Ends.atEndMark (h : v.Ends m blocks) : v.AtEndMark m := by
  obtain ⟨ids, a, done, last, -, hstored, hlast⟩ := h.ends
  obtain ⟨rest, hrest⟩ := hstored.array
  obtain ⟨b, hb, hpacks⟩ := hlast.block
  refine ⟨?_, ?_, b, last, ?_, hpacks.walk, hpacks.ends⟩
  · rw [hlast.lastI, hstored.nblk, List.length_append, List.length_singleton]
  · rw [Kmem.slotsAt_eq hrest, hlast.lastI, hlast.lastP, List.map_append, List.append_assoc,
      List.getElem?_append_right (by rw [List.length_map]), List.length_map, Nat.sub_self]
    rfl
  · rw [hlast.lastP]
    exact Kmem.deblkAt_eq hb

/-- A `vdir` of the one block `a`, which is empty and may be filled. -/
structure Empty (v : VdirMem) (m : Kmem) (a : Nat) : Prop where
  stored : v.Stored m [a] [[]]
  last : v.Last m [] a []
  lastP : v.lastP = (a, 0)
  version : v.version = 0
  jiffy : v.jiffy = 0

theorem Empty.filled {a : Nat} (h : v.Empty m a) : v.Filled m [] :=
  ⟨[[]], ⟨[], a, [], [], rfl, h.stored, h.last⟩, rfl⟩

/-- `alloc_vdir` returns an empty `vdir`. -/
theorem alloc_empty (h : VdirMem.alloc e m = (.ok v, m')) : (∃ a, v.Empty m' a) ∧ m'.heap.bad = m.heap.bad := by
  unfold VdirMem.alloc at h
  have hask : (m.ask e).2.heap = m.heap := rfl
  rcases hasked : m.ask e with ⟨_ | _, m₁⟩
  · rw [hasked] at h hask
    dsimp only at h
    split at h
    · cases h
    · rcases happ : appendDeblk e ⟨(m₁.heap.kmalloc (.ptrs (none :: e.spare m₁.tick))).1, 0, 0, (0, 0), 0, 0⟩
          ⟨(m₁.heap.kmalloc (.ptrs (none :: e.spare m₁.tick))).2, m₁.tick + 1⟩ with ⟨err | u, v₁, m₂⟩
      · rw [happ] at h
        cases h
      · rw [happ] at h
        cases h
        have hstart : Stored ⟨(m₁.heap.kmalloc (.ptrs (none :: e.spare m₁.tick))).1, 0, 0, (0, 0), 0, 0⟩
            ⟨(m₁.heap.kmalloc (.ptrs (none :: e.spare m₁.tick))).2, m₁.tick + 1⟩ [] [] :=
          ⟨⟨none :: e.spare m₁.tick, Kheap.kmalloc_cell_new ..⟩, rfl, List.nodup_nil, .nil⟩
        obtain ⟨a, hstored, hlast, hlastP, hbad⟩ := appendDeblk_ok hstart happ
        obtain ⟨hversion, hjiffy⟩ := appendDeblk_version e
          ⟨(m₁.heap.kmalloc (.ptrs (none :: e.spare m₁.tick))).1, 0, 0, (0, 0), 0, 0⟩
          ⟨(m₁.heap.kmalloc (.ptrs (none :: e.spare m₁.tick))).2, m₁.tick + 1⟩
        rw [happ] at hversion hjiffy
        refine ⟨⟨a, hstored, hlast, hlastP, hversion, hjiffy⟩, hbad.trans ?_⟩
        rw [← hask]
        rfl
  · rw [hasked] at h
    cases h

theorem alloc_filled (h : VdirMem.alloc e m = (.ok v, m')) : v.Filled m' [] := by
  obtain ⟨⟨a, hempty⟩, -⟩ := alloc_empty h
  exact hempty.filled

/-- The walk over all blocks meets all entries. -/
theorem Ends.walk (h : v.Ends m blocks) :
    ∃ walked, v.walk m = some walked ∧ walked.map Prod.fst = blocks ∧ ∀ r ∈ walked, r.2 ≤ deblkSize := by
  obtain ⟨ids, a, done, last, -, hstored, -⟩ := h.ends
  exact hstored.walk

/-- Whatever sequence of entries is appended, and whichever allocations fail: every block is walked up to an end mark
inside of it, all blocks together show the entries that were put, in order, and `vd_last` is the end mark of the last
block. An entry whose call failed was put only if it left no room for an end mark and no further block could be had. -/
theorem appendAll_walk {more : List RawDe} (h : v.Filled m []) (hfits : ∀ de ∈ more, de.Fits) {outs : List AppendOut}
    (hrun : v.appendAll hash e delist more m = (outs, v', delist', m')) :
    (∃ blocks, v'.walk m' = some blocks ∧ (∀ r ∈ blocks, r.2 ≤ deblkSize) ∧
      (blocks.map Prod.fst).flatten = kept more outs) ∧
    v'.AtEndMark m' ∧ m'.heap.bad = m.heap.bad ∧ outs.length = more.length ∧ ∀ o ∈ outs, o.Sound := by
  obtain ⟨⟨blocks, hends, hdes⟩, hbad, hlen, hsound⟩ := appendAll_spec h hfits hrun
  obtain ⟨walked, hwalk, hblocks, hle⟩ := hends.walk
  refine ⟨⟨walked, hwalk, hle, ?_⟩, hends.atEndMark, hbad, hlen, hsound⟩
  rw [hblocks, hdes, List.nil_append]

/-- Nothing is allocated. -/
def noKmem : Kmem := ⟨⟨fun _ => none, 0, false, fun _ _ => rfl⟩, 0⟩

/-- The allocations of this number fail. -/
def failsAt (n : Nat) : KmallocEnv := ⟨fun t => t = n, fun _ _ => 255, fun _ => []⟩

/-- The two entries that every directory has. -/
theorem appendAll_walk_dots :
    ∃ v m outs v' delist' m' blocks, VdirMem.alloc (failsAt 9) noKmem = (.ok v, m) ∧
      v.appendAll (fun _ => 0) (failsAt 9) .init [⟨2, 4, dot⟩, ⟨1, 4, dotdot⟩] m = (outs, v', delist', m') ∧
      v'.walk m' = some blocks ∧ (blocks.map Prod.fst).flatten = kept [⟨2, 4, dot⟩, ⟨1, 4, dotdot⟩] outs := by
  have hfits : ∀ de ∈ [(⟨2, 4, dot⟩ : RawDe), ⟨1, 4, dotdot⟩], de.Fits := by
    intro de hde
    rcases List.mem_pair.mp hde with rfl | rfl
    · exact ⟨by decide, by decide, by decide, by decide⟩
    · exact ⟨by decide, by decide, by decide, by decide⟩
  obtain ⟨v, m, halloc⟩ : ∃ v m, VdirMem.alloc (failsAt 9) noKmem = (.ok v, m) := ⟨_, _, rfl⟩
  rcases hrun : v.appendAll (fun _ => 0) (failsAt 9) .init [⟨2, 4, dot⟩, ⟨1, 4, dotdot⟩] m with
    ⟨outs, v', delist', m'⟩
  obtain ⟨⟨blocks, hwalk, -, hkept⟩, -⟩ := appendAll_walk (alloc_filled halloc) hfits hrun
  exact ⟨v, m, outs, v', delist', m', blocks, halloc, hrun, hwalk, hkept⟩

/-- What the calls return and what the walk shows, when entries are appended to a `vdir` just allocated. -/
def appended (e : KmallocEnv) (more : List RawDe) : Option (List AppendOut × Option (List RawDe)) :=
  match VdirMem.alloc e noKmem with
  | (.error _, _) => none
  | (.ok v, m) =>
    match v.appendAll (fun _ => 0) e .init more m with
    | (outs, v, _, m) => some (outs, (v.walk m).map fun blocks => (blocks.map Prod.fst).flatten)

theorem appended_kept {more : List RawDe} (hfits : ∀ de ∈ more, de.Fits) {outs : List AppendOut}
    {shown : Option (List RawDe)}
    (h : appended e more = some (outs, shown)) : shown = some (kept more outs) := by
  unfold appended at h
  rcases halloc : VdirMem.alloc e noKmem with ⟨err | v, m⟩
  · rw [halloc] at h
    cases h
  · rw [halloc] at h
    dsimp only at h
    rcases hrun : v.appendAll (fun _ => 0) e .init more m with ⟨outs', v', delist', m'⟩
    rw [hrun] at h
    cases h
    obtain ⟨blocks, hends, hdes⟩ := (appendAll_spec (alloc_filled halloc) hfits hrun).1
    obtain ⟨walked, hwalk, hblocks, -⟩ := hends.walk
    rw [hwalk, Option.map_some, hblocks, hdes]
    rfl

/-- Two names that fill a block to its last byte. -/
def fullBlock : List RawDe := [⟨2, 8, List.replicate 255 97⟩, ⟨3, 8, List.replicate 230 98⟩]

set_option maxRecDepth 8192 in
/-- The second entry fills the block and no other can be had: the call fails, and the walk shows the entry. -/
theorem not_walk_failed :
    ∃ outs, appended (failsAt 5) fullBlock = some (outs, some fullBlock) ∧
      outs.map AppendOut.res = [.ok (), .error .ENOMEM] := by
  have hfits : ∀ de ∈ fullBlock, de.Fits := by
    intro de hde
    rcases List.mem_pair.mp hde with rfl | rfl
    · exact ⟨by decide, by decide, by decide, by decide⟩
    · exact ⟨by decide, by decide, by decide, by decide⟩
  obtain ⟨shown, hshown⟩ : ∃ shown, appended (failsAt 5) fullBlock =
      some ([⟨true, .ok (), 240⟩, ⟨true, .error .ENOMEM, 0⟩], shown) := ⟨_, rfl⟩
  have hkept := appended_kept hfits hshown
  refine ⟨[⟨true, .ok (), 240⟩, ⟨true, .error .ENOMEM, 0⟩], ?_, rfl⟩
  rw [hshown, hkept]
  rfl

end VdirMem

end Aufs
