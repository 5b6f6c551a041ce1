-- SUMMARY: Copying a vdir block by block: all of it in blocks of its own, or an empty vdir and nothing lost (vdir.c).
import Aufs.VdirMem

/-!
# Copying a vdir

A reader gets its own copy of the directory's `vdir`. The array of the copy is grown first
and its new slots are cleared. Then the blocks are allocated one by one; when one cannot be
had, `reinit_vdir` frees the slots from the last on, those that are still clear included.
-/

namespace Aufs

open ByteFile

-- ---------------------------------------------------------------------------
-- The code
-- ---------------------------------------------------------------------------

/-- `memcpy` of a block. -/
def Kmem.memcpyDeblk (m : Kmem) (dst src : Option Nat) : Kmem :=
  match dst, src.bind m.deblkAt with
  | some a, some b => m.copyDeblk a b
  | _, _ => { m with heap := m.heap.fault }

/-- A slot of an array. -/
def Kmem.slot (m : Kmem) (p i : Nat) : Option Nat := (m.slotsAt p).getD i none

namespace VdirMem

/-- The loop of `reinit_vdir`, which frees the blocks from the `n`-th down to the second. -/
def freeDeblks (p : Nat) : Nat → Kmem → Kmem
  | 0, m => m
  | n + 1, m => freeDeblks p n ((m.kfree (m.slot p (n + 1))).setSlot p (n + 1) none)

/-- `reinit_vdir` -/
def reinit (v : VdirMem) (m : Kmem) : Except Errno Unit × VdirMem × Kmem :=
  let m := freeDeblks v.deblk (v.nblk - 1) m
  let p := ((m.slot v.deblk 0).getD 0, 0)
  let v := { v with nblk := min v.nblk 1, version := 0, jiffy := 0, lastI := 0, lastP := p }
  match m.setDeblkEnd p with
  | some m => (.ok (), v, m)
  | none => (.error .EPERM, v, m)

/-- The loop of `copy_vdir` over `n` blocks from the `i`-th on. -/
def copyDeblks (e : KmallocEnv) (dst src : Nat) : Nat → Nat → Kmem → Except Errno Unit × Kmem
  | 0, _, m => (.ok (), m)
  | n + 1, i, m =>
    match m.kmallocDeblk e with
    | (none, m) => (.error .ENOMEM, m.setSlot dst i none)
    | (some p, m) =>
      let m := m.setSlot dst i (some p)
      copyDeblks e dst src n (i + 1) (m.memcpyDeblk (m.slot dst i) (m.slot src i))

/-- `copy_vdir`. What `reinit_vdir` returns is not looked at, but for a `BUG_ON`. -/
def copy (e : KmallocEnv) (tgt src : VdirMem) (m : Kmem) : Except Errno Unit × VdirMem × Kmem :=
  match (if tgt.nblk < src.nblk then m.auKzrealloc e tgt.deblk tgt.nblk src.nblk else (some tgt.deblk, m)) with
  | (none, m) =>
    match tgt.reinit m with
    | (_, tgt, m) => (.error .ENOMEM, tgt, m)
  | (some p, m) =>
    let tgt := { tgt with deblk := p, nblk := src.nblk }
    let m := m.memcpyDeblk (m.slot tgt.deblk 0) (m.slot src.deblk 0)
    let tgt := { tgt with version := src.version, jiffy := src.jiffy }
    match copyDeblks e tgt.deblk src.deblk (src.nblk - 1) 1 m with
    | (.ok (), m) => (.ok (), tgt, m)
    | (.error err, m) =>
      match tgt.reinit m with
      | (_, tgt, m) => (.error err, tgt, m)

-- ---------------------------------------------------------------------------
-- Freeing blocks
-- ---------------------------------------------------------------------------

variable {e : KmallocEnv} {m m' : Kmem} {p : Nat}

theorem slot_eq {l : List (Option Nat)} (h : m.heap.cell p = some (.ptrs l)) (i : Nat) :
    m.slot p i = l.getD i none := by
  rw [Kmem.slot, Kmem.slotsAt_eq h]

/-- What is left when the blocks of `mid` are freed. -/
structure Freed (m : Kmem) (p : Nat) (hd : Option Nat) (mid tail : List (Option Nat)) (m' : Kmem) : Prop where
  array : m'.heap.cell p = some (.ptrs (hd :: List.replicate mid.length none ++ tail))
  freed : ∀ a, some a ∈ mid → m'.heap.cell a = none
  frame : ∀ a, a ≠ p → some a ∉ mid → m'.heap.cell a = m.heap.cell a
  bad : m'.heap.bad = m.heap.bad
  tick : m'.tick = m.tick

/-- `kfree` of a slot. -/
theorem kfree_spec {s : Option Nat} (hlive : ∀ a, s = some a → ∃ b, m.heap.cell a = some (.deblk b)) :
    (∀ a, s = some a → (m.kfree s).heap.cell a = none) ∧
      (∀ a, s ≠ some a → (m.kfree s).heap.cell a = m.heap.cell a) ∧
      (m.kfree s).heap.bad = m.heap.bad ∧ (m.kfree s).tick = m.tick := by
  cases s with
  | none => exact ⟨fun a ha => (by cases ha), fun _ _ => rfl, rfl, rfl⟩
  | some a =>
    obtain ⟨b, hb⟩ := hlive a rfl
    refine ⟨fun c hc => ?_, fun c hc => ?_, Kheap.release_bad hb, rfl⟩
    · cases hc
      exact Kheap.release_cell_self ..
    · exact Kheap.release_cell_of_ne fun hca => hc (by rw [hca])

/-- Every block of the freed slots is freed once, and a slot that is clear frees nothing. -/
theorem freeDeblks_spec {hd : Option Nat} {mid tail : List (Option Nat)}
    (harray : m.heap.cell p = some (.ptrs (hd :: mid ++ tail)))
    (hlive : ∀ a, some a ∈ mid → ∃ b, m.heap.cell a = some (.deblk b)) (hnodup : (mid.filterMap id).Nodup) :
    Freed m p hd mid tail (freeDeblks p mid.length m) := by
  induction mid using List.reverseRecOn generalizing m tail with
  | nil => exact ⟨harray, fun a ha => (by cases ha), fun _ _ _ => rfl, rfl, rfl⟩
  | append_singleton mid s ih =>
    have hs : m.slot p (mid.length + 1) = s := by
      rw [slot_eq harray, List.getD_eq_getElem?_getD, List.cons_append, List.getElem?_cons_succ, List.append_assoc,
        List.getElem?_append_right (Nat.le_refl _), Nat.sub_self]
      rfl
    have hmem : ∀ a, s = some a → some a ∈ mid ++ [s] := fun a ha => by
      rw [ha]
      exact List.mem_append_right _ List.mem_cons_self
    obtain ⟨hfreed, hframe, hbad, htick⟩ := kfree_spec (s := s) fun a ha => hlive a (hmem a ha)
    have hp : s ≠ some p := by
      intro hsp
      obtain ⟨b, hb⟩ := hlive p (hmem p hsp)
      cases harray.symm.trans hb
    have hset : (hd :: (mid ++ [s]) ++ tail).set (mid.length + 1) none = hd :: mid ++ (none :: tail) := by
      rw [List.cons_append, List.set_cons_succ, List.append_assoc, List.set_append_right _ _ (Nat.le_refl _),
        Nat.sub_self]
      rfl
    obtain ⟨harray₁, hframe₁, hbad₁, htick₁, -⟩ := Kmem.setSlot_spec (i := mid.length + 1) (x := none)
      ((hframe p hp).trans harray) (by
        rw [List.length_append, List.length_cons, List.length_append, List.length_singleton]
        omega)
    rw [hset] at harray₁
    have hdistinct : ∀ a, s = some a → some a ∉ mid := by
      intro a ha hin
      rw [List.filterMap_append, ha] at hnodup
      have hdisj := (List.nodup_append.mp hnodup).2.2 a
        (List.mem_filterMap.mpr ⟨some a, hin, rfl⟩) a List.mem_cons_self
      exact hdisj rfl
    have hrest : ∀ a, some a ∈ mid → a ≠ p ∧ s ≠ some a := by
      intro a ha
      refine ⟨?_, fun hsa => hdistinct a hsa ha⟩
      rintro rfl
      obtain ⟨b, hb⟩ := hlive a (List.mem_append_left _ ha)
      cases harray.symm.trans hb
    rw [List.length_append, List.length_singleton, freeDeblks, hs]
    have hlive₁ : ∀ a, some a ∈ mid → 
        ∃ b, ((m.kfree s).setSlot p (mid.length + 1) none).heap.cell a = some (.deblk b) := by
      intro a ha
      obtain ⟨hap, hsa⟩ := hrest a ha
      rw [hframe₁ a hap, hframe a hsa]
      exact hlive a (List.mem_append_left _ ha)
    have hnodup₁ : (mid.filterMap id).Nodup := by
      rw [List.filterMap_append] at hnodup
      exact (List.nodup_append.mp hnodup).1
    obtain ⟨harray₂, hfreed₂, hframe₂, hbad₂, htick₂⟩ := ih harray₁ hlive₁ hnodup₁
    refine ⟨?_, fun a ha => ?_, fun a hap ha => ?_, hbad₂.trans (hbad₁.trans hbad), htick₂.trans (htick₁.trans htick)⟩
    · rw [harray₂, List.length_append, List.length_singleton, List.replicate_succ', List.cons_append,
        List.cons_append, List.append_assoc]
      rfl
    · rcases List.mem_append.mp ha with ha | ha
      · exact hfreed₂ a ha
      · have hsa : s = some a := (List.mem_singleton.mp ha).symm
        have hap : a ≠ p := fun hap => hp (hap ▸ hsa)
        rw [hframe₂ a hap (hdistinct a hsa), hframe₁ a hap, hfreed a hsa]
    · have hmid : some a ∉ mid := fun hin => ha (List.mem_append_left _ hin)
      have hsa : s ≠ some a := fun hsa => ha (hmem a hsa)
      rw [hframe₂ a hap hmid, hframe₁ a hap, hframe a hsa]

-- ---------------------------------------------------------------------------
-- An empty vdir
-- ---------------------------------------------------------------------------

variable {v : VdirMem} {t : Nat}

/-- The walk over an empty `vdir` meets nothing. -/
theorem Empty.walk (h : v.Empty m t) : v.walk m = some [([], 0)] := by
  obtain ⟨rest, hrest⟩ := h.stored.array
  obtain ⟨b, hb, hpacks⟩ := h.last.block
  rw [h.lastP] at hpacks
  have htake : ([t].map some ++ rest).take v.nblk = [some t] := by
    rw [h.stored.nblk]
    rfl
  rw [VdirMem.walk, Kmem.slotsAt_eq hrest, htake, walkSlots, Kmem.deblkAt_eq hb, Option.bind_some, hpacks.walk]
  rfl

/-- What `reinit_vdir` makes of a `vdir` whose first block is `t`. -/
structure Reinited (v : VdirMem) (m : Kmem) (t : Nat) (mid : List (Option Nat)) (v' : VdirMem) (m' : Kmem) :
    Prop where
  empty : v'.Empty m' t
  deblk : v'.deblk = v.deblk
  freed : ∀ a, some a ∈ mid → m'.heap.cell a = none
  frame : ∀ a, a ≠ v.deblk → a ≠ t → some a ∉ mid → m'.heap.cell a = m.heap.cell a
  bad : m'.heap.bad = m.heap.bad
  tick : m'.tick = m.tick

theorem reinit_spec {mid tail : List (Option Nat)} {b : List UInt8}
    (harray : m.heap.cell v.deblk = some (.ptrs (some t :: mid ++ tail))) (hnblk : v.nblk = mid.length + 1)
    (ht : m.heap.cell t = some (.deblk b)) (hlen : b.length = deblkSize) (hmid : some t ∉ mid)
    (hlive : ∀ a, some a ∈ mid → ∃ b, m.heap.cell a = some (.deblk b)) (hnodup : (mid.filterMap id).Nodup) :
    ∃ v' m', v.reinit m = (.ok (), v', m') ∧ Reinited v m t mid v' m' := by
  have hne : t ≠ v.deblk := by
    intro hne
    rw [hne, harray] at ht
    cases ht
  have hfreed := freeDeblks_spec harray hlive hnodup
  have hslot : (freeDeblks v.deblk mid.length m).slot v.deblk 0 = some t := slot_eq hfreed.array 0
  obtain ⟨b', hb', hpacks⟩ := packs_nil hlen
  obtain ⟨m₂, hset, hcell, hframe, hbad, htick, -⟩ :=
    Kmem.setDeblkEnd_spec ((hfreed.frame t hne hmid).trans ht) hlen hb'
  have hone : min v.nblk 1 = 1 := by
    rw [hnblk]
    omega
  refine ⟨{ v with nblk := 1, version := 0, jiffy := 0, lastI := 0, lastP := (t, 0) }, m₂, ?_, ?_, rfl,
    fun a ha => ?_, fun a hap hat ha => ?_, hbad.trans hfreed.bad, htick.trans hfreed.tick⟩
  · unfold reinit
    rw [hnblk, Nat.add_sub_cancel]
    dsimp only
    rw [hslot, Option.getD_some, hset, ← hnblk, hone]
  · refine ⟨⟨⟨List.replicate mid.length none ++ tail, ?_⟩, rfl, List.nodup_singleton t, .cons ?_ .nil⟩,
      ⟨rfl, rfl, b', hcell, hpacks⟩, rfl, rfl, rfl⟩
    · exact (hframe _ hne.symm).trans hfreed.array
    · exact ⟨b', 0, hcell, hpacks⟩
  · have hat : a ≠ t := fun hat => hmid (hat ▸ ha)
    rw [hframe a hat, hfreed.freed a ha]
  · rw [hframe a hat, hfreed.frame a hap ha]

-- ---------------------------------------------------------------------------
-- Copying blocks
-- ---------------------------------------------------------------------------

/-- The copy so far: `ids` are copied, `k` slots are clear. `m₀` is the memory at the start. -/
structure Copying (m₀ : Kmem) (dst : Nat) (ids : List Nat) (k : Nat) (contents : List (List RawDe))
    (m : Kmem) : Prop where
  array : ∃ rest, m.heap.cell dst = some (.ptrs (ids.map some ++ List.replicate k none ++ rest))
  nodup : ids.Nodup
  blocks : List.Forall₂ m.Holds ids contents
  frame : ∀ a, a ≠ dst → a ∉ ids → m.heap.cell a = m₀.heap.cell a
  bad : m.heap.bad = m₀.heap.bad
  next : m₀.heap.next ≤ m.heap.next

/-- One more block, with the content of a block of the source. -/
theorem Copying.step {m₀ : Kmem} {dst src : Nat} {ids : List Nat} {k : Nat} {contents : List (List RawDe)}
    (h : Copying m₀ dst ids (k + 1) contents m) (hblock : m.kmallocDeblk e = (some p, m'))
    {des : List RawDe} {s : Nat} {slots : List (Option Nat)} (hsrc : m.heap.cell src = some (.ptrs slots))
    (hs : slots[ids.length]? = some (some s))
    (hdes : m.Holds s des) (hne : dst ≠ src) :
    let m₁ := m'.setSlot dst ids.length (some p)
    Copying m₀ dst (ids ++ [p]) k (contents ++ [des])
      (m₁.memcpyDeblk (m₁.slot dst ids.length) (m₁.slot src ids.length)) ∧
      m₀.heap.next ≤ p := by
  obtain ⟨rest, hrest⟩ := h.array
  obtain ⟨b, q, hb, hpacks⟩ := hdes
  obtain ⟨-, -, hp, hnext, hbad, ⟨c, -, hc⟩, hframe⟩ := Kmem.kmallocDeblk_some hblock
  have hlt : ∀ {a x}, m.heap.cell a = some x → a ≠ p := by
    intro a x ha
    rw [hp]
    exact Nat.ne_of_lt (Kheap.lt_next ha)
  have hids : ∀ a ∈ ids, a ≠ p := by
    intro a ha
    obtain ⟨x, hx⟩ := Kmem.deblk_of_mem h.blocks ha
    exact hlt hx
  have hidsDst : ∀ a ∈ ids, a ≠ dst := by
    rintro a ha rfl
    obtain ⟨x, hx⟩ := Kmem.deblk_of_mem h.blocks ha
    cases hrest.symm.trans hx
  have hset : (ids.map some ++ List.replicate (k + 1) none ++ rest).set ids.length (some p) =
      (ids ++ [p]).map some ++ List.replicate k none ++ rest := by
    rw [List.append_assoc, List.set_append_right _ _ (by rw [List.length_map]), List.length_map, Nat.sub_self,
      List.replicate_succ, List.map_append, List.append_assoc, List.append_assoc]
    rfl
  obtain ⟨harray₁, hframe₁, hbad₁, -, hnext₁⟩ := Kmem.setSlot_spec (i := ids.length) (x := some p)
    ((hframe dst (hlt hrest)).trans hrest) (by
      rw [List.length_append, List.length_append, List.length_map, List.length_replicate]
      omega)
  rw [hset] at harray₁
  generalize m'.setSlot dst ids.length (some p) = m₁ at harray₁ hframe₁ hbad₁ hnext₁
  have hdst : m₁.slot dst ids.length = some p := by
    rw [slot_eq harray₁, List.getD_eq_getElem?_getD, List.map_append, List.append_assoc, List.append_assoc,
      List.getElem?_append_right (by rw [List.length_map]), List.length_map, Nat.sub_self]
    rfl
  have hsrc₁ : m₁.slot src ids.length = some s := by
    have hcell : m₁.heap.cell src = some (.ptrs slots) := by
      rw [hframe₁ src hne.symm, hframe src (hlt hsrc), hsrc]
    rw [slot_eq hcell, List.getD_eq_getElem?_getD, hs]
    rfl
  have hsDst : s ≠ dst := by
    rintro rfl
    cases hrest.symm.trans hb
  have hs₁ : m₁.deblkAt s = some b := Kmem.deblkAt_eq (by rw [hframe₁ s hsDst, hframe s (hlt hb), hb])
  have hp₁ : m₁.heap.cell p = some (.deblk c) := by
    rw [hframe₁ p (hlt hrest).symm, hc]
  have hcopy : m₁.memcpyDeblk (some p) (some s) = m₁.copyDeblk p b := by
    unfold Kmem.memcpyDeblk
    rw [Option.bind_some, hs₁]
  have hkeep : ∀ a, a ≠ p → a ≠ dst → (m₁.copyDeblk p b).heap.cell a = m.heap.cell a := by
    intro a hap had
    exact (Kheap.store_cell_of_ne hap).trans ((hframe₁ a had).trans (hframe a hap))
  dsimp only
  rw [hdst, hsrc₁, hcopy]
  refine ⟨⟨⟨rest, ?_⟩, ?_, ?_, fun a had ha => ?_, ?_, ?_⟩, ?_⟩
  · exact (Kheap.store_cell_of_ne (hlt hrest)).trans harray₁
  · refine List.nodup_append.mpr ⟨h.nodup, List.nodup_singleton p, fun a ha x hx => ?_⟩
    rw [List.mem_singleton.mp hx]
    exact hids a ha
  · refine List.rel_append (Kmem.holds_congr h.blocks fun a ha => ?_) (.cons ⟨b, q, ?_, hpacks⟩ .nil)
    · exact hkeep a (hids a ha) (hidsDst a ha)
    · exact Kheap.store_cell_self hp₁
  · have hap : a ≠ p := fun hap => ha (List.mem_append_right _ (List.mem_singleton.mpr hap))
    rw [hkeep a hap had, h.frame a had fun hin => ha (List.mem_append_left _ hin)]
  · exact (Kheap.store_bad hp₁).trans (hbad₁.trans (hbad.trans h.bad))
  · have hle := h.next
    have hstore : (m₁.copyDeblk p b).heap.next = m₁.heap.next := Kheap.store_next ..
    omega
  · rw [hp]
    exact h.next

/-- A slot that is clear is cleared. -/
theorem Copying.clear {m₀ : Kmem} {dst : Nat} {ids : List Nat} {k : Nat} {contents : List (List RawDe)}
    (h : Copying m₀ dst ids (k + 1) contents m) :
    Copying m₀ dst ids (k + 1) contents (m.setSlot dst ids.length none) := by
  obtain ⟨rest, hrest⟩ := h.array
  have hset : (ids.map some ++ List.replicate (k + 1) none ++ rest).set ids.length none =
      ids.map some ++ List.replicate (k + 1) none ++ rest := by
    rw [List.append_assoc, List.set_append_right _ _ (by rw [List.length_map]), List.length_map, Nat.sub_self,
      List.replicate_succ]
    rfl
  obtain ⟨harray, hframe, hbad, -, hnext⟩ := Kmem.setSlot_spec (i := ids.length) (x := none) hrest (by
    rw [List.length_append, List.length_append, List.length_map, List.length_replicate]
    omega)
  rw [hset] at harray
  refine ⟨⟨rest, harray⟩, h.nodup, Kmem.holds_congr h.blocks fun a ha => hframe a ?_, fun a had ha => ?_,
    hbad.trans h.bad, by rw [hnext]; exact h.next⟩
  · rintro rfl
    obtain ⟨x, hx⟩ := Kmem.deblk_of_mem h.blocks ha
    cases hrest.symm.trans hx
  · rw [hframe a had, h.frame a had ha]

theorem Copying.of_heap {m₀ : Kmem} {dst : Nat} {ids : List Nat} {k : Nat} {contents : List (List RawDe)}
    (h : Copying m₀ dst ids k contents m) (hheap : m'.heap = m.heap) : Copying m₀ dst ids k contents m' := by
  refine ⟨?_, h.nodup, Kmem.holds_congr h.blocks fun a _ => by rw [hheap], fun a had ha => ?_, ?_, ?_⟩
  · rw [hheap]
    exact h.array
  · rw [hheap, h.frame a had ha]
  · rw [hheap, h.bad]
  · rw [hheap]
    exact h.next

theorem setSlot_tick (m : Kmem) (p i : Nat) (x : Option Nat) : (m.setSlot p i x).tick = m.tick := by
  unfold Kmem.setSlot
  split
  · rfl
  · rfl

theorem memcpyDeblk_tick (m : Kmem) (dst src : Option Nat) : (m.memcpyDeblk dst src).tick = m.tick := by
  unfold Kmem.memcpyDeblk
  split
  · rfl
  · rfl

/-- No allocation between the two memories has failed. -/
def NoneFailed (e : KmallocEnv) (m m' : Kmem) : Prop := ∀ t, m.tick ≤ t → t < m'.tick → e.fails t = false

/-- How the loop ends: all blocks are copied, or an allocation has failed and some are. The copies are blocks that were
not allocated before. -/
structure Copied (e : KmallocEnv) (m₀ : Kmem) (dst : Nat) (ids : List Nat) (n : Nat)
    (contents rest : List (List RawDe))
    (m : Kmem) (r : Except Errno Unit) (m' : Kmem) : Prop where
  tick : m.tick ≤ m'.tick
  ok : r = .ok () → NoneFailed e m m' ∧
    ∃ new, Copying m₀ dst (ids ++ new) 0 (contents ++ rest) m' ∧ ∀ a ∈ new, m₀.heap.next ≤ a
  error : ∀ err, r = .error err → err = .ENOMEM ∧ ¬ NoneFailed e m m' ∧
    ∃ new k some', new.length + k = n ∧ Copying m₀ dst (ids ++ new) k some' m' ∧ ∀ a ∈ new, m₀.heap.next ≤ a

theorem copyDeblks_spec {m₀ : Kmem} {dst src : Nat} {ids srest : List Nat} {contents rest : List (List RawDe)}
    {front tail : List (Option Nat)} (hne : dst ≠ src)
    (hsrc : m₀.heap.cell src = some (.ptrs (front ++ srest.map some ++ tail))) (hfront : front.length = ids.length)
    (hblocks : List.Forall₂ m₀.Holds srest rest) (hcopy : Copying m₀ dst ids srest.length contents m)
    (hdst : ∃ l, m₀.heap.cell dst = some (.ptrs l)) (hdisj : ∀ s ∈ srest, s ∉ ids) (hsids : src ∉ ids)
    {r : Except Errno Unit} (hrun : copyDeblks e dst src srest.length ids.length m = (r, m')) :
    Copied e m₀ dst ids srest.length contents rest m r m' := by
  induction hblocks generalizing ids contents front m with
  | nil =>
    cases hrun
    refine ⟨Nat.le_refl _, fun _ => ⟨fun t h₁ h₂ => by omega, [], ?_, fun a ha => (by cases ha)⟩,
      fun err herr => (by cases herr)⟩
    rw [List.append_nil, List.append_nil]
    exact hcopy
  | @cons s des srest rest hs hblocks ih =>
    rw [List.length_cons, copyDeblks] at hrun
    rw [List.length_cons] at hcopy
    rcases hblock : m.kmallocDeblk e with ⟨_ | p, m₁⟩
    · rw [hblock] at hrun
      obtain ⟨hfail, hm₁⟩ := Kmem.kmallocDeblk_none hblock
      cases hrun
      have htick : (m₁.setSlot dst ids.length none).tick = m.tick + 1 := by
        rw [setSlot_tick, hm₁]
      have hheap : m₁.heap = m.heap := by
        rw [hm₁]
      refine ⟨by omega, fun hok => (by cases hok), fun err herr => ?_⟩
      cases herr
      refine ⟨rfl, fun hall => ?_, [], srest.length + 1, contents, ?_, ?_, fun a ha => (by cases ha)⟩
      · cases hfail.symm.trans (hall m.tick (Nat.le_refl _) (by omega))
      · rw [List.length_nil, Nat.zero_add, List.length_cons]
      · rw [List.append_nil]
        exact (hcopy.of_heap hheap).clear
    · rw [hblock] at hrun
      dsimp only at hrun
      obtain ⟨hok₁, htick₁, -⟩ := Kmem.kmallocDeblk_some hblock
      obtain ⟨l, hl⟩ := hdst
      have hsIds : s ∉ ids := hdisj s List.mem_cons_self
      have hsDst : s ≠ dst := by
        rintro rfl
        obtain ⟨b, q, hb, -⟩ := hs
        cases hl.symm.trans hb
      have hslot : (front ++ (s :: srest).map some ++ tail)[ids.length]? = some (some s) := by
        rw [List.append_assoc, List.getElem?_append_right (Nat.le_of_eq hfront), hfront, Nat.sub_self]
        rfl
      obtain ⟨hstep, hp⟩ := hcopy.step hblock ((hcopy.frame src hne.symm hsids).trans hsrc) hslot
        (hs.congr (hcopy.frame s hsDst hsIds)) hne
      have hidx : ids.length + 1 = (ids ++ [p]).length := by
        rw [List.length_append, List.length_singleton]
      rw [hidx] at hrun
      have hsplit : front ++ (s :: srest).map some ++ tail = front ++ [some s] ++ srest.map some ++ tail := by
        rw [List.map_cons, List.append_assoc front [some s]]
        rfl
      have hlive : ∀ {a x}, m₀.heap.cell a = some x → a ∉ ids → a ∉ ids ++ [p] := by
        intro a x ha hin hmem
        rcases List.mem_append.mp hmem with hmem | hmem
        · exact hin hmem
        · rw [List.mem_singleton.mp hmem] at ha
          exact absurd (Kheap.lt_next ha) (Nat.not_lt.mpr hp)
      have hdone := ih (hsplit ▸ hsrc) (by rw [List.length_append, List.length_append, hfront]; rfl) hstep
        (fun s' hs' => ?_) (hlive hsrc hsids) hrun
      · have htick : ((m₁.setSlot dst ids.length (some p)).memcpyDeblk
            ((m₁.setSlot dst ids.length (some p)).slot dst ids.length)
            ((m₁.setSlot dst ids.length (some p)).slot src ids.length)).tick = m.tick + 1 := by
          rw [memcpyDeblk_tick, setSlot_tick, htick₁]
        have hle := hdone.tick
        rw [htick] at hle
        refine ⟨by omega, fun hr => ?_, fun err hr => ?_⟩
        · obtain ⟨hall, new, hcopying, hfresh⟩ := hdone.ok hr
          refine ⟨fun t h₁ h₂ => ?_, p :: new, ?_, List.forall_mem_cons.mpr ⟨hp, hfresh⟩⟩
          · rcases Nat.eq_or_lt_of_le h₁ with rfl | h₁
            · exact hok₁
            · exact hall t (by rw [htick]; exact h₁) h₂
          · rw [List.append_assoc, List.append_assoc] at hcopying
            exact hcopying
        · obtain ⟨herr, hfail, new, k, some', hlen, hcopying, hfresh⟩ := hdone.error err hr
          refine ⟨herr, fun hall => hfail fun t h₁ h₂ => hall t ?_ h₂, p :: new, k, some', ?_, ?_,
            List.forall_mem_cons.mpr ⟨hp, hfresh⟩⟩
          · rw [htick] at h₁
            omega
          · rw [List.length_cons, List.length_cons]
            omega
          · rw [List.append_assoc] at hcopying
            exact hcopying
      · have hmem : s' ∈ s :: srest := List.mem_cons_of_mem _ hs'
        obtain ⟨b, hb⟩ := Kmem.deblk_of_mem hblocks hs'
        exact hlive hb (hdisj s' hmem)

-- ---------------------------------------------------------------------------
-- Copying a vdir
-- ---------------------------------------------------------------------------

variable {tgt tgt' src : VdirMem} {s t : Nat} {srest : List Nat} {c des : List RawDe} {crest : List (List RawDe)}

/-- The memory when the loop begins: the array is large enough, and the first block is copied. -/
structure Prepared (tgt src : VdirMem) (m : Kmem) (t p : Nat) (n : Nat) (c : List RawDe) (m₂ : Kmem) : Prop where
  copying : Copying m₂ p [t] n [c] m₂
  frame : ∀ a, a ≠ t → a ≠ tgt.deblk → a ≠ p → m₂.heap.cell a = m.heap.cell a
  moved : p = tgt.deblk ∨ m.heap.cell p = none ∧ m₂.heap.cell tgt.deblk = none
  bad : m₂.heap.bad = m.heap.bad
  next : m.heap.next ≤ m₂.heap.next
  ne : p ≠ src.deblk

/-- A cell that neither belongs to the target nor is new. -/
theorem Prepared.old {p n : Nat} {m₂ : Kmem} (h : Prepared tgt src m t p n c m₂) {a : Nat} {x : Chunk}
    (ha : m.heap.cell a = some x) (hat : a ≠ t) (had : a ≠ tgt.deblk) : m₂.heap.cell a = some x := by
  refine (h.frame a hat had ?_).trans ha
  rintro rfl
  rcases h.moved with hmoved | ⟨hnone, -⟩
  · exact had hmoved
  · cases hnone.symm.trans ha

theorem prepare_spec {p : Nat} {m₁ : Kmem} (hsrc : src.Stored m (s :: srest) (c :: crest))
    (htgt : tgt.Stored m [t] [des])
    (hdisj : t ∉ s :: srest) (harr : tgt.deblk ≠ src.deblk) (hgrown : m.Grown tgt.deblk src.nblk [some t] p m₁) :
    Prepared tgt src m t p srest.length c (m₁.memcpyDeblk (m₁.slot p 0) (m₁.slot src.deblk 0)) := by
  obtain ⟨rest, hrest⟩ := hgrown.array
  obtain ⟨stail, hstail⟩ := hsrc.array
  have hnblk : src.nblk - [some t].length = srest.length := by
    rw [hsrc.nblk, List.length_cons]
    rfl
  rw [hnblk] at hrest
  have hold : ∀ {a x}, m.heap.cell a = some x → a ≠ tgt.deblk → a ≠ p := by
    rintro a x ha had rfl
    rcases hgrown.moved with hmoved | ⟨hmoved, -⟩
    · exact had hmoved
    · exact absurd (Kheap.lt_next ha) (by rw [hmoved]; exact lt_irrefl _)
  obtain ⟨bt, hbt⟩ := Kmem.deblk_of_mem htgt.blocks List.mem_cons_self
  have htArr : t ≠ tgt.deblk := htgt.ne_deblk List.mem_cons_self
  have ht₁ : m₁.heap.cell t = some (.deblk bt) := (hgrown.frame t htArr (hold hbt htArr)).trans hbt
  obtain ⟨⟨b, q, hb, hpacks⟩, -⟩ := List.forall₂_cons.mp hsrc.blocks
  have hsArr : s ≠ tgt.deblk := by
    rintro rfl
    obtain ⟨l, hl⟩ := htgt.array
    cases hl.symm.trans hb
  have hs₁ : m₁.heap.cell s = some (.deblk b) := (hgrown.frame s hsArr (hold hb hsArr)).trans hb
  have hp₀ : m₁.slot p 0 = some t := slot_eq hrest 0
  have hsrc₁ : m₁.heap.cell src.deblk = _ := (hgrown.frame _ harr.symm (hold hstail harr.symm)).trans hstail
  have hs₀ : m₁.slot src.deblk 0 = some s := slot_eq hsrc₁ 0
  have hcopy : m₁.memcpyDeblk (some t) (some s) = m₁.copyDeblk t b := by
    unfold Kmem.memcpyDeblk
    rw [Option.bind_some, Kmem.deblkAt_eq hs₁]
  have hpt : p ≠ t := fun hpt => hold hbt htArr hpt.symm
  rw [hp₀, hs₀, hcopy]
  refine ⟨⟨⟨rest, ?_⟩, List.nodup_singleton t, .cons ⟨b, q, ?_, hpacks⟩ .nil, fun _ _ _ => rfl, rfl, Nat.le_refl _⟩,
    fun a hat had hap => ?_, ?_, ?_, ?_, ?_⟩
  · exact (Kheap.store_cell_of_ne hpt).trans hrest
  · exact Kheap.store_cell_self ht₁
  · exact (Kheap.store_cell_of_ne hat).trans (hgrown.frame a had hap)
  · refine hgrown.moved.imp_right fun ⟨hp, hnone⟩ => ⟨?_, ?_⟩
    · rw [hp]
      exact m.heap.fresh _ (Nat.le_refl _)
    · exact (Kheap.store_cell_of_ne htArr.symm).trans hnone
  · exact (Kheap.store_bad ht₁).trans hgrown.bad
  · have hstore : (m₁.copyDeblk t b).heap.next = m₁.heap.next := Kheap.store_next ..
    rw [hstore]
    exact hgrown.next
  · exact (hold hstail harr.symm).symm

theorem NoneFailed.trans {m₁ : Kmem} (h : NoneFailed e m m₁) (h' : NoneFailed e m₁ m') : NoneFailed e m m' := by
  intro t h₁ h₂
  rcases Nat.lt_or_ge t m₁.tick with hlt | hge
  · exact h t h₁ hlt
  · exact h' t hge h₂

/-- The array of the target is made large enough, unless it already is. -/
theorem growArray_spec {p : Nat} {m₁ : Kmem} (htgt : tgt.Stored m [t] [des])
    (hrun : (if tgt.nblk < src.nblk then m.auKzrealloc e tgt.deblk tgt.nblk src.nblk else (some tgt.deblk, m)) =
      (some p, m₁)) : m.Grown tgt.deblk src.nblk [some t] p m₁ ∧ NoneFailed e m m₁ := by
  obtain ⟨rest, hrest⟩ := htgt.array
  split at hrun
  · rw [htgt.nblk] at hrun
    exact Kmem.auKzrealloc_some hrest hrun
  next hone =>
    have hzero : src.nblk - [some t].length = 0 := by
      have htwo := htgt.nblk
      rw [List.length_singleton] at htwo ⊢
      omega
    cases hrun
    refine ⟨⟨⟨rest, ?_⟩, fun _ _ _ => rfl, .inl rfl, rfl, Nat.le_refl _, Nat.le_refl _⟩, fun t h₁ h₂ => by omega⟩
    rw [hzero]
    exact hrest

/-- What a copy leaves alone: all cells that do not belong to the target, but for the blocks `new`. An array that is no
longer in use is freed. -/
structure Beside (tgt tgt' : VdirMem) (m : Kmem) (t : Nat) (new : List Nat) (m' : Kmem) : Prop where
  frame : ∀ a, a ≠ t → a ≠ tgt.deblk → a ≠ tgt'.deblk → a ∉ new → m'.heap.cell a = m.heap.cell a
  moved : tgt'.deblk = tgt.deblk ∨ m.heap.cell tgt'.deblk = none ∧ m'.heap.cell tgt.deblk = none
  fresh : ∀ a ∈ new, m.heap.next ≤ a
  bad : m'.heap.bad = m.heap.bad

/-- What was allocated and does not belong to the target is as it was. -/
theorem Beside.old {new : List Nat} (h : Beside tgt tgt' m t new m') {a : Nat} {x : Chunk}
    (ha : m.heap.cell a = some x)
    (hat : a ≠ t) (had : a ≠ tgt.deblk) : m'.heap.cell a = m.heap.cell a := by
  refine h.frame a hat had ?_ fun hnew => absurd (Kheap.lt_next ha) (Nat.not_lt.mpr (h.fresh a hnew))
  rintro rfl
  rcases h.moved with hmoved | ⟨hnone, -⟩
  · exact had hmoved
  · cases hnone.symm.trans ha

/-- When the array cannot be grown the target is emptied. -/
theorem copy_noArray {m₁ : Kmem} (htgt : tgt.Stored m [t] [des]) (hheap : m₁.heap = m.heap) :
    ∃ tgt' m', tgt.reinit m₁ = (.ok (), tgt', m') ∧ tgt'.Empty m' t ∧ Beside tgt tgt' m t [] m' ∧
      m'.tick = m₁.tick := by
  obtain ⟨rest, hrest⟩ := htgt.array
  obtain ⟨⟨b, q, hb, hpacks⟩, -⟩ := List.forall₂_cons.mp htgt.blocks
  rw [← hheap] at hrest hb
  have hrest : m₁.heap.cell tgt.deblk = some (.ptrs (some t :: [] ++ rest)) := hrest
  obtain ⟨tgt', m', hrun, hre⟩ := reinit_spec hrest htgt.nblk hb hpacks.length List.not_mem_nil
    (fun a ha => (by cases ha)) List.nodup_nil
  refine ⟨tgt', m', hrun, hre.empty, ⟨fun a hat had _ _ => ?_, .inl hre.deblk, fun a ha => (by cases ha), ?_⟩,
    hre.tick⟩
  · rw [hre.frame a had hat List.not_mem_nil, hheap]
  · rw [hre.bad, hheap]

/-- When a block cannot be had, those that were copied are freed and the target is emptied. -/
theorem copy_noBlock {p n k : Nat} {m₂ m₃ : Kmem} {new : List Nat} {contents : List (List RawDe)} {v : VdirMem}
    (hprep : Prepared tgt src m t p n c m₂) (hcopy : Copying m₂ p (t :: new) k contents m₃)
    (hfresh : ∀ a ∈ new, m₂.heap.next ≤ a) (hv : v.deblk = p) (hnblk : v.nblk = new.length + k + 1) :
    ∃ tgt' m', v.reinit m₃ = (.ok (), tgt', m') ∧ tgt'.Empty m' t ∧ Beside tgt tgt' m t [] m' ∧
      m'.tick = m₃.tick := by
  obtain ⟨rest, hrest⟩ := hcopy.array
  obtain ⟨c', contents', ⟨b, q, hb, hpacks⟩, hnew, -⟩ := List.forall₂_cons_left_iff.mp hcopy.blocks
  obtain ⟨htnew, hnodup⟩ := List.nodup_cons.mp hcopy.nodup
  have hmem : ∀ a, some a ∈ new.map some ++ List.replicate k none ↔ a ∈ new := by
    intro a
    rw [List.mem_append, List.mem_replicate]
    constructor
    · rintro (ha | ⟨-, ha⟩)
      · obtain ⟨a', ha', he⟩ := List.mem_map.mp ha
        cases he
        exact ha'
      · cases ha
    · exact fun ha => .inl (List.mem_map_of_mem ha)
  have hlive : ∀ a, some a ∈ new.map some ++ List.replicate k none → ∃ b, m₃.heap.cell a = some (.deblk b) :=
    fun a ha => Kmem.deblk_of_mem hnew ((hmem a).mp ha)
  have hids : (new.map some ++ List.replicate k none).filterMap id = new := by
    rw [List.filterMap_append, List.filterMap_map, List.filterMap_replicate_of_none rfl, List.append_nil]
    exact List.filterMap_some
  have harray : m₃.heap.cell v.deblk = some (.ptrs (some t :: (new.map some ++ List.replicate k none) ++ rest)) := by
    rw [hv]
    exact hrest
  have hlen : v.nblk = (new.map some ++ List.replicate k none).length + 1 := by
    rw [hnblk, List.length_append, List.length_map, List.length_replicate]
  obtain ⟨tgt', m', hrun, hre⟩ := reinit_spec harray hlen hb hpacks.length (fun ht => htnew ((hmem t).mp ht)) hlive
    (by rw [hids]; exact hnodup)
  have hdeblk : tgt'.deblk = p := hre.deblk.trans hv
  -- a cell that is neither the target's nor new
  have hback : ∀ a, a ≠ t → a ≠ p → a ∉ new → m'.heap.cell a = m₂.heap.cell a := by
    intro a hat hap ha
    rw [hre.frame a (by rw [hv]; exact hap) hat fun hin => ha ((hmem a).mp hin)]
    exact hcopy.frame a hap (List.not_mem_cons_of_ne_of_not_mem hat ha)
  have hgone : ∀ a ∈ new, m'.heap.cell a = none := fun a ha => hre.freed a ((hmem a).mpr ha)
  refine ⟨tgt', m', hrun, hre.empty, ⟨fun a hat had hap _ => ?_, ?_, fun a ha => (by cases ha), ?_⟩, hre.tick⟩
  · rw [hdeblk] at hap
    rw [← hprep.frame a hat had hap]
    by_cases ha : a ∈ new
    · rw [hgone a ha, m₂.heap.fresh a (hfresh a ha)]
    · exact hback a hat hap ha
  · rw [hdeblk]
    refine hprep.moved.imp_right fun ⟨hp, hnone⟩ => ⟨hp, ?_⟩
    by_cases ha : tgt.deblk ∈ new
    · exact hgone _ ha
    · have hat : tgt.deblk ≠ t := by
        intro hat
        obtain ⟨⟨bt, -, hbt, -⟩, -⟩ := List.forall₂_cons.mp hprep.copying.blocks
        rw [hat, hbt] at hnone
        cases hnone
      have hap : tgt.deblk ≠ p := by
        intro hap
        obtain ⟨l, hl⟩ := hprep.copying.array
        rw [hap, hl] at hnone
        cases hnone
      rw [hback _ hat hap ha, hnone]
  · rw [hre.bad, hcopy.bad, hprep.bad]

/-- When all blocks are copied the target has them. -/
theorem copy_allBlocks {p n : Nat} {m₂ m₃ : Kmem} {new : List Nat} {contents : List (List RawDe)} {v : VdirMem}
    (htgt : tgt.Stored m [t] [des]) (hprep : Prepared tgt src m t p n c m₂)
    (hcopy : Copying m₂ p (t :: new) 0 contents m₃) (hfresh : ∀ a ∈ new, m₂.heap.next ≤ a) (hv : v.deblk = p)
    (hnblk : v.nblk = contents.length) : v.Stored m₃ (t :: new) contents ∧ Beside tgt v m t new m₃ := by
  obtain ⟨rest, hrest⟩ := hcopy.array
  rw [List.replicate_zero, List.append_nil] at hrest
  have hfresh' : ∀ a ∈ new, m.heap.next ≤ a := fun a ha => hprep.next.trans (hfresh a ha)
  refine ⟨⟨⟨rest, ?_⟩, ?_, hcopy.nodup, hcopy.blocks⟩, fun a hat had hap ha => ?_, ?_, hfresh', ?_⟩
  · rw [hv]
    exact hrest
  · rw [hnblk, hcopy.blocks.length_eq]
  · rw [hv] at hap
    rw [hcopy.frame a hap (List.not_mem_cons_of_ne_of_not_mem hat ha), hprep.frame a hat had hap]
  · rw [hv]
    refine hprep.moved.imp_right fun ⟨hp, hnone⟩ => ⟨hp, ?_⟩
    obtain ⟨l, hl⟩ := htgt.array
    have hap : tgt.deblk ≠ p := by
      intro hap
      rw [hap, hp] at hl
      cases hl
    have hnew : tgt.deblk ∉ new := fun hin => absurd (Kheap.lt_next hl) (Nat.not_lt.mpr (hfresh' _ hin))
    have hat : tgt.deblk ≠ t := (htgt.ne_deblk List.mem_cons_self).symm
    rw [hcopy.frame _ hap (List.not_mem_cons_of_ne_of_not_mem hat hnew), hnone]
  · rw [hcopy.bad, hprep.bad]

/-- The target has the entries of the source, in its own first block and in blocks that were not allocated before. -/
structure CopyOf (tgt tgt' src : VdirMem) (m : Kmem) (t : Nat) (contents : List (List RawDe)) (m' : Kmem) : Prop where
  stored : ∃ new, tgt'.Stored m' (t :: new) contents ∧ Beside tgt tgt' m t new m'
  version : tgt'.version = src.version
  jiffy : tgt'.jiffy = src.jiffy

/-- What `copy_vdir` makes of its target: a copy, or an empty `vdir`. -/
structure CopyEnds (e : KmallocEnv) (tgt src : VdirMem) (m : Kmem) (t : Nat) (contents : List (List RawDe))
    (r : Except Errno Unit) (tgt' : VdirMem) (m' : Kmem) : Prop where
  ok : r = .ok () → NoneFailed e m m' ∧ CopyOf tgt tgt' src m t contents m'
  error : ∀ err, r = .error err →
    err = .ENOMEM ∧ ¬ NoneFailed e m m' ∧ tgt'.Empty m' t ∧ Beside tgt tgt' m t [] m'

theorem copy_spec (hsrc : src.Stored m (s :: srest) (c :: crest)) (htgt : tgt.Stored m [t] [des])
    (hdisj : t ∉ s :: srest) (harr : tgt.deblk ≠ src.deblk) {r : Except Errno Unit}
    (hrun : VdirMem.copy e tgt src m = (r, tgt', m')) : CopyEnds e tgt src m t (c :: crest) r tgt' m' := by
  unfold VdirMem.copy at hrun
  generalize hgrow : (if tgt.nblk < src.nblk then m.auKzrealloc e tgt.deblk tgt.nblk src.nblk
    else (some tgt.deblk, m)) = x at hrun
  obtain ⟨_ | p, m₁⟩ := x
  · -- no array
    split at hgrow
    · obtain ⟨hfail, hm₁⟩ := Kmem.auKzrealloc_none hgrow
      have hheap : m₁.heap = m.heap := by
        rw [hm₁]
      obtain ⟨tgt₁, m₂, hre, hempty, hbeside, htick⟩ := copy_noArray htgt hheap
      dsimp only at hrun
      rw [hre] at hrun
      cases hrun
      refine ⟨fun hok => (by cases hok), fun err herr => ?_⟩
      cases herr
      refine ⟨rfl, fun hall => ?_, hempty, hbeside⟩
      have hlt : m.tick < m₂.tick := by
        rw [htick, hm₁]
        exact Nat.lt_succ_self _
      cases hfail.symm.trans (hall m.tick (Nat.le_refl _) hlt)
    · cases hgrow
  · obtain ⟨hgrown, hnone⟩ := growArray_spec htgt hgrow
    have hprep := prepare_spec hsrc htgt hdisj harr hgrown
    have htick : (m₁.memcpyDeblk (m₁.slot p 0) (m₁.slot src.deblk 0)).tick = m₁.tick := memcpyDeblk_tick ..
    dsimp only at hrun
    generalize m₁.memcpyDeblk (m₁.slot p 0) (m₁.slot src.deblk 0) = m₂ at hrun hprep htick
    have hnblk : src.nblk - 1 = srest.length := by
      rw [hsrc.nblk, List.length_cons, Nat.add_sub_cancel]
    rw [hnblk] at hrun
    obtain ⟨tail, htail⟩ := hsrc.array
    obtain ⟨-, hrest⟩ := List.forall₂_cons.mp hsrc.blocks
    have htArr : ∀ {a b}, m.heap.cell a = some (.deblk b) → a ≠ tgt.deblk := by
      rintro a b ha rfl
      obtain ⟨l, hl⟩ := htgt.array
      cases hl.symm.trans ha
    have hsrct : src.deblk ≠ t := by
      rintro rfl
      obtain ⟨b, hb⟩ := Kmem.deblk_of_mem htgt.blocks List.mem_cons_self
      cases htail.symm.trans hb
    have hrest₂ : List.Forall₂ m₂.Holds srest crest := by
      refine Kmem.holds_congr hrest fun a ha => ?_
      obtain ⟨b, hb⟩ := Kmem.deblk_of_mem hrest ha
      have hat : a ≠ t := fun hat => hdisj (hat ▸ List.mem_cons_of_mem _ ha)
      rw [hprep.old hb hat (htArr hb), hb]
    have hdisj₂ : ∀ s' ∈ srest, s' ∉ [t] := fun s' hs' hin =>
      hdisj (List.mem_singleton.mp hin ▸ List.mem_cons_of_mem _ hs')
    have hsrc₂ : m₂.heap.cell src.deblk = some (.ptrs ([some s] ++ srest.map some ++ tail)) :=
      hprep.old htail hsrct harr.symm
    obtain ⟨l, hl⟩ := hprep.copying.array
    rcases hloop : copyDeblks e p src.deblk srest.length 1 m₂ with ⟨r₁, m₃⟩
    rw [hloop] at hrun
    obtain ⟨-, hok, herror⟩ := copyDeblks_spec hprep.ne hsrc₂ rfl hrest₂ hprep.copying ⟨_, hl⟩ hdisj₂
      (fun hin => hsrct (List.mem_singleton.mp hin)) hloop
    have hfrom : ∀ {m'}, NoneFailed e m m' ↔ NoneFailed e m₂ m' := by
      intro m'
      constructor
      · exact fun hall t h₁ h₂ => hall t (hgrown.tick.trans (htick ▸ h₁)) h₂
      · exact fun hall => hnone.trans fun t h₁ h₂ => hall t (htick ▸ h₁) h₂
    cases r₁ with
    | ok u =>
      cases hrun
      obtain ⟨hall, new, hcopying, hfresh⟩ := hok rfl
      have hlen : src.nblk = (c :: crest).length := hsrc.nblk.trans hsrc.blocks.length_eq
      refine ⟨fun _ => ⟨hfrom.mpr hall, ⟨new, ?_⟩, rfl, rfl⟩, fun err herr => (by cases herr)⟩
      exact copy_allBlocks htgt hprep hcopying hfresh rfl hlen
    | error err =>
      obtain ⟨herr, hfail, new, k, some', hlen, hcopying, hfresh⟩ := herror err rfl
      have hnblk' : src.nblk = new.length + k + 1 := by
        rw [hlen, ← hnblk]
        have hpos := hsrc.nblk
        rw [List.length_cons] at hpos
        omega
      dsimp only at hrun
      obtain ⟨tgt₁, m₄, hre, hempty, hbeside, htick'⟩ := copy_noBlock
        (v := { tgt with deblk := p, nblk := src.nblk, version := src.version, jiffy := src.jiffy })
        hprep hcopying hfresh rfl hnblk'
      rw [hre] at hrun
      cases hrun
      refine ⟨fun hok => (by cases hok), fun err' herr' => ?_⟩
      cases herr'
      refine ⟨herr, fun hall => hfail fun t h₁ h₂ => hfrom.mp hall t h₁ (by rw [htick']; exact h₂), hempty, hbeside⟩

theorem copy_ends {sids : List Nat} {contents : List (List RawDe)} (hsrc : src.Stored m sids contents)
    (hne : sids ≠ [])
    (htgt : tgt.Stored m [t] [des]) (hdisj : t ∉ sids) (harr : tgt.deblk ≠ src.deblk) {r : Except Errno Unit}
    (hrun : VdirMem.copy e tgt src m = (r, tgt', m')) : CopyEnds e tgt src m t contents r tgt' m' := by
  obtain ⟨s, srest, rfl⟩ := List.exists_cons_of_ne_nil hne
  obtain ⟨c, crest, hs, hrest, rfl⟩ := List.forall₂_cons_left_iff.mp hsrc.blocks
  exact copy_spec hsrc htgt hdisj harr hrun

-- ---------------------------------------------------------------------------
-- The source
-- ---------------------------------------------------------------------------

/-- The two show the same entries. -/
def SameEntries (v : VdirMem) (m : Kmem) (v' : VdirMem) (m' : Kmem) : Prop :=
  ∃ blocks blocks', v.walk m = some blocks ∧ v'.walk m' = some blocks' ∧ blocks.map Prod.fst = blocks'.map Prod.fst

/-- Whatever allocation fails: `copy_vdir` succeeds exactly when none does. Then the target shows the entries of the
source, block by block, and none of its blocks is one of the source. Otherwise it is an empty `vdir` of one block, and
all that was allocated meanwhile is freed. The source is as it was, and nothing is freed twice. -/
theorem copy_exact {sids : List Nat} {contents : List (List RawDe)} (hsrc : src.Stored m sids contents)
    (hne : sids ≠ [])
    (htgt : tgt.Stored m [t] [des]) (hdisj : t ∉ sids) (harr : tgt.deblk ≠ src.deblk) {r : Except Errno Unit}
    (hrun : VdirMem.copy e tgt src m = (r, tgt', m')) :
    (r = .ok () ↔ NoneFailed e m m') ∧
    (r = .ok () → SameEntries src m tgt' m' ∧ tgt'.version = src.version ∧ tgt'.jiffy = src.jiffy ∧
      ∃ new, tgt'.Stored m' (t :: new) contents ∧ Beside tgt tgt' m t new m' ∧ ∀ a ∈ t :: new, a ∉ sids) ∧
    (r ≠ .ok () → r = .error .ENOMEM ∧ tgt'.Empty m' t ∧ tgt'.walk m' = some [([], 0)] ∧ Beside tgt tgt' m t [] m') ∧
    (∀ a ∈ src.deblk :: sids, m'.heap.cell a = m.heap.cell a) ∧ src.Stored m' sids contents ∧
    m'.heap.bad = m.heap.bad := by
  obtain ⟨hok, herror⟩ := copy_ends hsrc hne htgt hdisj harr hrun
  obtain ⟨new, hbeside⟩ : ∃ new, Beside tgt tgt' m t new m' := by
    cases r with
    | ok u =>
      obtain ⟨-, ⟨new, -, hbeside⟩, -, -⟩ := hok rfl
      exact ⟨new, hbeside⟩
    | error err =>
      obtain ⟨-, -, -, hbeside⟩ := herror err rfl
      exact ⟨[], hbeside⟩
  have hold : ∀ a ∈ src.deblk :: sids, m'.heap.cell a = m.heap.cell a := by
    intro a ha
    rcases List.mem_cons.mp ha with rfl | ha
    · obtain ⟨tail, htail⟩ := hsrc.array
      refine hbeside.old htail ?_ harr.symm
      rintro rfl
      obtain ⟨b, hb⟩ := Kmem.deblk_of_mem htgt.blocks List.mem_cons_self
      cases htail.symm.trans hb
    · obtain ⟨b, hb⟩ := Kmem.deblk_of_mem hsrc.blocks ha
      refine hbeside.old hb (fun hat => hdisj (hat ▸ ha)) ?_
      rintro rfl
      obtain ⟨l, hl⟩ := htgt.array
      cases hl.symm.trans hb
  refine ⟨?_, fun hr => ?_, fun hr => ?_, hold, ⟨?_, hsrc.nblk, hsrc.nodup, ?_⟩, hbeside.bad⟩
  · cases r with
    | ok u => exact iff_of_true rfl (hok rfl).1
    | error err => exact iff_of_false (fun h => (by cases h)) (herror err rfl).2.1
  · obtain ⟨-, ⟨new, hstored, hbeside⟩, hversion, hjiffy⟩ := hok hr
    obtain ⟨blocks, hwalk, hcontents, -⟩ := hsrc.walk
    obtain ⟨blocks', hwalk', hcontents', -⟩ := hstored.walk
    refine ⟨⟨blocks, blocks', hwalk, hwalk', hcontents.trans hcontents'.symm⟩, hversion, hjiffy, new, hstored,
      hbeside, List.forall_mem_cons.mpr ⟨hdisj, fun a ha hin => ?_⟩⟩
    obtain ⟨b, hb⟩ := Kmem.deblk_of_mem hsrc.blocks hin
    exact absurd (Kheap.lt_next hb) (Nat.not_lt.mpr (hbeside.fresh a ha))
  · cases r with
    | ok u => exact absurd rfl hr
    | error err =>
      obtain ⟨rfl, -, hempty, hbeside⟩ := herror err rfl
      exact ⟨rfl, hempty, hempty.walk, hbeside⟩
  · obtain ⟨tail, htail⟩ := hsrc.array
    exact ⟨tail, (hold _ List.mem_cons_self).trans htail⟩
  · exact Kmem.holds_congr hsrc.blocks fun a ha => hold a (List.mem_cons_of_mem _ ha)

/-- The entry of the directory itself. -/
def dotDe : RawDe := ⟨2, 4, dot⟩

/-- A block without entries. -/
def zeroDeblk : List UInt8 := List.replicate deblkSize 0

/-- A block with one entry. -/
def dotDeblk : List UInt8 := (setDeblkEnd (writeAt zeroDeblk 0 dotDe.bytes) 16).getD (writeAt zeroDeblk 0 dotDe.bytes)

/-- The memory of a `vdir` of two blocks and of an empty one. -/
def twoVdirs : Kmem :=
  ⟨{ cell := fun a =>
      [.ptrs [some 1, some 2], .deblk dotDeblk, .deblk zeroDeblk, .ptrs [some 4], .deblk zeroDeblk][a]?
     next := 5
     bad := false
     fresh := fun _ ha => List.getElem?_eq_none ha }, 0⟩

theorem packs_zeroDeblk : Packs zeroDeblk [] 0 := by
  refine ⟨List.length_replicate, .nil 0, ?_, Nat.zero_le _⟩
  rw [isDeblkEnd, if_pos (by decide), zeroDeblk, byteAt_replicate_zero]
  rfl

/-- The first of them. -/
def dotVdir : VdirMem := ⟨0, 2, 0, (1, 0), 7, 8⟩

/-- The second. -/
def zeroVdir : VdirMem := ⟨3, 1, 0, (4, 0), 0, 0⟩

/-- Allocations that succeed. -/
def plenty : KmallocEnv := ⟨fun _ => false, fun _ _ => 255, fun _ => []⟩

/-- A copy of the first to the second. -/
theorem copy_exact_two :
    ∃ tgt' m', VdirMem.copy plenty zeroVdir dotVdir twoVdirs = (.ok (), tgt', m') ∧
      SameEntries dotVdir twoVdirs tgt' m' := by
  have hdot : Packs dotDeblk [dotDe] 16 :=
    packs_zeroDeblk.push ⟨by decide, by decide, by decide, by decide⟩ (by decide)
  have hsrc : dotVdir.Stored twoVdirs [1, 2] [[dotDe], []] :=
    ⟨⟨[], rfl⟩, rfl, by decide, .cons ⟨_, _, rfl, hdot⟩ (.cons ⟨_, _, rfl, packs_zeroDeblk⟩ .nil)⟩
  have htgt : zeroVdir.Stored twoVdirs [4] [[]] :=
    ⟨⟨[], rfl⟩, rfl, by decide, .cons ⟨_, _, rfl, packs_zeroDeblk⟩ .nil⟩
  rcases hrun : VdirMem.copy plenty zeroVdir dotVdir twoVdirs with ⟨r, tgt', m'⟩
  obtain ⟨hiff, hok, -⟩ := copy_exact hsrc (by decide) htgt (by decide) (by decide) hrun
  have hr : r = .ok () := hiff.mpr fun _ _ _ => rfl
  exact ⟨tgt', m', by rw [hr], (hok hr).1⟩

end VdirMem

end Aufs
