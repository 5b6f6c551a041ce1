-- SUMMARY: The page list of dentries: initialising, appending and freeing, with every allocation that may fail or move it.
import Aufs.Dcsub
import Aufs.Lib.RefSlots

/-!
# The page list

`struct au_dcsub_pages` is an array of pages, each with the dentries in it. When the
last page is full, `au_dpages_append` makes room for one more entry in the array. It
does not keep what `au_kzrealloc` returns: once the array moves, `dpages->dpages`
points to memory that was freed.

An array is a block of the heap, counted in entries; addresses are not used twice.
-/

namespace Aufs

open RefSlots

/-- `struct au_dpage`; `dentries` is the address of the page. -/
structure Dpage where
  ndentry : Nat
  dentries : Nat
  deriving DecidableEq, Repr

/-- A block: how many entries fit into `ksize`, and what was written to them. -/
structure DpageBlock where
  ksize : Nat
  cells : Nat → Option Dpage

/-- `struct au_dcsub_pages` with the heap, `d_count`, and the next addresses that are given out.
A block or a page that is not live is `none`. -/
structure Dpages where
  dpages : Nat
  ndpage : Nat
  blocks : Nat → Option DpageBlock
  pages : Nat → Option (Nat → Nat)
  nextBlock : Nat
  nextPage : Nat
  cnt : Nat → Int

/-- What the allocators answer: `kmalloc` with the room beyond what was asked for, and whether
there is a page. -/
structure PageAllocs where
  kmalloc : Option Nat
  getFreePage : Bool

/-- How `au_dpages_append` ends; with `wild` it has used memory that is not live. -/
inductive AppendEnd where
  | ok
  | nomem
  | wild
  deriving DecidableEq, Repr

namespace Dpages

-- ---------------------------------------------------------------------------
-- The functions
-- ---------------------------------------------------------------------------

/-- The block with the entries from `nused` to `newSz` set to zero. -/
def clear (b : DpageBlock) (nused newSz : Nat) : DpageBlock :=
  { b with cells := fun i => if nused ≤ i ∧ i < newSz then some ⟨0, 0⟩ else b.cells i }

/-- `au_kzrealloc` of a block for `newSz` entries, of which `nused` are in use. -/
def auKzrealloc (c : PageAllocs) (p nused newSz : Nat) (s : Dpages) : Option Nat × Dpages :=
  match s.blocks p with
  | none => (none, s)
  | some b =>
    if newSz ≤ nused then (some p, s)
    else if newSz ≤ b.ksize then
      (some p, { s with blocks := Function.update s.blocks p (some (clear b nused newSz)) })
    else
      match c.kmalloc with
      | none => (none, s)
      | some more =>
        let q := clear ⟨newSz + more, fun i => if i < nused then b.cells i else none⟩ nused newSz
        -- the old block is freed
        let blocks := Function.update (Function.update s.blocks s.nextBlock (some q)) p none
        (some s.nextBlock, { s with blocks, nextBlock := s.nextBlock + 1 })

/-- `au_dpages_init`, with nothing else in the heap. -/
def auDpagesInit (c : PageAllocs) (cnt : Nat → Int) : Option Dpages :=
  match c.kmalloc with
  | none => none
  | some more =>
    if c.getFreePage then
      some {
        dpages := 0
        ndpage := 1
        blocks := Function.update (fun _ => none) 0
          (some ⟨1 + more, Function.update (fun _ => none) 0 (some ⟨0, 1⟩)⟩)
        pages := Function.update (fun _ => none) 1 (some fun _ => 0)
        nextBlock := 1
        nextPage := 2
        cnt }
    else none

/-- The last page, with the block that its entry is in. -/
def lastPage (s : Dpages) : Option (DpageBlock × Dpage) :=
  match s.blocks s.dpages with
  | none => none
  | some b => (b.cells (s.ndpage - 1)).map fun dpage => (b, dpage)

/-- `dpage->dentries[dpage->ndentry++] = dget(dentry)` for the last page -/
def putDentry (d : Nat) (s : Dpages) : AppendEnd × Dpages :=
  match s.lastPage with
  | none => (.wild, s)
  | some (b, dpage) =>
    match s.pages dpage.dentries with
    | none => (.wild, s)
    | some m =>
      let cells := Function.update b.cells (s.ndpage - 1) (some { dpage with ndentry := dpage.ndentry + 1 })
      (.ok, { s with
        blocks := Function.update s.blocks s.dpages (some { b with cells })
        pages := Function.update s.pages dpage.dentries (some (Function.update m dpage.ndentry d))
        cnt := dget (some d) s.cnt })

/-- The entry for a new page. -/
def addPage (s : Dpages) : AppendEnd × Dpages :=
  match s.blocks s.dpages with
  | none => (.wild, s)
  | some b =>
    (.ok, { s with
      blocks := Function.update s.blocks s.dpages
        (some { b with cells := Function.update b.cells s.ndpage (some ⟨0, s.nextPage⟩) })
      pages := Function.update s.pages s.nextPage (some fun _ => 0)
      nextPage := s.nextPage + 1
      ndpage := s.ndpage + 1 })

/-- `au_dpages_append`; a page has room for `perPage` dentries. -/
def auDpagesAppend (perPage : Nat) (c : PageAllocs) (d : Nat) (s : Dpages) : AppendEnd × Dpages :=
  match s.lastPage with
  | none => (.wild, s)
  | some (_, dpage) =>
    if perPage ≤ dpage.ndentry then
      match auKzrealloc c s.dpages s.ndpage (s.ndpage + 1) s with
      | (none, s) => (.nomem, s)
      -- what was returned is not assigned to `dpages->dpages`
      | (some _, s) =>
        if c.getFreePage then
          match addPage s with
          | (.ok, s) => putDentry d s
          | r => r
        else (.nomem, s)
    else putDentry d s

/-- `au_dpage_free` -/
def auDpageFree (dpage : Dpage) (s : Dpages) : Option Dpages :=
  match s.pages dpage.dentries with
  | none => none
  | some m =>
    some { s with
      cnt := dputs ((List.range dpage.ndentry).map fun j => some (m j)) s.cnt
      pages := Function.update s.pages dpage.dentries none }

/-- The loop of `au_dpages_free` over the entries with these indices. -/
def freePages (b : DpageBlock) : List Nat → Dpages → Option Dpages
  | [], s => some s
  | i :: rest, s =>
    match b.cells i with
    | none => none
    | some dpage =>
      match auDpageFree dpage s with
      | none => none
      | some s => freePages b rest s

/-- `au_dpages_free`. Where something is freed that is not live, there is no state. -/
def auDpagesFree (s : Dpages) : Option Dpages :=
  match s.blocks s.dpages with
  | none => none
  | some b =>
    match freePages b (List.range s.ndpage) s with
    | none => none
    | some s => some { s with blocks := Function.update s.blocks s.dpages none }

/-- The dentries on a page. -/
def contents (pages : Nat → Option (Nat → Nat)) (dpage : Dpage) : Option (List Nat) :=
  (pages dpage.dentries).map fun m => (List.range dpage.ndentry).map m

/-- The dentries on the pages with these indices, as the loops over them read them. -/
def readPages (s : Dpages) (b : DpageBlock) : List Nat → Option (List Nat)
  | [] => some []
  | i :: rest =>
    match (b.cells i).bind (contents s.pages), readPages s b rest with
    | some l, some r => some (l ++ r)
    | _, _ => none

/-- The dentries of all pages in order. -/
def read (s : Dpages) : Option (List Nat) :=
  match s.blocks s.dpages with
  | none => none
  | some b => readPages s b (List.range s.ndpage)

-- ---------------------------------------------------------------------------
-- What is expected of the list
-- ---------------------------------------------------------------------------

/-- The list is the array of these dentries: it points to a live block with an initialised entry
for each page, the pages read as the dentries in order, each with one reference, and freeing the
list frees each page and each reference, once. -/
structure Faithful (others : Nat → Int) (s : Dpages) (l : List Nat) : Prop where
  live : ∃ b, s.blocks s.dpages = some b ∧ s.ndpage ≤ b.ksize ∧ ∀ i < s.ndpage, b.cells i ≠ none
  read : s.read = some l
  cnt : ∀ k, s.cnt k = others k + held (l.map some) k
  free : ∃ s', s.auDpagesFree = some s' ∧ (∀ a, s'.pages a = none) ∧ (∀ a, s'.blocks a = none) ∧
    ∀ k, s'.cnt k = others k

/-- A call of `au_dpages_append`: the dentry and what the allocators answer. -/
structure AppendCall where
  d : Nat
  allocs : PageAllocs

/-- The list and what was appended, after these calls. -/
def after (perPage : Nat) : List AppendCall → Dpages × List Nat → Dpages × List Nat
  | [], sl => sl
  | call :: rest, (s, l) =>
    match auDpagesAppend perPage call.allocs call.d s with
    | (.ok, s) => after perPage rest (s, l ++ [call.d])
    | (_, s) => after perPage rest (s, l)

/-- An append moves the array: the last page is full, one more entry does not fit into the block,
and there is another block. -/
def Moves (perPage : Nat) (c : PageAllocs) (s : Dpages) : Prop :=
  ∃ b dpage, s.lastPage = some (b, dpage) ∧ perPage ≤ dpage.ndentry ∧ b.ksize < s.ndpage + 1 ∧ c.kmalloc ≠ none

-- ---------------------------------------------------------------------------
-- The list and its pages
-- ---------------------------------------------------------------------------

/-- The dentries on a page, if it is live. -/
def pageList (pages : Nat → Option (Nat → Nat)) (dpage : Dpage) : List Nat := (contents pages dpage).getD []

/-- The heap holds the block `b` with entries for the pages `ps`, these pages, and nothing else.
The pages read as `l`. -/
structure Holds (others : Nat → Int) (s : Dpages) (l : List Nat) (b : DpageBlock) (ps : List Dpage) : Prop where
  blocks : ∀ a, s.blocks a = if a = s.dpages then some b else none
  ndpage : s.ndpage = ps.length
  ne : ps ≠ []
  room : ps.length ≤ b.ksize
  cells : ∀ i (h : i < ps.length), b.cells i = some ps[i]
  pages : ∀ a, s.pages a ≠ none ↔ a ∈ ps.map Dpage.dentries
  nodup : (ps.map Dpage.dentries).Nodup
  fresh : ∀ dpage ∈ ps, dpage.dentries < s.nextPage
  contents : ps.flatMap (pageList s.pages) = l
  cnt : ∀ k, s.cnt k = others k + held (l.map some) k

variable {others : Nat → Int} {s : Dpages} {l : List Nat} {b : DpageBlock} {ps front : List Dpage} {last : Dpage}
  {perPage d : Nat} {c : PageAllocs}

theorem Holds.block (h : Holds others s l b ps) : s.blocks s.dpages = some b := by
  rw [h.blocks, if_pos rfl]

theorem Holds.page {dpage : Dpage} (h : Holds others s l b ps) (hmem : dpage ∈ ps) :
    ∃ m, s.pages dpage.dentries = some m :=
  Option.ne_none_iff_exists'.mp ((h.pages _).mpr (List.mem_map_of_mem hmem))

theorem Holds.lastPage (h : Holds others s l b (front ++ [last])) : s.lastPage = some (b, last) := by
  have hlen : s.ndpage - 1 = front.length := by
    rw [h.ndpage, List.length_append, List.length_singleton, Nat.add_sub_cancel]
  have hcell := h.cells front.length (by rw [List.length_append]; exact Nat.lt_succ_self _)
  rw [Dpages.lastPage, h.block, hlen]
  dsimp only
  rw [hcell, List.getElem_concat_length rfl]
  rfl

/-- The pages read one after the other. -/
theorem readPages_range (hcells : ∀ i (h : i < ps.length), b.cells i = some ps[i])
    (hpages : ∀ dpage ∈ ps, ∃ m, s.pages dpage.dentries = some m) {n k : Nat} (hk : n + k = ps.length) :
    readPages s b (List.range' n k) = some ((ps.drop n).flatMap (pageList s.pages)) := by
  induction k generalizing n with
  | zero =>
      rw [List.drop_eq_nil_of_le (by omega)]
      rfl
  | succ k ih =>
      have hlt : n < ps.length := by omega
      obtain ⟨m, hm⟩ := hpages ps[n] (List.getElem_mem hlt)
      rw [List.range'_succ, readPages, hcells n hlt, ih (by omega), List.drop_eq_getElem_cons hlt,
        List.flatMap_cons, Option.bind_some, pageList, contents, hm]
      rfl

/-- The list reads as its pages do. -/
theorem Holds.read (h : Holds others s l b ps) : s.read = some l := by
  have hread := readPages_range h.cells (fun _ => h.page) (Nat.zero_add ps.length)
  rw [Dpages.read, h.block, h.ndpage, List.range_eq_range']
  dsimp only
  rw [hread, List.drop_zero, h.contents]

/-- The pages freed one after the other. -/
def freeAll : List Dpage → Dpages → Option Dpages
  | [], s => some s
  | dpage :: ps, s =>
    match auDpageFree dpage s with
    | none => none
    | some s => freeAll ps s

theorem freePages_range (hcells : ∀ i (h : i < ps.length), b.cells i = some ps[i]) {n k : Nat}
    (hk : n + k = ps.length) : freePages b (List.range' n k) s = freeAll (ps.drop n) s := by
  induction k generalizing n s with
  | zero =>
      rw [List.drop_eq_nil_of_le (by omega)]
      rfl
  | succ k ih =>
      have hlt : n < ps.length := by omega
      rw [List.range'_succ, freePages, hcells n hlt, List.drop_eq_getElem_cons hlt, freeAll]
      dsimp only
      cases auDpageFree ps[n] s with
      | none => rfl
      | some s' => exact ih (by omega)

/-- A page of another address is read as before. -/
theorem pageList_update {pages : Nat → Option (Nat → Nat)} {a : Nat} {m : Option (Nat → Nat)} {dpage : Dpage}
    (h : dpage.dentries ≠ a) : pageList (Function.update pages a m) dpage = pageList pages dpage := by
  rw [pageList, pageList, contents, contents, Function.update_of_ne h]

/-- Freeing pages frees each once and puts the reference to each dentry on them. -/
theorem freeAll_spec (hnodup : (ps.map Dpage.dentries).Nodup)
    (hpages : ∀ dpage ∈ ps, ∃ m, s.pages dpage.dentries = some m) :
    ∃ s', freeAll ps s = some s' ∧ s'.blocks = s.blocks ∧ s'.dpages = s.dpages ∧
      (∀ a, s'.pages a = if a ∈ ps.map Dpage.dentries then none else s.pages a) ∧
      ∀ k, s'.cnt k = s.cnt k - held ((ps.flatMap (pageList s.pages)).map some) k := by
  induction ps generalizing s with
  | nil => exact ⟨s, rfl, rfl, rfl, fun a => rfl, fun k => (Int.sub_zero _).symm⟩
  | cons dpage ps ih =>
      rw [List.map_cons, List.nodup_cons] at hnodup
      obtain ⟨m, hm⟩ := hpages dpage List.mem_cons_self
      have hne (p : Dpage) (hp : p ∈ ps) : p.dentries ≠ dpage.dentries := fun heq =>
        hnodup.1 (heq ▸ List.mem_map_of_mem hp)
      have hfree : auDpageFree dpage s = some { s with
          cnt := dputs ((pageList s.pages dpage).map some) s.cnt
          pages := Function.update s.pages dpage.dentries none } := by
        rw [auDpageFree, hm, pageList, contents, hm]
        simp only [Option.map_some, Option.getD_some, List.map_map]
        rfl
      obtain ⟨s', hs', hblocks, hdpages, hpages', hcnt⟩ := ih (s := { s with
          cnt := dputs ((pageList s.pages dpage).map some) s.cnt
          pages := Function.update s.pages dpage.dentries none }) hnodup.2 (by
        intro p hp
        obtain ⟨mp, hmp⟩ := hpages p (List.mem_cons_of_mem _ hp)
        exact ⟨mp, by rw [← hmp]; exact Function.update_of_ne (hne p hp) ..⟩)
      refine ⟨s', ?_, hblocks, hdpages, fun a => ?_, fun k => ?_⟩
      · rw [freeAll, hfree]
        exact hs'
      · rw [hpages']
        dsimp only
        by_cases ha : a = dpage.dentries
        · have hmem : a ∈ (dpage :: ps).map Dpage.dentries := by
            rw [ha]
            exact List.mem_map_of_mem List.mem_cons_self
          rw [if_pos hmem, ha, Function.update_self, ite_self]
        · rw [Function.update_of_ne ha]
          simp only [List.map_cons, List.mem_cons, ha, false_or]
      · have hsame : ps.flatMap (pageList (Function.update s.pages dpage.dentries none)) =
            ps.flatMap (pageList s.pages) :=
          List.flatMap_congr fun p hp => pageList_update (hne p hp)
        rw [hcnt]
        dsimp only
        rw [hsame, dputs_apply, List.flatMap_cons, List.map_append, held, held, held, List.count_append]
        omega

/-- The array is released as it was built. -/
theorem Holds.free (h : Holds others s l b ps) :
    ∃ s', s.auDpagesFree = some s' ∧ (∀ a, s'.pages a = none) ∧ (∀ a, s'.blocks a = none) ∧
      ∀ k, s'.cnt k = others k := by
  obtain ⟨s', hs', hblocks, hdpages, hpages, hcnt⟩ := freeAll_spec h.nodup fun _ => h.page
  refine ⟨{ s' with blocks := Function.update s'.blocks s'.dpages none }, ?_, fun a => ?_, fun a => ?_, fun k => ?_⟩
  · rw [auDpagesFree, h.block, h.ndpage, List.range_eq_range']
    dsimp only
    rw [freePages_range h.cells (Nat.zero_add ps.length), List.drop_zero, hs']
  · show s'.pages a = none
    rw [hpages]
    split
    · rfl
    · rename_i ha
      exact not_not.mp fun hne => ha ((h.pages a).mp hne)
  · show Function.update s'.blocks s'.dpages none a = none
    by_cases ha : a = s'.dpages
    · rw [ha, Function.update_self]
    · rw [Function.update_of_ne ha, hblocks, h.blocks, if_neg (hdpages ▸ ha)]
  · show s'.cnt k = others k
    rw [hcnt, h.cnt, h.contents]
    omega

theorem Holds.faithful (h : Holds others s l b ps) : Faithful others s l where
  live := by
    refine ⟨b, h.block, h.ndpage ▸ h.room, fun i hi => ?_⟩
    rw [h.cells i (h.ndpage ▸ hi)]
    exact Option.some_ne_none _
  read := h.read
  cnt := h.cnt
  free := h.free

-- ---------------------------------------------------------------------------
-- One append
-- ---------------------------------------------------------------------------

/-- A dentry that is put on the last page is the last one of the list. -/
theorem Holds.putDentry (h : Holds others s l b (front ++ [last])) :
    (putDentry d s).1 = .ok ∧
      ∃ b', Holds others (putDentry d s).2 (l ++ [d]) b' (front ++ [{ last with ndentry := last.ndentry + 1 }]) := by
  obtain ⟨m, hm⟩ := h.page (List.mem_append_right front (List.mem_singleton_self last))
  have hlen : s.ndpage - 1 = front.length := by
    rw [h.ndpage, List.length_append, List.length_singleton, Nat.add_sub_cancel]
  have hnodup := h.nodup
  rw [List.map_append, List.map_singleton, List.nodup_append] at hnodup
  have hother (p : Dpage) (hp : p ∈ front) : p.dentries ≠ last.dentries :=
    hnodup.2.2 _ (List.mem_map_of_mem hp) _ (List.mem_singleton_self _)
  have haddrs : (front ++ [{ last with ndentry := last.ndentry + 1 }]).map Dpage.dentries =
      (front ++ [last]).map Dpage.dentries := by simp only [List.map_append, List.map_singleton]
  unfold Dpages.putDentry
  rw [h.lastPage]
  dsimp only
  rw [hm]
  dsimp only
  refine ⟨rfl, ⟨b.ksize, Function.update b.cells (s.ndpage - 1)
    (some { last with ndentry := last.ndentry + 1 })⟩, ?_⟩
  constructor
  case blocks =>
    intro a
    dsimp only
    by_cases ha : a = s.dpages
    · rw [ha, Function.update_self, if_pos rfl]
    · rw [Function.update_of_ne ha, h.blocks, if_neg ha, if_neg ha]
  case ndpage =>
    rw [show s.ndpage = _ from h.ndpage, List.length_append, List.length_append, List.length_singleton,
      List.length_singleton]
  case ne => exact List.append_ne_nil_of_right_ne_nil _ (List.cons_ne_nil _ _)
  case room =>
    have hroom := h.room
    rw [List.length_append, List.length_singleton] at hroom ⊢
    exact hroom
  case cells =>
    intro i hi
    dsimp only
    rw [hlen]
    by_cases heq : i = front.length
    · subst heq
      rw [Function.update_self, List.getElem_concat_length rfl]
    · have hlt : i < front.length := by
        rw [List.length_append, List.length_singleton] at hi
        omega
      have hcell := h.cells i (by rw [List.length_append]; omega)
      rw [List.getElem_append_left hlt] at hcell ⊢
      rw [Function.update_of_ne heq, hcell]
  case pages =>
    intro a
    rw [haddrs, ← h.pages]
    dsimp only
    by_cases ha : a = last.dentries
    · rw [ha, Function.update_self, hm]
      exact iff_of_true (Option.some_ne_none _) (Option.some_ne_none _)
    · rw [Function.update_of_ne ha]
  case nodup =>
    rw [haddrs]
    exact h.nodup
  case fresh =>
    intro p hp
    rcases List.mem_append.mp hp with hp | hp
    · exact h.fresh p (List.mem_append_left _ hp)
    · rw [List.mem_singleton.mp hp]
      exact h.fresh last (List.mem_append_right _ (List.mem_singleton_self _))
  case contents =>
    have hfront : front.flatMap (pageList (Function.update s.pages last.dentries (some (Function.update m last.ndentry d)))) =
        front.flatMap (pageList s.pages) := List.flatMap_congr fun p hp => pageList_update (hother p hp)
    have hlast : pageList (Function.update s.pages last.dentries (some (Function.update m last.ndentry d)))
        { last with ndentry := last.ndentry + 1 } = pageList s.pages last ++ [d] := by
      have hmap : (List.range last.ndentry).map (Function.update m last.ndentry d) = (List.range last.ndentry).map m :=
        List.map_congr_left fun j hj => Function.update_of_ne (Nat.ne_of_lt (List.mem_range.mp hj)) ..
      simp only [pageList, Dpages.contents, Function.update_self, hm, Option.map_some, Option.getD_some,
        List.range_succ, List.map_append, List.map_singleton, hmap]
    rw [← h.contents, List.flatMap_append, List.flatMap_append, List.flatMap_singleton, List.flatMap_singleton,
      hfront, hlast, List.append_assoc]
  case cnt =>
    intro k
    dsimp only
    rw [dget, h.cnt, List.map_append, List.map_singleton, held, held, List.count_append, List.count_singleton, one]
    simp only [beq_iff_eq]
    split <;> omega

/-- A new entry is for a new page with nothing on it. -/
theorem Holds.addPage (h : Holds others s l b ps) (hroom : ps.length + 1 ≤ b.ksize) :
    (addPage s).1 = .ok ∧ ∃ b', Holds others (addPage s).2 l b' (ps ++ [⟨0, s.nextPage⟩]) := by
  have hnew (p : Dpage) (hp : p ∈ ps) : p.dentries ≠ s.nextPage := Nat.ne_of_lt (h.fresh p hp)
  unfold Dpages.addPage
  rw [h.block]
  dsimp only
  refine ⟨rfl, { b with cells := Function.update b.cells s.ndpage (some ⟨0, s.nextPage⟩) }, ?_⟩
  constructor
  case blocks =>
    intro a
    dsimp only
    by_cases ha : a = s.dpages
    · rw [ha, Function.update_self, if_pos rfl]
    · rw [Function.update_of_ne ha, h.blocks, if_neg ha, if_neg ha]
  case ndpage =>
    show s.ndpage + 1 = _
    rw [h.ndpage, List.length_append, List.length_singleton]
  case ne => exact List.append_ne_nil_of_right_ne_nil _ (List.cons_ne_nil _ _)
  case room =>
    rw [List.length_append, List.length_singleton]
    exact hroom
  case cells =>
    intro i hi
    dsimp only
    rw [h.ndpage]
    by_cases heq : i = ps.length
    · subst heq
      rw [Function.update_self, List.getElem_concat_length rfl]
    · have hlt : i < ps.length := by
        rw [List.length_append, List.length_singleton] at hi
        omega
      rw [List.getElem_append_left hlt, Function.update_of_ne heq, h.cells i hlt]
  case pages =>
    intro a
    dsimp only
    rw [List.map_append, List.map_singleton, List.mem_append, List.mem_singleton]
    by_cases ha : a = s.nextPage
    · rw [ha, Function.update_self]
      exact iff_of_true (Option.some_ne_none _) (.inr rfl)
    · rw [Function.update_of_ne ha, h.pages]
      exact ⟨.inl, fun h' => h'.resolve_right ha⟩
  case nodup =>
    rw [List.map_append, List.map_singleton, List.nodup_append]
    refine ⟨h.nodup, List.nodup_singleton _, ?_⟩
    intro a ha a' ha'
    obtain ⟨p, hp, rfl⟩ := List.mem_map.mp ha
    rw [List.mem_singleton.mp ha']
    exact hnew p hp
  case fresh =>
    intro p hp
    rcases List.mem_append.mp hp with hp | hp
    · exact Nat.lt_succ_of_lt (h.fresh p hp)
    · rw [List.mem_singleton.mp hp]
      exact Nat.lt_succ_self _
  case contents =>
    have hold : ps.flatMap (pageList (Function.update s.pages s.nextPage (some fun _ => 0))) =
        ps.flatMap (pageList s.pages) := List.flatMap_congr fun p hp => pageList_update (hnew p hp)
    have hempty : pageList (Function.update s.pages s.nextPage (some fun _ => 0)) ⟨0, s.nextPage⟩ = [] := by
      simp only [pageList, Dpages.contents, Function.update_self]
      rfl
    rw [List.flatMap_append, List.flatMap_singleton, hold, hempty, List.append_nil, h.contents]
  case cnt => exact h.cnt

/-- More room in the same block leaves the list as it is. -/
theorem Holds.auKzrealloc (h : Holds others s l b ps) (hroom : ps.length + 1 ≤ b.ksize) :
    ∃ s' b', auKzrealloc c s.dpages s.ndpage (s.ndpage + 1) s = (some s.dpages, s') ∧ b'.ksize = b.ksize ∧
      Holds others s' l b' ps := by
  have hmore : ¬ s.ndpage + 1 ≤ s.ndpage := Nat.not_succ_le_self _
  have hfits : s.ndpage + 1 ≤ b.ksize := by rwa [h.ndpage]
  unfold Dpages.auKzrealloc
  rw [h.block]
  dsimp only
  rw [if_neg hmore, if_pos hfits]
  refine ⟨_, clear b s.ndpage (s.ndpage + 1), rfl, rfl, ?_⟩
  constructor
  case blocks =>
    intro a
    dsimp only
    by_cases ha : a = s.dpages
    · rw [ha, Function.update_self, if_pos rfl]
    · rw [Function.update_of_ne ha, h.blocks, if_neg ha, if_neg ha]
  case cells =>
    intro i hi
    rw [clear]
    dsimp only
    rw [if_neg (fun hle => absurd hle.1 (by rw [h.ndpage]; omega)), h.cells i hi]
  case ndpage => exact h.ndpage
  case ne => exact h.ne
  case room => exact h.room
  case pages => exact h.pages
  case nodup => exact h.nodup
  case fresh => exact h.fresh
  case contents => exact h.contents
  case cnt => exact h.cnt

/-- An append that does not move the array adds the dentry, or it fails and leaves the list. -/
theorem Holds.append (h : Holds others s l b ps) (hmoves : ¬ Moves perPage c s) :
    ((auDpagesAppend perPage c d s).1 = .ok ∧
        ∃ b' ps', Holds others (auDpagesAppend perPage c d s).2 (l ++ [d]) b' ps') ∨
      ((auDpagesAppend perPage c d s).1 = .nomem ∧
        ∃ b' ps', Holds others (auDpagesAppend perPage c d s).2 l b' ps') := by
  obtain ⟨front, last, rfl⟩ : ∃ front last, ps = front ++ [last] :=
    ⟨ps.dropLast, ps.getLast h.ne, (List.dropLast_append_getLast h.ne).symm⟩
  have hlast := h.lastPage
  unfold auDpagesAppend
  rw [hlast]
  dsimp only
  by_cases hfull : perPage ≤ last.ndentry
  · rw [if_pos hfull]
    rcases Nat.lt_or_ge b.ksize (s.ndpage + 1) with hsmall | hfits
    · -- the array would move, so there is no other block
      have hnone : c.kmalloc = none := by
        by_contra hsome
        exact hmoves ⟨b, last, hlast, hfull, hsmall, hsome⟩
      have hrealloc : Dpages.auKzrealloc c s.dpages s.ndpage (s.ndpage + 1) s = (none, s) := by
        unfold Dpages.auKzrealloc
        rw [h.block]
        dsimp only
        rw [if_neg (Nat.not_succ_le_self _), if_neg (Nat.not_le.mpr hsmall), hnone]
      rw [hrealloc]
      exact .inr ⟨rfl, b, _, h⟩
    · have hroom : (front ++ [last]).length + 1 ≤ b.ksize := by rwa [← h.ndpage]
      obtain ⟨s', b', hrealloc, hksize, h'⟩ := h.auKzrealloc (c := c) hroom
      rw [hrealloc]
      dsimp only
      cases hpage : c.getFreePage with
      | false =>
          rw [if_neg Bool.false_ne_true]
          exact .inr ⟨rfl, b', _, h'⟩
      | true =>
          rw [if_pos rfl]
          obtain ⟨hok, b'', h''⟩ := h'.addPage (by rwa [hksize])
          rcases hadd : Dpages.addPage s' with ⟨r, s''⟩
          rw [hadd] at hok h''
          dsimp only at hok h''
          subst hok
          obtain ⟨hput, b₃, h₃⟩ := h''.putDentry (d := d)
          exact .inl ⟨hput, b₃, _, h₃⟩
  · rw [if_neg hfull]
    obtain ⟨hok, b', h'⟩ := h.putDentry (d := d)
    exact .inl ⟨hok, b', _, h'⟩

/-- After an append that moves the array the list points to a block that was freed. -/
theorem not_faithful_of_moves (h : Moves perPage c s) :
    ¬ Faithful others (auDpagesAppend perPage c d s).2 l := by
  obtain ⟨b, last, hlast, hfull, hsmall, hsome⟩ := h
  obtain ⟨more, hmore⟩ := Option.ne_none_iff_exists'.mp hsome
  have hblock : s.blocks s.dpages = some b := by
    unfold Dpages.lastPage at hlast
    split at hlast
    · cases hlast
    · rename_i b' hb'
      rw [hb']
      cases hcell : b'.cells (s.ndpage - 1) with
      | none => rw [hcell] at hlast; cases hlast
      | some dpage =>
          rw [hcell] at hlast
          cases hlast
          rfl
  obtain ⟨s', hrealloc, hfreed⟩ : ∃ s', Dpages.auKzrealloc c s.dpages s.ndpage (s.ndpage + 1) s = (some s.nextBlock, s') ∧
      s'.blocks s'.dpages = none := by
    unfold Dpages.auKzrealloc
    rw [hblock]
    dsimp only
    rw [if_neg (Nat.not_succ_le_self _), if_neg (Nat.not_le.mpr hsmall), hmore]
    exact ⟨_, rfl, Function.update_self ..⟩
  have hend : (auDpagesAppend perPage c d s).2 = s' := by
    unfold auDpagesAppend
    rw [hlast]
    dsimp only
    rw [if_pos hfull, hrealloc]
    dsimp only
    cases c.getFreePage with
    | false => rfl
    | true =>
        rw [if_pos rfl, Dpages.addPage, hfreed]
  rw [hend]
  intro hfaithful
  obtain ⟨b', hb', -⟩ := hfaithful.live
  rw [hfreed] at hb'
  cases hb'

-- ---------------------------------------------------------------------------
-- Any number of appends
-- ---------------------------------------------------------------------------

/-- A list that was initialised is empty. -/
theorem holds_init (h : auDpagesInit c others = some s) : ∃ b ps, Holds others s [] b ps := by
  unfold auDpagesInit at h
  split at h
  · cases h
  · rename_i more _
    split at h
    · cases h
      refine ⟨⟨1 + more, Function.update (fun _ => none) 0 (some ⟨0, 1⟩)⟩, [⟨0, 1⟩], ?_⟩
      constructor
      case blocks =>
        intro a
        by_cases ha : a = 0
        · subst ha
          rfl
        · dsimp only
          rw [Function.update_of_ne ha, if_neg ha]
      case ndpage => rfl
      case ne => exact List.cons_ne_nil _ _
      case room => exact Nat.le_add_right 1 more
      case cells =>
        intro i hi
        obtain rfl : i = 0 := Nat.lt_one_iff.mp hi
        rfl
      case pages =>
        intro a
        by_cases ha : a = 1
        · subst ha
          exact iff_of_true (Option.some_ne_none _) (List.mem_singleton_self 1)
        · refine iff_of_false ?_ fun hmem => ha (List.mem_singleton.mp hmem)
          dsimp only
          rw [Function.update_of_ne ha]
          exact not_not.mpr rfl
      case nodup => exact List.nodup_singleton 1
      case fresh =>
        intro p hp
        rw [List.mem_singleton.mp hp]
        exact Nat.lt_succ_self 1
      case contents => rfl
      case cnt => exact fun k => (Int.add_zero _).symm
    · cases h

theorem after_append (pre post : List AppendCall) (sl : Dpages × List Nat) :
    after perPage (pre ++ post) sl = after perPage post (after perPage pre sl) := by
  induction pre generalizing sl with
  | nil => rfl
  | cons call pre ih =>
      obtain ⟨s, l⟩ := sl
      rw [List.cons_append, after, after]
      split <;> exact ih _

/-- Calls that do not move the array keep the list. -/
theorem Holds.after (h : Holds others s l b ps) (calls : List AppendCall)
    (hcalls : ∀ pre call post, calls = pre ++ call :: post →
      ¬ Moves perPage call.allocs (Dpages.after perPage pre (s, l)).1) :
    ∃ b' ps', Holds others (Dpages.after perPage calls (s, l)).1 (Dpages.after perPage calls (s, l)).2 b' ps' := by
  induction calls generalizing s l b ps with
  | nil => exact ⟨b, ps, h⟩
  | cons call rest ih =>
      have hrest (sl : Dpages × List Nat) (hsl : Dpages.after perPage [call] (s, l) = sl) (pre : List AppendCall)
          (call' : AppendCall) (post : List AppendCall) (heq : rest = pre ++ call' :: post) :
          ¬ Moves perPage call'.allocs (Dpages.after perPage pre sl).1 := by
        have hmoves := hcalls (call :: pre) call' post (by rw [heq, List.cons_append])
        rwa [← List.singleton_append, after_append, hsl] at hmoves
      have hstep := h.append (d := call.d) (hcalls [] call rest rfl)
      rw [Dpages.after]
      rcases hend : auDpagesAppend perPage call.allocs call.d s with ⟨r, s'⟩
      rw [hend] at hstep
      rcases hstep with ⟨hr, b', ps', h'⟩ | ⟨hr, b', ps', h'⟩
      · obtain rfl : r = .ok := hr
        exact ih h' (hrest _ (by rw [Dpages.after, hend]; rfl))
      · obtain rfl : r = .nomem := hr
        exact ih h' (hrest _ (by rw [Dpages.after, hend]; rfl))

/-- After any number of appends to a list that was initialised, whichever allocations fail, the list
is the array of the dentries that were appended, exactly as long as no append moves the array. -/
theorem auDpages_faithful_iff (perPage : Nat) {c : PageAllocs} {others : Nat → Int} {s : Dpages}
    (h : auDpagesInit c others = some s) (calls : List AppendCall) :
    (∀ pre post, calls = pre ++ post →
        Faithful others (after perPage pre (s, [])).1 (after perPage pre (s, [])).2) ↔
      ∀ pre call post, calls = pre ++ call :: post → ¬ Moves perPage call.allocs (after perPage pre (s, [])).1 := by
  constructor
  · intro hall pre call post heq hmoves
    have hfaithful := hall (pre ++ [call]) post (by rw [heq, List.append_assoc]; rfl)
    rw [after_append] at hfaithful
    rcases hpre : after perPage pre (s, []) with ⟨s', l'⟩
    rw [hpre] at hmoves hfaithful
    have hnot {l : List Nat} : ¬ Faithful others (auDpagesAppend perPage call.allocs call.d s').2 l :=
      not_faithful_of_moves hmoves
    rw [after] at hfaithful
    split at hfaithful
    · rename_i s'' hend
      rw [hend] at hnot
      exact hnot hfaithful
    · rename_i s'' _ hend
      rw [hend] at hnot
      exact hnot hfaithful
  · intro hmoves pre post heq
    obtain ⟨b, ps, hholds⟩ := holds_init h
    obtain ⟨b', ps', hpre⟩ := hholds.after pre fun pre' call post' heq' =>
      hmoves pre' call (post' ++ post) (by rw [heq, heq', List.append_assoc]; rfl)
    exact hpre.faithful

/-- Appends fill the last page up to its end. -/
theorem lastPage_fill {dpage : Dpage} {m : Nat → Nat} (call : AppendCall) (n : Nat) (hlast : s.lastPage = some (b, dpage))
    (hpage : s.pages dpage.dentries = some m) (hn : dpage.ndentry + n ≤ perPage) :
    ∃ b', (after perPage (List.replicate n call) (s, l)).1.lastPage =
        some (b', { dpage with ndentry := dpage.ndentry + n }) ∧
      b'.ksize = b.ksize ∧ (after perPage (List.replicate n call) (s, l)).1.ndpage = s.ndpage := by
  induction n generalizing s l b dpage m with
  | zero => exact ⟨b, hlast, rfl, rfl⟩
  | succ n ih =>
      have hroom : ¬ perPage ≤ dpage.ndentry := by omega
      have hput : ∃ s' b', auDpagesAppend perPage call.allocs call.d s = (.ok, s') ∧ b'.ksize = b.ksize ∧
          s'.ndpage = s.ndpage ∧ s'.lastPage = some (b', { dpage with ndentry := dpage.ndentry + 1 }) ∧
          s'.pages dpage.dentries = some (Function.update m dpage.ndentry call.d) := by
        unfold auDpagesAppend
        rw [hlast]
        dsimp only
        rw [if_neg hroom, Dpages.putDentry, hlast]
        dsimp only
        rw [hpage]
        refine ⟨_, ⟨b.ksize, Function.update b.cells (s.ndpage - 1)
          (some { dpage with ndentry := dpage.ndentry + 1 })⟩, rfl, rfl, rfl, ?_, Function.update_self ..⟩
        simp only [Dpages.lastPage, Function.update_self, Option.map_some]
      obtain ⟨s', b', hok, hksize, hnd, hlast', hpage'⟩ := hput
      rw [List.replicate_succ, Dpages.after, hok]
      dsimp only
      obtain ⟨b'', hb, hks, hnd'⟩ := ih (l := l ++ [call.d]) hlast' hpage' (by dsimp only; omega)
      refine ⟨b'', ?_, hks.trans hksize, hnd'.trans hnd⟩
      rw [hb]
      dsimp only
      rw [Nat.add_assoc, Nat.add_comm 1 n]

-- ---------------------------------------------------------------------------
-- A second page
-- ---------------------------------------------------------------------------

/-- A dentry is appended, and there is memory, in blocks of the size that is asked for. -/
def exactCall (d : Nat) : AppendCall := ⟨d, some 0, true⟩

/-- The list that `au_dpages_init` makes then. -/
def exactList : Dpages where
  dpages := 0
  ndpage := 1
  blocks := Function.update (fun _ => none) 0 (some ⟨1, Function.update (fun _ => none) 0 (some ⟨0, 1⟩)⟩)
  pages := Function.update (fun _ => none) 1 (some fun _ => 0)
  nextBlock := 1
  nextPage := 2
  cnt := fun _ => 0

theorem exactList_init : auDpagesInit ⟨some 0, true⟩ (fun _ => 0) = some exactList := rfl

/-- One dentry fits. -/
theorem auDpages_faithful_one :
    Faithful (fun _ => 0) (after 512 [exactCall 7] (exactList, [])).1 (after 512 [exactCall 7] (exactList, [])).2 := by
  refine (auDpages_faithful_iff 512 exactList_init [exactCall 7]).mpr ?_ [exactCall 7] [] rfl
  intro pre call post heq hmoves
  have hlen := congrArg List.length heq
  simp only [List.length_append, List.length_cons, List.length_nil] at hlen
  obtain rfl : pre = [] := List.eq_nil_of_length_eq_zero (by omega)
  obtain ⟨b, dpage, hlast, hfull, -⟩ := hmoves
  cases hlast
  exact absurd hfull (by decide)

/-- A page takes 512 dentries; the next one moves the array. -/
theorem exactList_not_faithful :
    ¬ ∀ pre post, List.replicate 513 (exactCall 7) = pre ++ post →
      Faithful (fun _ => 0) (after 512 pre (exactList, [])).1 (after 512 pre (exactList, [])).2 := by
  intro h
  have hfaithful := h (List.replicate 512 (exactCall 7) ++ [exactCall 7]) [] (by
    rw [List.append_nil, ← List.replicate_succ'])
  obtain ⟨b, hlast, hksize, hnd⟩ := lastPage_fill (l := []) (exactCall 7) 512
    (show exactList.lastPage = some (_, ⟨0, 1⟩) from rfl) (show exactList.pages 1 = some _ from rfl) (Nat.le_refl 512)
  rw [after_append] at hfaithful
  rcases hpre : after 512 (List.replicate 512 (exactCall 7)) (exactList, []) with ⟨s, l⟩
  rw [hpre] at hlast hnd hfaithful
  have hmoves : Moves 512 (exactCall 7).allocs s := by
    refine ⟨b, _, hlast, Nat.le_refl 512, ?_, Option.some_ne_none 0⟩
    rw [show s.ndpage = 1 from hnd, hksize]
    exact Nat.lt_succ_self 1
  have hnot {l : List Nat} : ¬ Faithful (fun _ => 0) (auDpagesAppend 512 (exactCall 7).allocs (exactCall 7).d s).2 l :=
    not_faithful_of_moves hmoves
  rw [after] at hfaithful
  split at hfaithful
  · rename_i s' hend
    rw [hend] at hnot
    exact hnot hfaithful
  · rename_i s' _ hend
    rw [hend] at hnot
    exact hnot hfaithful

end Dpages

end Aufs
