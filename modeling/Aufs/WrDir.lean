-- SUMMARY: The branch that wr_dir picks for a new entry: it is writable, has the parent directory, and nothing above it that lookups honour hides the entry.
import Aufs.CpupDirs
import Aufs.HalfLookup

/-!
# The branch for a new entry

`wr_dir` starts from the branch of the dentry or, when that of the source dentry lies
above, from there. If this branch is read-only it searches a writable one upwards, at
first among the branches that have the parent directory, and copies the parent up when
it must. The dentry was looked up before: above its first branch there is no name and no
whiteout that the lookup honours, and parents that were copied up since then are empty.
Whiteouts on branches whose permission does not ask for them hide nothing.
-/

namespace Aufs

open Prog Op Overlay

variable {m m' : Mount} {sb : SuperBlock} {dir : Path} {name : Name} {b : Int}

-- ---------------------------------------------------------------------------
-- The dentry that was looked up
-- ---------------------------------------------------------------------------

/-- The dentry is as a lookup in its parent leaves it. -/
def Mount.LookedUp (sb : SuperBlock) (m : Mount) (dir : Path) (name : Name) : Prop :=
  ∃ w w' np, w.fs = m.w.fs ∧
    lkupDentry sb name (m.di dir) .alloc (m.di dir).bstart none w = (.ok np, m.di (dir ++ [name]), w')

/-- Behind an opaque directory nothing of the directory is looked at. -/
def Mount.OpaqueTail (sb : SuperBlock) (m : Mount) (dir : Path) : Prop :=
  dir ≠ [] → ∀ c h, (m.di dir).hDptrI c = some h → sb.sbrIsWhable c →
    (m.w.node h.root (h.path ++ [diropqName])).isSome → (m.di dir).dbtaildir ≤ c

/-- Above a branch that a lookup reaches there is no name, and no whiteout that it honours. -/
structure Mount.ClearAbove (sb : SuperBlock) (m : Mount) (dir : Path) (name : Name) (s : Int) : Prop where
  tail : s ≤ (m.di dir).dbtaildir
  above : ∀ c < s, ∀ h, (m.di dir).hDptrI c = some h → m.w.node h.root (h.path ++ [name]) = none ∧
    (sb.sbrIsWhable c → m.w.node h.root (h.path ++ [whName name]) = none)

/-- What the lookup of a dentry says about the branches up to its first one. -/
structure Mount.EntryAt (sb : SuperBlock) (m : Mount) (dir : Path) (name : Name) (s : Int) : Prop
    extends Mount.ClearAbove sb m dir name s where
  slot : ∃ hp h, (m.di dir).hDptrI s = some hp ∧ (m.di (dir ++ [name])).hdentry s = some h ∧
    h.root = hp.root ∧ h.path = hp.path ++ [name]

/-- Above the first entry that is found no layer masks the name or has it. -/
theorem Scan.search_above {α : Type*} {isDir : α → Bool} {cell : Int → Cell α} {L : List Int} {e : Int × α}
    {rest : List (Int × α)} (hL : L.Pairwise (· < ·)) (h : (Scan.search isDir cell L).slots = e :: rest) :
    ∀ c ∈ L, c < e.1 → (cell c).mask = false ∧ (cell c).entry = none := by
  induction L with
  | nil => exact fun c hc => absurd hc List.not_mem_nil
  | cons d L ih =>
    obtain ⟨hd, hL'⟩ := List.pairwise_cons.mp hL
    rw [Scan.search] at h
    split at h
    · cases h
    · rename_i hm
      -- an entry of the first layer is the first one
      have hfirst : e.1 = d → ∀ c ∈ d :: L, c < e.1 → (cell c).mask = false ∧ (cell c).entry = none := by
        intro he c hc hlt
        rcases List.mem_cons.mp hc with rfl | hc
        · omega
        · have hdc := hd c hc
          omega
      split at h
      · rename_i hnone
        intro c hc hlt
        rcases List.mem_cons.mp hc with rfl | hc
        · exact ⟨by simpa using hm, hnone⟩
        · exact ih hL' h c hc hlt
      · rename_i x hx
        split at h
        · split at h
          · cases h
            exact hfirst rfl
          · cases h
            exact hfirst rfl
        · cases h
          exact hfirst rfl

/-- An opaque directory that is found ends the search. -/
theorem Scan.opaqueAt_dirs {α : Type*} {isDir : α → Bool} {cell : Int → Cell α} {L : List Int} {c : Int} {x : α}
    (hopq : (cell c).opq) :
    (c, x) ∈ (Scan.dirs isDir cell L).slots → (Scan.dirs isDir cell L).opaqueAt = some c := by
  induction L with
  | nil => exact fun h => absurd h List.not_mem_nil
  | cons d L ih =>
    rw [Scan.dirs]
    split
    · exact fun h => absurd h List.not_mem_nil
    · split
      · exact ih
      · split
        · split
          · intro h
            obtain ⟨rfl, -⟩ := Prod.mk.inj (List.mem_singleton.mp h)
            rfl
          · rename_i hno
            intro h
            rcases List.mem_cons.mp h with heq | h
            · obtain ⟨rfl, -⟩ := Prod.mk.inj heq
              exact absurd hopq hno
            · exact ih h
        · exact ih

theorem Scan.opaqueAt_search {α : Type*} {isDir : α → Bool} {cell : Int → Cell α} {L : List Int} {c : Int}
    {x : α} (hdir : isDir x) (hopq : (cell c).opq) :
    (c, x) ∈ (Scan.search isDir cell L).slots → (Scan.search isDir cell L).opaqueAt = some c := by
  induction L with
  | nil => exact fun h => absurd h List.not_mem_nil
  | cons d L ih =>
    rw [Scan.search]
    split
    · exact fun h => absurd h List.not_mem_nil
    · split
      · exact ih
      · split
        · split
          · intro h
            obtain ⟨rfl, -⟩ := Prod.mk.inj (List.mem_singleton.mp h)
            rfl
          · rename_i hno
            intro h
            rcases List.mem_cons.mp h with heq | h
            · obtain ⟨rfl, -⟩ := Prod.mk.inj heq
              exact absurd hopq hno
            · exact Scan.opaqueAt_dirs hopq h
        · rename_i hno
          intro h
          obtain ⟨-, rfl⟩ := Prod.mk.inj (List.mem_singleton.mp h)
          exact absurd hdir hno

theorem Mount.Dirs.hDir (hm : m.Dirs sb dir) (c : Int) : (m.di dir).hDir c = (m.di dir).hDptrI c := by
  have hself := hm.dirAt dir (List.prefix_refl _)
  rw [Dinfo.hDir, hself.hDptrI]
  cases hc : (m.di dir).hdentry c with
  | none => rfl
  | some h =>
    obtain ⟨_, i, -, hi, -, rfl⟩ := hself.slots c h hc
    rw [Option.filter_some, Option.any_some, hi]
    rfl

theorem Mount.Dirs.path (hm : m.Dirs sb dir) {c : Int} {hp : HDentry} (hhp : (m.di dir).hDptrI c = some hp) :
    hp.path = dir := by
  have hself := hm.dirAt dir (List.prefix_refl _)
  rw [hself.hDptrI] at hhp
  obtain ⟨_, _, -, -, -, rfl⟩ := hself.slots c hp hhp
  rfl

/-- The negative slot is on the first branch with the parent directory. -/
theorem negSlot_first {w : World} {parent : Dinfo} {L : List Int} {e : Int × HDentry} {rest : List (Int × HDentry)}
    (hL : L.Pairwise (· < ·)) (h : negSlot sb w parent name L = e :: rest) :
    e.1 ∈ L ∧ (∃ hp, parent.hDir e.1 = some hp ∧ e.2 = hp.negative name) ∧
      ∀ c ∈ L, c < e.1 → parent.hDir c = none := by
  induction L with
  | nil => cases h
  | cons d L ih =>
    obtain ⟨hd, hL'⟩ := List.pairwise_cons.mp hL
    rw [negSlot] at h
    split at h
    · rename_i hno
      obtain ⟨hmem, hslot, hup⟩ := ih hL' h
      refine ⟨List.mem_cons_of_mem d hmem, hslot, fun c hc hlt => ?_⟩
      rcases List.mem_cons.mp hc with rfl | hc
      · exact hno
      · exact hup c hc hlt
    · rename_i hp hhp
      split at h
      · cases h
        refine ⟨List.mem_cons_self, ⟨hp, hhp, rfl⟩, fun c hc hlt => ?_⟩
        rcases List.mem_cons.mp hc with rfl | hc
        · exact absurd hlt (lt_irrefl _)
        · have hdc := hd c hc
          have hlt : c < d := hlt
          omega
      · cases h

theorem negSlot_negative {w : World} {parent : Dinfo} {L : List Int} {c : Int} {h : HDentry}
    (hc : (negSlot sb w parent name L).lookup c = some h) : h.inode = none := by
  induction L with
  | nil => cases hc
  | cons d L ih =>
    rw [negSlot] at hc
    split at hc
    · exact ih hc
    · split at hc
      · rw [List.lookup_cons] at hc
        split at hc
        · obtain rfl := Option.some.inj hc
          rfl
        · cases hc
      · cases hc

/-- The first slot of a search is the first slot of the dentry. -/
theorem ofScan_first {r : Scan Int HDentry} {e : Int × HDentry} {rest : List (Int × HDentry)}
    (h : r.slots = e :: rest) : (Dinfo.ofScan r).bstart = e.1 ∧ (Dinfo.ofScan r).hdentry e.1 = some e.2 := by
  rw [hdentry_ofScan, Dinfo.ofScan, h]
  exact ⟨rfl, List.lookup_cons_self⟩

theorem Mount.LookedUp.entryAt (hm : m.Dirs sb dir) (hlook : m.LookedUp sb dir name)
    (h0 : 0 ≤ (m.di (dir ++ [name])).bstart) : m.EntryAt sb dir name (m.di (dir ++ [name])).bstart := by
  obtain ⟨w, w', np, hfs, hl⟩ := hlook
  have hself := hm.dirAt dir (List.prefix_refl _)
  obtain ⟨-, hnp, hd⟩ := lkupDentry_fresh hself.nonneg hl
  have hsorted := bindexes_sorted (m.di dir).bstart (m.di dir).dbtaildir
  have hnode : w.node = m.w.node := World.node_congr hfs
  -- a slot of the parent above another one that was asked was asked, too
  have hasked : ∀ c t h, (m.di dir).hDptrI c = some h → c < t → t ≤ (m.di dir).dbtaildir →
      c ∈ bindexes (m.di dir).bstart (m.di dir).dbtaildir := fun c t h hc hlt ht =>
    mem_bindexes.mpr ⟨(Dinfo.range_of_hDptrI hc).2, by omega⟩
  by_cases hn : np = 0
  · rw [if_neg (not_not.mpr hn)] at hd
    have hnil : ((m.di dir).scan sb w name).slots = [] := List.length_eq_zero_iff.mp (hnp.symm.trans hn)
    cases hneg : negSlot sb w (m.di dir) name (bindexes (m.di dir).bstart (m.di dir).dbtaildir) with
    | nil =>
      have hstart : (m.di (dir ++ [name])).bstart = -1 := by
        rw [hd, Dinfo.ofScan, Scan.prepend_slots, hnil, hneg]
        rfl
      omega
    | cons e rest =>
      have hslots : (((m.di dir).scan sb w name).prepend (negSlot sb w (m.di dir) name
          (bindexes (m.di dir).bstart (m.di dir).dbtaildir))).slots = e :: rest := by
        rw [Scan.prepend_slots, hnil, hneg, List.append_nil]
      obtain ⟨hstart, hslot⟩ := ofScan_first hslots
      rw [← hd] at hstart hslot
      obtain ⟨hmem, ⟨hp, hhp, he⟩, hup⟩ := negSlot_first hsorted hneg
      have htail := (mem_bindexes.mp hmem).2
      rw [hstart]
      refine ⟨⟨htail, fun c hc h hh => ?_⟩, hp, e.2, by rw [← hm.hDir, hhp], hslot, by rw [he]; rfl, by rw [he]; rfl⟩
      have hno := hup c (hasked c e.1 h hh hc htail) hc
      rw [hm.hDir, hh] at hno
      cases hno
  · rw [if_pos hn] at hd
    obtain ⟨e, rest, hslots⟩ : ∃ e rest, ((m.di dir).scan sb w name).slots = e :: rest := by
      refine List.exists_cons_of_ne_nil fun hnil => hn ?_
      rw [hnp, hnil]
      rfl
    obtain ⟨hstart, hslot⟩ := ofScan_first hslots
    rw [← hd] at hstart hslot
    have hmem : e ∈ ((m.di dir).scan sb w name).slots := by
      rw [hslots]
      exact List.mem_cons_self
    have hentry := (Scan.entry_of_mem_search hmem).2
    have htail := (scan_range hmem).2
    rw [hstart]
    refine ⟨⟨htail, fun c hc h hh => ?_⟩, ?_⟩
    rotate_left
    · rw [cellAt, hm.hDir] at hentry
      cases hhp : (m.di dir).hDptrI e.1 with
      | none =>
        rw [hhp] at hentry
        cases hentry
      | some hp =>
        rw [hhp] at hentry
        obtain ⟨i, -, he⟩ := Option.map_eq_some_iff.mp hentry
        exact ⟨hp, e.2, rfl, hslot, by rw [← he], by rw [← he]⟩
    · have habove := Scan.search_above hsorted hslots c (hasked c e.1 h hh hc htail) hc
      rw [cellAt, hm.hDir, hh] at habove
      simp only [Option.map_eq_none_iff, Bool.and_eq_false_iff] at habove
      rw [← hnode]
      refine ⟨habove.2, fun hwh => ?_⟩
      rcases habove.1 with hno | hno
      · rw [hwh] at hno
        cases hno
      · exact Option.not_isSome_iff_eq_none.mp (by rw [Bool.not_eq_true]; exact hno)

/-- The lookup of the directory itself stops at an opaque one. -/
theorem Mount.LookedUp.opaqueTail (hm : m.Dirs sb (dir ++ [name])) (hlook : m.LookedUp sb dir name) :
    m.OpaqueTail sb (dir ++ [name]) := by
  obtain ⟨w, w', np, hfs, hl⟩ := hlook
  have hparent := hm.parent
  have hself := hm.dirAt _ (List.prefix_refl _)
  obtain ⟨-, hnp, hd⟩ := lkupDentry_fresh (hparent.dirAt dir (List.prefix_refl _)).nonneg hl
  have hnode : w.node = m.w.node := World.node_congr hfs
  intro _ c h hc hable hopq
  rw [hself.hDptrI] at hc
  obtain ⟨br, i, hbr, hi, -, rfl⟩ := hself.slots c h hc
  have hpos : np ≠ 0 := by
    -- without a file all slots are negative
    intro hn
    have hnil : ((m.di dir).scan sb w name).slots = [] := List.length_eq_zero_iff.mp (hnp.symm.trans hn)
    rw [if_neg (not_not.mpr hn)] at hd
    rw [hd, hdentry_ofScan, Scan.prepend_slots, hnil, List.append_nil] at hc
    cases negSlot_negative hc
  rw [if_pos hpos] at hd
  have hmem : (c, ⟨br.root, dir ++ [name], some i⟩) ∈ ((m.di dir).scan sb w name).slots := by
    rw [hd, hdentry_ofScan, mem_of_lookup scan_sorted] at hc
    exact hc
  have hcell : (cellAt sb w (m.di dir) name c).opq := by
    have hup := hm.chain dir name c (List.prefix_refl _) (by rw [hc]; rfl)
    obtain ⟨hp, hhp⟩ := Option.isSome_iff_exists.mp hup
    obtain ⟨br', _, hbr', -, -, rfl⟩ := (hparent.dirAt dir (List.prefix_refl _)).slots c hp hhp
    obtain rfl := Option.some.inj (hbr.symm.trans hbr')
    rw [cellAt, hparent.hDir, (hparent.dirAt dir (List.prefix_refl _)).hDptrI, hhp]
    dsimp only
    rw [← hnode] at hopq
    rw [hable]
    exact hopq
  have hisdir : HDentry.isDir ⟨br.root, dir ++ [name], some i⟩ := hi
  have hat : ((m.di dir).scan sb w name).opaqueAt = some c := Scan.opaqueAt_search hisdir hcell hmem
  have hdiropq : (m.di (dir ++ [name])).bdiropq = c := by
    rw [hd, Dinfo.ofScan, hat]
    rfl
  have h0 := hself.range c (by rw [hc]; rfl)
  have hn := hself.nonneg
  rw [Dinfo.dbtaildir, hdiropq]
  split
  · split
    · exact le_rfl
    · omega
  · omega

-- ---------------------------------------------------------------------------
-- Since the lookup
-- ---------------------------------------------------------------------------

/-- The dentry was looked up in its parent, and since then the mount went through copies of the parent and
its parents upwards and through steps that leave the parent, the dentry and what is under its names alone. -/
inductive Mount.LookedUpSince (sb : SuperBlock) (dir : Path) (name : Name) : Mount → Prop
  | now {m : Mount} : m.Dirs sb dir → m.OpaqueTail sb dir → m.LookedUp sb dir name → LookedUpSince sb dir name m
  | made {m m' : Mount} {b : Int} {q : Path} {n : Name} : LookedUpSince sb dir name m →
      Mount.MakesDir sb dir b q n m m' → b < (m.di (q ++ [n])).bend → LookedUpSince sb dir name m'
  | other {m m' : Mount} : LookedUpSince sb dir name m → m'.Dirs sb dir → m'.di dir = m.di dir →
      m'.di (dir ++ [name]) = m.di (dir ++ [name]) →
      (∀ r, ∀ n ∈ [name, whName name, diropqName], m'.w.node r (dir ++ [n]) = m.w.node r (dir ++ [n])) →
      LookedUpSince sb dir name m'

/-- What the lookup says still holds. -/
structure Mount.EntryKnown (sb : SuperBlock) (m : Mount) (dir : Path) (name : Name) : Prop where
  dirs : m.Dirs sb dir
  opaque_tail : m.OpaqueTail sb dir
  entry : 0 ≤ (m.di (dir ++ [name])).bstart → m.EntryAt sb dir name (m.di (dir ++ [name])).bstart

/-- Making a directory of the path fills no name in the parent. -/
theorem Mount.MakesDir.node_child {q : Path} {n : Name} (hmk : Mount.MakesDir sb dir b q n m m') (r : Nat)
    (x : Name) : m'.w.node r (dir ++ [x]) = m.w.node r (dir ++ [x]) := by
  obtain ⟨br, i, j, -, -, -, -, -, hsets, -, -⟩ := hmk.made
  rw [hsets r, if_neg]
  exact fun he => ne_concat_of_within hmk.within he.2.symm

/-- A slot of the parent is an old one, or there are no names behind it. -/
theorem Mount.MakesDir.slot {q : Path} {n : Name} (hm : m.Dirs sb dir)
    (hmk : Mount.MakesDir sb dir b q n m m') {c : Int} {h : HDentry} (hc : (m'.di dir).hDptrI c = some h) :
    (m.di dir).hDptrI c = some h ∨ ∀ x, m.w.node h.root (dir ++ [x]) = none := by
  rw [((hm.makesDir hmk).dirAt dir (List.prefix_refl _)).hDptrI] at hc
  rw [(hm.dirAt dir (List.prefix_refl _)).hDptrI]
  obtain ⟨br, i, j, -, -, -, -, hnone, -, hdi, -⟩ := hmk.made
  rw [hdi] at hc
  by_cases heq : dir = q ++ [n]
  case neg =>
    rw [Function.update_of_ne heq] at hc
    exact .inl hc
  case pos =>
    rw [← heq, Function.update_self, Dinfo.enter] at hc
    dsimp only at hc
    by_cases hcb : c = b
    case neg =>
      rw [Function.update_of_ne hcb] at hc
      exact .inl hc
    case pos =>
      rw [hcb, Function.update_self] at hc
      obtain rfl := Option.some.inj hc
      rw [← heq] at hnone
      exact .inr fun x => (m.w.fs br.root).wf.closed.node_append_none hnone [x]

/-- The search in the parent ends where it did. -/
theorem Mount.MakesDir.dbtaildir {q : Path} {n : Name} (hmk : Mount.MakesDir sb dir b q n m m')
    (hb : b < (m.di (q ++ [n])).bend) : (m'.di dir).dbtaildir = (m.di dir).dbtaildir := by
  obtain ⟨br, i, j, -, -, -, -, -, -, hdi, -⟩ := hmk.made
  rw [hdi]
  by_cases heq : dir = q ++ [n]
  case neg => rw [Function.update_of_ne heq]
  case pos =>
    have hend : ¬ (m.di (q ++ [n])).bend ≤ b := by omega
    rw [heq, Function.update_self, Dinfo.enter, if_neg hend]
    rfl

theorem Mount.EntryKnown.made {q : Path} {n : Name} (h : m.EntryKnown sb dir name)
    (hmk : Mount.MakesDir sb dir b q n m m') (hb : b < (m.di (q ++ [n])).bend) : m'.EntryKnown sb dir name := by
  have hm' := h.dirs.makesDir hmk
  have htail := hmk.dbtaildir hb
  have hnode := hmk.node_child
  have hself : m'.di (dir ++ [name]) = m.di (dir ++ [name]) := by
    obtain ⟨_, _, _, -, -, -, -, -, -, hdi, -⟩ := hmk.made
    rw [hdi, Function.update_of_ne (ne_concat_of_within hmk.within).symm]
  refine ⟨hm', fun hdir c x hc hable hopq => ?_, fun h0 => ?_⟩
  · rw [hm'.path hc, hnode] at hopq
    rw [htail]
    rcases hmk.slot h.dirs hc with hold | hnew
    · rw [← h.dirs.path hold] at hopq
      exact h.opaque_tail hdir c x hold hable hopq
    · rw [hnew] at hopq
      cases hopq
  · rw [hself] at h0 ⊢
    have hentry := h.entry h0
    obtain ⟨hp, d, hhp, hd, hroot, hpath⟩ := hentry.slot
    refine ⟨⟨htail ▸ hentry.tail, fun c hc x hx => ?_⟩, hp, d, ?_, hself ▸ hd, hroot, hpath⟩
    · rw [hm'.path hx, hnode, hnode]
      rcases hmk.slot h.dirs hx with hold | hnew
      · have habove := hentry.above c hc x hold
        rwa [h.dirs.path hold] at habove
      · exact ⟨hnew name, fun _ => hnew _⟩
    · rw [(hm'.dirAt dir (List.prefix_refl _)).hDptrI]
      exact hmk.kept (hdentry_of_hDptrI hhp)

theorem Mount.EntryKnown.other (h : m.EntryKnown sb dir name) (hm' : m'.Dirs sb dir)
    (hdir : m'.di dir = m.di dir) (hself : m'.di (dir ++ [name]) = m.di (dir ++ [name]))
    (hnode : ∀ r, ∀ n ∈ [name, whName name, diropqName], m'.w.node r (dir ++ [n]) = m.w.node r (dir ++ [n])) :
    m'.EntryKnown sb dir name := by
  have hname : ∀ r, m'.w.node r (dir ++ [name]) = m.w.node r (dir ++ [name]) := fun r => hnode r _ (by simp)
  have hwh : ∀ r, m'.w.node r (dir ++ [whName name]) = m.w.node r (dir ++ [whName name]) := fun r =>
    hnode r _ (by simp)
  refine ⟨hm', fun hne c x hc hable hopq => ?_, fun h0 => ?_⟩
  · rw [hdir] at hc ⊢
    rw [h.dirs.path hc, hnode _ _ (by simp)] at hopq
    rw [← h.dirs.path hc] at hopq
    exact h.opaque_tail hne c x hc hable hopq
  · rw [hself] at h0 ⊢
    have hentry := h.entry h0
    refine ⟨⟨hdir ▸ hentry.tail, fun c hc x hx => ?_⟩, hdir ▸ hself ▸ hentry.slot⟩
    rw [hdir] at hx
    have habove := hentry.above c hc x hx
    rw [h.dirs.path hx] at habove ⊢
    rwa [hname, hwh]

theorem Mount.LookedUpSince.known (h : Mount.LookedUpSince sb dir name m) : m.EntryKnown sb dir name := by
  induction h with
  | now hm hopq hlook => exact ⟨hm, hopq, hlook.entryAt hm⟩
  | made _ hmk hb ih => exact ih.made hmk hb
  | other _ hm' hdir hself hnode ih => exact ih.other hm' hdir hself hnode

-- ---------------------------------------------------------------------------
-- The branch
-- ---------------------------------------------------------------------------

theorem brRdonly_of_testRo {hi : Int → Option HInode} (h : testRo sb b hi = .ok false) :
    sb.brRdonly b = false := by
  unfold testRo at h
  rw [SuperBlock.brRdonly]
  cases hbr : sb.stobr b with
  | none =>
    rw [hbr] at h
    cases h
  | some br =>
    rw [hbr] at h
    exact (Bool.or_eq_false_iff.mp (Except.ok.inj h)).1

/-- The branch that is found from the one of the dentry. -/
theorem wrBranch_none_ok {parent d : Dinfo} {hi : Int → Option HInode} {forceBtgt : Int}
    (hforce : ¬ 0 ≤ forceBtgt) (h : wrBranch sb parent d hi none forceBtgt = .ok b) :
    sb.brRdonly b = false ∧ b ≤ d.bstart := by
  unfold wrBranch at h
  rw [if_neg hforce] at h
  dsimp only at h
  rcases hro : testRo sb d.bstart hi with e | ro
  · rw [hro] at h
    cases h
  · rw [hro] at h
    cases ro with
    | true => exact findRwParentBr_ok h
    | false =>
      cases h
      exact ⟨brRdonly_of_testRo hro, le_rfl⟩

/-- A source dentry on a branch above is as good as a dentry there. -/
theorem wrBranch_some (sb : SuperBlock) (parent d : Dinfo) (hi : Int → Option HInode) (c forceBtgt : Int) :
    wrBranch sb parent d hi (some c) forceBtgt =
      wrBranch sb parent { d with bstart := if c < d.bstart then c else d.bstart } hi none forceBtgt := rfl

/-- A branch that the caller asks for lies above the dentry and is writable. -/
def ForceOk (sb : SuperBlock) (d : Dinfo) (hi : Int → Option HInode) (forceBtgt : Int) : Prop :=
  0 ≤ forceBtgt → forceBtgt < d.bstart ∧ testRo sb forceBtgt hi = .ok false

/-- The branch is writable and does not lie below that of the dentry. -/
theorem wrBranch_ok {parent d : Dinfo} {hi : Int → Option HInode} {src : Option Int} {forceBtgt : Int}
    (hforce : ForceOk sb d hi forceBtgt) (h : wrBranch sb parent d hi src forceBtgt = .ok b) :
    sb.brRdonly b = false ∧ b ≤ d.bstart := by
  by_cases h0 : 0 ≤ forceBtgt
  case pos =>
    unfold wrBranch at h
    rw [if_pos h0] at h
    obtain rfl := Except.ok.inj h
    obtain ⟨hlt, hro⟩ := hforce h0
    exact ⟨brRdonly_of_testRo hro, hlt.le⟩
  case neg =>
    cases src with
    | none => exact wrBranch_none_ok h0 h
    | some c =>
      rw [wrBranch_some] at h
      obtain ⟨hw, hb⟩ := wrBranch_none_ok h0 h
      refine ⟨hw, hb.trans ?_⟩
      dsimp only
      split
      · omega
      · exact le_rfl

/-- Dropping negative slots does not move the start of a dentry up. -/
theorem le_updateDbstart {d : Dinfo} : d.bstart ≤ d.updateDbstart.bstart := by
  have hfrom : ∀ (L : List Int) (s : Int) (d : Dinfo), (∀ c ∈ L, s ≤ c) → s ≤ d.bstart →
      s ≤ (d.updateDbstartFrom L).bstart := by
    intro L s
    induction L with
    | nil => exact fun d _ hs => hs
    | cons c L ih =>
      intro d hL hs
      have hL' : ∀ x ∈ L, s ≤ x := fun x hx => hL x (List.mem_cons_of_mem c hx)
      rw [Dinfo.updateDbstartFrom]
      split
      · exact ih d hL' hs
      · split
        · exact hL c List.mem_cons_self
        · exact ih _ hL' hs
  exact hfrom _ _ d (fun c hc => (mem_bindexes.mp hc).1) le_rfl

-- ---------------------------------------------------------------------------
-- The parent directory
-- ---------------------------------------------------------------------------

/-- Some directories of the path down to `x` were made on the branch, and nothing else has changed. -/
structure Mount.Grown (sb : SuperBlock) (dir : Path) (b : Int) (x : Path) (m m' : Mount) : Prop where
  dirs : m'.Dirs sb dir
  di : ∀ y, ¬ y <+: x → m'.di y = m.di y
  node : ∀ r y, ¬ y <+: x → m'.w.node r y = m.w.node r y
  slots : ∀ y c, c ≠ b → (m'.di y).hdentry c = (m.di y).hdentry c

variable {x : Path}

theorem Mount.Grown.refl (hm : m.Dirs sb dir) : Mount.Grown sb dir b x m m :=
  ⟨hm, fun _ _ => rfl, fun _ _ _ => rfl, fun _ _ _ => rfl⟩

theorem Mount.Grown.makesDir {m₁ : Mount} {q : Path} {n : Name} (h : Mount.Grown sb dir b q m m₁)
    (hmk : Mount.MakesDir sb dir b q n m₁ m') : Mount.Grown sb dir b (q ++ [n]) m m' := by
  obtain ⟨br, i, j, -, -, -, -, -, hsets, hdi, -⟩ := hmk.made
  -- what is not on the longer path is not on the shorter one, and not the new directory
  have hout : ∀ y, ¬ y <+: q ++ [n] → ¬ y <+: q ∧ y ≠ q ++ [n] := fun y hy =>
    ⟨fun hpre => hy (hpre.trans (List.prefix_append q [n])), fun he => hy (he ▸ List.prefix_refl _)⟩
  refine ⟨h.dirs.makesDir hmk, fun y hy => ?_, fun r y hy => ?_, fun y c hc => ?_⟩
  · rw [hdi, Function.update_of_ne (hout y hy).2]
    exact h.di y (hout y hy).1
  · rw [hsets r y, if_neg fun he => (hout y hy).2 (And.right he)]
    exact h.node r y (hout y hy).1
  · rw [hdi, ← h.slots y c hc]
    by_cases he : y = q ++ [n]
    · rw [he, Function.update_self, Dinfo.enter]
      exact Function.update_of_ne hc ..
    · rw [Function.update_of_ne he]

/-- The loop of `cpup_dirs` makes the path down to `x`. -/
theorem wp_cpupDirsLoop {br : Branch} (hbr : sb.stobr b = some br) (hx : x <+: dir) (hm : m.Dirs sb dir) :
    wp (cpupDirsLoop sb b x.reverse) (fun _ m' => Mount.Grown sb dir b x m m' ∧ ((m'.di x).hDptrI b).isSome)
      (fun _ _ => True) m := by
  induction x using List.reverseRecOn with
  | nil =>
    refine wp_bind.mpr (wp_hDptrI (fun h hh => wp_pure.mpr ⟨.refl hm, ?_⟩) fun _ => trivial)
    rw [hh]
    rfl
  | append_singleton q n ih =>
    rw [List.reverse_append, List.reverse_singleton, List.singleton_append, cpupDirsLoop]
    simp only [List.reverse_cons, List.reverse_reverse]
    refine wp_bind.mpr (wp_dinfo.mpr (wp_ite.mpr ⟨fun hhas => wp_pure.mpr ⟨.refl hm, hhas⟩, fun hno => ?_⟩))
    refine wp_bind.mpr ((ih ((List.prefix_append q [n]).trans hx)).mono ?_ fun _ _ _ => trivial)
    rintro _ m₁ ⟨hgrown, hup⟩
    have hsame : m₁.di (q ++ [n]) = m.di (q ++ [n]) := hgrown.di _ (not_concat_within q n)
    have hn : (m₁.di (q ++ [n])).hDptrI b = none := by
      rw [hsame]
      exact Option.not_isSome_iff_eq_none.mp hno
    refine (wp_cpupSimple_makes hgrown.dirs hx hbr hup hn).mono (fun _ m' hmk => ?_) fun _ _ _ => trivial
    exact ⟨hgrown.makesDir hmk, hmk.has hgrown.dirs⟩

-- ---------------------------------------------------------------------------
-- wr_dir
-- ---------------------------------------------------------------------------

/-- What the branch `c` has in the directory hides an entry that is created below: the name itself or,
where whiteouts are looked for, its whiteout or the mark of an opaque directory. -/
def Mount.Hides (sb : SuperBlock) (m : Mount) (dir : Path) (name : Name) (c : Int) : Prop :=
  ∃ h, (m.di dir).hDptrI c = some h ∧ ((m.w.node h.root (h.path ++ [name])).isSome ∨ sb.sbrIsWhable c ∧
    ((m.w.node h.root (h.path ++ [whName name])).isSome ∨
      dir ≠ [] ∧ (m.w.node h.root (h.path ++ [diropqName])).isSome))

/-- The branch `b` is fit for the new entry: writable, not below the branch of the dentry, and with the
parent directory, in which the dentry has its first slot now. Nothing above hides the entry. -/
structure Mount.FitFor (sb : SuperBlock) (m : Mount) (dir : Path) (name : Name) (b : Int) (m' : Mount) :
    Prop where
  writable : sb.brRdonly b = false
  le : b ≤ (m.di (dir ++ [name])).bstart
  start : (m'.di (dir ++ [name])).bstart = b
  slot : ∃ hp h, (m'.di dir).hDptrI b = some hp ∧ (m'.w.fs hp.root).isDir hp.path ∧
    (m'.di (dir ++ [name])).hDptrI b = some h ∧ h.root = hp.root ∧ h.path = hp.path ++ [name]
  above : ∀ c < b, ¬ Mount.Hides sb m' dir name c

/-- Above the branch nothing hides the name, after the parent was copied up there. -/
theorem Mount.Grown.above {s : Int} (h : Mount.Grown sb dir b dir m m') (hm : m.Dirs sb dir)
    (hopq : m.OpaqueTail sb dir) (hclear : m.ClearAbove sb dir name s) (hb : b ≤ s) {c : Int} (hc : c < b) :
    ¬ Mount.Hides sb m' dir name c := by
  rintro ⟨hp, hhp, hhides⟩
  have hself := hm.dirAt dir (List.prefix_refl _)
  have hold : (m.di dir).hDptrI c = some hp := by
    rw [(h.dirs.dirAt dir (List.prefix_refl _)).hDptrI, h.slots dir c hc.ne] at hhp
    rwa [hself.hDptrI]
  have hpath : hp.path = dir := hm.path hold
  have hsame : ∀ n, m'.w.node hp.root (hp.path ++ [n]) = m.w.node hp.root (hp.path ++ [n]) := fun n => by
    rw [hpath]
    exact h.node hp.root _ (not_concat_within dir n)
  obtain ⟨hname, hwh⟩ := hclear.above c (by omega) hp hold
  rw [hsame, hsame, hsame, hname] at hhides
  rcases hhides with hsome | ⟨hable, hsome | ⟨hdir, hsome⟩⟩
  · cases hsome
  · rw [hwh hable] at hsome
    cases hsome
  · have htail := hopq hdir c hp hold hable hsome
    have hle := hclear.tail
    omega

/-- The parent has a hidden directory behind its slot. -/
theorem Mount.Dirs.slot (hm : m.Dirs sb dir) {hp : HDentry} (hhp : (m.di dir).hDptrI b = some hp) :
    (m.w.fs hp.root).isDir hp.path := by
  have hself := hm.dirAt dir (List.prefix_refl _)
  rw [hself.hDptrI] at hhp
  obtain ⟨br, i, -, hi, hnode, rfl⟩ := hself.slots b hp hhp
  have hany : (m.w.node br.root dir).any HInode.isDir = true := by
    rw [hnode]
    exact hi
  exact hany

/-- The branch of the dentry is fit when it is writable. -/
theorem Mount.EntryAt.fitFor (hm : m.Dirs sb dir) (hopq : m.OpaqueTail sb dir)
    (h0 : 0 ≤ (m.di (dir ++ [name])).bstart) (hentry : m.EntryAt sb dir name (m.di (dir ++ [name])).bstart)
    (hwr : sb.brRdonly (m.di (dir ++ [name])).bstart = false) :
    Mount.FitFor sb m dir name (m.di (dir ++ [name])).bstart m := by
  obtain ⟨hp, h, hhp, hh, hroot, hpath⟩ := hentry.slot
  refine ⟨hwr, le_rfl, rfl, ⟨hp, h, hhp, hm.slot hhp, ?_, hroot, hpath⟩, fun c hc => ?_⟩
  · rw [Dinfo.hDptrI, if_neg (by omega)]
    exact hh
  · have hgrown : Mount.Grown sb dir (m.di (dir ++ [name])).bstart dir m m := .refl hm
    exact hgrown.above hm hopq hentry.toClearAbove le_rfl hc

/-- A dentry of the directory may change. -/
theorem Mount.Dirs.setDi_child (hm : m.Dirs sb dir) (d : Dinfo) : (m.setDi (dir ++ [name]) d).Dirs sb dir :=
  hm.congr (fun q hq => ⟨by rw [Mount.setDi_di, Function.update_of_ne (ne_concat_of_within hq)], rfl⟩)
    fun _ _ _ _ => rfl

/-- `lkup_neg` on a branch above that has the parent. -/
theorem wp_lkupNeg_fitFor {m₀ : Mount} (hm : m₀.Dirs sb dir) (hopq : m₀.OpaqueTail sb dir)
    (h0 : 0 ≤ b) (hlt : b < (m₀.di (dir ++ [name])).bstart)
    (hclear : m₀.ClearAbove sb dir name (m₀.di (dir ++ [name])).bstart) (hwr : sb.brRdonly b = false)
    (hgrown : Mount.Grown sb dir b dir (m₀.setDi (dir ++ [name]) (m₀.di (dir ++ [name])).updateDbstart) m) :
    wp (Op.lkupNeg (dir ++ [name]) b)
      (fun _ m' => Mount.FitFor sb m₀ dir name b m') (fun _ _ => True) m := by
  have hout := not_concat_within dir name
  have hself : m.di (dir ++ [name]) = (m₀.di (dir ++ [name])).updateDbstart := by
    rw [hgrown.di _ hout, Mount.setDi_di, Function.update_self]
  have hdir : (m₀.setDi (dir ++ [name]) (m₀.di (dir ++ [name])).updateDbstart).di dir = m₀.di dir := by
    rw [Mount.setDi_di, Function.update_of_ne (ne_concat_of_within (List.prefix_refl dir))]
  have hbelow : b < (m.di (dir ++ [name])).bstart := by
    rw [hself]
    exact hlt.trans_le le_updateDbstart
  refine wp_lkupNeg (fun hp w hhp _ hfs => ?_) fun _ _ _ => trivial
  rw [dParent_append] at hhp
  rw [dName_append, if_pos hbelow]
  generalize hd : ({ m.di (dir ++ [name]) with
    bstart := b
    bend := if (m.di (dir ++ [name])).bend < b then b else (m.di (dir ++ [name])).bend
    hdentry := Function.update (m.di (dir ++ [name])).hdentry b (some (hp.negative name)) } : Dinfo) = d
  have hnode : w.node = m.w.node := World.node_congr hfs
  have hnew : ({ m with w }.setDi (dir ++ [name]) d).di dir = m.di dir := by
    rw [Mount.setDi_di, Function.update_of_ne (ne_concat_of_within (List.prefix_refl dir))]
  have hstart : (({ m with w }.setDi (dir ++ [name]) d).di (dir ++ [name])).bstart = b := by
    rw [Mount.setDi_di, Function.update_self, ← hd]
  have hslot : (({ m with w }.setDi (dir ++ [name]) d).di (dir ++ [name])).hDptrI b =
      some (hp.negative name) := by
    rw [Dinfo.hDptrI, hstart, if_neg (by omega), Mount.setDi_di, Function.update_self, ← hd]
    exact Function.update_self ..
  have hclear₁ : Mount.ClearAbove sb (m₀.setDi (dir ++ [name]) (m₀.di (dir ++ [name])).updateDbstart) dir name
      (m₀.di (dir ++ [name])).bstart := ⟨by rw [hdir]; exact hclear.tail, by rw [hdir]; exact hclear.above⟩
  have hopq₁ : Mount.OpaqueTail sb (m₀.setDi (dir ++ [name]) (m₀.di (dir ++ [name])).updateDbstart) dir := by
    rw [Mount.OpaqueTail, hdir]
    exact hopq
  have hm₁ := @Mount.Dirs.setDi_child _ _ _ name hm (m₀.di (dir ++ [name])).updateDbstart
  refine ⟨hwr, hlt.le, hstart, ⟨hp, _, ?_, ?_, hslot, rfl, rfl⟩, fun c hc => ?_⟩
  · rw [hnew]
    exact hhp
  · have hisdir := hgrown.dirs.slot hhp
    have hsame : (w.fs hp.root).isDir hp.path = (m.w.fs hp.root).isDir hp.path := by rw [hfs]
    exact hsame.trans hisdir
  · have habove := hgrown.above hm₁ hopq₁ hclear₁ hlt.le hc
    unfold Mount.Hides at habove ⊢
    rw [hnew]
    rw [← hnode] at habove
    exact habove

/-- What was looked up says about the branch that `wr_dir` picks. -/
theorem wp_wrDir_fitFor (hknown : m.EntryKnown sb dir name)
    (hforce : ForceOk sb (m.di (dir ++ [name])) (m.hi (dir ++ [name])) forceBtgt) :
    wp (wrDir sb (dir ++ [name]) true src forceBtgt)
      (fun b m' => Mount.FitFor sb m dir name b m') (fun _ _ => True) m := by
  have hm := hknown.dirs
  have hopq := hknown.opaque_tail
  refine wp_bind.mpr (wp_state.mpr (wp_bind.mpr (wp_ofExcept.mpr ?_)))
  cases hb : wrBranch sb (m.di (dParent (dir ++ [name]))) (m.di (dir ++ [name])) (m.hi (dir ++ [name]))
    (src.map fun q => (m.di q).bstart) forceBtgt with
  | error => trivial
  | ok b =>
    dsimp only
    obtain ⟨hwr, hle⟩ := wrBranch_ok hforce hb
    obtain ⟨br, hbr, -⟩ := stobr_of_not_brRdonly hwr
    have hb0 := (SuperBlock.range_of_stobr hbr).1
    have hentry := hknown.entry (hb0.trans hle)
    refine wp_ite.mpr ⟨fun heq => wp_pure.mpr ?_, fun hne => ?_⟩
    · subst heq
      exact hentry.fitFor hm hopq hb0 hwr
    have hlt : b < (m.di (dir ++ [name])).bstart := lt_of_le_of_ne hle hne
    have hm₁ := @Mount.Dirs.setDi_child _ _ _ name hm (m.di (dir ++ [name])).updateDbstart
    refine wp_bind.mpr (wp_hDptrI (fun _ _ => ?_) fun _ => trivial)
    rw [if_pos rfl, dParent_append]
    refine wp_bind.mpr (wp_onDinfo.mpr (wp_bind.mpr (wp_dinfo.mpr ?_)))
    -- the negative entry, when the parent is there
    have hneg : ∀ {m₂}, Mount.Grown sb dir b dir
        (m.setDi (dir ++ [name]) (m.di (dir ++ [name])).updateDbstart) m₂ →
        wp (do Op.lkupNeg (dir ++ [name]) b; pure b)
          (fun b m' => Mount.FitFor sb m dir name b m') (fun _ _ => True) m₂ :=
      fun hgrown => wp_bind.mpr ((wp_lkupNeg_fitFor hm hopq hb0 hlt hentry.toClearAbove hwr hgrown).mono
        (fun _ _ hfit => wp_pure.mpr hfit) fun _ _ _ => trivial)
    refine wp_ite.mpr ⟨fun _ => wp_bind.mpr ?_, fun _ => hneg (.refl hm₁)⟩
    rw [cpupDirs, dParent_append]
    refine wp_ite.mpr ⟨fun _ => wp_pure.mpr (hneg (.refl hm₁)), fun _ => ?_⟩
    exact (wp_cpupDirsLoop hbr (List.prefix_refl dir) hm₁).mono (fun _ _ h => hneg h.1) fun _ _ _ => trivial

end Aufs
