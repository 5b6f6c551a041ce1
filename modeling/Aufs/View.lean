-- SUMMARY: The union as users see it: what fresh lookups from the root down find at every path, and the dentries they leave.
import Aufs.Found

/-!
# The view

A path is looked up name by name from the root. The dentries that this leaves depend on
the files of the branches alone, and the first hidden dentry of the last one is what users
see at the path. Where they see a directory, every dentry on the way is one of a directory
in the sense of `Mount.Dirs`.
-/

namespace Aufs

open Prog Op Overlay

variable {sb : SuperBlock} {w w' : World} {p q dir : Path} {name n : Name} {b c : Int} {h : HDentry}

/-- What users see of a file: its type, and its content with its attributes. -/
structure Seen where
  mode : FType
  data : Nat
  deriving DecidableEq, Repr

/-- The dentry information of one more name. A name with the prefix of whiteouts is refused. -/
def Dinfo.below (sb : SuperBlock) (w : World) (d : Dinfo) (n : Name) : Dinfo :=
  if hasWhPfx n then .alloc else .ofScan (d.scan sb w n)

/-- The dentry information that lookups from the root down leave at a path. -/
def freshDi (sb : SuperBlock) (w : World) (p : Path) : Dinfo := p.foldl (Dinfo.below sb w) (rootDinfo sb w)

/-- What users see at a path. -/
def seen (sb : SuperBlock) (w : World) (p : Path) : Option Seen :=
  ((freshDi sb w p).hDptr.bind HDentry.inode).map fun i => ⟨i.mode, i.data⟩

/-- Users see a directory. -/
def SeenDir (sb : SuperBlock) (w : World) (p : Path) : Prop := ∃ e, seen sb w p = some e ∧ e.mode = .dir

/-- A mount with the dentries of fresh lookups. -/
def Mount.cold (sb : SuperBlock) (w : World) : Mount where
  w := w
  di := freshDi sb w
  hi := fun p b => ((freshDi sb w p).hdentry b).bind HDentry.inode
  ino := fun _ => 0
  cnt := 0
  fails := 0

@[simp] theorem freshDi_nil : freshDi sb w [] = rootDinfo sb w := rfl

theorem freshDi_append (sb : SuperBlock) (w : World) (p : Path) (n : Name) :
    freshDi sb w (p ++ [n]) = (freshDi sb w p).below sb w n := by
  rw [freshDi, freshDi, List.foldl_append, List.foldl_cons, List.foldl_nil]

theorem freshDi_concat (hn : hasWhPfx n = false) :
    freshDi sb w (p ++ [n]) = .ofScan ((freshDi sb w p).scan sb w n) := by
  rw [freshDi_append, Dinfo.below, if_neg (by rw [hn]; exact Bool.false_ne_true)]

theorem cold_found (sb : SuperBlock) (w : World) (p : Path) (n : Name) :
    (Mount.cold sb w).found sb p n = (freshDi sb w p).scan sb w n := rfl

theorem freshDi_whPfx (hn : hasWhPfx n = true) : freshDi sb w (p ++ [n]) = .alloc := by
  rw [freshDi_append, Dinfo.below, if_pos hn]

/-- The slots of a path are what the search in its parent has found. -/
theorem slot_iff_mem (hn : hasWhPfx n = false) : (freshDi sb w (p ++ [n])).hdentry b = some h ↔
    (b, h) ∈ (Scan.search HDentry.isDir ((Mount.cold sb w).cell sb p n) ((Mount.cold sb w).asked p)).slots := by
  rw [freshDi_concat hn, hdentry_ofScan]
  exact mem_of_lookup scan_sorted

-- ---------------------------------------------------------------------------
-- Slots
-- ---------------------------------------------------------------------------

/-- A slot is the file of that path in its branch. -/
theorem freshDi_slot (hb : (freshDi sb w p).hdentry b = some h) :
    ∃ br i, sb.stobr b = some br ∧ w.node br.root p = some i ∧ h = ⟨br.root, p, some i⟩ := by
  induction p using List.reverseRecOn generalizing b h with
  | nil =>
    obtain ⟨br, hbr, rfl⟩ := Option.map_eq_some_iff.mp hb
    obtain ⟨i, hi, -⟩ := Ents.isDir_iff.mp (w.fs br.root).wf.closed.1
    have hnode : (w.fs br.root).node [] = some i := hi
    exact ⟨br, i, hbr, hi, by rw [hnode]⟩
  | append_singleton p n ih =>
    cases hn : hasWhPfx n with
    | true =>
      rw [freshDi_whPfx hn] at hb
      cases hb
    | false =>
      rw [freshDi_concat hn, hdentry_ofScan] at hb
      have hmem := (mem_of_lookup scan_sorted).mp hb
      have hentry := (Scan.entry_of_mem_search hmem).2
      cases hdir : (freshDi sb w p).hDir b with
      | none =>
        rw [cellAt_of_no_dir sb w n hdir] at hentry
        cases hentry
      | some hp =>
        rw [cellAt, hdir] at hentry
        obtain ⟨i, hi, rfl⟩ := Option.map_eq_some_iff.mp hentry
        obtain ⟨br, j, hbr, -, rfl⟩ := ih (hdentry_of_hDptrI (Option.filter_eq_some_iff.mp hdir).1)
        exact ⟨br, i, hbr, hi, rfl⟩

/-- A branch that has a slot below has one above, of a directory. -/
theorem freshDi_parent (hb : (freshDi sb w (p ++ [n])).hdentry b = some h) :
    ∃ hp, (freshDi sb w p).hdentry b = some hp ∧ hp.isDir := by
  cases hn : hasWhPfx n with
  | true =>
    rw [freshDi_whPfx hn] at hb
    cases hb
  | false =>
    rw [freshDi_concat hn, hdentry_ofScan] at hb
    have hentry := (Scan.entry_of_mem_search ((mem_of_lookup scan_sorted).mp hb)).2
    cases hdir : (freshDi sb w p).hDir b with
    | none =>
      rw [cellAt_of_no_dir sb w n hdir] at hentry
      cases hentry
    | some hp =>
      have hfilter := Option.filter_eq_some_iff.mp hdir
      exact ⟨hp, hdentry_of_hDptrI hfilter.1, hfilter.2⟩

/-- With a slot the ends are exact. -/
theorem freshDi_ends (hb : (freshDi sb w p).hdentry b = some h) : (freshDi sb w p).Ends := by
  have hrange : ∀ c, ((freshDi sb w p).hdentry c).isSome → 0 ≤ c ∧ c ≤ sb.sbend := fun c hc => by
    obtain ⟨x, hx⟩ := Option.isSome_iff_exists.mp hc
    obtain ⟨br, -, hbr, -, -⟩ := freshDi_slot hx
    exact SuperBlock.range_of_stobr hbr
  induction p using List.reverseRecOn with
  | nil =>
    have hfill : ∀ c, 0 ≤ c → c ≤ sb.sbend → ((freshDi sb w []).hdentry c).isSome := fun c h0 hc => by
      rw [freshDi_nil, rootDinfo, Option.isSome_map]
      exact SuperBlock.stobr_isSome.mpr ⟨h0, hc⟩
    have hb' := hrange b (by rw [hb]; rfl)
    have hend := hb'.1.trans hb'.2
    exact ⟨le_rfl, hfill 0 le_rfl hend, hfill _ hend le_rfl, hrange⟩
  | append_singleton p n _ =>
    cases hn : hasWhPfx n with
    | true =>
      rw [freshDi_whPfx hn] at hb
      cases hb
    | false =>
      rw [freshDi_concat hn] at hb hrange ⊢
      refine ends_ofScan scan_sorted (fun e he => ?_) fun hnil => ?_
      · refine (hrange e.1 ?_).1
        rw [hdentry_ofScan, (mem_of_lookup scan_sorted (x := e.2)).mpr he]
        rfl
      · rw [hdentry_ofScan, hnil] at hb
        cases hb

/-- What users see is what the first slot has. -/
theorem seen_eq (hends : (freshDi sb w p).Ends) :
    ∃ br i, sb.stobr (freshDi sb w p).bstart = some br ∧ w.node br.root p = some i ∧
      (freshDi sb w p).hdentry (freshDi sb w p).bstart = some ⟨br.root, p, some i⟩ ∧
      seen sb w p = some ⟨i.mode, i.data⟩ := by
  obtain ⟨h, hh⟩ := Option.isSome_iff_exists.mp hends.start
  obtain ⟨br, i, hbr, hi, rfl⟩ := freshDi_slot hh
  refine ⟨br, i, hbr, hi, hh, ?_⟩
  rw [seen, Dinfo.hDptr, hends.tidy.hDptrI, hh]
  rfl

theorem seen_isSome : (seen sb w p).isSome ↔ ∃ b h, (freshDi sb w p).hdentry b = some h := by
  constructor
  · intro hsome
    rw [seen, Option.isSome_map] at hsome
    obtain ⟨i, hi⟩ := Option.isSome_iff_exists.mp hsome
    obtain ⟨h, hh, -⟩ := Option.bind_eq_some_iff.mp hi
    exact ⟨_, h, hdentry_of_hDptrI hh⟩
  · rintro ⟨b, h, hb⟩
    obtain ⟨_, _, -, -, -, hseen⟩ := seen_eq (freshDi_ends hb)
    rw [hseen]
    rfl

/-- Nothing is seen where there is no slot. -/
theorem seen_eq_none : seen sb w p = none ↔ ∀ b, (freshDi sb w p).hdentry b = none := by
  rw [← Option.not_isSome_iff_eq_none, seen_isSome]
  refine ⟨fun hno b => Option.eq_none_iff_forall_ne_some.mpr fun h hb => hno ⟨b, h, hb⟩, ?_⟩
  rintro hno ⟨b, h, hb⟩
  rw [hno b] at hb
  cases hb

-- ---------------------------------------------------------------------------
-- Directories
-- ---------------------------------------------------------------------------

theorem HInode.isDir_iff {i : HInode} : i.isDir = true ↔ i.mode = .dir := by
  rw [HInode.isDir, decide_eq_true_eq]

/-- The slots are of directories all together, or not at all. -/
theorem isDir_of_slots (hb : (freshDi sb w p).hdentry b = some h) (hd : h.isDir) {x : HDentry}
    (hc : (freshDi sb w p).hdentry c = some x) : x.isDir := by
  induction p using List.reverseRecOn with
  | nil =>
    obtain ⟨br, i, -, hi, rfl⟩ := freshDi_slot hc
    obtain ⟨j, hj, hmode⟩ := Ents.isDir_iff.mp (w.fs br.root).wf.closed.1
    obtain rfl := Option.some.inj (hi.symm.trans hj)
    exact HInode.isDir_iff.mpr hmode
  | append_singleton p n _ =>
    cases hn : hasWhPfx n with
    | true =>
      rw [freshDi_whPfx hn] at hb
      cases hb
    | false =>
      rw [freshDi_concat hn, hdentry_ofScan] at hb hc
      have hdirs := Scan.search_eq_dirs_of_mem ((mem_of_lookup scan_sorted).mp hb) hd
      have hmem := (mem_of_lookup scan_sorted).mp hc
      rw [Dinfo.scan, hdirs] at hmem
      exact (Scan.entry_of_mem_dirs hmem).2.2

theorem seenDir_iff : SeenDir sb w p ↔ ∃ b h, (freshDi sb w p).hdentry b = some h ∧ h.isDir := by
  constructor
  · rintro ⟨e, he, hmode⟩
    obtain ⟨b, h, hb⟩ := seen_isSome.mp (by rw [he]; rfl)
    obtain ⟨br, i, -, -, hslot, hseen⟩ := seen_eq (freshDi_ends hb)
    rw [hseen] at he
    obtain rfl := Option.some.inj he
    exact ⟨_, _, hslot, HInode.isDir_iff.mpr hmode⟩
  · rintro ⟨b, h, hb, hd⟩
    obtain ⟨br, i, -, -, hslot, hseen⟩ := seen_eq (freshDi_ends hb)
    exact ⟨_, hseen, HInode.isDir_iff.mp (isDir_of_slots hb hd hslot)⟩

theorem SeenDir.ends (hdir : SeenDir sb w p) : (freshDi sb w p).Ends := by
  obtain ⟨b, h, hb, -⟩ := seenDir_iff.mp hdir
  exact freshDi_ends hb

theorem SeenDir.isDir (hdir : SeenDir sb w p) (hb : (freshDi sb w p).hdentry b = some h) : h.isDir := by
  obtain ⟨c, x, hc, hd⟩ := seenDir_iff.mp hdir
  exact isDir_of_slots hc hd hb

/-- What is seen lies in directories. -/
theorem seenDir_of_seen (hsome : (seen sb w (p ++ [n])).isSome) : SeenDir sb w p := by
  obtain ⟨b, h, hb⟩ := seen_isSome.mp hsome
  obtain ⟨hp, hhp, hd⟩ := freshDi_parent hb
  exact seenDir_iff.mpr ⟨b, hp, hhp, hd⟩

theorem SeenDir.within (hdir : SeenDir sb w dir) (hq : q <+: dir) : SeenDir sb w q := by
  induction dir using List.reverseRecOn with
  | nil => rwa [List.prefix_nil.mp hq]
  | append_singleton dir n ih =>
    rcases prefix_append_singleton.mp hq with rfl | hq
    · exact hdir
    · obtain ⟨e, he, -⟩ := hdir
      exact ih (seenDir_of_seen (by rw [he]; rfl)) hq

/-- No name on the way to what is seen has the prefix of whiteouts. -/
theorem name_ok_of_seen (hsome : (seen sb w (p ++ [n])).isSome) : hasWhPfx n = false := by
  obtain ⟨b, h, hb⟩ := seen_isSome.mp hsome
  cases hn : hasWhPfx n with
  | false => rfl
  | true =>
    rw [freshDi_whPfx hn] at hb
    cases hb

/-- Below what is not seen nothing is seen. -/
theorem seen_append_none (hnone : seen sb w p = none) (x : Path) : seen sb w (p ++ x) = none := by
  induction x using List.reverseRecOn with
  | nil => rwa [List.append_nil]
  | append_singleton x n ih =>
    refine Option.not_isSome_iff_eq_none.mp fun hsome => ?_
    rw [← List.append_assoc] at hsome
    obtain ⟨e, he, -⟩ := seenDir_of_seen hsome
    rw [ih] at he
    cases he

/-- The dentries on the way to a directory. -/
theorem dirs_cold (hdir : SeenDir sb w dir) : (Mount.cold sb w).Dirs sb dir := by
  refine ⟨fun q hq => ?_, fun q n c _ hc => ?_⟩
  · have hq := hdir.within hq
    refine { toEnds := hq.ends, slots := fun b h hb => ?_, hi := fun _ => rfl }
    obtain ⟨br, i, hbr, hi, rfl⟩ := freshDi_slot hb
    exact ⟨br, i, hbr, hq.isDir hb, hi, rfl⟩
  · obtain ⟨h, hh⟩ := Option.isSome_iff_exists.mp hc
    obtain ⟨hp, hhp, -⟩ := freshDi_parent hh
    exact Option.isSome_iff_exists.mpr ⟨hp, hhp⟩

end Aufs
