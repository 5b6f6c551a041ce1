-- SUMMARY: The handle of an open file after branch changes: refresh_file, reopen_dir, au_reopen_nondir and au_reval_and_lock_finfo, with the hidden dentry of every hidden file.
import Aufs.Finfo

/-!
# File handles

What is left in the slots of a file when the functions of `file.c` and `dir.c` return. A
hidden file is known with the hidden dentry that it was opened on. The answers of
`dentry_open` and of the copy-ups are given, and a call that would follow a null pointer has
no result.
-/

namespace Aufs

/-- A hidden file: its hidden dentry and its `f_mode`. The dentry of an open file keeps its
inode. -/
structure HdFile where
  dentry : HDentry
  mode : FMode

/-- `struct aufs_hfile` with `hf_file` set; `br` is the id of `hf_br`. -/
structure HdSlot where
  file : HdFile
  br : Int

/-- A file of aufs with its `struct aufs_finfo`. A slot whose `hf_file` is `NULL` has no `hf_br`
either. -/
structure Handle where
  mode : FMode
  bstart : Int
  bend : Int
  hfile : Int → Option HdSlot
  generation : Int

/-- The name of an open file: the dentry, and what is read of its inode. -/
structure FileName where
  d : Dinfo
  hi : Int → Option HInode
  ibstart : Int
  unhashed : Bool

namespace Handle

/-- `set_h_fptr` -/
def setHFptr (f : Handle) (bindex : Int) (p : Option HdSlot) : Handle :=
  { f with hfile := Function.update f.hfile bindex p }

/-- `set_h_fptr(file, bindex, NULL)` for these indices. -/
def putAll (f : Handle) (L : List Int) : Handle :=
  { f with hfile := fun b => if b ∈ L then none else f.hfile b }

-- ---------------------------------------------------------------------------
-- Opening
-- ---------------------------------------------------------------------------

/-- `hidden_open`; `answer` is what `dentry_open` comes to on each branch. -/
def hiddenOpen (sb : SuperBlock) (n : FileName) (answer : Int → Except Errno Unit) (bindex : Int)
    (flags : FMode) : Option (Except Errno HdSlot) :=
  match sb.stobr bindex, n.d.hDptrI bindex with
  | some br, some h =>
    match h.inode, testRo sb bindex n.hi with
    | some _, .ok ro =>
      match answer bindex with
      | .error err => some (.error err)
      | .ok () => some (.ok ⟨⟨h, if ro then auFileRoflags flags else flags⟩, br.id⟩)
    | _, _ => none
  | _, _ => none

/-- `do_open_nondir`, which makes the handle. -/
def doOpenNondir (sb : SuperBlock) (n : FileName) (answer : Int → Except Errno Unit) (flags : FMode) :
    Option (Except Errno Handle) :=
  match hiddenOpen sb n answer n.d.bstart flags with
  | none => none
  | some (.error err) => some (.error err)
  | some (.ok p) =>
    some (.ok ⟨flags, n.d.bstart, n.d.bstart, Function.update (fun _ => none) n.d.bstart (some p),
      sb.generation⟩)

/-- The loop over the branches in `do_open_dir` and in `reopen_dir`: every hidden directory
whose slot is empty is opened. -/
def openDirs (sb : SuperBlock) (n : FileName) (answer : Int → Except Errno Unit) :
    List Int → Handle → Option (Except Errno Unit × Handle)
  | [], f => some (.ok (), f)
  | bindex :: rest, f =>
    match n.d.hDptrI bindex, f.hfile bindex with
    | some _, none =>
      match hiddenOpen sb n answer bindex f.mode with
      | none => none
      | some (.error err) => some (.error err, f)
      | some (.ok p) => openDirs sb n answer rest (f.setHFptr bindex (some p))
    | _, _ => openDirs sb n answer rest f

/-- `do_open_dir`, which makes the handle. -/
def doOpenDir (sb : SuperBlock) (n : FileName) (answer : Int → Except Errno Unit) (flags : FMode) :
    Option (Except Errno Handle) :=
  match openDirs sb n answer (bindexes n.d.bstart n.d.dbtaildir)
    ⟨flags, n.d.bstart, n.d.dbtaildir, fun _ => none, sb.generation⟩ with
  | none => none
  | some (.error err, _) => some (.error err)
  | some (.ok (), f) => some (.ok f)

/-- `reopen_dir` -/
def reopenDir (sb : SuperBlock) (n : FileName) (answer : Int → Except Errno Unit) (f : Handle) :
    Option (Except Errno Unit × Handle) :=
  let bstart := n.d.bstart
  let btail := n.d.dbtaildir
  let f := f.putAll (bindexes f.bstart (bstart - 1) ++ bindexes (btail + 1) f.bend)
  openDirs sb n answer (bindexes bstart btail) { f with bstart := bstart, bend := btail }

/-- `au_reopen_nondir` from `hidden_open` on. -/
def reopenAt (sb : SuperBlock) (n : FileName) (answer : Int → Except Errno Unit) (f : Handle) :
    Option (Except Errno Unit × Handle) :=
  let bstart := n.d.bstart
  match hiddenOpen sb n answer bstart f.mode with
  | none => none
  | some (.error err) => some (.error err, f)
  | some (.ok p) =>
    let f := f.setHFptr bstart (some p)
    -- close lower files
    some (.ok (), { f.putAll (bindexes (bstart + 1) f.bend) with bstart := bstart, bend := bstart })

/-- `au_reopen_nondir` -/
def auReopenNondir (sb : SuperBlock) (n : FileName) (answer : Int → Except Errno Unit) (f : Handle) :
    Option (Except Errno Unit × Handle) :=
  if f.bstart = n.d.bstart then
    match f.hfile f.bstart with
    | none => none
    | some p =>
      if f.mode = p.file.mode then some (.ok (), f)
      else reopenAt sb n answer (f.setHFptr f.bstart none)
  else reopenAt sb n answer f

-- ---------------------------------------------------------------------------
-- Refreshing
-- ---------------------------------------------------------------------------

/-- Where the branch of a hidden file is now. -/
def target (sb : SuperBlock) (p : HdSlot) : Option Int :=
  if sb.findBrindex p.br < 0 then none else some (sb.findBrindex p.br)

/-- The remapping loop of `refresh_file`, with fuel that is always enough. -/
def remap (sb : SuperBlock) (f : Handle) : Option Handle :=
  (Remap.scan (target sb) f.bend (2 * (max f.bend sb.sbend + 1).toNat) ⟨f.hfile, f.bstart, []⟩).map
    fun σ => { f with hfile := σ.slots }

/-- `for (fi_bstart = 0; fi_bstart <= bend; fi_bstart++, p++)` over the indices that are left: the
first hidden file that `stays` ends the loop, the ones before it are closed. -/
def scanBstart (stays : HdSlot → Bool) : List Int → Int → Handle → Handle
  | [], past, f => { f with bstart := past }
  | b :: rest, past, f =>
    match f.hfile b with
    | none => scanBstart stays rest past f
    | some p =>
      if stays p then { f with bstart := b } else scanBstart stays rest past (f.setHFptr b none)

/-- `for (fi_bend = bend; fi_bend >= fi_bstart; fi_bend--, p--)` over the indices that are left. -/
def scanBend (stays : HdSlot → Bool) : List Int → Handle → Handle
  | [], f => { f with bend := f.bstart - 1 }
  | b :: rest, f =>
    match f.hfile b with
    | none => scanBend stays rest f
    | some p => if stays p then { f with bend := b } else scanBend stays rest (f.setHFptr b none)

/-- `p->hf_file->f_dentry->d_inode` is set. -/
def alive (p : HdSlot) : Bool := p.file.dentry.positive

/-- The two scans of `refresh_file` for the ends. `keep` says that the file is mapped or its
dentry unhashed, `brid` is the branch of its first hidden file. -/
def refreshEnds (sb : SuperBlock) (keep : Bool) (brid : Int) (f : Handle) : Handle :=
  let f :=
    if !keep then scanBstart alive (bindexes 0 sb.sbend) (sb.sbend + 1) f
    else
      let bend := sb.findBrindex brid
      scanBstart (fun _ => false) (bindexes 0 (bend - 1)) (max 0 bend) f
  scanBend alive (bindexes f.bstart sb.sbend).reverse f

/-- What `au_reval_and_lock_finfo` gets from the calls it makes: whether the dentry is `stale`
and how `au_reval_dpath` ends then, whether there is memory for the slots, whether the inode is
`plinked` and what the name is after the copy-up of the pseudo-link, and the answers to
`dentry_open`. -/
structure RevalIn where
  stale : Bool
  dpath : Except Errno Unit
  mem : Bool
  plinked : Bool
  cpup : Except Errno FileName
  answer : Int → Except Errno Unit

/-- What a step on a handle ends with: the result, the handle and the name. -/
abbrev Ended : Type := Except Errno Unit × Handle × FileName

/-- What `refresh_file` does after the ends are found, for a file that is neither mapped nor
unhashed. -/
def refreshOpen (sb : SuperBlock) (isDir : Bool) (n : FileName) (v : RevalIn) (f : Handle) :
    Option Ended :=
  match if n.ibstart < f.bstart ∧ sb.plink ∧ v.plinked then v.cpup else .ok n with
  | .error err => some (.error err, f, n)
  | .ok n =>
    match if isDir then reopenDir sb n v.answer f else auReopenNondir sb n v.answer f with
    | none => none
    | some (.ok (), f) => some (.ok (), { f with generation := sb.generation }, n)
    | some (.error err, f) =>
      -- error, close all hidden files
      some (.error err, f.putAll (bindexes f.bstart f.bend), n)

/-- `refresh_file`. `mapped` is `au_is_mmapped`. -/
def refreshFile (sb : SuperBlock) (isDir mapped : Bool) (n : FileName) (v : RevalIn) (f : Handle) :
    Option Ended :=
  match kzrealloc v.mem (f.bend + 1) (sb.sbend + 1) f.hfile with
  | none => some (.error .ENOMEM, f, n)
  | some p =>
    let f := { f with hfile := p }
    match f.hfile f.bstart with
    | none => none
    | some first =>
      match f.remap sb with
      | none => none
      | some f =>
        let f := f.refreshEnds sb (mapped || n.unhashed) first.br
        if mapped || n.unhashed then some (.ok (), { f with generation := sb.generation }, n)
        else refreshOpen sb isDir n v f

/-- `au_reval_and_lock_finfo` returns at once. -/
def Fast (sb : SuperBlock) (n : FileName) (f : Handle) : Prop :=
  sb.generation = f.generation ∧ n.d.bstart = n.ibstart ∧ f.bstart = n.d.bstart

instance (sb : SuperBlock) (n : FileName) (f : Handle) : Decidable (Fast sb n f) :=
  inferInstanceAs (Decidable (_ ∧ _))

/-- `au_reval_and_lock_finfo` -/
def auRevalAndLockFinfo (sb : SuperBlock) (isDir mapped : Bool) (n : FileName) (v : RevalIn)
    (f : Handle) : Option Ended :=
  if Fast sb n f then some (.ok (), f, n)
  else
    match if v.stale then v.dpath else .ok () with
    | .error err => some (.error err, f, n)
    | .ok () => refreshFile sb isDir mapped n v f

-- ---------------------------------------------------------------------------
-- The slots of a handle
-- ---------------------------------------------------------------------------

/-- A handle with an open first hidden file. The hidden files are of branches of the table, no
two of one branch, and between the ends. -/
structure Live (sb : SuperBlock) (f : Handle) : Prop where
  first : (f.hfile f.bstart).isSome
  range : ∀ b p, f.hfile b = some p → 0 ≤ f.bstart ∧ f.bstart ≤ b ∧ b ≤ f.bend
  distinct : ∀ b c p q, f.hfile b = some p → f.hfile c = some q → p.br = q.br → b = c
  table : ∀ b p, f.hfile b = some p → 0 ≤ sb.findBrindex p.br
  positive : ∀ b p, f.hfile b = some p → alive p = true

/-- Every hidden file is at the index of its branch. -/
def Aligned (sb : SuperBlock) (f : Handle) : Prop :=
  ∀ b p, f.hfile b = some p → sb.findBrindex p.br = b

variable {sb : SuperBlock} {f f' : Handle}

theorem target_eq_some {p : HdSlot} {k : Int} :
    target sb p = some k ↔ sb.findBrindex p.br = k ∧ 0 ≤ k := by
  unfold target
  split
  · simp only [reduceCtorEq, false_iff]
    omega
  · simp only [Option.some.injEq]
    omega

theorem Live.separated (h : Live sb f) : Remap.Separated (target sb) f.hfile := by
  intro i j p q hi hj hpq
  refine h.distinct i j p q hi hj ?_
  rcases hpq with rfl | ⟨k, hp, hq⟩
  · rfl
  · obtain ⟨hp, hk⟩ := target_eq_some.mp hp
    obtain ⟨hq, -⟩ := target_eq_some.mp hq
    exact @SuperBlock.findBrindex_inj sb _ _ (by omega) (by omega)

/-- The loop ends and brings every hidden file to the index of its branch. -/
theorem Live.remap (h : Live sb f) :
    ∃ s, f.remap sb = some { f with hfile := s } ∧
      ∀ k p, s k = some p ↔ sb.findBrindex p.br = k ∧ ∃ i, f.hfile i = some p := by
  obtain ⟨first, hfirst⟩ := Option.isSome_iff_exists.mp h.first
  obtain ⟨σ, hscan, hσ⟩ := Remap.scan_eq_some h.separated (fun k p hk => (h.range k p hk).2)
    (h.range _ _ hfirst).1 (Int.le_max_left f.bend sb.sbend)
    (fun i p j _ ht => by
      have := target_eq_some.mp ht
      have := sb.findBrindex_le_sbend p.br
      omega) (Nat.le_refl _)
  rw [Int.sub_zero] at hscan
  refine ⟨σ.slots, by rw [Handle.remap, hscan]; rfl, fun k p => ?_⟩
  rw [hσ k p, target_eq_some]
  constructor
  · rintro ⟨⟨h1, -⟩, h2⟩
    exact ⟨h1, h2⟩
  · rintro ⟨h1, i, h2⟩
    exact ⟨⟨h1, h1 ▸ h.table i p h2⟩, i, h2⟩

-- ---------------------------------------------------------------------------
-- The scans for the ends
-- ---------------------------------------------------------------------------

theorem scanBstart_of_stays {stays : HdSlot → Bool} {past : Int}
    (hs : ∀ b p, f.hfile b = some p → stays p = true) (L : List Int) :
    scanBstart stays L past f =
      { f with bstart := (L.find? fun b => (f.hfile b).isSome).getD past } := by
  induction L with
  | nil => rfl
  | cons b L ih =>
    rw [scanBstart]
    cases hb : f.hfile b with
    | none => simp only [ih, List.find?_cons, hb, Option.isSome_none]
    | some p => simp only [hs b p hb, if_true, List.find?_cons, hb, Option.isSome_some, Option.getD_some]

theorem scanBend_of_stays {stays : HdSlot → Bool} (hs : ∀ b p, f.hfile b = some p → stays p = true)
    (L : List Int) :
    scanBend stays L f =
      { f with bend := (L.find? fun b => (f.hfile b).isSome).getD (f.bstart - 1) } := by
  induction L with
  | nil => rfl
  | cons b L ih =>
    rw [scanBend]
    cases hb : f.hfile b with
    | none => simp only [ih, List.find?_cons, hb, Option.isSome_none]
    | some p => simp only [hs b p hb, if_true, List.find?_cons, hb, Option.isSome_some, Option.getD_some]

theorem putAll_cons (b : Int) (L : List Int) : (f.setHFptr b none).putAll L = f.putAll (b :: L) := by
  simp only [putAll, setHFptr, mk.injEq, true_and, and_true]
  funext c
  by_cases hc : c = b <;> simp [hc]

theorem putAll_cons_of_none {b : Int} (hb : f.hfile b = none) (L : List Int) :
    f.putAll L = f.putAll (b :: L) := by
  simp only [putAll, mk.injEq, true_and, and_true]
  funext c
  by_cases hc : c = b
  · simp [hc, hb]
  · simp [hc]

theorem scanBstart_false {past : Int} (L : List Int) :
    scanBstart (fun _ => false) L past f = { f.putAll L with bstart := past } := by
  induction L generalizing f with
  | nil => simp [scanBstart, putAll]
  | cons b L ih =>
    rw [scanBstart]
    cases hb : f.hfile b with
    | none =>
      simp only [ih]
      rw [putAll_cons_of_none hb]
    | some p =>
      simp only [Bool.false_eq_true, if_false, ih]
      rw [putAll_cons]

/-- The ends of a file that is kept begin at the branch of its first hidden
file, those of another file where it has a hidden file at all. -/
theorem refreshEnds_eq {keep : Bool} {brid b₀ : Int} (hal : ∀ b p, f.hfile b = some p → alive p = true)
    (hrange : ∀ b p, f.hfile b = some p → 0 ≤ b ∧ b ≤ sb.sbend)
    (hb₀ : (f.hfile b₀).isSome) (hkeep : keep = true → b₀ = sb.findBrindex brid) :
    ∃ lo hi, f.refreshEnds sb keep brid =
        { f with bstart := lo, bend := hi, hfile := fun b => if b < lo then none else f.hfile b } ∧
      (f.hfile lo).isSome ∧ (f.hfile hi).isSome ∧ lo ≤ hi ∧
      (∀ b p, f.hfile b = some p → b ≤ hi) ∧
      if keep then lo = b₀ else ∀ b p, f.hfile b = some p → lo ≤ b := by
  obtain ⟨p₀, hp₀⟩ := Option.isSome_iff_exists.mp hb₀
  have hr₀ := hrange b₀ p₀ hp₀
  -- what the first scan leaves
  have hfirst : ∃ lo, (if !keep then scanBstart alive (bindexes 0 sb.sbend) (sb.sbend + 1) f
        else scanBstart (fun _ => false) (bindexes 0 (sb.findBrindex brid - 1))
          (max 0 (sb.findBrindex brid)) f) =
          { f with bstart := lo, hfile := fun b => if b < lo then none else f.hfile b } ∧
      (f.hfile lo).isSome ∧ if keep then lo = b₀ else ∀ b p, f.hfile b = some p → lo ≤ b := by
    cases keep with
    | true =>
      have hk := hkeep rfl
      refine ⟨b₀, ?_, hb₀, by simp⟩
      simp only [Bool.not_true, Bool.false_eq_true, if_false, scanBstart_false, ← hk, putAll, mk.injEq,
        true_and, and_true, mem_bindexes]
      refine ⟨by omega, ?_⟩
      funext b
      by_cases hb : b < b₀
      · rw [if_pos hb]
        cases hp : f.hfile b with
        | none => exact ite_self none
        | some p =>
          have := hrange b p hp
          exact if_pos (by omega)
      · rw [if_neg hb, if_neg (by omega)]
    | false =>
      have hex : ∃ lo, (bindexes 0 sb.sbend).find? (fun b => (f.hfile b).isSome) = some lo := by
        rw [← Option.isSome_iff_exists, List.find?_isSome]
        exact ⟨b₀, mem_bindexes.mpr hr₀, hb₀⟩
      obtain ⟨lo, hlo⟩ := hex
      have hfind := find?_bindexes.mp hlo
      have hleast : ∀ b p, f.hfile b = some p → lo ≤ b := by
        intro b p hp
        by_contra hlt
        have := hfind.2.2.2 b (hrange b p hp).1 (by omega)
        rw [hp] at this
        cases this
      refine ⟨lo, ?_, hfind.1, by simpa using hleast⟩
      simp only [Bool.not_false, if_true, scanBstart_of_stays hal, hlo, Option.getD_some, mk.injEq,
        true_and, and_true]
      funext b
      split
      case isFalse => rfl
      case isTrue hlt =>
        cases hp : f.hfile b with
        | none => rfl
        | some p => exact absurd (hleast b p hp) (by omega)
  obtain ⟨lo, hscan, hlo, hlow⟩ := hfirst
  obtain ⟨plo, hplo⟩ := Option.isSome_iff_exists.mp hlo
  have hrlo := hrange lo plo hplo
  have hslot : ∀ b, lo ≤ b → (if b < lo then none else f.hfile b) = f.hfile b :=
    fun b hb => if_neg (by omega)
  have hex : ∃ hi, (bindexes lo sb.sbend).reverse.find?
      (fun b => (if b < lo then none else f.hfile b).isSome) = some hi := by
    rw [← Option.isSome_iff_exists, List.find?_isSome]
    exact ⟨lo, by rw [List.mem_reverse, mem_bindexes]; omega, by rw [hslot lo (Int.le_refl _)]; exact hlo⟩
  obtain ⟨hi, hhi⟩ := hex
  have hfind := find?_reverse_bindexes.mp hhi
  refine ⟨lo, hi, ?_, hlo, by rw [← hslot hi hfind.2.1]; exact hfind.1, hfind.2.1, fun b p hp => ?_, hlow⟩
  · rw [refreshEnds]
    simp only [hscan]
    rw [scanBend_of_stays]
    · simp only [hhi, Option.getD_some]
    · intro b p hp
      simp only at hp
      split at hp
      · cases hp
      · exact hal b p hp
  · by_contra hlt
    have hr := hrange b p hp
    have hout := hfind.2.2.2 b (by omega) hr.2
    rw [hslot b (by omega), hp] at hout
    cases hout

/-- What `refresh_file` makes of a handle before it opens anything: the hidden files at the
indices of their branches, from the first one that it looks at. -/
structure Remapped (sb : SuperBlock) (keep : Bool) (f f₁ : Handle) : Prop where
  live : Live sb f₁
  mode : f₁.mode = f.mode
  generation : f₁.generation = f.generation
  slots : ∀ b p, f₁.hfile b = some p ↔
    f₁.bstart ≤ b ∧ sb.findBrindex p.br = b ∧ ∃ i, f.hfile i = some p
  last : (f₁.hfile f₁.bend).isSome
  start : if keep then ∃ first, f.hfile f.bstart = some first ∧ f₁.bstart = sb.findBrindex first.br
    else ∀ i p, f.hfile i = some p → f₁.bstart ≤ sb.findBrindex p.br

theorem Remapped.aligned {keep : Bool} {f₁ : Handle} (h : Remapped sb keep f f₁) : Aligned sb f₁ :=
  fun b p hp => ((h.slots b p).mp hp).2.1

/-- `refresh_file` of a handle with an open first hidden file. -/
theorem Live.refreshFile (h : Live sb f) (isDir mapped : Bool) (n : FileName) (v : RevalIn) :
    refreshFile sb isDir mapped n v f = some (.error .ENOMEM, f, n) ∨
      ∃ f₁, Remapped sb (mapped || n.unhashed) f f₁ ∧
        refreshFile sb isDir mapped n v f =
          if mapped || n.unhashed then some (.ok (), { f₁ with generation := sb.generation }, n)
          else refreshOpen sb isDir n v f₁ := by
  obtain ⟨first, hfirst⟩ := Option.isSome_iff_exists.mp h.first
  have hup : ∀ b, f.bend + 1 ≤ b → f.hfile b = none := by
    intro b hb
    cases hp : f.hfile b with
    | none => rfl
    | some p =>
      have := h.range b p hp
      omega
  rw [Handle.refreshFile]
  cases hp : kzrealloc v.mem (f.bend + 1) (sb.sbend + 1) f.hfile with
  | none => exact .inl rfl
  | some p =>
    obtain rfl := kzrealloc_eq hup hp
    obtain ⟨s, hremap, hs⟩ := h.remap
    have hal : ∀ b p, s b = some p → alive p = true := fun b p hb => by
      obtain ⟨-, i, hi⟩ := (hs b p).mp hb
      exact h.positive i p hi
    have hrange : ∀ b p, s b = some p → 0 ≤ b ∧ b ≤ sb.sbend := fun b p hb => by
      obtain ⟨hfind, i, hi⟩ := (hs b p).mp hb
      have := h.table i p hi
      have := sb.findBrindex_le_sbend p.br
      omega
    have hb₀ : (s (sb.findBrindex first.br)).isSome := by
      rw [(hs _ first).mpr ⟨rfl, _, hfirst⟩]
      rfl
    obtain ⟨lo, hi, hends, hlo, hhi, hle, hlast, hstart⟩ :=
      @refreshEnds_eq sb { f with hfile := s } (mapped || n.unhashed) first.br _ hal hrange hb₀
        fun _ => rfl
    have hslots : ∀ b p, (if b < lo then none else s b) = some p ↔
        lo ≤ b ∧ sb.findBrindex p.br = b ∧ ∃ i, f.hfile i = some p := by
      intro b p
      rw [← hs b p]
      split
      case isTrue hlt =>
        simp only [reduceCtorEq, false_iff]
        omega
      case isFalse hlt => exact ⟨fun hb => ⟨by omega, hb⟩, fun hb => hb.2⟩
    obtain ⟨plo, hplo⟩ := Option.isSome_iff_exists.mp hlo
    refine .inr ⟨{ f with bstart := lo, bend := hi, hfile := fun b => if b < lo then none else s b },
      ⟨⟨?_, fun b p hb => ?_, fun b c p q hb hc hpq => ?_, fun b p hb => ?_,
      fun b p hb => ?_⟩, rfl, rfl, hslots, ?_, ?_⟩, ?_⟩
    · exact show (if lo < lo then none else s lo).isSome by rw [if_neg (by omega)]; exact hlo
    · have hmem := (hslots b p).mp hb
      have hb' := (hs b p).mpr hmem.2
      exact ⟨(hrange lo plo hplo).1, hmem.1, hlast b p hb'⟩
    · have h1 := ((hslots b p).mp hb).2.1
      have h2 := ((hslots c q).mp hc).2.1
      rw [← h1, ← h2, hpq]
    · obtain ⟨-, -, i, hi⟩ := (hslots b p).mp hb
      exact h.table i p hi
    · obtain ⟨-, -, i, hi⟩ := (hslots b p).mp hb
      exact h.positive i p hi
    · exact show (if hi < lo then none else s hi).isSome by rw [if_neg (by omega)]; exact hhi
    · cases hk : mapped || n.unhashed with
      | true =>
        rw [hk] at hstart
        exact ⟨first, hfirst, hstart⟩
      | false =>
        rw [hk] at hstart
        exact fun i p hi => hstart _ p ((hs _ p).mpr ⟨rfl, i, hi⟩)
    · simp only [hfirst, hremap, hends]

end Handle

end Aufs
