-- SUMMARY: Seeking in a directory stream: the blocks that are read, and what the offsets given out lead back to.
import Mathlib.Logic.Relation
import Aufs.Getdents

/-!
# Seeking

`seek_vdir` looks for the first entry of the stream's own `vdir` that begins at `f_pos` or
behind it, and `au_fill_de` gives entries to `filldir` from there, with `f_pos` counted on
from where it was. Here is what both do for every `f_pos`, and runs of seeks and reads over
one `vdir`.
-/

namespace Aufs

-- ---------------------------------------------------------------------------
-- The offsets of the entries
-- ---------------------------------------------------------------------------

theorem Deblk.marks_append (i p : Nat) (b c : Deblk) :
    Deblk.marks i p (b ++ c) = Deblk.marks i p b ++ Deblk.marks i (p + Deblk.used b) c := by
  induction b generalizing p with
  | nil => rfl
  | cons de b ih => simp only [List.cons_append, marks, ih, Deblk.used_cons, Nat.add_assoc]

/-- An entry of a block begins behind those before it. -/
theorem Deblk.mem_marks {i p : Nat} {b : Deblk} {g : Given} (hg : g ∈ Deblk.marks i p b) :
    ∃ done de rest, b = done ++ de :: rest ∧
      g = ⟨de, p + Deblk.used done + deblkSize * i, i, p + Deblk.used done⟩ := by
  induction b generalizing p with
  | nil => cases hg
  | cons e b ih =>
    rcases List.mem_cons.mp hg with rfl | hg
    · exact ⟨[], e, b, rfl, rfl⟩
    · obtain ⟨done, de, rest, rfl, rfl⟩ := ih hg
      refine ⟨e :: done, de, rest, rfl, ?_⟩
      rw [Deblk.used_cons, Nat.add_assoc p]

theorem Deblk.marks_off {i p : Nat} {b : Deblk} {g : Given} (hg : g ∈ Deblk.marks i p b) :
    p + deblkSize * i ≤ g.off ∧ g.off < p + Deblk.used b + deblkSize * i := by
  obtain ⟨done, de, rest, rfl, rfl⟩ := Deblk.mem_marks hg
  have := le_calcSize de.str.length
  rw [Deblk.used_append, Deblk.used_cons]
  simp only
  omega

theorem Deblk.marks_sorted (i p : Nat) (b : Deblk) :
    (Deblk.marks i p b).Pairwise fun g g' => g.off < g'.off := by
  induction b generalizing p with
  | nil => exact .nil
  | cons de b ih =>
    refine .cons (fun g hg => ?_) (ih _)
    have := le_calcSize de.str.length
    have := (Deblk.marks_off hg).1
    simp only
    omega

namespace Vdir

theorem marksFrom_append (i : Nat) (as bs : List Deblk) :
    marksFrom i (as ++ bs) = marksFrom i as ++ marksFrom (i + as.length) bs := by
  induction as generalizing i with
  | nil => rfl
  | cons a as ih =>
    rw [List.cons_append, marksFrom, ih, marksFrom, List.append_assoc, List.length_cons,
      Nat.add_right_comm, Nat.add_assoc i]

theorem mem_marksFrom {i : Nat} {bs : List Deblk} {g : Given} (hg : g ∈ marksFrom i bs) :
    ∃ pre done de rest post, bs = pre ++ (done ++ de :: rest) :: post ∧
      g = ⟨de, Deblk.used done + deblkSize * (i + pre.length), i + pre.length, Deblk.used done⟩ := by
  induction bs generalizing i with
  | nil => cases hg
  | cons b bs ih =>
    rcases List.mem_append.mp hg with hg | hg
    · obtain ⟨done, de, rest, rfl, rfl⟩ := Deblk.mem_marks hg
      exact ⟨[], done, de, rest, bs, rfl, by simp⟩
    · obtain ⟨pre, done, de, rest, post, rfl, rfl⟩ := ih hg
      refine ⟨b :: pre, done, de, rest, post, rfl, ?_⟩
      rw [List.length_cons, Nat.add_right_comm, Nat.add_assoc i]

theorem marksFrom_off {i : Nat} {bs : List Deblk} (hfits : ∀ b ∈ bs, Deblk.used b ≤ deblkSize)
    {g : Given} (hg : g ∈ marksFrom i bs) :
    deblkSize * i ≤ g.off ∧ g.off < deblkSize * (i + bs.length) := by
  obtain ⟨pre, done, de, rest, post, rfl, rfl⟩ := mem_marksFrom hg
  have hfit := hfits (done ++ de :: rest) (by simp)
  have := le_calcSize de.str.length
  rw [Deblk.used_append, Deblk.used_cons] at hfit
  simp only [deblkSize, List.length_append, List.length_cons] at hfit ⊢
  omega

theorem marksFrom_sorted {i : Nat} {bs : List Deblk} (hfits : ∀ b ∈ bs, Deblk.used b ≤ deblkSize) :
    (marksFrom i bs).Pairwise fun g g' => g.off < g'.off := by
  induction bs generalizing i with
  | nil => exact .nil
  | cons b bs ih =>
    obtain ⟨hb, hbs⟩ := List.forall_mem_cons.mp hfits
    refine List.pairwise_append.mpr ⟨Deblk.marks_sorted i 0 b, ih hbs, fun g hg g' hg' => ?_⟩
    have h₁ := (Deblk.marks_off hg).2
    have h₂ := (marksFrom_off hbs hg').1
    simp only [deblkSize] at hb h₁ h₂
    omega

/-- All entries with their offsets. -/
def marks (vd : Vdir) : List Given := marksFrom 0 vd.deblk

/-- The entries that begin at an offset or behind it. -/
def fromPos (vd : Vdir) (pos : Nat) : List Given := vd.marks.filter fun g => decide (pos ≤ g.off)

/-- What begins behind an offset is the end of a list in which only what stands before it
begins before the offset. -/
theorem fromPos_eq {vd : Vdir} {pos : Nat} {before behind : List Given} (h : vd.marks = before ++ behind)
    (h₁ : ∀ g ∈ before, g.off < pos) (h₂ : ∀ g ∈ behind, pos ≤ g.off) : vd.fromPos pos = behind := by
  rw [fromPos, h, List.filter_append, List.filter_eq_nil_iff.mpr, List.nil_append, List.filter_eq_self]
  · exact fun g hg => decide_eq_true (h₂ g hg)
  · exact fun g hg => by simpa using h₁ g hg

theorem Blocks.sorted {vd : Vdir} (h : vd.Blocks) : vd.marks.Pairwise fun g g' => g.off < g'.off :=
  marksFrom_sorted h.fits

/-- From an offset up to its own, an entry is the first. -/
theorem Blocks.fromPos_split {vd : Vdir} (h : vd.Blocks) {pos : Nat} {before behind : List Given}
    {g : Given} (hm : vd.marks = before ++ g :: behind) (h₁ : ∀ x ∈ before, x.off < pos)
    (h₂ : pos ≤ g.off) : vd.fromPos pos = g :: behind := by
  have hs := h.sorted
  rw [hm, List.pairwise_append] at hs
  refine fromPos_eq hm h₁ fun x hx => ?_
  rcases List.mem_cons.mp hx with rfl | hx
  · exact h₂
  · exact h₂.trans (List.rel_of_pairwise_cons hs.2.1 hx).le

/-- The entries from an offset on are the end of all entries. -/
theorem Blocks.exists_before {vd : Vdir} (h : vd.Blocks) (pos : Nat) :
    ∃ before, vd.marks = before ++ vd.fromPos pos ∧ ∀ g ∈ before, g.off < pos := by
  have hsplit : ∀ l : List Given, l.Pairwise (fun g g' => g.off < g'.off) →
      ∃ before, l = before ++ l.filter (fun g => decide (pos ≤ g.off)) ∧ ∀ g ∈ before, g.off < pos := by
    intro l hl
    induction l with
    | nil => exact ⟨[], rfl, fun g hg => by cases hg⟩
    | cons g l ih =>
      obtain ⟨hg, hl'⟩ := List.pairwise_cons.mp hl
      by_cases hpos : pos ≤ g.off
      · refine ⟨[], ?_, fun g hg => by cases hg⟩
        rw [List.nil_append, List.filter_eq_self.mpr]
        intro x hx
        rcases List.mem_cons.mp hx with rfl | hx
        · exact decide_eq_true hpos
        · exact decide_eq_true (hpos.trans (hg x hx).le)
      · obtain ⟨before, he, hb⟩ := ih hl'
        refine ⟨g :: before, ?_, ?_⟩
        · rw [List.filter_cons_of_neg (by simpa using hpos), List.cons_append, ← he]
        · exact List.forall_mem_cons.mpr ⟨Nat.lt_of_not_le hpos, hb⟩
  exact hsplit vd.marks h.sorted

/-- Where `vd_last` stands, the entries ahead are those from its offset on. -/
theorem Stands.fromPos {vd : Vdir} (hb : vd.Blocks) {pre post : List Deblk} {done rest : Deblk}
    (h : vd.Stands pre done rest post) : vd.fromPos vd.calcOffset = ahead pre done rest post := by
  have hfits : ∀ b ∈ vd.deblk, Deblk.used b ≤ deblkSize := hb.fits
  rw [h.deblk] at hfits
  have hmarks : vd.marks = (marksFrom 0 pre ++ Deblk.marks pre.length 0 done) ++ ahead pre done rest post := by
    rw [marks, h.deblk, marksFrom_append, marksFrom, Nat.zero_add, Deblk.marks_append, ahead, Nat.zero_add]
    simp only [List.append_assoc]
  have hoff : vd.calcOffset = Deblk.used done + deblkSize * pre.length := by
    rw [calcOffset, h.lastI, h.lastP]
  refine fromPos_eq hmarks (fun g hg => ?_) (fun g hg => ?_) <;> rw [hoff]
  · rcases List.mem_append.mp hg with hg | hg
    · have := (marksFrom_off (fun b hb => hfits b (List.mem_append_left _ hb)) hg).2
      rw [Nat.zero_add] at this
      omega
    · have := (Deblk.marks_off hg).2
      omega
  · rcases List.mem_append.mp hg with hg | hg
    · exact (Deblk.marks_off hg).1
    · have := (marksFrom_off (fun b hb => hfits b (by simp [hb])) hg).1
      have hdone := hfits (done ++ rest) (by simp)
      rw [Deblk.used_append] at hdone
      simp only [deblkSize] at this hdone ⊢
      omega

-- ---------------------------------------------------------------------------
-- `seek_vdir`
-- ---------------------------------------------------------------------------

/-- The inner loop finds the first entry of the block from `pos` on. -/
theorem seekDeblk_spec {i pos : Nat} {done rest : Deblk} {fuel : Nat}
    (hfit : Deblk.used (done ++ rest) ≤ deblkSize) (hnamed : ∀ de ∈ done ++ rest, de.str ≠ [])
    (hfuel : rest.length < fuel) :
    seekDeblk ((i * deblkSize : Nat) : Int) pos (done ++ rest) fuel (Deblk.used done) =
      some (((Deblk.marks i (Deblk.used done) rest).find? fun g => decide (pos ≤ g.off)).map Given.lastP) := by
  induction rest generalizing done fuel with
  | nil =>
    obtain ⟨fuel, rfl⟩ : ∃ k, fuel = k + 1 := ⟨fuel - 1, by simp at hfuel; omega⟩
    rw [List.append_nil, seekDeblk, Deblk.cur_used]
    rfl
  | cons de rest ih =>
    obtain ⟨fuel, rfl⟩ : ∃ k, fuel = k + 1 := ⟨fuel - 1, by omega⟩
    have hcur := Deblk.cur_append hfit (hnamed de (by simp))
    have hnext := @ih (done ++ [de]) fuel (by simpa using hfit) (by simpa using hnamed)
      (by simp only [List.length_cons] at hfuel; omega)
    simp only [List.append_assoc, List.singleton_append, Deblk.used_append, Deblk.used_cons, Deblk.used_nil,
      Nat.add_zero] at hnext
    rw [seekDeblk, hcur, Deblk.marks, List.find?_cons]
    by_cases hpos : pos ≤ Deblk.used done + deblkSize * i
    · have hlt : ¬((i * deblkSize : Nat) : Int) + Deblk.used done < pos := by
        simp only [deblkSize] at hpos ⊢
        omega
      simp only [if_neg hlt, decide_eq_true hpos, Option.map_some]
    · have hlt : ((i * deblkSize : Nat) : Int) + Deblk.used done < pos := by
        simp only [deblkSize] at hpos ⊢
        omega
      simp only [if_pos hlt, hnext, decide_eq_false hpos]

/-- `vd_deblk` is one `kmalloc`, of no more than 2^25 bytes, and a pointer takes eight. -/
def maxDeblk : Nat := 4194304

/-- The loop over the blocks finds the first entry of them from `pos` on. -/
theorem seekDeblks_spec {pos i : Nat} {bs : List Deblk} (hfits : ∀ b ∈ bs, Deblk.used b ≤ deblkSize)
    (hnamed : ∀ b ∈ bs, ∀ de ∈ b, de.str ≠ []) (hlen : i + bs.length ≤ maxDeblk) :
    seekDeblks pos bs i = some (((marksFrom i bs).find? fun g => decide (pos ≤ g.off)).map
      fun g => (g.lastI, g.lastP)) := by
  induction bs generalizing i with
  | nil => rfl
  | cons b bs ih =>
    obtain ⟨hb, hbs⟩ := List.forall_mem_cons.mp hfits
    obtain ⟨hn, hns⟩ := List.forall_mem_cons.mp hnamed
    rw [List.length_cons] at hlen
    have hstart : cInt (i * deblkSize) = ((i * deblkSize : Nat) : Int) := by
      rw [Nat.cast_mul]
      simp only [maxDeblk, deblkSize] at hlen ⊢
      apply cInt_eq
      · omega
      · omega
    have hblock := @seekDeblk_spec i pos [] b (b.length + 1) hb hn (Nat.lt_succ_self _)
    rw [List.nil_append, Deblk.used_nil] at hblock
    rw [seekDeblks, hstart, hblock, marksFrom, List.find?_append]
    cases hfind : (Deblk.marks i 0 b).find? fun g => decide (pos ≤ g.off) with
    | none =>
      have hnext : i + 1 + bs.length ≤ maxDeblk := by omega
      simp only [Option.map_none, ih hbs hns hnext, Option.none_or]
    | some g =>
      have hi := Deblk.lastI_of_mem_marks (List.mem_of_find?_eq_some hfind)
      simp only [Option.map_some, Option.some_or, hi]

/-- The block of `f_pos`, as an `int`, is not before the blocks. -/
def InRange (vd : Vdir) (pos : Nat) : Prop :=
  pos = vd.calcOffset ∨ pos = 0 ∨ 0 ≤ blockOf pos

/-- `vd_last` stands at an entry or at an end. -/
def Placed (vd : Vdir) : Prop := ∃ pre done rest post, vd.Stands pre done rest post

/-- How far `f_pos` is behind the entry that is found. -/
def lag (vd : Vdir) (pos : Nat) : Nat :=
  if pos = vd.calcOffset ∨ pos = 0 then 0
  else match vd.fromPos pos with
    | [] => 0
    | g :: _ => g.off - pos

/-- `vd_last` can stand at every entry. -/
theorem stands_of_mem {vd : Vdir} {g : Given} (hg : g ∈ vd.marks) :
    ∃ pre done rest post, ({ vd with lastI := g.lastI, lastP := g.lastP } : Vdir).Stands pre done rest post ∧
      g.off = g.lastP + deblkSize * g.lastI := by
  obtain ⟨pre, done, de, rest, post, hd, rfl⟩ := mem_marksFrom hg
  refine ⟨pre, done, de :: rest, post, ⟨hd, ?_, rfl⟩, ?_⟩
  · simp only [Nat.zero_add]
  · simp only

theorem Blocks.stands_start {vd : Vdir} (h : vd.Blocks) :
    ∃ b bs, vd.rewind.Stands [] [] b bs := by
  obtain ⟨b, bs, hb⟩ := List.exists_cons_of_ne_nil h.ne
  exact ⟨b, bs, ⟨hb, rfl, rfl⟩⟩

/-- What `seek_vdir` does: with `ok` the entries ahead of `vd_last` are those from `pos` on, and
without there are none. -/
structure Sought (vd : Vdir) (pos : Nat) (ok : Bool) (vd' : Vdir) : Prop where
  deblk : vd'.deblk = vd.deblk
  version : vd'.version = vd.version
  placed : vd'.Placed
  found : ok = true → pos + vd.lag pos = vd'.calcOffset ∧ vd.fromPos vd'.calcOffset = vd.fromPos pos
  late : ok = true → ∀ g gs, vd.fromPos pos = g :: gs → vd.lag pos = 0 ∨ g.lastI = vd'.lastI
  none : ok = false → vd.fromPos pos = []

/-- The search is that for the first entry from `pos` on, wherever it starts. -/
theorem seek_search {vd : Vdir} (hb : vd.Blocks) (hlen : vd.deblk.length ≤ maxDeblk) {pos : Nat}
    (h₁ : pos ≠ vd.calcOffset) (h₂ : pos ≠ 0) (h₃ : 0 ≤ blockOf pos) :
    vd.seek pos = match vd.fromPos pos with
      | [] => some (false, vd.rewind)
      | g :: _ => some (true, { vd with lastI := g.lastI, lastP := g.lastP }) := by
  obtain ⟨q, hq, hle, hlt⟩ : ∃ q, pos / deblkSize = q ∧ deblkSize * q ≤ pos ∧ pos < deblkSize * (q + 1) :=
    ⟨_, rfl, Nat.mul_div_le .., Nat.lt_mul_div_succ _ (by decide)⟩
  have hend : vd.deblk.length ≤ q → vd.fromPos pos = [] := by
    intro hlen
    refine List.filter_eq_nil_iff.mpr fun g hg => ?_
    have := (marksFrom_off hb.fits hg).2
    rw [Nat.zero_add] at this
    have := Nat.mul_le_mul_left deblkSize hlen
    simp only [decide_eq_true_eq]
    omega
  obtain ⟨i, hi⟩ : ∃ i, blockOf pos = i := ⟨_, rfl⟩
  have hiq : cInt q = i := by rw [← hi, blockOf, hq]
  rw [seek, if_neg h₁, if_neg h₂, hi]
  rw [hi] at h₃
  -- as an `int` the index is itself, or some other one above the last block
  have hcases : i = q ∨ vd.deblk.length ≤ q := by
    rw [← hiq]
    by_cases hsmall : q < 2147483648
    · exact .inl (cInt_eq (by omega) (by omega))
    · simp only [maxDeblk] at hlen
      exact .inr (by omega)
  split
  · -- the index is too great
    rename_i hge
    rw [hend]
    omega
  · rename_i hfew
    rw [if_neg (by omega)]
    obtain ⟨k, rfl⟩ : ∃ k : Nat, i = k := ⟨_, (Int.toNat_of_nonneg h₃).symm⟩
    have hkl : k + (vd.deblk.drop k).length = vd.deblk.length := by
      rw [List.length_drop]
      omega
    rw [Int.toNat_natCast, seekDeblks_spec (fun b hm => hb.fits b (List.mem_of_mem_drop hm))
      (fun b hm => hb.named b (List.mem_of_mem_drop hm)) (by omega), ← List.head?_filter]
    -- the entries before the first block that is searched begin before `pos`
    have hskip : (marksFrom k (vd.deblk.drop k)).filter (fun g => decide (pos ≤ g.off)) = vd.fromPos pos := by
      rcases hcases with hi | hi
      · obtain rfl : k = q := by omega
        have htake : (vd.deblk.take k).length = k := by
          rw [List.length_take]
          omega
        have hsplit : vd.marks = marksFrom 0 (vd.deblk.take k) ++ marksFrom k (vd.deblk.drop k) := by
          have := marksFrom_append 0 (vd.deblk.take k) (vd.deblk.drop k)
          rwa [List.take_append_drop, htake, Nat.zero_add] at this
        have hbefore : (marksFrom 0 (vd.deblk.take k)).filter (fun g => decide (pos ≤ g.off)) = [] := by
          refine List.filter_eq_nil_iff.mpr fun g hg => ?_
          have := (marksFrom_off (fun b hm => hb.fits b (List.mem_of_mem_take hm)) hg).2
          rw [htake, Nat.zero_add] at this
          simp only [decide_eq_true_eq]
          omega
        rw [fromPos, hsplit, List.filter_append, hbefore, List.nil_append]
      · rw [hend hi]
        refine List.filter_eq_nil_iff.mpr fun g hg => ?_
        have := (marksFrom_off (fun b hm => hb.fits b (List.mem_of_mem_drop hm)) hg).2
        rw [hkl] at this
        have := Nat.mul_le_mul_left deblkSize hi
        simp only [decide_eq_true_eq]
        omega
    rw [hskip]
    cases vd.fromPos pos with
    | nil => rfl
    | cons g gs => rfl

theorem seek_spec {vd : Vdir} (hb : vd.Blocks) (hlen : vd.deblk.length ≤ maxDeblk) (hp : vd.Placed)
    {pos : Nat} (hr : vd.InRange pos) : ∃ ok vd', vd.seek pos = some (ok, vd') ∧ vd.Sought pos ok vd' := by
  obtain ⟨b, bs, hstart⟩ := hb.stands_start
  by_cases h₁ : pos = vd.calcOffset
  · have hlag : vd.lag pos = 0 := if_pos (.inl h₁)
    refine ⟨true, vd, by rw [seek, if_pos h₁], rfl, rfl, hp, fun _ => ⟨?_, by rw [h₁]⟩,
      fun _ _ _ _ => .inl hlag, fun h => by cases h⟩
    rw [hlag, h₁, Nat.add_zero]
  by_cases h₂ : pos = 0
  · have hlag : vd.lag pos = 0 := if_pos (.inr h₂)
    refine ⟨true, vd.rewind, ?_, rfl, rfl, ⟨_, _, _, _, hstart⟩, fun _ => ?_,
      fun _ _ _ _ => .inl hlag, fun h => by cases h⟩
    · rw [seek, if_neg h₁, if_pos h₂]
    · rw [hlag, h₂]
      exact ⟨rfl, rfl⟩
  rw [seek_search hb hlen h₁ h₂ ((hr.resolve_left h₁).resolve_left h₂)]
  cases hfrom : vd.fromPos pos with
  | nil =>
    exact ⟨false, _, rfl, rfl, rfl, ⟨_, _, _, _, hstart⟩, (fun h => by cases h), (fun h => by cases h),
      fun _ => hfrom⟩
  | cons g gs =>
    have hg : g ∈ vd.fromPos pos := by simp [hfrom]
    obtain ⟨hmem, hle⟩ := List.mem_filter.mp hg
    rw [decide_eq_true_eq] at hle
    obtain ⟨pre, done, rest, post, hs, hoff⟩ := stands_of_mem hmem
    have hcalc : ({ vd with lastI := g.lastI, lastP := g.lastP } : Vdir).calcOffset = g.off := by
      rw [hoff, calcOffset]
    refine ⟨true, _, rfl, rfl, rfl, ⟨pre, done, rest, post, hs⟩, fun _ => ⟨?_, ?_⟩, fun _ g' gs' he => ?_,
      fun h => by cases h⟩
    · rw [lag, if_neg (by tauto), hfrom, hcalc]
      simp only
      omega
    · rw [hcalc]
      obtain ⟨before, hmarks, hbefore⟩ := hb.exists_before pos
      rw [hfrom] at hmarks ⊢
      exact hb.fromPos_split hmarks (fun x hx => (hbefore x hx).trans_le hle) (Nat.le_refl _)
    · rw [hfrom] at he
      obtain ⟨rfl, -⟩ := List.cons.inj he
      exact .inr rfl

-- ---------------------------------------------------------------------------
-- `au_fill_de`
-- ---------------------------------------------------------------------------

/-- What `au_fill_de` gives at `pos` to a buffer for `n` entries. -/
def given (vd : Vdir) (pos n : Nat) : List Given :=
  match vd.fromPos pos with
  | [] => []
  | g :: gs => ((g :: gs).take n).map (Given.late (vd.lag pos) g.lastI)

theorem given_nil {vd : Vdir} {pos : Nat} (h : vd.fromPos pos = []) (n : Nat) : vd.given pos n = [] := by
  rw [given, h]

theorem given_cons {vd : Vdir} {pos : Nat} {g : Given} {gs : List Given} (h : vd.fromPos pos = g :: gs)
    (n : Nat) : vd.given pos n = ((g :: gs).take n).map (Given.late (vd.lag pos) g.lastI) := by
  rw [given, h]

theorem Stands.length_le {vd : Vdir} {pre post : List Deblk} {done rest : Deblk}
    (h : vd.Stands pre done rest post) :
    (rest ++ post.flatten).length + (post.length + 1) ≤ vd.entries.length + vd.deblk.length := by
  rw [Vdir.entries, h.deblk]
  simp only [List.flatten_append, List.flatten_cons, List.length_append, List.length_cons]
  omega

end Vdir

/-- The stream has a `vdir` of its own, of good blocks, and `vd_last` stands in it. -/
structure DirFile.Holds (f : DirFile) (vd : Vdir) : Prop where
  own : f.vdirCache = some vd
  blocks : vd.Blocks
  length : vd.deblk.length ≤ Vdir.maxDeblk
  placed : vd.Placed

theorem auFillDe_spec {f : DirFile} {vd : Vdir} (h : f.Holds vd) (hr : vd.InRange f.pos) (n : Nat) :
    ∃ f' vd', auFillDe f n = (.ok (vd.given f.pos n), f') ∧ f'.Holds vd' ∧ vd'.deblk = vd.deblk := by
  obtain ⟨ok, vd₁, hseek, hs⟩ := Vdir.seek_spec h.blocks h.length h.placed hr
  have hholds : ∀ (g : DirFile) (vd' : Vdir), g.vdirCache = some vd' → vd'.deblk = vd.deblk → vd'.Placed →
      g.Holds vd' := fun g vd' hc hd hp => ⟨hc, h.blocks.of_deblk hd, by rw [hd]; exact h.length, hp⟩
  cases ok with
  | false =>
    refine ⟨{ f with vdirCache := some vd₁ }, vd₁, ?_, hholds _ _ rfl hs.deblk hs.placed, hs.deblk⟩
    simp only [auFillDe, h.own, hseek, Vdir.given_nil (hs.none rfl)]
  | true =>
    obtain ⟨pre, done, rest, post, hst⟩ := hs.placed
    obtain ⟨hpos, hfrom⟩ := hs.found rfl
    obtain ⟨vd₂, pos₂, hfill, hd₂, -, hat, -⟩ := hst.fillDe (n := n) (h.blocks.of_deblk hs.deblk) hpos
      hst.length_le
    have hsame : vd₁.fromPos vd₁.calcOffset = vd.fromPos vd₁.calcOffset := by
      rw [Vdir.fromPos, Vdir.fromPos, Vdir.marks, Vdir.marks, hs.deblk]
    have hahead : Vdir.ahead pre done rest post = vd.fromPos f.pos := by
      rw [← hst.fromPos (h.blocks.of_deblk hs.deblk), hsame, hfrom]
    have hgiven : ((Vdir.ahead pre done rest post).take n).map (Given.late (vd.lag f.pos) pre.length) =
        vd.given f.pos n := by
      rw [hahead]
      cases hf : vd.fromPos f.pos with
      | nil => rw [Vdir.given_nil hf, List.take_nil, List.map_nil]
      | cons g gs =>
        rw [Vdir.given_cons hf]
        rcases hs.late rfl g gs hf with hz | hi
        · rw [hz, List.map_id'' (Given.late_zero _), List.map_id'' (Given.late_zero _)]
        · rw [hi, hst.lastI]
    rw [hgiven] at hfill
    obtain ⟨pre', done', rest', post', hst', -⟩ := hat
    have hd : vd₂.deblk = vd.deblk := hd₂.trans hs.deblk
    refine ⟨{ f with vdirCache := some vd₂, pos := pos₂ }, vd₂, ?_,
      hholds _ _ rfl hd ⟨pre', done', rest', post', hst'⟩, hd⟩
    simp only [auFillDe, h.own, hseek, hfill]

/-- A stream that was just filled holds what it was filled with. -/
theorem DirFile.Fills.holds {hash : Name → Nat} {sb : SuperBlock} {f f' : DirFile} (h : f.Fills)
    {ino ino' : DirInode} (hp : ino.Packed) {w w' : World}
    (hi : Aufs.auInitVdir hash sb ino f w = (.ok (), ino', f', w'))
    (hlen : ∀ vd, f'.vdirCache = some vd → vd.deblk.length ≤ Vdir.maxDeblk) : ∃ vd, f'.Holds vd := by
  obtain ⟨_, _, hs⟩ := h.auInitVdir hp hi
  obtain ⟨vd, hown, -, hb, ⟨pre, done, rest, post, hst, -⟩, -⟩ := hs.vdir
  exact ⟨vd, hown, hb, hlen vd hown, pre, done, rest, post, hst⟩

-- ---------------------------------------------------------------------------
-- What an offset leads to
-- ---------------------------------------------------------------------------

namespace Vdir

/-- From the offset on, the entry is the first. -/
def LeadsTo (vd : Vdir) (r : Given) : Prop :=
  ∃ g gs, vd.fromPos r.off = g :: gs ∧ g.de = r.de ∧ g.lastI = r.lastI ∧ g.lastP = r.lastP

/-- Where `f_pos` is behind the entry that is found, every entry that is given, and followed
by another one of its block, is longer than that. -/
def Spaced (vd : Vdir) (pos n : Nat) : Prop :=
  ∀ g gs, vd.fromPos pos = g :: gs → ∀ x y, [x, y] <:+: (g :: gs).take n → y.lastI = g.lastI →
    x.off + vd.lag pos < y.off

theorem Blocks.off_of_mem {vd : Vdir} {g : Given} (hg : g ∈ vd.marks) :
    g.off = g.lastP + deblkSize * g.lastI := by
  obtain ⟨-, -, -, -, -, hoff⟩ := stands_of_mem hg
  exact hoff

theorem Blocks.inRange {vd : Vdir} (hb : vd.Blocks) (hlen : vd.deblk.length ≤ maxDeblk) {g : Given}
    (hg : g ∈ vd.marks) {pos : Nat} (hle : pos ≤ g.off) : vd.InRange pos := by
  have hoff := (marksFrom_off hb.fits hg).2
  have hblock : ((pos / deblkSize : Nat) : Int) < 2147483648 := by
    simp only [maxDeblk, deblkSize] at hlen hoff ⊢
    omega
  have hnonneg : (0 : Int) ≤ ((pos / deblkSize : Nat) : Int) := Int.natCast_nonneg _
  refine .inr (.inr ?_)
  rwa [blockOf, cInt_eq (by omega) hblock]

theorem mem_of_fromPos {vd : Vdir} {pos : Nat} {g : Given} {gs : List Given}
    (h : vd.fromPos pos = g :: gs) : g ∈ vd.marks ∧ pos ≤ g.off := by
  have hg : g ∈ vd.fromPos pos := by rw [h]; exact List.mem_cons_self
  obtain ⟨hmem, hle⟩ := List.mem_filter.mp hg
  exact ⟨hmem, by simpa using hle⟩

/-- An element of a list is the first one, or it follows another one. -/
private theorem eq_or_pair_of_mem {α : Type} {l : List α} {g y : α} {gs : List α} (hl : l <+: g :: gs)
    (hy : y ∈ l) : y = g ∨ ∃ before x behind, g :: gs = before ++ x :: y :: behind ∧ [x, y] <:+: l := by
  obtain ⟨s, t, rfl⟩ := List.append_of_mem hy
  obtain ⟨r, hr⟩ := hl
  rcases List.eq_nil_or_concat s with rfl | ⟨s, x, rfl⟩
  · exact .inl (List.cons.inj hr).1
  · refine .inr ⟨s, x, t ++ r, ?_, s, t, ?_⟩
    · rw [← hr]
      simp
    · simp

/-- What is given at a spaced offset has an offset that leads to it. -/
theorem Blocks.leadsTo_of_given {vd : Vdir} (hb : vd.Blocks) {pos n : Nat} (hs : vd.Spaced pos n)
    {r : Given} (hr : r ∈ vd.given pos n) : vd.LeadsTo r := by
  cases hf : vd.fromPos pos with
  | nil => simp [given_nil hf] at hr
  | cons g gs =>
    rw [given_cons hf] at hr
    obtain ⟨y, hy, rfl⟩ := List.mem_map.mp hr
    have hpre := List.take_prefix n (g :: gs)
    obtain ⟨before, hmarks, hbefore⟩ := hb.exists_before pos
    rw [hf] at hmarks
    by_cases hlate : y.lastI = g.lastI
    · have hlatey : y.late (vd.lag pos) g.lastI = { y with off := y.off - vd.lag pos } := if_pos hlate
      rw [hlatey]
      rcases eq_or_pair_of_mem hpre hy with rfl | ⟨s, x, t, hsplit, hpair⟩
      · -- the entry that was found
        refine ⟨y, gs, ?_, rfl, rfl, rfl⟩
        have hpos := (mem_of_fromPos hf).2
        have hlag : pos ≤ y.off - vd.lag pos := by
          rw [lag, hf]
          split
          · exact hpos
          · simp only
            omega
        refine hb.fromPos_split hmarks (fun z hz => (hbefore z hz).trans_le hlag) ?_
        simp only
        omega
      · -- one that follows
        refine ⟨y, t, ?_, rfl, rfl, rfl⟩
        have hlt := hs g gs hf x y hpair hlate
        have hall : vd.marks = (before ++ s ++ [x]) ++ y :: t := by
          rw [hmarks, hsplit]
          simp
        have hsorted := hb.sorted
        rw [hall, List.append_assoc, List.pairwise_append] at hsorted
        refine hb.fromPos_split hall (fun z hz => ?_) (Nat.sub_le _ _)
        simp only
        rcases List.mem_append.mp hz with hz | hz
        · have := hsorted.2.2 z hz x (by simp)
          omega
        · rw [List.mem_singleton.mp hz]
          omega
    · have hlatey : y.late (vd.lag pos) g.lastI = y := if_neg hlate
      rw [hlatey]
      obtain ⟨s, t, hsplit⟩ := List.append_of_mem (hpre.subset hy)
      have hall : vd.marks = (before ++ s) ++ y :: t := by
        rw [hmarks, hsplit, List.append_assoc]
      have hsorted := hb.sorted
      rw [hall, List.pairwise_append] at hsorted
      exact ⟨y, t, hb.fromPos_split hall (fun z hz => hsorted.2.2 z hz y (by simp)) (Nat.le_refl _),
        rfl, rfl, rfl⟩

/-- Of two entries in a row the first begins before the second. -/
theorem Blocks.off_lt {vd : Vdir} (hb : vd.Blocks) {pos n : Nat} {g : Given} {gs : List Given}
    (hf : vd.fromPos pos = g :: gs) {x y : Given} (hpair : [x, y] <:+: (g :: gs).take n) : x.off < y.off := by
  have hsub : [x, y].Sublist vd.marks := by
    rw [← hf] at hpair
    exact (hpair.sublist.trans (List.take_sublist n _)).trans List.filter_sublist
  simpa using hb.sorted.sublist hsub

/-- At an offset that is not spaced, something is given whose offset leads to another entry
or to none. -/
theorem Blocks.exists_not_leadsTo {vd : Vdir} (hb : vd.Blocks) {pos n : Nat} (hs : ¬vd.Spaced pos n) :
    ∃ r ∈ vd.given pos n, (∃ g ∈ vd.marks, r.off ≤ g.off) ∧ ¬vd.LeadsTo r := by
  simp only [Spaced, not_forall] at hs
  obtain ⟨g, gs, hf, x, y, hpair, hi, hlt⟩ := hs
  have hxy := hpair.subset
  have hsub : ∀ z, z ∈ (g :: gs).take n → z ∈ vd.marks := fun z hz =>
    (List.mem_filter.mp (hf ▸ List.mem_of_mem_take hz)).1
  have hx := hsub x (hxy (by simp))
  have hy := hsub y (hxy (by simp))
  have hlatey : y.late (vd.lag pos) g.lastI = { y with off := y.off - vd.lag pos } := if_pos hi
  refine ⟨{ y with off := y.off - vd.lag pos }, ?_, ⟨y, hy, Nat.sub_le _ _⟩, ?_⟩
  · rw [given_cons hf, ← hlatey]
    exact List.mem_map_of_mem (hxy (by simp))
  · rintro ⟨z, zs, hz, -, hzi, hzp⟩
    -- the entry before it does not begin before the offset
    have hxfrom : x ∈ vd.fromPos (y.off - vd.lag pos) :=
      List.mem_filter.mpr ⟨hx, by simp only [decide_eq_true_eq]; omega⟩
    have hzoff : z.off = y.off := by
      rw [off_of_mem (mem_of_fromPos hz).1, off_of_mem hy, hzi, hzp]
    have hzx : z.off ≤ x.off := by
      have hsorted : (z :: zs).Pairwise fun g g' => g.off < g'.off := hz ▸ hb.sorted.sublist List.filter_sublist
      rw [show vd.fromPos _ = z :: zs from hz] at hxfrom
      rcases List.mem_cons.mp hxfrom with rfl | hxs
      · exact Nat.le_refl _
      · exact (List.rel_of_pairwise_cons hsorted hxs).le
    have := hb.off_lt hf hpair
    omega

end Vdir

-- ---------------------------------------------------------------------------
-- Runs of seeks and reads
-- ---------------------------------------------------------------------------

/-- Sought to the offset of `r`, the stream goes on with that entry. -/
def DirFile.Resumes (f : DirFile) (r : Given) : Prop :=
  ∀ n, ∃ g gs f', auFillDe (f.seek r.off) (n + 1) = (.ok (g :: gs), f') ∧
    g.de = r.de ∧ g.lastI = r.lastI ∧ g.lastP = r.lastP

theorem DirFile.seek_pos (f : DirFile) (pos : Nat) : (f.seek pos).pos = pos := by
  unfold DirFile.seek
  split
  · rfl
  · rename_i h
    exact (Decidable.not_not.mp h).symm

theorem DirFile.Holds.seek {f : DirFile} {vd : Vdir} (h : f.Holds vd) (pos : Nat) : (f.seek pos).Holds vd := by
  refine ⟨?_, h.blocks, h.length, h.placed⟩
  unfold DirFile.seek
  split <;> exact h.own

/-- An offset before the last entry goes on with the entry that it leads to. -/
theorem DirFile.Holds.resumes_iff {f : DirFile} {vd : Vdir} (h : f.Holds vd) {r : Given}
    (hoff : ∃ g ∈ vd.marks, r.off ≤ g.off) : f.Resumes r ↔ vd.LeadsTo r := by
  obtain ⟨m, hm, hle⟩ := hoff
  have hfill : ∀ n, ∃ f', auFillDe (f.seek r.off) (n + 1) = (.ok (vd.given r.off (n + 1)), f') := by
    intro n
    have hr := h.blocks.inRange h.length hm hle
    rw [← f.seek_pos r.off] at hr
    obtain ⟨f', -, he, -⟩ := auFillDe_spec (h.seek r.off) hr (n + 1)
    rw [f.seek_pos] at he
    exact ⟨f', he⟩
  have hlate : ∀ (d i : Nat) (g : Given), (g.late d i).lastI = g.lastI ∧ (g.late d i).lastP = g.lastP := by
    intro d i g
    unfold Given.late
    split <;> exact ⟨rfl, rfl⟩
  obtain ⟨g, gs, hf⟩ : ∃ g gs, vd.fromPos r.off = g :: gs := by
    refine List.exists_cons_of_ne_nil (List.ne_nil_of_mem (List.mem_filter.mpr ⟨hm, ?_⟩))
    simpa using hle
  have hgiven : ∀ n, ∃ gs', vd.given r.off (n + 1) = g.late (vd.lag r.off) g.lastI :: gs' := by
    intro n
    rw [Vdir.given_cons hf, List.take_succ_cons, List.map_cons]
    exact ⟨_, rfl⟩
  obtain ⟨hi, hp⟩ := hlate (vd.lag r.off) g.lastI g
  constructor
  · intro hres
    obtain ⟨g', gs', f', he, h₁, h₂, h₃⟩ := hres 0
    obtain ⟨f'', he'⟩ := hfill 0
    obtain ⟨gs'', hg⟩ := hgiven 0
    rw [he, hg] at he'
    simp only [Prod.mk.injEq, Except.ok.injEq, List.cons.injEq] at he'
    obtain ⟨⟨rfl, -⟩, -⟩ := he'
    rw [Given.late_de] at h₁
    rw [hi] at h₂
    rw [hp] at h₃
    exact ⟨g, gs, hf, h₁, h₂, h₃⟩
  · rintro ⟨g', gs', hf', h₁, h₂, h₃⟩ n
    rw [hf] at hf'
    obtain ⟨rfl, -⟩ := List.cons.inj hf'
    obtain ⟨f', he⟩ := hfill n
    obtain ⟨gs'', hg⟩ := hgiven n
    rw [hg] at he
    exact ⟨_, gs'', f', he, (Given.late_de _ _ _).trans h₁, hi.trans h₂, hp.trans h₃⟩

/-- A stream with a `vdir` of its own. No part of the program are: all that `filldir` was given,
and whether only bytes within the blocks were read. -/
structure SeekSys where
  f : DirFile
  given : List Given
  safe : Bool

/-- What can happen next. -/
inductive SeekEvent where
  /-- `default_llseek` -/
  | lseek (pos : Nat)
  /-- `au_fill_de`, with a buffer for `n` entries -/
  | fillDe (n : Nat)

namespace SeekSys

/-- One event. -/
def step (s : SeekSys) : SeekEvent → SeekSys
  | .lseek pos => { s with f := s.f.seek pos }
  | .fillDe n =>
    match auFillDe s.f n with
    | (.error _, f) => { s with f, safe := false }
    | (.ok gs, f) => { s with f, given := gs ++ s.given }

/-- The condition on an event: the block of `f_pos` as an `int` is not before the blocks, and
what is given is spaced. -/
def Meets (s : SeekSys) : SeekEvent → Prop
  | .lseek _ => True
  | .fillDe n => ∀ vd, s.f.vdirCache = some vd → vd.InRange s.f.pos ∧ vd.Spaced s.f.pos n

/-- Events that meet the condition, one after another. -/
def Run : SeekSys → SeekSys → Prop :=
  Relation.ReflTransGen fun s s' => ∃ e : SeekEvent, s.Meets e ∧ s' = s.step e

/-- A stream that was not read yet. -/
def init (f : DirFile) : SeekSys := ⟨f, [], true⟩

/-- The blocks stay, and every offset that was given leads to its entry. -/
structure Inv (blocks : List Deblk) (s : SeekSys) : Prop where
  holds : ∃ vd, s.f.Holds vd ∧ vd.deblk = blocks
  leads : ∀ r ∈ s.given, ∀ vd : Vdir, vd.deblk = blocks → vd.LeadsTo r
  safe : s.safe = true

/-- What leads to an entry depends on the blocks alone. -/
theorem leadsTo_of_deblk {vd vd' : Vdir} (hd : vd'.deblk = vd.deblk) {r : Given} (h : vd.LeadsTo r) :
    vd'.LeadsTo r := by
  have hfrom : vd'.fromPos r.off = vd.fromPos r.off := by
    rw [Vdir.fromPos, Vdir.fromPos, Vdir.marks, Vdir.marks, hd]
  rw [Vdir.LeadsTo, hfrom]
  exact h

variable {blocks : List Deblk} {s : SeekSys}

theorem Inv.step (h : s.Inv blocks) {e : SeekEvent} (hm : s.Meets e) : (s.step e).Inv blocks := by
  obtain ⟨vd, hvd, hd⟩ := h.holds
  cases e with
  | lseek pos => exact ⟨⟨vd, hvd.seek pos, hd⟩, h.leads, h.safe⟩
  | fillDe n =>
    obtain ⟨hr, hs⟩ := hm vd hvd.own
    obtain ⟨f', vd', he, hvd', hd'⟩ := auFillDe_spec hvd hr n
    simp only [SeekSys.step, he]
    refine ⟨⟨vd', hvd', hd'.trans hd⟩, fun r hr' vd'' hd'' => ?_, h.safe⟩
    rcases List.mem_append.mp hr' with hr' | hr'
    · exact leadsTo_of_deblk (hd''.trans hd.symm) (hvd.blocks.leadsTo_of_given hs hr')
    · exact h.leads r hr' vd'' hd''

theorem Run.inv {f : DirFile} {vd : Vdir} (hf : f.Holds vd) (h : Run (init f) s) : s.Inv vd.deblk := by
  induction h with
  | refl => exact ⟨⟨vd, hf, rfl⟩, fun r hr => (List.not_mem_nil hr).elim, rfl⟩
  | tail _ hstep ih =>
      obtain ⟨e, hm, rfl⟩ := hstep
      exact ih.step hm

theorem Inv.resumes (h : s.Inv blocks) {r : Given} (hr : r ∈ s.given) : s.f.Resumes r := by
  obtain ⟨vd, hvd, hd⟩ := h.holds
  have hleads := h.leads r hr vd hd
  obtain ⟨g, gs, hf, -⟩ := id hleads
  exact (hvd.resumes_iff ⟨g, Vdir.mem_of_fromPos hf⟩).mpr hleads

/-- A reading that does not meet the condition reads outside of the blocks, or gives an
offset that does not go on with its entry. -/
theorem Inv.unmet (h : s.Inv blocks) {n : Nat} (hm : ¬s.Meets (.fillDe n)) :
    (s.step (.fillDe n)).safe = false ∨
      ∃ r ∈ (s.step (.fillDe n)).given, ¬(s.step (.fillDe n)).f.Resumes r := by
  obtain ⟨vd, hvd, -⟩ := h.holds
  by_cases hr : vd.InRange s.f.pos
  · obtain ⟨f', vd', he, hvd', hd'⟩ := auFillDe_spec hvd hr n
    have hs : ¬vd.Spaced s.f.pos n := by
      intro hs
      refine hm fun vd₁ hown => ?_
      obtain rfl := Option.some.inj (hvd.own.symm.trans hown)
      exact ⟨hr, hs⟩
    obtain ⟨r, hgiven, hoff, hno⟩ := hvd.blocks.exists_not_leadsTo hs
    have hmarks : vd'.marks = vd.marks := by rw [Vdir.marks, Vdir.marks, hd']
    simp only [SeekSys.step, he]
    refine .inr ⟨r, List.mem_append_left _ hgiven, fun hres => hno ?_⟩
    exact leadsTo_of_deblk hd'.symm ((hvd'.resumes_iff (by rw [hmarks]; exact hoff)).mp hres)
  · simp only [Vdir.InRange, not_or, not_le] at hr
    obtain ⟨h₁, h₂, h₃⟩ := hr
    have hseek : vd.seek s.f.pos = none := by
      rw [Vdir.seek, if_neg h₁, if_neg h₂, if_neg (by omega), if_pos h₃]
    simp only [SeekSys.step, auFillDe, hvd.own, hseek]
    exact .inl trivial

/-- In a run of seeks and reads that meets the condition, only bytes within the blocks are read,
and from every offset that an entry was given at the stream goes on with that entry. A
reading that does not meet the condition reads outside of them or gives an offset that does not. -/
theorem run_resumes {f : DirFile} {vd : Vdir} (hf : f.Holds vd) (h : Run (init f) s) :
    s.safe = true ∧ (∀ r ∈ s.given, s.f.Resumes r) ∧
      ∀ n, ¬s.Meets (.fillDe n) → (s.step (.fillDe n)).safe = false ∨
        ∃ r ∈ (s.step (.fillDe n)).given, ¬(s.step (.fillDe n)).f.Resumes r :=
  ⟨(h.inv hf).safe, fun _ hr => (h.inv hf).resumes hr, fun _ hm => (h.inv hf).unmet hm⟩

-- ---------------------------------------------------------------------------
-- A directory with five entries
-- ---------------------------------------------------------------------------

/-- A copy of a `vdir` with a longer name in the middle: its entries begin at 0, 16, 32, 64
and 80. -/
def fiveEntries : Vdir :=
  ⟨[[⟨11, .dir, dot⟩, ⟨12, .dir, dotdot⟩, ⟨13, .reg, List.replicate 20 97⟩, ⟨14, .reg, [98]⟩,
    ⟨15, .reg, [99]⟩]], 0, 0, 1, 0⟩

/-- A stream that holds it. -/
def fiveFile : DirFile := ⟨0, 0, fun _ => none, 0, 1, some fiveEntries⟩

theorem fiveFile_holds : fiveFile.Holds fiveEntries where
  own := rfl
  blocks := ⟨by decide, by decide, by decide⟩
  length := by decide
  placed := ⟨[], [], _, [], rfl, rfl, rfl⟩

/-- In step, or at 0, the condition is met. -/
theorem Inv.meets (h : s.Inv blocks) {n : Nat}
    (hpos : (s.f.vdirCache.all fun vd => decide (s.f.pos = vd.calcOffset ∨ s.f.pos = 0)) = true) :
    s.Meets (.fillDe n) := by
  intro vd hown
  obtain ⟨vd', hvd, -⟩ := h.holds
  obtain rfl := Option.some.inj (hvd.own.symm.trans hown)
  rw [hown] at hpos
  have hin : s.f.pos = vd'.calcOffset ∨ s.f.pos = 0 := by simpa using hpos
  have hlag : vd'.lag s.f.pos = 0 := if_pos hin
  refine ⟨hin.imp_right .inl, fun g gs hf x y hpair _ => ?_⟩
  rw [hlag, Nat.add_zero]
  exact hvd.blocks.off_lt hf hpair

/-- One entry, then back to the start and two entries. -/
theorem run_resumes_five : ∃ s, Run (init fiveFile) s ∧ s.given.length = 3 ∧
    (s.safe = true ∧ (∀ r ∈ s.given, s.f.Resumes r) ∧
      ∀ n, ¬s.Meets (.fillDe n) → (s.step (.fillDe n)).safe = false ∨
        ∃ r ∈ (s.step (.fillDe n)).given, ¬(s.step (.fillDe n)).f.Resumes r) := by
  have h₀ : (init fiveFile).Inv fiveEntries.deblk := Run.inv fiveFile_holds .refl
  have hm₁ : (init fiveFile).Meets (.fillDe 1) := h₀.meets (by decide +kernel)
  have h₁ := (h₀.step hm₁).step (show Meets _ (.lseek 0) from trivial)
  have hm₂ : (((init fiveFile).step (.fillDe 1)).step (.lseek 0)).Meets (.fillDe 2) :=
    h₁.meets (by decide +kernel)
  have hrun : Run (init fiveFile) ((((init fiveFile).step (.fillDe 1)).step (.lseek 0)).step (.fillDe 2)) :=
    .tail (.tail (.single ⟨.fillDe 1, hm₁, rfl⟩) ⟨.lseek 0, trivial, rfl⟩) ⟨.fillDe 2, hm₂, rfl⟩
  exact ⟨_, hrun, by decide +kernel, run_resumes fiveFile_holds hrun⟩

/-- The state after these events. -/
def fiveRun (es : List SeekEvent) : SeekSys := es.foldl step (init fiveFile)

/-- From 2^40 on the index of the block is negative. And from offset 40 the names `b` and `c` are
given at 40 and 56, but 56 goes on with `b`. -/
theorem fiveRun_not_resumes :
    (fiveRun [.lseek 1099511627776, .fillDe 1]).safe = false ∧
      (fiveRun [.lseek 40, .fillDe 2]).safe = true ∧
        ∃ r ∈ (fiveRun [.lseek 40, .fillDe 2]).given, ¬(fiveRun [.lseek 40, .fillDe 2]).f.Resumes r := by
  refine ⟨by decide +kernel, by decide +kernel, ⟨⟨15, .reg, [99]⟩, 56, 0, 80⟩, by decide +kernel, fun h => ?_⟩
  obtain ⟨g, gs, f', he, -, -, hp⟩ := h 0
  have hplace : (match (auFillDe ((fiveRun [.lseek 40, .fillDe 2]).f.seek 56) 1).1 with
      | .ok gs => gs.map Given.lastP
      | .error _ => []) = [64] := by
    decide +kernel
  rw [he] at hplace
  simp only [List.map_cons, List.cons.injEq] at hplace
  rw [hplace.1] at hp
  cases hp

end SeekSys

end Aufs
