-- SUMMARY: Delivering the entries of a stream's own vdir: positions, seeks, and runs of getdents calls.
import Aufs.DirStream
import Aufs.VdirBlocks

/-!
# Delivering entries

A directory stream delivers from a copy of the `vdir` that it made at offset 0. Its
position is kept twice: `f_pos` is a byte offset over all blocks, `vd_last` a block and a
place in it. Here are `seek_vdir` and `au_fill_de`, and what the calls of a stream deliver
together while everything else may change.
-/

namespace Aufs

-- ---------------------------------------------------------------------------
-- Places in a block
-- ---------------------------------------------------------------------------

/-- The entry that begins at a byte of the block, or its end mark. `none` at a byte where
neither of them begins. -/
def Deblk.at : Deblk → Nat → Option (Option De)
  | [], p => if p = 0 then some none else none
  | de :: b, p =>
    if p = 0 then some (some de)
    else if p < calcSize de.str.length then none
    else Deblk.at b (p - calcSize de.str.length)

/-- `is_deblk_end`, and the entry that is read next if there is one. `none` when that is not
within the block. -/
def Deblk.cur (b : Deblk) (p : Nat) : Option (Option De) :=
  -- nothing is read where there is no room for an entry
  if deblkSize - p < calcSize 0 then some none
  else
    match b.at p with
    | none => none
    | some none => some none
    | some (some de) =>
      if de.str = [] then some none
      else if p + calcSize de.str.length ≤ deblkSize then some (some de)
      else none

/-- What `filldir` is given: an entry, and `f_pos`. Where the entry stands is no part of
the call. -/
structure Given where
  de : De
  off : Nat
  lastI : Nat
  lastP : Nat
  deriving DecidableEq, Repr

namespace Vdir

/-- The entry at `vd_last`. -/
def cur (vd : Vdir) : Option (Option De) := (vd.deblk[vd.lastI]?).bind fun b => b.cur vd.lastP

/-- `calc_offset` -/
def calcOffset (vd : Vdir) : Nat := vd.lastP + deblkSize * vd.lastI

/-- The inner loop of `seek_vdir`: the first place in a block, from `p` on, whose offset is
at least `pos`. The outer `none` stands for an access outside of the block. -/
def seekDeblk (start : Int) (pos : Nat) (b : Deblk) : Nat → Nat → Option (Option Nat)
  | 0, _ => none
  | fuel + 1, p =>
    match b.cur p with
    | none => none
    | some none => some none
    | some (some de) =>
      if start + p < pos then seekDeblk start pos b fuel (p + calcSize de.str.length) else some (some p)

/-- The loop of `seek_vdir` over the blocks, the first of which has the number `i`. -/
def seekDeblks (pos : Nat) : List Deblk → Nat → Option (Option (Nat × Nat))
  | [], _ => some none
  | b :: bs, i =>
    match seekDeblk (cInt (i * deblkSize)) pos b (b.length + 1) 0 with
    | none => none
    | some (some p) => some (some (i, p))
    | some none => seekDeblks pos bs (i + 1)

/-- `vd_last` at the start. -/
def rewind (vd : Vdir) : Vdir := { vd with lastI := 0, lastP := 0 }

/-- `int i = f_pos / AUFS_DEBLK_SIZE` -/
def blockOf (pos : Nat) : Int := cInt (pos / deblkSize : Nat)

/-- `seek_vdir`. `none` when a block is read that is not there. -/
def seek (vd : Vdir) (pos : Nat) : Option (Bool × Vdir) :=
  if pos = vd.calcOffset then some (true, vd)
  else if pos = 0 then some (true, vd.rewind)
  else if vd.deblk.length ≤ blockOf pos then some (false, vd.rewind)
  else if blockOf pos < 0 then none
  else
    match seekDeblks pos (vd.deblk.drop (blockOf pos).toNat) (blockOf pos).toNat with
    | none => none
    | some (some (i, p)) => some (true, { vd with lastI := i, lastP := p })
    | some none => some (false, vd.rewind)

/-- The loop of `au_fill_de`: `filldir` takes `n` entries and refuses the next. -/
def fillDe : Nat → Vdir → Nat → Nat → Option (List Given × Vdir × Nat)
  | 0, _, _, _ => none
  | fuel + 1, vd, pos, n =>
    match vd.cur with
    | none => none
    | some (some de) =>
      match n with
      | 0 => some ([], vd, pos)
      | n + 1 =>
        let l := calcSize de.str.length
        (fillDe fuel { vd with lastP := vd.lastP + l } (pos + l) n).map fun r =>
          (⟨de, pos, vd.lastI, vd.lastP⟩ :: r.1, r.2)
    | some none =>
      if vd.lastI + 1 < vd.deblk.length then
        fillDe fuel { vd with lastI := vd.lastI + 1, lastP := 0 } (deblkSize * (vd.lastI + 1)) n
      else some ([], vd, pos)

end Vdir

/-- `au_fill_de`, with a buffer for `n` entries. -/
def auFillDe (f : DirFile) (n : Nat) : Except Errno (List Given) × DirFile :=
  match f.vdirCache with
  | none => (.error .oops, f)
  | some vd =>
    match vd.seek f.pos with
    | none => (.error .oops, f)
    | some (false, vd) => (.ok [], { f with vdirCache := some vd })
    | some (true, vd) =>
      match vd.fillDe (vd.entries.length + vd.deblk.length) f.pos n with
      | none => (.error .oops, f)
      | some (es, vd, pos) => (.ok es, { f with vdirCache := some vd, pos })

-- ---------------------------------------------------------------------------
-- The position in a vdir
-- ---------------------------------------------------------------------------

/-- At the place behind some entries of a block stands the next one. -/
theorem Deblk.cur_append {b c : Deblk} {de : De} (hfit : Deblk.used (b ++ de :: c) ≤ deblkSize)
    (hname : de.str ≠ []) : Deblk.cur (b ++ de :: c) (Deblk.used b) = some (some de) := by
  have hat : ∀ b : Deblk, Deblk.at (b ++ de :: c) (Deblk.used b) = some (some de) := by
    intro b
    induction b with
    | nil => rfl
    | cons e b ih =>
      have := le_calcSize e.str.length
      rw [Deblk.used_cons, List.cons_append, Deblk.at, if_neg (by omega), if_neg (by omega),
        Nat.add_sub_cancel_left, ih]
  have hle := le_calcSize de.str.length
  rw [Deblk.used_append, Deblk.used_cons] at hfit
  have hroom : ¬deblkSize - Deblk.used b < calcSize 0 := by
    rw [show calcSize 0 = 16 from rfl]
    omega
  simp only [Deblk.cur, if_neg hroom, hat, if_neg hname]
  rw [if_pos (by omega)]

/-- Behind the last entry is the end. -/
theorem Deblk.cur_used (b : Deblk) : Deblk.cur b (Deblk.used b) = some none := by
  have hat : Deblk.at b (Deblk.used b) = some none := by
    induction b with
    | nil => rfl
    | cons e b ih =>
      have := le_calcSize e.str.length
      rw [Deblk.used_cons, Deblk.at, if_neg (by omega), if_neg (by omega), Nat.add_sub_cancel_left, ih]
  rw [Deblk.cur, hat]
  split <;> rfl

/-- The entries of a block from the byte `p` on, as `au_fill_de` gives them when `f_pos` is the
offset of `vd_last`. -/
def Deblk.marks (i : Nat) : Nat → Deblk → List Given
  | _, [] => []
  | p, de :: b => ⟨de, p + deblkSize * i, i, p⟩ :: marks i (p + calcSize de.str.length) b

theorem Deblk.marks_de (i p : Nat) (b : Deblk) : (Deblk.marks i p b).map Given.de = b := by
  induction b generalizing p with
  | nil => rfl
  | cons de b ih => rw [marks, List.map_cons, ih]

theorem Deblk.lastI_of_mem_marks {i p : Nat} {b : Deblk} {g : Given} (hg : g ∈ Deblk.marks i p b) :
    g.lastI = i := by
  induction b generalizing p with
  | nil => cases hg
  | cons de b ih =>
    rcases List.mem_cons.mp hg with rfl | hg
    · rfl
    · exact ih hg

/-- An entry that is given when `f_pos` is `d` bytes behind in the block `i`. -/
def Given.late (d i : Nat) (g : Given) : Given := if g.lastI = i then { g with off := g.off - d } else g

@[simp] theorem Given.late_de (d i : Nat) (g : Given) : (g.late d i).de = g.de := by
  unfold late
  split <;> rfl

@[simp] theorem Given.late_zero (i : Nat) (g : Given) : g.late 0 i = g := by
  unfold late
  split <;> rfl

namespace Vdir

/-- The entries of blocks, the first of which has the number `i`. -/
def marksFrom : Nat → List Deblk → List Given
  | _, [] => []
  | i, b :: bs => Deblk.marks i 0 b ++ marksFrom (i + 1) bs

theorem marksFrom_de (i : Nat) (bs : List Deblk) : (marksFrom i bs).map Given.de = bs.flatten := by
  induction bs generalizing i with
  | nil => rfl
  | cons b bs ih => rw [marksFrom, List.map_append, Deblk.marks_de, ih, List.flatten_cons]

/-- `vd_last` stands behind the blocks `pre` and the entries `done` of the next. -/
structure Stands (vd : Vdir) (pre : List Deblk) (done rest : Deblk) (post : List Deblk) : Prop where
  deblk : vd.deblk = pre ++ (done ++ rest) :: post
  lastI : vd.lastI = pre.length
  lastP : vd.lastP = Deblk.used done

/-- `vd_last` stands between the entries `sent` and the entries `left`. -/
def At (vd : Vdir) (sent left : List De) : Prop :=
  ∃ pre done rest post, vd.Stands pre done rest post ∧ sent = pre.flatten ++ done ∧
    left = rest ++ post.flatten

theorem At.entries {vd : Vdir} {sent left : List De} (h : vd.At sent left) :
    vd.entries = sent ++ left := by
  obtain ⟨pre, done, rest, post, hs, rfl, rfl⟩ := h
  rw [Vdir.entries, hs.deblk]
  simp

/-- At the start nothing is sent. -/
theorem Blocks.at_start {vd : Vdir} (h : vd.Blocks) (hi : vd.lastI = 0) (hp : vd.lastP = 0) :
    vd.At [] vd.entries := by
  obtain ⟨b, bs, hb⟩ := List.exists_cons_of_ne_nil h.ne
  exact ⟨[], [], b, bs, ⟨by rw [hb]; rfl, hi, hp⟩, rfl, by rw [Vdir.entries, hb]; rfl⟩

/-- The block of `vd_last`. -/
theorem Stands.get {vd : Vdir} {pre post : List Deblk} {done rest : Deblk}
    (h : vd.Stands pre done rest post) : vd.deblk[vd.lastI]? = some (done ++ rest) := by
  rw [h.deblk, h.lastI, List.getElem?_append_right (Nat.le_refl _), Nat.sub_self]
  rfl

/-- The entries ahead of `vd_last`. -/
def ahead (pre : List Deblk) (done rest : Deblk) (post : List Deblk) : List Given :=
  Deblk.marks pre.length (Deblk.used done) rest ++ marksFrom (pre.length + 1) post

theorem le_lastI_of_mem_marksFrom {i : Nat} {bs : List Deblk} {g : Given} (hg : g ∈ marksFrom i bs) :
    i ≤ g.lastI := by
  induction bs generalizing i with
  | nil => cases hg
  | cons b bs ih =>
    rcases List.mem_append.mp hg with hg | hg
    · exact (Deblk.lastI_of_mem_marks hg).ge
    · exact Nat.le_of_succ_le (ih hg)

/-- Later blocks are not late. -/
theorem map_late_marksFrom (d i : Nat) (bs : List Deblk) (n : Nat) :
    ((marksFrom (i + 1) bs).take n).map (Given.late d i) = (marksFrom (i + 1) bs).take n := by
  refine (List.map_congr_left fun g hg => ?_).trans (List.map_id _)
  have hle := le_lastI_of_mem_marksFrom (List.mem_of_mem_take hg)
  rw [Given.late, if_neg (by omega), id]

/-- The loop delivers the entries that are left, as many as are taken. Where `f_pos` is `d`
bytes behind, it stays so up to the end of the block. -/
theorem Stands.fillDe {fuel : Nat} {vd : Vdir} {pre post : List Deblk} {done rest : Deblk}
    {pos d n : Nat} (hb : vd.Blocks) (h : vd.Stands pre done rest post) (hpos : pos + d = vd.calcOffset)
    (hfuel : (rest ++ post.flatten).length + (post.length + 1) ≤ fuel) :
    ∃ vd' pos', vd.fillDe fuel pos n =
        some (((ahead pre done rest post).take n).map (Given.late d pre.length), vd', pos') ∧
      vd'.deblk = vd.deblk ∧ vd'.version = vd.version ∧
      vd'.At (pre.flatten ++ done ++ (rest ++ post.flatten).take n) ((rest ++ post.flatten).drop n) ∧
      (d = 0 → pos' = vd'.calcOffset) := by
  induction fuel generalizing vd pre done rest post pos d n with
  | zero => omega
  | succ fuel ih =>
    have hmem : done ++ rest ∈ vd.deblk := List.mem_of_getElem? h.get
    have hi := h.lastI
    have hp := h.lastP
    cases rest with
    | cons de rest =>
      have hcur : vd.cur = some (some de) := by
        rw [Vdir.cur, h.get, hp]
        exact Deblk.cur_append (hb.fits _ hmem)
          (hb.named _ hmem de (List.mem_append_right _ List.mem_cons_self))
      cases n with
      | zero =>
        refine ⟨vd, pos, ?_, rfl, rfl, ?_, fun hd => by rw [← hpos, hd, Nat.add_zero]⟩
        · simp only [Vdir.fillDe, hcur, List.take_zero, List.map_nil]
        · exact ⟨pre, done, _, post, h, by simp, rfl⟩
      | succ n =>
        -- the entry is delivered
        have hblocks : ({ vd with lastP := vd.lastP + calcSize de.str.length } : Vdir).Blocks :=
          ⟨hb.ne, hb.fits, hb.named⟩
        have hnext : ({ vd with lastP := vd.lastP + calcSize de.str.length } : Vdir).Stands
            pre (done ++ [de]) rest post := ⟨by simp [h.deblk], hi, by simp [hp]⟩
        have hoff : pos + calcSize de.str.length + d =
            ({ vd with lastP := vd.lastP + calcSize de.str.length } : Vdir).calcOffset := by
          simp only [calcOffset] at hpos ⊢
          omega
        obtain ⟨vd', pos', hv, h₁, h₂, h₃, h₄⟩ := @ih _ pre post (done ++ [de]) rest _ d n
          hblocks hnext hoff (by
          simp only [List.cons_append, List.length_cons] at hfuel
          omega)
        refine ⟨vd', pos', ?_, h₁, h₂, by simpa using h₃, h₄⟩
        have hgiven : (⟨de, pos, vd.lastI, vd.lastP⟩ : Given) = Given.late d pre.length
            ⟨de, Deblk.used done + deblkSize * pre.length, pre.length, Deblk.used done⟩ := by
          simp only [calcOffset, hi, hp] at hpos
          simp only [Given.late, if_true, hi, hp, ← hpos, Nat.add_sub_cancel]
        simp only [Vdir.fillDe, hcur, hv, Option.map_some, ahead, Deblk.marks, List.cons_append,
          List.take_succ_cons, List.map_cons, hgiven, Deblk.used_append, Deblk.used_cons, Deblk.used_nil,
          Nat.add_zero]
    | nil =>
      have hcur : vd.cur = some none := by
        rw [Vdir.cur, h.get, hp, List.append_nil]
        exact Deblk.cur_used done
      cases post with
      | nil =>
        have hlast : ¬vd.lastI + 1 < vd.deblk.length := by
          rw [h.deblk, hi]
          simp
        refine ⟨vd, pos, ?_, rfl, rfl, ?_, fun hd => by rw [← hpos, hd, Nat.add_zero]⟩
        · simp [Vdir.fillDe, hcur, hlast, ahead, Deblk.marks, marksFrom]
        · exact ⟨pre, done, [], [], h, by simp, by simp⟩
      | cons b post =>
        -- the next block
        have hmore : vd.lastI + 1 < vd.deblk.length := by
          rw [h.deblk, hi]
          simp
        have hblocks : ({ vd with lastI := vd.lastI + 1, lastP := 0 } : Vdir).Blocks :=
          ⟨hb.ne, hb.fits, hb.named⟩
        have hnext : ({ vd with lastI := vd.lastI + 1, lastP := 0 } : Vdir).Stands
            (pre ++ [done]) [] b post := ⟨by simp [h.deblk], by simp [hi], rfl⟩
        have hoff : deblkSize * (vd.lastI + 1) + 0 =
            ({ vd with lastI := vd.lastI + 1, lastP := 0 } : Vdir).calcOffset := by
          simp only [calcOffset, Nat.zero_add, Nat.add_zero]
        obtain ⟨vd', pos', hv, h₁, h₂, h₃, h₄⟩ := @ih _ (pre ++ [done]) post [] b _ 0 n
          hblocks hnext hoff (by
          simp only [List.nil_append, List.flatten_cons, List.length_cons] at hfuel
          omega)
        refine ⟨vd', pos', ?_, h₁, h₂, by simpa using h₃, fun _ => h₄ rfl⟩
        have hahead : ahead (pre ++ [done]) [] b post = marksFrom (pre.length + 1) (b :: post) := by
          simp only [ahead, List.length_append, List.length_singleton, Deblk.used_nil, marksFrom]
        have hlate : ((marksFrom (pre.length + 1) (b :: post)).take n).map (Given.late d pre.length) =
            (marksFrom (pre.length + 1) (b :: post)).take n := map_late_marksFrom ..
        have hzero : ∀ (i : Nat) (l : List Given), l.map (Given.late 0 i) = l := fun i l =>
          List.map_id'' (Given.late_zero i) l
        rw [hahead, hzero] at hv
        simp only [Vdir.fillDe, hcur, if_pos hmore, hv, ahead, Deblk.marks, List.nil_append, hlate]

/-- The loop delivers the entries that are left, as many as are taken, and both positions
stay in step. -/
theorem fillDe_spec {fuel : Nat} {vd : Vdir} {sent left : List De} {n : Nat} (hb : vd.Blocks)
    (h : vd.At sent left) (hfuel : left.length + (vd.deblk.length - vd.lastI) ≤ fuel) :
    ∃ gs vd', vd.fillDe fuel vd.calcOffset n = some (gs, vd', vd'.calcOffset) ∧
      gs.map Given.de = left.take n ∧ vd'.deblk = vd.deblk ∧ vd'.version = vd.version ∧
      vd'.At (sent ++ left.take n) (left.drop n) := by
  obtain ⟨pre, done, rest, post, hs, rfl, rfl⟩ := h
  have hlen : vd.deblk.length - vd.lastI = post.length + 1 := by
    rw [hs.deblk, hs.lastI]
    simp
  rw [hlen] at hfuel
  obtain ⟨vd', pos', hv, hd, hver, hat, hstep⟩ := hs.fillDe (n := n) hb (Nat.add_zero _) hfuel
  rw [hstep rfl] at hv
  refine ⟨_, vd', hv, ?_, hd, hver, hat⟩
  have hde : (ahead pre done rest post).map Given.de = rest ++ post.flatten := by
    rw [ahead, List.map_append, Deblk.marks_de, marksFrom_de]
  rw [← hde, ← List.map_take, List.map_map]
  exact List.map_congr_left fun g _ => Given.late_de 0 pre.length g

end Vdir

-- ---------------------------------------------------------------------------
-- A stream between two seeks
-- ---------------------------------------------------------------------------

/-- The stream has delivered `sent` from its own `vdir`, and `left` is left. At offset 0 it
will not be filled again. -/
structure DirFile.Streams (f : DirFile) (sent left : List De) : Prop where
  vdir : ∃ vd, f.vdirCache = some vd ∧ vd.version = f.version ∧ vd.Blocks ∧ vd.At sent left ∧
    f.pos = vd.calcOffset

/-- `au_init_vdir` fills the stream's own `vdir`. -/
def DirFile.Fills (f : DirFile) : Prop :=
  f.pos = 0 ∧ ∀ vd, f.vdirCache = some vd → vd.version ≠ f.version

/-- `au_fill_de` delivers what comes next. -/
theorem DirFile.Streams.auFillDe {f : DirFile} {sent left : List De} (h : f.Streams sent left)
    (n : Nat) : ∃ gs f', auFillDe f n = (.ok gs, f') ∧ gs.map Given.de = left.take n ∧
      f'.Streams (sent ++ left.take n) (left.drop n) := by
  obtain ⟨vd, hc, hver, hb, hat, hpos⟩ := h.vdir
  have hfuel : left.length + (vd.deblk.length - vd.lastI) ≤ vd.entries.length + vd.deblk.length := by
    rw [hat.entries, List.length_append]
    omega
  obtain ⟨gs, vd', hv, hgs, hd', hver', hat'⟩ := Vdir.fillDe_spec (n := n) hb hat hfuel
  have hseek : vd.seek f.pos = some (true, vd) := by
    rw [Vdir.seek, if_pos hpos]
  rw [← hpos] at hv
  refine ⟨gs, { f with vdirCache := some vd', pos := vd'.calcOffset }, ?_, hgs,
    ⟨vd', rfl, ?_, ?_, hat', rfl⟩⟩
  · simp only [Aufs.auFillDe, hc, hseek, hv]
  · rw [hver', hver]
  · exact hb.of_deblk hd'

variable {hash : Name → Nat} {sb : SuperBlock}

variable (hash sb) in
/-- Whatever becomes of the shared `vdir`, `au_init_vdir` leaves the stream's own alone. -/
theorem DirFile.Streams.auInitVdir {f : DirFile} {sent left : List De} (h : f.Streams sent left)
    {ino : DirInode} (hp : ino.Packed) (w : World) :
    (auInitVdir hash sb ino f w).2.2.1.Streams sent left ∧ (auInitVdir hash sb ino f w).2.1.Packed := by
  obtain ⟨vd, hc, hver, hb, hat, hpos⟩ := h.vdir
  obtain ⟨res, ino', f', w', hr⟩ : ∃ res ino' f' w',
    readVdir hash sb (f.pos = 0) ino f w = (res, ino', f', w') := ⟨_, _, _, _, rfl⟩
  obtain ⟨hp', -, ⟨hfile, rfl⟩, -⟩ := readVdir_packed hp hr
  cases res with
  | error e =>
    simp only [Aufs.auInitVdir, hr]
    exact ⟨⟨vd, hc, hver, hb, hat, hpos⟩, hp'⟩
  | ok u =>
    have hplan : ¬(f.pos = 0 ∧ vd.version ≠ f.version) := fun hc => hc.2 hver
    simp only [Aufs.auInitVdir, hr, hc, if_neg hplan]
    exact ⟨⟨vd, rfl, hver, hb, hat, hpos⟩, hp'⟩

theorem copyVdir_ok {tgt tgt' src : Vdir} {w w' : World}
    (h : copyVdir tgt src w = (.ok (), tgt', w')) : tgt'.deblk = src.deblk ∧
      tgt'.version = src.version ∧ tgt'.lastI = tgt.lastI ∧ tgt'.lastP = tgt.lastP := by
  unfold copyVdir at h
  split at h
  · cases h
  · simp only [Prod.mk.injEq, true_and] at h
    obtain ⟨rfl, -⟩ := h
    exact ⟨rfl, rfl, rfl, rfl⟩

/-- A filling copies the entries of the shared `vdir`, and the stream is at their start. -/
theorem DirFile.Fills.auInitVdir {f : DirFile} (h : f.Fills) {ino ino' : DirInode}
    (hp : ino.Packed) {w w' : World} {f' : DirFile}
    (hi : auInitVdir hash sb ino f w = (.ok (), ino', f', w')) :
    ∃ vd, ino'.vdir = some vd ∧ f'.Streams [] vd.entries := by
  obtain ⟨hpos, hver⟩ := h
  obtain ⟨res, ino₁, f₁, w₁, hr⟩ : ∃ res ino' f' w',
    readVdir hash sb (f.pos = 0) ino f w = (res, ino', f', w') := ⟨_, _, _, _, rfl⟩
  obtain ⟨hp₁, -, ⟨hfile, rfl⟩, hvd⟩ := readVdir_packed hp hr
  simp only [Aufs.auInitVdir, hr] at hi
  cases res with
  | error e => simp at hi
  | ok u =>
    obtain ⟨src, hsrc, hsv⟩ := hvd rfl (by simpa using hpos)
    -- the copy, wherever the target came from
    have hcopy : ∀ {tgt tgt' : Vdir} {w₂ w₃ : World}, tgt.lastI = 0 → tgt.lastP = 0 →
        copyVdir tgt src w₂ = (.ok (), tgt', w₃) →
        ({ f with hfile, vdirCache := some tgt', version := ino₁.version } : DirFile).Streams []
          src.entries := by
      intro tgt tgt' w₂ w₃ hti htp hcp
      obtain ⟨hd, hv, hi', hp'⟩ := copyVdir_ok hcp
      have hb := hp₁ src hsrc
      have hb' : tgt'.Blocks := hb.of_deblk hd
      have hes : tgt'.entries = src.entries := by rw [Vdir.entries, hd]; rfl
      refine ⟨tgt', rfl, by rw [hv, hsv], hb', hes ▸ hb'.at_start (by rw [hi', hti])
        (by rw [hp', htp]), ?_⟩
      simp only [hpos, Vdir.calcOffset, hi', hp', hti, htp, Nat.mul_zero, Nat.add_zero]
    cases hc : f.vdirCache with
    | none =>
      simp only [hc, hsrc] at hi
      cases ha : Vdir.alloc w₁ with
      | mk r w₂ =>
        cases r with
        | error e => simp [ha] at hi
        | ok tgt =>
          obtain ⟨-, hti, htp⟩ := Vdir.alloc_empty ha
          obtain ⟨r, tgt', w₃, hcp⟩ : ∃ r tgt' w₃, copyVdir tgt src w₂ = (r, tgt', w₃) :=
            ⟨_, _, _, rfl⟩
          cases r with
          | error e => simp [ha, hcp] at hi
          | ok u =>
            simp only [ha, hcp, Prod.mk.injEq, true_and] at hi
            obtain ⟨rfl, rfl, -⟩ := hi
            exact ⟨src, hsrc, hcopy hti htp hcp⟩
    | some vd =>
      have hplan : f.pos = 0 ∧ vd.version ≠ f.version := ⟨hpos, hver vd hc⟩
      simp only [hc, hsrc, if_pos hplan] at hi
      obtain ⟨r, tgt', w₃, hcp⟩ : ∃ r tgt' w₃, copyVdir vd.reinit src w₁ = (r, tgt', w₃) :=
        ⟨_, _, _, rfl⟩
      cases r with
      | error e => simp [hcp] at hi
      | ok u =>
        simp only [hcp, Prod.mk.injEq, true_and] at hi
        obtain ⟨rfl, rfl, -⟩ := hi
        exact ⟨src, hsrc, hcopy rfl rfl hcp⟩

-- ---------------------------------------------------------------------------
-- Runs
-- ---------------------------------------------------------------------------

/-- `aufs_readdir` on the stream `fd`, with a buffer for `n` entries. -/
def DirSys.getdents (hash : Name → Nat) (sb : SuperBlock) (s : DirSys) (fd n : Nat) :
    Except Errno (List De) × DirSys :=
  match s.files fd with
  | none => (.error .oops, s)
  | some f =>
    match auInitVdir hash sb s.ino f s.w with
    | (.error e, ino, f, w) =>
      (.error e, { s with ino, w, files := Function.update s.files fd (some f) })
    | (.ok (), ino, f, w) =>
      match auFillDe f n with
      | (res, f) =>
        (res.map (List.map Given.de), { s with ino, w, files := Function.update s.files fd (some f) })

/-- What can happen: a stream is read, or something else. -/
inductive StreamEvent where
  | getdents (fd n : Nat)
  | other (e : DirEvent) (h : ∀ fd pos, e ≠ .readdir fd pos)

/-- One event. -/
def streamStep (hash : Name → Nat) (sb : SuperBlock) (s : DirSys) : StreamEvent → DirSys
  | .getdents fd n => (s.getdents hash sb fd n).2
  | .other e _ => dirStep hash sb s e

/-- The event neither seeks nor closes nor opens the stream `fd`. -/
def StreamEvent.Spares (fd : Nat) : StreamEvent → Prop
  | .getdents _ _ => True
  | .other (.opened fd' _ _) _ => fd' ≠ fd
  | .other (.seek fd' _) _ => fd' ≠ fd
  | .other (.release fd') _ => fd' ≠ fd
  | .other _ _ => True

/-- The entries that an event emits on the stream `fd`, and the room it had for them. A call
that fails emits nothing. -/
def StreamEvent.emits (hash : Name → Nat) (sb : SuperBlock) (fd : Nat) (s : DirSys) :
    StreamEvent → List De × Nat
  | .getdents fd' n =>
    if fd' = fd then
      match (s.getdents hash sb fd n).1 with
      | .ok es => (es, n)
      | .error _ => ([], 0)
    else ([], 0)
  | .other _ _ => ([], 0)

/-- All that a run emits on the stream `fd`, and all the room there was. -/
def emitted (hash : Name → Nat) (sb : SuperBlock) (fd : Nat) :
    DirSys → List StreamEvent → List De × Nat
  | _, [] => ([], 0)
  | s, e :: es =>
    ((e.emits hash sb fd s).1 ++ (emitted hash sb fd (streamStep hash sb s e) es).1,
      (e.emits hash sb fd s).2 + (emitted hash sb fd (streamStep hash sb s e) es).2)

/-- The stream `fd` is open, has delivered `sent`, and `left` is left. -/
structure DirSys.Streaming (s : DirSys) (fd : Nat) (sent left : List De) : Prop where
  packed : s.ino.Packed
  stream : ∃ f, s.files fd = some f ∧ f.Streams sent left

variable (hash sb) in
theorem readVdir_ino_packed (mayRead : Bool) {ino : DirInode} (h : ino.Packed) (f : DirFile)
    (w : World) : (readVdir hash sb mayRead ino f w).2.1.Packed :=
  (readVdir_packed h rfl).1

/-- Every event leaves the shared `vdir` with good blocks. -/
theorem streamStep_packed {s : DirSys} (h : s.ino.Packed) (e : StreamEvent) :
    (streamStep hash sb s e).ino.Packed := by
  cases e with
  | getdents fd n =>
    simp only [streamStep, DirSys.getdents]
    split
    · exact h
    · rename_i f _
      have hino := (auInitVdir_spec hash sb s.ino f s.w).1
      have hp := readVdir_ino_packed hash sb (f.pos = 0) h f s.w
      rw [← hino] at hp
      split <;> (rename_i hi; rw [hi] at hp; exact hp)
  | other e he =>
    cases e with
    | readdir fd pos => exact absurd rfl (he fd pos)
    | opened fd d h0 => exact h
    | seek fd pos => exact h
    | release fd => exact h
    | changed version => exact fun vd hvd => h vd hvd
    | outside w => exact h
    | refresh fd lo hi h0 hfile => exact h

variable (hash sb) in
/-- An event that spares the stream delivers what comes next, as much as there is room for. -/
theorem DirSys.Streaming.step {s : DirSys} {fd : Nat} {sent left : List De}
    (h : s.Streaming fd sent left) {e : StreamEvent} (he : e.Spares fd) :
    (e.emits hash sb fd s).1 = left.take (e.emits hash sb fd s).2 ∧
      (streamStep hash sb s e).Streaming fd (sent ++ left.take (e.emits hash sb fd s).2)
        (left.drop (e.emits hash sb fd s).2) := by
  obtain ⟨f, hf, hstream⟩ := h.stream
  have hpacked : (streamStep hash sb s e).ino.Packed := streamStep_packed h.packed e
  -- what emits nothing and keeps the place of the stream
  have hquiet : (e.emits hash sb fd s) = ([], 0) →
      (∃ f', (streamStep hash sb s e).files fd = some f' ∧ f'.Streams sent left) →
      (e.emits hash sb fd s).1 = left.take (e.emits hash sb fd s).2 ∧
        (streamStep hash sb s e).Streaming fd (sent ++ left.take (e.emits hash sb fd s).2)
          (left.drop (e.emits hash sb fd s).2) := by
    intro hnone hfile
    rw [hnone, List.take_zero, List.drop_zero, List.append_nil]
    exact ⟨rfl, hpacked, hfile⟩
  cases e with
  | getdents fd' n =>
    by_cases hfd : fd' = fd
    · subst hfd
      obtain ⟨res, ino', f₁, w₁, hi⟩ : ∃ res ino' f₁ w₁,
        auInitVdir hash sb s.ino f s.w = (res, ino', f₁, w₁) := ⟨_, _, _, _, rfl⟩
      have h₁ := (hstream.auInitVdir hash sb h.packed s.w).1
      rw [hi] at h₁
      cases res with
      | error err =>
        have hget : s.getdents hash sb fd' n = (.error err,
            { s with ino := ino', w := w₁, files := Function.update s.files fd' (some f₁) }) := by
          simp only [DirSys.getdents, hf, hi]
        refine hquiet ?_ ⟨f₁, ?_, h₁⟩
        · simp only [StreamEvent.emits, if_true, hget]
        · simp only [streamStep, hget, Function.update_self]
      | ok u =>
        obtain ⟨gs, f₂, hfill, hgs, h₂⟩ := h₁.auFillDe n
        have hget : s.getdents hash sb fd' n = (.ok (left.take n),
            { s with ino := ino', w := w₁, files := Function.update s.files fd' (some f₂) }) := by
          simp only [DirSys.getdents, hf, hi, hfill, Except.map, hgs]
        have hemit : StreamEvent.emits hash sb fd' s (.getdents fd' n) = (left.take n, n) := by
          simp only [StreamEvent.emits, if_true, hget]
        rw [hemit]
        refine ⟨rfl, hpacked, f₂, ?_, h₂⟩
        simp only [streamStep, hget, Function.update_self]
    · -- another stream
      refine hquiet (if_neg hfd) ⟨f, ?_, hstream⟩
      have hne : fd ≠ fd' := fun he => hfd he.symm
      simp only [streamStep, DirSys.getdents]
      split
      · exact hf
      · split
        · simp only [Function.update_of_ne hne, hf]
        · simp only [Function.update_of_ne hne, hf]
  | other e hread =>
    refine hquiet rfl ?_
    cases e with
    | readdir fd' pos => exact absurd rfl (hread fd' pos)
    | opened fd' d h0 =>
      have hne : fd ≠ fd' := fun hc => he hc.symm
      exact ⟨f, by simp only [streamStep, dirStep, Function.update_of_ne hne, hf], hstream⟩
    | seek fd' pos =>
      have hne : fd ≠ fd' := fun hc => he hc.symm
      exact ⟨f, by simp only [streamStep, dirStep, DirSys.onFile, Function.update_of_ne hne, hf],
        hstream⟩
    | release fd' =>
      have hne : fd ≠ fd' := fun hc => he hc.symm
      exact ⟨f, by simp only [streamStep, dirStep, Function.update_of_ne hne, hf], hstream⟩
    | changed version => exact ⟨f, hf, hstream⟩
    | outside w => exact ⟨f, hf, hstream⟩
    | refresh fd' lo hi h0 hfile =>
      by_cases hfd : fd = fd'
      · subst hfd
        refine ⟨{ f with fbstart := lo, fbend := hi, hfile }, ?_, ⟨hstream.vdir⟩⟩
        simp only [streamStep, dirStep, DirSys.onFile, Function.update_self, hf, Option.map_some]
      · exact ⟨f, by simp only [streamStep, dirStep, DirSys.onFile, Function.update_of_ne hfd, hf],
          hstream⟩

variable (hash sb) in
/-- Until it is sought, closed or opened again, a stream delivers the entries that are left,
each once and in order. -/
theorem DirSys.Streaming.run {s : DirSys} {fd : Nat} {sent left : List De}
    (h : s.Streaming fd sent left) {es : List StreamEvent} (hes : ∀ e ∈ es, e.Spares fd) :
    (emitted hash sb fd s es).1 = left.take (emitted hash sb fd s es).2 ∧
      ∃ sent', (es.foldl (streamStep hash sb) s).Streaming fd sent'
        (left.drop (emitted hash sb fd s es).2) := by
  induction es generalizing s sent left with
  | nil => exact ⟨rfl, sent, h⟩
  | cons e es ih =>
    obtain ⟨he, hes⟩ := List.forall_mem_cons.mp hes
    obtain ⟨hemit, hstep⟩ := h.step hash sb he
    obtain ⟨hrest, sent', hrun⟩ := ih hstep hes
    rw [List.drop_drop] at hrun
    refine ⟨?_, sent', hrun⟩
    rw [emitted, hemit, hrest, ← List.take_add]

/-- The streams of a run from a new inode. -/
theorem packed_run (es : List StreamEvent) (v : Nat) (w : World) :
    (es.foldl (streamStep hash sb) (.init v w)).ino.Packed := by
  have hrun : ∀ (s : DirSys), s.ino.Packed → (es.foldl (streamStep hash sb) s).ino.Packed := by
    induction es with
    | nil => exact fun s hs => hs
    | cons e es ih => exact fun s hs => ih _ (streamStep_packed hs e)
  exact hrun _ (fun vd hvd => nomatch hvd)

/-- A directory stream is a snapshot delivered once. In a run from a new inode, a getdents at
offset 0 fills the own `vdir` of a stream from that of the inode. What it and the calls after
it emit, until the stream is sought, closed or opened again, are the first entries that were
copied, as many as the calls had room for together, and after the last one nothing. -/
theorem getdents_snapshot {es₀ : List StreamEvent} {v : Nat} {w : World} {s s₁ : DirSys}
    {fd n : Nat} {f : DirFile} {out : List De}
    (hs : s = es₀.foldl (streamStep hash sb) (.init v w)) (hf : s.files fd = some f)
    (hfills : f.Fills) (hget : s.getdents hash sb fd n = (.ok out, s₁)) :
    ∃ vd, s₁.ino.vdir = some vd ∧
      (∃ f₁ own, s₁.files fd = some f₁ ∧ f₁.vdirCache = some own ∧ own.entries = vd.entries) ∧
      ∀ es, (∀ e ∈ es, e.Spares fd) →
        out ++ (emitted hash sb fd s₁ es).1 = vd.entries.take (n + (emitted hash sb fd s₁ es).2) ∧
        (vd.entries.length ≤ n + (emitted hash sb fd s₁ es).2 → ∀ e : StreamEvent, e.Spares fd →
          (e.emits hash sb fd (es.foldl (streamStep hash sb) s₁)).1 = []) := by
  have hp : s.ino.Packed := by
    rw [hs]
    exact packed_run es₀ v w
  simp only [DirSys.getdents, hf] at hget
  obtain ⟨res, ino', f₁, w₁, hi⟩ : ∃ res ino' f₁ w₁,
    auInitVdir hash sb s.ino f s.w = (res, ino', f₁, w₁) := ⟨_, _, _, _, rfl⟩
  cases res with
  | error e => simp [hi] at hget
  | ok u =>
    obtain ⟨vd, hvd, h₁⟩ := hfills.auInitVdir hp hi
    obtain ⟨gs, f₂, hfill, hgs, h₂⟩ := h₁.auFillDe n
    simp only [hi, hfill, Except.map, hgs, Prod.mk.injEq, Except.ok.injEq] at hget
    obtain ⟨rfl, rfl⟩ := hget
    have hp₁ : ino'.Packed := by
      have hino : ino' = (readVdir hash sb (f.pos = 0) s.ino f s.w).2.1 := by
        rw [← (auInitVdir_spec hash sb s.ino f s.w).1, hi]
      rw [hino]
      exact readVdir_ino_packed hash sb _ hp f s.w
    have hstream : DirSys.Streaming ⟨ino', Function.update s.files fd (some f₂), w₁, s.built⟩ fd
        ([] ++ vd.entries.take n) (vd.entries.drop n) := ⟨hp₁, f₂, Function.update_self .., h₂⟩
    refine ⟨vd, hvd, ?_, fun es hes => ?_⟩
    · obtain ⟨own, hown, -, -, hat, -⟩ := h₂.vdir
      refine ⟨f₂, own, Function.update_self .., hown, ?_⟩
      rw [hat.entries, List.nil_append, List.take_append_drop]
    · obtain ⟨hout, sent', hrun⟩ := hstream.run hash sb hes
      refine ⟨by rw [hout, ← List.take_add], fun hall e he => ?_⟩
      have hnone : (vd.entries.drop n).drop
          (emitted hash sb fd ⟨ino', Function.update s.files fd (some f₂), w₁, s.built⟩ es).2 = [] := by
        rw [List.drop_drop, List.drop_eq_nil_iff]
        exact hall
      rw [hnone] at hrun
      rw [(hrun.step hash sb he).1, List.take_nil]

/-- The stream of the directory with one file, opened. -/
def oneFileOpened : DirSys :=
  [StreamEvent.other (.opened 0 oneFileDentry oneFileDentry_nonneg) nofun].foldl
    (streamStep List.length oneFileSb) (.init 1 oneFileWorld)

/-- One entry is taken, and later the others. -/
theorem getdents_snapshot_oneFile :
    ∃ vd, (oneFileOpened.getdents List.length oneFileSb 0 1).2.ino.vdir = some vd ∧
      (∃ f₁ own, (oneFileOpened.getdents List.length oneFileSb 0 1).2.files 0 = some f₁ ∧
        f₁.vdirCache = some own ∧ own.entries = vd.entries) ∧
      ∀ es, (∀ e ∈ es, e.Spares 0) →
        [(⟨11, .dir, dot⟩ : De)] ++ (emitted List.length oneFileSb 0
            (oneFileOpened.getdents List.length oneFileSb 0 1).2 es).1 =
          vd.entries.take (1 + (emitted List.length oneFileSb 0
            (oneFileOpened.getdents List.length oneFileSb 0 1).2 es).2) ∧
        (vd.entries.length ≤ 1 + (emitted List.length oneFileSb 0
            (oneFileOpened.getdents List.length oneFileSb 0 1).2 es).2 →
          ∀ e : StreamEvent, e.Spares 0 → (e.emits List.length oneFileSb 0
            (es.foldl (streamStep List.length oneFileSb)
              (oneFileOpened.getdents List.length oneFileSb 0 1).2)).1 = []) := by
  have hfile : oneFileOpened.files 0 = some ((oneFileOpened.files 0).get (by decide +kernel)) :=
    (Option.some_get _).symm
  have hnone : ((oneFileOpened.files 0).get (by decide +kernel)).vdirCache = none := by
    decide +kernel
  exact getdents_snapshot rfl hfile ⟨by decide +kernel, fun vd hvd => nomatch hnone.symm.trans hvd⟩
    (Prod.ext (by decide +kernel) rfl)

end Aufs
