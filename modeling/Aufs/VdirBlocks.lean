-- SUMMARY: What filling a vdir preserves: one induction over read_vdir, and blocks that never run over.
import Aufs.Listing

/-!
# Filling a vdir

`read_vdir` calls `fillvdir` for every entry of every hidden directory. What one call
preserves holds of the `vdir` in the end, whether the listing succeeds or not. Among it:
no block holds more than its `AUFS_DEBLK_SIZE` bytes.
-/

namespace Aufs

-- ---------------------------------------------------------------------------
-- What one call leaves alone
-- ---------------------------------------------------------------------------

theorem World.snd_ask (w : World) : w.ask.2 = w.next := rfl

theorem Vdir.appendDeblk_world (vd : Vdir) (w : World) : (vd.appendDeblk w).2 = w.next := by
  unfold appendDeblk
  split
  · rename_i h
    rw [← World.snd_ask, h]
  · rename_i h
    rw [← World.snd_ask, h]

variable {hash : Name → Nat} {sb : SuperBlock}

theorem appendDe_sameFs (vd : Vdir) (dl : Nhash Name) (de : De) (w : World) :
    w.SameFs (appendDe hash vd dl de w).2.2.2 := by
  have hroom : w.SameFs (if calcSize de.str.length > deblkSize - vd.lastP then vd.appendDeblk w
      else (.ok vd, w)).2 := by
    split
    · rw [Vdir.appendDeblk_world]
      exact .ask w
    · exact .refl w
  unfold appendDe
  split
  · rename_i h
    rwa [h] at hroom
  · rename_i vd1 w1 h
    rw [h] at hroom
    have hask : w.SameFs w1.next := hroom.trans (.ask w1)
    split
    · rename_i h1
      rwa [← World.snd_ask, h1] at hask
    · rename_i w2 h1
      rw [← World.snd_ask, h1] at hask
      dsimp only
      split
      · exact hask
      · have hlast := hask.trans (.ask w2)
        rw [World.snd_ask, ← Vdir.appendDeblk_world (vd1.push de)] at hlast
        split <;> (rename_i h2; rwa [h2] at hlast)

/-- One call changes nothing below aufs but the inode number table. -/
theorem fillvdir_sameFs (arg : FillArg) (d : Dirent) (w : World) :
    w.SameFs (fillvdir hash sb arg d w).2 := by
  unfold fillvdir
  dsimp only
  split
  · split
    · exact .refl w
    · have hino := fillIno_sameFs sb w arg.bindex d.ino
      split
      · rename_i h
        rwa [h] at hino
      · rename_i ino w1 h
        rw [h] at hino
        exact hino.trans (appendDe_sameFs ..)
  · split
    · exact .refl w
    · have hask := World.SameFs.ask w
      split <;> (rename_i h; rwa [h] at hask)

theorem fillvdir_bindex (arg : FillArg) (d : Dirent) (w : World) :
    (fillvdir hash sb arg d w).1.bindex = arg.bindex := by
  unfold fillvdir
  dsimp only
  repeat' split
  all_goals rfl

-- ---------------------------------------------------------------------------
-- One induction for all invariants
-- ---------------------------------------------------------------------------

/-- What every call of `fillvdir` preserves, for the entries `D` of each branch. -/
structure FillKeeps (hash : Name → Nat) (sb : SuperBlock) (D : Int → Dirent → Prop)
    (P : FillArg → World → Prop) : Prop where
  ask : ∀ {arg w}, P arg w → P arg w.next
  reset : ∀ {arg w}, P arg w → P { arg with err := none, called := 0 } w
  branch : ∀ {arg w} bindex, P arg w → P { arg with bindex } w
  entry : ∀ {arg w d}, P arg w → D arg.bindex d →
    P (fillvdir hash sb arg d w).1 (fillvdir hash sb arg d w).2

namespace FillKeeps

variable {D : Int → Dirent → Prop} {P : FillArg → World → Prop}

theorem fillChunk (h : FillKeeps hash sb D P) {ds : List Dirent} {arg : FillArg}
    (hd : ∀ d ∈ ds, D arg.bindex d) (pos : Nat) {w : World} (hp : P arg w) :
    P (fillChunk hash sb ds pos arg w).2.1 (fillChunk hash sb ds pos arg w).2.2 ∧
      w.SameFs (fillChunk hash sb ds pos arg w).2.2 ∧
      (fillChunk hash sb ds pos arg w).2.1.bindex = arg.bindex := by
  induction ds generalizing pos arg w with
  | nil => exact ⟨hp, .refl w, rfl⟩
  | cons d ds ih =>
    obtain ⟨hd₁, hds⟩ := List.forall_mem_cons.mp hd
    have hstep := h.entry hp hd₁
    have hs : w.SameFs (fillvdir hash sb arg d w).2 := fillvdir_sameFs ..
    have hb : (fillvdir hash sb arg d w).1.bindex = arg.bindex := fillvdir_bindex ..
    simp only [Aufs.fillChunk]
    split
    · obtain ⟨h₁, h₂, h₃⟩ := ih (by rw [hb]; exact hds) (pos + 1) hstep
      exact ⟨h₁, hs.trans h₂, h₃.trans hb⟩
    · exact ⟨hstep, hs, hb⟩

theorem vfsubReaddir (h : FillKeeps hash sb D P) {hf : HFile} {arg : FillArg} {w : World}
    (hd : ∀ d ∈ w.dirents hf.root hf.path, D arg.bindex d) (hp : P arg w) :
    ∃ res pos arg' w', vfsubReaddir hash sb hf arg w = (res, { hf with pos }, arg', w') ∧
      P arg' w' ∧ w.SameFs w' ∧ arg'.bindex = arg.bindex := by
  have hchunk : ∀ d ∈ ((w.dirents hf.root hf.path).drop hf.pos).take (w.chunk w.tick + 1),
      D arg.bindex d := fun d hmem => hd d (List.mem_of_mem_drop (List.mem_of_mem_take hmem))
  obtain ⟨h₁, h₂, h₃⟩ := h.fillChunk hchunk hf.pos hp
  obtain ⟨pos, arg', w', hr⟩ : ∃ pos arg' w', Aufs.fillChunk hash sb
      (((w.dirents hf.root hf.path).drop hf.pos).take (w.chunk w.tick + 1)) hf.pos arg w =
        (pos, arg', w') := ⟨_, _, _, rfl⟩
  rw [hr] at h₁ h₂ h₃
  simp only [Aufs.vfsubReaddir, hr]
  have hask := h.ask h₁
  have hs := h₂.trans (.ask w')
  rw [World.snd_ask] at hs
  split
  · rename_i hw
    rw [← World.snd_ask, hw] at hask hs
    exact ⟨_, _, _, _, rfl, hask, hs, h₃⟩
  · rename_i hw
    rw [← World.snd_ask, hw] at hask hs
    exact ⟨_, _, _, _, rfl, hask, hs, h₃⟩

theorem readHdir (h : FillKeeps hash sb D P) {fuel : Nat} {hf hf' : HFile} {arg arg' : FillArg}
    {w w' : World} {res : Except Errno Unit} (hd : ∀ d ∈ w.dirents hf.root hf.path, D arg.bindex d)
    (hp : P arg w) (hr : readHdir hash sb fuel hf arg w = some (res, hf', arg', w')) :
    P arg' w' ∧ w.SameFs w' := by
  induction fuel generalizing hf arg w with
  | zero => cases hr
  | succ fuel ih =>
    have hd₀ : ∀ d ∈ w.dirents hf.root hf.path, D { arg with err := none, called := 0 }.bindex d := hd
    obtain ⟨res₁, pos, arg₁, w₁, hv, hp₁, hs₁, hb₁⟩ := h.vfsubReaddir hd₀ (h.reset hp)
    simp only [Aufs.readHdir, hv] at hr
    cases res₁ with
    | error e =>
      simp only [Option.some.injEq, Prod.mk.injEq] at hr
      obtain ⟨-, -, rfl, rfl⟩ := hr
      exact ⟨hp₁, hs₁⟩
    | ok u =>
      simp only at hr
      split at hr
      · simp only [Option.some.injEq, Prod.mk.injEq] at hr
        obtain ⟨-, -, rfl, rfl⟩ := hr
        exact ⟨hp₁, hs₁⟩
      · split at hr
        · simp only [Option.some.injEq, Prod.mk.injEq] at hr
          obtain ⟨-, -, rfl, rfl⟩ := hr
          exact ⟨hp₁, hs₁⟩
        · have hd₁ : ∀ d ∈ w₁.dirents { hf with pos }.root { hf with pos }.path,
              D arg₁.bindex d := by
            rw [hs₁.dirents, hb₁]
            exact hd
          obtain ⟨hp₂, hs₂⟩ := ih hd₁ hp₁ hr
          exact ⟨hp₂, hs₁.trans hs₂⟩

theorem readBranches (h : FillKeeps hash sb D P) {L : List Int} (hL : L.Nodup)
    {hfs : Int → Option HFile} {arg : FillArg} {w : World}
    (hd : ∀ b ∈ L, ∀ hf, hfs b = some hf → ∀ d ∈ w.dirents hf.root hf.path, D b d) (hp : P arg w) :
    P (readBranches hash sb L hfs arg w).2.2.1 (readBranches hash sb L hfs arg w).2.2.2 ∧
      w.SameFs (readBranches hash sb L hfs arg w).2.2.2 := by
  induction L generalizing hfs arg w with
  | nil => exact ⟨hp, .refl w⟩
  | cons b L ih =>
    obtain ⟨hb, hL⟩ := List.nodup_cons.mp hL
    obtain ⟨hd₁, hds⟩ := List.forall_mem_cons.mp hd
    cases hf : hfs b with
    | none =>
      simp only [Aufs.readBranches, hf]
      exact ih hL hds hp
    | some f =>
      have hdb : ∀ d ∈ w.dirents f.root f.path, D { arg with bindex := b }.bindex d := hd₁ f hf
      simp only [Aufs.readBranches, hf]
      split
      · exact ⟨hp, .refl w⟩
      · rename_i hr
        exact h.readHdir hdb (h.branch b hp) hr
      · rename_i f' arg₁ w₁ hr
        obtain ⟨hp₁, hs₁⟩ := h.readHdir hdb (h.branch b hp) hr
        have hds₁ : ∀ c ∈ L, ∀ hf, Function.update hfs b (some f') c = some hf →
            ∀ d ∈ w₁.dirents hf.root hf.path, D c d := by
          intro c hc g hg
          have hcb : c ≠ b := fun he => hb (he ▸ hc)
          rw [Function.update_of_ne hcb] at hg
          rw [hs₁.dirents]
          exact hds c hc g hg
        obtain ⟨hp₂, hs₂⟩ := ih hL hds₁ hp₁
        exact ⟨hp₂, hs₁.trans hs₂⟩

/-- The argument `read_vdir` starts with. -/
def start (vd : Vdir) : FillArg := ⟨vd, fun _ => .init, fun _ => .init, 0, none, 0⟩

/-- A whole filling, whether it succeeds or not. -/
theorem fillVdir (h : FillKeeps hash sb D P) {f : DirFile} {vd : Vdir} {w : World}
    (hd : ∀ b hf, f.hfile b = some hf → ∀ d ∈ w.dirents hf.root hf.path, D b d)
    (hp : P (start vd) w) :
    ∃ res hfile arg w', fillVdir hash sb f vd w = (res, { f with hfile }, arg.vdir, w') ∧
      P arg w' ∧ w.SameFs w' := by
  have hp₁ := h.ask hp
  have hp₂ := h.ask hp₁
  have hs₁ : w.SameFs w.next := .ask w
  have hs₂ : w.SameFs w.next.next := hs₁.trans (.ask w.next)
  simp only [Aufs.fillVdir, World.ask]
  cases w.fault w.tick with
  | some e => exact ⟨_, f.hfile, start vd, _, rfl, hp₁, hs₁⟩
  | none =>
    simp only
    cases w.next.fault w.next.tick with
    | some e => exact ⟨_, f.hfile, start vd, _, rfl, hp₂, hs₂⟩
    | none =>
      have hnodup : (bindexes f.fbstart f.fbend).Nodup :=
        (bindexes_sorted _ _).imp fun hlt => ne_of_lt hlt
      obtain ⟨h₁, h₂⟩ := h.readBranches hnodup
        (fun b _ hf hb => by rw [hs₂.dirents]; exact hd b hf hb) hp₂
      exact ⟨_, _, _, _, rfl, h₁, hs₂.trans h₂⟩

end FillKeeps

-- ---------------------------------------------------------------------------
-- Blocks
-- ---------------------------------------------------------------------------

theorem le_calcSize (n : Nat) : 16 ≤ calcSize n := by
  simp only [calcSize]
  split <;> omega

theorem calcSize_le {n : Nat} (h : n ≤ nameMax) : calcSize n ≤ deblkSize := by
  simp only [nameMax] at h
  simp only [calcSize, deblkSize]
  split <;> omega

/-- The bytes that the entries of a block take. -/
def Deblk.used (b : Deblk) : Nat := (b.map fun de => calcSize de.str.length).sum

@[simp] theorem Deblk.used_nil : Deblk.used [] = 0 := rfl

@[simp] theorem Deblk.used_cons (de : De) (b : Deblk) :
    Deblk.used (de :: b) = calcSize de.str.length + Deblk.used b := by
  rw [used, List.map_cons, List.sum_cons]
  rfl

@[simp] theorem Deblk.used_append (b c : Deblk) :
    Deblk.used (b ++ c) = Deblk.used b + Deblk.used c := by
  rw [used, List.map_append, List.sum_append]
  rfl

namespace Vdir

/-- No block runs over, and no entry looks like an end mark, which is an empty name. -/
structure Blocks (vd : Vdir) : Prop where
  ne : vd.deblk ≠ []
  fits : ∀ b ∈ vd.deblk, Deblk.used b ≤ deblkSize
  named : ∀ b ∈ vd.deblk, ∀ de ∈ b, de.str ≠ []

theorem Blocks.of_deblk {vd vd' : Vdir} (h : vd.Blocks) (hd : vd'.deblk = vd.deblk) : vd'.Blocks :=
  ⟨by rw [hd]; exact h.ne, by rw [hd]; exact h.fits, by rw [hd]; exact h.named⟩

/-- While a `vdir` is filled, `vd_last` is the end of the last block. -/
structure AtEnd (vd : Vdir) : Prop extends Blocks vd where
  lastI : vd.lastI + 1 = vd.deblk.length
  lastP : vd.lastP = Deblk.used (vd.deblk.getLast?.getD [])

theorem atEnd_empty {vd : Vdir} (h : vd.deblk = [[]]) (hi : vd.lastI = 0) (hp : vd.lastP = 0) :
    vd.AtEnd where
  ne := by rw [h]; exact List.cons_ne_nil _ _
  fits := by simp [h]
  named := by simp [h]
  lastI := by rw [h, hi]; rfl
  lastP := by rw [h, hp]; rfl

theorem AtEnd.appendDeblk {vd vd' : Vdir} {w w' : World} (h : vd.AtEnd)
    (ha : vd.appendDeblk w = (.ok vd', w')) : vd'.AtEnd ∧ vd'.lastP = 0 := by
  unfold Vdir.appendDeblk at ha
  split at ha
  · cases ha
  · simp only [Prod.mk.injEq, Except.ok.injEq] at ha
    obtain ⟨rfl, -⟩ := ha
    refine ⟨⟨⟨by simp, ?_, ?_⟩, by simp, by simp⟩, rfl⟩
    · simp only [List.mem_append, List.mem_singleton]
      rintro b (hb | rfl)
      · exact h.fits b hb
      · exact Nat.zero_le _
    · simp only [List.mem_append, List.mem_singleton]
      rintro b (hb | rfl)
      · exact h.named b hb
      · nofun

theorem AtEnd.lastP_le {vd : Vdir} (h : vd.AtEnd) : vd.lastP ≤ deblkSize := by
  rw [h.lastP, List.getLast?_eq_some_getLast h.ne]
  exact h.fits _ (List.getLast_mem h.ne)

theorem AtEnd.push {vd : Vdir} (h : vd.AtEnd) {de : De} (hname : de.str ≠ [])
    (hroom : vd.lastP + calcSize de.str.length ≤ deblkSize) : (vd.push de).AtEnd := by
  obtain ⟨bs, b, hbs⟩ : ∃ bs b, vd.deblk = bs ++ [b] :=
    ⟨_, _, (List.dropLast_append_getLast h.ne).symm⟩
  have hlast : vd.deblk.getLast?.getD [] = b := by rw [hbs, List.getLast?_concat]; rfl
  have hp := h.lastP
  rw [hlast] at hp
  have hdeblk : (vd.push de).deblk = bs ++ [b ++ [de]] := by
    simp only [Vdir.push, hlast]
    rw [hbs, List.dropLast_concat]
  have hmem : b ∈ vd.deblk := by rw [hbs]; exact List.mem_append_right _ (List.mem_singleton_self b)
  have hmem' : ∀ c ∈ bs, c ∈ vd.deblk := fun c hc => by rw [hbs]; exact List.mem_append_left _ hc
  refine ⟨⟨?_, ?_, ?_⟩, ?_, ?_⟩
  · rw [hdeblk]
    simp
  · rw [hdeblk]
    simp only [List.mem_append, List.mem_singleton]
    rintro c (hc | rfl)
    · exact h.fits c (hmem' c hc)
    · rw [Deblk.used_append, Deblk.used_cons, Deblk.used_nil]
      omega
  · rw [hdeblk]
    simp only [List.mem_append, List.mem_singleton]
    rintro c (hc | rfl) e he
    · exact h.named c (hmem' c hc) e he
    · rcases List.mem_append.mp he with he | he
      · exact h.named b hmem e he
      · rwa [List.mem_singleton.mp he]
  · have := h.lastI
    rw [hdeblk]
    rw [hbs] at this
    simpa [Vdir.push] using this
  · rw [hdeblk, List.getLast?_concat, Option.getD_some, Deblk.used_append, ← hp]
    rfl

end Vdir

theorem appendDe_atEnd {vd : Vdir} {dl : Nhash Name} {de : De} {w : World} (h : vd.AtEnd)
    (hname : de.str ≠ []) (hlen : de.str.length ≤ nameMax) :
    (appendDe hash vd dl de w).2.1.AtEnd := by
  have hsize := calcSize_le hlen
  have hroom : ∀ {vd₁ w₁}, (if calcSize de.str.length > deblkSize - vd.lastP then vd.appendDeblk w
      else (.ok vd, w)) = (.ok vd₁, w₁) →
      vd₁.AtEnd ∧ vd₁.lastP + calcSize de.str.length ≤ deblkSize := by
    intro vd₁ w₁ h₁
    split at h₁
    · obtain ⟨ha, hz⟩ := h.appendDeblk h₁
      exact ⟨ha, by omega⟩
    · obtain ⟨he, -⟩ := Prod.mk.inj h₁
      obtain rfl := Except.ok.inj he
      have := h.lastP_le
      exact ⟨h, by omega⟩
  unfold appendDe
  split
  · exact h
  · rename_i vd₁ w₁ h₁
    obtain ⟨hend, hfit⟩ := hroom h₁
    split
    · exact hend
    · dsimp only
      split
      · exact hend.push hname hfit
      · split
        · exact hend.push hname hfit
        · exact ((hend.push hname hfit).appendDeblk ‹_›).1

/-- The names that lower directories deliver are those of files. -/
def Named (_ : Int) (d : Dirent) : Prop := d.name ≠ [] ∧ d.name.length ≤ nameMax

theorem named_dirents (b : Int) {w : World} {root : Nat} {p : Path} {d : Dirent}
    (hd : d ∈ w.dirents root p) : Named b d := by
  have hmem : d.name ∈ (w.dirents root p).map Dirent.name := List.mem_map_of_mem hd
  by_cases h₁ : d.name = dot
  · rw [Named, h₁]
    decide
  by_cases h₂ : d.name = dotdot
  · rw [Named, h₂]
    decide
  have hv := (w.fs root).validName_of_node ((w.mem_dirents h₁ h₂).mp hmem)
  exact ⟨hv.1, hv.2.2.2⟩

/-- Every call of `fillvdir` keeps the blocks. -/
theorem fillKeeps_atEnd (hash : Name → Nat) (sb : SuperBlock) :
    FillKeeps hash sb Named fun arg _ => arg.vdir.AtEnd where
  ask h := h
  reset h := h
  branch _ h := h
  entry := by
    intro arg w d h hd
    have hjiffy : ∀ (vd : Vdir) (j : Nat), vd.AtEnd → ({ vd with jiffy := j } : Vdir).AtEnd :=
      fun vd j h => ⟨⟨h.ne, h.fits, h.named⟩, h.lastI, h.lastP⟩
    unfold fillvdir
    dsimp only
    split
    · split
      · exact hjiffy _ _ h
      · split
        · exact h
        · have happ : ∀ ino w', (appendDe hash arg.vdir (arg.delist arg.bindex)
              ⟨ino, d.type, d.name⟩ w').2.1.AtEnd := fun ino w' => appendDe_atEnd h hd.1 hd.2
          split
          · exact hjiffy _ _ (happ _ _)
          · exact happ _ _
    · split
      · exact hjiffy _ _ h
      · split
        · exact h
        · exact hjiffy _ _ h

-- ---------------------------------------------------------------------------
-- The vdir of the inode
-- ---------------------------------------------------------------------------

/-- The shared `vdir` of a directory, if there is one, has good blocks. -/
def DirInode.Packed (ino : DirInode) : Prop := ∀ vd, ino.vdir = some vd → vd.Blocks

theorem Vdir.alloc_empty {vd : Vdir} {w w' : World} (h : Vdir.alloc w = (.ok vd, w')) :
    vd.deblk = [[]] ∧ vd.lastI = 0 ∧ vd.lastP = 0 := by
  unfold Vdir.alloc Vdir.appendDeblk at h
  split at h
  · cases h
  · split at h
    · cases h
    · simp only [Prod.mk.injEq, Except.ok.injEq] at h
      obtain ⟨rfl, -⟩ := h
      exact ⟨rfl, rfl, rfl⟩

/-- `read_vdir` leaves a good `vdir`, whose version is that of the inode when it may read and
succeeds, and touches nothing of the stream but its hidden directories. -/
theorem readVdir_packed {mayRead : Bool} {ino ino' : DirInode} {f f' : DirFile} {w w' : World}
    {res : Except Errno Unit} (h : ino.Packed)
    (hr : readVdir hash sb mayRead ino f w = (res, ino', f', w')) :
    ino'.Packed ∧ ino'.version = ino.version ∧ (∃ hfile, f' = { f with hfile }) ∧
      (res = .ok () → mayRead = true → ∃ vd, ino'.vdir = some vd ∧ vd.version = ino'.version) := by
  -- a filling from an empty vdir
  have hfill : ∀ (vd : Vdir) (w : World), vd.deblk = [[]] → vd.lastI = 0 → vd.lastP = 0 →
      ∃ res hfile vd' w', fillVdir hash sb f vd w = (res, { f with hfile }, vd', w') ∧ vd'.Blocks := by
    intro vd w hb hi hp
    obtain ⟨res, hfile, arg, w', he, ha, -⟩ := (fillKeeps_atEnd hash sb).fillVdir (f := f) (w := w)
      (fun b _ _ d hd => named_dirents b hd) (Vdir.atEnd_empty hb hi hp)
    exact ⟨res, hfile, arg.vdir, w', he, ha.toBlocks⟩
  have hsome : ∀ (v : Nat) (vd : Vdir), vd.Blocks → DirInode.Packed ⟨v, some vd⟩ := by
    intro v vd hvd vd' he
    obtain rfl := Option.some.inj he
    exact hvd
  have hset : ∀ (vd : Vdir) (v : Nat), vd.Blocks →
      ({ vd with version := v, lastI := 0, lastP := 0 } : Vdir).Blocks :=
    fun vd v hvd => ⟨hvd.ne, hvd.fits, hvd.named⟩
  unfold readVdir at hr
  cases hplan : vdirPlan sb mayRead ino w with
  | serve =>
    simp only [hplan, Prod.mk.injEq] at hr
    obtain ⟨-, rfl, rfl, -⟩ := hr
    refine ⟨h, rfl, ⟨f.hfile, rfl⟩, fun _ hread => ?_⟩
    unfold vdirPlan at hplan
    cases hvd : ino.vdir with
    | none => simp only [hvd] at hplan; cases hplan
    | some vd =>
      simp only [hvd, hread, Bool.true_and, Bool.or_eq_true, decide_eq_true_eq] at hplan
      refine ⟨vd, rfl, ?_⟩
      by_contra hne
      rw [if_pos (.inl (Ne.symm hne))] at hplan
      cases hplan
  | again vd =>
    have hvd : vd.deblk = [[]] ∧ vd.lastI = 0 ∧ vd.lastP = 0 := by
      unfold vdirPlan at hplan
      split at hplan
      · cases hplan
      · split at hplan
        · cases hplan
          exact ⟨rfl, rfl, rfl⟩
        · cases hplan
    obtain ⟨res₁, hfile, vd', w₁, he, hb⟩ := hfill vd w hvd.1 hvd.2.1 hvd.2.2
    simp only [hplan, he] at hr
    cases res₁ with
    | error e =>
      simp only [Prod.mk.injEq] at hr
      obtain ⟨rfl, rfl, rfl, -⟩ := hr
      exact ⟨hsome _ _ hb, rfl, ⟨hfile, rfl⟩, fun hok => nomatch hok⟩
    | ok u =>
      simp only [Prod.mk.injEq] at hr
      obtain ⟨-, rfl, rfl, -⟩ := hr
      exact ⟨hsome _ _ (hset _ _ hb), rfl, ⟨hfile, rfl⟩, fun _ _ => ⟨_, rfl, rfl⟩⟩
  | new =>
    cases ha : Vdir.alloc w with
    | mk res₁ w₁ =>
      cases res₁ with
      | error e =>
        simp only [hplan, ha, Prod.mk.injEq] at hr
        obtain ⟨rfl, rfl, rfl, -⟩ := hr
        exact ⟨h, rfl, ⟨f.hfile, rfl⟩, fun hok => nomatch hok⟩
      | ok vd =>
        obtain ⟨hd, hi, hp⟩ := Vdir.alloc_empty ha
        obtain ⟨res₂, hfile, vd', w₂, he, hb⟩ := hfill vd w₁ hd hi hp
        simp only [hplan, ha, he] at hr
        cases res₂ with
        | error e =>
          simp only [Prod.mk.injEq] at hr
          obtain ⟨rfl, rfl, rfl, -⟩ := hr
          exact ⟨h, rfl, ⟨hfile, rfl⟩, fun hok => nomatch hok⟩
        | ok u =>
          simp only [Prod.mk.injEq] at hr
          obtain ⟨-, rfl, rfl, -⟩ := hr
          exact ⟨hsome _ _ (hset _ _ hb), rfl, ⟨hfile, rfl⟩, fun _ _ => ⟨_, rfl, rfl⟩⟩

end Aufs
