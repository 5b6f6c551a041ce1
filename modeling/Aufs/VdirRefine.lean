-- SUMMARY: The blocks in memory and the blocks of a listing: alloc, append_de, reinit and copy do the same to both (vdir.c).
import Aufs.VdirCopy

/-!
# Blocks in memory and blocks of a listing

The listing of a directory is made of blocks that are lists of entries. Here each operation
on a `vdir` in memory is shown to do to the bytes what the same operation does to these
lists: whatever allocation fails in memory, the listing's operation fails in the same place.
-/

namespace Aufs

/-- The `DT_*` number of a type. -/
def FType.dt : FType → Nat
  | .fifo => 1
  | .chr => 2
  | .dir => 4
  | .blk => 6
  | .reg => 8
  | .lnk => 10
  | .sock => 12

/-- The entry as it is stored. -/
def De.raw (de : De) : RawDe := ⟨de.ino, de.type.dt, de.str⟩

/-- The next calls have these results. -/
def World.Answers (w : World) : List (Option Errno) → Prop
  | [] => True
  | f :: fs => w.fault w.tick = f ∧ w.next.Answers fs

/-- The memory holds what the listing says. -/
structure VdirMem.Shows (v : VdirMem) (m : Kmem) (vd : Vdir) : Prop where
  ends : v.Ends m (vd.deblk.map (List.map De.raw))
  lastI : v.lastI = vd.lastI
  lastP : v.lastP.2 = vd.lastP
  version : v.version = vd.version
  jiffy : v.jiffy = vd.jiffy

namespace VdirMem

variable {e : KmallocEnv} {v v' : VdirMem} {m m' : Kmem} {vd : Vdir} {w : World}

-- ---------------------------------------------------------------------------
-- A further block
-- ---------------------------------------------------------------------------

theorem ask_none (h : w.fault w.tick = none) : w.ask = (none, w.next) := by
  rw [World.ask, h]

theorem ask_some {err : Errno} (h : w.fault w.tick = some err) : w.ask = (some err, w.next) := by
  rw [World.ask, h]

/-- `vd_last` is in the last block. -/
theorem Ends.lastI_succ {blocks : List (List RawDe)} (h : v.Ends m blocks) : v.lastI + 1 = blocks.length := by
  obtain ⟨ids, a, done, last, hblocks, hstored, hlast⟩ := h.ends
  rw [hlast.lastI, ← hstored.blocks.length_eq, List.length_append, List.length_singleton]

theorem Shows.appendDeblk_ok (h : v.Shows m vd) (hrun : v.appendDeblk e m = (.ok (), v', m'))
    (hask : w.fault w.tick = none) :
    ∃ vd', vd.appendDeblk w = (.ok vd', w.next) ∧ v'.Shows m' vd' := by
  obtain ⟨hends, hzero, -⟩ := h.ends.appendDeblk_ok hrun
  obtain ⟨hversion, hjiffy⟩ := appendDeblk_version e v m
  rw [hrun] at hversion hjiffy
  refine ⟨{ vd with deblk := vd.deblk ++ [[]], lastI := vd.deblk.length, lastP := 0 }, ?_, ?_, ?_, hzero,
    hversion.trans h.version, hjiffy.trans h.jiffy⟩
  · rw [Vdir.appendDeblk, ask_none hask]
  · rw [List.map_append]
    exact hends
  · have hsucc := hends.lastI_succ
    rw [List.length_append, List.length_map, List.length_singleton] at hsucc
    exact Nat.succ_injective hsucc

theorem Shows.appendDeblk_error (h : v.Shows m vd) {err : Errno} (hrun : v.appendDeblk e m = (.error err, v', m'))
    (hask : w.fault w.tick = some .ENOMEM) :
    vd.appendDeblk w = (.error err, w.next) ∧ v'.Shows m' vd := by
  obtain ⟨rfl, hends, hlastP, -⟩ := h.ends.appendDeblk_error hrun
  obtain ⟨hversion, hjiffy⟩ := appendDeblk_version e v m
  rw [hrun] at hversion hjiffy
  refine ⟨by rw [Vdir.appendDeblk, ask_some hask], hends, ?_, by rw [hlastP, h.lastP], hversion.trans h.version,
    hjiffy.trans h.jiffy⟩
  have hsucc := hends.lastI_succ
  have hold := h.ends.lastI_succ
  rw [← h.lastI]
  omega

-- ---------------------------------------------------------------------------
-- An entry
-- ---------------------------------------------------------------------------

theorem map_push (vd : Vdir) (hne : vd.deblk ≠ []) (de : De) :
    (vd.push de).deblk.map (List.map De.raw) = putLast (vd.deblk.map (List.map De.raw)) de.raw := by
  obtain ⟨bs, b, hbs⟩ : ∃ bs b, vd.deblk = bs ++ [b] := ⟨_, _, (List.dropLast_append_getLast hne).symm⟩
  have hpush : (vd.push de).deblk = bs ++ [b ++ [de]] := by
    unfold Vdir.push
    dsimp only
    rw [hbs, List.dropLast_concat, List.getLast?_concat, Option.getD_some]
  rw [hpush, hbs, List.map_append, List.map_append, List.map_singleton, List.map_singleton, putLast_append,
    List.map_append, List.map_singleton]

/-- Making room for an entry does the same to both. -/
theorem Shows.makeRoom (h : v.Shows m vd) {de : De} {r : Except Errno Unit}
    (hrun : (if calcSize de.str.length > deblkSize - v.lastP.2 then v.appendDeblk e m else (.ok (), v, m)) =
      (r, v', m')) :
    ∃ answers, ∀ w : World, ∀ rest, w.Answers (answers ++ rest) → ∃ w', w'.Answers rest ∧
      ((∃ vd', (if calcSize de.str.length > deblkSize - vd.lastP then vd.appendDeblk w else (.ok vd, w)) =
            (.ok vd', w') ∧
          r = .ok () ∧ v'.Shows m' vd') ∨
        ∃ err, (if calcSize de.str.length > deblkSize - vd.lastP then vd.appendDeblk w else (.ok vd, w)) =
          (.error err, w') ∧
          r = .error err ∧ v'.Shows m' vd) := by
  rw [h.lastP] at hrun
  split at hrun
  next hfull =>
    cases r with
    | ok u =>
      refine ⟨[none], fun w rest hw => ⟨w.next, hw.2, .inl ?_⟩⟩
      obtain ⟨vd', happ, hshows⟩ := h.appendDeblk_ok hrun hw.1
      exact ⟨vd', by rw [if_pos hfull, happ], rfl, hshows⟩
    | error err =>
      refine ⟨[some .ENOMEM], fun w rest hw => ⟨w.next, hw.2, .inr ?_⟩⟩
      obtain ⟨happ, hshows⟩ := h.appendDeblk_error hrun hw.1
      exact ⟨err, by rw [if_pos hfull, happ], rfl, hshows⟩
  next hfull =>
    cases hrun
    exact ⟨[], fun w rest hrest => ⟨w, hrest, .inl ⟨vd, by rw [if_neg hfull], rfl, h⟩⟩⟩

variable {hash : Name → Nat} {delist delist' : Nhash (Nat × Nat)} {de : De}

theorem Shows.of_heap (h : v.Shows m vd) (hheap : m'.heap = m.heap) : v.Shows m' vd :=
  ⟨h.ends.of_heap hheap, h.lastI, h.lastP, h.version, h.jiffy⟩

theorem Shows.ne_nil (h : v.Shows m vd) : vd.deblk ≠ [] := fun hnil => h.ends.ne_nil (by rw [hnil]; rfl)

/-- `append_de` of a listing when the end mark fits. -/
theorem appendDe_marked {vd₁ : Vdir} {w' : World} {dl : Nhash Name}
    (hmake : (if calcSize de.str.length > deblkSize - vd.lastP then vd.appendDeblk w else (.ok vd, w)) =
      (.ok vd₁, w'))
    (hask : w'.fault w'.tick = none) (hmark : calcSize 0 ≤ deblkSize - (vd₁.push de).lastP) :
    Aufs.appendDe hash vd dl de w = (.ok (), vd₁.push de, dl.add hash de.str de.str, w'.next) := by
  unfold Aufs.appendDe
  rw [hmake]
  dsimp only
  rw [ask_none hask]
  exact if_pos hmark

/-- `append_de` of a listing when the next block is opened behind the entry. -/
theorem appendDe_unmarked {vd₁ : Vdir} {w' w'' : World} {dl : Nhash Name} {r : Except Errno Vdir}
    (hmake : (if calcSize de.str.length > deblkSize - vd.lastP then vd.appendDeblk w else (.ok vd, w)) =
      (.ok vd₁, w'))
    (hask : w'.fault w'.tick = none) (hmark : ¬ calcSize 0 ≤ deblkSize - (vd₁.push de).lastP)
    (happ : (vd₁.push de).appendDeblk w'.next = (r, w'')) :
    (∀ err, r = .error err →
      Aufs.appendDe hash vd dl de w = (.error err, vd₁.push de, dl.add hash de.str de.str, w'')) ∧
    ∀ vd₂, r = .ok vd₂ → Aufs.appendDe hash vd dl de w = (.ok (), vd₂, dl.add hash de.str de.str, w'') := by
  unfold Aufs.appendDe
  rw [hmake]
  dsimp only
  rw [ask_none hask]
  dsimp only
  rw [if_neg hmark, happ]
  constructor
  · intro err hr
    rw [hr]
  · intro vd₂ hr
    rw [hr]

/-- An entry is put behind the others of both, and there is room for an end mark in both. -/
theorem Shows.put (h : v.Shows m vd) (hfits : de.raw.Fits)
    (hroom : v.lastP.2 + calcSize de.raw.str.length ≤ deblkSize) :
    ∃ m₂, { v with lastP := (v.lastP.1, v.lastP.2 + calcSize de.raw.str.length) }.Shows m₂ (vd.push de) ∧
      (calcSize 0 ≤ deblkSize - (vd.push de).lastP ∧
          (m.write v.lastP.1 v.lastP.2 de.raw.bytes).setDeblkEnd (v.lastP.1, v.lastP.2 + calcSize de.raw.str.length) =
            some m₂ ∨
        ¬ calcSize 0 ≤ deblkSize - (vd.push de).lastP ∧
          (m.write v.lastP.1 v.lastP.2 de.raw.bytes).setDeblkEnd
            (v.lastP.1, v.lastP.2 + calcSize de.raw.str.length) = none ∧
          m₂ = m.write v.lastP.1 v.lastP.2 de.raw.bytes) := by
  obtain ⟨m₂, hends, -, hmark⟩ := h.ends.put hfits hroom
  have hlastP : (vd.push de).lastP = v.lastP.2 + calcSize de.raw.str.length := by
    rw [h.lastP]
    rfl
  refine ⟨m₂, ⟨?_, h.lastI, hlastP.symm, h.version, h.jiffy⟩, ?_⟩
  · rw [map_push vd h.ne_nil de]
    exact hends
  · rw [hlastP]
    exact hmark

/-- `append_de` does the same to the bytes and to the listing. -/
theorem Shows.appendDe (h : v.Shows m vd) (hfits : de.raw.Fits) {r : Except Errno Unit}
    (hrun : v.appendDe hash e delist de.raw m = (r, v', delist', m')) (dl : Nhash Name) :
    ∃ answers, ∀ w : World, w.Answers answers → ∃ vd' dl' w',
      Aufs.appendDe hash vd dl de w = (r, vd', dl', w') ∧ v'.Shows m' vd' := by
  unfold VdirMem.appendDe putDe at hrun
  generalize hroom : (if calcSize de.raw.str.length > deblkSize - v.lastP.2 then v.appendDeblk e m
    else (.ok (), v, m)) = x at hrun
  obtain ⟨r₁, v₁, m₁⟩ := x
  obtain ⟨-, -, -, hfit⟩ := h.ends.makeRoom hfits hroom
  obtain ⟨pre, hpre⟩ := @Shows.makeRoom e v v₁ m m₁ vd h de r₁ hroom
  cases r₁ with
  | error err =>
    cases hrun
    refine ⟨pre, fun w hw => ?_⟩
    obtain ⟨w', -, ⟨vd', -, hok, -⟩ | ⟨err', hmake, herr, hshows⟩⟩ := hpre w [] (by rwa [List.append_nil])
    · cases hok
    · cases herr
      refine ⟨vd, dl, w', ?_, hshows⟩
      unfold Aufs.appendDe
      rw [hmake]
  | ok u =>
    dsimp only at hrun
    have hheap : (m₁.ask e).2.heap = m₁.heap := rfl
    rcases hasked : m₁.ask e with ⟨_ | _, m₂⟩
    · rw [hasked] at hrun hheap
      dsimp only at hrun
      cases hset : (m₂.write v₁.lastP.1 v₁.lastP.2 de.raw.bytes).setDeblkEnd
          (v₁.lastP.1, v₁.lastP.2 + calcSize de.raw.str.length) with
      | some m₃ =>
        rw [hset] at hrun
        cases hrun
        refine ⟨pre ++ [none], fun w hw => ?_⟩
        obtain ⟨w', ⟨hask, -⟩, ⟨vd₁, hmake, -, hshows⟩ | ⟨err', -, herr, -⟩⟩ := hpre w _ hw
        · obtain ⟨m₄, hshows', ⟨hmark, hset'⟩ | ⟨-, hset', -⟩⟩ := (hshows.of_heap hheap).put hfits (hfit rfl)
          · cases hset.symm.trans hset'
            exact ⟨vd₁.push de, dl.add hash de.str de.str, w'.next, appendDe_marked hmake hask hmark, hshows'⟩
          · cases hset.symm.trans hset'
        · cases herr
      | none =>
        rw [hset] at hrun
        dsimp only at hrun
        rcases happ : appendDeblk e { v₁ with lastP := (v₁.lastP.1, v₁.lastP.2 + calcSize de.raw.str.length) }
            (m₂.write v₁.lastP.1 v₁.lastP.2 de.raw.bytes) with ⟨err | u, v₂, m₃⟩
        · rw [happ] at hrun
          cases hrun
          refine ⟨pre ++ [none, some .ENOMEM], fun w hw => ?_⟩
          obtain ⟨w', ⟨hask, hask', -⟩, ⟨vd₁, hmake, -, hshows⟩ | ⟨err', -, herr, -⟩⟩ := hpre w _ hw
          · obtain ⟨m₄, hshows', ⟨-, hset'⟩ | ⟨hmark, -, rfl⟩⟩ := (hshows.of_heap hheap).put hfits (hfit rfl)
            · cases hset.symm.trans hset'
            · obtain ⟨happ', hshows''⟩ := hshows'.appendDeblk_error happ hask'
              exact ⟨vd₁.push de, dl.add hash de.str de.str, w'.next.next,
                (appendDe_unmarked hmake hask hmark happ').1 err rfl, hshows''⟩
          · cases herr
        · rw [happ] at hrun
          cases hrun
          refine ⟨pre ++ [none, none], fun w hw => ?_⟩
          obtain ⟨w', ⟨hask, hask', -⟩, ⟨vd₁, hmake, -, hshows⟩ | ⟨err', -, herr, -⟩⟩ := hpre w _ hw
          · obtain ⟨m₄, hshows', ⟨-, hset'⟩ | ⟨hmark, -, rfl⟩⟩ := (hshows.of_heap hheap).put hfits (hfit rfl)
            · cases hset.symm.trans hset'
            · obtain ⟨vd₂, happ', hshows''⟩ := hshows'.appendDeblk_ok happ hask'
              exact ⟨vd₂, dl.add hash de.str de.str, w'.next.next,
                (appendDe_unmarked hmake hask hmark happ').2 vd₂ rfl, hshows''⟩
          · cases herr
    · rw [hasked] at hrun hheap
      cases hrun
      refine ⟨pre ++ [some .ENOMEM], fun w hw => ?_⟩
      obtain ⟨w', ⟨hask, -⟩, ⟨vd', hmake, -, hshows⟩ | ⟨err', -, herr, -⟩⟩ := hpre w _ hw
      · refine ⟨vd', dl, w'.next, ?_, hshows.of_heap hheap⟩
        unfold Aufs.appendDe
        rw [hmake]
        dsimp only
        rw [ask_some hask]
      · cases herr

-- ---------------------------------------------------------------------------
-- Whole vdirs
-- ---------------------------------------------------------------------------

/-- An empty `vdir` in memory shows the empty listing. -/
theorem Empty.shows {a : Nat} (h : v.Empty m a) : v.Shows m ⟨[[]], 0, 0, 0, 0⟩ :=
  ⟨⟨[], a, [], [], rfl, h.stored, h.last⟩, h.last.lastI, by rw [h.lastP], h.version, h.jiffy⟩

/-- `alloc_vdir` does the same to both. -/
theorem alloc_shows (hrun : VdirMem.alloc e m = (.ok v, m')) (hask : w.fault w.tick = none)
    (hask' : w.next.fault w.next.tick = none) : ∃ vd, Vdir.alloc w = (.ok vd, w.next.next) ∧ v.Shows m' vd := by
  obtain ⟨⟨a, hempty⟩, -⟩ := alloc_empty hrun
  refine ⟨_, ?_, hempty.shows⟩
  rw [Vdir.alloc, ask_none hask]
  dsimp only
  rw [Vdir.appendDeblk, ask_none hask']
  rfl

/-- The blocks of a listing, wherever `vd_last` is. -/
structure ShowsBlocks (v : VdirMem) (m : Kmem) (vd : Vdir) : Prop where
  stored : ∃ ids, v.Stored m ids (vd.deblk.map (List.map De.raw))
  version : v.version = vd.version
  jiffy : v.jiffy = vd.jiffy

theorem Shows.blocks (h : v.Shows m vd) : v.ShowsBlocks m vd := by
  obtain ⟨ids, a, done, last, -, hstored, -⟩ := h.ends.ends
  exact ⟨⟨_, hstored⟩, h.version, h.jiffy⟩

/-- `copy_vdir` does the same to both: the copy shows the listing of the source, or an empty one. -/
theorem copy_shows {tgt tgt' src : VdirMem} {vdt vds : Vdir} {sids : List Nat} {t : Nat} {des : List RawDe}
    (hsrc : src.Stored m sids (vds.deblk.map (List.map De.raw))) (hversion : src.version = vds.version)
    (hjiffy : src.jiffy = vds.jiffy) (hne : sids ≠ []) (htgt : tgt.Stored m [t] [des]) (hdisj : t ∉ sids)
    (harr : tgt.deblk ≠ src.deblk) {r : Except Errno Unit} (hrun : VdirMem.copy e tgt src m = (r, tgt', m')) :
    ∃ answers, ∀ w : World, w.Answers answers →
      ∃ vd', copyVdir vdt vds w = (r, vd', w.next) ∧ tgt'.ShowsBlocks m' vd' := by
  obtain ⟨hok, herror⟩ := copy_ends hsrc hne htgt hdisj harr hrun
  cases r with
  | ok u =>
    obtain ⟨-, ⟨new, hstored, -⟩, hversion', hjiffy'⟩ := hok rfl
    refine ⟨[none], fun w hw => ⟨{ vdt with deblk := vds.deblk, version := vds.version, jiffy := vds.jiffy }, ?_,
      ⟨⟨_, hstored⟩, hversion'.trans hversion, hjiffy'.trans hjiffy⟩⟩⟩
    rw [copyVdir, ask_none hw.1]
  | error err =>
    obtain ⟨rfl, -, hempty, -⟩ := herror err rfl
    refine ⟨[some .ENOMEM], fun w hw => ⟨vdt.reinit, ?_, hempty.shows.blocks⟩⟩
    rw [copyVdir, ask_some hw.1]

end VdirMem

end Aufs
