-- SUMMARY: What the calls of an operation do to the files below: one rule for each call, for both ways it may end.
import Aufs.Whout
import Aufs.Lookup

/-!
# Rules for the calls

Every call on the lower file systems either fails and leaves all files as they
are, or changes the tree as its name says. A failing call is counted.
-/

namespace Aufs

open Prog Op

/-- The inode at a path of a mounted file system. -/
def World.node (w : World) (root : Nat) (p : Path) : Option HInode := (w.fs root).node p

/-- The one path at which `w'` differs from `w`, and what it has there. -/
def World.Sets (w w' : World) (root : Nat) (p : Path) (v : Option HInode) : Prop :=
  ∀ r q, w'.node r q = if r = root ∧ q = p then v else w.node r q

theorem World.node_congr {w w' : World} (h : w'.fs = w.fs) : w'.node = w.node := by
  funext r p
  rw [World.node, World.node, h]

theorem World.node_update (w : World) (root : Nat) (f : LowerFs) (r : Nat) (q : Path) :
    World.node { w with fs := Function.update w.fs root f } r q = if r = root then f.node q else w.node r q := by
  by_cases h : r = root
  · subst h
    simp [World.node]
  · simp [World.node, h]

theorem World.sets_update {w : World} {root : Nat} {f : LowerFs} {p : Path} {v : Option HInode}
    (h : ∀ q, f.node q = if q = p then v else (w.fs root).node q) :
    w.Sets { w with fs := Function.update w.fs root f } root p v := by
  intro r q
  rw [World.node_update]
  by_cases hr : r = root
  · subst hr
    simp [h, World.node]
  · simp [hr]

theorem World.ask_fs (w : World) : w.ask.2.fs = w.fs := rfl

variable {α : Type} {m : Mount} {sb : SuperBlock}

/-- The mount after a call that failed. -/
def Mount.failed (m : Mount) (w : World) : Mount := { m with w, fails := m.fails + 1 }

@[simp] theorem Mount.failed_w (m : Mount) (w : World) : (m.failed w).w = w := rfl

@[simp] theorem Mount.failed_di (m : Mount) (w : World) : (m.failed w).di = m.di := rfl

@[simp] theorem Mount.failed_hi (m : Mount) (w : World) : (m.failed w).hi = m.hi := rfl

@[simp] theorem Mount.failed_fails (m : Mount) (w : World) : (m.failed w).fails = m.fails + 1 := rfl

section Rules

variable {Q : α → Mount → Prop} {E : Errno → Mount → Prop}

theorem wp_onWorld {f : World → Except Errno α × World}
    (hok : ∀ a w, f m.w = (.ok a, w) → Q a { m with w })
    (herr : ∀ e w, f m.w = (.error e, w) → E e (m.failed w)) : wp (onWorld f) Q E m := by
  unfold wp onWorld
  rcases h : f m.w with ⟨_ | _, w⟩
  · exact herr _ _ h
  · exact hok _ _ h

theorem wp_onDentry {p : Path} {f : Dinfo → Dinfo → World → Except Errno α × Dinfo × World}
    (hok : ∀ a d w, f (m.di (dParent p)) (m.di p) m.w = (.ok a, d, w) → Q a ({ m with w }.setDi p d))
    (herr : ∀ e d w, f (m.di (dParent p)) (m.di p) m.w = (.error e, d, w) → E e ((m.failed w).setDi p d)) :
    wp (onDentry p f) Q E m := by
  unfold wp onDentry
  rcases h : f (m.di (dParent p)) (m.di p) m.w with ⟨_ | _, d, w⟩
  · exact herr _ _ _ h
  · exact hok _ _ _ h

@[simp] theorem wp_dinfo {p : Path} {Q : Dinfo → Mount → Prop} : wp (dinfo p) Q E m ↔ Q (m.di p) m := Iff.rfl

@[simp] theorem wp_onDinfo {p : Path} {f : Dinfo → Dinfo} {Q : Unit → Mount → Prop} :
    wp (onDinfo p f) Q E m ↔ Q () (m.setDi p (f (m.di p))) := Iff.rfl

@[simp] theorem wp_refuse {e : Errno} : wp (refuse e) Q E m ↔ E e (m.failed m.w) := Iff.rfl

theorem wp_hDptrI {p : Path} {b : Int} {Q : HDentry → Mount → Prop}
    (hok : ∀ h, (m.di p).hDptrI b = some h → Q h m)
    (herr : (m.di p).hDptrI b = none → E .oops (m.failed m.w)) : wp (hDptrI p b) Q E m := by
  refine wp_bind.mpr (wp_dinfo.mpr ?_)
  cases h : (m.di p).hDptrI b with
  | none => exact herr h
  | some hd => exact hok hd h

theorem wp_inodeOf {h : HDentry} {Q : HInode → Mount → Prop}
    (hok : ∀ i, h.inode = some i → Q i m) (herr : h.inode = none → E .oops (m.failed m.w)) :
    wp (inodeOf h) Q E m := by
  unfold inodeOf
  cases hi : h.inode with
  | none => exact herr hi
  | some i => exact hok i hi

/-- A call that changes nothing. -/
theorem wp_mayFail {Q : Unit → Mount → Prop} (hok : ∀ w, w.fs = m.w.fs → Q () { m with w })
    (herr : ∀ e w, w.fs = m.w.fs → E e (m.failed w)) : wp mayFail Q E m := by
  refine wp_onWorld (fun _ w h => hok w ?_) (fun e w h => herr e w ?_)
  · split at h
    · simp at h
    · rename_i hask
      rw [← (Prod.mk.inj h).2, ← (Prod.mk.inj hask).2]
      rfl
  · split at h
    · rename_i hask
      rw [← (Prod.mk.inj h).2, ← (Prod.mk.inj hask).2]
      rfl
    · simp at h

theorem wp_kmalloc {Q : Unit → Mount → Prop} (hok : ∀ w, w.fs = m.w.fs → Q () { m with w })
    (herr : ∀ e w, w.fs = m.w.fs → E e (m.failed w)) : wp kmalloc Q E m := by
  refine wp_onWorld (fun _ w h => hok w ?_) (fun e w h => herr e w ?_)
  · split at h
    · simp at h
    · rename_i hask
      rw [← (Prod.mk.inj h).2, ← (Prod.mk.inj hask).2]
      rfl
  · split at h
    · rename_i hask
      rw [← (Prod.mk.inj h).2, ← (Prod.mk.inj hask).2]
      rfl
    · simp at h

theorem lkupOne_fs {w w' : World} {h : HDentry} {n : Name} {r : Except Errno HDentry}
    (hl : Aufs.lkupOne w h n = (r, w')) : w'.fs = w.fs := by
  unfold Aufs.lkupOne at hl
  split at hl
  · rename_i hask
    rw [← (Prod.mk.inj hl).2, ← (Prod.mk.inj hask).2]
    rfl
  · rename_i hask
    split at hl <;>
    · rw [← (Prod.mk.inj hl).2, ← (Prod.mk.inj hask).2]
      rfl

theorem wp_lkupOne {h : HDentry} {n : Name} {Q : HDentry → Mount → Prop}
    (hok : ∀ w, w.fs = m.w.fs → Q ⟨h.root, h.path ++ [n], m.w.node h.root (h.path ++ [n])⟩ { m with w })
    (herr : ∀ e w, w.fs = m.w.fs → E e (m.failed w)) : wp (Op.lkupOne h n) Q E m := by
  refine wp_onWorld (fun hd w hl => ?_) (fun e w hl => herr e w (lkupOne_fs hl))
  obtain ⟨rfl, -⟩ := lkupOne_ok hl
  exact hok w (lkupOne_fs hl)

-- ---------------------------------------------------------------------------
-- Calls that change a tree
-- ---------------------------------------------------------------------------

theorem call_error {w w' : World} {root : Nat} {op : LowerFs → Except Errno LowerFs} {e : Errno}
    (h : w.call root op = (.error e, w')) : w'.fs = w.fs := by
  unfold World.call at h
  split at h
  · rename_i hask
    rw [← (Prod.mk.inj h).2, ← (Prod.mk.inj hask).2]
    rfl
  · rename_i hask
    split at h
    · rw [← (Prod.mk.inj h).2, ← (Prod.mk.inj hask).2]
      rfl
    · simp at h

theorem call_ok {w w' : World} {root : Nat} {op : LowerFs → Except Errno LowerFs}
    (h : w.call root op = (.ok (), w')) :
    ∃ f, op (w.fs root) = .ok f ∧ w'.fs = Function.update w.fs root f := by
  unfold World.call at h
  split at h
  · simp at h
  · rename_i hask
    obtain rfl := (Prod.mk.inj hask).2
    split at h
    · simp at h
    · rename_i f hf
      exact ⟨f, hf, by rw [← (Prod.mk.inj h).2]; rfl⟩

theorem sets_of_fs {w w' : World} {root : Nat} {f : LowerFs} {p : Path} {v : Option HInode}
    (hw : w'.fs = Function.update w.fs root f)
    (h : ∀ q, f.node q = if q = p then v else (w.fs root).node q) : w.Sets w' root p v := by
  intro r q
  rw [← World.sets_update h r q]
  simp only [World.node, hw]

variable {Q : Unit → Mount → Prop}

theorem wp_vfsubMake {h : HDentry} {mode : FType} {data : Nat}
    (hok : ∀ w i, m.w.node h.root h.path = none → (m.w.fs h.root).isDir h.path.dropLast → h.path ≠ [] →
      i.mode = mode → i.data = data → m.w.Sets w h.root h.path (some i) → Q () { m with w })
    (herr : ∀ e w, w.fs = m.w.fs → E e (m.failed w)) : wp (vfsubMake h mode data) Q E m := by
  refine wp_onWorld (fun _ w hc => ?_) (fun e w hc => herr e w (call_error hc))
  obtain ⟨f, hf, hw⟩ := call_ok hc
  obtain ⟨h1, h2, h3, h4⟩ := LowerFs.make_ok hf
  exact hok w _ h1 h2 h3 rfl rfl (sets_of_fs hw h4)

theorem wp_vfsubUnlink {h : HDentry}
    (hok : ∀ w i, m.w.node h.root h.path = some i → i.isDir = false →
      m.w.Sets w h.root h.path none → Q () { m with w })
    (herr : ∀ e w, w.fs = m.w.fs → E e (m.failed w)) : wp (vfsubUnlink h) Q E m := by
  refine wp_onWorld (fun _ w hc => ?_) (fun e w hc => herr e w (call_error hc))
  obtain ⟨f, hf, hw⟩ := call_ok hc
  obtain ⟨i, h1, h2, h3⟩ := LowerFs.unlink_ok hf
  exact hok w i h1 h2 (sets_of_fs hw h3)

theorem wp_vfsubRmdir {h : HDentry}
    (hok : ∀ w i, m.w.node h.root h.path = some i → i.isDir = true →
      (∀ n, m.w.node h.root (h.path ++ [n]) = none) → m.w.Sets w h.root h.path none → Q () { m with w })
    (herr : ∀ e w, w.fs = m.w.fs → E e (m.failed w)) : wp (vfsubRmdir h) Q E m := by
  refine wp_onWorld (fun _ w hc => ?_) (fun e w hc => herr e w (call_error hc))
  obtain ⟨f, hf, hw⟩ := call_ok hc
  obtain ⟨i, h1, h2, h3, h4, h5⟩ := LowerFs.rmdir_ok hf
  exact hok w i h1 h2 h4 (sets_of_fs hw h5)

theorem wp_vfsubLink {src h : HDentry}
    (hok : ∀ w i, src.root = h.root → m.w.node src.root src.path = some i → i.isDir = false →
      m.w.node h.root h.path = none → (m.w.fs h.root).isDir h.path.dropLast → h.path ≠ [] →
      m.w.Sets w h.root h.path (some i) → Q () { m with w })
    (herr : ∀ e w, w.fs = m.w.fs → E e (m.failed w)) : wp (vfsubLink src h) Q E m := by
  refine wp_onWorld (fun _ w hc => ?_) (fun e w hc => ?_)
  · split at hc
    · rename_i hroot
      obtain ⟨f, hf, hw⟩ := call_ok hc
      obtain ⟨i, h1, h2, h3, h4, h5, h6⟩ := LowerFs.link_ok hf
      exact hok w i hroot (by rw [hroot]; exact h1) h2 h3 h4 h5 (sets_of_fs hw h6)
    · simp at hc
  · split at hc
    · exact herr e w (call_error hc)
    · exact herr e w (by rw [← (Prod.mk.inj hc).2])

/-- What a rename leaves: nothing new, or the tree at `s` under the name `t`. -/
def World.Moves (w w' : World) (root : Nat) (s t : Path) : Prop :=
  ∃ i, w.node root s = some i ∧
    ((∃ j, w.node root t = some j ∧ j.ino = i.ino ∧ w'.fs = w.fs) ∨
      (¬ s <+: t ∧ ¬ t <+: s ∧ (w.fs root).isDir t.dropLast ∧
        (∀ j, w.node root t = some j → j.isDir = i.isDir ∧ ∀ n, w.node root (t ++ [n]) = none) ∧
        ∀ r q, w'.node r q =
          if r = root then
            if t <+: q then w.node root (s ++ q.drop t.length) else if s <+: q then none else w.node root q
          else w.node r q))

theorem wp_vfsubRename {src dst : HDentry}
    (hok : ∀ w, src.root = dst.root → m.w.Moves w dst.root src.path dst.path → Q () { m with w })
    (herr : ∀ e w, w.fs = m.w.fs → E e (m.failed w)) : wp (vfsubRename src dst) Q E m := by
  refine wp_onWorld (fun _ w hc => ?_) (fun e w hc => ?_)
  · split at hc
    · rename_i hroot
      obtain ⟨f, hf, hw⟩ := call_ok hc
      obtain ⟨i, h1, h2⟩ := LowerFs.rename_ok hf
      refine hok w hroot ⟨i, h1, h2.imp ?_ ?_⟩
      · rintro ⟨j, hj, hij, rfl⟩
        exact ⟨j, hj, hij, by rw [hw, Function.update_eq_self]⟩
      · rintro ⟨h3, h4, h5, h6, h7⟩
        refine ⟨h3, h4, h5, h6, fun r q => ?_⟩
        have : w.node r q = World.node { m.w with fs := Function.update m.w.fs dst.root f } r q := by
          simp only [World.node, hw]
        rw [this, World.node_update]
        split
        · exact h7 q
        · rfl
    · simp at hc
  · split at hc
    · exact herr e w (call_error hc)
    · exact herr e w (by rw [← (Prod.mk.inj hc).2])

-- ---------------------------------------------------------------------------
-- Whiteouts
-- ---------------------------------------------------------------------------

/-- The mount with another world and another count of failed calls. -/
def Mount.withWorld (m : Mount) (w : World) (k : Nat) : Mount := { m with w, fails := k }

@[simp] theorem Mount.withWorld_w (m : Mount) (w : World) (k : Nat) : (m.withWorld w k).w = w := rfl

@[simp] theorem Mount.withWorld_di (m : Mount) (w : World) (k : Nat) : (m.withWorld w k).di = m.di := rfl

@[simp] theorem Mount.withWorld_hi (m : Mount) (w : World) (k : Nat) : (m.withWorld w k).hi = m.hi := rfl

@[simp] theorem Mount.withWorld_fails (m : Mount) (w : World) (k : Nat) : (m.withWorld w k).fails = k := rfl

theorem allocWhname_ok {n wh : Name} {w w' : World} (h : allocWhname n w = (.ok wh, w')) :
    wh = whName n ∧ w'.fs = w.fs := by
  unfold allocWhname at h
  split at h
  · simp at h
  · split at h
    · simp at h
    · rename_i hask
      simp only [Prod.mk.injEq, Except.ok.injEq] at h
      rw [← h.1, ← h.2, ← (Prod.mk.inj hask).2]
      exact ⟨rfl, rfl⟩

theorem allocWhname_error {n : Name} {e : Errno} {w w' : World} (h : allocWhname n w = (.error e, w')) :
    w'.fs = w.fs := by
  unfold allocWhname at h
  split at h
  · rw [← (Prod.mk.inj h).2]
  · split at h
    · rename_i hask
      rw [← (Prod.mk.inj h).2, ← (Prod.mk.inj hask).2]
      rfl
    · simp at h

theorem wp_lkupWh {h : HDentry} {n : Name} {Q : HDentry → Mount → Prop}
    (hok : ∀ w, w.fs = m.w.fs →
      Q ⟨h.root, h.path ++ [whName n], m.w.node h.root (h.path ++ [whName n])⟩ { m with w })
    (herr : ∀ e w, w.fs = m.w.fs → E e (m.failed w)) : wp (lkupWh h n) Q E m := by
  refine wp_bind.mpr (wp_onWorld (fun wh w hal => ?_) fun e w hal => herr e w (allocWhname_error hal))
  obtain ⟨rfl, hw⟩ := allocWhname_ok hal
  refine wp_lkupOne (fun w' hw' => ?_) fun e w' hw' => herr e w' (hw'.trans hw)
  rw [World.node_congr hw]
  exact hok w' (hw'.trans hw)

/-- A whiteout that is made is no directory, and was not there before. -/
theorem wp_linkOrCreateWh {wh : HDentry} {b : Int} {br : Branch} (hbr : sb.stobr b = some br)
    (hok : ∀ w k i, m.fails ≤ k → m.w.node wh.root wh.path = none → i.isDir = false →
      m.w.Sets w wh.root wh.path (some i) → Q () (m.withWorld w k))
    (herr : ∀ e w k, m.fails < k → w.fs = m.w.fs → E e (m.withWorld w k)) :
    wp (linkOrCreateWh sb wh b) Q E m := by
  have hmake : ∀ w k, w.fs = m.w.fs → m.fails ≤ k → wp (vfsubMake wh .reg 0) Q E (m.withWorld w k) := by
    intro w k hw hk
    refine wp_vfsubMake (fun w' i h1 _ _ h2 _ h3 => ?_) fun e w' hw' =>
      herr e w' (k + 1) (by omega) (hw'.trans hw)
    rw [Mount.withWorld_w, World.node_congr hw] at h1
    refine hok w' k i hk h1 (by simp [HInode.isDir, h2]) fun r q => ?_
    rw [h3 r q, Mount.withWorld_w, World.node_congr hw]
  simp only [linkOrCreateWh, hbr]
  split
  · refine wp_bind.mpr (wp_attempt.mpr (wp_vfsubLink (fun w i _ _ h1 h2 _ _ h3 => ?_) fun e w hw => ?_))
    · exact hok w m.fails i le_rfl h2 h1 h3
    · cases e
      case EMLINK => exact hmake w (m.fails + 1) hw (by omega)
      all_goals exact herr _ w (m.fails + 1) (by omega) hw
  · exact hmake m.w m.fails rfl le_rfl

/-- `simple_create_wh` finds the whiteout or makes it. -/
theorem wp_simpleCreateWh {p : Path} {b : Int} {hp : HDentry} {br : Branch} {Q : HDentry → Mount → Prop}
    (hbr : sb.stobr b = some br)
    (hold : ∀ h w, h.root = hp.root → h.path = hp.path ++ [whName (dName p)] → h.inode.isSome →
      m.w.node hp.root (hp.path ++ [whName (dName p)]) = h.inode → w.fs = m.w.fs → Q h { m with w })
    (hnew : ∀ h w k i, h.root = hp.root → h.path = hp.path ++ [whName (dName p)] → h.inode = none →
      m.w.node hp.root (hp.path ++ [whName (dName p)]) = none → m.fails ≤ k → i.isDir = false →
      m.w.Sets w hp.root (hp.path ++ [whName (dName p)]) (some i) →
      Q h ((m.withWorld w k).setDi p { m.di p with bwh := b }))
    (herr : ∀ e w k, m.fails < k → w.fs = m.w.fs → E e (m.withWorld w k)) :
    wp (simpleCreateWh sb p b hp) Q E m := by
  refine wp_bind.mpr (wp_lkupWh (fun w hw => ?_) fun e w hw => herr e w _ (Nat.lt_succ_self _) hw)
  refine wp_ite.mpr ⟨fun hpos => ?_, fun hpos => ?_⟩
  · exact hold _ w rfl rfl hpos rfl hw
  · have hnone : m.w.node hp.root (hp.path ++ [whName (dName p)]) = none := by
      simpa [HDentry.positive] using hpos
    refine wp_bind.mpr (wp_linkOrCreateWh hbr (fun w' k i hk _ hi hs => ?_) fun e w' k hk hw' =>
      herr e w' k hk (hw'.trans hw))
    refine wp_bind.mpr (wp_onDinfo.mpr (wp_pure.mpr ?_))
    refine hnew _ w' k i rfl rfl hnone hnone hk hi fun r q => ?_
    rw [hs r q, World.node_congr hw]

@[simp] theorem Mount.setDi_self (m : Mount) (p : Path) : m.setDi p (m.di p) = m := by
  simp [Mount.setDi]

/-- `lkup_neg` finds no file and fills the slot. -/
theorem wp_lkupNeg {p : Path} {b : Int}
    (hok : ∀ hp w, (m.di (dParent p)).hDptrI b = some hp → m.w.node hp.root (hp.path ++ [dName p]) = none →
      w.fs = m.w.fs → Q () ({ m with w }.setDi p { m.di p with
        bstart := if b < (m.di p).bstart then b else (m.di p).bstart
        bend := if (m.di p).bend < b then b else (m.di p).bend
        hdentry := Function.update (m.di p).hdentry b (some (hp.negative (dName p))) }))
    (herr : ∀ e w, w.fs = m.w.fs → E e (m.failed w)) : wp (Op.lkupNeg p b) Q E m := by
  have hrun : ∀ r d w, Aufs.lkupNeg (dName p) (m.di (dParent p)) (m.di p) b m.w = (r, d, w) →
      w.fs = m.w.fs ∧ ((∃ e, r = .error e ∧ d = m.di p) ∨
        ∃ hp, (m.di (dParent p)).hDptrI b = some hp ∧ r = .ok () ∧
          m.w.node hp.root (hp.path ++ [dName p]) = none ∧ d = { m.di p with
            bstart := if b < (m.di p).bstart then b else (m.di p).bstart
            bend := if (m.di p).bend < b then b else (m.di p).bend
            hdentry := Function.update (m.di p).hdentry b (some (hp.negative (dName p))) }) := by
    intro r d w h
    unfold Aufs.lkupNeg at h
    split at h
    · simp only [Prod.mk.injEq] at h
      exact ⟨by rw [← h.2.2], .inl ⟨_, h.1.symm, h.2.1.symm⟩⟩
    · rename_i hp hhp
      split at h
      · rename_i hl
        simp only [Prod.mk.injEq] at h
        exact ⟨by rw [← h.2.2, lkupOne_fs hl], .inl ⟨_, h.1.symm, h.2.1.symm⟩⟩
      · rename_i hd w1 hl
        obtain ⟨hhd, -⟩ := lkupOne_ok hl
        split at h
        · simp only [Prod.mk.injEq] at h
          exact ⟨by rw [← h.2.2, lkupOne_fs hl], .inl ⟨_, h.1.symm, h.2.1.symm⟩⟩
        · rename_i hneg
          simp only [Prod.mk.injEq] at h
          have hnode : m.w.node hp.root (hp.path ++ [dName p]) = none := by
            simpa [hhd, HDentry.positive, World.node] using hneg
          have hhd' : hd = hp.negative (dName p) := by
            rw [hhd, HDentry.negative]
            exact congrArg _ hnode
          refine ⟨by rw [← h.2.2, lkupOne_fs hl], .inr ⟨hp, hhp, h.1.symm, hnode, ?_⟩⟩
          rw [← h.2.1, hhd']
  refine wp_onDentry (fun a d w h => ?_) fun e d w h => ?_
  · obtain ⟨hw, ⟨e, he, -⟩ | ⟨hp, h1, -, h2, rfl⟩⟩ := hrun _ _ _ h
    · cases he
    · exact hok hp w h1 h2 hw
  · obtain ⟨hw, ⟨e', he, rfl⟩ | ⟨hp, -, he, -⟩⟩ := hrun _ _ _ h
    · have := herr e w hw
      rwa [← Mount.setDi_self (m.failed w) p] at this
    · cases he

end Rules

end Aufs
