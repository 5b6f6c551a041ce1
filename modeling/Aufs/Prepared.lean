-- SUMMARY: What wr_dir leaves besides the branch: new parent directories there, and everything else as it was.
import Aufs.Found

/-!
# The branch, prepared

On its way `wr_dir` may copy parents up to the branch that it picks. It makes nothing but
directories that the branch lacked, and they are empty. So nothing that is found in the
parent of the new entry changes, whether `wr_dir` succeeds or fails half way.
-/

namespace Aufs

open Prog Op Overlay

variable {m m' m₁ m₂ : Mount} {sb : SuperBlock} {dir : Path} {name : Name} {b : Int} {α β : Type}

-- ---------------------------------------------------------------------------
-- The count of failures
-- ---------------------------------------------------------------------------

/-- The count of failed steps does not go down. -/
def Op.Mono (x : Op α) : Prop := ∀ m, m.fails ≤ (x m).2.fails

namespace Op.Mono

variable {x : Op α}

theorem wp (h : Op.Mono x) : Prog.wp x (fun _ m' => m.fails ≤ m'.fails) (fun _ m' => m.fails ≤ m'.fails) m := by
  have hle := h m
  refine .intro (fun a t hx => ?_) fun e t hx => ?_
  · rwa [hx] at hle
  · rwa [hx] at hle

theorem of_eq (h : ∀ m, (x m).2.fails = m.fails) : Op.Mono x := fun m => (h m).ge

theorem bind {f : α → Op β} (hx : Op.Mono x) (hf : ∀ a, Op.Mono (f a)) : Op.Mono (x >>= f) := by
  intro m
  have hwp : Prog.wp (x >>= f) (fun _ m' => m.fails ≤ m'.fails) (fun _ m' => m.fails ≤ m'.fails) m := by
    refine wp_bind.mpr (hx.wp.mono (fun a t hle => ?_) fun _ _ hle => hle)
    exact (hf a).wp.mono (fun _ _ h => hle.trans h) fun _ _ h => hle.trans h
  rcases hrun : (x >>= f) m with ⟨e | a, t⟩
  · exact hwp.error hrun
  · exact hwp.ok hrun

theorem attempt (hx : Op.Mono x) : Op.Mono (Prog.attempt x) := hx

theorem ite {c : Prop} [Decidable c] {y : Op α} (hx : Op.Mono x) (hy : Op.Mono y) :
    Op.Mono (if c then x else y) := by
  split
  · exact hx
  · exact hy

theorem ret (a : α) : Op.Mono (pure a : Op α) := of_eq fun _ => rfl

theorem fail (e : Errno) : Op.Mono (Prog.fail e : Op α) := of_eq fun _ => rfl

theorem refuse (e : Errno) : Op.Mono (Op.refuse e : Op α) := fun _ => Nat.le_succ _

theorem ofExcept (r : Except Errno α) : Op.Mono (Prog.ofExcept r : Op α) := by
  cases r
  · exact fail _
  · exact ret _

theorem update {f : Mount → Mount} (h : ∀ m, (f m).fails = m.fails) : Op.Mono (Prog.update f) := of_eq h

theorem onWorld (f : World → Except Errno α × World) : Op.Mono (Op.onWorld f) := by
  intro m
  rw [Op.onWorld]
  split
  · exact Nat.le_succ _
  · exact le_rfl

theorem onDentry (p : Path) (f : Dinfo → Dinfo → World → Except Errno α × Dinfo × World) :
    Op.Mono (Op.onDentry p f) := by
  intro m
  rw [Op.onDentry]
  split
  · exact Nat.le_succ _
  · exact le_rfl

theorem onDinfo (p : Path) (f : Dinfo → Dinfo) : Op.Mono (Op.onDinfo p f) := update fun _ => rfl

theorem dinfo (p : Path) : Op.Mono (Op.dinfo p) := of_eq fun _ => rfl

theorem state : Op.Mono (Prog.state : Op Mount) := of_eq fun _ => rfl

theorem hDptrI (p : Path) (b : Int) : Op.Mono (Op.hDptrI p b) := by
  refine bind (dinfo p) fun d => ?_
  split
  · exact refuse _
  · exact ret _

theorem inodeOf (h : HDentry) : Op.Mono (Op.inodeOf h) := by
  unfold Op.inodeOf
  split
  · exact refuse _
  · exact ret _

theorem touch (p : Path) (b : Int) : Op.Mono (Prog.update fun m : Mount => m.touch p b) := update fun _ => rfl

end Op.Mono

theorem mono_cpupEntry {p : Path} {bdst bsrc : Int} : Op.Mono (cpupEntry p bdst bsrc) := by
  refine .bind (.hDptrI _ _) fun s => .bind (.inodeOf _) fun i => .bind (.hDptrI _ _) fun d => ?_
  split
  · refine .bind (.onWorld _) fun _ => .bind (.attempt (.onWorld _)) fun r => ?_
    split
    · exact .ret _
    · refine .bind (.attempt (.onWorld _)) fun r => ?_
      split <;> exact .fail _
  · exact .bind (.onWorld _) fun _ => .bind (.onWorld _) fun _ => .onWorld _
  · exact .onWorld _

theorem mono_cpupNew {p : Path} {bdst bsrc : Int} : Op.Mono (cpupNew p bdst bsrc) := by
  refine .bind mono_cpupEntry fun _ => .bind (.touch p bdst) fun _ => .bind (.hDptrI _ _) fun d => ?_
  refine .bind (.inodeOf _) fun i => .bind (.attempt (.onWorld _)) fun r => ?_
  split
  · exact .update fun _ => rfl
  · refine .bind (.attempt ?_) fun r => ?_
    · split <;> exact .onWorld _
    · split <;> exact .fail _

theorem mono_cpupSingle {p : Path} {bdst bsrc : Int} : Op.Mono (cpupSingle sb p bdst bsrc) := by
  refine .bind .state fun m => ?_
  split
  · exact mono_cpupNew
  · split
    · exact .refuse _
    refine .bind (.hDptrI _ _) fun d => ?_
    split
    · refine .bind (.bind .state fun m => ?_) fun s => .bind (.onWorld _) fun _ => .touch p bdst
      split
      · exact .refuse _
      · exact .onWorld _
    · exact mono_cpupNew

theorem mono_cpupSimple {p : Path} {bdst : Int} : Op.Mono (cpupSimple sb p bdst) := by
  refine .bind (.dinfo p) fun d => .bind (.onDentry _ _) fun _ => .bind (.attempt mono_cpupSingle) fun r => ?_
  split
  · exact .ret _
  · exact .bind (.onDinfo _ _) fun _ => .fail _

theorem mono_cpupDirsLoop {bdst : Int} (up : List Name) : Op.Mono (cpupDirsLoop sb bdst up) := by
  induction up with
  | nil => exact .bind (.hDptrI _ _) fun _ => .ret _
  | cons n up ih =>
    refine .bind (.dinfo _) fun d => ?_
    split
    · exact .ret _
    · exact .bind ih fun _ => mono_cpupSimple

theorem mono_cpupDirs {p : Path} {bdst : Int} : Op.Mono (cpupDirs sb p bdst) := by
  unfold cpupDirs
  split
  · exact .ret _
  · exact mono_cpupDirsLoop _

theorem mono_wrDir {p : Path} {addEntry : Bool} {src : Option Path} {forceBtgt : Int} :
    Op.Mono (wrDir sb p addEntry src forceBtgt) := by
  refine .bind .state fun m => .bind (.ofExcept _) fun bcpup => ?_
  split
  · exact .ret _
  · refine .bind (.hDptrI _ _) fun _ => ?_
    have hneg : ∀ _ : Unit, Op.Mono (if addEntry then do Op.lkupNeg p bcpup; pure bcpup else pure bcpup) :=
      fun _ => .ite (.bind (.onDentry _ _) fun _ => .ret _) (.ret _)
    have hdirs : ∀ _ : Unit, Op.Mono (do
        let parent ← Op.dinfo (dParent p)
        if (parent.hDptrI bcpup).isNone then cpupDirs sb p bcpup else pure ()
        if addEntry then do Op.lkupNeg p bcpup; pure bcpup else pure bcpup) := fun _ =>
      .bind (.dinfo _) fun parent => .ite (.bind mono_cpupDirs hneg) (hneg ())
    exact .ite (.bind (.onDinfo _ _) hdirs) (hdirs ())

-- ---------------------------------------------------------------------------
-- Parents on the way
-- ---------------------------------------------------------------------------

/-- Some directories of the path are new on the branch, each a copy of the first one below, and the files are
otherwise what they were. -/
def Mount.NodesGrew (sb : SuperBlock) (dir : Path) (b : Int) (m m' : Mount) : Prop :=
  ∀ r q, m'.w.node r q = m.w.node r q ∨ ∃ br j, sb.stobr b = some br ∧ r = br.root ∧ q <+: dir ∧
    m.w.node r q = none ∧ m'.w.node r q = some j ∧ j.isDir ∧ (m.di q).CopyOf b j

/-- Some directories of the path were made on the branch, with their dentries. -/
structure Mount.Grew (sb : SuperBlock) (dir : Path) (b : Int) (m m' : Mount) : Prop where
  dirs : m'.Dirs sb dir
  nodes : Mount.NodesGrew sb dir b m m'
  others : ∀ q, ¬ q <+: dir → m'.di q = m.di q ∧ m'.hi q = m.hi q
  kept : ∀ q c h, (m.di q).hdentry c = some h → (m'.di q).hdentry c = some h
  only : ∀ q c, c ≠ b → (m'.di q).hdentry c = (m.di q).hdentry c
  fresh : ∀ q c h, (m'.di q).hdentry c = some h → (m.di q).hdentry c = some h ∨
    ∀ x, m.w.node h.root (q ++ x) = none
  ends : ∀ q, b ≤ (m.di q).bend → (m'.di q).bend = (m.di q).bend ∧ (m'.di q).dbtaildir = (m.di q).dbtaildir

theorem Mount.NodesGrew.refl : Mount.NodesGrew sb dir b m m := fun _ _ => .inl rfl

theorem Mount.NodesGrew.of_node (h : m'.w.node = m.w.node) : Mount.NodesGrew sb dir b m m' :=
  fun r q => .inl (by rw [h])

/-- Only the files and the dentries of the path matter. -/
theorem Mount.NodesGrew.congr (h : Mount.NodesGrew sb dir b m₁ m₂) (hnode : m₁.w.node = m.w.node)
    (hdi : ∀ q, q <+: dir → m₁.di q = m.di q) (hnode' : m'.w.node = m₂.w.node) : Mount.NodesGrew sb dir b m m' := by
  intro r q
  rw [hnode', ← hnode]
  refine (h r q).imp_right fun ⟨br, j, hbr, hr, hq, hold, hnew, hj, hcopy⟩ => ?_
  exact ⟨br, j, hbr, hr, hq, hold, hnew, hj, hdi q hq ▸ hcopy⟩

theorem Mount.Grew.refl (hm : m.Dirs sb dir) : Mount.Grew sb dir b m m :=
  ⟨hm, .refl, fun _ _ => ⟨rfl, rfl⟩, fun _ _ _ hc => hc, fun _ _ _ => rfl, fun _ _ _ hc => .inl hc, fun _ _ => ⟨rfl, rfl⟩⟩

/-- A name below the directory is on no path to it. -/
theorem not_append_within {x : Path} (hx : x ≠ []) : ¬ dir ++ x <+: dir := by
  intro hpre
  have hle := hpre.length_le
  rw [List.length_append] at hle
  have hpos := List.length_pos_iff.mpr hx
  omega

theorem Mount.NodesGrew.below (h : Mount.NodesGrew sb dir b m m') (r : Nat) {x : Path} (hx : x ≠ []) :
    m'.w.node r (dir ++ x) = m.w.node r (dir ++ x) := by
  rcases h r (dir ++ x) with hsame | ⟨_, _, -, -, hpre, -⟩
  · exact hsame
  · exact absurd hpre (not_append_within hx)

/-- A slot within the ends does not move them. -/
theorem Dinfo.enter_ends {d : Dinfo} {h : HDentry} (hb : b ≤ d.bend) :
    (d.enter b h).bend = d.bend ∧ (d.enter b h).dbtaildir = d.dbtaildir := by
  have hend : (d.enter b h).bend = d.bend := by
    rw [Dinfo.enter]
    dsimp only
    split
    · omega
    · rfl
  refine ⟨hend, ?_⟩
  rw [Dinfo.dbtaildir, Dinfo.dbtaildir, Dinfo.dbtail, Dinfo.dbtail, hend]
  rfl

/-- The directory of the last step is a copy of the first one below. -/
def Mount.MadeCopy (sb : SuperBlock) (b : Int) (x : Path) (m m' : Mount) : Prop :=
  ∃ br j, sb.stobr b = some br ∧ m'.w.node br.root x = some j ∧ (m.di x).CopyOf b j

/-- `cpup_simple` of a directory makes a copy. -/
theorem wp_cpupSimple_copies {q : Path} {n : Name} {br : Branch} (hm : m.Dirs sb dir)
    (hpre : q ++ [n] <+: dir) (hbr : sb.stobr b = some br) (hn : (m.di (q ++ [n])).hdentry b = none) :
    wp (cpupSimple sb (q ++ [n]) b) (fun _ m' => Mount.MadeCopy sb b (q ++ [n]) m m') (fun _ _ => True) m := by
  have hself := hm.dirAt _ hpre
  have hup := hm.dirAt q ((List.prefix_append q [n]).trans hpre)
  by_cases hsrc : ∃ s, b < s ∧ ((m.di (q ++ [n])).hdentry s).isSome
  case pos =>
    obtain ⟨s, hs, hfill⟩ := hsrc
    refine wp_cpupSimple_dir hbr hself hup hn hs hfill (fun m' j _ hcopy _ hsets _ _ => ?_) fun _ _ _ _ => trivial
    exact ⟨br, j, hbr, by rw [hsets, if_pos ⟨rfl, rfl⟩], hcopy⟩
  case neg =>
    have hno : ∀ s, b < s → (m.di (q ++ [n])).hdentry s = none := fun s hs =>
      Option.not_isSome_iff_eq_none.mp fun hfill => hsrc ⟨s, hs, hfill⟩
    exact (wp_cpupSimple_noSource hself hn hno).mono (fun _ _ => False.elim) fun _ _ _ => trivial

theorem Mount.NodesGrew.makesDir {q : Path} {n : Name} (h : Mount.NodesGrew sb dir b m m₁)
    (hmk : Mount.MakesDir sb dir b q n m₁ m') (hcopy : Mount.MadeCopy sb b (q ++ [n]) m₁ m')
    (hself : m₁.di (q ++ [n]) = m.di (q ++ [n])) : Mount.NodesGrew sb dir b m m' := by
  obtain ⟨br, i, j, hbr, -, -, hj, hnone, hsets, -, -⟩ := hmk.made
  intro r x
  by_cases hx : r = br.root ∧ x = q ++ [n]
  case pos =>
    obtain ⟨rfl, rfl⟩ := hx
    have hnew : m'.w.node br.root (q ++ [n]) = some j := by rw [hsets, if_pos ⟨rfl, rfl⟩]
    obtain ⟨br', j', hbr', hj', hcopy⟩ := hcopy
    obtain rfl := Option.some.inj (hbr.symm.trans hbr')
    obtain rfl := Option.some.inj (hnew.symm.trans hj')
    rw [hself] at hcopy
    refine .inr ⟨br, j, hbr, rfl, hmk.within, ?_, hnew, hj, hcopy⟩
    rcases h br.root (q ++ [n]) with hsame | ⟨_, _, -, -, -, hold, -⟩
    · exact hsame ▸ hnone
    · exact hold
  case neg =>
    rw [hsets r x, if_neg hx]
    exact h r x

theorem Mount.Grew.makesDir {q : Path} {n : Name} (h : Mount.Grew sb dir b m m₁)
    (hmk : Mount.MakesDir sb dir b q n m₁ m') (hcopy : Mount.MadeCopy sb b (q ++ [n]) m₁ m')
    (hsame : m₁.di (q ++ [n]) = m.di (q ++ [n])) : Mount.Grew sb dir b m m' := by
  obtain ⟨br, i, j, hbr, -, -, -, hnone, -, hdi, hhi⟩ := id hmk.made
  -- the new directory, and the others
  have hself : m'.di (q ++ [n]) = (m₁.di (q ++ [n])).enter b ⟨br.root, q ++ [n], some j⟩ := by
    rw [hdi, Function.update_self]
  have hother : ∀ x, x ≠ q ++ [n] → m'.di x = m₁.di x := fun x hx => by rw [hdi, Function.update_of_ne hx]
  refine ⟨h.dirs.makesDir hmk, h.nodes.makesDir hmk hcopy hsame, fun x hx => ?_,
    fun x c y hc => hmk.kept (h.kept x c y hc), fun x c hc => ?_, fun x c y hc => ?_, fun x hb => ?_⟩
  · have hne : x ≠ q ++ [n] := fun he => hx (he ▸ hmk.within)
    rw [hother x hne, hhi, Function.update_of_ne hne]
    exact h.others x hx
  · rw [← h.only x c hc]
    by_cases hx : x = q ++ [n]
    · rw [hx, hself, Dinfo.enter]
      exact Function.update_of_ne hc ..
    · rw [hother x hx]
  · by_cases hx : x = q ++ [n]
    · subst hx
      rw [hself, Dinfo.enter] at hc
      dsimp only at hc
      by_cases hcb : c = b
      · rw [hcb, Function.update_self] at hc
        obtain rfl := Option.some.inj hc
        -- the directory was not there, so nothing was below
        have hold : m.w.node br.root (q ++ [n]) = none := by
          rcases h.nodes br.root (q ++ [n]) with hsame | ⟨_, _, -, -, -, hold, -⟩
          · exact hsame ▸ hnone
          · exact hold
        exact .inr fun x => (m.w.fs br.root).wf.closed.node_append_none hold x
      · rw [Function.update_of_ne hcb] at hc
        exact h.fresh _ c y hc
    · rw [hother x hx] at hc
      exact h.fresh x c y hc
  · obtain ⟨hend, htail⟩ := h.ends x hb
    by_cases hx : x = q ++ [n]
    · subst hx
      obtain ⟨hend', htail'⟩ := @Dinfo.enter_ends b (m₁.di (q ++ [n])) ⟨br.root, q ++ [n], some j⟩ (hend ▸ hb)
      rw [hself]
      exact ⟨hend'.trans hend, htail'.trans htail⟩
    · rw [hother x hx]
      exact ⟨hend, htail⟩

/-- The ends of a directory reach as far down as those of the directories below. -/
theorem Mount.Dirs.bend_le (hm : m.Dirs sb dir) {q : Path} (hq : q <+: dir) : (m.di dir).bend ≤ (m.di q).bend :=
  ((hm.dirAt q hq).range _ (hm.has_of_has (List.prefix_refl dir) hm.self.last q hq)).2

theorem Mount.Dirs.within (hm : m.Dirs sb dir) {q : Path} (hq : q <+: dir) : m.Dirs sb q :=
  ⟨fun x hx => hm.dirAt x (hx.trans hq), fun x n c hx => hm.chain x n c (hx.trans hq)⟩

theorem Mount.Grew.keepsDir (hm : m.Dirs sb dir) (h : Mount.Grew sb dir b m m') (hb : b ≤ (m.di dir).bend) {q : Path}
    (hq : q <+: dir) : Mount.KeepsDir sb q m m' :=
  ⟨hm.within hq, h.dirs.within hq, (h.ends q (hb.trans (hm.bend_le hq))).2, h.kept q, h.fresh q⟩

/-- What is left when directories of the path could not be made: some of them, or more than one step failed. -/
structure Mount.Stopped (sb : SuperBlock) (dir : Path) (b : Int) (m m' : Mount) : Prop where
  nodes : Mount.NodesGrew sb dir b m m' ∨ m.fails + 2 ≤ m'.fails
  others : ∀ q, ¬ q <+: dir → m'.di q = m.di q

/-- The loop of `cpup_dirs` makes the path, or stops on the way. -/
theorem wp_cpupDirsLoop_grew {br : Branch} {x : Path} (hbr : sb.stobr b = some br) (hx : x <+: dir)
    (hm : m.Dirs sb dir) :
    wp (cpupDirsLoop sb b x.reverse) (fun _ m' => Mount.Grew sb dir b m m' ∧ ((m'.di x).hDptrI b).isSome ∧
      ∀ y, ¬ y <+: x → m'.di y = m.di y) (fun _ m' => Mount.Stopped sb dir b m m') m := by
  have hstop : ∀ {w : World}, w.fs = m.w.fs → Mount.Stopped sb dir b m (m.failed w) := fun hw =>
    ⟨.inl fun r q => .inl (by rw [Mount.failed_w, World.node_congr hw]), fun _ _ => rfl⟩
  induction x using List.reverseRecOn with
  | nil =>
    refine wp_bind.mpr (wp_hDptrI (fun h hh => wp_pure.mpr ⟨.refl hm, ?_, fun _ _ => rfl⟩) fun _ => hstop rfl)
    rw [hh]
    rfl
  | append_singleton q n ih =>
    rw [List.reverse_append, List.reverse_singleton, List.singleton_append, cpupDirsLoop]
    simp only [List.reverse_cons, List.reverse_reverse]
    refine wp_bind.mpr (wp_dinfo.mpr (wp_ite.mpr ⟨fun hhas => ?_, fun hno => ?_⟩))
    · exact wp_pure.mpr ⟨.refl hm, hhas, fun _ _ => rfl⟩
    have hq : q <+: dir := (List.prefix_append q [n]).trans hx
    refine wp_bind.mpr (((ih hq).and (mono_cpupDirsLoop _).wp).mono ?_ fun _ _ h => h.1)
    rintro _ m₁ ⟨⟨hgrew, hup, hout⟩, hle⟩
    have hsame : m₁.di (q ++ [n]) = m.di (q ++ [n]) := hout _ (not_concat_within q n)
    have hn : (m₁.di (q ++ [n])).hDptrI b = none := by
      rw [hsame]
      exact Option.not_isSome_iff_eq_none.mp hno
    have hn' : (m₁.di (q ++ [n])).hdentry b = none := by rw [← (hgrew.dirs.dirAt _ hx).hDptrI, hn]
    refine ((wp_cpupSimple_makes hgrew.dirs hx hbr hup hn).and (wp_cpupSimple_copies hgrew.dirs hx hbr hn')).mono
      (fun _ m' h => ?_) fun _ m' h => ?_
    · obtain ⟨hmk, hcopy⟩ := h
      obtain ⟨_, _, _, -, -, -, -, -, -, hdi, -⟩ := id hmk.made
      refine ⟨hgrew.makesDir hmk hcopy hsame, hmk.has hgrew.dirs, fun y hy => ?_⟩
      have hne : y ≠ q ++ [n] := fun he => hy (he ▸ List.prefix_refl _)
      rw [hdi, Function.update_of_ne hne]
      exact hout y fun hpre => hy (hpre.trans (List.prefix_append q [n]))
    · obtain ⟨hno, -⟩ := h
      refine ⟨hno.files.imp (fun hsame => ?_) fun hfails => (Nat.add_le_add_right hle 2).trans hfails,
        fun y hy => ?_⟩
      · intro r y
        rw [hsame]
        exact hgrew.nodes r y
      · rw [hno.others y fun he => hy (he ▸ hx)]
        exact (hgrew.others y hy).1

-- ---------------------------------------------------------------------------
-- wr_dir
-- ---------------------------------------------------------------------------

variable {src : Option Path} {forceBtgt : Int}

theorem Dinfo.dbtaildir_le_bend (d : Dinfo) (h0 : 0 ≤ d.bend) : d.dbtaildir ≤ d.bend := by
  rw [Dinfo.dbtaildir, Dinfo.dbtail, if_pos h0]
  split <;> split <;> (try split) <;> omega

/-- What is left when the parents of an entry were copied up to a branch that lookups in the directory reach. -/
structure Mount.PathFrame (sb : SuperBlock) (m : Mount) (dir : Path) (name : Name) (b : Int) (m' : Mount) :
    Prop where
  path : ∀ q, q <+: dir → Mount.KeepsDir sb q m m'
  nodes : Mount.NodesGrew sb dir b m m'
  only : ∀ q, q <+: dir → ∀ c, c ≠ b → (m'.di q).hdentry c = (m.di q).hdentry c
  others : ∀ q, ¬ q <+: dir → q ≠ dir ++ [name] → m'.di q = m.di q
  hi : ∀ q, ¬ q <+: dir → q ≠ dir ++ [name] → m'.hi q = m.hi q
  reached : b ≤ (m'.di dir).dbtaildir

theorem Mount.PathFrame.keeps (hf : Mount.PathFrame sb m dir name b m') : Mount.KeepsDir sb dir m m' :=
  hf.path dir (List.prefix_refl dir)

/-- The slots of the path reach the branch. -/
theorem Mount.PathFrame.refl (hm : m.Dirs sb dir) (hb : b ≤ (m.di dir).dbtaildir) : Mount.PathFrame sb m dir name b m :=
  ⟨fun _ hq => .refl (hm.within hq), .refl, fun _ _ _ _ => rfl, fun _ _ _ => rfl, fun _ _ _ => rfl, hb⟩

/-- What `wr_dir` leaves besides the branch for the entry. -/
structure Mount.Frame (sb : SuperBlock) (m : Mount) (dir : Path) (name : Name) (b : Int) (m' : Mount) : Prop
    extends Mount.PathFrame sb m dir name b m' where
  bwh : (m'.di (dir ++ [name])).bwh = (m.di (dir ++ [name])).bwh

/-- The branch lies within the ends that the directory had. -/
theorem Mount.PathFrame.le_bend (hf : Mount.PathFrame sb m dir name b m') : b ≤ (m.di dir).bend := by
  have hself := hf.keeps.before.self
  have hend := (hself.range _ hself.start).2
  have hn := hself.nonneg
  have hle := (m.di dir).dbtaildir_le_bend (hn.trans hend)
  have hreached := hf.reached
  rw [hf.keeps.tail] at hreached
  omega

/-- The branch is fit for the entry, and nothing else has changed but for empty parents there. -/
structure Mount.Prepared (sb : SuperBlock) (m : Mount) (dir : Path) (name : Name) (b : Int) (m' : Mount) : Prop
    extends Mount.FitFor sb m dir name b m', Mount.Frame sb m dir name b m'

/-- What is left when `wr_dir` fails: some parents on a branch, or more than one step failed. -/
structure Mount.NotPrepared (sb : SuperBlock) (m : Mount) (dir : Path) (name : Name) (m' : Mount) : Prop where
  nodes : (∃ b ≤ (m.di dir).bend, Mount.NodesGrew sb dir b m m') ∨ m.fails + 2 ≤ m'.fails
  others : ∀ q, ¬ q <+: dir → q ≠ dir ++ [name] → m'.di q = m.di q

theorem updateDbstart_bwh (d : Dinfo) : d.updateDbstart.bwh = d.bwh := by
  have hfrom : ∀ (L : List Int) (d : Dinfo), (d.updateDbstartFrom L).bwh = d.bwh := by
    intro L
    induction L with
    | nil => exact fun _ => rfl
    | cons c L ih =>
      intro d
      rw [Dinfo.updateDbstartFrom]
      split
      · exact ih d
      · split
        · rfl
        · exact ih _
  exact hfrom _ d

/-- No other dentry has changed, nor its inode. -/
structure Mount.Off (p : Path) (m m' : Mount) : Prop where
  di : ∀ q, q ≠ p → m'.di q = m.di q
  hi : ∀ q, q ≠ p → m'.hi q = m.hi q

theorem Mount.Off.refl {p : Path} : Mount.Off p m m := ⟨fun _ _ => rfl, fun _ _ => rfl⟩

theorem Mount.Off.trans {p : Path} (h : Mount.Off p m m₁) (h' : Mount.Off p m₁ m₂) : Mount.Off p m m₂ :=
  ⟨fun q hq => (h'.di q hq).trans (h.di q hq), fun q hq => (h'.hi q hq).trans (h.hi q hq)⟩

theorem Mount.Off.setDi {p : Path} (h : Mount.Off p m m₁) (d : Dinfo) : Mount.Off p m (m₁.setDi p d) := by
  refine ⟨fun q hq => ?_, h.hi⟩
  rw [Mount.setDi_di, Function.update_of_ne hq]
  exact h.di q hq

theorem Mount.Off.world {p : Path} (h : Mount.Off p m m₁) (w : World) (k : Nat) : Mount.Off p m (m₁.withWorld w k) :=
  ⟨h.di, h.hi⟩

/-- A dentry below the directory and the calls that change no file do not matter. -/
theorem Mount.KeepsDir.congr {m₃ : Mount} {q : Path} (h : Mount.KeepsDir sb q m₁ m₂) (hq : q <+: dir)
    (hoff : Mount.Off (dir ++ [name]) m m₁) (hnode : m₁.w.node = m.w.node) (hoff' : Mount.Off (dir ++ [name]) m₂ m₃)
    (hnode' : m₃.w.node = m₂.w.node) : Mount.KeepsDir sb q m m₃ := by
  have hne : ∀ x, x <+: q → x ≠ dir ++ [name] := fun x hx => ne_concat_of_within (hx.trans hq)
  have hself : q ≠ dir ++ [name] := hne q (List.prefix_refl q)
  refine ⟨?_, ?_, ?_, fun c h' hc => ?_, fun c h' hc => ?_⟩
  · exact h.before.congr (fun x hx => ⟨(hoff.di x (hne x hx)).symm, (hoff.hi x (hne x hx)).symm⟩) fun r x _ _ => by rw [hnode]
  · exact h.after.congr (fun x hx => ⟨hoff'.di x (hne x hx), hoff'.hi x (hne x hx)⟩) fun r x _ _ => by rw [hnode']
  · rw [hoff'.di q hself, h.tail, hoff.di q hself]
  · rw [hoff'.di q hself]
    exact h.kept c h' (by rw [hoff.di q hself]; exact hc)
  · rw [hoff'.di q hself] at hc
    have hfresh := h.fresh c h' hc
    rw [hoff.di q hself, hnode] at hfresh
    exact hfresh

theorem Mount.PathFrame.congr {m₃ : Mount} (h : Mount.PathFrame sb m₁ dir name b m₂)
    (hoff : Mount.Off (dir ++ [name]) m m₁) (hnode : m₁.w.node = m.w.node) (hoff' : Mount.Off (dir ++ [name]) m₂ m₃)
    (hnode' : m₃.w.node = m₂.w.node) : Mount.PathFrame sb m dir name b m₃ := by
  have hne : ∀ q, q <+: dir → q ≠ dir ++ [name] := fun q hq => ne_concat_of_within hq
  refine ⟨fun q hq => (h.path q hq).congr hq hoff hnode hoff' hnode',
    h.nodes.congr hnode (fun q hq => hoff.di q (hne q hq)) hnode', fun q hq c hc => ?_, fun q hq hx => ?_, fun q hq hx => ?_, ?_⟩
  · rw [hoff'.di q (hne q hq), h.only q hq c hc, hoff.di q (hne q hq)]
  · rw [hoff'.di q hx, h.others q hq hx, hoff.di q hx]
  · rw [hoff'.hi q hx, h.hi q hq hx, hoff.hi q hx]
  · rw [hoff'.di dir (hne dir (List.prefix_refl dir))]
    exact h.reached

/-- Directories of the path were made on a branch that lookups in it reach. -/
theorem Mount.Grew.pathFrame (hgrew : Mount.Grew sb dir b m m') (hm : m.Dirs sb dir) (hb : b ≤ (m.di dir).dbtaildir) :
    Mount.PathFrame sb m dir name b m' := by
  have hself := hm.self
  have hend : b ≤ (m.di dir).bend :=
    hb.trans ((m.di dir).dbtaildir_le_bend (hself.nonneg.trans (hself.range _ hself.start).2))
  refine ⟨fun q hq => hgrew.keepsDir hm hend hq, hgrew.nodes, fun q _ => hgrew.only q, fun q hq _ => (hgrew.others q hq).1,
    fun q hq _ => (hgrew.others q hq).2, ?_⟩
  rw [(hgrew.ends dir hend).2]
  exact hb

/-- A dentry in the directory is not the one of the directory. -/
theorem Mount.setDi_parent (m : Mount) (d : Dinfo) : (m.setDi (dir ++ [name]) d).di dir = m.di dir := by
  rw [Mount.setDi_di, Function.update_of_ne (ne_concat_of_within (List.prefix_refl dir))]

/-- The branch of a dentry that was looked up lies within the ends of its parent. -/
theorem Mount.EntryKnown.le_bend (hknown : m.EntryKnown sb dir name) (h0 : 0 ≤ b)
    (hb : b ≤ (m.di (dir ++ [name])).bstart) : b ≤ (m.di dir).bend := by
  have htail := (hknown.entry (h0.trans hb)).tail
  have hself := hknown.dirs.self
  have hend := (hself.range _ hself.start).2
  have hn := hself.nonneg
  have hle := (m.di dir).dbtaildir_le_bend (hn.trans hend)
  omega

theorem wp_wrDir_frame (hknown : m.EntryKnown sb dir name)
    (hforce : ForceOk sb (m.di (dir ++ [name])) (m.hi (dir ++ [name])) forceBtgt) :
    wp (wrDir sb (dir ++ [name]) true src forceBtgt) (fun b m' => Mount.Frame sb m dir name b m')
      (fun _ m' => Mount.NotPrepared sb m dir name m') m := by
  have hm := hknown.dirs
  have hstop : ∀ {w : World}, w.fs = m.w.fs → Mount.NotPrepared sb m dir name (m.failed w) := fun hw =>
    ⟨.inl ⟨_, le_rfl, .of_node (World.node_congr hw)⟩, fun _ _ _ => rfl⟩
  refine wp_bind.mpr (wp_state.mpr (wp_bind.mpr (wp_ofExcept.mpr ?_)))
  cases hb : wrBranch sb (m.di (dParent (dir ++ [name]))) (m.di (dir ++ [name])) (m.hi (dir ++ [name]))
    (src.map fun q => (m.di q).bstart) forceBtgt with
  | error => exact ⟨.inl ⟨_, le_rfl, .refl⟩, fun _ _ _ => rfl⟩
  | ok b =>
    dsimp only
    obtain ⟨hwr, hle⟩ := wrBranch_ok hforce hb
    obtain ⟨br, hbr, -⟩ := stobr_of_not_brRdonly hwr
    have hbend := hknown.le_bend (SuperBlock.range_of_stobr hbr).1 hle
    have htail := hle.trans (hknown.entry ((SuperBlock.range_of_stobr hbr).1.trans hle)).tail
    refine wp_ite.mpr ⟨fun _ => wp_pure.mpr ⟨.refl hm htail, rfl⟩, fun _ => ?_⟩
    -- the mount after `au_update_dbstart`
    have hm₁ := @Mount.Dirs.setDi_child _ _ _ name hm (m.di (dir ++ [name])).updateDbstart
    generalize hset : m.setDi (dir ++ [name]) (m.di (dir ++ [name])).updateDbstart = m₁ at hm₁
    have hnode₁ : m₁.w.node = m.w.node := by rw [← hset]; rfl
    have hfails₁ : m₁.fails = m.fails := by rw [← hset]; rfl
    have hoff₁ : Mount.Off (dir ++ [name]) m m₁ := by
      rw [← hset]
      exact Mount.Off.refl.setDi _
    have hdi₁ := hoff₁.di
    have hpath₁ : ∀ q, q <+: dir → m₁.di q = m.di q := fun q hq => hdi₁ q (ne_concat_of_within hq)
    have hdir₁ : m₁.di dir = m.di dir := hpath₁ dir (List.prefix_refl dir)
    have hbwh₁ : (m₁.di (dir ++ [name])).bwh = (m.di (dir ++ [name])).bwh := by
      rw [← hset, Mount.setDi_di, Function.update_self, updateDbstart_bwh]
    refine wp_bind.mpr (wp_hDptrI (fun _ _ => ?_) fun _ => hstop rfl)
    rw [if_pos rfl, dParent_append]
    refine wp_bind.mpr (wp_onDinfo.mpr (wp_bind.mpr (wp_dinfo.mpr ?_)))
    rw [hset]
    -- the negative entry, when the parent is there
    have hneg : ∀ {m₂}, Mount.Grew sb dir b m₁ m₂ → m₁.fails ≤ m₂.fails →
        wp (do Op.lkupNeg (dir ++ [name]) b; pure b) (fun b m' => Mount.Frame sb m dir name b m')
          (fun _ m' => Mount.NotPrepared sb m dir name m') m₂ := by
      intro m₂ hgrew hfails
      have hframe : Mount.PathFrame sb m₁ dir name b m₂ := hgrew.pathFrame hm₁ (by rw [hdir₁]; exact htail)
      have hself : m₂.di (dir ++ [name]) = m₁.di (dir ++ [name]) := (hgrew.others _ (not_concat_within dir name)).1
      refine wp_bind.mpr (wp_lkupNeg (fun hp w _ _ hfs => wp_pure.mpr ?_) fun e w hfs => ?_)
      · refine ⟨hframe.congr hoff₁ hnode₁ ((Mount.Off.refl.world w m₂.fails).setDi _) (World.node_congr hfs), ?_⟩
        rw [Mount.setDi_di, Function.update_self]
        exact (congrArg Dinfo.bwh hself).trans hbwh₁
      · refine ⟨.inl ⟨b, hbend, (hgrew.nodes.congr hnode₁ hpath₁ rfl).congr rfl (fun _ _ => rfl) (World.node_congr hfs)⟩, ?_⟩
        exact fun q hq hne => (hgrew.others q hq).1.trans (hdi₁ q hne)
    refine wp_ite.mpr ⟨fun _ => wp_bind.mpr ?_, fun _ => hneg (.refl hm₁) le_rfl⟩
    rw [cpupDirs, dParent_append]
    refine wp_ite.mpr ⟨fun _ => wp_pure.mpr (hneg (.refl hm₁) le_rfl), fun _ => ?_⟩
    refine ((wp_cpupDirsLoop_grew hbr (List.prefix_refl dir) hm₁).and (mono_cpupDirsLoop _).wp).mono
      (fun _ _ h => hneg h.1.1 h.2) fun _ m' h => ?_
    refine ⟨h.1.nodes.imp (fun hgrew => ⟨b, hbend, hgrew.congr hnode₁ hpath₁ rfl⟩) fun hfails => hfails₁ ▸ hfails,
      fun q hq hne => ?_⟩
    rw [h.1.others q hq]
    exact hdi₁ q hne

/-- `wr_dir` prepares a branch for the entry or stops on the way. -/
theorem wp_wrDir_prepared (hknown : m.EntryKnown sb dir name)
    (hforce : ForceOk sb (m.di (dir ++ [name])) (m.hi (dir ++ [name])) forceBtgt) :
    wp (wrDir sb (dir ++ [name]) true src forceBtgt)
      (fun b m' => Mount.Prepared sb m dir name b m' ∧ m.fails ≤ m'.fails)
      (fun _ m' => Mount.NotPrepared sb m dir name m' ∧ m.fails ≤ m'.fails) m := by
  refine (((wp_wrDir_fitFor hknown hforce).and (wp_wrDir_frame hknown hforce)).and mono_wrDir.wp).mono ?_ ?_
  · exact fun b m' h => ⟨⟨h.1.1, h.1.2⟩, h.2⟩
  · exact fun e m' h => ⟨h.1.2, h.2⟩

end Aufs
