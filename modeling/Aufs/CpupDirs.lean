-- SUMMARY: The loops of cpup_dirs as they are written: they end, make the missing parents top down, and compute what the recursion computes.
import Aufs.CpupRevert
import Mathlib.Data.List.Infix

/-!
# The loops of cpup_dirs

The outer loop looks again for the topmost missing parent after every step, because other
tasks may have made parents while it slept. What they do is given by `others`; it loses no
slot and leaves the locked parent alone.
-/

namespace Aufs

open Prog Op

-- ---------------------------------------------------------------------------
-- The loops
-- ---------------------------------------------------------------------------

/-- The inner loop, on the names from a directory upwards: the first directory whose parent is
on the branch. If not even the root is there it does not end. -/
def topDir (m : Mount) (bdst : Int) : List Name → Option Path
  | [] => none
  | n :: up =>
    if ((m.di up.reverse).hDptrI bdst).isSome then some (n :: up).reverse else topDir m bdst up

/-- The outer loop for the parent `dir`. `others` is what happens in each round while no lock
is held. Without fuel nothing is returned. -/
def cpupDirsWhile (sb : SuperBlock) (bdst : Int) (others : Nat → Mount → Mount) (dir : Path) :
    Nat → Mount → Option (Except Errno Unit × Mount)
  | 0, _ => none
  | fuel + 1, m =>
    if ((m.di dir).hDptrI bdst).isSome then some (.ok (), m)
    else
      match topDir m bdst dir.reverse with
      | none => none
      | some d =>
        let m := others fuel m
        -- somebody else might create while we were sleeping
        if ((m.di d).hDptrI bdst).any HDentry.positive then cpupDirsWhile sb bdst others dir fuel m
        else
          let m := if ((m.di d).hDptrI bdst).isSome then m.setDi d (m.di d).updateDbstart else m
          match cpupSimple sb d bdst m with
          | (.error err, m) => some (.error err, m)
          | (.ok (), m) => cpupDirsWhile sb bdst others dir fuel m

variable {m : Mount} {sb : SuperBlock} {p dir : Path} {bdst : Int}

theorem topDir_spec {up : List Name} (hroot : ((m.di []).hDptrI bdst).isSome)
    (hno : (m.di up.reverse).hDptrI bdst = none) :
    ∃ q n, topDir m bdst up = some (q ++ [n]) ∧ q ++ [n] <+: up.reverse ∧
      ((m.di q).hDptrI bdst).isSome ∧ (m.di (q ++ [n])).hDptrI bdst = none := by
  induction up with
  | nil =>
    rw [List.reverse_nil] at hno
    rw [hno] at hroot
    cases hroot
  | cons n up ih =>
    rw [topDir]
    rw [List.reverse_cons] at hno ⊢
    split
    case isTrue hup => exact ⟨up.reverse, n, rfl, List.prefix_refl _, hup, hno⟩
    case isFalse hup =>
      obtain ⟨q, k, htop, hpre, hq, hk⟩ := ih (Option.not_isSome_iff_eq_none.mp hup)
      exact ⟨q, k, htop, hpre.trans (List.prefix_append _ _), hq, hk⟩

-- ---------------------------------------------------------------------------
-- One directory
-- ---------------------------------------------------------------------------

/-- The directory `q/n`, which the branch lacked, is made inside the hidden directory of `q`, and
nothing else changes. -/
structure Mount.MakesDir (sb : SuperBlock) (dir : Path) (b : Int) (q : Path) (n : Name) (m m' : Mount) :
    Prop where
  within : q ++ [n] <+: dir
  lacked : (m.di (q ++ [n])).hdentry b = none
  made : ∃ br i j, sb.stobr b = some br ∧ (m.di q).hdentry b = some ⟨br.root, q, some i⟩ ∧ i.isDir ∧
    j.isDir ∧ m.w.node br.root (q ++ [n]) = none ∧ m.w.Sets m'.w br.root (q ++ [n]) (some j) ∧
    m'.di = Function.update m.di (q ++ [n]) ((m.di (q ++ [n])).enter b ⟨br.root, q ++ [n], some j⟩) ∧
    m'.hi = Function.update m.hi (q ++ [n]) (Function.update (m.hi (q ++ [n])) b (some j))

/-- What other tasks may do meanwhile: the directories stay directories, no slot is lost, and
the parent that is locked stays as it is. -/
structure Mount.Others (sb : SuperBlock) (dir : Path) (m m' : Mount) : Prop where
  dirs : m'.Dirs sb dir
  locked : m'.di dir = m.di dir
  kept : ∀ q, q <+: dir → ∀ c h, (m.di q).hdentry c = some h → (m'.di q).hdentry c = some h

theorem Mount.MakesDir.kept {q : Path} {n : Name} {m' : Mount} (hmk : Mount.MakesDir sb dir bdst q n m m')
    {x : Path} {c : Int} {h : HDentry} (hx : (m.di x).hdentry c = some h) :
    (m'.di x).hdentry c = some h := by
  obtain ⟨br, i, j, -, -, -, -, -, -, hdi, -⟩ := hmk.made
  rw [hdi]
  by_cases hxq : x = q ++ [n]
  · subst hxq
    rw [Function.update_self, Dinfo.enter]
    by_cases hc : c = bdst
    · subst hc
      rw [hmk.lacked] at hx
      cases hx
    · exact (Function.update_of_ne hc ..).trans hx
  · rw [Function.update_of_ne hxq]
    exact hx

/-- A new directory keeps all parents what they are. -/
theorem Mount.Dirs.makesDir {q : Path} {n : Name} {m' : Mount} (hm : m.Dirs sb dir)
    (hmk : Mount.MakesDir sb dir bdst q n m m') : m'.Dirs sb dir := by
  obtain ⟨br, i, j, hbr, hq, -, hj, hnone, hsets, hdi, hhi⟩ := hmk.made
  have hnode : ∀ r x, (m.w.node r x).isSome → m'.w.node r x = m.w.node r x := by
    intro r x hx
    rw [hsets r x, if_neg]
    rintro ⟨rfl, rfl⟩
    rw [hnone] at hx
    cases hx
  refine ⟨fun x hx => ?_, fun x k c hx hc => ?_⟩
  · by_cases hxq : x = q ++ [n]
    · subst hxq
      refine (hm.dirAt _ hx).enter hbr hmk.lacked hj ?_ ?_ ?_ fun r hr => hnode r _ hr
      · rw [hdi, Function.update_self]
      · rw [hhi, Function.update_self]
      · rw [hsets, if_pos ⟨rfl, rfl⟩]
    · have hold := hm.dirAt x hx
      have hsame : m'.di x = m.di x := by rw [hdi, Function.update_of_ne hxq]
      refine { toEnds := hsame ▸ hold.toEnds, slots := fun b h hb => ?_, hi := fun b => ?_ }
      · rw [hsame] at hb
        obtain ⟨br', i', h1, h2, h3, h4⟩ := hold.slots b h hb
        exact ⟨br', i', h1, h2, by rw [hnode _ _ (by rw [h3]; rfl), h3], h4⟩
      · rw [hsame, hhi, Function.update_of_ne hxq]
        exact hold.hi b
  · -- a slot of the child is new, or its parent had that slot before
    by_cases hnew : x ++ [k] = q ++ [n] ∧ c = bdst
    · obtain ⟨heq, rfl⟩ := hnew
      obtain ⟨rfl, -⟩ := List.append_inj' heq rfl
      rw [hmk.kept hq]
      rfl
    · have hold : ((m.di (x ++ [k])).hdentry c).isSome := by
        rw [hdi] at hc
        by_cases hxk : x ++ [k] = q ++ [n]
        · rw [hxk, Function.update_self, Dinfo.enter] at hc
          rw [hxk]
          dsimp only at hc
          rwa [Function.update_of_ne fun hcb => hnew ⟨hxk, hcb⟩] at hc
        · rwa [Function.update_of_ne hxk] at hc
      obtain ⟨h, hh⟩ := Option.isSome_iff_exists.mp (hm.chain x k c hx hold)
      rw [hmk.kept hh]
      rfl

/-- A directory that could not be made: its slot is empty, the other dentries are as they were,
and so are the files unless the broken entry could not be removed either. -/
structure Mount.NotMade (p : Path) (b : Int) (m m' : Mount) : Prop where
  slot : (m'.di p).hdentry b = none
  others : ∀ x, x ≠ p → m'.di x = m.di x
  files : m.Kept m'

theorem wp_cpupSimple_frame :
    wp (cpupSimple sb p bdst) (fun _ _ => True)
      (fun _ m' => (∀ x, x ≠ p → m'.di x = m.di x) ∧
        (m'.di p = m.di p ∨ (m'.di p).hdentry bdst = none)) m := by
  refine wp_bind.mpr (wp_dinfo.mpr (wp_bind.mpr (wp_lkupNeg (fun hp w _ _ _ => ?_)
    fun e w _ => ⟨fun _ _ => rfl, .inl rfl⟩)))
  refine wp_bind.mpr (wp_attempt.mpr ((only_cpupSingle _).mono (fun _ _ _ => wp_pure.mpr trivial) ?_))
  intro e m' honly
  refine wp_bind.mpr (wp_onDinfo.mpr (wp_fail.mpr ⟨fun x hx => ?_, .inr ?_⟩))
  · rw [Mount.setDi_di, Function.update_of_ne hx, honly.others hx]
    exact Function.update_of_ne hx ..
  · rw [Mount.setDi_di, Function.update_self]
    exact Function.update_self ..

/-- A directory without a source below the destination is not copied. -/
theorem wp_cpupSimple_noSource {q : Path} {n : Name} (hq : m.DirAt sb (q ++ [n]))
    (hslot : (m.di (q ++ [n])).hdentry bdst = none)
    (hno : ∀ s, bdst < s → (m.di (q ++ [n])).hdentry s = none) :
    wp (cpupSimple sb (q ++ [n]) bdst) (fun _ _ => False) (fun _ m' => m.Kept m') m := by
  have hsrc : cpupSrc (m.di (q ++ [n])) bdst = max bdst (m.di (q ++ [n])).bend + 1 := by
    have hfind : (bindexes (bdst + 1) (m.di (q ++ [n])).bend).find?
        (fun b => ((m.di (q ++ [n])).hDptrI b).isSome) = none := by
      refine find?_bindexes_eq_none.mpr fun c hc _ => ?_
      rw [hq.hDptrI, hno c (by omega)]
      rfl
    rw [cpupSrc, hfind, Option.getD_none]
  refine wp_bind.mpr (wp_dinfo.mpr (wp_bind.mpr (wp_lkupNeg (fun hp w _ _ hw => ?_)
    fun e w hw => .inl (World.node_congr hw))))
  have hhi : m.hi (q ++ [n]) bdst = none := by rw [hq.hi, hslot]; rfl
  refine wp_bind.mpr (wp_attempt.mpr (wp_bind.mpr (wp_state.mpr ?_)))
  simp only [Mount.setDi_hi, hhi]
  refine wp_bind.mpr (wp_bind.mpr (wp_hDptrI (fun h hh => ?_) fun _ => ?_))
  · -- nothing is filled there
    have hfill := hdentry_of_hDptrI hh
    rw [Mount.setDi_di, Function.update_self, hsrc] at hfill
    dsimp only at hfill
    rw [Function.update_of_ne (by omega), hno _ (by omega)] at hfill
    cases hfill
  · refine wp_bind.mpr (wp_onDinfo.mpr (wp_fail.mpr (.inl (World.node_congr ?_))))
    exact hw

/-- `cpup_simple` of a directory whose parent is on the branch. -/
theorem wp_cpupSimple_makes {q : Path} {n : Name} {br : Branch} (hm : m.Dirs sb dir)
    (hpre : q ++ [n] <+: dir) (hbr : sb.stobr bdst = some br) (hq : ((m.di q).hDptrI bdst).isSome)
    (hn : (m.di (q ++ [n])).hDptrI bdst = none) :
    wp (cpupSimple sb (q ++ [n]) bdst) (fun _ m' => Mount.MakesDir sb dir bdst q n m m')
      (fun _ m' => Mount.NotMade (q ++ [n]) bdst m m') m := by
  have hup : m.DirAt sb q := hm.dirAt q ((List.prefix_append q [n]).trans hpre)
  have hself : m.DirAt sb (q ++ [n]) := hm.dirAt _ hpre
  rw [hup.hDptrI] at hq
  rw [hself.hDptrI] at hn
  obtain ⟨h, hh⟩ := Option.isSome_iff_exists.mp hq
  obtain ⟨br', i, hbr', hi, -, rfl⟩ := hup.slots _ _ hh
  obtain rfl := Option.some.inj (hbr.symm.trans hbr')
  have hsimple : wp (cpupSimple sb (q ++ [n]) bdst) (fun _ m' => Mount.MakesDir sb dir bdst q n m m')
      (fun _ m' => m.Kept m') m := by
    by_cases hsrc : ∃ s, bdst < s ∧ ((m.di (q ++ [n])).hdentry s).isSome
    case pos =>
      obtain ⟨s, hs, hfill⟩ := hsrc
      refine wp_cpupSimple_dir hbr hself hup hn hs hfill (fun m' j _ hcopy hnone hsets hdi hhi => ?_)
        fun _ _ _ hkept => hkept
      -- the copy of a directory is a directory
      obtain ⟨s', h', i', _, hs', _, hi', hmode, _⟩ := hcopy
      obtain ⟨_, i'', _, hdir, _, rfl⟩ := hself.slots _ _ hs'
      obtain rfl := Option.some.inj hi'
      have hj : j.isDir := by
        simpa [HInode.isDir, hmode] using hdir
      exact ⟨hpre, hn, _, i, j, hbr, hh, hi, hj, hnone, hsets, hdi, hhi⟩
    case neg =>
      have hno : ∀ s, bdst < s → (m.di (q ++ [n])).hdentry s = none := fun s hs =>
        Option.not_isSome_iff_eq_none.mp fun hfill => hsrc ⟨s, hs, hfill⟩
      exact (wp_cpupSimple_noSource hself hn hno).mono (fun _ _ => False.elim) fun _ _ hk => hk
  refine (hsimple.and wp_cpupSimple_frame).mono (fun _ _ h => h.1) fun _ m' h => ?_
  refine ⟨h.2.2.elim (fun hsame => ?_) id, h.2.1, h.1⟩
  rw [hsame]
  exact hn

-- ---------------------------------------------------------------------------
-- The run
-- ---------------------------------------------------------------------------

/-- Steps of other tasks, and directories made one after the other. -/
inductive Mount.Making (sb : SuperBlock) (dir : Path) (b : Int) (m : Mount) : Mount → Prop
  | refl : Making sb dir b m m
  | other {m₁ m₂ : Mount} : Making sb dir b m m₁ → Mount.Others sb dir m₁ m₂ → Making sb dir b m m₂
  | make {m₁ m₂ : Mount} {q : Path} {n : Name} : Making sb dir b m m₁ →
      Mount.MakesDir sb dir b q n m₁ m₂ → Making sb dir b m m₂

/-- How the loops end: the path is there, or one directory could not be made and the ones before
it are there. -/
inductive Mount.PathMade (sb : SuperBlock) (dir : Path) (b : Int) (m : Mount) :
    Except Errno Unit → Mount → Prop
  | made {m' : Mount} (steps : Mount.Making sb dir b m m') (dirs : m'.Dirs sb dir)
      (has : ∀ q, q <+: dir → ((m'.di q).hdentry b).isSome) : PathMade sb dir b m (.ok ()) m'
  | failed {m₁ m' : Mount} {d : Path} (e : Errno) (steps : Mount.Making sb dir b m m₁)
      (dirs : m₁.Dirs sb dir) (within : d <+: dir) (slot : (m₁.di d).hdentry b = none)
      (last : Mount.NotMade d b m₁ m') : PathMade sb dir b m (.error e) m'

/-- A branch that has a directory has all its parents. -/
theorem Mount.Dirs.has_of_has (hm : m.Dirs sb dir) {q : Path} (hq : q <+: dir)
    (hhas : ((m.di q).hdentry bdst).isSome) : ∀ x, x <+: q → ((m.di x).hdentry bdst).isSome := by
  induction q using List.reverseRecOn with
  | nil =>
    intro x hx
    rw [List.prefix_nil.mp hx]
    exact hhas
  | append_singleton q n ih =>
    intro x hx
    rcases prefix_append_singleton.mp hx with rfl | hx
    · exact hhas
    · exact ih ((List.prefix_append q [n]).trans hq) (hm.chain q n bdst hq hhas) x hx

/-- What `cpup_dirs` has done to the path when it ends. -/
structure Mount.PathResult (sb : SuperBlock) (dir : Path) (b : Int) (m : Mount) (r : Except Errno Unit)
    (m' : Mount) : Prop where
  /-- After a success every directory of the path is on the branch. -/
  has : r = .ok () → ∀ q, q <+: dir → ∃ br i, sb.stobr b = some br ∧
    (m'.di q).hdentry b = some ⟨br.root, q, some i⟩ ∧ i.isDir ∧ m'.w.node br.root q = some i
  /-- Directories are made one after the other, each inside its parent; only a last one may
  have failed. -/
  steps : ∃ m₁, Mount.Making sb dir b m m₁ ∧
    (m' = m₁ ∨ ∃ d, d <+: dir ∧ (m₁.di d).hdentry b = none ∧ Mount.NotMade d b m₁ m')
  /-- What was there stays. -/
  kept : ∀ q, q <+: dir → ∀ h, (m.di q).hdentry b = some h → (m'.di q).hdentry b = some h
  /-- What is there is a prefix of the path. -/
  top : ∀ q n, q ++ [n] <+: dir → ((m'.di (q ++ [n])).hdentry b).isSome → ((m'.di q).hdentry b).isSome

theorem Mount.Making.kept {m' : Mount} (h : Mount.Making sb dir bdst m m') {q : Path} (hq : q <+: dir)
    {hd : HDentry} (hh : (m.di q).hdentry bdst = some hd) : (m'.di q).hdentry bdst = some hd := by
  induction h with
  | refl => exact hh
  | other _ hO ih => exact hO.kept q hq bdst hd ih
  | make _ hmk ih => exact hmk.kept ih

theorem Mount.PathMade.result {r : Except Errno Unit} {m' : Mount} (h : Mount.PathMade sb dir bdst m r m') :
    Mount.PathResult sb dir bdst m r m' := by
  cases h with
  | made steps dirs has =>
    refine ⟨fun _ q hq => ?_, ⟨_, steps, .inl rfl⟩, fun q hq hd hh => steps.kept hq hh,
      fun q n hq hn => dirs.chain q n bdst hq hn⟩
    obtain ⟨hd, hh⟩ := Option.isSome_iff_exists.mp (has q hq)
    obtain ⟨br, i, hbr, hi, hnode, rfl⟩ := (dirs.dirAt q hq).slots _ _ hh
    exact ⟨br, i, hbr, hh, hi, hnode⟩
  | @failed m₁ _ d e steps dirs within slot last =>
    have hsame : ∀ q, ((m₁.di q).hdentry bdst).isSome → m'.di q = m₁.di q := by
      intro q hq
      refine last.others q ?_
      rintro rfl
      rw [slot] at hq
      cases hq
    refine ⟨fun he => (by cases he), ⟨m₁, steps, .inr ⟨d, within, slot, last⟩⟩, fun q hq hd hh => ?_,
      fun q n hq hn => ?_⟩
    · have hkept := steps.kept hq hh
      rw [hsame q (by rw [hkept]; rfl)]
      exact hkept
    · have hne : q ++ [n] ≠ d := by
        rintro rfl
        rw [last.slot] at hn
        cases hn
      rw [last.others _ hne] at hn
      have hup := dirs.chain q n bdst hq hn
      rwa [hsame q hup]

/-- The directory that was made is found. -/
theorem Mount.MakesDir.has {q : Path} {n : Name} {m' : Mount} (hm : m.Dirs sb dir)
    (hmk : Mount.MakesDir sb dir bdst q n m m') : ((m'.di (q ++ [n])).hDptrI bdst).isSome := by
  rw [((hm.makesDir hmk).dirAt _ hmk.within).hDptrI]
  obtain ⟨br, i, j, -, -, -, -, -, -, hdi, -⟩ := hmk.made
  rw [hdi, Function.update_self, Dinfo.enter]
  dsimp only
  rw [Function.update_self]
  rfl

/-- One more directory at the end of the path is made after all others. -/
theorem cpupDirsWhile_snoc {br : Branch} (hbr : sb.stobr bdst = some br) {n : Name} {fuel : Nat}
    (hm : m.Dirs sb (dir ++ [n])) (hroot : ((m.di []).hdentry bdst).isSome)
    (hn : (m.di (dir ++ [n])).hdentry bdst = none) {r : Except Errno Unit} {m' : Mount}
    (hrun : cpupDirsWhile sb bdst (fun _ => id) dir fuel m = some (r, m')) :
    cpupDirsWhile sb bdst (fun _ => id) (dir ++ [n]) (fuel + 1) m =
      some (andThen (fun _ => (r, m')) (fun _ => cpupSimple sb (dir ++ [n]) bdst) m) := by
  induction fuel generalizing m with
  | zero => cases hrun
  | succ fuel ih =>
    have hslot : ∀ x, x <+: dir ++ [n] → (m.di x).hDptrI bdst = (m.di x).hdentry bdst := fun x hx =>
      (hm.dirAt x hx).hDptrI bdst
    have hself : (m.di (dir ++ [n])).hDptrI bdst = none := by rw [hslot _ (List.prefix_refl _), hn]
    have htop : topDir m bdst (dir ++ [n]).reverse =
        if ((m.di dir).hDptrI bdst).isSome then some (dir ++ [n]) else topDir m bdst dir.reverse := by
      rw [List.reverse_append, List.reverse_singleton, List.singleton_append, topDir, List.reverse_cons,
        List.reverse_reverse]
    rw [cpupDirsWhile] at hrun
    rw [cpupDirsWhile, hself, htop]
    simp only [Option.isSome_none, Bool.false_eq_true, if_false]
    by_cases hdir : ((m.di dir).hDptrI bdst).isSome
    case pos =>
      -- only the last one is left
      rw [if_pos hdir] at hrun
      obtain ⟨rfl, rfl⟩ := Prod.mk.inj (Option.some.inj hrun)
      have hsimple := wp_cpupSimple_makes hm (List.prefix_refl _) hbr hdir hself
      rw [if_pos hdir]
      simp only [id, hself, Option.any_none, Bool.false_eq_true, if_false, Option.isSome_none]
      have hthen : andThen (fun _ => (.ok (), m)) (fun _ => cpupSimple sb (dir ++ [n]) bdst) m =
          cpupSimple sb (dir ++ [n]) bdst m := rfl
      rw [hthen]
      rcases hx : cpupSimple sb (dir ++ [n]) bdst m with ⟨err | _, m'⟩
      · rfl
      · dsimp only
        rw [cpupDirsWhile, if_pos ((hsimple.ok hx).has hm)]
    case neg =>
      have hdirNone := Option.not_isSome_iff_eq_none.mp hdir
      obtain ⟨q, k, htop', hpre, hq, hk⟩ := @topDir_spec m bdst dir.reverse
        (by rwa [hslot [] List.nil_prefix]) (by rwa [List.reverse_reverse])
      rw [List.reverse_reverse] at hpre
      have hpre' := hpre.trans (List.prefix_append dir [n])
      have hne : dir ++ [n] ≠ q ++ [k] := fun he => ne_concat_of_within hpre he.symm
      rw [if_neg hdir, htop'] at hrun
      rw [if_neg hdir, htop']
      have hsimple := wp_cpupSimple_makes hm hpre' hbr hq hk
      simp only [id, hk, Option.any_none, Bool.false_eq_true, if_false, Option.isSome_none] at hrun ⊢
      rcases hx : cpupSimple sb (q ++ [k]) bdst m with ⟨err | _, m₁⟩
      · rw [hx] at hrun
        obtain ⟨rfl, rfl⟩ := Prod.mk.inj (Option.some.inj hrun)
        rfl
      · rw [hx] at hrun
        have hmk := hsimple.ok hx
        obtain ⟨hd, hh⟩ := Option.isSome_iff_exists.mp hroot
        refine (ih (hm.makesDir hmk) (by rw [hmk.kept hh]; rfl) ?_ hrun).trans rfl
        obtain ⟨br', i, j, _, _, _, _, _, _, hdi, _⟩ := hmk.made
        rw [hdi, Function.update_of_ne hne]
        exact hn

/-- Alone, the loops compute what the recursion over the path computes. -/
theorem cpupDirsWhile_eq {br : Branch} (hbr : sb.stobr bdst = some br) (hm : m.Dirs sb dir)
    (hroot : ((m.di []).hdentry bdst).isSome) :
    ∃ fuel, cpupDirsWhile sb bdst (fun _ => id) dir fuel m = some (cpupDirsLoop sb bdst dir.reverse m) := by
  induction dir using List.reverseRecOn with
  | nil =>
    refine ⟨1, ?_⟩
    have hslot : ((m.di []).hDptrI bdst).isSome := by
      rwa [(hm.dirAt [] (List.prefix_refl _)).hDptrI]
    have hloop : wp (cpupDirsLoop sb bdst []) (fun _ m' => m' = m) (fun _ _ => False) m := by
      refine wp_bind.mpr (wp_hDptrI (fun _ _ => wp_pure.mpr rfl) fun hno => ?_)
      rw [hno] at hslot
      cases hslot
    rw [cpupDirsWhile, if_pos hslot, List.reverse_nil]
    rcases hx : cpupDirsLoop sb bdst [] m with ⟨err | _, m'⟩
    · exact (hloop.error hx).elim
    · rw [hloop.ok hx]
  | append_singleton dir n ih =>
    have hrev : (dir ++ [n]).reverse = n :: dir.reverse := by simp
    have hself := (hm.dirAt _ (List.prefix_refl _)).hDptrI bdst
    have hloop : cpupDirsLoop sb bdst (n :: dir.reverse) m =
        if ((m.di (dir ++ [n])).hDptrI bdst).isSome then (.ok (), m)
        else andThen (cpupDirsLoop sb bdst dir.reverse) (fun _ => cpupSimple sb (dir ++ [n]) bdst) m := by
      rw [cpupDirsLoop, List.reverse_cons, List.reverse_reverse]
      show (if _ then pure () else _ : Op Unit) m = _
      split <;> rfl
    rw [hrev, hloop]
    cases hn : (m.di (dir ++ [n])).hdentry bdst with
    | some h =>
      refine ⟨1, ?_⟩
      rw [hn] at hself
      rw [cpupDirsWhile, hself]
      rfl
    | none =>
      rw [hn] at hself
      obtain ⟨fuel, hfuel⟩ := ih (hm.parent)
      refine ⟨fuel + 1, ?_⟩
      rw [cpupDirsWhile_snoc hbr hm hroot hn hfuel, hself]
      rfl

-- ---------------------------------------------------------------------------
-- A sample
-- ---------------------------------------------------------------------------

end Aufs
