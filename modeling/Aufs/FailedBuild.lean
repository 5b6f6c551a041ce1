-- SUMMARY: What a read_vdir that fails leaves behind, and which streams are served it.
import Aufs.Fresh

/-!
# Failed builds

`read_vdir` builds the shared `vdir` of a directory again in place. When that fails, the
names merged so far stay in it with version 0. A run of streams remembers here whether the
shared `vdir` is such a remainder, which streams have a copy of one, and whether a
call that returned 0 ever filled or kept a stream with one.
-/

namespace Aufs

/-- A directory with its streams. No part of the program are: `left`, the shared `vdir` is
what a failed `read_vdir` left; `copies`, the own `vdir` of the stream was copied from
one like that; `served`, an `au_init_vdir` returned 0 and the stream has such a copy. -/
structure BuildSys where
  sys : FreshSys
  left : Bool
  copies : Nat → Bool
  served : Bool

namespace BuildSys

open FreshSys

variable (hash : Name → Nat) (hz : BitVec 32)

/-- An inode that was just allocated, without streams. -/
def init (isRoot : Bool) (sb : SuperBlock) (rdcache : BitVec 32) (w : World) : BuildSys :=
  ⟨FreshSys.init hz isRoot sb rdcache w, false, fun _ => false, false⟩

/-- What `read_vdir` returns for the stream `f`. -/
def readRes (s : BuildSys) (f : DirFile) : Except Errno Unit :=
  (readVdir hash s.sys.sb (f.pos = 0) s.sys.dir.ino f s.sys.dir.w).1

/-- What `au_init_vdir` returns for the stream `f`. -/
def initRes (s : BuildSys) (f : DirFile) : Except Errno Unit :=
  (auInitVdir hash s.sys.sb s.sys.dir.ino f s.sys.dir.w).1

/-- Is the shared `vdir` what a failed `read_vdir` left, after that for the stream `f`? A new
`vdir` is freed when it fails. -/
def leftAfter (s : BuildSys) (f : DirFile) : Bool :=
  match vdirPlan s.sys.sb (f.pos = 0) s.sys.dir.ino s.sys.dir.w with
  | .serve => s.left
  | .new => false
  | .again _ => !isOk (s.readRes hash f)

/-- Has the stream a copy of one, after `au_init_vdir`? A copy that fails is emptied. -/
def copiesAfter (s : BuildSys) (fd : Nat) (f : DirFile) : Bool :=
  if isOk (s.readRes hash f) && takesCopy f then isOk (s.initRes hash f) && s.leftAfter hash f
  else s.copies fd

/-- What a `getdents` does to the history. -/
def readdir (s : BuildSys) (fd : Nat) : BuildSys :=
  match s.sys.dir.files fd with
  | none => s
  | some f =>
    { s with
      left := s.leftAfter hash f
      copies := Function.update s.copies fd (s.copiesAfter hash fd f)
      served := s.served || (isOk (s.initRes hash f) && s.copiesAfter hash fd f) }

/-- What an event does to the history: only a `getdents` builds and copies, and a stream
that is opened has no copy. -/
def note (s : BuildSys) : FreshEvent → BuildSys
  | .getdents fd _ => s.readdir hash fd
  | .opened fd _ _ => { s with copies := Function.update s.copies fd false }
  | _ => s

/-- One event. -/
def step (s : BuildSys) (e : FreshEvent) : BuildSys :=
  { s.note hash e with sys := s.sys.step hash hz e }

-- ---------------------------------------------------------------------------
-- The condition
-- ---------------------------------------------------------------------------

/-- `read_vdir` builds the shared `vdir` of version 0 again: the stream is at offset 0, and
`i_version` is not 0 or the stamp is too old. -/
def BuildsAgain (s : BuildSys) (f : DirFile) : Prop :=
  f.pos = 0 ∧ (s.sys.dir.ino.version ≠ 0 ∨ ∀ vd, s.sys.dir.ino.vdir = some vd →
    Ticks.timeAfter s.sys.dir.w.jiffies (vd.jiffy + s.sys.sb.rdcache) = true)

/-- The condition on an event: where the shared `vdir` is what a failed `read_vdir` left, a
stream that takes a copy makes `read_vdir` build it again. -/
def Meets (s : BuildSys) : FreshEvent → Prop
  | .getdents fd _ => s.left = true → ∀ f, s.sys.dir.files fd = some f → takesCopy f = true →
      s.BuildsAgain f
  | _ => True

/-- Events that meet the condition, one after another. -/
def Run : BuildSys → BuildSys → Prop :=
  Relation.ReflTransGen fun s s' => ∃ e : FreshEvent, s.Meets e ∧ s' = s.step hash hz e

-- ---------------------------------------------------------------------------
-- What an event preserves
-- ---------------------------------------------------------------------------

/-- What a failed `read_vdir` left is there, and of version 0. -/
def LeftInv (s : BuildSys) : Prop :=
  s.left = true → ∃ vd, s.sys.dir.ino.vdir = some vd ∧ vd.version = 0

variable {hash hz} {s : BuildSys}

/-- Of version 0, `read_vdir` keeps the shared `vdir` for a stream unless it builds it again. -/
theorem LeftInv.plan_serve_iff (h : s.LeftInv) (hleft : s.left = true) (f : DirFile) :
    vdirPlan s.sys.sb (f.pos = 0) s.sys.dir.ino s.sys.dir.w = .serve ↔ ¬s.BuildsAgain f := by
  obtain ⟨vd, hvd, hver⟩ := h hleft
  have hall : (∀ vd', s.sys.dir.ino.vdir = some vd' →
      Ticks.timeAfter s.sys.dir.w.jiffies (vd'.jiffy + s.sys.sb.rdcache) = true) ↔
      Ticks.timeAfter s.sys.dir.w.jiffies (vd.jiffy + s.sys.sb.rdcache) = true :=
    ⟨fun h => h vd hvd, fun h vd' hvd' => Option.some.inj (hvd.symm.trans hvd') ▸ h⟩
  simp only [vdirPlan, hvd, hver, BuildsAgain] at hall ⊢
  rw [hall]
  split
  · rename_i hagain
    simp only [Bool.and_eq_true, Bool.or_eq_true, decide_eq_true_eq] at hagain
    exact iff_of_false (by simp) (fun hno => hno hagain)
  · rename_i hserve
    simp only [Bool.and_eq_true, Bool.or_eq_true, decide_eq_true_eq] at hserve
    exact iff_of_true rfl hserve

/-- After `read_vdir` a remainder is there and of version 0. -/
theorem LeftInv.read (h : s.LeftInv) {f : DirFile} (hleft : s.leftAfter hash f = true) :
    ∃ vd, (readVdir hash s.sys.sb (f.pos = 0) s.sys.dir.ino f s.sys.dir.w).2.1.vdir = some vd ∧
      vd.version = 0 := by
  unfold leftAfter at hleft
  split at hleft
  · rename_i hplan
    rw [readVdir_serve hplan]
    exact h hleft
  · cases hleft
  · rename_i vd hplan
    have hne : vdirPlan s.sys.sb (f.pos = 0) s.sys.dir.ino s.sys.dir.w ≠ .serve := by
      rw [hplan]
      simp
    obtain ⟨hre, -, -⟩ := @readVdir_rebuilt hash s.sys.sb _ _ _ _ _ _ _ _ hne rfl
    have hfailed : isOk (s.readRes hash f) = false := by simpa using hleft
    have hsome : (readVdir hash s.sys.sb (f.pos = 0) s.sys.dir.ino f s.sys.dir.w).2.1.vdir.isSome := by
      simp only [readVdir, hplan]
      split <;> rfl
    obtain ⟨vd', hvd'⟩ := Option.isSome_iff_exists.mp hsome
    exact ⟨vd', hvd', hre.failed hfailed vd' hvd'⟩

/-- What the other events do to the shared `vdir`. -/
theorem step_vdir (s : FreshSys) {e : FreshEvent} (he : ∀ fd n, e ≠ .getdents fd n) :
    (s.step hash hz e).dir.ino.vdir = s.dir.ino.vdir ∨
      (s.step hash hz e).dir.ino.vdir = s.dir.ino.vdir.map fun vd => { vd with jiffy := 0 } := by
  cases e with
  | getdents fd n => exact absurd rfl (he fd n)
  | notified => exact .inr rfl
  | remount sb rdcache doRefresh =>
      refine .inl ?_
      simp only [FreshSys.step, FreshSys.apply, sigenInc]
      repeat' split
      all_goals rfl
  | opened fd d h => exact .inl rfl
  | seek fd pos => exact .inl rfl
  | release fd => exact .inl rfl
  | refile fd lo hi h hfile => exact .inl rfl
  | changed => exact .inl rfl
  | refreshed mem ii h d => exact .inl rfl
  | outside w ticks => exact .inl rfl

theorem LeftInv.step (h : s.LeftInv) (e : FreshEvent) : (s.step hash hz e).LeftInv := by
  by_cases he : ∃ fd n, e = .getdents fd n
  · obtain ⟨fd, n, rfl⟩ := he
    intro hleft
    simp only [BuildSys.step, note, BuildSys.readdir] at hleft
    cases hf : s.sys.dir.files fd with
    | none =>
        simp only [hf] at hleft
        simpa only [BuildSys.step, FreshSys.step, FreshSys.apply, FreshSys.readdir, hf] using h hleft
    | some f =>
        simp only [hf] at hleft
        obtain ⟨hino, -, -⟩ := getdents_dir hash s.sys.sb s.sys.dir n hf
        have hdir : (s.sys.step hash hz (.getdents fd n)).dir =
            (s.sys.dir.getdents hash s.sys.sb fd n).2 := by
          simp only [FreshSys.step, FreshSys.apply, FreshSys.readdir, hf]
          split <;> rfl
        simp only [BuildSys.step, hdir, hino]
        exact h.read hleft
  · have he' : ∀ fd n, e ≠ .getdents fd n := fun fd n hc => he ⟨fd, n, hc⟩
    intro hleft
    have hsame : s.left = true := by
      cases e with
      | getdents fd n => exact absurd rfl (he' fd n)
      | _ => exact hleft
    obtain ⟨vd, hvd, hver⟩ := h hsame
    rcases @step_vdir hash hz s.sys e he' with hv | hv
    · exact ⟨vd, hv.trans hvd, hver⟩
    · exact ⟨{ vd with jiffy := 0 }, hv.trans (by rw [hvd]; rfl), hver⟩

/-- Nobody has been served a remainder, and no stream has a copy of one. -/
structure Inv (s : BuildSys) : Prop where
  left : s.LeftInv
  copies : ∀ fd, s.copies fd = false
  served : s.served = false

theorem Inv.init (isRoot : Bool) (sb : SuperBlock) (rdcache : BitVec 32) (w : World) :
    (init hz isRoot sb rdcache w).Inv where
  left h := by simp [BuildSys.init] at h
  copies _ := rfl
  served := rfl

/-- Where the condition is met, no stream takes a copy of a remainder. -/
theorem Inv.copiesAfter (h : s.Inv) {fd n : Nat} {f : DirFile} (hf : s.sys.dir.files fd = some f)
    (hm : s.Meets (.getdents fd n)) : s.copiesAfter hash fd f = false := by
  unfold BuildSys.copiesAfter
  split
  · rename_i htake
    simp only [Bool.and_eq_true] at htake
    have hnot : s.leftAfter hash f = false := by
      unfold leftAfter
      split
      · rename_i hplan
        by_contra hleft
        have hleft : s.left = true := by simpa using hleft
        exact (h.left.plan_serve_iff hleft f).mp hplan (hm hleft f hf htake.2)
      · rfl
      · rw [htake.1]
        rfl
    rw [hnot, Bool.and_false]
  · exact h.copies fd

theorem Inv.step (h : s.Inv) {e : FreshEvent} (hm : s.Meets e) : (s.step hash hz e).Inv := by
  refine ⟨h.left.step e, fun fd => ?_, ?_⟩
  · cases e with
    | getdents fd' n =>
        simp only [BuildSys.step, note, BuildSys.readdir]
        cases hf : s.sys.dir.files fd' with
        | none => exact h.copies fd
        | some f =>
            simp only [Function.update_apply]
            split
            · exact h.copiesAfter hf hm
            · exact h.copies fd
    | opened fd' d h0 =>
        simp only [BuildSys.step, note, Function.update_apply]
        split
        · rfl
        · exact h.copies fd
    | _ => exact h.copies fd
  · cases e with
    | getdents fd n =>
        simp only [BuildSys.step, note, BuildSys.readdir]
        cases hf : s.sys.dir.files fd with
        | none => exact h.served
        | some f => simp only [h.served, h.copiesAfter hf hm, Bool.and_false, Bool.or_self]
    | _ => exact h.served

theorem Run.inv {isRoot : Bool} {sb : SuperBlock} {rdcache : BitVec 32} {w : World}
    (h : Run hash hz (BuildSys.init hz isRoot sb rdcache w) s) : s.Inv := by
  induction h with
  | refl => exact Inv.init isRoot sb rdcache w
  | tail _ hstep ih =>
      obtain ⟨e, hm, rfl⟩ := hstep
      exact ih.step hm

/-- Where the condition is not met, a call that returns 0 serves the remainder. -/
theorem LeftInv.unmet_serves (h : s.LeftInv) {fd n : Nat} {f : DirFile}
    (hf : s.sys.dir.files fd = some f) (hm : ¬s.Meets (.getdents fd n))
    (hok : s.initRes hash f = .ok ()) : (s.step hash hz (.getdents fd n)).served = true := by
  simp only [Meets, Classical.not_imp, not_forall] at hm
  obtain ⟨hleft, f', hf', htake, hno⟩ := hm
  obtain rfl := Option.some.inj (hf.symm.trans hf')
  have hplan := (h.plan_serve_iff hleft f).mpr hno
  have hread : s.readRes hash f = .ok () := by
    rw [readRes, readVdir_serve hplan]
  have hafter : s.leftAfter hash f = true := by
    simp only [leftAfter, hplan, hleft]
  simp only [BuildSys.step, note, BuildSys.readdir, hf, BuildSys.copiesAfter, hread, htake, hok,
    hafter, isOk, Bool.and_self, if_true, Bool.or_true]

/-- In a run that meets the condition, no `au_init_vdir` that returns 0 has filled or kept a
stream with what a failed `read_vdir` left. A `getdents` that does not meet it
and returns 0 does that. -/
theorem run_notServed {isRoot : Bool} {sb : SuperBlock} {rdcache : BitVec 32} {w : World}
    (h : Run hash hz (BuildSys.init hz isRoot sb rdcache w) s) :
    s.served = false ∧ ∀ fd n f, s.sys.dir.files fd = some f → ¬s.Meets (.getdents fd n) →
      s.initRes hash f = .ok () → (s.step hash hz (.getdents fd n)).served = true :=
  ⟨h.inv.served, fun _ _ _ hf hm hok => h.inv.left.unmet_serves hf hm hok⟩

-- ---------------------------------------------------------------------------
-- A build that fails in a directory with one file
-- ---------------------------------------------------------------------------

/-- The directory of `oneFileDentry` after these events. -/
def oneFileBuild (es : List FreshEvent) : BuildSys :=
  es.foldl (step List.length 250#32) (BuildSys.init 250#32 false oneFileSb 10#32 oneFileWorld)

/-- No memory is left. -/
def noMemory : World := { oneFileWorld with fault := fun _ => some .ENOMEM }

/-- The directory is read, a file is made in it, the stream is rewound, and the next build
fails. Then there is memory again. -/
def failedBuild : List FreshEvent :=
  [.opened 0 oneFileDentry oneFileDentry_nonneg, .getdents 0 9, .changed, .seek 0 0,
    .outside noMemory 0, .getdents 0 9, .outside oneFileWorld 0]

theorem meets_getdents {fd n : Nat} (h : (!s.left || (s.sys.dir.files fd).all fun f =>
    !takesCopy f || decide (f.pos = 0 ∧ s.sys.dir.ino.version ≠ 0)) = true) :
    s.Meets (.getdents fd n) := by
  intro hleft f hf htake
  simp only [hleft, hf, htake, Option.all_some, Bool.not_true, Bool.false_or, decide_eq_true_eq] at h
  exact ⟨h.1, .inl h.2⟩

/-- The stream itself is at offset 0: it makes `read_vdir` build again. -/
theorem run_notServed_failedBuild :
    (oneFileBuild failedBuild).left = true ∧
      ((oneFileBuild (failedBuild ++ [.getdents 0 9])).served = false ∧
        ∀ fd n f, (oneFileBuild (failedBuild ++ [.getdents 0 9])).sys.dir.files fd = some f →
          ¬(oneFileBuild (failedBuild ++ [.getdents 0 9])).Meets (.getdents fd n) →
          (oneFileBuild (failedBuild ++ [.getdents 0 9])).initRes List.length f = .ok () →
          ((oneFileBuild (failedBuild ++ [.getdents 0 9])).step List.length 250#32
            (.getdents fd n)).served = true) := by
  have hrun : Run List.length 250#32 (BuildSys.init 250#32 false oneFileSb 10#32 oneFileWorld)
      (oneFileBuild (failedBuild ++ [.getdents 0 9])) := by
    simp only [oneFileBuild, failedBuild, List.cons_append, List.nil_append, List.foldl_cons,
      List.foldl_nil]
    refine .tail (.tail (.tail (.tail (.tail (.tail (.tail (.single
      ⟨.opened 0 oneFileDentry oneFileDentry_nonneg, trivial, rfl⟩) ⟨.getdents 0 9, ?_, rfl⟩)
      ⟨.changed, trivial, rfl⟩) ⟨.seek 0 0, trivial, rfl⟩) ⟨.outside noMemory 0, trivial, rfl⟩)
      ⟨.getdents 0 9, ?_, rfl⟩) ⟨.outside oneFileWorld 0, trivial, rfl⟩) ⟨.getdents 0 9, ?_, rfl⟩
    · exact meets_getdents (by decide +kernel)
    · exact meets_getdents (by decide +kernel)
    · exact meets_getdents (by decide +kernel)
  exact ⟨by decide +kernel, run_notServed hrun⟩

/-- Another stream is opened, sought to offset 8 and read: it is filled with what is left,
which lists nothing. -/
theorem failedBuild_served :
    ∃ es, (oneFileBuild es).served = true ∧
      ∃ f own, (oneFileBuild es).sys.dir.files 1 = some f ∧ f.vdirCache = some own ∧ own.names = [] := by
  refine ⟨failedBuild ++ [.opened 1 oneFileDentry oneFileDentry_nonneg, .seek 1 8, .getdents 1 9],
    by decide +kernel, ?_⟩
  have hnames : ((oneFileBuild (failedBuild ++ [.opened 1 oneFileDentry oneFileDentry_nonneg,
      .seek 1 8, .getdents 1 9])).sys.dir.files 1).map (fun f => f.vdirCache.map Vdir.names) =
      some (some []) := by
    decide +kernel
  obtain ⟨f, hf, hown⟩ := Option.map_eq_some_iff.mp hnames
  obtain ⟨own, hc, hn⟩ := Option.map_eq_some_iff.mp hown
  exact ⟨f, own, hf, hc, hn⟩

end BuildSys

end Aufs
