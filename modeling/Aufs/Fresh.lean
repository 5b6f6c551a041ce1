-- SUMMARY: How old a listing is: the version and the stamp of the shared vdir, and the copies the streams keep of it.
import Mathlib.Logic.Relation
import Aufs.Getdents
import Aufs.InodeVersion

/-!
# Fresh listings

`read_vdir` builds the shared `vdir` of a directory again when `i_version` has moved on
or when `vd_jiffy` and `si_rdcache` say that it is too old, and `au_init_vdir` copies it to
the stream when the version of the copy is not that of the stream. The state of a run keeps
next to the directory when all this happened, and what every `getdents` answered with.
-/

namespace Aufs

open Ticks

variable {hash : Name → Nat} {sb : SuperBlock}

-- ---------------------------------------------------------------------------
-- The stamp of a filling
-- ---------------------------------------------------------------------------

/-- While a `vdir` is filled its version is 0, and its stamp is 0 or the time. -/
def Filling (jiffies : Nat) (arg : FillArg) (w : World) : Prop :=
  w.jiffies = jiffies ∧ arg.vdir.version = 0 ∧ (arg.vdir.jiffy = 0 ∨ arg.vdir.jiffy = jiffies)

/-- The blocks of a `vdir` change, and neither its version nor its stamp. -/
theorem appendDe_stamp (hash : Name → Nat) (vd : Vdir) (dl : Nhash Name) (de : De) (w : World) :
    (appendDe hash vd dl de w).2.1.version = vd.version ∧
      (appendDe hash vd dl de w).2.1.jiffy = vd.jiffy := by
  have happend : ∀ {vd vd' : Vdir} {w w' : World}, vd.appendDeblk w = (.ok vd', w') →
      vd'.version = vd.version ∧ vd'.jiffy = vd.jiffy := by
    intro vd vd' w w' h
    unfold Vdir.appendDeblk at h
    split at h
    · simp at h
    · simp only [Prod.mk.injEq, Except.ok.injEq] at h
      obtain ⟨rfl, -⟩ := h
      exact ⟨rfl, rfl⟩
  have hroom : ∀ {vd₁ w₁}, (if calcSize de.str.length > deblkSize - vd.lastP then vd.appendDeblk w
      else (.ok vd, w)) = (.ok vd₁, w₁) → vd₁.version = vd.version ∧ vd₁.jiffy = vd.jiffy := by
    intro vd₁ w₁ h
    split at h
    · exact happend h
    · simp only [Prod.mk.injEq, Except.ok.injEq] at h
      obtain ⟨rfl, -⟩ := h
      exact ⟨rfl, rfl⟩
  unfold appendDe
  split
  · exact ⟨rfl, rfl⟩
  · rename_i vd₁ w₁ h₁
    obtain ⟨hv, hj⟩ := hroom h₁
    split
    · exact ⟨hv, hj⟩
    · dsimp only
      split
      · exact ⟨hv, hj⟩
      · split
        · exact ⟨hv, hj⟩
        · rename_i h₂
          obtain ⟨hv₂, hj₂⟩ := happend h₂
          exact ⟨hv₂.trans hv, hj₂.trans hj⟩

/-- Every call of `fillvdir` keeps that. -/
theorem fillKeeps_filling (hash : Name → Nat) (sb : SuperBlock) (jiffies : Nat) :
    FillKeeps hash sb (fun _ _ => True) (Filling jiffies) where
  ask h := h
  reset h := h
  branch _ h := h
  entry := by
    intro arg w d h _
    obtain ⟨hw, hv, hj⟩ := h
    refine ⟨(fillvdir_sameFs arg d w).jiffies.trans hw, ?_⟩
    unfold fillvdir
    dsimp only
    split
    · split
      · exact ⟨hv, .inr hw⟩
      · split
        · exact ⟨hv, hj⟩
        · obtain ⟨hv', hj'⟩ := appendDe_stamp hash arg.vdir (arg.delist arg.bindex)
            ⟨_, d.type, d.name⟩ _
          split
          · exact ⟨hv'.trans hv, .inr hw⟩
          · exact ⟨hv'.trans hv, hj'.symm ▸ hj⟩
    · split
      · exact ⟨hv, .inr hw⟩
      · split
        · exact ⟨hv, hj⟩
        · exact ⟨hv, .inr hw⟩

theorem Vdir.alloc_jiffies (w : World) : (Vdir.alloc w).2.jiffies = w.jiffies := by
  unfold Vdir.alloc
  split
  · rename_i hw
    exact congrArg (fun r => r.2.jiffies) hw.symm
  · rename_i w₁ hw
    rw [Vdir.appendDeblk_world]
    exact congrArg (fun r => r.2.jiffies) hw.symm

theorem Vdir.alloc_stamp {vd : Vdir} {w w' : World} (h : Vdir.alloc w = (.ok vd, w')) :
    vd.version = 0 ∧ vd.jiffy = 0 := by
  unfold Vdir.alloc Vdir.appendDeblk at h
  split at h
  · simp at h
  · split at h
    · simp at h
    · simp only [Prod.mk.injEq, Except.ok.injEq] at h
      obtain ⟨rfl, -⟩ := h
      exact ⟨rfl, rfl⟩

/-- What `read_vdir` leaves when it does not serve the `vdir` that is there: after a success
one of the version of the inode with the stamp of this call, or none at all when nothing was
listed; after a failure one of version 0, if any. -/
structure Rebuilt (ino ino' : DirInode) (jiffies : Nat) (ok : Bool) : Prop where
  version : ino'.version = ino.version
  built : ok = true → ∃ vd, ino'.vdir = some vd ∧ vd.version = ino.version ∧
    (vd.jiffy = 0 ∨ vd.jiffy = jiffies)
  failed : ok = false → ∀ vd, ino'.vdir = some vd → vd.version = 0

/-- Did the call return 0? -/
def isOk : Except Errno Unit → Bool
  | .ok () => true
  | .error _ => false

theorem readVdir_rebuilt {mayRead : Bool} {ino ino' : DirInode} {f f' : DirFile} {w w' : World}
    {res : Except Errno Unit} (hplan : vdirPlan sb mayRead ino w ≠ .serve)
    (hr : readVdir hash sb mayRead ino f w = (res, ino', f', w')) :
    Rebuilt ino ino' w.jiffies (isOk res) ∧ w'.jiffies = w.jiffies ∧ ∃ hfile, f' = { f with hfile } := by
  -- a filling from a `vdir` that carries nothing yet
  have hfill : ∀ (vd : Vdir) (w₁ : World), vd.version = 0 → vd.jiffy = 0 → w₁.jiffies = w.jiffies →
      ∃ res hfile vd' w', fillVdir hash sb f vd w₁ = (res, { f with hfile }, vd', w') ∧
        vd'.version = 0 ∧ (vd'.jiffy = 0 ∨ vd'.jiffy = w.jiffies) ∧ w'.jiffies = w.jiffies := by
    intro vd w₁ hv hj hw
    obtain ⟨res, hfile, arg, w', he, ⟨hw', hv', hj'⟩, -⟩ :=
      @FillKeeps.fillVdir hash sb _ _ (fillKeeps_filling hash sb w.jiffies) f vd w₁
        (fun _ _ _ _ _ => trivial) ⟨hw, hv, .inl hj⟩
    exact ⟨res, hfile, arg.vdir, w', he, hv', hj', hw'⟩
  unfold readVdir at hr
  cases hp : vdirPlan sb mayRead ino w with
  | serve => exact absurd hp hplan
  | again vd =>
      have hvd : vd.version = 0 ∧ vd.jiffy = 0 ∧ ino.vdir.isSome := by
        unfold vdirPlan at hp
        split at hp
        · cases hp
        · rename_i h
          split at hp
          · cases hp
            exact ⟨rfl, rfl, by rw [h]; rfl⟩
          · cases hp
      obtain ⟨res₁, hfile, vd', w₁, he, hv', hj', hw'⟩ := hfill vd w hvd.1 hvd.2.1 rfl
      simp only [hp, he] at hr
      cases res₁ with
      | error e =>
          simp only [Prod.mk.injEq] at hr
          obtain ⟨rfl, rfl, rfl, rfl⟩ := hr
          exact ⟨⟨rfl, by simp [isOk], fun _ v hv => Option.some.inj hv ▸ hv'⟩, hw', hfile, rfl⟩
      | ok u =>
          simp only [Prod.mk.injEq] at hr
          obtain ⟨rfl, rfl, rfl, rfl⟩ := hr
          exact ⟨⟨rfl, fun _ => ⟨_, rfl, rfl, hj'⟩, by simp [isOk]⟩, hw', hfile, rfl⟩
  | new =>
      have hnone : ino.vdir = none := by
        unfold vdirPlan at hp
        split at hp
        · assumption
        · split at hp <;> cases hp
      obtain ⟨res₁, w₁, ha⟩ : ∃ res₁ w₁, Vdir.alloc w = (res₁, w₁) := ⟨_, _, rfl⟩
      have hw₁ := Vdir.alloc_jiffies w
      rw [ha] at hw₁
      cases res₁ with
      | error e =>
          simp only [hp, ha, Prod.mk.injEq] at hr
          obtain ⟨rfl, rfl, rfl, rfl⟩ := hr
          exact ⟨⟨rfl, by simp [isOk], fun _ v hv => by rw [hnone] at hv; simp at hv⟩, hw₁, f.hfile, rfl⟩
      | ok vd =>
          obtain ⟨hv, hj⟩ := Vdir.alloc_stamp ha
          obtain ⟨res₂, hfile, vd', w₂, he, hv', hj', hw'⟩ := hfill vd w₁ hv hj hw₁
          simp only [hp, ha, he] at hr
          cases res₂ with
          | error e =>
              simp only [Prod.mk.injEq] at hr
              obtain ⟨rfl, rfl, rfl, rfl⟩ := hr
              exact ⟨⟨rfl, by simp [isOk], fun _ v hv => by rw [hnone] at hv; simp at hv⟩, hw', hfile, rfl⟩
          | ok u =>
              simp only [Prod.mk.injEq] at hr
              obtain ⟨rfl, rfl, rfl, rfl⟩ := hr
              exact ⟨⟨rfl, fun _ => ⟨_, rfl, rfl, hj'⟩, by simp [isOk]⟩, hw', hfile, rfl⟩

/-- `au_init_vdir` does with the inode what `read_vdir` does, and takes no time. -/
theorem auInitVdir_jiffies (ino : DirInode) (f : DirFile) (w : World)
    (hr : (readVdir hash sb (f.pos = 0) ino f w).2.2.2.jiffies = w.jiffies) :
    (auInitVdir hash sb ino f w).2.2.2.jiffies = w.jiffies := by
  have hcopy : ∀ (tgt src : Vdir) (w : World), (copyVdir tgt src w).2.2.jiffies = w.jiffies := by
    intro tgt src w
    unfold copyVdir
    split <;> (rename_i h; exact congrArg (fun r => r.2.jiffies) h.symm)
  unfold auInitVdir
  obtain ⟨res, ino₁, f₁, w₁, he⟩ : ∃ res ino₁ f₁ w₁,
    readVdir hash sb (f.pos = 0) ino f w = (res, ino₁, f₁, w₁) := ⟨_, _, _, _, rfl⟩
  rw [he] at hr ⊢
  cases res with
  | error e => exact hr
  | ok u =>
      dsimp only at hr ⊢
      split
      · exact hr
      · exact hr
      · rename_i tgt src _ _
        have := hcopy tgt src w₁
        split <;> (rename_i h; rw [h] at this; exact this.trans hr)
      · rename_i src _ _
        have halloc := Vdir.alloc_jiffies w₁
        split
        · rename_i h
          rw [h] at halloc
          exact halloc.trans hr
        · rename_i tgt w₂ h
          rw [h] at halloc
          have := hcopy tgt src w₂
          split <;> (rename_i h; rw [h] at this; exact this.trans (halloc.trans hr))

theorem doOpenDir_jiffies (ino : DirInode) (d : Dinfo) (w : World) :
    (doOpenDir ino d w).2.jiffies = w.jiffies := by
  have hopen : ∀ (L : List Int) (w : World), (openHdirs d L w).2.jiffies = w.jiffies := by
    intro L
    induction L with
    | nil => exact fun w => rfl
    | cons b L ih =>
        intro w
        simp only [openHdirs, World.ask]
        split
        · exact ih w
        · cases w.fault w.tick with
          | some e => rfl
          | none =>
              have := ih w.next
              dsimp only
              split <;> (rename_i h; rw [h] at this; exact this)
  have := hopen (bindexes d.bstart d.dbtaildir) w
  unfold doOpenDir
  split <;> (rename_i h; rw [h] at this; exact this)

/-- A refresh that fails leaves the version. -/
theorem auRefreshHinode_error {mem : Bool} {i i' : Inode} {d : Dinfo} {put : List Hinode} {e : Errno}
    (h : auRefreshHinode sb mem i d = (.error e, i', put)) : i'.version = i.version := by
  simp only [auRefreshHinode] at h
  split at h
  · simp only [Prod.mk.injEq] at h
    exact h.2.1 ▸ rfl
  · split at h
    · simp only [Prod.mk.injEq] at h
      exact h.2.1 ▸ rfl
    · split at h
      · simp only [Prod.mk.injEq] at h
        exact h.2.1 ▸ rfl
      · split at h
        · simp only [Prod.mk.injEq] at h
          exact h.2.1 ▸ rfl
        · simp at h

-- ---------------------------------------------------------------------------
-- The age that is allowed
-- ---------------------------------------------------------------------------

/-- `sbinfo->si_rdcache = opt->rdcache * HZ`: the product of two `int` in an
`unsigned long`. -/
def siRdcache (hz rdcache : BitVec 32) : Nat := ((rdcache * hz).signExtend 64).toNat

/-- The time `rdcache` stands for, in ticks. -/
def rdcacheTime (hz rdcache : BitVec 32) : Nat := (rdcache.toInt * hz.toInt).toNat

theorem siRdcache_emod (hz rdcache : BitVec 32) :
    (siRdcache hz rdcache : Int) % 18446744073709551616 =
      (rdcache * hz).toInt % 18446744073709551616 := by
  have h := BitVec.toInt_eq_toNat_cond ((rdcache * hz).signExtend 64)
  rw [BitVec.toInt_signExtend_of_le (by decide)] at h
  rw [siRdcache, h]
  split <;> omega

/-- A `vdir` that `time_after` does not find too old is no older than `rdcache` says, unless
the clock has gone more than half of its range past its end, or `rdcache * HZ` is below
the range of an `int`. -/
theorem age_le {hz rdcache : BitVec 32} {stamp jiffies : Nat}
    (hlow : -2147483648 ≤ rdcache.toInt * hz.toInt) (hle : stamp ≤ jiffies)
    (hhalf : (jiffies : Int) - stamp ≤ (rdcache * hz).toInt + 9223372036854775808)
    (hnot : timeAfter jiffies (stamp + siRdcache hz rdcache) = false) :
    jiffies ≤ stamp + rdcacheTime hz rdcache := by
  have hmul := toInt_mul_le hlow
  have hlt := BitVec.toInt_lt (x := rdcache * hz)
  have hiff : timeAfter jiffies (stamp + siRdcache hz rdcache) = true ↔
      (rdcache * hz).toInt < (jiffies : Int) - stamp :=
    timeAfter_iff (siRdcache_emod hz rdcache) (by omega) (by omega)
  have hage : ¬ (rdcache * hz).toInt < (jiffies : Int) - stamp := fun h => by
    rw [hiff.mpr h] at hnot
    simp at hnot
  rw [rdcacheTime]
  omega

-- ---------------------------------------------------------------------------
-- Runs
-- ---------------------------------------------------------------------------

/-- When a listing was built: in which event of the run, and at which time. -/
structure Stamp where
  event : Nat
  jiffies : Nat
  deriving DecidableEq, Repr

/-- What a `getdents` answered with: was the stream new or rewound and at offset 0, was the
inode behind a change of the branches, when the listing was built that it read, when the
directory was changed and the listing marked obsolete last, the time of the call, and the
age that `rdcache` allows. -/
structure Answer where
  start : Bool
  stale : Bool
  built : Option Stamp
  changed : Nat
  notified : Nat
  jiffies : Nat
  limit : Nat
  deriving DecidableEq, Repr

/-- The listing is that of the branches there are, built after the last change and the last
notification, and not longer ago than `rdcache` says. -/
def Answer.fresh (a : Answer) : Bool :=
  !a.stale && a.built.any fun b =>
    decide (a.changed < b.event) && decide (a.notified < b.event) && decide (a.jiffies ≤ b.jiffies + a.limit)

/-- A directory with its streams, under a mount. `stale` says that `si_generation` was
counted up and the inode not refreshed since. No part of the program are: the number of
events, those of the last change and the last notification, when the shared `vdir` was
built and when each stream's copy of it, which streams are new or rewound, and the answers. -/
structure FreshSys where
  dir : DirSys
  isRoot : Bool
  sb : SuperBlock
  rdcache : BitVec 32
  stale : Bool
  now : Nat
  changed : Nat
  notified : Nat
  built : Option Stamp
  copied : Nat → Option Stamp
  rewound : Nat → Bool
  answers : List Answer

/-- What can happen next. -/
inductive FreshEvent where
  /-- `aufs_open_dir` -/
  | opened (fd : Nat) (d : Dinfo) (h : 0 ≤ d.bstart)
  /-- `aufs_readdir` with room for `n` entries -/
  | getdents (fd n : Nat)
  /-- `default_llseek` -/
  | seek (fd pos : Nat)
  /-- `aufs_release_dir` -/
  | release (fd : Nat)
  /-- the stream follows a change of the branch table -/
  | refile (fd : Nat) (lo hi : Int) (h : 0 ≤ lo) (hfile : Int → Option HFile)
  /-- a name is added, removed or renamed through aufs: `dir->i_version++` -/
  | changed
  /-- `aufs_remount_fs`: branches are added, deleted or get another permission, and `rdcache`
  is set; with `doRefresh`, `au_sigen_inc` follows -/
  | remount (sb : SuperBlock) (rdcache : BitVec 32) (doRefresh : Bool)
  /-- `au_refresh_hinode` for the hidden inodes the directory has, in `refresh_dir` or when
  `au_reval_and_lock_finfo` finds an old generation -/
  | refreshed (mem : Bool) (ii : Iinfo) (h : ii.Wf) (d : Dinfo)
  /-- the notification of a change below: `vdir->vd_jiffy = 0` -/
  | notified
  /-- everything below aufs changes, and time goes on -/
  | outside (w : World) (ticks : Nat)

namespace FreshSys

variable (hash : Name → Nat) (hz : BitVec 32)

/-- The state of the mount after `rdcache` was set. -/
def mount (s : FreshSys) (sb : SuperBlock) (rdcache : BitVec 32) : FreshSys :=
  { s with sb := { sb with rdcache := siRdcache hz rdcache }, rdcache }

/-- An inode that was just allocated, without streams. -/
def init (isRoot : Bool) (sb : SuperBlock) (rdcache : BitVec 32) (w : World) : FreshSys :=
  mount hz ⟨.init 1 w, isRoot, sb, rdcache, false, 0, 0, 0, none, fun _ => none, fun _ => false, []⟩ sb rdcache

/-- `i_version++` -/
def count (s : FreshSys) : FreshSys :=
  { s with dir := dirStep hash s.sb s.dir (.changed (ulong (s.dir.ino.version + 1))), changed := s.now }

/-- `au_sigen_inc`: of the inodes it counts that of the root directory up only. -/
def sigenInc (s : FreshSys) : FreshSys :=
  if s.isRoot then s.count hash else { s with stale := true }

/-- `au_refresh_hinode` for the inode of the directory. -/
def refresh (s : FreshSys) (mem : Bool) (ii : Iinfo) (d : Dinfo) : Except Errno Unit × Inode × List Hinode :=
  auRefreshHinode s.sb mem ⟨true, s.dir.ino.version, none, ii⟩ d

/-- `vdir->vd_jiffy = 0`, if there is a `vdir`. -/
def obsolete (s : FreshSys) : FreshSys :=
  { s with
    dir := { s.dir with ino := { s.dir.ino with vdir := s.dir.ino.vdir.map fun vd => { vd with jiffy := 0 } } }
    notified := s.now }

/-- Does `au_init_vdir` copy the shared `vdir` to the stream? -/
def takesCopy (f : DirFile) : Bool :=
  match f.vdirCache with
  | none => true
  | some vd => decide (f.pos = 0 ∧ vd.version ≠ f.version)

/-- When the shared `vdir` was built, after `read_vdir` for the stream `f`. -/
def builtAfter (s : FreshSys) (f : DirFile) : Option Stamp :=
  match vdirPlan s.sb (f.pos = 0) s.dir.ino s.dir.w with
  | .serve => s.built
  | _ =>
    match (readVdir hash s.sb (f.pos = 0) s.dir.ino f s.dir.w).1 with
    | .ok () => some ⟨s.now, s.dir.w.jiffies⟩
    | .error _ => none

/-- When the copy of the stream was built, after `au_init_vdir`. -/
def copiedAfter (s : FreshSys) (fd : Nat) (f : DirFile) : Option Stamp :=
  match (readVdir hash s.sb (f.pos = 0) s.dir.ino f s.dir.w).1 with
  | .error _ => s.copied fd
  | .ok () =>
    if takesCopy f then
      match (auInitVdir hash s.sb s.dir.ino f s.dir.w).1 with
      | .ok () => s.builtAfter hash f
      | .error _ => none
    else s.copied fd

/-- `aufs_readdir` -/
def readdir (s : FreshSys) (fd n : Nat) : FreshSys :=
  match s.dir.files fd with
  | none => s
  | some f =>
    let copied := s.copiedAfter hash fd f
    let s' := { s with
      dir := (s.dir.getdents hash s.sb fd n).2
      built := s.builtAfter hash f
      copied := Function.update s.copied fd copied }
    match (s.dir.getdents hash s.sb fd n).1 with
    | .error _ => s'
    | .ok _ =>
      { s' with
        rewound := Function.update s.rewound fd false
        answers := ⟨decide (f.pos = 0) && s.rewound fd, s.stale, copied, s.changed, s.notified,
          s.dir.w.jiffies, rdcacheTime hz s.rdcache⟩ :: s.answers }

/-- What an event does, after it was counted. -/
def apply (s : FreshSys) : FreshEvent → FreshSys
  | .opened fd d h =>
    { s with
      dir := dirStep hash s.sb s.dir (.opened fd d h)
      copied := Function.update s.copied fd none
      rewound := Function.update s.rewound fd true }
  | .getdents fd n => s.readdir hash hz fd n
  | .seek fd pos =>
    { s with
      dir := dirStep hash s.sb s.dir (.seek fd pos)
      rewound := Function.update s.rewound fd (decide (pos = 0)) }
  | .release fd => { s with dir := dirStep hash s.sb s.dir (.release fd) }
  | .refile fd lo hi h hfile => { s with dir := dirStep hash s.sb s.dir (.refresh fd lo hi h hfile) }
  | .changed => s.count hash
  | .remount sb rdcache doRefresh =>
    if doRefresh then (s.mount hz sb rdcache).sigenInc hash else s.mount hz sb rdcache
  | .refreshed mem ii _ d =>
    let i := (s.refresh mem ii d).2.1
    { s with
      stale := s.stale && !isOk (s.refresh mem ii d).1
      dir := dirStep hash s.sb s.dir (.changed (ulong i.version))
      changed := if i.ii.hidden = ii.hidden then s.changed else s.now }
  | .notified => s.obsolete
  | .outside w ticks =>
    { s with dir := dirStep hash s.sb s.dir (.outside { w with jiffies := s.dir.w.jiffies + ticks }) }

/-- One event. -/
def step (s : FreshSys) (e : FreshEvent) : FreshSys := apply hash hz { s with now := s.now + 1 } e

-- ---------------------------------------------------------------------------
-- The condition
-- ---------------------------------------------------------------------------

/-- `time_after` says what it is asked: a stamp of 0 is in its past, and the time has not
gone more than half of the range of the clock past the end of `rdcache`. -/
def Timely (s : FreshSys) : Prop :=
  ∀ vd, s.dir.ino.vdir = some vd → vd.version = s.dir.ino.version →
    (vd.jiffy = 0 → timeAfter s.dir.w.jiffies (vd.jiffy + s.sb.rdcache) = true) ∧
    (s.dir.w.jiffies : Int) - vd.jiffy ≤ (s.rdcache * hz).toInt + 9223372036854775808 ∧
    -2147483648 ≤ s.rdcache.toInt * hz.toInt

/-- The stream takes a copy, or the one it has is that of the `vdir` that is there and serves. -/
def Copies (s : FreshSys) (fd : Nat) (f : DirFile) : Prop :=
  takesCopy f = true ∨
    (s.copied fd = s.built ∧ vdirPlan s.sb (f.pos = 0) s.dir.ino s.dir.w = .serve)

/-- The condition on an event. -/
def Meets (s : FreshSys) : FreshEvent → Prop
  | .getdents fd _ => ∀ f, s.dir.files fd = some f → f.pos = 0 → s.rewound fd = true →
      s.stale = false ∧ s.Timely hz ∧ s.Copies fd f
  | .changed => ulong (s.dir.ino.version + 1) = s.dir.ino.version + 1
  | .remount _ _ doRefresh =>
    doRefresh = true → s.isRoot = true → ulong (s.dir.ino.version + 1) = s.dir.ino.version + 1
  | .refreshed mem ii _ d =>
    ((s.refresh mem ii d).1 = .ok () ∨ (s.refresh mem ii d).2.1.ii.hidden = ii.hidden) ∧
      ii.KeepsOrder s.sb ∧ ulong (s.refresh mem ii d).2.1.version = (s.refresh mem ii d).2.1.version
  | _ => True

/-- Events that meet the condition, one after another. -/
def Run : FreshSys → FreshSys → Prop :=
  Relation.ReflTransGen fun s s' => ∃ e : FreshEvent, s.Meets hz e ∧ s' = s.step hash hz e

-- ---------------------------------------------------------------------------
-- What an event preserves
-- ---------------------------------------------------------------------------

/-- The events that count were earlier ones, and a shared `vdir` of the version of the inode
was built after the last change, at the time of its stamp or with a stamp of 0. -/
structure Inv (s : FreshSys) : Prop where
  version : 0 < s.dir.ino.version
  older : ∀ vd, s.dir.ino.vdir = some vd → vd.version ≤ s.dir.ino.version
  changed : s.changed ≤ s.now
  notified : s.notified ≤ s.now
  rdcache : s.sb.rdcache = siRdcache hz s.rdcache
  current : ∀ vd, s.dir.ino.vdir = some vd → vd.version = s.dir.ino.version →
    ∃ b, s.built = some b ∧ s.changed < b.event ∧ b.jiffies ≤ s.dir.w.jiffies ∧
      (vd.jiffy = 0 ∨ (vd.jiffy = b.jiffies ∧ s.notified < b.event))
  answers : ∀ a ∈ s.answers, a.start = true → a.fresh = true

variable {hash hz} {s : FreshSys}

theorem Inv.init (isRoot : Bool) (sb : SuperBlock) (rdcache : BitVec 32) (w : World) :
    (init hz isRoot sb rdcache w).Inv hz where
  version := Nat.one_pos
  older vd h := by simp [FreshSys.init, mount, DirSys.init] at h
  changed := Nat.le_refl _
  notified := Nat.le_refl _
  rdcache := rfl
  current vd h := by simp [FreshSys.init, mount, DirSys.init] at h
  answers a h := by simp [FreshSys.init, mount] at h

theorem Inv.tick (h : s.Inv hz) : Inv hz { s with now := s.now + 1 } :=
  { h with changed := Nat.le_succ_of_le h.changed, notified := Nat.le_succ_of_le h.notified }

/-- The version goes up: the `vdir` that is there is not of the new one. -/
theorem Inv.bump (h : s.Inv hz) {v : Nat} (hv : v = s.dir.ino.version + 1) :
    Inv hz { s with dir := dirStep hash s.sb s.dir (.changed v), changed := s.now } :=
  { version := by simp only [dirStep]; omega
    older := fun vd hvd => by
      have := h.older vd hvd
      simp only [dirStep]
      omega
    changed := Nat.le_refl _
    notified := h.notified
    rdcache := h.rdcache
    current := fun vd hvd he => by
      have := h.older vd hvd
      simp only [dirStep] at he
      omega
    answers := h.answers }

theorem Inv.mount (h : s.Inv hz) (sb : SuperBlock) (rdcache : BitVec 32) :
    (s.mount hz sb rdcache).Inv hz :=
  { h with rdcache := rfl }

theorem Inv.count (h : s.Inv hz) (hw : ulong (s.dir.ino.version + 1) = s.dir.ino.version + 1) :
    (s.count hash).Inv hz :=
  h.bump hw

theorem Inv.refreshed (h : s.Inv hz) {mem : Bool} {ii : Iinfo} (hwf : ii.Wf) {d : Dinfo}
    (hm : s.Meets hz (.refreshed mem ii hwf d)) : (s.apply hash hz (.refreshed mem ii hwf d)).Inv hz := by
  obtain ⟨hok, hkeep, hword⟩ := hm
  obtain ⟨res, i, put, hr⟩ : ∃ res i put, s.refresh mem ii d = (res, i, put) := ⟨_, _, _, rfl⟩
  rw [hr] at hok hword
  -- the version is counted up, or the directory merges what it merged
  have hcases : i.version = s.dir.ino.version + 1 ∨
      (i.version = s.dir.ino.version ∧ i.ii.hidden = ii.hidden) := by
    cases res with
    | ok u => exact auRefreshHinode_counts hwf rfl hkeep hr
    | error e => exact .inr ⟨auRefreshHinode_error hr, hok.resolve_left (by simp)⟩
  rcases hcases with hv | ⟨hv, hsame⟩
  · have hb := @Inv.bump hash hz s h _ hv
    simp only [apply, hr, hword]
    refine ⟨hb.version, hb.older, ?_, hb.notified, hb.rdcache, fun vd hvd he => ?_, hb.answers⟩
    · simp only
      split
      · exact h.changed
      · exact Nat.le_refl _
    · have := h.older vd hvd
      simp only [dirStep] at he
      omega
  · rw [hv] at hword
    simp only [apply, hr, hv, hword, hsame, if_true]
    exact { h with }

/-- Neither the inode changes, nor does time run back. -/
theorem Inv.later (h : s.Inv hz) (dir : DirSys) (hino : dir.ino = s.dir.ino)
    (hj : s.dir.w.jiffies ≤ dir.w.jiffies) (copied : Nat → Option Stamp) (rewound : Nat → Bool) :
    Inv hz { s with dir, copied, rewound } where
  version := hino ▸ h.version
  older vd hvd := by
    simp only [hino] at hvd ⊢
    exact h.older vd hvd
  changed := h.changed
  notified := h.notified
  rdcache := h.rdcache
  current vd hvd he := by
    simp only [hino] at hvd he
    obtain ⟨b, h₁, h₂, h₃, h₄⟩ := h.current vd hvd he
    exact ⟨b, h₁, h₂, h₃.trans hj, h₄⟩
  answers := h.answers

theorem Inv.obsolete (h : s.Inv hz) : s.obsolete.Inv hz where
  version := h.version
  older vd hvd := by
    obtain ⟨vd₀, hvd₀, rfl⟩ := Option.map_eq_some_iff.mp hvd
    exact h.older vd₀ hvd₀
  changed := h.changed
  notified := Nat.le_refl _
  rdcache := h.rdcache
  current vd hvd he := by
    obtain ⟨vd₀, hvd₀, rfl⟩ := Option.map_eq_some_iff.mp hvd
    obtain ⟨b, hb, h₁, h₂, -⟩ := h.current vd₀ hvd₀ he
    exact ⟨b, hb, h₁, h₂, .inl rfl⟩
  answers := h.answers

-- ---------------------------------------------------------------------------
-- `getdents`
-- ---------------------------------------------------------------------------

theorem vdirPlan_serve {ino : DirInode} {w : World} {sb : SuperBlock}
    (h : vdirPlan sb true ino w = .serve) :
    ∃ vd, ino.vdir = some vd ∧ vd.version = ino.version ∧
      timeAfter w.jiffies (vd.jiffy + sb.rdcache) = false := by
  unfold vdirPlan at h
  split at h
  · cases h
  · rename_i vd hvd
    split at h
    · cases h
    · rename_i hno
      simp only [Bool.true_and, Bool.or_eq_true, decide_eq_true_eq, not_or, ne_eq, not_not,
        Bool.not_eq_true] at hno
      exact ⟨vd, hvd, hno.1.symm, hno.2⟩

/-- Where the time test says what it is asked, a `vdir` that serves is fresh. -/
theorem Inv.serves (h : s.Inv hz) (htime : s.Timely hz)
    (hplan : vdirPlan s.sb true s.dir.ino s.dir.w = .serve) :
    ∃ b, s.built = some b ∧ s.changed < b.event ∧ s.notified < b.event ∧
      s.dir.w.jiffies ≤ b.jiffies + rdcacheTime hz s.rdcache := by
  obtain ⟨vd, hvd, hver, hafter⟩ := vdirPlan_serve hplan
  obtain ⟨hzero, hhalf, hlow⟩ := htime vd hvd hver
  obtain ⟨b, hb, hchanged, hpast, hstamp⟩ := h.current vd hvd hver
  rcases hstamp with hstamp | ⟨hstamp, hnotified⟩
  · rw [hzero hstamp] at hafter
    simp at hafter
  · rw [hstamp] at hhalf hafter
    rw [h.rdcache] at hafter
    exact ⟨b, hb, hchanged, hnotified, age_le hlow hpast hhalf hafter⟩

/-- A call of `read_vdir` that returns 0 and does not serve what is there builds now. -/
theorem builtAfter_ok {f : DirFile}
    (hplan : vdirPlan s.sb (f.pos = 0) s.dir.ino s.dir.w ≠ .serve)
    (hok : (readVdir hash s.sb (f.pos = 0) s.dir.ino f s.dir.w).1 = .ok ()) :
    s.builtAfter hash f = some ⟨s.now, s.dir.w.jiffies⟩ := by
  unfold builtAfter
  split
  · exact absurd ‹_› hplan
  · rw [hok]

theorem readVdir_of_auInitVdir {f : DirFile} {ino : DirInode} {w : World} {sb : SuperBlock}
    (hok : (auInitVdir hash sb ino f w).1 = .ok ()) :
    (readVdir hash sb (f.pos = 0) ino f w).1 = .ok () := by
  unfold auInitVdir at hok
  split at hok
  · simp at hok
  · rename_i hr
    rw [hr]

/-- A call that returns a listing took a copy of what was built, or kept the one it had. -/
theorem copiedAfter_ok {fd : Nat} {f : DirFile}
    (hok : (auInitVdir hash s.sb s.dir.ino f s.dir.w).1 = .ok ()) :
    s.copiedAfter hash fd f = if takesCopy f then s.builtAfter hash f else s.copied fd := by
  simp only [copiedAfter, readVdir_of_auInitVdir hok, hok]

/-- Where the condition is met, the listing of a new or rewound stream is fresh. -/
theorem Inv.fresh (h : s.Inv hz) (hchanged : s.changed < s.now) (hnotified : s.notified < s.now)
    {fd : Nat} {f : DirFile} (hpos : f.pos = 0) (htime : s.Timely hz)
    (hcopy : s.Copies fd f) (hok : (auInitVdir hash s.sb s.dir.ino f s.dir.w).1 = .ok ()) :
    ∃ b, s.copiedAfter hash fd f = some b ∧ s.changed < b.event ∧ s.notified < b.event ∧
      s.dir.w.jiffies ≤ b.jiffies + rdcacheTime hz s.rdcache := by
  rw [copiedAfter_ok hok]
  by_cases hplan : vdirPlan s.sb (f.pos = 0) s.dir.ino s.dir.w = .serve
  · -- the `vdir` that is there serves, and the stream has a copy of it or takes one
    have hbuilt : s.builtAfter hash f = s.built := by
      simp only [builtAfter, hplan]
    have hsame : (if takesCopy f = true then s.builtAfter hash f else s.copied fd) = s.built := by
      split
      · exact hbuilt
      · rename_i hno
        exact (hcopy.resolve_left hno).1
    rw [hsame]
    exact h.serves htime (by simpa [hpos] using hplan)
  · -- it is built now, and the stream takes a copy
    have htake : takesCopy f = true := hcopy.resolve_right fun hc => hplan hc.2
    rw [if_pos htake, builtAfter_ok hplan (readVdir_of_auInitVdir hok)]
    exact ⟨_, rfl, hchanged, hnotified, Nat.le_add_right _ _⟩

/-- What becomes of the inode and the clock in a `getdents`. -/
theorem getdents_dir (hash : Name → Nat) (sb : SuperBlock) (dir : DirSys) {fd : Nat} (n : Nat)
    {f : DirFile} (hf : dir.files fd = some f) :
    (dir.getdents hash sb fd n).2.ino = (readVdir hash sb (f.pos = 0) dir.ino f dir.w).2.1 ∧
      (dir.getdents hash sb fd n).2.w.jiffies = (auInitVdir hash sb dir.ino f dir.w).2.2.2.jiffies ∧
      ∀ es, (dir.getdents hash sb fd n).1 = .ok es → (auInitVdir hash sb dir.ino f dir.w).1 = .ok () := by
  have hino := (auInitVdir_spec hash sb dir.ino f dir.w).1
  rw [← hino]
  simp only [DirSys.getdents, hf]
  obtain ⟨res, ino', f', w', hi⟩ : ∃ res ino' f' w',
    auInitVdir hash sb dir.ino f dir.w = (res, ino', f', w') := ⟨_, _, _, _, rfl⟩
  rw [hi]
  cases res with
  | error e => exact ⟨rfl, rfl, fun es he => by simp at he⟩
  | ok u => exact ⟨rfl, rfl, fun es _ => rfl⟩

theorem readVdir_serve {mayRead : Bool} {ino : DirInode} {f : DirFile} {w : World} {sb : SuperBlock}
    (hplan : vdirPlan sb mayRead ino w = .serve) :
    readVdir hash sb mayRead ino f w = (.ok (), ino, f, w) := by
  simp only [readVdir, hplan]

theorem readVdir_jiffies (hash : Name → Nat) (sb : SuperBlock) (mayRead : Bool) (ino : DirInode)
    (f : DirFile) (w : World) : (readVdir hash sb mayRead ino f w).2.2.2.jiffies = w.jiffies := by
  by_cases hplan : vdirPlan sb mayRead ino w = .serve
  · rw [readVdir_serve hplan]
  · exact (readVdir_rebuilt hplan rfl).2.1

/-- After `read_vdir` the shared `vdir` is the one there was, or was built now. -/
theorem Inv.read (h : s.Inv hz) (hchanged : s.changed < s.now) (hnotified : s.notified < s.now)
    {dir : DirSys} {f : DirFile} (copied : Nat → Option Stamp)
    (hino : dir.ino = (readVdir hash s.sb (f.pos = 0) s.dir.ino f s.dir.w).2.1)
    (hj : dir.w.jiffies = s.dir.w.jiffies) :
    Inv hz { s with dir, built := s.builtAfter hash f, copied } := by
  by_cases hplan : vdirPlan s.sb (f.pos = 0) s.dir.ino s.dir.w = .serve
  · rw [readVdir_serve hplan] at hino
    have hbuilt : s.builtAfter hash f = s.built := by
      simp only [builtAfter, hplan]
    rw [hbuilt]
    exact h.later dir hino hj.ge copied s.rewound
  · obtain ⟨res, ino', f', w', hr⟩ : ∃ res ino' f' w',
      readVdir hash s.sb (f.pos = 0) s.dir.ino f s.dir.w = (res, ino', f', w') := ⟨_, _, _, _, rfl⟩
    obtain ⟨hre, -, -⟩ := readVdir_rebuilt hplan hr
    rw [hr] at hino
    dsimp only at hino
    have hver : dir.ino.version = s.dir.ino.version := by rw [hino, hre.version]
    have hpos := h.version
    cases res with
    | error e =>
        have hzero : ∀ vd, dir.ino.vdir = some vd → vd.version = 0 := fun vd hvd =>
          hre.failed rfl vd (hino ▸ hvd)
        refine ⟨by simp only; omega, fun vd hvd => by rw [hzero vd hvd]; exact Nat.zero_le _, h.changed,
          h.notified, h.rdcache, fun vd hvd he => ?_, h.answers⟩
        have := hzero vd hvd
        simp only at he
        omega
    | ok u =>
        obtain ⟨vd₀, hvd₀, hv₀, hj₀⟩ := hre.built rfl
        have hone : ∀ vd, dir.ino.vdir = some vd → vd = vd₀ := fun vd hvd => by
          rw [hino, hvd₀] at hvd
          exact (Option.some.inj hvd).symm
        have hbuilt : s.builtAfter hash f = some ⟨s.now, s.dir.w.jiffies⟩ :=
          builtAfter_ok hplan (by rw [hr])
        refine ⟨by simp only; omega, fun vd hvd => ?_, h.changed, h.notified, h.rdcache, fun vd hvd _ => ?_,
          h.answers⟩
        · rw [hone vd hvd]
          simp only
          omega
        · rw [hone vd hvd]
          exact ⟨_, hbuilt, hchanged, hj.ge, hj₀.imp_right fun he => ⟨he, hnotified⟩⟩

theorem Inv.readdir (h : s.Inv hz) (hchanged : s.changed < s.now) (hnotified : s.notified < s.now)
    {fd n : Nat} (hm : s.Meets hz (.getdents fd n)) : (s.readdir hash hz fd n).Inv hz := by
  unfold FreshSys.readdir
  cases hf : s.dir.files fd with
  | none => exact h
  | some f =>
      obtain ⟨hino, hjiffies, hok⟩ := getdents_dir hash s.sb s.dir n hf
      have hj := hjiffies.trans (auInitVdir_jiffies _ _ _ (readVdir_jiffies hash s.sb _ _ _ _))
      have hread := h.read hchanged hnotified (Function.update s.copied fd (s.copiedAfter hash fd f)) hino hj
      dsimp only
      split
      · exact hread
      · rename_i es hes
        refine { hread with answers := fun a ha hstart => ?_ }
        rcases List.mem_cons.mp ha with rfl | ha
        · simp only [Bool.and_eq_true, decide_eq_true_eq] at hstart
          obtain ⟨hstale, htime, hcopy⟩ := hm f hf hstart.1 hstart.2
          obtain ⟨b, hb, h₁, h₂, h₃⟩ := h.fresh hchanged hnotified hstart.1 htime hcopy (hok es hes)
          simp only [Answer.fresh, hstale, hb, Option.any_some, Bool.not_false, Bool.true_and,
            Bool.and_eq_true, decide_eq_true_eq]
          exact ⟨⟨h₁, h₂⟩, h₃⟩
        · exact h.answers a ha hstart

theorem Inv.step (h : s.Inv hz) {e : FreshEvent} (hm : s.Meets hz e) : (s.step hash hz e).Inv hz := by
  have ht := h.tick
  have hchanged := h.changed
  have hnotified := h.notified
  unfold FreshSys.step
  cases e with
  | opened fd d h0 =>
      exact ht.later (dirStep hash s.sb s.dir (.opened fd d h0)) rfl
        (doOpenDir_jiffies s.dir.ino d s.dir.w).ge _ _
  | getdents fd n =>
      exact ht.readdir (Nat.lt_succ_of_le hchanged) (Nat.lt_succ_of_le hnotified) hm
  | seek fd pos => exact ht.later (dirStep hash s.sb s.dir (.seek fd pos)) rfl (Nat.le_refl _) _ _
  | release fd => exact ht.later (dirStep hash s.sb s.dir (.release fd)) rfl (Nat.le_refl _) _ _
  | refile fd lo hi h0 hfile =>
      exact ht.later (dirStep hash s.sb s.dir (.refresh fd lo hi h0 hfile)) rfl (Nat.le_refl _) _ _
  | changed => exact ht.count hm
  | remount sb rdcache doRefresh =>
      simp only [apply]
      split
      · rename_i hdo
        unfold sigenInc
        split
        · rename_i hroot
          exact (ht.mount sb rdcache).count (hm hdo hroot)
        · exact { ht.mount sb rdcache with }
      · exact ht.mount sb rdcache
  | refreshed mem ii hwf d => exact ht.refreshed hwf hm
  | notified => exact ht.obsolete
  | outside w ticks =>
      exact ht.later (dirStep hash s.sb s.dir (.outside { w with jiffies := s.dir.w.jiffies + ticks }))
        rfl (Nat.le_add_right _ _) _ _

theorem Run.inv {isRoot : Bool} {sb : SuperBlock} {rdcache : BitVec 32} {w : World}
    (h : Run hash hz (FreshSys.init hz isRoot sb rdcache w) s) : s.Inv hz := by
  induction h with
  | refl => exact Inv.init isRoot sb rdcache w
  | tail _ hstep ih =>
      obtain ⟨e, hm, rfl⟩ := hstep
      exact ih.step hm

/-- The condition holds where the shared `vdir` is not of the version of the inode and the
stream takes a copy. -/
theorem meets_getdents {fd n : Nat} (h : (!s.stale && (s.dir.files fd).all takesCopy &&
    s.dir.ino.vdir.all fun vd => decide (vd.version ≠ s.dir.ino.version)) = true) :
    s.Meets hz (.getdents fd n) := by
  simp only [Bool.and_eq_true, Bool.not_eq_true', Option.all_eq_true, decide_eq_true_eq] at h
  obtain ⟨⟨hstale, htake⟩, hver⟩ := h
  exact fun f hf _ _ => ⟨hstale, fun vd hvd he => absurd he (hver vd hvd), .inl (htake f hf)⟩

end FreshSys

end Aufs
