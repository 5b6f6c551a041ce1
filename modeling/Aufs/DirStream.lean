-- SUMMARY: Runs of directory streams on one inode, and when every vdir served to them is the merge of the branches.
import Mathlib.Logic.Relation
import Aufs.Listing

/-!
# Directory streams

All streams of a directory share the `vdir` of its inode. A run opens and closes
streams, reads and seeks them, and lets everything outside change: the branches,
the version of the inode, the clock, the hidden files of a stream after a change
of the branch table. The history variable `built` remembers what the branches
held when the shared `vdir` was last built.
-/

namespace Aufs

/-- The names a branch of the stream's range holds. -/
def DirFile.holds (w : World) (f : DirFile) (b : Int) : List Name :=
  if f.fbstart ≤ b ∧ b ≤ f.fbend then
    (f.hfile b).elim [] fun hf => (w.dirents hf.root hf.path).map Dirent.name
  else []

/-- Every hidden directory of the range is at its start. -/
def DirFile.AtStart (f : DirFile) : Prop :=
  ∀ b hf, f.fbstart ≤ b → b ≤ f.fbend → f.hfile b = some hf → hf.pos = 0

/-- `hidden_open` for every hidden directory of the range; `none` when one fails. -/
def openHdirs (d : Dinfo) : List Int → World → Option (Int → Option HFile) × World
  | [], w => (some fun _ => none, w)
  | b :: bs, w =>
    match d.hDptrI b with
    | none => openHdirs d bs w
    | some h =>
      match w.ask with
      | (some _, w) => (none, w)
      | (none, w) =>
        match openHdirs d bs w with
        | (none, w) => (none, w)
        | (some hfile, w) => (some (Function.update hfile b (some ⟨h.root, h.path, 0⟩)), w)

/-- `do_open_dir` -/
def doOpenDir (ino : DirInode) (d : Dinfo) (w : World) : Option DirFile × World :=
  match openHdirs d (bindexes d.bstart d.dbtaildir) w with
  | (none, w) => (none, w)
  | (some hfile, w) => (some ⟨d.bstart, d.dbtaildir, hfile, 0, ino.version, none⟩, w)

/-- The streams of one directory inode. `built` is no part of the program. -/
structure DirSys where
  ino : DirInode
  files : Nat → Option DirFile
  w : World
  built : Option (Int → List Name)

/-- What can happen next. -/
inductive DirEvent where
  /-- `aufs_open_dir` on a dentry -/
  | opened (fd : Nat) (d : Dinfo) (h : 0 ≤ d.bstart)
  /-- `aufs_readdir`; the buffer of the caller is full when `f_pos` is `pos` -/
  | readdir (fd pos : Nat)
  /-- `llseek` -/
  | seek (fd pos : Nat)
  /-- `aufs_release_dir` -/
  | release (fd : Nat)
  /-- `i_version` of the directory is counted up -/
  | changed (version : Nat)
  /-- the branches, the clock and the oracle of failures change -/
  | outside (w : World)
  /-- the stream follows a change of the branch table -/
  | refresh (fd : Nat) (lo hi : Int) (h : 0 ≤ lo) (hfile : Int → Option HFile)

/-- The stream `fd`, changed. -/
def DirSys.onFile (s : DirSys) (fd : Nat) (g : DirFile → DirFile) : DirSys :=
  { s with files := Function.update s.files fd ((s.files fd).map g) }

/-- `default_llseek` -/
def DirFile.seek (f : DirFile) (pos : Nat) : DirFile :=
  if pos ≠ f.pos then { f with pos, version := 0 } else f

variable (hash : Name → Nat) (sb : SuperBlock)

/-- Does `read_vdir` fill a `vdir` when this stream is read? -/
def DirSys.rebuilds (s : DirSys) (f : DirFile) : Prop :=
  vdirPlan sb (f.pos = 0) s.ino s.w ≠ .serve

/-- What has been built after `read_vdir` on the stream `f`. -/
def DirSys.builtAfter (s : DirSys) (f : DirFile) : Option (Int → List Name) :=
  match vdirPlan sb (f.pos = 0) s.ino s.w with
  | .serve => s.built
  | _ =>
    match (readVdir hash sb (f.pos = 0) s.ino f s.w).1 with
    | .ok () => some (f.holds s.w)
    | .error _ => none

/-- One event. -/
def dirStep (s : DirSys) : DirEvent → DirSys
  | .opened fd d _ =>
    match doOpenDir s.ino d s.w with
    | (f, w) => { s with files := Function.update s.files fd f, w }
  | .readdir fd pos =>
    match s.files fd with
    | none => s
    | some f =>
      match auInitVdir hash sb s.ino f s.w with
      | (.error _, ino, f', w) =>
        { ino, w, files := Function.update s.files fd (some f'), built := s.builtAfter hash sb f }
      | (.ok (), ino, f', w) =>
        { ino, w, files := Function.update s.files fd (some { f' with pos })
          built := s.builtAfter hash sb f }
  | .seek fd pos => s.onFile fd fun f => f.seek pos
  | .release fd => { s with files := Function.update s.files fd none }
  | .changed version => { s with ino := { s.ino with version } }
  | .outside w => { s with w }
  | .refresh fd lo hi _ hfile => s.onFile fd fun f => { f with fbstart := lo, fbend := hi, hfile }

/-- A new inode without streams. -/
def DirSys.init (version : Nat) (w : World) : DirSys := ⟨⟨version, none⟩, fun _ => none, w, none⟩

/-- The condition on an event: where it rebuilds the `vdir`, the hidden directories of the
stream are at their start. -/
def DirEvent.Rewound (s : DirSys) : DirEvent → Prop
  | .readdir fd _ => ∀ f, s.files fd = some f → s.rebuilds sb f → f.AtStart
  | _ => True

/-- Events that meet the condition, one after another. -/
def DirRun : DirSys → DirSys → Prop :=
  Relation.ReflTransGen fun s s' => ∃ e : DirEvent, e.Rewound sb s ∧ s' = dirStep hash sb s e

-- ---------------------------------------------------------------------------
-- What an event preserves
-- ---------------------------------------------------------------------------

variable {hash sb}

theorem fillVdir_fbstart (f : DirFile) (vd : Vdir) (w : World) :
    (fillVdir hash sb f vd w).2.1.fbstart = f.fbstart := by
  unfold fillVdir
  repeat' split
  all_goals rfl

theorem readVdir_fbstart (hash : Name → Nat) (sb : SuperBlock) (mayRead : Bool) (ino : DirInode)
    (f : DirFile) (w : World) :
    (readVdir hash sb mayRead ino f w).2.2.1.fbstart = f.fbstart := by
  have hfill : ∀ (vd : Vdir) (w : World) (res : Except Errno Unit × DirFile × Vdir × World),
      fillVdir hash sb f vd w = res → res.2.1.fbstart = f.fbstart := fun vd w res h =>
    h ▸ fillVdir_fbstart f vd w
  unfold readVdir
  split
  · rfl
  · split <;> exact hfill _ _ _ ‹_›
  · split
    · rfl
    · split <;> exact hfill _ _ _ ‹_›

/-- `au_init_vdir` gives the inode what `read_vdir` gives it, and keeps the range of the
stream. -/
theorem auInitVdir_spec (hash : Name → Nat) (sb : SuperBlock) (ino : DirInode) (f : DirFile) (w : World) :
    (auInitVdir hash sb ino f w).2.1 = (readVdir hash sb (f.pos = 0) ino f w).2.1 ∧
      (auInitVdir hash sb ino f w).2.2.1.fbstart = f.fbstart := by
  have hrange := readVdir_fbstart hash sb (f.pos = 0) ino f w
  unfold auInitVdir
  generalize readVdir hash sb (decide (f.pos = 0)) ino f w = r at hrange ⊢
  obtain ⟨res, ino1, f1, w1⟩ := r
  dsimp only at hrange ⊢
  cases res with
  | error e => exact ⟨rfl, hrange⟩
  | ok u =>
      dsimp only
      repeat' split
      all_goals exact ⟨rfl, hrange⟩

/-- The streams are open, and what was built is listed. -/
structure DirSys.Good (s : DirSys) : Prop where
  opened : ∀ fd f, s.files fd = some f → 0 ≤ f.fbstart
  listing : ∀ held, s.built = some held → ∃ vd, s.ino.vdir = some vd ∧ Merges held vd

/-- From the start a hidden directory delivers all it holds. -/
theorem DirFile.delivers_of_atStart {f : DirFile} (h : f.AtStart) (w : World) :
    f.delivers w = f.holds w := by
  funext b
  simp only [DirFile.delivers, DirFile.holds]
  split
  · rename_i hb
    cases hf : f.hfile b with
    | none => simp [unreadAt, hf]
    | some hf' => simp [unreadAt, hf, HFile.unread, h b hf' hb.1 hb.2 hf]
  · rfl

private theorem opened_update {files : Nat → Option DirFile} {fd : Nat} {o : Option DirFile}
    (h : ∀ fd f, files fd = some f → 0 ≤ f.fbstart) (ho : ∀ f, o = some f → 0 ≤ f.fbstart) :
    ∀ fd' f, Function.update files fd o fd' = some f → 0 ≤ f.fbstart := by
  intro fd' f hf
  by_cases he : fd' = fd
  · subst he
    exact ho f (by simpa using hf)
  · exact h fd' f (by simpa [he] using hf)

/-- After `read_vdir` on a stream that is rewound where it has to be, the shared `vdir`
lists what was built last. -/
theorem DirSys.Good.builtAfter {s : DirSys} (h : s.Good) {fd : Nat} {f : DirFile}
    (hf : s.files fd = some f) (hr : s.rebuilds sb f → f.AtStart) {held : Int → List Name}
    (hb : s.builtAfter hash sb f = some held) :
    ∃ vd, (readVdir hash sb (f.pos = 0) s.ino f s.w).2.1.vdir = some vd ∧ Merges held vd := by
  have hserve : vdirPlan sb (f.pos = 0) s.ino s.w = .serve →
      (readVdir hash sb (f.pos = 0) s.ino f s.w).2.1 = s.ino := by
    intro hp
    simp only [readVdir, hp]
  unfold DirSys.builtAfter at hb
  split at hb
  · rename_i hp
    rw [hserve hp]
    exact h.listing held hb
  · rename_i hp
    obtain ⟨res, ino, f', w', hres⟩ : ∃ res ino f' w',
      readVdir hash sb (f.pos = 0) s.ino f s.w = (res, ino, f', w') := ⟨_, _, _, _, rfl⟩
    rw [hres] at hb ⊢
    cases res with
    | error e => simp at hb
    | ok u =>
        simp only [Option.some.injEq] at hb
        rcases readVdir_ok hres (h.opened fd f hf) with ⟨hp', -⟩ | ⟨hp', vd, hvd, hm⟩
        · exact absurd hp' hp
        · exact ⟨vd, hvd, by rwa [← hb, ← DirFile.delivers_of_atStart (hr hp')]⟩

theorem DirSys.Good.step {s : DirSys} (h : s.Good) {e : DirEvent} (he : e.Rewound sb s) :
    (dirStep hash sb s e).Good := by
  have honfile : ∀ fd (g : DirFile → DirFile), (∀ f, 0 ≤ f.fbstart → 0 ≤ (g f).fbstart) →
      (s.onFile fd g).Good := fun fd g hg =>
    ⟨opened_update h.opened fun f hf => by
      obtain ⟨f0, hf0, rfl⟩ := Option.map_eq_some_iff.mp hf
      exact hg f0 (h.opened fd f0 hf0), h.listing⟩
  cases e with
  | opened fd d h0 =>
      refine ⟨opened_update h.opened fun f hf => ?_, h.listing⟩
      have : ∀ f w, doOpenDir s.ino d s.w = (some f, w) → 0 ≤ f.fbstart := by
        intro f w ho
        unfold doOpenDir at ho
        split at ho
        · simp at ho
        · simp only [Prod.mk.injEq, Option.some.injEq] at ho
          rw [← ho.1]
          exact h0
      exact this f (doOpenDir s.ino d s.w).2 (Prod.ext hf rfl)
  | readdir fd pos =>
      simp only [dirStep]
      split
      · exact h
      · rename_i f hf
        obtain ⟨hino, hrange⟩ := auInitVdir_spec hash sb s.ino f s.w
        have hlist := fun (held : Int → List Name) (hb : s.builtAfter hash sb f = some held) =>
          h.builtAfter hf (he f hf) hb
        have h0 := h.opened fd f hf
        rw [← hino] at hlist
        rw [← hrange] at h0
        split <;> (rename_i hi; rw [hi] at hlist h0)
        · exact ⟨opened_update h.opened fun f' hf' => Option.some.inj hf' ▸ h0, hlist⟩
        · exact ⟨opened_update h.opened fun f' hf' => Option.some.inj hf' ▸ h0, hlist⟩
  | seek fd pos =>
      refine honfile fd _ fun f hf => ?_
      unfold DirFile.seek
      split <;> exact hf
  | release fd => exact ⟨opened_update h.opened (by simp), h.listing⟩
  | changed version => exact ⟨h.opened, h.listing⟩
  | outside w => exact ⟨h.opened, h.listing⟩
  | refresh fd lo hi h0 hfile => exact honfile fd _ fun _ _ => h0

theorem DirRun.good {v : Nat} {w : World} {s : DirSys} (h : DirRun hash sb (.init v w) s) :
    s.Good := by
  induction h with
  | refl => exact ⟨fun fd f hf => by simp [DirSys.init] at hf, fun held hb => by simp [DirSys.init] at hb⟩
  | tail _ hstep ih =>
      obtain ⟨e, he, rfl⟩ := hstep
      exact ih.step he

/-- In a run in which every rebuild finds the hidden directories at their start, the shared
`vdir` is the merge of what the branches held when it was built. -/
theorem dirRun_merges {v : Nat} {w : World} {s : DirSys} (h : DirRun hash sb (.init v w) s)
    {held : Int → List Name} (hb : s.built = some held) :
    ∃ vd, s.ino.vdir = some vd ∧ Merges held vd :=
  h.good.listing held hb

/-- A stream that was just opened is at its start. -/
theorem doOpenDir_atStart {ino : DirInode} {d : Dinfo} {w w' : World} {f : DirFile}
    (h : doOpenDir ino d w = (some f, w')) : f.AtStart := by
  have hopen : ∀ (L : List Int) (w w' : World) (hfile : Int → Option HFile),
      openHdirs d L w = (some hfile, w') → ∀ b hf, hfile b = some hf → hf.pos = 0 := by
    intro L
    induction L with
    | nil =>
        intro w w' hfile ho b hf hb
        simp only [openHdirs, Prod.mk.injEq, Option.some.injEq] at ho
        simp [← ho.1] at hb
    | cons c L ih =>
        intro w w' hfile ho b hf hb
        simp only [openHdirs] at ho
        split at ho
        · exact ih _ _ _ ho b hf hb
        · split at ho
          · simp at ho
          · split at ho
            · simp at ho
            · rename_i hfile' w3 ho'
              simp only [Prod.mk.injEq, Option.some.injEq] at ho
              obtain ⟨rfl, -⟩ := ho
              by_cases hbc : b = c
              · rw [hbc, Function.update_self] at hb
                rw [← Option.some.inj hb]
              · exact ih _ _ _ ho' b hf (by simpa [hbc] using hb)
  unfold doOpenDir at h
  split at h
  · simp at h
  · rename_i hfile w1 ho
    simp only [Prod.mk.injEq, Option.some.injEq] at h
    obtain ⟨rfl, -⟩ := h
    exact fun b hf _ _ hb => hopen _ _ _ _ ho b hf hb

theorem dirStep_opened {s : DirSys} {fd : Nat} {d : Dinfo} {h0 : 0 ≤ d.bstart} {f : DirFile}
    (h : (dirStep hash sb s (.opened fd d h0)).files fd = some f) : f.AtStart :=
  doOpenDir_atStart (show doOpenDir s.ino d s.w = (some f, (doOpenDir s.ino d s.w).2) from
    Prod.ext (by simpa [dirStep] using h) rfl)

theorem dirStep_readdir_built (hash : Name → Nat) (sb : SuperBlock) (pos : Nat) {s : DirSys} {fd : Nat}
    {f : DirFile} (hf : s.files fd = some f) :
    (dirStep hash sb s (.readdir fd pos)).built = s.builtAfter hash sb f := by
  simp only [dirStep, hf]
  split <;> rfl

/-- A rebuild that returns 0 builds from what the branches hold now. -/
theorem DirSys.builtAfter_ok {s : DirSys} {f : DirFile} (hp : s.rebuilds sb f)
    (hok : (readVdir hash sb (f.pos = 0) s.ino f s.w).1 = .ok ()) :
    s.builtAfter hash sb f = some (f.holds s.w) := by
  unfold DirSys.builtAfter
  split
  · exact absurd ‹_› hp
  · rw [hok]

-- ---------------------------------------------------------------------------
-- A directory with one file
-- ---------------------------------------------------------------------------

/-- The file `a` in the root directory of the only branch. -/
def oneFileWorld : World := .ofFs fun _ => .oneFile

/-- The dentry of that directory. -/
def oneFileDentry : Dinfo := ⟨0, 0, -1, -1, fun b => if b = 0 then some ⟨1, [], some ⟨.dir, 2, 0, false⟩⟩ else none⟩

theorem oneFileDentry_nonneg : 0 ≤ oneFileDentry.bstart := by decide

/-- The mount with that branch. -/
def oneFileSb : SuperBlock := .ofBranches [.plain 1 .RW]

/-- The directory is opened and read. -/
def oneFileRead : List DirEvent := [.opened 0 oneFileDentry oneFileDentry_nonneg, .readdir 0 512]

/-- Its version counts up, and the same stream is rewound. -/
def oneFileRewind : List DirEvent := oneFileRead ++ [.changed 2, .seek 0 0]

/-- The state after these events. -/
def oneFileRun (es : List DirEvent) : DirSys :=
  es.foldl (dirStep List.length oneFileSb) (.init 1 oneFileWorld)

theorem dirRun_oneFile :
    ∃ held vd, (oneFileRun oneFileRead).built = some held ∧ [97] ∈ held 0 ∧
      (oneFileRun oneFileRead).ino.vdir = some vd ∧ Merges held vd := by
  have hrun : DirRun List.length oneFileSb (.init 1 oneFileWorld) (oneFileRun oneFileRead) := by
    simp only [oneFileRun, oneFileRead, List.foldl_cons, List.foldl_nil]
    exact .tail (.single ⟨.opened 0 oneFileDentry oneFileDentry_nonneg, trivial, rfl⟩)
      ⟨.readdir 0 512, fun f hf _ => dirStep_opened hf, rfl⟩
  have hbuilt : (oneFileRun oneFileRead).built.map (fun held => decide ([97] ∈ held 0)) = some true := by
    decide +kernel
  obtain ⟨held, hb, ha⟩ := Option.map_eq_some_iff.mp hbuilt
  obtain ⟨vd, hvd, hm⟩ := dirRun_merges hrun hb
  exact ⟨held, vd, hb, by simpa using ha, hvd, hm⟩

/-- The stream after the rewind. -/
def rewoundFile : DirFile := ((oneFileRun oneFileRewind).files 0).get (by decide +kernel)

/-- The hidden directory of the rewound stream is at its end already: the `vdir` is rebuilt
and lists nothing. -/
theorem reread_lists_nothing :
    ∃ held vd, (dirStep List.length oneFileSb (oneFileRun oneFileRewind) (.readdir 0 512)).built = some held ∧
      (dirStep List.length oneFileSb (oneFileRun oneFileRewind) (.readdir 0 512)).ino.vdir = some vd ∧
      [97] ∈ held 0 ∧ vd.names = [] ∧ ¬ Merges held vd := by
  have hfile : (oneFileRun oneFileRewind).files 0 = some rewoundFile := by simp [rewoundFile]
  have hbuilt := (dirStep_readdir_built List.length oneFileSb 512 hfile).trans
    (DirSys.builtAfter_ok (show vdirPlan _ _ _ _ ≠ _ by decide +kernel) (by decide +kernel))
  have hnames : (dirStep List.length oneFileSb (oneFileRun oneFileRewind)
      (.readdir 0 512)).ino.vdir.map Vdir.names = some [] := by decide +kernel
  obtain ⟨vd, hvd, hn⟩ := Option.map_eq_some_iff.mp hnames
  have ha : [97] ∈ rewoundFile.holds (oneFileRun oneFileRewind).w 0 := by decide +kernel
  have hstart : rewoundFile.fbstart = 0 := by decide +kernel
  refine ⟨_, vd, hbuilt, hvd, ha, hn, fun hm => ?_⟩
  have := (hm.mem [97]).mpr ⟨by decide, 0, ha, fun c hc => by simp [DirFile.holds, hstart, hc.not_ge]⟩
  simp [hn] at this

end Aufs
