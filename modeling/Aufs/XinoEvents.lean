-- SUMMARY: Runs of option lists and of calls that use the xino files, and when no call meets a missing file.
import Aufs.XinoRun

/-!
# Runs with xino files

After a mount, options of remounts and calls that use the xino files follow each other in
any order, and every creation and write may fail. The flag is set behind the back of the
branches by a remount with the place that the first branch has, and the report of sysaufs
does not ask the flag. In a run where neither happens while a file is missing, the flag
means that every branch has its file.
-/

namespace Aufs

-- ---------------------------------------------------------------------------
-- Events
-- ---------------------------------------------------------------------------

/-- What happens to a mount, as far as its xino files go. -/
inductive XinoEvent where
  | opt (o : AuOpt)
  | verify (e : Int → InitWhEnv)
  | read (ans : Except LowerErrno Nat) (bindex : Int) (hIno : Nat)
  | write (ans : Except LowerErrno Nat) (bindex : Int) (hIno ino : Nat)
  | setHIptr (ans : Except LowerErrno Nat) (bindex : Int) (hIno ino : Nat)
  | showOptions
  | sysaufs

/-- The call. -/
def Host.event (h : Host) (st : Sbinfo) : XinoEvent → Except Errno Unit × Sbinfo
  | .opt o => h.remountOpt st o
  | .verify e => verifyOpts e st
  | .read ans bindex hIno => ((h.xinoRead st ans bindex hIno).map fun _ => (), st)
  | .write ans bindex hIno ino => h.xinoWrite st ans bindex hIno ino
  | .setHIptr ans bindex hIno ino => h.setHIptr st ans bindex hIno ino
  | .showOptions => ((Host.showOptions st).map fun _ => (), st)
  | .sysaufs => ((Host.makeXino st).map fun _ => (), st)

/-- The callers of `xino_read` and `xino_write` name branches of the table. -/
def XinoEvent.InTable (st : Sbinfo) : XinoEvent → Prop
  | .read _ bindex _ | .write _ bindex _ _ | .setHIptr _ bindex _ _ => st.InTable bindex
  | _ => True

/-- The calls that are not to meet a missing file. -/
def XinoEvent.UsesFiles : XinoEvent → Prop
  | .opt (.append ..) | .opt (.prepend ..) | .opt (.add ..) => True
  | .read .. | .write .. | .setHIptr .. | .showOptions | .sysaufs => True
  | _ => False

/-- The flag is not set, and the report not asked for, while it is off and a file is
missing. -/
def XinoEvent.Safe (st : Sbinfo) : XinoEvent → Prop
  | .opt (.xino e place) => e.Usable ∧ (st.AtPlace place = true → st.xino = false → st.AllFiles)
  | .sysaufs => st.xino = false → st.AllFiles
  | _ => True

section

variable {h : Host} {st : Sbinfo}

-- ---------------------------------------------------------------------------
-- One event
-- ---------------------------------------------------------------------------

/-- A branch option leaves a branch. -/
theorem Host.nonempty_doOptBr {t : BrList h} (ht : st.Is t) (hne : 0 ≤ st.siBend) (remount : Bool)
    (o : AuOpt) : 0 ≤ (h.doOptBr st remount o).2.siBend := by
  have hend := ht.holds.siBend
  have hadd : ∀ e add, 0 ≤ (h.brAdd st e add remount).2.siBend := by
    intro e add
    rcases Host.brAdd_spec ht e add remount with hsame | ⟨s, hi, hs, -, -, -, hnew, -⟩
    · have := hsame.holds.siBend
      omega
    · have := hnew.holds.siBend
      simp only [BrList.add, List.length_insertIdx, if_pos hi] at this
      omega
  cases o with
  | append e perm nd => exact hadd e _
  | prepend e perm nd => exact hadd e _
  | add e add => exact hadd e add
  | del e hRoot =>
    show 0 ≤ (h.brDel st e hRoot remount).2.siBend
    rcases Host.brDel_spec ht e hRoot remount with hsame | ⟨i, s, hs, -, hlt, -, hnew⟩
    · have := hsame.holds.siBend
      omega
    · have hi : i < t.slots.length := (List.getElem?_eq_some_iff.mp hs).1
      have := hnew.holds.siBend
      simp only [BrList.del, List.length_eraseIdx, if_pos hi] at this
      omega
  | mod e hRoot perm =>
    show 0 ≤ (brMod st e hRoot perm remount).2.siBend
    rcases Host.brMod_spec ht e hRoot perm remount with hsame | ⟨i, s, -, -, -, hnew⟩
    · have := hsame.holds.siBend
      omega
    · have := hnew.holds.siBend
      simp only [BrList.chperm, List.length_modify] at this
      omega
  | _ => exact hne

theorem Host.Sound.sameTable {st' : Sbinfo} (hs : h.Sound st) (htable : st.SameTable st')
    (hok : st'.XinoOk) : h.Sound st' := by
  obtain ⟨t, ht⟩ := hs.table
  refine ⟨⟨t, ht.sameTable htable⟩, ?_, hok⟩
  rw [htable.siBend]
  exact hs.nonempty

theorem Host.Sound.refits {st' : Sbinfo} (hs : h.Sound st) (hr : st.Refits st') : h.Sound st' :=
  hs.sameTable hr.table ⟨hr.fitted hs.xino.fitted, fun hx =>
    hr.allFiles (hs.xino.files (hr.xino.symm.trans hx))⟩

/-- A call of the table of inode numbers has what it needs. -/
theorem Host.Sound.branch (hs : h.Sound st) {bindex : Int} (hb : st.InTable bindex)
    (hx : st.xino = true) : ∃ br, st.stobr bindex = some br ∧ br.brXino.isSome ∧
      br.brXinoRead = true ∧ br.brXinoWrite = true := by
  obtain ⟨t, ht⟩ := hs.table
  obtain ⟨br, hbr⟩ := Option.isSome_iff_exists.mp (ht.holds.isSome_stobr hb)
  have hfile := hs.xino.files hx bindex hb
  rw [Sbinfo.brXino, hbr] at hfile
  exact ⟨br, hbr, hfile, hs.xino.fitted bindex br hb hbr hfile⟩

/-- An option of a remount keeps a sound state sound. -/
theorem Host.Sound.remountOpt (hs : h.Sound st) {o : AuOpt} (hsafe : (XinoEvent.opt o).Safe st)
    (hne : (h.remountOpt st o).1 ≠ .error .oops) : h.Sound (h.remountOpt st o).2 := by
  obtain ⟨t, ht⟩ := hs.table
  have hbr := Host.doOptBr_spec ht hs.xino (fun _ => hs.nonempty) true o
  have hbend := Host.nonempty_doOptBr ht hs.nonempty true o
  have husable : o.Usable := by
    cases o with
    | xino e place => exact hsafe.1
    | _ => trivial
  obtain ⟨htable, hxino⟩ := @Host.doOptXino_spec h st o husable true _ ht.holds hs.xino
    fun e place he _ hat => by
      subst he
      by_cases hx : st.xino = true
      · exact hs.xino.files hx
      · exact hsafe.2 hat (Bool.eq_false_iff.mpr hx)
  cases o with
  | plink on => exact ⟨⟨t, ht.sameTable ⟨rfl, rfl, rfl, rfl, rfl, rfl, rfl, rfl, rfl, rfl⟩⟩,
      hs.nonempty, hs.xino.fitted, hs.xino.files⟩
  | simple => exact hs
  | xino e place =>
    refine hs.sameTable htable (hxino fun he => hne ?_)
    show Except.map _ (h.doOptXino st true (.xino e place)).1 = _
    rw [he]
    rfl
  | noxino => exact hs.sameTable htable (hxino nofun)
  | _ => exact ⟨hbr.1, hbend, hbr.2⟩

/-- So does every event. -/
theorem Host.Sound.event (hs : h.Sound st) {ev : XinoEvent} (hsafe : ev.Safe st)
    (hne : (h.event st ev).1 ≠ .error .oops) : h.Sound (h.event st ev).2 := by
  cases ev with
  | opt o => exact hs.remountOpt hsafe hne
  | verify e =>
    obtain ⟨t, ht⟩ := hs.table
    obtain ⟨htable, hcarries⟩ := @verifyOpts_spec st e
    exact hs.sameTable htable (hs.xino.carries ht.holds (ht.holds.sameTable htable) hcarries)
  | write ans bindex hIno ino => exact hs.refits (refits_xinoWrite ans bindex hIno ino)
  | setHIptr ans bindex hIno ino =>
    have hwrite := hs.refits (refits_xinoWrite (h := h) ans bindex hIno ino)
    show h.Sound (h.setHIptr st ans bindex hIno ino).2
    rw [Host.setHIptr]
    generalize h.xinoWrite st ans bindex hIno ino = r at *
    obtain ⟨r, st'⟩ := r
    cases r with
    | ok u => exact hwrite
    | error err =>
      -- the flag goes off, and the files stay as they are
      have hoff : h.Sound { st' with xino := false } :=
        hwrite.sameTable (Sbinfo.sameTable_xino false) ⟨hwrite.xino.fitted, nofun⟩
      cases err with
      | oops => exact hwrite
      | _ => exact hoff
  | _ => exact hs

private theorem mapM_ne_error {α β ε : Type} {f : α → Except ε β} {l : List α} {err : ε}
    (hf : ∀ a ∈ l, ∃ b, f a = .ok b) : l.mapM f ≠ .error err := by
  have hok : ∃ bs, l.mapM f = .ok bs := by
    induction l with
    | nil => exact ⟨[], rfl⟩
    | cons a l ih =>
      obtain ⟨ha, hl⟩ := List.forall_mem_cons.mp hf
      obtain ⟨b, hb⟩ := ha
      obtain ⟨bs, hbs⟩ := ih hl
      refine ⟨b :: bs, ?_⟩
      rw [List.mapM_cons, hb, hbs]
      rfl
  obtain ⟨bs, hbs⟩ := hok
  intro he
  cases hbs.symm.trans he

theorem makeXino_ne_oops (ha : st.AllFiles) : Host.makeXino st ≠ .error .oops := by
  refine mapM_ne_error fun b hb => ?_
  obtain ⟨file, hfile⟩ := Option.isSome_iff_exists.mp (ha b (mem_bindexes.mp hb))
  exact ⟨_, by rw [hfile]⟩

/-- In a sound state no call meets a missing file. -/
theorem Host.Sound.event_ne_oops (hs : h.Sound st) {ev : XinoEvent} (hsafe : ev.Safe st)
    (hb : ev.InTable st) (huses : ev.UsesFiles) : (h.event st ev).1 ≠ .error .oops := by
  obtain ⟨t, ht⟩ := hs.table
  have hadd := fun e add => (Host.brAdd_xino ht hs.xino (fun _ => hs.nonempty) e add true).1
  have hwrite := fun ans bindex (hb : st.InTable bindex) hIno ino =>
    @xinoWrite_ne_oops h st ans bindex hIno ino fun hx =>
      (hs.branch hb hx).imp fun _ hbr => ⟨hbr.1, hbr.2.1, hbr.2.2.2⟩
  cases ev with
  | opt o =>
    cases o with
    | append e perm nd => exact hadd e _
    | prepend e perm nd => exact hadd e _
    | add e add => exact hadd e add
    | _ => cases huses
  | verify e => cases huses
  | read ans bindex hIno =>
    have hread := @xinoRead_ne_oops h st ans bindex hIno fun hx =>
      (hs.branch hb hx).imp fun _ hbr => ⟨hbr.1, hbr.2.1, hbr.2.2.1⟩
    show Except.map _ (h.xinoRead st ans bindex hIno) ≠ _
    cases hr : h.xinoRead st ans bindex hIno with
    | ok ino => exact nofun
    | error err => exact fun he => hread (hr.trans (congrArg _ (Except.error.inj he)))
  | write ans bindex hIno ino => exact hwrite ans bindex hb hIno ino
  | setHIptr ans bindex hIno ino =>
    have hne := hwrite ans bindex hb hIno ino
    show (h.setHIptr st ans bindex hIno ino).1 ≠ _
    rw [Host.setHIptr]
    split
    case h_1 hr => exact absurd (congrArg Prod.fst hr) hne
    case h_2 => exact nofun
    case h_3 => exact nofun
  | showOptions =>
    show Except.map _ (Host.showOptions st) ≠ _
    rw [Host.showOptions]
    split
    case isTrue hx =>
      obtain ⟨file, hfile⟩ := Option.isSome_iff_exists.mp
        (hs.xino.files hx 0 ⟨Int.le_refl 0, hs.nonempty⟩)
      rw [hfile]
      exact nofun
    case isFalse => exact nofun
  | sysaufs =>
    have hall : st.AllFiles := by
      by_cases hx : st.xino = true
      · exact hs.xino.files hx
      · exact hsafe (Bool.eq_false_iff.mpr hx)
    have hmake := makeXino_ne_oops hall
    show Except.map _ (Host.makeXino st) ≠ _
    cases hr : Host.makeXino st with
    | ok l => exact nofun
    | error err => exact fun he => hmake (hr.trans (congrArg _ (Except.error.inj he)))

-- ---------------------------------------------------------------------------
-- Runs
-- ---------------------------------------------------------------------------

/-- The states after a mount without an error, and after every event in one. A call that
meets a missing file ends the run. -/
inductive Host.XinoReach (h : Host) (ok : Sbinfo → XinoEvent → Prop) : Sbinfo → Prop
  | mount (e : Host.MountEnv) (opts : List AuOpt) (xino plink : Bool)
      (hopts : ∀ o ∈ opts, o.Usable)
      (hok : (h.doOptsMount e opts (.init xino plink)).1 = .ok ()) :
      XinoReach h ok (h.doOptsMount e opts (.init xino plink)).2
  | event {st : Sbinfo} (ev : XinoEvent) (hr : XinoReach h ok st) (hb : ev.InTable st)
      (hev : ok st ev) (hne : (h.event st ev).1 ≠ .error .oops) :
      XinoReach h ok (h.event st ev).2

theorem Host.XinoReach.sound (hr : h.XinoReach (fun st ev => ev.Safe st) st) : h.Sound st := by
  induction hr with
  | mount e opts xino plink hopts hok =>
    exact Host.doOptsMount_sound hopts e xino plink (Prod.ext hok rfl)
  | event ev _ _ hev hne ih => exact ih.event hev hne

/-- The options of a remount are safe, each in the state that it finds. -/
def Host.SafeOpts (h : Host) : List AuOpt → Sbinfo → Prop
  | [], _ => True
  | o :: os, st => (XinoEvent.opt o).Safe st ∧
      ((h.remountOpt st o).1 = .ok () → h.SafeOpts os (h.remountOpt st o).2)

theorem Host.XinoReach.remountOpts {opts : List AuOpt} (hsafe : h.SafeOpts opts st)
    (hr : h.XinoReach (fun st ev => ev.Safe st) st)
    (hne : (h.remountOpts opts st).1 ≠ .error .oops) :
    h.XinoReach (fun st ev => ev.Safe st) (h.remountOpts opts st).2 := by
  induction opts generalizing st with
  | nil => exact hr
  | cons o opts ih =>
    obtain ⟨ho, hrest⟩ := hsafe
    have hstep : (h.remountOpt st o).1 ≠ .error .oops →
        h.XinoReach (fun st ev => ev.Safe st) (h.remountOpt st o).2 :=
      fun hne => hr.event (.opt o) trivial ho hne
    rw [Host.remountOpts] at hne ⊢
    generalize h.remountOpt st o = r at *
    obtain ⟨r, st'⟩ := r
    cases r with
    | error err => exact hstep hne
    | ok u => exact ih (hrest rfl) (hstep nofun) hne

theorem verifyLoop_ne_oops (e : Int → InitWhEnv) {l : List Slot} {bs : List Int} {st : Sbinfo}
    (hl : st.Holds l) (hbs : ∀ b ∈ bs, st.InTable b) : (verifyLoop e bs st).1 ≠ .error .oops := by
  induction bs generalizing st with
  | nil => exact nofun
  | cons b bs ih =>
    obtain ⟨hb, hrest⟩ := List.forall_mem_cons.mp hbs
    obtain ⟨br, hbr⟩ := Option.isSome_iff_exists.mp (hl.isSome_stobr hb)
    simp only [verifyLoop, hbr]
    split
    · exact ih hl hrest
    have hkey := key_initWh (e b) st.plink br
    have hne := initWh_ne_oops (e b) st.plink br
    generalize initWh (e b) st.plink br = r at *
    obtain ⟨r, br'⟩ := r
    cases r with
    | error err => exact fun he => hne (congrArg _ (Except.error.inj he))
    | ok u =>
      obtain ⟨i, rfl⟩ := Int.eq_ofNat_of_zero_le hb.1
      exact ih (hl.sameTable (Sbinfo.sameTable_setBranch_of hbr hkey)) hrest

/-- A remount is a run of its options, up to the first error, and of the check of the
whiteout bases. -/
theorem Host.XinoReach.remount (e : Int → InitWhEnv) {opts : List AuOpt}
    (hr : h.XinoReach (fun st ev => ev.Safe st) st) (hsafe : h.SafeOpts opts st)
    (hne : (h.doOptsRemount e opts st).1 ≠ .error .oops) :
    h.XinoReach (fun st ev => ev.Safe st) (h.doOptsRemount e opts st).2 := by
  rw [Host.doOptsRemount] at hne ⊢
  have hopts : (h.remountOpts opts st).1 ≠ .error .oops := by
    intro he
    generalize h.remountOpts opts st = r at *
    obtain ⟨r, st'⟩ := r
    obtain rfl : r = .error .oops := he
    exact hne rfl
  have hrun := hr.remountOpts hsafe hopts
  obtain ⟨t, ht⟩ := hrun.sound.table
  have hstep := hrun.event (.verify e) trivial trivial
    (verifyLoop_ne_oops e ht.holds fun b hb => mem_bindexes.mp hb)
  split
  case h_1 heq => exact absurd (congrArg Prod.fst heq) hopts
  case h_2 heq =>
    rw [heq] at hstep
    exact hstep

/-- While a mount adds its branches, none of them asks for a file. -/
theorem Host.mountBrs_add_ne_oops (opts : List AuOpt) (plink : Bool) (e : AddEnv) (add : OptAdd) :
    (h.brAdd (h.mountBrs opts (.init false plink)).2 e add false).1 ≠ .error .oops := by
  have hnone : (Sbinfo.init false plink).NoFiles := by
    rintro b br ⟨h0, hle⟩ -
    have hle : b ≤ -1 := hle
    omega
  obtain ⟨⟨t, ht⟩, hno, hx⟩ := @Host.mountBrs_spec h opts _ _
    (Sbinfo.is_init h false plink) hnone rfl
  exact (Host.brAdd_xino ht ⟨hno.fitted, fun he => by cases hx.symm.trans he⟩
    (fun he => by cases hx.symm.trans he) e add false).1

/-- With the flag set every branch has its file, and no call meets a missing one: in every
run in which the flag is not set, and the report not asked for, while files are missing. -/
theorem xinoFlag_run :
    (∀ st, h.XinoReach (fun st ev => ev.Safe st) st →
      (st.xino = true → ∀ b, st.InTable b → ∃ br, st.stobr b = some br ∧ br.brXino.isSome ∧
        br.brXinoRead = true ∧ br.brXinoWrite = true) ∧
      ∀ ev : XinoEvent, ev.InTable st → ev.Safe st → ev.UsesFiles →
        (h.event st ev).1 ≠ .error .oops) ∧
    ∀ opts plink e add,
      (h.brAdd (h.mountBrs opts (.init false plink)).2 e add false).1 ≠ .error .oops :=
  ⟨fun _ hr => ⟨fun hx _ hb => hr.sound.branch hb hx, fun _ hb hev huses =>
    hr.sound.event_ne_oops hev hb huses⟩, Host.mountBrs_add_ne_oops⟩

end

-- ---------------------------------------------------------------------------
-- Runs that go wrong
-- ---------------------------------------------------------------------------

/-- A branch option for the directory of this name on super block `sb`, where the xino file
is made and written as told. -/
def AuOpt.addDir (sb : Nat) (name : Name) (bindex : Int) (xino : XinoInitEnv) : AuOpt :=
  .add ⟨sb + 10, 2, false, ⟨true, true, true, true⟩, ⟨none, none, none, none⟩, xino⟩
    ⟨bindex, .RW, ⟨⟨sb, [name]⟩, sb, rfl⟩⟩

/-- Lower calls without any error. -/
def XinoInitEnv.fine : XinoInitEnv := ⟨.ok (true, true), .ok 8⟩

theorem enospc_ne_oops : Errno.ENOSPC ≠ .oops := nofun

/-- No space for the file. -/
def XinoInitEnv.full : XinoInitEnv := ⟨.error ⟨.ENOSPC, enospc_ne_oops⟩, .ok 8⟩

/-- Copies without any error. -/
def XinoSetEnv.fine : XinoSetEnv :=
  ⟨fun _ => .ok (true, true), fun _ => ⟨512, 4096, true, true, .ok, .ok, fun _ => none, none⟩, 8,
    fun _ => .fine⟩

/-- The place in the only branch. -/
def defaultPlace : XinoPlace := ⟨⟨3, [[97]]⟩, [120]⟩

/-- What a mount of one branch with default xino files gets. -/
def Host.MountEnv.fine : Host.MountEnv :=
  ⟨fun _ => ⟨none, none, none, none⟩, .ok defaultPlace, fun _ => .fine⟩

/-- A mount of one branch with its xino file at the default place. -/
def oneBranch : Sbinfo :=
  (Host.plain.doOptsMount .fine [.addDir 3 [97] 0 .fine] (.init true true)).2

/-- A second branch is added, and its file cannot be made: the flag goes off. -/
def secondWithout : Sbinfo := (Host.plain.event oneBranch (.opt (.addDir 5 [98] 1 .full))).2

/-- A remount names the place of the first file again: the flag is back on. -/
def flagBehind : Sbinfo := (Host.plain.event secondWithout (.opt (.xino .fine defaultPlace))).2

/-- The files are given up. -/
def noFiles : Sbinfo := (Host.plain.event oneBranch (.opt .noxino)).2

theorem reach_oneBranch {ok : Sbinfo → XinoEvent → Prop} : Host.plain.XinoReach ok oneBranch := by
  refine .mount .fine [.addDir 3 [97] 0 .fine] true true (fun o ho => ?_) (by decide +kernel)
  obtain rfl := List.mem_singleton.mp ho
  trivial

theorem reach_flagBehind : Host.plain.XinoReach (fun _ _ => True) flagBehind :=
  .event _ (.event _ reach_oneBranch trivial trivial (by decide +kernel)) trivial trivial
    (by decide +kernel)

theorem reach_noFiles : Host.plain.XinoReach (fun _ _ => True) noFiles :=
  .event _ reach_oneBranch trivial trivial (by decide +kernel)

/-- The flag is set and a branch has no file, and the number of an inode on it is asked for.
And without the option the report asks for a file. -/
theorem xinoFlag_run_flagBehind :
    (∃ st, Host.plain.XinoReach (fun _ _ => True) st ∧ st.xino = true ∧ st.InTable 1 ∧
      st.brXino 1 = none ∧ (Host.plain.event st (.read (.ok 8) 1 7)).1 = .error .oops) ∧
    ∃ st, Host.plain.XinoReach (fun _ _ => True) st ∧ st.xino = false ∧
      (Host.plain.event st .sysaufs).1 = .error .oops :=
  ⟨⟨flagBehind, reach_flagBehind, by decide +kernel, ⟨by decide, by decide +kernel⟩, by decide +kernel,
    by decide +kernel⟩, ⟨noFiles, reach_noFiles, by decide +kernel, by decide +kernel⟩⟩

theorem xinoFlag_run_oneBranch :
    (oneBranch.xino = true ∧ oneBranch.siBend = 0) ∧
    (∃ br, oneBranch.stobr 0 = some br ∧ br.brXino.isSome ∧ br.brXinoRead = true ∧
      br.brXinoWrite = true) ∧
    (Host.plain.event oneBranch (.read (.ok 8) 0 7)).1 ≠ .error .oops :=
  have hb : oneBranch.InTable 0 := ⟨by decide, by decide +kernel⟩
  have hrun := (xinoFlag_run (h := Host.plain)).1 oneBranch reach_oneBranch
  ⟨by decide +kernel, hrun.1 (by decide +kernel) 0 hb, hrun.2 _ hb trivial trivial⟩

end Aufs
