-- SUMMARY: The inode number of a directory entry: listings and lookups that number hidden inodes side by side, and what entries and inodes then have in common.
import Aufs.Inode
import Aufs.WrDir
import Mathlib.Logic.Relation

/-!
# Listed inode numbers

`fillvdir` and `au_new_inode` both read the number of a hidden inode from the inode number table,
take a new one if there is none, and write it back, each with locks of its own directory only. The
inode that is made enters its number for the hidden inodes of the lower branches, too.
-/

namespace Aufs.ListedIno

open Overlay

-- ---------------------------------------------------------------------------
-- The lower directories
-- ---------------------------------------------------------------------------

/-- The lower directories while nothing changes in them. `held` is the hidden inode that a branch has
under a name of a directory of aufs, `masked` says that it has the whiteout of the name, and `honoured`
that lookups ask for it. A hidden directory has one name. -/
structure Tree (ν : Type) where
  held : ν → Int → Option HiPtr
  masked : ν → Int → Prop
  honoured : ν → Int → Prop
  isDir : HiPtr → Prop
  one_name : ∀ x y b c k, isDir k → held x b = some k → held y c = some k → x = y ∧ b = c

/-- The hidden inode at `bindex`. -/
def hInodeI (d : Dinfo) (bindex : Int) : Option HiPtr := (d.hDptrI bindex).bind HDentry.dInode

/-- The hidden inode is of the file system of this branch. -/
def OnBranch (sb : SuperBlock) (bindex : Int) (h : HiPtr) : Prop :=
  (sb.stobr bindex).map Branch.root = some h.root

namespace Tree

variable {ν : Type} (t : Tree ν)

/-- The listing of the directory shows the name from this branch. -/
def ListsAt (x : ν) (b : Int) : Prop := Shown (fun c => (t.held x c).isSome) (t.masked x) b

/-- A lookup of the name begins at this branch. -/
def FindsAt (x : ν) (b : Int) : Prop := Found (fun c => (t.held x c).isSome) (t.honoured x) b

/-- What `lkup_dentry` leaves of a name that it finds. -/
structure Finds (x : ν) (d : Dinfo) : Prop where
  found : t.FindsAt x d.bstart
  start : (hInodeI d d.bstart).isSome
  slots : ∀ b k, hInodeI d b = some k → t.held x b = some k
  dirs : ∀ b c k l, hInodeI d b = some k → hInodeI d c = some l → b ≠ c → t.isDir k

/-- Hidden directories of one directory of aufs. -/
def Merged (k l : HiPtr) : Prop :=
  ∃ x b c, t.held x b = some k ∧ t.held x c = some l ∧ t.isDir k ∧ t.isDir l

end Tree

-- ---------------------------------------------------------------------------
-- Callers
-- ---------------------------------------------------------------------------

/-- What `fillvdir` is called for: an entry of the hidden directory on a branch. Two of them are `.`
and `..`. -/
structure Entry (ν : Type) where
  name : Option ν
  bindex : Int
  h : HiPtr

/-- What `au_new_inode` is called for: the dentry of a name that was found, and its first hidden inode. -/
structure Lookup (ν : Type) where
  name : ν
  d : Dinfo
  h : HiPtr

/-- Where a caller is. `old` is the number that the table had for the hidden inode, zero for none. -/
inductive Call (ν : Type) where
  /-- in no call -/
  | idle
  /-- in `fillvdir`, behind `xino_read` -/
  | filling (e : Entry ν) (ino : Nat)
  /-- in `fillvdir`, behind `xino_new_ino` -/
  | numbered (e : Entry ν) (old ino : Nat)
  /-- in `fillvdir`, behind `xino_write` -/
  | written (e : Entry ν) (ino : Nat)
  /-- in `au_new_inode`, at `new_ino` -/
  | looked (l : Lookup ν) (ino : Nat)
  /-- in `au_new_inode`, before `iget_locked` -/
  | igets (l : Lookup ν) (old ino : Nat)
  /-- in `set_inode` or `au_refresh_hinode`, with the calls of `set_h_iptr` that are left -/
  | setting (l : Lookup ν) (old ino : Nat) (inode : Inode) (ok : Bool) (todo : List (Int × HiPtr))

/-- The mount, its inode cache, and the callers. `entries` are the entries that were stored and `made`
the inodes that lookups returned, each with its number. -/
structure Sys (ν : Type) where
  sb : SuperBlock
  w : World
  icache : Nat → Option Inode
  calls : Nat → Call ν
  entries : List (Entry ν × Nat)
  made : List (ν × Nat)

/-- A caller begins a call or goes on, or an inode leaves the inode cache. -/
inductive Event (ν : Type) where
  | fill (e : Entry ν)
  | lookup (x : ν) (d : Dinfo)
  | next
  | prune (ino : Nat)

-- ---------------------------------------------------------------------------
-- `set_h_iptr`
-- ---------------------------------------------------------------------------

/-- The positive hidden dentries from `dbstart` to `btail`. -/
def slotsTo (d : Dinfo) (btail : Int) : List (Int × HiPtr) :=
  (bindexes d.bstart btail).filterMap fun b => (hInodeI d b).map fun h => (b, h)

/-- `btail` of `set_inode` -/
def setTail (d : Dinfo) : Int := if d.hDptr.any HDentry.isDir then d.dbtaildir else d.dbtail

/-- `set_inode` on a new inode, with the calls of `set_h_iptr`. -/
def setInode (sb : SuperBlock) (d : Dinfo) : Option (Inode × List (Int × HiPtr)) :=
  let todo := slotsTo d (setTail d)
  let ii : Iinfo := ⟨d.bstart, setTail d, fun _ => none, sb.generation⟩
  match todo.foldlM (fun ii e => ii.setHIptr sb e.1 e.2) ii with
  | none => none
  | some ii =>
    (auCpupAttrAll ⟨d.hDptr.any HDentry.isDir, 0, none, ii⟩).map fun i => (i, todo)

/-- The calls of `set_h_iptr` in the second loop of `au_refresh_hinode`. -/
def refreshWrites (d : Dinfo) : List Int → Iinfo → List (Int × HiPtr)
  | [], _ => []
  | bindex :: rest, ii =>
    match hInodeI d bindex with
    | none => refreshWrites d rest ii
    | some hd =>
      match (if ii.bstart ≤ bindex ∧ bindex ≤ ii.bend then ii.hIptrI bindex else none) with
      | some hi => if hi = hd then refreshWrites d rest ii else []
      | none =>
        (bindex, hd) ::
          refreshWrites d rest { ii with bstart := min ii.bstart bindex, bend := max ii.bend bindex }

-- ---------------------------------------------------------------------------
-- Steps
-- ---------------------------------------------------------------------------

namespace Sys

variable {ν : Type} (gen : HiPtr → Nat)

/-- A caller goes on. -/
def goto (s : Sys ν) (caller : Nat) (c : Call ν) : Sys ν :=
  { s with calls := Function.update s.calls caller c }

/-- `iget_locked` and what follows it, up to the first `set_h_iptr`. -/
def iget (s : Sys ν) (caller : Nat) (l : Lookup ν) (old ino : Nat) : Sys ν :=
  match s.icache ino with
  | none =>
    match setInode s.sb l.d with
    | none => s.goto caller .idle
    | some (i, todo) => s.goto caller (.setting l old ino i true todo)
  | some i =>
    if i.attrFrom.map gen = some (gen l.h) then
      match auRefreshHinode s.sb true i l.d with
      | (.ok (), i', _) =>
        s.goto caller (.setting l old ino i' true (refreshWrites l.d (bindexes l.d.bstart l.d.bend) i.ii))
      | (.error _, i', _) =>
        s.goto caller (.setting l old ino i' false (refreshWrites l.d (bindexes l.d.bstart l.d.bend) i.ii))
    else
      -- another generation: the number is given up
      match xinoWrite s.sb s.w l.d.bstart l.h.ino 0 with
      | (.error _, w) => { s with w }.goto caller .idle
      | (.ok (), w) => { s with w }.goto caller (.looked l 0)

/-- The next step of a call. -/
def next (s : Sys ν) (caller : Nat) : Call ν → Sys ν
  | .idle => s
  | .filling e ino =>
    if ino = 0 then
      { s with w := (xinoNewIno s.w).2 }.goto caller (.numbered e 0 (xinoNewIno s.w).1)
    else s.goto caller (.numbered e ino ino)
  | .numbered e _ ino =>
    -- the error for a number that could not be had is lost here
    match xinoWrite s.sb s.w e.bindex e.h.ino ino with
    | (.error _, w) => { s with w }.goto caller .idle
    | (.ok (), w) => { s with w }.goto caller (.written e ino)
  | .written e ino =>
    match s.w.ask with
    | (some _, w) => { s with w }.goto caller .idle
    | (none, w) => { s with w, entries := (e, ino) :: s.entries }.goto caller .idle
  | .looked l ino =>
    if ino = 0 then
      let new := (xinoNewIno s.w).1
      { s with w := (xinoNewIno s.w).2 }.goto caller (if new = 0 then .idle else .igets l 0 new)
    else s.goto caller (.igets l ino ino)
  | .igets l old ino =>
    match s.w.ask with
    | (some _, w) => { s with w }.goto caller .idle
    | (none, w) => { s with w }.iget gen caller l old ino
  | .setting l old ino i ok ((bindex, h) :: todo) =>
    match xinoWrite s.sb s.w bindex h.ino ino with
    | (.error _, w) =>
      -- force noxino
      { s with w, sb := { s.sb with xino := false } }.goto caller (.setting l old ino i ok todo)
    | (.ok (), w) => { s with w }.goto caller (.setting l old ino i ok todo)
  | .setting l _ ino i ok [] =>
    { s with
      icache := Function.update s.icache ino (some i)
      made := if ok then (l.name, ino) :: s.made else s.made }.goto caller .idle

/-- One step. -/
def step (s : Sys ν) (caller : Nat) : Event ν → Sys ν
  | .fill e =>
    match xinoRead s.sb s.w e.bindex e.h.ino with
    | (.error _, w) => { s with w }
    | (.ok ino, w) => { s with w }.goto caller (.filling e ino)
  | .lookup x d =>
    match hInodeI d d.bstart with
    | none => s
    | some h =>
      match xinoRead s.sb s.w d.bstart h.ino with
      | (.error _, w) => { s with w }
      | (.ok ino, w) => { s with w }.goto caller (.looked ⟨x, d, h⟩ ino)
  | .next => s.next gen caller (s.calls caller)
  | .prune ino => { s with icache := Function.update s.icache ino none }

end Sys

-- ---------------------------------------------------------------------------
-- Runs
-- ---------------------------------------------------------------------------

/-- The number that the table has for a hidden inode, zero for none. -/
def number (w : World) (k : HiPtr) : Nat := (w.xino k.root).ino k.ino

/-- Past the end of an inode number file there is nothing. -/
def Tidy (w : World) : Prop := ∀ r i, (w.xino r).size ≤ i → (w.xino r).ino i = 0

/-- The call asks `xino_new_ino` next. -/
def Call.asks {ν : Type} : Call ν → Prop
  | .filling _ ino => ino = 0
  | .looked _ ino => ino = 0
  | _ => False

/-- The hidden inode that a call is about to number: it has found no number. -/
def Call.numbers {ν : Type} : Call ν → Option HiPtr
  | .idle => none
  | .filling e ino => if ino = 0 then some e.h else none
  | .numbered e old _ => if old = 0 then some e.h else none
  | .written _ _ => none
  | .looked l ino => if ino = 0 then some l.h else none
  | .igets l old _ => if old = 0 then some l.h else none
  | .setting l old _ _ _ todo => if old = 0 ∧ l.h ∈ todo.map Prod.snd then some l.h else none

namespace Sys

variable {ν : Type} (t : Tree ν) (gen : HiPtr → Nat)

/-- A listing meets the names that it shows, `.` and `..`, and a lookup what is there. -/
def Offers (s : Sys ν) (caller : Nat) : Event ν → Prop
  | .fill e => s.calls caller = .idle ∧ OnBranch s.sb e.bindex e.h ∧
      ∀ x, e.name = some x → t.ListsAt x e.bindex ∧ t.held x e.bindex = some e.h
  | .lookup x d => s.calls caller = .idle ∧ t.Finds x d ∧ ∀ b k, hInodeI d b = some k → OnBranch s.sb b k
  | .next => True
  | .prune _ => True

/-- The inode that `iget_locked` finds has the generation of the hidden inode. -/
def SameGen (s : Sys ν) (caller : Nat) : Event ν → Prop
  | .next => ∀ l old ino i, s.calls caller = .igets l old ino → s.icache ino = some i →
      i.attrFrom.map gen = some (gen l.h)
  | _ => True

/-- The counter does not run over. -/
def Spare (s : Sys ν) (caller : Nat) : Event ν → Prop
  | .next => (s.calls caller).asks → s.w.lastIno + 1 < 2 ^ 64
  | _ => True

/-- Nobody else is about to number the hidden inode. -/
def NobodyNumbers (s : Sys ν) (k : HiPtr) : Prop := ∀ other, (s.calls other).numbers ≠ some k

/-- No call finds a hidden inode without a number that another one is about to number. -/
def Alone (s : Sys ν) : Event ν → Prop
  | .fill e => s.NobodyNumbers e.h
  | .lookup _ d => ∀ k, hInodeI d d.bstart = some k → s.NobodyNumbers k
  | _ => True

/-- Steps of listings and lookups by any callers, with unchanged generations. -/
def Steps : Sys ν → Sys ν → Prop :=
  Relation.ReflTransGen fun s s' => ∃ caller e, s.Offers t caller e ∧ s.SameGen gen caller e ∧
    s' = s.step gen caller e

/-- Those in which numbers are left and no hidden inode is numbered by two calls at once. -/
def CalmSteps : Sys ν → Sys ν → Prop :=
  Relation.ReflTransGen fun s s' => ∃ caller e, s.Offers t caller e ∧ s.SameGen gen caller e ∧
    s.Spare caller e ∧ s.Alone e ∧ s' = s.step gen caller e

/-- The mount before the first call: every number in the table belongs to the hidden inodes of one
directory. -/
structure Mounted (s : Sys ν) : Prop where
  tidy : Tidy s.w
  pos : 0 < s.w.lastIno
  last : s.w.lastIno < 2 ^ 64
  table : ∀ k, number s.w k ≤ s.w.lastIno
  apart : ∀ k l, number s.w k ≠ 0 → number s.w k = number s.w l → k = l ∨ t.Merged k l
  icache : ∀ ino, s.icache ino = none
  calls : ∀ caller, s.calls caller = .idle
  entries : s.entries = []
  made : s.made = []

/-- What is asked of the entries that listings stored. -/
structure Listed (s : Sys ν) : Prop where
  numbered : ∀ e ∈ s.entries, e.2 ≠ 0
  apart : ∀ e ∈ s.entries, ∀ e' ∈ s.entries, e.2 = e'.2 → e.1.h = e'.1.h ∨ t.Merged e.1.h e'.1.h
  lookup : ∀ e ∈ s.entries, ∀ m ∈ s.made, e.1.name = some m.1 → m.2 = e.2

end Sys

-- ---------------------------------------------------------------------------
-- The hidden inodes of one name
-- ---------------------------------------------------------------------------

namespace Tree

variable {ν : Type} {t : Tree ν} {x : ν} {d : Dinfo} {k l m : HiPtr}

/-- The hidden inodes belong to one file or directory of aufs. -/
def Same (t : Tree ν) (k l : HiPtr) : Prop := k = l ∨ t.Merged k l

/-- Lookups of the name begin at this hidden inode. -/
def First (t : Tree ν) (x : ν) (k : HiPtr) : Prop := ∃ b, t.FindsAt x b ∧ t.held x b = some k

/-- Lookups of some name begin at this hidden inode. -/
def Top (t : Tree ν) (k : HiPtr) : Prop := ∃ x, t.First x k

theorem Merged.symm (h : t.Merged k l) : t.Merged l k := by
  obtain ⟨x, b, c, hk, hl, hkd, hld⟩ := h
  exact ⟨x, c, b, hl, hk, hld, hkd⟩

theorem Same.symm (h : t.Same k l) : t.Same l k := by
  rcases h with rfl | h
  · exact .inl rfl
  · exact .inr h.symm

theorem Same.trans (h : t.Same k l) (h' : t.Same l m) : t.Same k m := by
  rcases h with rfl | h
  · exact h'
  rcases h' with rfl | h'
  · exact .inr h
  obtain ⟨x, b, c, hk, hl, hkd, hld⟩ := h
  obtain ⟨y, e, f, hl', hm, -, hmd⟩ := h'
  obtain ⟨rfl, -⟩ := t.one_name _ _ _ _ _ hld hl hl'
  exact .inr ⟨x, b, f, hk, hm, hkd, hmd⟩

theorem FindsAt.unique {b c : Int} (hb : t.FindsAt x b) (hc : t.FindsAt x c) : b = c := hb.1.unique hc.1

/-- Of the hidden inodes of one file or directory lookups begin at one only. -/
theorem Top.eq_of_same (hk : t.Top k) (hl : t.Top l) (h : t.Same k l) : k = l := by
  rcases h with rfl | ⟨x, b, c, hb, hc, hkd, hld⟩
  · rfl
  obtain ⟨y, b', hfind, hb'⟩ := hk
  obtain ⟨z, c', hfind', hc'⟩ := hl
  obtain ⟨rfl, rfl⟩ := t.one_name _ _ _ _ _ hkd hb hb'
  obtain ⟨rfl, rfl⟩ := t.one_name _ _ _ _ _ hld hc hc'
  obtain rfl := hfind.unique hfind'
  exact Option.some.inj (hb.symm.trans hc)

/-- The listing shows the name from the branch at which lookups begin. -/
theorem ListsAt.first {b : Int} (hlist : t.ListsAt x b) (hb : t.held x b = some k) (hl : t.First x l) : k = l := by
  obtain ⟨c, hfind, hc⟩ := hl
  have hbc : b = c := by
    rcases lt_trichotomy b c with hlt | heq | hgt
    · exact absurd hlist.1 (hfind.1.2 b hlt).1
    · exact heq
    · exact absurd hfind.1.1 (hlist.2 c hgt).1
  rw [hbc] at hb
  exact Option.some.inj (hb.symm.trans hc)

theorem Finds.first (h : t.Finds x d) (hk : hInodeI d d.bstart = some k) : t.First x k :=
  ⟨d.bstart, h.found, h.slots _ _ hk⟩

/-- A slot below the first one is of the same directory, and no lookup begins at it. -/
theorem Finds.slot (h : t.Finds x d) (hk : hInodeI d d.bstart = some k) {b : Int} (hl : hInodeI d b = some l) :
    t.Same l k ∧ (t.Top l → l = k) := by
  by_cases hb : b = d.bstart
  · subst hb
    obtain rfl := Option.some.inj (hl.symm.trans hk)
    exact ⟨.inl rfl, fun _ => rfl⟩
  · have hdir := h.dirs _ _ _ _ hl hk hb
    refine ⟨.inr ⟨x, b, d.bstart, h.slots _ _ hl, h.slots _ _ hk, hdir, h.dirs _ _ _ _ hk hl (Ne.symm hb)⟩,
      fun htop => ?_⟩
    obtain ⟨y, c, hfind, hc⟩ := htop
    obtain ⟨rfl, rfl⟩ := t.one_name _ _ _ _ _ hdir (h.slots _ _ hl) hc
    exact absurd (hfind.unique h.found) hb

end Tree

-- ---------------------------------------------------------------------------
-- The table
-- ---------------------------------------------------------------------------

section Table

variable {sb : SuperBlock} {w w' : World} {b : Int} {k : HiPtr}

/-- The world `w'` has the table and the counter of `w`. -/
structure SameTable (w w' : World) : Prop where
  xino : w'.xino = w.xino
  last : w'.lastIno = w.lastIno

theorem SameTable.ask (w : World) : SameTable w w.ask.2 := ⟨rfl, rfl⟩

theorem SameTable.number (h : SameTable w w') : number w' = number w := by
  funext l
  rw [ListedIno.number, ListedIno.number, h.xino]

theorem SameTable.tidy (h : SameTable w w') (ht : Tidy w) : Tidy w' := by
  rw [Tidy, h.xino]
  exact ht

theorem OnBranch.stobr (h : OnBranch sb b k) : ∃ br, sb.stobr b = some br ∧ br.root = k.root :=
  Option.map_eq_some_iff.mp h

/-- `xino_read` gives the number of the table. -/
theorem xinoRead_spec (hon : sb.xino = true) (hb : OnBranch sb b k) (ht : Tidy w) :
    SameTable w (xinoRead sb w b k.ino).2 ∧ ∀ n, (xinoRead sb w b k.ino).1 = .ok n → n = number w k := by
  obtain ⟨br, hbr, hroot⟩ := hb.stobr
  rw [xinoRead, hon, hbr]
  simp only [Bool.not_true, Bool.false_eq_true, if_false, hroot]
  split
  · rename_i hsize
    refine ⟨⟨rfl, rfl⟩, fun n hn => ?_⟩
    cases hn
    exact (ht k.root k.ino (by omega)).symm
  · unfold World.ask
    split
    · rename_i hask
      obtain ⟨-, rfl⟩ := Prod.mk.inj hask
      exact ⟨⟨rfl, rfl⟩, fun n hn => by cases hn⟩
    · rename_i hask
      obtain ⟨-, rfl⟩ := Prod.mk.inj hask
      refine ⟨⟨rfl, rfl⟩, fun n hn => ?_⟩
      cases hn
      rfl

theorem number_update (w : World) (k : HiPtr) (size n : Nat) (xino : Nat → XinoFile)
    (hx : xino = Function.update w.xino k.root ⟨size, Function.update (w.xino k.root).ino k.ino n⟩) :
    number { w with xino } = Function.update (number w) k n := by
  subst hx
  funext l
  rw [number]
  dsimp only
  by_cases hl : l.root = k.root
  case neg =>
    have hne : l ≠ k := fun he => hl (congrArg HiPtr.root he)
    rw [Function.update_of_ne hl, Function.update_of_ne hne, number]
  case pos =>
    rw [hl, Function.update_self]
    by_cases hi : l.ino = k.ino
    case pos =>
      have heq : l = k := by
        cases l
        cases k
        exact congrArg₂ HiPtr.mk hl hi
      rw [heq, Function.update_self]
      exact Function.update_self ..
    case neg =>
      have hne : l ≠ k := fun he => hi (congrArg HiPtr.ino he)
      rw [Function.update_of_ne hne, number, hl]
      exact Function.update_of_ne hi ..

/-- `xino_write` enters the number, or changes nothing. -/
theorem xinoWrite_spec {n : Nat} (hon : sb.xino = true) (hb : OnBranch sb b k) (ht : Tidy w) :
    (∃ e w', xinoWrite sb w b k.ino n = (.error e, w') ∧ SameTable w w') ∨
      ∃ w', xinoWrite sb w b k.ino n = (.ok (), w') ∧ number w' = Function.update (number w) k n ∧
        w'.lastIno = w.lastIno ∧ Tidy w' := by
  obtain ⟨br, hbr, hroot⟩ := hb.stobr
  rw [xinoWrite, hon, hbr]
  simp only [Bool.not_true, Bool.false_eq_true, if_false, hroot]
  unfold World.ask
  cases hfault : w.fault w.tick with
  | some e => exact .inl ⟨_, _, rfl, rfl, rfl⟩
  | none =>
    refine .inr ⟨_, rfl, number_update w.next k _ n _ rfl, rfl, ?_⟩
    intro r i hi
    dsimp only at hi ⊢
    by_cases hr : r = k.root
    case neg =>
      rw [Function.update_of_ne hr] at hi ⊢
      exact ht r i hi
    case pos =>
      rw [hr, Function.update_self] at hi ⊢
      have hsize : (w.xino k.root).size ≤ i ∧ k.ino + 1 ≤ i := max_le_iff.mp hi
      have hne : i ≠ k.ino := by omega
      dsimp only
      rw [Function.update_of_ne hne]
      exact ht k.root i hsize.1

/-- `xino_new_ino` counts up while numbers are left. -/
theorem xinoNewIno_spare (hspare : w.lastIno + 1 < 2 ^ 64) (hpos : 0 < w.lastIno) :
    xinoNewIno w = (w.lastIno + 1, { w with lastIno := w.lastIno + 1 }) := by
  have hroot : rootIno ≤ w.lastIno + 1 := by
    rw [rootIno]
    omega
  rw [xinoNewIno, Nat.mod_eq_of_lt hspare]
  exact if_pos hroot

end Table

-- ---------------------------------------------------------------------------
-- The invariant
-- ---------------------------------------------------------------------------

section Invariant

variable {ν : Type} {t : Tree ν} {gen : HiPtr → Nat}

/-- The hidden inode that a call is for. -/
def Call.key : Call ν → Option HiPtr
  | .idle => none
  | .filling e _ => some e.h
  | .numbered e _ _ => some e.h
  | .written e _ => some e.h
  | .looked l _ => some l.h
  | .igets l _ _ => some l.h
  | .setting l _ _ _ _ _ => some l.h

/-- The number that a call has in hand, zero for none. -/
def Call.ino : Call ν → Nat
  | .idle => 0
  | .filling _ ino => ino
  | .numbered _ _ ino => ino
  | .written _ ino => ino
  | .looked _ ino => ino
  | .igets _ _ ino => ino
  | .setting _ _ ino _ _ _ => ino

/-- The entry is one that a listing meets. -/
structure Entry.Fits (t : Tree ν) (sb : SuperBlock) (e : Entry ν) : Prop where
  branch : OnBranch sb e.bindex e.h
  name : ∀ x, e.name = some x → t.ListsAt x e.bindex ∧ t.held x e.bindex = some e.h

/-- The dentry is one that a lookup leaves. -/
structure Lookup.Fits (t : Tree ν) (sb : SuperBlock) (l : Lookup ν) : Prop where
  finds : t.Finds l.name l.d
  h : hInodeI l.d l.d.bstart = some l.h
  branch : ∀ b k, hInodeI l.d b = some k → OnBranch sb b k

/-- What a call works on, and what is left of it. -/
def Call.Fits (t : Tree ν) (sb : SuperBlock) : Call ν → Prop
  | .idle => True
  | .filling e _ => e.Fits t sb
  | .numbered e _ ino => e.Fits t sb ∧ ino ≠ 0
  | .written e ino => e.Fits t sb ∧ ino ≠ 0
  | .looked l _ => l.Fits t sb
  | .igets l _ ino => l.Fits t sb ∧ ino ≠ 0
  | .setting l _ ino _ _ todo => l.Fits t sb ∧ ino ≠ 0 ∧ (∀ p ∈ todo, hInodeI l.d p.1 = some p.2) ∧
      (todo.map Prod.fst).Nodup

/-- What the table says about the call: its number belongs to its hidden inode, and the table has
that number, or none if the call is about to number it. `own` is the hidden inode that a number
was taken for. -/
structure Call.Backed (t : Tree ν) (w : World) (own : Nat → HiPtr) (c : Call ν) : Prop where
  own : ∀ k, c.key = some k → c.ino ≠ 0 → c.ino ≤ w.lastIno ∧ t.Same k (own c.ino)
  zero : ∀ k, c.numbers = some k → t.Top k → number w k = 0
  has : ∀ k, c.key = some k → c.numbers = none → c.ino ≠ 0 ∧ (t.Top k → number w k = c.ino)

/-- An entry that was stored has a number of its hidden inode. -/
structure Stored (t : Tree ν) (w : World) (own : Nat → HiPtr) (e : Entry ν × Nat) : Prop where
  name : ∀ x, e.1.name = some x → t.ListsAt x e.1.bindex ∧ t.held x e.1.bindex = some e.1.h
  pos : e.2 ≠ 0
  le : e.2 ≤ w.lastIno
  own : t.Same e.1.h (own e.2)
  has : t.Top e.1.h → number w e.1.h = e.2

/-- The table has the number for a hidden inode at which lookups begin. -/
structure Entered (t : Tree ν) (w : World) (own : Nat → HiPtr) (k : HiPtr) (ino : Nat) : Prop where
  top : t.Top k
  pos : ino ≠ 0
  le : ino ≤ w.lastIno
  own : t.Same k (own ino)
  has : number w k = ino

structure Inv (t : Tree ν) (s : Sys ν) (own : Nat → HiPtr) : Prop where
  tidy : Tidy s.w
  pos : 0 < s.w.lastIno
  last : s.w.lastIno < 2 ^ 64
  table : ∀ k, number s.w k ≠ 0 → number s.w k ≤ s.w.lastIno ∧ t.Same k (own (number s.w k))
  fits : ∀ caller, (s.calls caller).Fits t s.sb
  backed : ∀ caller, (s.calls caller).Backed t s.w own
  alone : ∀ caller other k, (s.calls caller).numbers = some k → (s.calls other).numbers = some k → caller = other
  entries : ∀ e ∈ s.entries, Stored t s.w own e
  made : ∀ m ∈ s.made, ∃ k, t.First m.1 k ∧ Entered t s.w own k m.2
  icache : ∀ ino i, s.icache ino = some i → ∃ k, Entered t s.w own k ino

/-- A step of a call that is about to number `numbers`: the new numbers, the table and who owns them. -/
structure Grows (t : Tree ν) (numbers : Option HiPtr) (w w' : World) (own own' : Nat → HiPtr) : Prop where
  tidy : Tidy w'
  last : w.lastIno ≤ w'.lastIno
  lt : w'.lastIno < 2 ^ 64
  own : ∀ ino ≤ w.lastIno, own' ino = own ino
  table : ∀ k, number w' k = number w k ∨ (number w' k ≠ 0 ∧ number w' k ≤ w'.lastIno ∧
    t.Same k (own' (number w' k)) ∧ (t.Top k → number w k = 0 ∧ numbers = some k))

variable {s : Sys ν} {w' : World} {own own' : Nat → HiPtr} {numbers : Option HiPtr} {caller : Nat}

theorem Inv.same (h : Inv t s own) (hs : SameTable s.w w') : Grows t numbers s.w w' own own where
  tidy := hs.tidy h.tidy
  last := le_of_eq hs.last.symm
  lt := hs.last ▸ h.last
  own := fun _ _ => rfl
  table := fun k => .inl (by rw [hs.number])

/-- A number at a hidden inode at which lookups begin stays. -/
theorem Grows.keeps (h : Grows t numbers s.w w' own own') {k : HiPtr} (htop : t.Top k) (hk : number s.w k ≠ 0) :
    number w' k = number s.w k := by
  rcases h.table k with heq | ⟨-, -, -, hnew⟩
  · exact heq
  · exact absurd (hnew htop).1 hk

theorem Grows.same (h : Grows t numbers s.w w' own own') {k : HiPtr} {ino : Nat} (hle : ino ≤ s.w.lastIno)
    (hown : t.Same k (own ino)) : ino ≤ w'.lastIno ∧ t.Same k (own' ino) := by
  rw [h.own ino hle]
  exact ⟨hle.trans h.last, hown⟩

theorem Stored.grows {e : Entry ν × Nat} (he : Stored t s.w own e) (h : Grows t numbers s.w w' own own') :
    Stored t w' own' e where
  name := he.name
  pos := he.pos
  le := (h.same he.le he.own).1
  own := (h.same he.le he.own).2
  has := fun htop => by
    have hhas := he.has htop
    rw [h.keeps htop (hhas ▸ he.pos), hhas]

theorem Entered.grows {k : HiPtr} {ino : Nat} (he : Entered t s.w own k ino)
    (h : Grows t numbers s.w w' own own') : Entered t w' own' k ino where
  top := he.top
  pos := he.pos
  le := (h.same he.le he.own).1
  own := (h.same he.le he.own).2
  has := by rw [h.keeps he.top (he.has ▸ he.pos), he.has]

/-- The calls of others do not notice. -/
theorem Call.Backed.grows {c : Call ν} (hc : c.Backed t s.w own) (h : Grows t numbers s.w w' own own')
    (hother : ∀ k, numbers = some k → c.numbers ≠ some k) : c.Backed t w' own' where
  own := fun k hk hpos => h.same (hc.own k hk hpos).1 (hc.own k hk hpos).2
  zero := fun k hk htop => by
    rcases h.table k with heq | ⟨-, -, -, hnew⟩
    · rw [heq, hc.zero k hk htop]
    · exact absurd hk (hother k (hnew htop).2)
  has := fun k hk hno => by
    obtain ⟨hpos, hhas⟩ := hc.has k hk hno
    exact ⟨hpos, fun htop => by rw [h.keeps htop (hhas htop ▸ hpos), hhas htop]⟩

theorem goto_self (s : Sys ν) (caller : Nat) (c : Call ν) : (s.goto caller c).calls caller = c :=
  Function.update_self ..

theorem goto_of_ne (s : Sys ν) {other : Nat} (h : other ≠ caller) (c : Call ν) :
    (s.goto caller c).calls other = s.calls other := Function.update_of_ne h ..

/-- The caller goes on. -/
theorem Inv.goto (h : Inv t s own) {c : Call ν} (hg : Grows t (s.calls caller).numbers s.w w' own own')
    (hfits : c.Fits t s.sb) (hbacked : c.Backed t w' own')
    (halone : ∀ k, c.numbers = some k → (s.calls caller).numbers = some k ∨ s.NobodyNumbers k) :
    Inv t ({ s with w := w' }.goto caller c) own' where
  tidy := hg.tidy
  pos := h.pos.trans_le hg.last
  last := hg.lt
  table := fun k hk => by
    rcases hg.table k with heq | ⟨-, hle, hown, -⟩
    · have hk : number w' k ≠ 0 := hk
      show number w' k ≤ w'.lastIno ∧ t.Same k (own' (number w' k))
      rw [heq] at hk ⊢
      exact hg.same (h.table k hk).1 (h.table k hk).2
    · exact ⟨hle, hown⟩
  fits := fun other => by
    by_cases he : other = caller
    · rw [he, goto_self]
      exact hfits
    · rw [goto_of_ne _ he]
      exact h.fits other
  backed := fun other => by
    by_cases he : other = caller
    · rw [he, goto_self]
      exact hbacked
    · rw [goto_of_ne _ he]
      exact (h.backed other).grows hg fun k hk hk' => he (h.alone other caller k hk' hk)
  alone := fun a b k => by
    have hnew : ∀ other, other ≠ caller → c.numbers = some k → (s.calls other).numbers ≠ some k := by
      intro other he hc hother
      rcases halone k hc with hold | hnobody
      · exact he (h.alone other caller k hother hold)
      · exact hnobody other hother
    by_cases ha : a = caller
    · by_cases hb : b = caller
      · exact fun _ _ => ha.trans hb.symm
      · rw [ha, goto_self, goto_of_ne _ hb]
        exact fun hc hother => absurd hother (hnew b hb hc)
    · by_cases hb : b = caller
      · rw [hb, goto_self, goto_of_ne _ ha]
        exact fun hother hc => absurd hother (hnew a ha hc)
      · rw [goto_of_ne _ ha, goto_of_ne _ hb]
        exact h.alone a b k
  entries := fun e he => (h.entries e he).grows hg
  made := fun m hm => by
    obtain ⟨k, hfirst, hk⟩ := h.made m hm
    exact ⟨k, hfirst, hk.grows hg⟩
  icache := fun ino i hi => by
    obtain ⟨k, hk⟩ := h.icache ino i hi
    exact ⟨k, hk.grows hg⟩

-- ---------------------------------------------------------------------------
-- Steps of a call
-- ---------------------------------------------------------------------------

/-- A call that ends. -/
theorem Inv.idle (h : Inv t s own) (hs : SameTable s.w w') : Inv t ({ s with w := w' }.goto caller .idle) own :=
  h.goto (h.same hs) trivial
    ⟨(fun _ hk => by cases hk), (fun _ hk => by cases hk), (fun _ hk => by cases hk)⟩ fun _ hk => by cases hk

/-- A call has read the table. -/
theorem Inv.reads (h : Inv t s own) (hs : SameTable s.w w') {c : Call ν} {k : HiPtr} (hkey : c.key = some k)
    (hino : c.ino = number s.w k) (hnumbers : c.numbers = if number s.w k = 0 then some k else none) :
    c.Backed t w' own where
  own := fun l hl hpos => by
    obtain rfl := Option.some.inj (hkey.symm.trans hl)
    rw [hino] at hpos ⊢
    rw [hs.last]
    exact h.table k hpos
  zero := fun l hl _ => by
    rw [hnumbers] at hl
    split at hl
    case isTrue hz =>
      obtain rfl := Option.some.inj hl
      rw [hs.number, hz]
    case isFalse => cases hl
  has := fun l hl hno => by
    obtain rfl := Option.some.inj (hkey.symm.trans hl)
    rw [hnumbers] at hno
    split at hno
    case isTrue => cases hno
    case isFalse hz =>
      rw [hino, hs.number]
      exact ⟨hz, fun _ => rfl⟩

/-- The call goes on with the number that it has. -/
theorem Call.Backed.move {c c' : Call ν} (h : c.Backed t s.w own) (hs : SameTable s.w w') (hkey : c'.key = c.key)
    (hino : c'.ino = c.ino) (hnumbers : c'.numbers = c.numbers) : c'.Backed t w' own where
  own := fun k hk hpos => by
    rw [hkey] at hk
    rw [hino] at hpos ⊢
    rw [hs.last]
    exact h.own k hk hpos
  zero := fun k hk htop => by
    rw [hnumbers] at hk
    rw [hs.number, h.zero k hk htop]
  has := fun k hk hno => by
    rw [hkey] at hk
    rw [hnumbers] at hno
    rw [hino, hs.number]
    exact h.has k hk hno

/-- The call takes a new number for its hidden inode. -/
theorem Inv.alloc (h : Inv t s own) (hspare : s.w.lastIno + 1 < 2 ^ 64) {c : Call ν} {k : HiPtr}
    (hold : (s.calls caller).numbers = some k) (hkey : c.key = some k) (hino : c.ino = s.w.lastIno + 1)
    (hnumbers : c.numbers = some k) (hfits : c.Fits t s.sb) :
    ∃ own', Inv t ({ s with w := { s.w with lastIno := s.w.lastIno + 1 } }.goto caller c) own' := by
  refine ⟨Function.update own (s.w.lastIno + 1) k, h.goto ?_ hfits ?_ fun l hl => ?_⟩
  · refine ⟨h.tidy, Nat.le_succ _, hspare, fun ino hle => ?_, fun l => .inl rfl⟩
    exact Function.update_of_ne (by omega) ..
  · refine ⟨fun l hl _ => ?_, fun l hl htop => ?_, fun l hl hno => ?_⟩
    · obtain rfl := Option.some.inj (hkey.symm.trans hl)
      rw [hino, Function.update_self]
      exact ⟨le_rfl, .inl rfl⟩
    · obtain rfl := Option.some.inj (hnumbers.symm.trans hl)
      exact (h.backed caller).zero k hold htop
    · rw [hnumbers] at hno
      cases hno
  · obtain rfl := Option.some.inj (hnumbers.symm.trans hl)
    exact .inl hold

/-- A number that a call writes to the table: where lookups begin it was there, or the call is about to
number the hidden inode. -/
theorem Inv.write (h : Inv t s own) {k : HiPtr} {ino : Nat} (hnum : number w' = Function.update (number s.w) k ino)
    (hlast : w'.lastIno = s.w.lastIno) (htidy : Tidy w') (hpos : ino ≠ 0) (hle : ino ≤ s.w.lastIno)
    (hown : t.Same k (own ino))
    (htop : t.Top k → number s.w k = ino ∨ (number s.w k = 0 ∧ numbers = some k)) :
    Grows t numbers s.w w' own own where
  tidy := htidy
  last := le_of_eq hlast.symm
  lt := hlast ▸ h.last
  own := fun _ _ => rfl
  table := fun l => by
    rw [hnum]
    by_cases hl : l = k
    case neg => exact .inl (Function.update_of_ne hl ..)
    case pos =>
      rw [hl, Function.update_self, hlast]
      by_cases hold : number s.w k = ino
      case pos => exact .inl hold.symm
      case neg => exact .inr ⟨hpos, hle, hown, fun ht => (htop ht).resolve_left hold⟩

/-- `fillvdir` writes its number. -/
theorem Inv.numbered (h : Inv t s own) (hon : s.sb.xino = true) {e : Entry ν} {old ino : Nat}
    (hc : s.calls caller = .numbered e old ino) : Inv t (s.next gen caller (.numbered e old ino)) own := by
  have hfits := h.fits caller
  have hbacked := h.backed caller
  rw [hc] at hfits hbacked
  obtain ⟨hentry, hpos⟩ := hfits
  obtain ⟨hle, hown⟩ := hbacked.own e.h rfl hpos
  rw [Sys.next]
  rcases xinoWrite_spec (n := ino) hon hentry.branch h.tidy with ⟨err, w', hw, hsame⟩ | ⟨w', hw, hnum, hlast, htidy⟩
  · rw [hw]
    exact h.idle hsame
  · rw [hw]
    have hgrows : Grows t (s.calls caller).numbers s.w w' own own := by
      refine h.write hnum hlast htidy hpos hle hown fun htop => ?_
      rw [hc]
      by_cases hold : old = 0
      · have hnumbers : (Call.numbered e old ino).numbers = some e.h := if_pos hold
        exact .inr ⟨hbacked.zero e.h hnumbers htop, hnumbers⟩
      · exact .inl ((hbacked.has e.h rfl (if_neg hold)).2 htop)
    refine h.goto hgrows ⟨hentry, hpos⟩ ⟨fun k hk _ => ?_, (fun k hk => by cases hk), fun k hk _ => ⟨hpos, fun _ => ?_⟩⟩
      fun k hk => by cases hk
    · obtain rfl := Option.some.inj hk
      rw [hlast]
      exact ⟨hle, hown⟩
    · obtain rfl := Option.some.inj hk
      rw [hnum]
      exact Function.update_self ..

/-- `fillvdir` stores its entry. -/
theorem Inv.written (h : Inv t s own) {e : Entry ν} {ino : Nat} (hc : s.calls caller = .written e ino) :
    Inv t (s.next gen caller (.written e ino)) own := by
  have hfits := h.fits caller
  have hbacked := h.backed caller
  rw [hc] at hfits hbacked
  obtain ⟨hentry, hpos⟩ := hfits
  obtain ⟨hle, hown⟩ := hbacked.own e.h rfl hpos
  obtain ⟨-, hhas⟩ := hbacked.has e.h rfl rfl
  rw [Sys.next]
  split
  · rename_i w' hask
    obtain ⟨-, rfl⟩ := Prod.mk.inj hask
    exact h.idle (.ask s.w)
  · rename_i w' hask
    obtain ⟨-, rfl⟩ := Prod.mk.inj hask
    have hidle : Inv t ({ s with w := _ }.goto caller .idle) own := h.idle (SameTable.ask s.w)
    refine { hidle with entries := fun e' he' => ?_ }
    rcases List.mem_cons.mp he' with rfl | he'
    · exact ⟨hentry.name, hpos, hle, hown, hhas⟩
    · exact hidle.entries e' he'

-- ---------------------------------------------------------------------------
-- The hidden inodes of an inode
-- ---------------------------------------------------------------------------

section

variable {sb : SuperBlock} {d : Dinfo} {b : Int} {k : HiPtr}

theorem mem_slotsTo {tail : Int} {p : Int × HiPtr} (h : p ∈ slotsTo d tail) : hInodeI d p.1 = some p.2 := by
  obtain ⟨c, -, hc⟩ := List.mem_filterMap.mp h
  obtain ⟨l, hl, rfl⟩ := Option.map_eq_some_iff.mp hc
  exact hl

theorem slotsTo_nodup (d : Dinfo) (tail : Int) : ((slotsTo d tail).map Prod.fst).Nodup := by
  have hsub : ∀ L : List Int, ((L.filterMap fun b => (hInodeI d b).map fun h => (b, h)).map Prod.fst).Sublist L := by
    intro L
    induction L with
    | nil => exact .slnil
    | cons c L ih =>
      rw [List.filterMap_cons]
      cases hInodeI d c with
      | none => exact ih.cons c
      | some l => exact ih.cons_cons c
  exact ((bindexes_sorted _ _).imp ne_of_lt).sublist (hsub _)

theorem mem_refreshWrites {L : List Int} {ii : Iinfo} {p : Int × HiPtr} (h : p ∈ refreshWrites d L ii) :
    hInodeI d p.1 = some p.2 := by
  induction L generalizing ii with
  | nil => cases h
  | cons c L ih =>
    rw [refreshWrites] at h
    split at h
    · exact ih h
    · rename_i hd hhd
      split at h
      · split at h
        · exact ih h
        · cases h
      · rcases List.mem_cons.mp h with rfl | h
        · exact hhd
        · exact ih h

theorem refreshWrites_nodup {L : List Int} (hL : L.Nodup) (ii : Iinfo) :
    ((refreshWrites d L ii).map Prod.fst).Nodup := by
  have hsub : ∀ (L : List Int) (ii : Iinfo), ((refreshWrites d L ii).map Prod.fst).Sublist L := by
    intro L
    induction L with
    | nil => exact fun _ => .slnil
    | cons c L ih =>
      intro ii
      rw [refreshWrites]
      split
      · exact (ih _).cons c
      · split
        · split
          · exact (ih _).cons c
          · exact List.nil_sublist _
        · exact (ih _).cons_cons c
  exact hL.sublist (hsub L ii)

theorem setHIptr_fold {todo : List (Int × HiPtr)} {ii ii' : Iinfo}
    (h : todo.foldlM (fun ii e => ii.setHIptr sb e.1 e.2) ii = some ii') :
    ii'.bstart = ii.bstart ∧ ∀ b, (ii'.hinode b).isSome → (ii.hinode b).isSome ∨ b ∈ todo.map Prod.fst := by
  induction todo generalizing ii with
  | nil =>
    obtain rfl := Option.some.inj h
    exact ⟨rfl, fun _ hb => .inl hb⟩
  | cons p todo ih =>
    rw [List.foldlM_cons] at h
    obtain ⟨ii₁, hset, h⟩ := Option.bind_eq_some_iff.mp h
    obtain ⟨id, -, rfl⟩ := Option.map_eq_some_iff.mp hset
    obtain ⟨hstart, hin⟩ := ih h
    refine ⟨hstart, fun b hb => ?_⟩
    rw [List.map_cons, List.mem_cons]
    rcases hin b hb with hold | hmem
    · by_cases hp : b = p.1
      · exact .inr (.inl hp)
      · dsimp only at hold
        rw [Function.update_of_ne hp] at hold
        exact .inl hold
    · exact .inr (.inr hmem)

/-- A new inode enters its number for its first hidden inode, too. -/
theorem setInode_spec {i : Inode} {todo : List (Int × HiPtr)} (h : setInode sb d = some (i, todo))
    (hk : hInodeI d d.bstart = some k) : todo = slotsTo d (setTail d) ∧ (d.bstart, k) ∈ todo := by
  rw [setInode] at h
  split at h
  · cases h
  · rename_i ii hfold
    obtain ⟨i', hattr, he⟩ := Option.map_eq_some_iff.mp h
    obtain ⟨rfl, rfl⟩ := Prod.mk.inj he
    refine ⟨rfl, ?_⟩
    obtain ⟨hstart, hin⟩ := setHIptr_fold hfold
    obtain ⟨a, ha, -⟩ := Option.map_eq_some_iff.mp hattr
    have hfilled : (ii.hinode d.bstart).isSome := by
      have hptr : (ii.hinode ii.bstart).map Hinode.inode = some a := ha
      rw [hstart] at hptr
      rw [← Option.isSome_map (f := Hinode.inode), hptr]
      rfl
    rcases hin _ hfilled with hnone | hmem
    · cases hnone
    · obtain ⟨p, hp, hpb⟩ := List.mem_map.mp hmem
      have hslot := mem_slotsTo hp
      rw [hpb] at hslot
      obtain rfl := Option.some.inj (hslot.symm.trans hk)
      rw [← hpb]
      exact hp

end

/-- `iget_locked` and what follows it. A new number is not in the inode cache. -/
theorem Inv.iget (h : Inv t s own) (hs : SameTable s.w w') {l : Lookup ν} {old ino : Nat}
    (hc : s.calls caller = .igets l old ino)
    (hgen : ∀ i, s.icache ino = some i → i.attrFrom.map gen = some (gen l.h)) :
    Inv t ({ s with w := w' }.iget gen caller l old ino) own := by
  have hfits := h.fits caller
  have hbacked := h.backed caller
  rw [hc] at hfits hbacked
  obtain ⟨hl, hpos⟩ := hfits
  have hset : ∀ (i : Inode) (ok : Bool) (todo : List (Int × HiPtr)),
      (old = 0 → (l.d.bstart, l.h) ∈ todo) → (∀ p ∈ todo, hInodeI l.d p.1 = some p.2) →
      (todo.map Prod.fst).Nodup →
      Inv t ({ s with w := w' }.goto caller (.setting l old ino i ok todo)) own := by
    intro i ok todo hold hslots hnodup
    have hnumbers : (Call.setting l old ino i ok todo).numbers = (Call.igets l old ino).numbers := by
      rw [Call.numbers, Call.numbers]
      by_cases hz : old = 0
      · rw [if_pos hz, if_pos ⟨hz, List.mem_map.mpr ⟨_, hold hz, rfl⟩⟩]
      · rw [if_neg hz, if_neg fun hz' => hz hz'.1]
    refine h.goto (h.same hs) ⟨hl, hpos, hslots, hnodup⟩ (hbacked.move hs rfl rfl hnumbers) fun k hk => .inl ?_
    rw [hc, ← hnumbers, hk]
  rw [Sys.iget]
  dsimp only
  cases hcache : s.icache ino with
  | none =>
    dsimp only
    cases hnew : setInode s.sb l.d with
    | none => exact h.idle hs
    | some r =>
      obtain ⟨i, todo⟩ := r
      obtain ⟨rfl, hfirst⟩ := setInode_spec hnew hl.h
      exact hset i true _ (fun _ => hfirst) (fun _ => mem_slotsTo) (slotsTo_nodup _ _)
  | some i =>
    have hold : old ≠ 0 := by
      intro hz
      obtain ⟨k, hk⟩ := h.icache ino i hcache
      have htop : t.Top l.h := ⟨l.name, hl.finds.first hl.h⟩
      have heq : l.h = k := htop.eq_of_same hk.top ((hbacked.own l.h rfl hpos).2.trans hk.own.symm)
      have hzero := hbacked.zero l.h (if_pos hz) htop
      rw [heq, hk.has] at hzero
      exact hpos hzero
    have hnodup : (bindexes l.d.bstart l.d.bend).Nodup := (bindexes_sorted _ _).imp ne_of_lt
    dsimp only
    rw [if_pos (hgen i hcache)]
    split
    · exact hset _ true _ (fun hz => absurd hz hold) (fun _ => mem_refreshWrites) (refreshWrites_nodup hnodup _)
    · exact hset _ false _ (fun hz => absurd hz hold) (fun _ => mem_refreshWrites) (refreshWrites_nodup hnodup _)

/-- `set_h_iptr` writes the number for one hidden inode. -/
theorem Inv.setHIptr (h : Inv t s own) (hon : s.sb.xino = true) {l : Lookup ν} {old ino : Nat} {i : Inode}
    {ok : Bool} {p : Int × HiPtr} {todo : List (Int × HiPtr)}
    (hc : s.calls caller = .setting l old ino i ok (p :: todo))
    (hon' : (s.next gen caller (.setting l old ino i ok (p :: todo))).sb.xino = true) :
    Inv t (s.next gen caller (.setting l old ino i ok (p :: todo))) own := by
  have hfits := h.fits caller
  have hbacked := h.backed caller
  rw [hc] at hfits hbacked
  obtain ⟨hl, hpos, hslots, hnodup⟩ := hfits
  obtain ⟨hp, hslots'⟩ := List.forall_mem_cons.mp hslots
  rw [List.map_cons, List.nodup_cons] at hnodup
  obtain ⟨hle, hown⟩ := hbacked.own l.h rfl hpos
  obtain ⟨hsame, htop⟩ := hl.finds.slot hl.h hp
  have htopl : t.Top l.h := ⟨l.name, hl.finds.first hl.h⟩
  -- the first hidden inode is there once
  have honce : p.2 = l.h → l.h ∉ todo.map Prod.snd := by
    intro heq hmem
    obtain ⟨q, hq, hql⟩ := List.mem_map.mp hmem
    have hslot := hslots' q hq
    rw [hql] at hslot
    rw [heq] at hp
    have hne : p.1 ≠ q.1 := fun he => hnodup.1 (he ▸ List.mem_map_of_mem hq)
    have hdir := hl.finds.dirs _ _ _ _ hp hslot hne
    exact hne (t.one_name _ _ _ _ _ hdir (hl.finds.slots _ _ hp) (hl.finds.slots _ _ hslot)).2
  rw [Sys.next] at hon' ⊢
  rcases xinoWrite_spec (n := ino) hon (hl.branch _ _ hp) h.tidy with
    ⟨err, w', hw, -⟩ | ⟨w', hw, hnum, hlast, htidy⟩
  · -- the write failed, and the table is not used any more
    rw [hw] at hon'
    cases hon'
  · rw [hw]
    have hnumbers : old = 0 → l.h ∈ (p :: todo).map Prod.snd →
        (Call.setting l old ino i ok (p :: todo)).numbers = some l.h := fun hz hmem => if_pos ⟨hz, hmem⟩
    have hgrows : Grows t (s.calls caller).numbers s.w w' own own := by
      refine h.write hnum hlast htidy hpos hle (hsame.trans hown) fun ht => ?_
      have heq := htop ht
      rw [hc, heq]
      by_cases hz : old = 0
      · have hn := hnumbers hz (heq ▸ List.mem_map_of_mem List.mem_cons_self)
        exact .inr ⟨hbacked.zero l.h hn htopl, hn⟩
      · have hn : (Call.setting l old ino i ok (p :: todo)).numbers = none := if_neg fun hz' => hz hz'.1
        exact .inl ((hbacked.has l.h rfl hn).2 htopl)
    refine h.goto hgrows ⟨hl, hpos, hslots', hnodup.2⟩ ⟨fun k hk _ => ?_, fun k hk _ => ?_, fun k hk hno => ?_⟩
      fun k hk => .inl ?_
    · obtain rfl := Option.some.inj hk
      rw [hlast]
      exact ⟨hle, hown⟩
    · rw [Call.numbers] at hk
      split at hk
      case isFalse => cases hk
      case isTrue hz =>
        obtain rfl := Option.some.inj hk
        have hne : l.h ≠ p.2 := fun he => honce he.symm hz.2
        rw [hnum, Function.update_of_ne hne]
        exact hbacked.zero l.h (hnumbers hz.1 (List.mem_cons_of_mem _ hz.2)) htopl
    · obtain rfl := Option.some.inj hk
      refine ⟨hpos, fun _ => ?_⟩
      rw [hnum]
      by_cases heq : l.h = p.2
      · rw [heq]
        exact Function.update_self ..
      · rw [Function.update_of_ne heq]
        refine (hbacked.has l.h rfl (if_neg fun hz => ?_)).2 htopl
        rw [Call.numbers] at hno
        rcases List.mem_cons.mp hz.2 with he | hmem
        · exact heq he
        · rw [if_pos ⟨hz.1, hmem⟩] at hno
          cases hno
    · rw [hc]
      rw [Call.numbers] at hk
      split at hk
      case isFalse => cases hk
      case isTrue hz =>
        rw [← hk]
        exact hnumbers hz.1 (List.mem_cons_of_mem _ hz.2)

/-- The inode is ready. -/
theorem Inv.ready (h : Inv t s own) {l : Lookup ν} {old ino : Nat} {i : Inode} {ok : Bool}
    (hc : s.calls caller = .setting l old ino i ok []) :
    Inv t (s.next gen caller (.setting l old ino i ok [])) own := by
  have hfits := h.fits caller
  have hbacked := h.backed caller
  rw [hc] at hfits hbacked
  obtain ⟨hl, hpos, -, -⟩ := hfits
  have hfirst := hl.finds.first hl.h
  have hno : (Call.setting l old ino i ok []).numbers = none := if_neg fun hz => by cases hz.2
  have hin : Entered t s.w own l.h ino :=
    ⟨⟨l.name, hfirst⟩, hpos, (hbacked.own l.h rfl hpos).1, (hbacked.own l.h rfl hpos).2,
      (hbacked.has l.h rfl hno).2 ⟨l.name, hfirst⟩⟩
  have hidle : Inv t (s.goto caller .idle) own := h.idle ⟨rfl, rfl⟩
  rw [Sys.next]
  refine { hidle with made := fun m hm => ?_, icache := fun n j hj => ?_ }
  · have hm : m ∈ (if ok = true then (l.name, ino) :: s.made else s.made) := hm
    split at hm
    · rcases List.mem_cons.mp hm with rfl | hm
      · exact ⟨l.h, hfirst, hin⟩
      · exact h.made m hm
    · exact h.made m hm
  · have hj : Function.update s.icache ino (some i) n = some j := hj
    by_cases hn : n = ino
    · rw [hn]
      exact ⟨l.h, hin⟩
    · rw [Function.update_of_ne hn] at hj
      exact h.icache n j hj

-- ---------------------------------------------------------------------------
-- Any step
-- ---------------------------------------------------------------------------

/-- What a step of the caller leaves alone. -/
structure Frame (caller : Nat) (s s' : Sys ν) : Prop where
  calls : ∀ other, other ≠ caller → s'.calls other = s.calls other
  xino : s'.sb.xino = true → s.sb.xino = true

theorem Frame.refl (caller : Nat) (s : Sys ν) : Frame caller s s := ⟨fun _ _ => rfl, id⟩

theorem Frame.goto (s s' : Sys ν) (c : Call ν) (hcalls : s'.calls = s.calls)
    (hxino : s'.sb.xino = true → s.sb.xino = true) : Frame caller s (s'.goto caller c) where
  calls := fun other he => by rw [goto_of_ne _ he, hcalls]
  xino := hxino

theorem frame_iget (s : Sys ν) (caller : Nat) (w : World) (l : Lookup ν) (old ino : Nat) :
    Frame caller s (({ s with w } : Sys ν).iget gen caller l old ino) := by
  rw [Sys.iget]
  repeat' split
  all_goals exact Frame.goto s _ _ rfl id

theorem frame_next (s : Sys ν) (caller : Nat) (c : Call ν) : Frame caller s (s.next gen caller c) := by
  cases c with
  | idle => exact .refl caller s
  | filling e ino =>
    rw [Sys.next]
    split
    all_goals exact Frame.goto s _ _ rfl id
  | numbered e old ino =>
    rw [Sys.next]
    split
    all_goals exact Frame.goto s _ _ rfl id
  | written e ino =>
    rw [Sys.next]
    split
    all_goals exact Frame.goto s _ _ rfl id
  | looked l ino =>
    rw [Sys.next]
    split
    all_goals exact Frame.goto s _ _ rfl id
  | igets l old ino =>
    rw [Sys.next]
    split
    · exact Frame.goto s _ _ rfl id
    · exact frame_iget s caller _ l old ino
  | setting l old ino i ok todo =>
    cases todo with
    | nil => exact Frame.goto s _ _ rfl id
    | cons p todo =>
      rw [Sys.next]
      split
      · exact Frame.goto s _ _ rfl fun h => by cases h
      · exact Frame.goto s _ _ rfl id

/-- A step leaves the other callers alone and does not turn the table on. -/
theorem frame_step (s : Sys ν) (caller : Nat) (e : Event ν) : Frame caller s (s.step gen caller e) := by
  cases e with
  | fill e =>
    rw [Sys.step]
    split
    · exact ⟨fun _ _ => rfl, id⟩
    · exact Frame.goto s _ _ rfl id
  | lookup x d =>
    rw [Sys.step]
    split
    · exact .refl caller s
    · split
      · exact ⟨fun _ _ => rfl, id⟩
      · exact Frame.goto s _ _ rfl id
  | next => exact frame_next s caller _
  | prune ino => exact ⟨fun _ _ => rfl, id⟩

/-- A call goes on. -/
theorem Inv.next (h : Inv t s own) (hon : s.sb.xino = true) (hgen : s.SameGen gen caller .next)
    (hspare : s.Spare caller .next) (hon' : (s.step gen caller .next).sb.xino = true) :
    ∃ own', Inv t (s.step gen caller .next) own' := by
  rw [Sys.step] at hon' ⊢
  have hfits := h.fits caller
  have hbacked := h.backed caller
  have hself : SameTable s.w s.w := ⟨rfl, rfl⟩
  have hone : 0 < s.w.lastIno + 1 := Nat.succ_pos _
  cases hc : s.calls caller with
  | idle => exact ⟨own, h⟩
  | filling e ino =>
    rw [hc] at hfits hbacked
    rw [Sys.next]
    by_cases hz : ino = 0
    · have hlt := hspare (by rw [hc]; exact hz)
      rw [if_pos hz, xinoNewIno_spare hlt h.pos]
      have hold : (s.calls caller).numbers = some e.h := by rw [hc]; exact if_pos hz
      exact h.alloc hlt hold rfl rfl rfl ⟨hfits, hone.ne'⟩
    · rw [if_neg hz]
      have hnumbers : (Call.numbered e ino ino).numbers = (Call.filling e ino).numbers := rfl
      refine ⟨own, ?_⟩
      refine Inv.goto h (h.same hself) ⟨hfits, hz⟩ (hbacked.move hself rfl rfl hnumbers) fun k hk => .inl ?_
      rw [hc, ← hnumbers, hk]
  | numbered e old ino => exact ⟨own, h.numbered hon hc⟩
  | written e ino => exact ⟨own, h.written hc⟩
  | looked l ino =>
    rw [hc] at hfits hbacked
    rw [Sys.next]
    by_cases hz : ino = 0
    · have hlt := hspare (by rw [hc]; exact hz)
      rw [if_pos hz, xinoNewIno_spare hlt h.pos]
      have hold : (s.calls caller).numbers = some l.h := by rw [hc]; exact if_pos hz
      dsimp only
      rw [if_neg hone.ne']
      exact h.alloc hlt hold rfl rfl rfl ⟨hfits, hone.ne'⟩
    · rw [if_neg hz]
      have hnumbers : (Call.igets l ino ino).numbers = (Call.looked l ino).numbers := rfl
      refine ⟨own, ?_⟩
      refine Inv.goto h (h.same hself) ⟨hfits, hz⟩ (hbacked.move hself rfl rfl hnumbers) fun k hk => .inl ?_
      rw [hc, ← hnumbers, hk]
  | igets l old ino =>
    rw [Sys.next]
    split
    · rename_i w' hask
      obtain ⟨-, rfl⟩ := Prod.mk.inj hask
      exact ⟨own, h.idle (.ask s.w)⟩
    · rename_i w' hask
      obtain ⟨-, rfl⟩ := Prod.mk.inj hask
      exact ⟨own, h.iget (.ask s.w) hc fun i hi => hgen l old ino i hc hi⟩
  | setting l old ino i ok todo =>
    rw [hc] at hon'
    cases todo with
    | nil => exact ⟨own, h.ready hc⟩
    | cons p todo => exact ⟨own, h.setHIptr hon hc hon'⟩

/-- What one step keeps. -/
theorem Inv.step (h : Inv t s own) {e : Event ν} (hoffers : s.Offers t caller e) (hgen : s.SameGen gen caller e)
    (hspare : s.Spare caller e) (halone : s.Alone e) (hon' : (s.step gen caller e).sb.xino = true) :
    ∃ own', Inv t (s.step gen caller e) own' := by
  have hon := (frame_step s caller e).xino hon'
  cases e with
  | next => exact h.next hon hgen hspare hon'
  | prune ino =>
    refine ⟨own, { h with icache := fun n i hi => ?_ }⟩
    have hi : Function.update s.icache ino none n = some i := hi
    by_cases hn : n = ino
    · rw [hn, Function.update_self] at hi
      cases hi
    · rw [Function.update_of_ne hn] at hi
      exact h.icache n i hi
  | fill e =>
    obtain ⟨hidle, hbranch, hname⟩ := hoffers
    obtain ⟨hsame, hread⟩ := xinoRead_spec hon hbranch h.tidy
    rw [Sys.step]
    split
    · rename_i err w' hr
      rw [hr] at hsame
      refine ⟨own, ?_⟩
      have hstay : Inv t ({ s with w := w' }.goto caller (s.calls caller)) own :=
        h.goto (h.same hsame) (h.fits caller) ((h.backed caller).move hsame rfl rfl rfl) fun k hk => .inl hk
      rwa [Sys.goto, Function.update_eq_self] at hstay
    · rename_i ino w' hr
      rw [hr] at hsame hread
      obtain rfl := hread ino rfl
      refine ⟨own, h.goto (h.same hsame) ⟨hbranch, hname⟩ (h.reads hsame rfl rfl rfl) fun k hk => .inr ?_⟩
      rw [Call.numbers] at hk
      split at hk
      case isFalse => cases hk
      case isTrue =>
        obtain rfl := Option.some.inj hk
        exact halone
  | lookup x d =>
    obtain ⟨hidle, hfinds, hbranch⟩ := hoffers
    rw [Sys.step]
    split
    · exact ⟨own, h⟩
    · rename_i k hk
      obtain ⟨hsame, hread⟩ := xinoRead_spec hon (hbranch _ _ hk) h.tidy
      split
      · rename_i err w' hr
        rw [hr] at hsame
        refine ⟨own, ?_⟩
        have hstay : Inv t ({ s with w := w' }.goto caller (s.calls caller)) own :=
          h.goto (h.same hsame) (h.fits caller) ((h.backed caller).move hsame rfl rfl rfl) fun k hk => .inl hk
        rwa [Sys.goto, Function.update_eq_self] at hstay
      · rename_i ino w' hr
        rw [hr] at hsame hread
        obtain rfl := hread ino rfl
        refine ⟨own, h.goto (h.same hsame) ⟨hfinds, hk, hbranch⟩ (h.reads hsame rfl rfl rfl) fun l hl => .inr ?_⟩
        rw [Call.numbers] at hl
        split at hl
        case isFalse => cases hl
        case isTrue =>
          obtain rfl := Option.some.inj hl
          exact halone k hk

-- ---------------------------------------------------------------------------
-- Any run
-- ---------------------------------------------------------------------------

open Classical in
/-- The mount before the first call. -/
theorem Sys.Mounted.inv (h : s.Mounted t) : ∃ own, Inv t s own := by
  have hno : ∀ caller, s.calls caller = .idle := h.calls
  refine ⟨fun ino => if hk : ∃ k, number s.w k = ino then hk.choose else ⟨0, 0⟩, ?_⟩
  refine ⟨h.tidy, h.pos, h.last, fun k hk => ⟨h.table k, ?_⟩, fun caller => ?_, fun caller => ?_,
    fun caller other k hk => ?_, fun e he => ?_, fun m hm => ?_, fun ino i hi => ?_⟩
  · have hex : ∃ l, number s.w l = number s.w k := ⟨k, rfl⟩
    rw [dif_pos hex]
    exact h.apart _ _ hk hex.choose_spec.symm
  · rw [hno]
    exact trivial
  · rw [hno]
    exact ⟨(fun _ hk => by cases hk), (fun _ hk => by cases hk), (fun _ hk => by cases hk)⟩
  · rw [hno] at hk
    cases hk
  · rw [h.entries] at he
    cases he
  · rw [h.made] at hm
    cases hm
  · rw [h.icache] at hi
    cases hi

/-- What a run keeps while the table is used. -/
theorem Sys.CalmSteps.inv {s₀ : Sys ν} (hstart : s₀.Mounted t) (hrun : Sys.CalmSteps t gen s₀ s) :
    s.sb.xino = true → ∃ own, Inv t s own := by
  induction hrun with
  | refl => exact fun _ => hstart.inv
  | tail _ hstep ih =>
    obtain ⟨caller, e, hoffers, hgen, hspare, halone, rfl⟩ := hstep
    intro hon
    obtain ⟨own, h⟩ := ih ((frame_step _ caller e).xino hon)
    exact h.step hoffers hgen hspare halone hon

theorem Inv.listed (h : Inv t s own) : s.Listed t where
  numbered := fun e he => (h.entries e he).pos
  apart := fun e he e' he' heq => by
    have hown := (h.entries e he).own
    rw [heq] at hown
    exact hown.trans (h.entries e' he').own.symm
  lookup := fun e he m hm hname => by
    have hs := h.entries e he
    obtain ⟨hlist, hheld⟩ := hs.name m.1 hname
    obtain ⟨k, hfirst, hk⟩ := h.made m hm
    have hek := hlist.first hheld hfirst
    rw [← hk.has, ← hs.has (hek ▸ hk.top), hek]

end Invariant

-- ---------------------------------------------------------------------------
-- The lower files
-- ---------------------------------------------------------------------------

section Files

variable {ν : Type} {t : Tree ν} {x : ν} {sb : SuperBlock} {w w' : World} {parent d : Dinfo} {name : Aufs.Name}

/-- Under `x` the tree has what the lower files have under `name` in the directory `parent`. -/
structure Describes (t : Tree ν) (x : ν) (sb : SuperBlock) (w : World) (parent : Dinfo) (name : Aufs.Name) :
    Prop where
  held : ∀ b k, t.held x b = some k ↔ (parent.bstart ≤ b ∧ b ≤ parent.dbtaildir) ∧
    ∃ h i, parent.hDptrI b = some h ∧ w.node h.root (h.path ++ [name]) = some i ∧ k = ⟨h.root, i.ino⟩
  masked : ∀ b, t.masked x b ↔ parent.nameAt w (whName name) b
  honoured : ∀ b, t.honoured x b ↔ parent.nameAt w (whName name) b ∧ sb.sbrIsWhable b
  isDir : ∀ b h i, parent.hDptrI b = some h → w.node h.root (h.path ++ [name]) = some i → i.isDir →
    t.isDir ⟨h.root, i.ino⟩

theorem Describes.held_iff (ht : Describes t x sb w parent name) (b : Int) :
    (t.held x b).isSome ↔ parent.nameAt w name b := by
  rw [Option.isSome_iff_exists, Dinfo.nameAt, ← and_assoc]
  constructor
  · rintro ⟨k, hk⟩
    obtain ⟨hrange, h, i, hh, hi, -⟩ := (ht.held b k).mp hk
    exact ⟨hrange, h, hh, Option.isSome_iff_exists.mpr ⟨i, hi⟩⟩
  · rintro ⟨hrange, h, hh, hi⟩
    obtain ⟨i, hi⟩ := Option.isSome_iff_exists.mp hi
    exact ⟨_, (ht.held b _).mpr ⟨hrange, h, i, hh, hi, rfl⟩⟩

/-- The tree lists a name where `read_vdir` shows it. -/
theorem Describes.listsAt_iff (ht : Describes t x sb w parent name) (b : Int) :
    t.ListsAt x b ↔ Shown (parent.nameAt w name) (parent.nameAt w (whName name)) b := by
  simp only [Tree.ListsAt, Shown, ht.held_iff, ht.masked]

/-- `lkup_dentry` leaves what the tree finds. -/
theorem Describes.finds (ht : Describes t x sb w parent name) (hparent : parent.IsDir) {np : Nat}
    (h : lkupDentry sb name parent .alloc parent.bstart none w = (.ok np, d, w')) (hnp : np ≠ 0) : t.Finds x d := by
  obtain ⟨-, hlen, hd⟩ := lkupDentry_fresh hparent.bstart h
  rw [if_pos hnp] at hd
  obtain ⟨e, rest, hslots⟩ : ∃ e rest, (parent.scan sb w name).slots = e :: rest := by
    refine List.exists_cons_of_ne_nil fun hnil => hnp ?_
    rw [hlen, hnil]
    rfl
  have he : e ∈ (parent.scan sb w name).slots := by
    rw [hslots]
    exact List.mem_cons_self
  obtain ⟨hstart, hfirst⟩ := ofScan_first hslots
  rw [← hd] at hstart hfirst
  have hrange : ∀ f ∈ (parent.scan sb w name).slots, f.1 ∈ bindexes parent.bstart parent.dbtaildir := fun f hf =>
    mem_bindexes.mpr (scan_range hf)
  have h0 : 0 ≤ d.bstart := by
    rw [hstart]
    exact hparent.bstart.trans (scan_range he).1
  -- what a slot holds is what the branch has
  have hslot : ∀ b l, d.hDptrI b = some l → (b, l) ∈ (parent.scan sb w name).slots := by
    intro b l hl
    have hb := hdentry_of_hDptrI hl
    rw [hd, hdentry_ofScan, mem_of_lookup scan_sorted] at hb
    exact hb
  have hentry : ∀ b l k, (b, l) ∈ (parent.scan sb w name).slots → l.dInode = some k →
      t.held x b = some k ∧ (l.isDir → t.isDir k) := by
    intro b l k hl hk
    have hcell := (Scan.entry_of_mem_search hl).2
    have hb := mem_bindexes.mp (hrange _ hl)
    rw [cellAt, hDir_of_isDir hparent hb.2] at hcell
    cases hh : parent.hDptrI b with
    | none =>
      rw [hh] at hcell
      cases hcell
    | some hp =>
      rw [hh] at hcell
      obtain ⟨i, hi, rfl⟩ := Option.map_eq_some_iff.mp hcell
      obtain rfl := Option.some.inj hk
      exact ⟨(ht.held b _).mpr ⟨hb, hp, i, hh, hi, rfl⟩, fun hdir => ht.isDir b hp i hh hi hdir⟩
  have hmember : ∀ b k, hInodeI d b = some k → ∃ l, (b, l) ∈ (parent.scan sb w name).slots ∧ l.dInode = some k := by
    intro b k hk
    obtain ⟨l, hl, hlk⟩ := Option.bind_eq_some_iff.mp hk
    exact ⟨l, hslot b l hl, hlk⟩
  refine ⟨⟨⟨?_, fun c hc => ⟨fun hheld => ?_, fun hmask => ?_⟩⟩, fun hmask => ?_⟩, ?_, fun b k hk => ?_,
    fun b c k l hk hl hne => ?_⟩
  · have hcell := (Scan.entry_of_mem_search he).2
    show (t.held x d.bstart).isSome
    rw [ht.held_iff, hstart]
    exact (entry_cellAt hparent e.1).mp ⟨hrange e he, by rw [hcell]; rfl⟩
  · obtain ⟨hmem, hsome⟩ := (@entry_cellAt sb name parent w hparent c).mpr ((ht.held_iff c).mp hheld)
    rw [hstart] at hc
    rw [(Scan.search_above (bindexes_sorted _ _) hslots c hmem hc).2] at hsome
    cases hsome
  · obtain ⟨hmem, hm⟩ := (mask_cellAt hparent c).mpr ((ht.honoured c).mp hmask)
    rw [hstart] at hc
    rw [(Scan.search_above (bindexes_sorted _ _) hslots c hmem hc).1] at hm
    cases hm
  · rw [hstart] at hmask
    have hm := ((mask_cellAt hparent e.1).mpr ((ht.honoured e.1).mp hmask)).2
    rw [(Scan.entry_of_mem_search he).1] at hm
    cases hm
  · obtain ⟨i, hi⟩ := inode_of_entry (Scan.entry_of_mem_search he).2
    rw [hInodeI, Dinfo.hDptrI_of_le h0 le_rfl, hstart, hfirst]
    show (e.2.inode.map _).isSome
    rw [hi]
    rfl
  · obtain ⟨l, hl, hlk⟩ := hmember b k hk
    exact (hentry b l k hl hlk).1
  · obtain ⟨m, hm, hmk⟩ := hmember b k hk
    obtain ⟨n, hn, -⟩ := hmember c l hl
    exact (hentry b m k hm hmk).2 (Scan.isDir_of_mem_search hm hn hne)

theorem goto_goto (s : Sys ν) (caller : Nat) (c c' : Call ν) : (s.goto caller c).goto caller c' = s.goto caller c' := by
  rw [Sys.goto, Sys.goto, Sys.goto]
  dsimp only
  rw [Function.update_idem]

theorem goto_idle {s : Sys ν} {caller : Nat} (hidle : s.calls caller = .idle) : s.goto caller .idle = s := by
  rw [Sys.goto, ← hidle, Function.update_eq_self]

theorem step_next (gen : HiPtr → Nat) (s : Sys ν) (caller : Nat) (c : Call ν) :
    (s.goto caller c).step gen caller .next = (s.goto caller c).next gen caller c := by
  rw [Sys.step, goto_self]

/-- A call of `fillvdir` that nobody comes between numbers its entry as `fillIno` does. -/
theorem fill_alone (gen : HiPtr → Nat) {s : Sys ν} {caller : Nat} (hidle : s.calls caller = .idle) (e : Entry ν) :
    (∀ ino w', fillIno s.sb s.w e.bindex e.h.ino = (.ok ino, w') →
      ((s.step gen caller (.fill e)).step gen caller .next).step gen caller .next =
        { s with w := w' }.goto caller (.written e ino)) ∧
    (∀ err w', fillIno s.sb s.w e.bindex e.h.ino = (.error err, w') →
      ((s.step gen caller (.fill e)).step gen caller .next).step gen caller .next = { s with w := w' }) := by
  have hend : ∀ w : World, ({ s with w } : Sys ν).goto caller .idle = { s with w } := fun w => goto_idle hidle
  have hstay : ∀ w : World, ({ s with w } : Sys ν).step gen caller .next = { s with w } := fun w => by
    rw [← hend w, step_next]
    rfl
  -- behind the number
  have hwrite : ∀ (w : World) (old new : Nat),
      (∀ w', xinoWrite s.sb w e.bindex e.h.ino new = (.ok (), w') →
        (({ s with w } : Sys ν).goto caller (.numbered e old new)).step gen caller .next =
          ({ s with w := w' } : Sys ν).goto caller (.written e new)) ∧
      (∀ err w', xinoWrite s.sb w e.bindex e.h.ino new = (.error err, w') →
        (({ s with w } : Sys ν).goto caller (.numbered e old new)).step gen caller .next = { s with w := w' }) := by
    intro w old new
    refine ⟨fun w' hw => ?_, fun err w' hw => ?_⟩
    · have hw : xinoWrite (({ s with w } : Sys ν).goto caller (.numbered e old new)).sb
          (({ s with w } : Sys ν).goto caller (.numbered e old new)).w e.bindex e.h.ino new = (.ok (), w') := hw
      rw [step_next, Sys.next, hw]
      exact goto_goto { s with w := w' } caller _ _
    · have hw : xinoWrite (({ s with w } : Sys ν).goto caller (.numbered e old new)).sb
          (({ s with w } : Sys ν).goto caller (.numbered e old new)).w e.bindex e.h.ino new = (.error err, w') := hw
      rw [step_next, Sys.next, hw]
      exact (goto_goto { s with w := w' } caller _ _).trans (hend w')
  rw [fillIno, Sys.step]
  cases hr : xinoRead s.sb s.w e.bindex e.h.ino with
  | mk r w₁ =>
    cases r with
    | error err =>
      dsimp only
      rw [hstay, hstay]
      refine ⟨(fun ino w' h => by cases h), fun err' w' h => ?_⟩
      cases h
      rfl
    | ok ino =>
      -- the number in hand and the world behind it
      have hnew : (({ s with w := w₁ } : Sys ν).goto caller (.filling e ino)).step gen caller .next =
          ({ s with w := (if ino = 0 then xinoNewIno w₁ else (ino, w₁)).2 } : Sys ν).goto caller
            (.numbered e ino (if ino = 0 then xinoNewIno w₁ else (ino, w₁)).1) := by
        rw [step_next, Sys.next]
        by_cases hz : ino = 0
        · rw [if_pos hz, if_pos hz, hz]
          exact goto_goto { s with w := (xinoNewIno w₁).2 } caller _ _
        · rw [if_neg hz, if_neg hz]
          exact goto_goto { s with w := w₁ } caller _ _
      dsimp only
      rw [hnew]
      generalize (if ino = 0 then xinoNewIno w₁ else (ino, w₁)) = p
      obtain ⟨new, w₂⟩ := p
      obtain ⟨hok, herr⟩ := hwrite w₂ ino new
      dsimp only
      cases hw : xinoWrite s.sb w₂ e.bindex e.h.ino new with
      | mk r w₃ =>
        cases r with
        | error err =>
          refine ⟨(fun ino w' h => by cases h), fun err' w' h => ?_⟩
          cases h
          exact herr err w₃ hw
        | ok u =>
          refine ⟨fun ino w' h => ?_, (fun err' w' h => by cases h)⟩
          cases h
          exact hok w₃ hw

end Files

-- ---------------------------------------------------------------------------
-- A merged directory
-- ---------------------------------------------------------------------------

/-- The inode that `iget_locked` finds next. -/
def Sys.finds {ν : Type} (s : Sys ν) (caller : Nat) : Option Inode :=
  match s.calls caller with
  | .igets _ _ ino => s.icache ino
  | _ => none

end Aufs.ListedIno
