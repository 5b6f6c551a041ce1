-- SUMMARY: Requests of users, from the walk down the path on: every one that succeeds is a step of one plain tree of files.
import Aufs.RemovedView

/-!
# Requests

A request names a directory and an entry of it. The VFS looks the path up name by name,
checks the entry, and calls the operation of aufs. Users have one tree of files in mind: a
request that succeeds is a step of that tree, and one that fails leaves it as it is, unless
the steps that take things back fail as well. So the branches, the whiteouts, the opaque marks
and the directories that are copied up are not seen in any sequence of requests.
-/

namespace Aufs

open Prog Op Overlay

-- ---------------------------------------------------------------------------
-- The tree of users
-- ---------------------------------------------------------------------------

/-- What is done to an entry. -/
inductive Action where
  | mknod (mode : FType) (dev : Nat)
  | symlink (symname : Nat)
  | create (mode : Nat)
  | mkdir (mode : Nat)
  | unlink
  | rmdir
  deriving DecidableEq, Repr

/-- A request. `held` says whether somebody else holds the dentry of the entry. -/
structure Request where
  dir : Path
  name : Name
  action : Action
  held : Bool
  deriving DecidableEq, Repr

/-- The path of the entry. -/
def Request.path (r : Request) : Path := r.dir ++ [r.name]

/-- What the VFS checks before it calls the operation, by the type of the file that is there: `may_create` and
`may_delete` without the permissions. A directory is not made by `mknod`. -/
def Action.check : Action → Option FType → Except Errno Unit
  | .unlink, none => .error .ENOENT
  | .unlink, some .dir => .error .EISDIR
  | .unlink, some _ => .ok ()
  | .rmdir, none => .error .ENOENT
  | .rmdir, some .dir => .ok ()
  | .rmdir, some _ => .error .ENOTDIR
  | .mknod .dir _, _ => .error .EPERM
  | _, none => .ok ()
  | _, some _ => .error .EEXIST

/-- A tree of files, as users see it. -/
abbrev View : Type := Path → Option Seen

/-- The tree with an entry that was not there. -/
def View.put (t : View) (p : Path) (e : Seen) : View := Function.update t p (some e)

/-- The tree without an entry and what is below. -/
def View.cut (t : View) (p : Path) : View := fun x => if p <+: x then none else t x

/-- What the action makes of the tree. -/
def Action.apply : Action → Path → View → View
  | .mknod mode dev, p, t => t.put p ⟨mode, dev⟩
  | .symlink symname, p, t => t.put p ⟨.lnk, symname⟩
  | .create mode, p, t => t.put p ⟨.reg, mode⟩
  | .mkdir mode, p, t => t.put p ⟨.dir, mode⟩
  | .unlink, p, t => t.cut p
  | .rmdir, p, t => t.cut p

/-- The type of a file in the tree. -/
def View.mode (t : View) (p : Path) : Option FType := (t p).map Seen.mode

/-- A request to the tree, if it is one that the tree admits. -/
def View.step (t : View) (r : Request) : Option View :=
  if t.mode r.dir = some .dir ∧ r.action.check (t.mode r.path) = .ok () then some (r.action.apply r.path t) else none

-- ---------------------------------------------------------------------------
-- Requests to the mount
-- ---------------------------------------------------------------------------

/-- The walk of the VFS from `p` on: every name is looked up, and it is a directory. -/
def pathWalk (sb : SuperBlock) (p : Path) : List Name → Op Unit
  | [] => pure ()
  | n :: rest => do
    aufsLookup sb (p ++ [n])
    let m ← Prog.state
    match m.dInode (p ++ [n]) with
    | none => .fail .ENOENT
    | some i => if i.isDir then pathWalk sb (p ++ [n]) rest else .fail .ENOTDIR

/-- The operation of aufs. -/
def Action.call (hash : Name → Nat) (sb : SuperBlock) (alone : Bool) : Action → Path → Op Unit
  | .mknod mode dev, p => aufsMknod sb p mode dev
  | .symlink symname, p => aufsSymlink sb p symname
  | .create mode, p => aufsCreate sb p mode
  | .mkdir mode, p => aufsMkdir sb p mode
  | .unlink, p => aufsUnlink sb alone p
  | .rmdir, p => aufsRmdir hash sb alone p

/-- A request from the root of the mount on. -/
def Request.run (hash : Name → Nat) (sb : SuperBlock) (r : Request) : Op Unit := do
  pathWalk sb [] r.dir
  aufsLookup sb r.path
  let m ← Prog.state
  .ofExcept (r.action.check ((m.dInode r.path).map HInode.mode))
  r.action.call hash sb (!r.held) r.path

/-- The mount with no dentry in memory but that of the root, and no step that has failed. -/
def Mount.dropped (sb : SuperBlock) (m : Mount) : Mount :=
  { m with
    di := fun q => if q = [] then rootDinfo sb m.w else .alloc
    hi := fun q b => if q = [] then ((rootDinfo sb m.w).hdentry b).bind HDentry.inode else none
    fails := 0 }

variable {m m' m₀ : Mount} {sb : SuperBlock} {dir : Path} {name : Name} {hash : Name → Nat} {r : Request}

-- ---------------------------------------------------------------------------
-- The walk
-- ---------------------------------------------------------------------------

theorem Mount.freshTo_dropped (sb : SuperBlock) (m : Mount) : (m.dropped sb).FreshTo sb [] := by
  refine ⟨fun q hq => ?_, fun q hq b => ?_⟩
  · rw [List.prefix_nil.mp hq]
    rfl
  · rw [List.prefix_nil.mp hq]
    rfl

/-- The root is a directory, if there is a branch. -/
theorem seenDir_root (sb : SuperBlock) (w : World) (h : sb.branches ≠ []) : SeenDir sb w [] := by
  have hlen := List.length_pos_iff.mpr h
  have h0 : ((freshDi sb w []).hdentry 0).isSome := by
    rw [freshDi_nil, rootDinfo, Option.isSome_map]
    refine SuperBlock.stobr_isSome.mpr ⟨le_rfl, ?_⟩
    rw [SuperBlock.sbend]
    omega
  obtain ⟨x, hx⟩ := Option.isSome_iff_exists.mp h0
  refine seenDir_iff.mpr ⟨0, x, hx, ?_⟩
  obtain ⟨br, i, -, hi, rfl⟩ := freshDi_slot hx
  obtain ⟨j, hj, hmode⟩ := Ents.isDir_iff.mp (w.fs br.root).wf.closed.1
  obtain rfl := Option.some.inj (hi.symm.trans hj)
  exact HInode.isDir_iff.mpr hmode

/-- The walk leaves fresh dentries of directories, and changes no file. -/
theorem wp_pathWalk {p : Path} {rest : List Name} (hf : m.FreshTo sb p) (hdir : SeenDir sb m.w p) :
    wp (pathWalk sb p rest)
      (fun _ m' => m'.w.fs = m.w.fs ∧ m'.FreshTo sb (p ++ rest) ∧ SeenDir sb m'.w (p ++ rest) ∧ m'.fails = m.fails)
      (fun _ m' => m'.w.fs = m.w.fs) m := by
  induction rest generalizing p m with
  | nil =>
    rw [List.append_nil]
    exact wp_pure.mpr ⟨rfl, hf, hdir, rfl⟩
  | cons n rest ih =>
    refine wp_bind.mpr ((wp_aufsLookup (hf.dirs hdir).self.nonneg).mono (fun _ m₀ hl => ?_) fun _ _ h => h.1)
    refine wp_bind.mpr (wp_state.mpr ?_)
    have hinode := hl.dInode hf hdir
    cases hi : m₀.dInode (p ++ [n]) with
    | none => exact wp_fail.mpr hl.fs
    | some i =>
      rw [hi, Option.map_some] at hinode
      refine wp_ite.mpr ⟨fun hid => ?_, fun _ => wp_fail.mpr hl.fs⟩
      have hdir₀ : SeenDir sb m₀.w (p ++ [n]) :=
        ⟨⟨i.mode, i.data⟩, by rw [hl.seen]; exact hinode.symm, HInode.isDir_iff.mp hid⟩
      refine (ih (hl.fresh hf hdir (by rw [← hinode]; rfl)) hdir₀).mono (fun _ m' h => ?_) fun _ _ h => h.trans hl.fs
      rw [List.append_assoc, List.singleton_append] at h
      exact ⟨h.1.trans hl.fs, h.2.1, h.2.2.1, h.2.2.2.trans hl.fails⟩

-- ---------------------------------------------------------------------------
-- The operations
-- ---------------------------------------------------------------------------

/-- What is left when an operation fails: users see the same, or more than one step has failed. -/
def Mount.SeesSame (sb : SuperBlock) (m m' : Mount) : Prop :=
  seen sb m'.w = seen sb m.w ∨ m.fails + 2 ≤ m'.fails

/-- An operation that adds an entry where nothing is seen puts it into the tree. -/
theorem Mount.LookedNow.wp_put {op : Op Unit} {opq : Bool → Bool} {mode : FType} {data : Nat}
    (hroots : sb.DistinctRoots) (hl : Mount.LookedNow sb dir name m m₀) (hf : m.FreshTo sb dir) (hdir : SeenDir sb m.w dir)
    (hnone : Aufs.seen sb m.w (dir ++ [name]) = none) (hopq : mode = .dir → opq true = true)
    (hop : m₀.EntryKnown sb dir name → m₀.Absent sb dir name → hasWhPfx name = false →
      wp op (fun _ m' => Mount.Added sb m₀ dir name opq mode data m') (fun _ m' => Mount.NotDone sb m₀ dir name m') m₀) :
    wp op (fun _ m' => Aufs.seen sb m'.w = View.put (Aufs.seen sb m.w) (dir ++ [name]) ⟨mode, data⟩)
      (fun _ m' => m.SeesSame sb m') m₀ := by
  have hname := hl.name_ok
  have hf₀ := hl.freshTo hf
  have hdir₀ := hl.seenDir hdir
  rw [← hl.seen] at hnone
  have hnil : (m₀.found sb dir name).slots = [] := by
    rw [hf₀.found]
    exact found_of_seen_none hname hnone
  have habsent := hl.look.absent (hf₀.dirs hdir₀) hnil
  refine (hop (hl.known hf hdir) habsent hname).mono (fun _ m' hadded => ?_) fun _ m' hno => ?_
  · rw [hadded.seen hroots hname hf₀ hdir₀ hopq hnone, hl.seen]
    rfl
  · refine (hno.seen hroots (hf₀.trueTo hdir₀)).imp (fun h => h.trans hl.seen) fun h => ?_
    rw [← hl.fails]
    exact h

/-- An operation that removes an entry cuts it off the tree. -/
theorem Mount.LookedNow.wp_cut {op : Op Unit} (hroots : sb.DistinctRoots) (hl : Mount.LookedNow sb dir name m m₀)
    (hf : m.FreshTo sb dir) (hdir : SeenDir sb m.w dir) (hsome : (Aufs.seen sb m.w (dir ++ [name])).isSome)
    (hbwh : (freshDi sb m.w (dir ++ [name])).bwh = -1)
    (hop : ∀ s, m₀.Target sb dir name s → hasWhPfx name = false →
      wp op (fun _ m' => Mount.Removed sb m₀ dir name m') (fun _ m' => Mount.NotDone sb m₀ dir name m') m₀) :
    wp op (fun _ m' => Aufs.seen sb m'.w = View.cut (Aufs.seen sb m.w) (dir ++ [name]))
      (fun _ m' => m.SeesSame sb m') m₀ := by
  have hname := hl.name_ok
  have hf₀ := hl.freshTo hf
  have hdir₀ := hl.seenDir hdir
  obtain ⟨s, ht⟩ := (hl.fresh hf hdir hsome).target hname (by rw [hl.seen]; exact hsome)
    (by rw [freshDi_congr (World.node_congr hl.fs)]; exact hbwh)
  refine (hop s ht hname).mono (fun _ m' hr => ?_) fun _ m' hno => ?_
  · rw [hr.seen hroots hname hf₀ hdir₀, hl.seen]
    rfl
  · refine (hno.seen hroots (hf₀.trueTo hdir₀)).imp (fun h => h.trans hl.seen) fun h => ?_
    rw [← hl.fails]
    exact h

/-- An action that adds an entry is let through where there is none. -/
theorem Action.check_add {a : Action} {o : Option FType} (hu : a ≠ .unlink) (hr : a ≠ .rmdir) (h : a.check o = .ok ()) :
    o = none ∧ ∀ dev, a ≠ .mknod .dir dev := by
  cases a with
  | unlink => exact absurd rfl hu
  | rmdir => exact absurd rfl hr
  | mknod mode dev =>
    revert h
    cases mode <;> cases o <;> simp [check]
  | symlink s =>
    revert h
    cases o <;> simp [check]
  | create mode =>
    revert h
    cases o <;> simp [check]
  | mkdir mode =>
    revert h
    cases o <;> simp [check]

/-- A file that is no directory. -/
theorem wp_addSimple_put (hroots : sb.DistinctRoots) (hl : Mount.LookedNow sb dir name m m₀) (hf : m.FreshTo sb dir)
    (hdir : SeenDir sb m.w dir) (hnone : seen sb m.w (dir ++ [name]) = none) (mode : FType) (data : Nat) (hmode : mode ≠ .dir) :
    wp (addSimple sb mode data (dir ++ [name]))
      (fun _ m' => seen sb m'.w = View.put (seen sb m.w) (dir ++ [name]) ⟨mode, data⟩) (fun _ m' => m.SeesSame sb m') m₀ :=
  hl.wp_put hroots hf hdir hnone (fun he => absurd he hmode) fun hk ha hn => wp_addSimple hk ha hn mode data

/-- Whatever is let through does to the tree what it should. -/
theorem wp_action {a : Action} {alone : Bool} (hroots : sb.DistinctRoots) (hwr : sb.HonoursWh)
    (hl : Mount.LookedNow sb dir name m m₀) (hf : m.FreshTo sb dir) (hdir : SeenDir sb m.w dir)
    (hcheck : a.check (View.mode (seen sb m.w) (dir ++ [name])) = .ok ())
    (hmark : a = .rmdir → (freshDi sb m.w (dir ++ [name])).bwh = -1) :
    wp (a.call hash sb alone (dir ++ [name]))
      (fun _ m' => seen sb m'.w = a.apply (dir ++ [name]) (seen sb m.w)) (fun _ m' => m.SeesSame sb m') m₀ := by
  have hput : a ≠ .unlink → a ≠ .rmdir → seen sb m.w (dir ++ [name]) = none := fun hu hr =>
    Option.map_eq_none_iff.mp (Action.check_add hu hr hcheck).1
  cases a with
  | mknod mode dev =>
    refine wp_addSimple_put hroots hl hf hdir (hput (by simp) (by simp)) mode dev fun he => ?_
    exact (Action.check_add (by simp) (by simp) hcheck).2 dev (by rw [he])
  | symlink s => exact wp_addSimple_put hroots hl hf hdir (hput (by simp) (by simp)) .lnk s (by simp)
  | create mode => exact wp_addSimple_put hroots hl hf hdir (hput (by simp) (by simp)) .reg mode (by simp)
  | mkdir mode =>
    exact hl.wp_put hroots hf hdir (hput (by simp) (by simp)) (fun _ => rfl) fun hk ha hn => wp_aufsMkdir hk ha hn mode
  | unlink =>
    cases hs : seen sb m.w (dir ++ [name]) with
    | none =>
      rw [View.mode, hs] at hcheck
      cases hcheck
    | some e =>
      have he : e.mode ≠ .dir := fun he => by
        rw [View.mode, hs, Option.map_some, he] at hcheck
        cases hcheck
      refine hl.wp_cut hroots hf hdir (by rw [hs]; rfl) (bwh_of_file hl.name_ok hs he) fun s ht hn => ?_
      exact wp_aufsUnlink hroots hwr hn ht alone
  | rmdir =>
    cases hs : seen sb m.w (dir ++ [name]) with
    | none =>
      rw [View.mode, hs] at hcheck
      cases hcheck
    | some e =>
      have he : e.mode = .dir := by
        rw [View.mode, hs, Option.map_some] at hcheck
        by_contra hne
        rw [Action.check] at hcheck
        · cases hcheck
        · exact hne
      have hsome : (seen sb m.w (dir ++ [name])).isSome := by
        rw [hs]
        rfl
      have hself := (hl.fresh hf hdir hsome).di _ (List.prefix_refl _)
      have hisdir : (m₀.di (dir ++ [name])).IsDir := by
        rw [hself]
        refine SeenDir.isDirDi ⟨e, ?_, he⟩
        rw [hl.seen, hs]
      refine hl.wp_cut hroots hf hdir hsome (hmark rfl) fun s ht hn => ?_
      exact (wp_aufsRmdir hroots hwr hn ht hisdir alone).mono (fun _ _ h => h.1) fun _ _ h => h

-- ---------------------------------------------------------------------------
-- One request
-- ---------------------------------------------------------------------------

/-- A request that succeeds is a step of the tree, and one that fails leaves it as it is, unless more than one step
has failed. -/
theorem wp_request (hroots : sb.DistinctRoots) (hwr : sb.HonoursWh) (hbr : sb.branches ≠ [])
    (hmark : r.action = .rmdir → (freshDi sb m.w r.path).bwh = -1) :
    wp (r.run hash sb) (fun _ m' => View.step (seen sb m.w) r = some (seen sb m'.w))
      (fun _ m' => (m.dropped sb).SeesSame sb m') (m.dropped sb) := by
  have hsame : ∀ {m' : Mount}, m'.w.fs = m.w.fs → (m.dropped sb).SeesSame sb m' := fun hfs =>
    .inl (seen_congr (World.node_congr hfs))
  refine wp_bind.mpr ((wp_pathWalk (m.freshTo_dropped sb) (seenDir_root sb m.w hbr)).mono ?_ fun _ _ h => hsame h)
  rintro _ m₁ ⟨hfs, hf, hdir, hfails⟩
  rw [List.nil_append] at hf hdir
  refine wp_bind.mpr ((wp_aufsLookup (hf.dirs hdir).self.nonneg).mono (fun _ m₀ hl => ?_) fun _ _ h => hsame (h.1.trans hfs))
  have hseen : seen sb m₁.w = seen sb m.w := seen_congr (World.node_congr hfs)
  refine wp_bind.mpr (wp_state.mpr (wp_bind.mpr (wp_ofExcept.mpr ?_)))
  have hmode : (m₀.dInode (r.dir ++ [r.name])).map HInode.mode = View.mode (seen sb m₁.w) (r.dir ++ [r.name]) := by
    rw [View.mode, ← hl.dInode hf hdir, Option.map_map]
    rfl
  have hpath : r.path = r.dir ++ [r.name] := rfl
  rw [hpath, hmode]
  cases hcheck : r.action.check (View.mode (seen sb m₁.w) (r.dir ++ [r.name])) with
  | error e => exact hsame (hl.fs.trans hfs)
  | ok u =>
    have hmark₁ : r.action = .rmdir → (freshDi sb m₁.w (r.dir ++ [r.name])).bwh = -1 := fun he => by
      rw [freshDi_congr (World.node_congr hfs)]
      exact hmark he
    refine (wp_action hroots hwr hl hf hdir hcheck hmark₁).mono (fun _ m' h => ?_) fun _ m' h => ?_
    · obtain ⟨e, he, hed⟩ := hdir
      have hdirmode : View.mode (seen sb m.w) r.dir = some .dir := by
        rw [View.mode, ← hseen, he, Option.map_some, hed]
      rw [hseen] at hcheck h
      rw [View.step, if_pos ⟨hdirmode, hcheck⟩, h]
      rfl
    · refine h.imp (fun h => h.trans hseen) fun h => ?_
      rw [← hfails]
      exact h

-- ---------------------------------------------------------------------------
-- Any number of requests
-- ---------------------------------------------------------------------------

/-- A request, with no dentry in memory before. -/
def Request.serve (hash : Name → Nat) (sb : SuperBlock) (m : Mount) (r : Request) : Except Errno Unit × Mount :=
  r.run hash sb (m.dropped sb)

/-- The mount after a list of requests. -/
def serveAll (hash : Name → Nat) (sb : SuperBlock) (m : Mount) : List Request → Mount
  | [] => m
  | r :: rs => serveAll hash sb (r.serve hash sb m).2 rs

/-- The requests of a list that succeed. -/
def served (hash : Name → Nat) (sb : SuperBlock) (m : Mount) : List Request → List Request
  | [] => []
  | r :: rs =>
    if (r.serve hash sb m).1 = .ok () then r :: served hash sb (r.serve hash sb m).2 rs
    else served hash sb (r.serve hash sb m).2 rs

/-- A request in which at most one step fails, or that succeeds, and which removes no directory whose lookup has ended
at a whiteout. -/
structure Request.Calm (hash : Name → Nat) (sb : SuperBlock) (m : Mount) (r : Request) : Prop where
  fails : (r.serve hash sb m).1 ≠ .ok () → (r.serve hash sb m).2.fails < 2
  mark : r.action = .rmdir → (freshDi sb m.w r.path).bwh = -1

/-- Every request of a list is calm when its turn comes. -/
def CalmAll (hash : Name → Nat) (sb : SuperBlock) (m : Mount) : List Request → Prop
  | [] => True
  | r :: rs => r.Calm hash sb m ∧ CalmAll hash sb (r.serve hash sb m).2 rs

/-- An operation on the dropped dentries in which at most one step fails, or that succeeds: it is a step of the tree, or
the tree is the same. -/
theorem step_or_same {op : Op Unit} {t : Option View} (hwp : wp op (fun _ m' => t = some (seen sb m'.w))
    (fun _ m' => (m.dropped sb).SeesSame sb m') (m.dropped sb))
    (hfails : (op (m.dropped sb)).1 ≠ .ok () → (op (m.dropped sb)).2.fails < 2) :
    if (op (m.dropped sb)).1 = .ok () then t = some (seen sb (op (m.dropped sb)).2.w)
    else seen sb (op (m.dropped sb)).2.w = seen sb m.w := by
  rcases hrun : op (m.dropped sb) with ⟨e | ⟨⟩, m'⟩
  case error =>
    rw [hrun] at hfails
    rw [if_neg (by simp)]
    have hlt : m'.fails < 2 := hfails (by simp)
    refine (hwp.error hrun).resolve_right fun hle => ?_
    have hle : 2 ≤ m'.fails := hle
    omega
  case ok =>
    rw [if_pos rfl]
    exact hwp.ok hrun

/-- One request: it succeeds and is a step of the tree, or the tree is the same. -/
theorem Request.Calm.step (hroots : sb.DistinctRoots) (hwr : sb.HonoursWh) (hbr : sb.branches ≠ [])
    (hc : r.Calm hash sb m) :
    if (r.serve hash sb m).1 = .ok () then View.step (seen sb m.w) r = some (seen sb (r.serve hash sb m).2.w)
    else seen sb (r.serve hash sb m).2.w = seen sb m.w :=
  step_or_same (wp_request hroots hwr hbr hc.mark) hc.fails

/-- Any number of requests: those that succeed are steps of one tree, in their order, and users see nothing else. -/
theorem serveAll_refines (hroots : sb.DistinctRoots) (hwr : sb.HonoursWh) (hbr : sb.branches ≠ []) (rs : List Request)
    (hcalm : CalmAll hash sb m rs) :
    (served hash sb m rs).foldlM View.step (seen sb m.w) = some (seen sb (serveAll hash sb m rs).w) := by
  induction rs generalizing m with
  | nil => rfl
  | cons r rs ih =>
    obtain ⟨hc, hrest⟩ := hcalm
    have hstep := hc.step hroots hwr hbr
    have hrest := ih hrest
    rw [served, serveAll]
    split
    · rename_i hok
      rw [if_pos hok] at hstep
      rw [List.foldlM_cons, hstep]
      exact hrest
    · rename_i hfail
      rw [if_neg hfail] at hstep
      rw [← hstep]
      exact hrest

def smallMount : Mount := .cold smallSb smallWorld

/-- The file `a` is replaced by a directory with the file `c`, and the directory `d` is emptied and removed. -/
def smallRequests : List Request :=
  [⟨[], [97], .unlink, false⟩, ⟨[], [97], .mkdir 7, false⟩, ⟨[[97]], [99], .create 6, false⟩,
    ⟨[[100]], [98], .unlink, false⟩, ⟨[], [100], .rmdir, false⟩]

theorem smallRequests_calm : CalmAll (fun _ => 0) smallSb smallMount smallRequests := by
  refine ⟨⟨fun _ => ?_, ?_⟩, ⟨fun _ => ?_, ?_⟩, ⟨fun _ => ?_, ?_⟩, ⟨fun _ => ?_, ?_⟩, ⟨fun _ => ?_, ?_⟩, trivial⟩ <;>
    decide +kernel

theorem serveAll_refines_small :
    (served (fun _ => 0) smallSb smallMount smallRequests).foldlM View.step (seen smallSb smallMount.w) =
        some (seen smallSb (serveAll (fun _ => 0) smallSb smallMount smallRequests).w) ∧
      served (fun _ => 0) smallSb smallMount smallRequests = smallRequests :=
  ⟨serveAll_refines smallSb_roots (SuperBlock.honoursWh_of_all (by decide)) (by decide) smallRequests smallRequests_calm,
    by decide +kernel⟩

end Aufs
