-- SUMMARY: Requests of users with renames of files among them: every one that succeeds is a step of one plain tree of files.
import Aufs.Requests
import Aufs.RenamedView

/-!
# Requests and renames

A rename names two entries. The VFS walks to both directories, looks up the old name and
then the new one, and calls the operation of aufs. In any sequence of requests and renames
of files the ones that succeed are steps of one tree, in their order.
-/

namespace Aufs

open Prog Op Overlay

variable {m m' m₀ : Mount} {sb : SuperBlock} {dir q : Path} {name : Name} {hash : Name → Nat}

-- ---------------------------------------------------------------------------
-- Renames in the tree
-- ---------------------------------------------------------------------------

/-- The rename of one entry. -/
structure RenameRequest where
  sdir : Path
  sname : Name
  ddir : Path
  dname : Name
  deriving DecidableEq, Repr

namespace RenameRequest

variable (r : RenameRequest)

def src : Path := r.sdir ++ [r.sname]

def dst : Path := r.ddir ++ [r.dname]

end RenameRequest

/-- What the VFS checks before a rename, by the types of the two files: the old one is there, and what is replaced is a
directory if and only if the old one is. -/
def renameCheck : Option FType → Option FType → Except Errno Unit
  | none, _ => .error .ENOENT
  | some _, none => .ok ()
  | some .dir, some .dir => .ok ()
  | some .dir, some _ => .error .ENOTDIR
  | some _, some .dir => .error .EISDIR
  | some _, some _ => .ok ()

/-- The tree with a file under another name. -/
def View.move (t : View) (p q : Path) : View := Function.update (Function.update t p none) q (t p)

/-- A rename of the tree, if it is one that the tree admits. A file that is renamed to its own name stays. -/
def View.rename (t : View) (r : RenameRequest) : Option View :=
  if t.mode r.sdir = some .dir ∧ t.mode r.ddir = some .dir ∧ renameCheck (t.mode r.src) (t.mode r.dst) = .ok () then
    some (if r.src = r.dst then t else t.move r.src r.dst)
  else none

/-- A file is not renamed to the name of a directory. -/
theorem renameCheck_file {o o' : Option FType} (h : renameCheck o o' = .ok ()) (ho : o ≠ some .dir) :
    o.isSome ∧ o' ≠ some .dir := by
  cases o with
  | none => cases h
  | some t =>
    refine ⟨rfl, ?_⟩
    rintro rfl
    cases t with
    | dir => exact ho rfl
    | _ => cases h

-- ---------------------------------------------------------------------------
-- Renames in the mount
-- ---------------------------------------------------------------------------

/-- A rename from the root of the mount on. Two names of one dentry have one inode, and so nothing is done. -/
def RenameRequest.run (hash : Name → Nat) (sb : SuperBlock) (r : RenameRequest) : Op Unit := do
  pathWalk sb [] r.sdir
  pathWalk sb [] r.ddir
  aufsLookup sb r.src
  let m ← Prog.state
  if (m.dInode r.src).isNone then .fail .ENOENT
  else do
    aufsLookup sb r.dst
    let m ← Prog.state
    .ofExcept (renameCheck ((m.dInode r.src).map HInode.mode) ((m.dInode r.dst).map HInode.mode))
    if r.src = r.dst then pure () else aufsRename r.src r.dst sb hash

/-- A lookup that finds something leaves fresh dentries fresh, and any lookup those of other paths. -/
theorem Mount.LookedNow.freshTo_other (hl : Mount.LookedNow sb dir name m m₀) (hf : m.FreshTo sb dir)
    (hdir : SeenDir sb m.w dir) (hsome : (Aufs.seen sb m.w (dir ++ [name])).isSome) (hq : m.FreshTo sb q) :
    m₀.FreshTo sb q := by
  have hself := hl.fresh hf hdir hsome
  refine ⟨fun x hx => ?_, fun x hx c => ?_⟩
  · by_cases hne : x = dir ++ [name]
    case pos => exact hself.di x (hne ▸ List.prefix_refl _)
    case neg => rw [hl.off.di x hne, hq.di x hx, freshDi_congr (World.node_congr hl.fs)]
  · by_cases hne : x = dir ++ [name]
    case pos => exact hself.hi x (hne ▸ List.prefix_refl _) c
    case neg => rw [hl.off.di x hne, hl.off.hi x hne, hq.hi x hx]

/-- A walk leaves the fresh dentries of other paths fresh. -/
theorem wp_pathWalk_other {p : Path} {rest : List Name} (hf : m.FreshTo sb p) (hdir : SeenDir sb m.w p)
    (hq : m.FreshTo sb q) : wp (pathWalk sb p rest) (fun _ m' => m'.FreshTo sb q) (fun _ _ => True) m := by
  induction rest generalizing p m with
  | nil => exact wp_pure.mpr hq
  | cons n rest ih =>
    refine wp_bind.mpr ((wp_aufsLookup (hf.dirs hdir).self.nonneg).mono (fun _ m₀ hl => ?_) fun _ _ _ => trivial)
    refine wp_bind.mpr (wp_state.mpr ?_)
    have hinode := hl.dInode hf hdir
    cases hi : m₀.dInode (p ++ [n]) with
    | none => exact wp_fail.mpr trivial
    | some i =>
      rw [hi, Option.map_some] at hinode
      refine wp_ite.mpr ⟨fun hid => ?_, fun _ => wp_fail.mpr trivial⟩
      have hsome : (Aufs.seen sb m.w (p ++ [n])).isSome := by
        rw [← hinode]
        rfl
      have hdir₀ : SeenDir sb m₀.w (p ++ [n]) :=
        ⟨⟨i.mode, i.data⟩, by rw [hl.seen]; exact hinode.symm, HInode.isDir_iff.mp hid⟩
      exact ih (hl.fresh hf hdir hsome) hdir₀ (hl.freshTo_other hf hdir hsome hq)

-- ---------------------------------------------------------------------------
-- One rename
-- ---------------------------------------------------------------------------

theorem SeenDir.mode {w : World} (h : SeenDir sb w q) : View.mode (seen sb w) q = some .dir := by
  obtain ⟨e, he, hmode⟩ := h
  rw [View.mode, he, Option.map_some, hmode]

/-- The types of both files after the lookups. -/
theorem Mount.LookedNow.modes {sdir : Path} {sname : Name} {m₁ : Mount} (hl : Mount.LookedNow sb sdir sname m m₀)
    (hf : m.FreshTo sb sdir) (hdir : SeenDir sb m.w sdir) (hl₁ : Mount.LookedNow sb dir name m₀ m₁)
    (hf₁ : m₀.FreshTo sb dir) (hdir₁ : SeenDir sb m₀.w dir) :
    (m₁.dInode (sdir ++ [sname])).map HInode.mode = View.mode (Aufs.seen sb m.w) (sdir ++ [sname]) ∧
      (m₁.dInode (dir ++ [name])).map HInode.mode = View.mode (Aufs.seen sb m.w) (dir ++ [name]) := by
  have hdst : (m₁.dInode (dir ++ [name])).map HInode.mode = View.mode (Aufs.seen sb m.w) (dir ++ [name]) := by
    rw [View.mode, ← hl.seen, ← hl₁.dInode hf₁ hdir₁, Option.map_map]
    rfl
  refine ⟨?_, hdst⟩
  by_cases heq : sdir ++ [sname] = dir ++ [name]
  case pos => rw [heq, hdst]
  case neg =>
    have hsame : m₁.dInode (sdir ++ [sname]) = m₀.dInode (sdir ++ [sname]) := by
      rw [Mount.dInode, Mount.dInode, hl₁.off.di _ heq, hl₁.off.hi _ heq]
    rw [hsame, View.mode, ← hl.dInode hf hdir, Option.map_map]
    rfl

/-- A rename of a file that succeeds is a step of the tree, and one that fails leaves it as it is, unless more than one
step has failed. -/
theorem wp_renameRequest {r : RenameRequest} (hroots : sb.DistinctRoots) (hwr : sb.HonoursWh) (hbr : sb.branches ≠ [])
    (hfile : View.mode (seen sb m.w) r.src ≠ some .dir) (hapart : r.src ≠ r.dst → Apart sb m.w r.src r.dst) :
    wp (r.run hash sb) (fun _ m' => View.rename (seen sb m.w) r = some (seen sb m'.w))
      (fun _ m' => (m.dropped sb).SeesSame sb m') (m.dropped sb) := by
  have hsame : ∀ {m' : Mount}, m'.w.fs = m.w.fs → (m.dropped sb).SeesSame sb m' := fun hfs =>
    .inl (seen_congr (World.node_congr hfs))
  -- the two directories
  refine wp_bind.mpr ((wp_pathWalk (m.freshTo_dropped sb) (seenDir_root sb m.w hbr)).mono ?_ fun _ _ h => hsame h)
  rintro _ m₁ ⟨hfs₁, hf₁, hdir₁, hfails₁⟩
  have hroot : m₁.FreshTo sb [] :=
    ⟨fun x hx => hf₁.di x (hx.trans List.nil_prefix), fun x hx => hf₁.hi x (hx.trans List.nil_prefix)⟩
  refine wp_bind.mpr (((wp_pathWalk hroot (hdir₁.within List.nil_prefix)).and
    (wp_pathWalk_other hroot (hdir₁.within List.nil_prefix) hf₁)).mono ?_ fun _ _ h => hsame (h.1.trans hfs₁))
  rintro _ m₂ ⟨⟨hfs₂, hf₂, hdir₂, hfails₂⟩, hsf⟩
  rw [List.nil_append] at hdir₁ hf₂ hdir₂ hsf
  have hfs₂ := hfs₂.trans hfs₁
  have hseen₁ : seen sb m₁.w = seen sb m.w := seen_congr (World.node_congr hfs₁)
  have hseen₂ : seen sb m₂.w = seen sb m.w := seen_congr (World.node_congr hfs₂)
  have hsdir : SeenDir sb m₂.w r.sdir := by
    rw [SeenDir, hseen₂, ← hseen₁]
    exact hdir₁
  -- the old name
  have hlook : wp (aufsLookup sb (r.sdir ++ [r.sname])) _ _ m₂ := wp_aufsLookup (hsf.dirs hsdir).self.nonneg
  refine wp_bind.mpr (hlook.mono (fun _ m₃ hl => ?_) fun _ _ h => hsame (h.1.trans hfs₂))
  have hfs₃ := hl.fs.trans hfs₂
  refine wp_bind.mpr (wp_state.mpr (wp_ite.mpr ⟨fun _ => wp_fail.mpr (hsame hfs₃), fun hinode => ?_⟩))
  obtain ⟨i, hi⟩ := Option.ne_none_iff_exists'.mp fun hnone => hinode (Option.isNone_iff_eq_none.mpr hnone)
  have hentry : seen sb m₂.w (r.sdir ++ [r.sname]) = some ⟨i.mode, i.data⟩ := by
    rw [← hl.dInode hsf hsdir]
    exact congrArg (Option.map _) hi
  have hsome : (seen sb m₂.w (r.sdir ++ [r.sname])).isSome := by
    rw [hentry]
    rfl
  have hsrc := hl.fresh hsf hsdir hsome
  have hf₃ := hl.freshTo_other hsf hsdir hsome hf₂
  have hdir₃ : SeenDir sb m₃.w r.ddir := by
    rw [SeenDir, hl.seen]
    exact hdir₂
  -- the new name
  have hlook : wp (aufsLookup sb (r.ddir ++ [r.dname])) _ _ m₃ := wp_aufsLookup (hf₃.dirs hdir₃).self.nonneg
  refine wp_bind.mpr (hlook.mono (fun _ m₄ hl₁ => ?_) fun _ _ h => hsame (h.1.trans hfs₃))
  obtain ⟨hmode, hmode'⟩ := hl.modes hsf hsdir hl₁ hf₃ hdir₃
  have hmode : (m₄.dInode r.src).map HInode.mode = View.mode (seen sb m.w) r.src := hseen₂ ▸ hmode
  have hmode' : (m₄.dInode r.dst).map HInode.mode = View.mode (seen sb m.w) r.dst := hseen₂ ▸ hmode'
  refine wp_bind.mpr (wp_state.mpr (wp_bind.mpr (wp_ofExcept.mpr ?_)))
  rw [hmode, hmode']
  cases hcheck : renameCheck (View.mode (seen sb m.w) r.src) (View.mode (seen sb m.w) r.dst) with
  | error => exact hsame (hl₁.fs.trans hfs₃)
  | ok u =>
    have hstep : View.rename (seen sb m.w) r =
        some (if r.src = r.dst then seen sb m.w else View.move (seen sb m.w) r.src r.dst) := by
      rw [View.rename, if_pos ⟨hseen₂ ▸ hsdir.mode, hseen₂ ▸ hdir₂.mode, hcheck⟩]
    rw [hstep]
    refine wp_ite.mpr ⟨fun heq => wp_pure.mpr ?_, fun hne => ?_⟩
    · rw [if_pos heq, seen_congr (World.node_congr (hl₁.fs.trans hfs₃))]
      rfl
    rw [if_neg hne]
    -- the rename
    let P : RenamePaths := ⟨r.sdir, r.sname, r.ddir, r.dname, hl.name_ok, hl₁.name_ok, hne⟩
    have hseen₃ : seen sb m₃.w = seen sb m.w := seen_congr (World.node_congr hfs₃)
    have hentry₃ : seen sb m₃.w P.src = some ⟨i.mode, i.data⟩ := by
      rw [hseen₃, ← hseen₂]
      exact hentry
    have hreg : i.mode ≠ .dir := fun hd => hfile (by
      rw [View.mode, ← hseen₃, show seen sb m₃.w r.src = _ from hentry₃, Option.map_some, hd])
    have hnoDir : NoDir sb m₃.w P.dst := fun e he hd => (renameCheck_file hcheck hfile).2 (by
      rw [View.mode, ← hseen₃, show seen sb m₃.w r.dst = _ from he, Option.map_some, hd])
    have hpaths : Apart sb m₃.w P.src P.dst := by
      rw [Apart, World.node_congr hfs₃]
      exact hapart hne
    have hok := Mount.LookedNow.renameOk hl₁ hsrc hentry₃ hreg hf₃ hdir₃ hnoDir hpaths
    have hrun : wp (aufsRename r.src r.dst sb hash) _ _ m₄ := wp_aufsRename (P := P) hroots hwr hok
    have hfails₄ : m₄.fails = (m.dropped sb).fails := by rw [hl₁.fails, hl.fails, hfails₂, hfails₁]
    have hseen₄ : seen sb m₄.w = seen sb m.w := hl₁.seen.trans hseen₃
    refine hrun.mono (fun _ m' hdone => ?_) fun _ m' hno => ?_
    · rw [SeenRenamed, hseen₄] at hdone
      rw [hdone, View.move, ← hseen₃, show seen sb m₃.w r.src = _ from hentry₃]
      rfl
    · refine hno.imp (fun h => h.trans hseen₄) fun h => ?_
      rw [← hfails₄]
      exact h

-- ---------------------------------------------------------------------------
-- Any number of requests and renames
-- ---------------------------------------------------------------------------

/-- A request for one entry, or a rename. -/
inductive Command where
  | entry (r : Request)
  | rename (r : RenameRequest)
  deriving DecidableEq, Repr

/-- A step of the tree, if it is one that the tree admits. -/
def View.command (t : View) : Command → Option View
  | .entry r => t.step r
  | .rename r => t.rename r

namespace Command

/-- A command from the root of the mount on. -/
def run (hash : Name → Nat) (sb : SuperBlock) : Command → Op Unit
  | .entry r => r.run hash sb
  | .rename r => r.run hash sb

/-- A command, with no dentry in memory before. -/
def serve (hash : Name → Nat) (sb : SuperBlock) (m : Mount) (c : Command) : Except Errno Unit × Mount :=
  c.run hash sb (m.dropped sb)

/-- The mount after a list of commands. -/
def serveAll (hash : Name → Nat) (sb : SuperBlock) (m : Mount) : List Command → Mount
  | [] => m
  | c :: cs => serveAll hash sb (c.serve hash sb m).2 cs

/-- The commands of a list that succeed. -/
def served (hash : Name → Nat) (sb : SuperBlock) (m : Mount) : List Command → List Command
  | [] => []
  | c :: cs =>
    if (c.serve hash sb m).1 = .ok () then c :: served hash sb (c.serve hash sb m).2 cs
    else served hash sb (c.serve hash sb m).2 cs

/-- What is asked of the branches: no directory is removed whose lookup has ended at a whiteout, what is renamed is no
directory, and no branch has one inode under both names. -/
def Admitted (sb : SuperBlock) (w : World) : Command → Prop
  | .entry r => r.action = .rmdir → (freshDi sb w r.path).bwh = -1
  | .rename r => View.mode (seen sb w) r.src ≠ some .dir ∧ (r.src ≠ r.dst → Apart sb w r.src r.dst)

/-- An admitted command in which at most one step fails, or that succeeds. -/
structure Calm (hash : Name → Nat) (sb : SuperBlock) (m : Mount) (c : Command) : Prop where
  fails : (c.serve hash sb m).1 ≠ .ok () → (c.serve hash sb m).2.fails < 2
  admitted : c.Admitted sb m.w

/-- Every command of a list is calm when its turn comes. -/
def CalmAll (hash : Name → Nat) (sb : SuperBlock) (m : Mount) : List Command → Prop
  | [] => True
  | c :: cs => c.Calm hash sb m ∧ CalmAll hash sb (c.serve hash sb m).2 cs

variable {c : Command}

/-- One command: it succeeds and is a step of the tree, or the tree is the same. -/
theorem Calm.step (hroots : sb.DistinctRoots) (hwr : sb.HonoursWh) (hbr : sb.branches ≠ []) (hc : c.Calm hash sb m) :
    if (c.serve hash sb m).1 = .ok () then View.command (seen sb m.w) c = some (seen sb (c.serve hash sb m).2.w)
    else seen sb (c.serve hash sb m).2.w = seen sb m.w := by
  have hadmitted := hc.admitted
  refine step_or_same ?_ hc.fails
  cases c with
  | entry r => exact wp_request hroots hwr hbr hadmitted
  | rename r => exact wp_renameRequest hroots hwr hbr hadmitted.1 hadmitted.2

end Command

/-- Any number of requests and renames of files: those that succeed are steps of one tree, in their order, and users see
nothing else. -/
theorem commands_refine (hroots : sb.DistinctRoots) (hwr : sb.HonoursWh) (hbr : sb.branches ≠ []) (cs : List Command)
    (hcalm : Command.CalmAll hash sb m cs) :
    (Command.served hash sb m cs).foldlM View.command (seen sb m.w) =
      some (seen sb (Command.serveAll hash sb m cs).w) := by
  induction cs generalizing m with
  | nil => rfl
  | cons c cs ih =>
    obtain ⟨hc, hrest⟩ := hcalm
    have hstep := hc.step hroots hwr hbr
    have hrest := ih hrest
    rw [Command.served, Command.serveAll]
    split
    · rename_i hok
      rw [if_pos hok] at hstep
      rw [List.foldlM_cons, hstep]
      exact hrest
    · rename_i hfail
      rw [if_neg hfail] at hstep
      rw [← hstep]
      exact hrest

/-- The file `a` of the read-only branch is renamed to `d/c`, a new file `a` is made, and `d/c` gets its old name again
in the place of that file. -/
def smallCommands : List Command :=
  [.rename ⟨[], [97], [[100]], [99]⟩, .entry ⟨[], [97], .create 6, false⟩, .rename ⟨[[100]], [99], [], [97]⟩]

theorem smallCommands_calm : Command.CalmAll (fun _ => 0) smallSb smallMount smallCommands := by
  refine ⟨⟨?_, ?_, fun _ => apart_of_all ?_⟩, ⟨?_, fun h => ?_⟩, ⟨?_, ?_, fun _ => apart_of_all ?_⟩, trivial⟩
  case refine_5 => cases h
  all_goals decide +kernel

theorem commands_refine_small :
    (Command.served (fun _ => 0) smallSb smallMount smallCommands).foldlM View.command (seen smallSb smallMount.w) =
        some (seen smallSb (Command.serveAll (fun _ => 0) smallSb smallMount smallCommands).w) ∧
      Command.served (fun _ => 0) smallSb smallMount smallCommands = smallCommands :=
  ⟨commands_refine smallSb_roots (SuperBlock.honoursWh_of_all (by decide)) (by decide) smallCommands smallCommands_calm,
    by decide +kernel⟩

end Aufs
