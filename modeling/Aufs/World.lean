-- SUMMARY: What is outside aufs: the mounted file systems, the inode number files, the clock, and the failures of every call.
import Mathlib.Data.List.Perm.Basic
import Aufs.LowerFs

/-!
# The world outside

The calls aufs makes on the file systems below may fail at any time. `World`
has one oracle for all of them: every call uses up one tick, and `fault` says
whether the call of that tick fails and how. A world without faults is quiet;
calls can still fail in it, for what they find in the tree.
-/

namespace Aufs

/-- An inode number file: `size` entries, of which those never written read as zero. -/
structure XinoFile where
  size : Nat
  ino : Nat → Nat

/-- The mounted file systems with the inode number files that go with them, the clock,
and the oracle of failures. `order` is the order in which a directory delivers its
entries and `chunk` the number of entries of one `readdir` call, less one. -/
structure World where
  fs : Nat → LowerFs
  xino : Nat → XinoFile
  lastIno : Nat
  jiffies : Nat
  tick : Nat
  fault : Nat → Option Errno
  chunk : Nat → Nat
  order : List Dirent → List Dirent
  order_perm : ∀ l, (order l).Perm l

namespace World

/-- A world in which no call fails and directories deliver in order. -/
def ofFs (fs : Nat → LowerFs) : World where
  fs := fs
  xino := fun _ => ⟨0, fun _ => 0⟩
  lastIno := 10
  jiffies := 0
  tick := 0
  fault := fun _ => none
  chunk := fun _ => 3
  order := id
  order_perm := fun _ => .refl _

/-- No call fails but for what it finds. -/
def Quiet (w : World) : Prop := ∀ t, w.tick ≤ t → w.fault t = none

/-- The world after one more call. -/
def next (w : World) : World := { w with tick := w.tick + 1 }

/-- Does the call that is made now fail? -/
def ask (w : World) : Option Errno × World := (w.fault w.tick, w.next)

/-- A call that changes the file system `root`. -/
def call (w : World) (root : Nat) (op : LowerFs → Except Errno LowerFs) : Except Errno Unit × World :=
  match w.ask with
  | (some e, w) => (.error e, w)
  | (none, w) =>
    match op (w.fs root) with
    | .error e => (.error e, w)
    | .ok f => (.ok (), { w with fs := Function.update w.fs root f })

/-- The entries of a directory in the order in which they are delivered. -/
def dirents (w : World) (root : Nat) (p : Path) : List Dirent := w.order ((w.fs root).dirents p)

theorem nodup_dirents (w : World) (root : Nat) (p : Path) :
    ((w.dirents root p).map Dirent.name).Nodup :=
  ((w.order_perm _).map _).nodup_iff.mpr ((w.fs root).nodup_dirents p)

theorem mem_dirents (w : World) {root : Nat} {p : Path} {n : Name} (h1 : n ≠ dot) (h2 : n ≠ dotdot) :
    n ∈ (w.dirents root p).map Dirent.name ↔ ((w.fs root).node (p ++ [n])).isSome := by
  rw [← (w.fs root).mem_dirents h1 h2]
  exact ((w.order_perm _).map _).mem_iff

theorem ask_of_quiet {w : World} (h : w.Quiet) : w.ask = (none, w.next) := by
  simp [ask, h w.tick (Nat.le_refl _)]

theorem Quiet.next {w : World} (h : w.Quiet) : w.next.Quiet := fun t ht =>
  h t (by simp only [World.next] at ht; omega)

end World

end Aufs
