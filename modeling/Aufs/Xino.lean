-- SUMMARY: The external inode number table: reading, writing and giving out inode numbers (xino.c).
import Mathlib.Algebra.Group.Nat.Defs
import Aufs.World
import Aufs.SuperBlock

/-!
# Inode numbers

The table maps a branch and a hidden inode number to the inode number of aufs;
zero means no entry. Without the mount flag nothing is read or written.
-/

namespace Aufs

/-- `AUFS_ROOT_INO` -/
def rootIno : Nat := 2

/-- `xino_write` -/
def xinoWrite (sb : SuperBlock) (w : World) (bindex : Int) (hIno ino : Nat) :
    Except Errno Unit × World :=
  if !sb.xino then (.ok (), w)
  else
    match sb.stobr bindex with
    | none => (.error .oops, w)
    | some br =>
      match w.ask with
      | (some _, w) => (.error Errno.EIO, w)
      | (none, w) =>
        let xf := w.xino br.root
        let xf : XinoFile := ⟨max xf.size (hIno + 1), Function.update xf.ino hIno ino⟩
        (.ok (), { w with xino := Function.update w.xino br.root xf })

/-- `xino_read`. Past the end of the file there is no entry. -/
def xinoRead (sb : SuperBlock) (w : World) (bindex : Int) (hIno : Nat) : Except Errno Nat × World :=
  if !sb.xino then (.ok 0, w)
  else
    match sb.stobr bindex with
    | none => (.error .oops, w)
    | some br =>
      if (w.xino br.root).size < hIno + 1 then (.ok 0, w)
      else
        match w.ask with
        | (some e, w) => (.error e, w)
        | (none, w) => (.ok ((w.xino br.root).ino hIno), w)

/-- `xino_new_ino`: the counter is an `atomic_long_t`, and a number below the root's means
that it has run over. -/
def xinoNewIno (w : World) : Nat × World :=
  let ino := (w.lastIno + 1) % 2 ^ 64
  if rootIno ≤ ino then (ino, { w with lastIno := ino }) else (0, w)

end Aufs
