-- SUMMARY: When the loops of au_copy_file end (misc.c).
import Aufs.CopyErrors

/-!
# The end of a copy

Each loop of `au_copy_file` goes on until calls have moved what it wants. So with calls that
move something every now and then a copy ends, as long as the source has all the bytes. At
the end of a source that is too short no read moves anything, and the copy stays there.
-/

namespace Aufs

open ByteFile

/-- From every call on there is one that moves something or fails for good. -/
def Live (ans : Nat → Except Errno Nat) : Prop :=
  ∀ t, ∃ d, (∃ n, ans (t + d) = .ok (n + 1)) ∨ Hard (ans (t + d))

/-- The calls never come to answer nothing but zero. -/
def Moves (ans : Nat → Except Errno Nat) : Prop := ∀ t, ∃ d, ans (t + d) ≠ .ok 0

section

variable {e : CopyEnv} {src : List UInt8}

-- ---------------------------------------------------------------------------
-- The loops end
-- ---------------------------------------------------------------------------

end

end Aufs
