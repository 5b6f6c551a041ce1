-- SUMMARY: The lock of an open file's private data, through au_reval_and_lock_finfo and the calls that use it.
import Aufs.Finfo

/-!
# The lock of an open file

`au_reval_and_lock_finfo` takes the lock of the file's private data, brings the
file up to date and keeps the lock for its caller when it succeeds. A call that
fails should keep nothing. One exit misses this: a failed `au_reval_dpath`
leaves with the lock held for writing.
-/

namespace Aufs

open Holder

/-- How a task holds `fi_rwsem` of a file. -/
inductive FiLock where
  | none
  | read
  | write
  deriving DecidableEq, Repr

/-- A task that works on the lock of a file as well. -/
abbrev LockedTask (α : Type) : Type := StateT FiLock (Holder Held Errno) α

namespace FiLock

/-- `rw_dgrade_lock` -/
def downgrade : FiLock → FiLock
  | write => read
  | l => l

/-- `rw_read_unlock` -/
def readUnlock : FiLock → FiLock
  | read => none
  | l => l

/-- `rw_write_unlock` -/
def writeUnlock : FiLock → FiLock
  | write => none
  | l => l

end FiLock

namespace LockedOp

open FileOp

/-- `fi_write_lock` -/
def fiWriteLock : LockedTask Unit := set FiLock.write

/-- `fi_downgrade_lock` -/
def fiDowngradeLock : LockedTask Unit := modify FiLock.downgrade

/-- `fi_read_unlock` -/
def fiReadUnlock : LockedTask Unit := modify FiLock.readUnlock

/-- `fi_write_unlock` -/
def fiWriteUnlock : LockedTask Unit := modify FiLock.writeUnlock

-- ---------------------------------------------------------------------------
-- The functions
-- ---------------------------------------------------------------------------

/-- Do the file, the dentry and the inode agree, so that nothing has to be refreshed? -/
def UpToDate (sb : SuperBlock) (v : RevalEnv) (f : AufsFile) : Prop :=
  sb.generation = f.fi.generation ∧ ¬ v.dbstart ≠ v.ibstart ∧ f.fi.bstart = v.dbstart

instance (sb : SuperBlock) (v : RevalEnv) (f : AufsFile) : Decidable (UpToDate sb v f) :=
  inferInstanceAs (Decidable (_ ∧ _ ∧ _))

/-- How `au_reval_dpath` ends where `au_reval_and_lock_finfo` calls it. -/
def revalDpath (sb : SuperBlock) (v : RevalEnv) : Except Errno Unit :=
  if sb.generation ≠ v.digen then v.revalDpath else .ok ()

/-- The end of a slow path of `au_reval_and_lock_finfo`: a caller that asked for reading gets
the lock downgraded, and one that failed gets none. -/
def passLock (wlock : Bool) : Except Errno Unit → LockedTask Unit
  | .ok () => if wlock then pure () else fiDowngradeLock
  | .error _ => fiWriteUnlock

/-- `au_reval_and_lock_finfo` with the lock it takes -/
def auRevalAndLockFinfo (sb : SuperBlock) (v : RevalEnv) (f : AufsFile) (wlock : Bool) :
    LockedTask (Except Errno Unit × AufsFile) := do
  fiWriteLock
  if UpToDate sb v f then do
    if wlock then pure () else fiDowngradeLock
    return (.ok (), f)
  else
    match revalDpath sb v with
    -- this exit passes the unlocking by
    | .error err => return (.error err, f)
    | .ok () => do
      let r ← refreshFile sb v.refresh f
      passLock wlock r.1
      return (r.1, { f with fi := r.2 })

/-- `fi_write_unlock` or `fi_read_unlock`, as the caller asked for the lock -/
def unlock (wlock : Bool) : LockedTask Unit := if wlock then fiWriteUnlock else fiReadUnlock

/-- A call that locks the file, works on it and unlocks it. -/
def lockedCall {α : Type} (sb : SuperBlock) (v : RevalEnv) (f : AufsFile) (wlock : Bool)
    (body : AufsFile → FileTask (Except Errno α)) : LockedTask (Except Errno α) := do
  match ← auRevalAndLockFinfo sb v f wlock with
  | (.error err, _) => return .error err
  | (.ok (), f) => do
    let r ← body f
    unlock wlock
    return r

/-- `aufs_read` around `vfsub_read_u` -/
def aufsRead (sb : SuperBlock) (v : RevalEnv) (f : AufsFile)
    (vfsubReadU : AufsFile → FileTask (Except Errno Nat)) : LockedTask (Except Errno Nat) :=
  lockedCall sb v f false vfsubReadU

/-- `aufs_write` around `vfsub_write_u` -/
def aufsWrite (sb : SuperBlock) (v : RevalEnv) (w : WriteEnv) (f : AufsFile)
    (vfsubWriteU : Option AufsFile → FileTask (Except Errno Nat)) : LockedTask (Except Errno Nat) :=
  lockedCall sb v f true fun f => do
    match ← auReadyToWrite sb w f with
    | (.error err, _) => return .error err
    | (.ok (), f) => vfsubWriteU f

/-- `aufs_readdir` around `au_init_vdir` and `au_fill_de` -/
def aufsReaddir (sb : SuperBlock) (v : RevalEnv) (f : AufsFile)
    (auInitVdir auFillDe : AufsFile → FileTask (Except Errno Unit)) :
    LockedTask (Except Errno Unit) :=
  lockedCall sb v f true fun g => do
    match ← auInitVdir g with
    | .error err => return .error err
    | .ok () => auFillDe g

-- ---------------------------------------------------------------------------
-- The lock after each step
-- ---------------------------------------------------------------------------

/-- The lock that a call is due which ended with `r`: as it was asked for, or none. -/
def due (wlock : Bool) : Except Errno Unit → FiLock
  | .ok () => if wlock then .write else .read
  | .error _ => .none

variable {sb : SuperBlock} {v : RevalEnv} {f : AufsFile} {wlock : Bool} {l : FiLock}

@[simp] theorem run_fiWriteLock : fiWriteLock.run l = pure ((), .write) := rfl

@[simp] theorem run_fiDowngradeLock : fiDowngradeLock.run l = pure ((), l.downgrade) := rfl

@[simp] theorem run_passLock (r : Except Errno Unit) :
    (passLock wlock r).run .write = pure ((), due wlock r) := by
  cases r <;> cases wlock <;> rfl

/-- The unlocking of a caller takes back what it was due. -/
@[simp] theorem run_unlock : (unlock wlock).run (due wlock (.ok ())) = pure ((), .none) := by
  cases wlock <;> rfl

/-- The run of `au_reval_and_lock_finfo`, the lock written out. -/
theorem run_auRevalAndLockFinfo :
    (auRevalAndLockFinfo sb v f wlock).run l =
      if UpToDate sb v f then pure ((.ok (), f), due wlock (.ok ()))
      else
        match revalDpath sb v with
        | .error err => pure ((.error err, f), .write)
        | .ok () => refreshFile sb v.refresh f >>= fun r =>
          pure ((r.1, { f with fi := r.2 }), due wlock r.1) := by
  unfold auRevalAndLockFinfo
  by_cases hup : UpToDate sb v f
  · simp only [if_pos hup]
    cases wlock <;> rfl
  · simp only [if_neg hup]
    cases hd : revalDpath sb v with
    | error err => rfl
    | ok u => simp

/-- Without the lock this is the operation on the hidden files. -/
theorem auRevalAndLockFinfo_unlocked :
    (fun x => (x.1.1, some x.1.2)) <$> (auRevalAndLockFinfo sb v f wlock).run l =
      FileOp.auRevalAndLockFinfo sb v f := by
  rw [run_auRevalAndLockFinfo, FileOp.auRevalAndLockFinfo]
  by_cases hup : UpToDate sb v f
  · simp only [if_pos hup]
    exact (if_pos hup).symm
  · simp only [if_neg hup]
    refine Eq.trans ?_ (if_neg hup).symm
    unfold revalDpath
    cases if sb.generation ≠ v.digen then v.revalDpath else .ok () with
    | error err => rfl
    | ok u => simp

-- ---------------------------------------------------------------------------
-- Who holds the lock at the end
-- ---------------------------------------------------------------------------

/-- The exit that keeps the lock: the file is not up to date, the dentry is of another
generation, and its path cannot be revalidated. -/
def FailsReval (sb : SuperBlock) (v : RevalEnv) (f : AufsFile) : Prop :=
  ¬ UpToDate sb v f ∧ sb.generation ≠ v.digen ∧ ∃ err, v.revalDpath = .error err

/-- The path is revalidated with an error exactly where the dentry is of another generation. -/
theorem revalDpath_error_iff {err : Errno} :
    revalDpath sb v = .error err ↔ sb.generation ≠ v.digen ∧ v.revalDpath = .error err := by
  unfold revalDpath
  split <;> simp_all

/-- Apart from the exit that keeps the lock, a call gives the lock that is due. -/
theorem due_of_ends (hfails : ¬ FailsReval sb v f) {r : Except Errno Unit × AufsFile} {l' : FiLock}
    (h : Ends ((auRevalAndLockFinfo sb v f wlock).run l) (r, l')) : l' = due wlock r.1 := by
  rw [run_auRevalAndLockFinfo] at h
  by_cases hup : UpToDate sb v f
  · rw [if_pos hup, ends_pure] at h
    cases h
    rfl
  · rw [if_neg hup] at h
    cases hd : revalDpath sb v with
    | error err =>
        obtain ⟨hgen, herr⟩ := revalDpath_error_iff.mp hd
        exact absurd ⟨hup, hgen, err, herr⟩ hfails
    | ok u =>
        rw [hd] at h
        obtain ⟨s, hs, hend⟩ := ends_bind.mp h
        cases ends_pure.mp hend
        rfl

/-- The exit that keeps the lock gives it for writing to a call that failed. -/
theorem ends_of_failsReval (hfails : FailsReval sb v f) :
    ∃ err, Ends ((auRevalAndLockFinfo sb v f wlock).run l) ((.error err, f), .write) := by
  obtain ⟨hup, hgen, err, herr⟩ := hfails
  have hd : revalDpath sb v = .error err := revalDpath_error_iff.mpr ⟨hgen, herr⟩
  refine ⟨err, ?_⟩
  rw [run_auRevalAndLockFinfo, if_neg hup, hd]
  exact .ret _

/-- A call that locks the file leaves no lock behind where the lock is given as it is due. -/
theorem none_of_lockedCall {α : Type} {body : AufsFile → FileTask (Except Errno α)}
    (hdue : ∀ r l', Ends ((auRevalAndLockFinfo sb v f wlock).run l) (r, l') → l' = due wlock r.1)
    {r : Except Errno α} {l' : FiLock} (h : Ends ((lockedCall sb v f wlock body).run l) (r, l')) :
    l' = .none := by
  rw [lockedCall, StateT.run_bind] at h
  obtain ⟨⟨⟨locked, g⟩, l₁⟩, hlocked, hrest⟩ := ends_bind.mp h
  have hl₁ := hdue _ _ hlocked
  cases locked with
  | error err =>
      cases ends_pure.mp hrest
      exact hl₁
  | ok u =>
      cases hl₁
      simp only [StateT.run_bind, StateT.run_monadLift, StateT.run_pure] at hrest
      obtain ⟨⟨x, l₂⟩, hbody, hend⟩ := ends_bind.mp hrest
      obtain ⟨x', -, hx⟩ := ends_bind.mp hbody
      cases ends_pure.mp hx
      obtain ⟨⟨y, l₃⟩, hunlock, hret⟩ := ends_bind.mp hend
      rw [run_unlock] at hunlock
      cases ends_pure.mp hunlock
      cases ends_pure.mp hret
      rfl

/-- The lock is held exactly by a call of `au_reval_and_lock_finfo` that succeeds, as it was asked
for, and a read, a write or a listing leaves none behind, unless the path of the dentry has to be
revalidated and cannot be. -/
theorem auRevalAndLockFinfo_due_iff (sb : SuperBlock) (v : RevalEnv) (f : AufsFile) :
    ((∀ wlock r l, Ends ((auRevalAndLockFinfo sb v f wlock).run .none) (r, l) → l = due wlock r.1) ∧
      (∀ read r l, Ends ((aufsRead sb v f read).run .none) (r, l) → l = .none) ∧
      (∀ w write r l, Ends ((aufsWrite sb v w f write).run .none) (r, l) → l = .none) ∧
      ∀ init fill r l, Ends ((aufsReaddir sb v f init fill).run .none) (r, l) → l = .none) ↔
      ¬ FailsReval sb v f := by
  constructor
  · rintro ⟨hdue, -⟩ hfails
    obtain ⟨err, hend⟩ : ∃ err, Ends ((auRevalAndLockFinfo sb v f true).run .none) ((.error err, f), .write) :=
      ends_of_failsReval hfails
    exact FiLock.noConfusion (hdue _ _ _ hend)
  · intro hfails
    refine ⟨?_, ?_, ?_, ?_⟩
    · intro wlock r l h
      exact due_of_ends hfails h
    · intro read r l h
      exact none_of_lockedCall (fun _ _ => due_of_ends hfails) h
    · intro w write r l h
      exact none_of_lockedCall (fun _ _ => due_of_ends hfails) h
    · intro init fill r l h
      exact none_of_lockedCall (fun _ _ => due_of_ends hfails) h

-- ---------------------------------------------------------------------------
-- A file whose name is gone
-- ---------------------------------------------------------------------------

/-- A mount with one branch. -/
def goneSb : SuperBlock := .ofBranches [.plain 1 .RW]

/-- A file `a` that was opened for reading before the branches were changed. -/
def goneFile : AufsFile where
  isDir := false
  mode := ⟨true, false⟩
  fi := ⟨0, 0, fun b => if b = 0 then some ⟨⟨1, ⟨true, false⟩⟩, 1⟩ else none, 0⟩

/-- Its hidden inode. -/
def goneInode : HInode := ⟨.reg, 5, 0, false⟩

/-- Its dentry. -/
def goneDentry : DentryEnv where
  d := ⟨0, 0, -1, -1, fun b => if b = 0 then some ⟨1, [[97]], some goneInode⟩ else none⟩
  hi := fun b => if b = 0 then some goneInode else none
  nonneg := by exact Int.le_refl 0

/-- Its name was removed under the branch since then. -/
def goneEnv : RevalEnv where
  dbstart := 0
  ibstart := 0
  digen := 0
  revalDpath := .error .ENOENT
  refresh := ⟨goneDentry, 0, true, false, false, fun _ => true, false, []⟩

/-- The read of the file fails and leaves the lock held for writing. -/
theorem goneFile_keeps_lock :
    ¬ ∀ r l, Ends ((aufsRead goneSb goneEnv goneFile fun _ => pure (.ok 0)).run .none) (r, l) → l = .none := by
  intro h
  have hend : Ends ((aufsRead goneSb goneEnv goneFile fun _ => pure (.ok 0)).run .none)
      (.error .ENOENT, .write) := .ret _
  exact FiLock.noConfusion (h _ _ hend)

end LockedOp

end Aufs
