-- SUMMARY: decode_by_path of export.c: two paths and a name put together in one buffer from its end.
import Aufs.Export
import Aufs.Lib.CMem

/-!
# A path for a file handle

When neither the inode of a handle nor its parent is cached, `decode_by_path` lets the
branch find the hidden parent, takes its path below the branch, looks for the inode number of
the handle in it, and puts the path of the mount, that of the parent and the name
together in one buffer for `path_lookup`. The buffer is filled by `d_path`, from its end.
-/

namespace Aufs

open CMem

-- ---------------------------------------------------------------------------
-- The buffer
-- ---------------------------------------------------------------------------

/-- The memory around the buffer that `__getname` gives, with addresses from its start, and
whether something outside of it was written. -/
structure PathBuf where
  mem : Mem
  outside : Bool

/-- Bytes are written at an address. -/
def PathBuf.write (b : PathBuf) (i : Int) (l : List UInt8) : PathBuf where
  mem := store b.mem i l
  outside := b.outside || (!l.isEmpty && (decide (i < 0) || decide ((pathMax : Int) < i + l.length)))

/-- The components of a path, each after a slash. -/
def slashed (p : Path) : List UInt8 := (p.map fun n => 47 :: n).flatten

/-- An absolute path as `d_path` prints it. -/
def pathStr (p : Path) : List UInt8 := if p = [] then [47] else slashed p

/-- `d_path`: the path is put before a zero at the end of the `buflen` bytes. -/
def dPath (b : PathBuf) (buflen : Int) (p : Path) : Except Errno Int × PathBuf :=
  let b := b.write (buflen - 1) [0]
  if buflen < (pathStr p).length + 1 then (.error .ENAMETOOLONG, b)
  else (.ok (buflen - 1 - (pathStr p).length), b.write (buflen - 1 - (pathStr p).length) (pathStr p))

/-- `strlen` of a string in the buffer. -/
def PathBuf.strlen (b : PathBuf) (i : Int) : Nat := CMem.strlen pathMax b.mem i

-- ---------------------------------------------------------------------------
-- The search for the name
-- ---------------------------------------------------------------------------

/-- An entry that `filldir` receives. `rest` is what stands behind the name in the memory of the
lower file system. -/
structure NameEnt where
  name : Name
  ino : Nat
  rest : Nat → UInt8

/-- The bytes at the name, as many as are asked for. -/
def NameEnt.bytes (e : NameEnt) (n : Nat) : List UInt8 :=
  e.name.take n ++ (List.range (n - e.name.length)).map e.rest

/-- `struct append_name`, with the buffer, and whether one of its assertions failed. -/
structure AppendName where
  buf : PathBuf
  hPath : Int
  len : Int
  found : Nat
  called : Nat
  bug : Bool

/-- `append_name`: is that the entry? -/
def appendName (hIno : Nat) (a : AppendName) (e : NameEnt) : Bool × AppendName :=
  let a := { a with called := a.called + 1 }
  if e.ino ≠ hIno then (false, a)
  else
    let len := a.buf.strlen a.hPath
    -- the string is moved by its own length
    let buf := a.buf.write (a.hPath - len - 1) (load a.buf.mem a.hPath len)
    let hPath := a.hPath - (len + 1)
    let buf := buf.write (hPath + len) [47]
    -- and so many bytes of the name are copied
    let buf := buf.write (hPath + len + 1) (e.bytes len)
    (true, { a with buf, hPath, len := len + 1 + e.name.length, found := a.found + 1,
                    bug := a.bug || e.name == dot || e.name == dotdot })

/-- One call of `vfsub_readdir`: the entries it would deliver, and its error. -/
structure ReadCall where
  ents : List NameEnt
  err : Option Errno

/-- The entries of one call, until the callback has what it wants. -/
def appendNames (hIno : Nat) : List NameEnt → AppendName → AppendName
  | [], a => a
  | e :: es, a =>
    match appendName hIno a e with
    | (true, a) => a
    | (false, a) => appendNames hIno es a

/-- The loop over the calls of `vfsub_readdir`. When the list of calls is over, nothing more is
delivered. -/
def readNames (hIno : Nat) : List ReadCall → AppendName → AppendName
  | [], a => { a with called := 0 }
  | c :: cs, a =>
    let a := appendNames hIno c.ents { a with called := 0 }
    if c.err = none ∧ a.found = 0 ∧ a.called ≠ 0 then readNames hIno cs a else a

-- ---------------------------------------------------------------------------
-- `decode_by_path`
-- ---------------------------------------------------------------------------

/-- A dentry of the branch: is it disconnected, and its path. -/
structure HFhDentry where
  anon : Bool
  path : Path

/-- What the inode of a dentry is: none, one of another file system, or one of aufs, with the
range of branches it has. -/
inductive FhDInode where
  | none
  | foreign (ino : Nat)
  | own (inode : FhInode) (range : inode.ii.bstart ≤ inode.ii.bend)

/-- `i_ino` -/
def FhDInode.ino : FhDInode → Option Nat
  | .none => Option.none
  | .foreign ino => some ino
  | .own inode _ => some inode.ino

/-- A dentry that a handle leads to. -/
structure FhDentry where
  id : Nat
  anon : Bool
  inode : FhDInode

/-- What `decode_by_path` depends on: the paths of the mount and of the root of the branch, the
inode number in the handle, what the calls answer, and what the memory holds before. -/
structure PathEnv where
  root : Path
  hRoot : Path
  hIno : Nat
  decodeFh : Except Errno (Option HFhDentry)
  getname : Option Errno
  dentryOpen : Option Errno
  calls : List ReadCall
  pathLookup : Except Errno FhDentry
  mem : Mem
  len : Int

/-- What becomes of a call: the dentry or none, whether a byte outside of the buffer was
written, the string that was looked up, by its address, and whether an assertion failed. -/
structure PathRes where
  res : Except Errno (Option FhDentry)
  outside : Bool
  lookup : Option (Mem × Int)
  bug : Bool

/-- The buffer with the hidden path, and where it begins below the branch. -/
def hiddenPath (e : PathEnv) (path : Path) : Except Errno Int × PathBuf :=
  match dPath ⟨e.mem, false⟩ pathMax e.hRoot with
  | (.error err, b) => (.error err, b)
  | (.ok hPath, b) =>
    let len := b.strlen hPath
    match dPath b pathMax path with
    | (.error err, b) => (.error err, b)
    | (.ok hPath, b) => (.ok (if len ≠ 1 then hPath + len else hPath), b)

/-- The end of `decode_by_path`, from the search for the name on. -/
def lookupName (e : PathEnv) (hPath : Int) (b : PathBuf) : PathRes :=
  let a := readNames e.hIno e.calls ⟨b, hPath, e.len, 0, 0, false⟩
  match dPath a.buf (cInt (pathMax - a.len - 2)) e.root with
  | (.error err, b) => ⟨.error err, b.outside, none, a.bug⟩
  | (.ok p, b) =>
    let b := b.write (p + b.strlen p) [47]
    let res := match e.pathLookup with
      | .error err => .error err
      | .ok d => if d.anon then .error .ESTALE else .ok (some d)
    ⟨res, b.outside, some (b.mem, p), a.bug⟩

/-- `decode_by_path` -/
def decodeByPath (e : PathEnv) : PathRes :=
  match e.decodeFh with
  | .error err => ⟨.error err, false, none, false⟩
  | .ok none => ⟨.ok none, false, none, false⟩
  | .ok (some hParent) =>
    if hParent.anon then ⟨.ok none, false, none, false⟩
    else
      match e.getname with
      | some _ => ⟨.error .ENOMEM, false, none, false⟩
      | none =>
        match hiddenPath e hParent.path with
        | (.error err, b) => ⟨.error err, b.outside, none, false⟩
        | (.ok hPath, b) =>
          match e.dentryOpen with
          | some err => ⟨.error err, b.outside, none, false⟩
          | none => lookupName e hPath b

-- ---------------------------------------------------------------------------
-- The buffer as bytes
-- ---------------------------------------------------------------------------

/-- A name that can be part of a path. -/
def PathName (n : Name) : Prop := n ≠ [] ∧ 47 ∉ n ∧ 0 ∉ n

instance (n : Name) : Decidable (PathName n) := inferInstanceAs (Decidable (n ≠ [] ∧ 47 ∉ n ∧ 0 ∉ n))

theorem slashed_append (p q : Path) : slashed (p ++ q) = slashed p ++ slashed q := by
  simp [slashed]

theorem slashed_singleton (n : Name) : slashed [n] = 47 :: n := by
  simp [slashed]

theorem slashed_ne_nil {p : Path} (h : p ≠ []) : ∃ t, slashed p = 47 :: t := by
  obtain ⟨n, q, rfl⟩ := List.exists_cons_of_ne_nil h
  exact ⟨n ++ slashed q, rfl⟩

theorem zero_notMem_slashed {p : Path} (h : ∀ n ∈ p, PathName n) : (0 : UInt8) ∉ slashed p := by
  intro hmem
  obtain ⟨l, hl, h0⟩ := List.mem_flatten.mp hmem
  obtain ⟨n, hn, rfl⟩ := List.mem_map.mp hl
  rcases List.mem_cons.mp h0 with h0 | h0
  · exact absurd h0 (by decide)
  · exact (h n hn).2.2 h0

theorem pathStr_of_ne {p : Path} (h : p ≠ []) : pathStr p = slashed p := if_neg h

theorem zero_notMem_pathStr {p : Path} (h : ∀ n ∈ p, PathName n) : (0 : UInt8) ∉ pathStr p := by
  unfold pathStr
  split
  · decide
  · exact zero_notMem_slashed h

theorem pathStr_length_pos (p : Path) : 0 < (pathStr p).length := by
  unfold pathStr
  split
  · exact Nat.one_pos
  · obtain ⟨t, ht⟩ := slashed_ne_nil ‹_›
    rw [ht]
    exact Nat.succ_pos _

namespace PathBuf

variable {b : PathBuf} {i j : Int} {l s : List UInt8}

theorem write_outside_iff :
    (b.write i l).outside = false ↔ b.outside = false ∧ (l = [] ∨ 0 ≤ i ∧ i + l.length ≤ pathMax) := by
  simp only [write, Bool.or_eq_false_iff, Bool.and_eq_false_iff, Bool.not_eq_false', List.isEmpty_iff,
    decide_eq_false_iff_not, Int.not_lt]

/-- A store within the buffer. -/
theorem write_outside (h0 : 0 ≤ i) (h1 : i + l.length ≤ pathMax) :
    (b.write i l).outside = b.outside := by
  have h₁ : ¬i < 0 := by omega
  have h₂ : ¬(pathMax : Int) < i + l.length := by omega
  simp only [write, decide_eq_false h₁, decide_eq_false h₂, Bool.or_self, Bool.and_false, Bool.or_false]

theorem strlen_eq (h : IsStr b.mem i s) (hs : s.length < pathMax) : b.strlen i = s.length := h.strlen hs

end PathBuf

/-- Where it fits, `d_path` puts the path at the end, and leaves alone what is behind. -/
theorem dPath_ok {b : PathBuf} {buflen : Int} {p : Path} (hp : ∀ n ∈ p, PathName n)
    (hfit : (pathStr p).length + 1 ≤ buflen) :
    ∃ b', dPath b buflen p = (.ok (buflen - 1 - (pathStr p).length), b') ∧
      IsStr b'.mem (buflen - 1 - (pathStr p).length) (pathStr p) ∧
      (buflen ≤ pathMax → b'.outside = b.outside) ∧
      ∀ j l, buflen ≤ j → Holds b.mem j l → Holds b'.mem j l := by
  refine ⟨_, if_neg (by omega), ⟨?_, zero_notMem_pathStr hp⟩, fun hle => ?_, fun j l hj hl => ?_⟩
  · rw [holds_append]
    refine ⟨holds_store _ _ _, ?_⟩
    rw [Int.sub_add_cancel]
    exact (holds_store _ _ _).store (by simp only [List.length_singleton]; omega)
  · rw [PathBuf.write_outside (by omega) (by omega),
      PathBuf.write_outside (by omega) (by simp only [List.length_singleton]; omega)]
  · exact (hl.store (by simp only [List.length_singleton]; omega)).store (by omega)

theorem dPath_error {b : PathBuf} {buflen : Int} {p : Path} (hfit : buflen < (pathStr p).length + 1) :
    ∃ b', dPath b buflen p = (.error .ENAMETOOLONG, b') :=
  ⟨_, if_pos hfit⟩

-- ---------------------------------------------------------------------------
-- The search
-- ---------------------------------------------------------------------------

/-- The first entry with the inode number that the calls deliver. -/
def firstHit (hIno : Nat) : List ReadCall → Option NameEnt
  | [] => none
  | c :: cs =>
    match c.ents.find? fun e => decide (e.ino = hIno) with
    | some e => some e
    | none => if c.err = none ∧ c.ents ≠ [] then firstHit hIno cs else none

theorem appendNames_none {hIno : Nat} {es : List NameEnt} {a : AppendName}
    (h : es.find? (fun e => decide (e.ino = hIno)) = none) :
    appendNames hIno es a = { a with called := a.called + es.length } := by
  induction es generalizing a with
  | nil => rfl
  | cons e es ih =>
    rw [List.find?_cons] at h
    split at h
    · cases h
    · rename_i hne
      rw [appendNames, appendName, if_pos (by simpa using hne)]
      dsimp only
      rw [ih h]
      simp only [List.length_cons, Nat.add_assoc, Nat.add_comm 1]

theorem appendNames_some {hIno : Nat} {es : List NameEnt} {a : AppendName} {e : NameEnt}
    (h : es.find? (fun e => decide (e.ino = hIno)) = some e) :
    ∃ k, appendNames hIno es a = (appendName hIno { a with called := k } e).2 := by
  induction es generalizing a with
  | nil => cases h
  | cons e' es ih =>
    rw [List.find?_cons] at h
    split at h
    · rename_i heq
      obtain rfl := Option.some.inj h
      refine ⟨a.called, ?_⟩
      rw [appendNames, appendName, if_neg (by simpa using heq)]
    · rename_i hne
      rw [appendNames, appendName, if_pos (by simpa using hne)]
      exact ih h

/-- Without the number nothing is appended. -/
theorem readNames_none {hIno : Nat} {cs : List ReadCall} {a : AppendName} (h : firstHit hIno cs = none) :
    ∃ k, readNames hIno cs a = { a with called := k } := by
  induction cs generalizing a with
  | nil => exact ⟨0, rfl⟩
  | cons c cs ih =>
    rw [firstHit] at h
    split at h
    · cases h
    · rename_i hfind
      rw [readNames, appendNames_none hfind]
      dsimp only
      split
      · rename_i hgo
        have hne : c.ents ≠ [] := fun he => hgo.2.2 (by rw [he]; rfl)
        rw [if_pos ⟨hgo.1, hne⟩] at h
        obtain ⟨k, hk⟩ := @ih { a with called := 0 + c.ents.length } h
        exact ⟨k, hk⟩
      · exact ⟨_, rfl⟩

/-- With it the name is appended once. -/
theorem readNames_some {hIno : Nat} {cs : List ReadCall} {a : AppendName} {e : NameEnt}
    (h0 : a.found = 0) (h : firstHit hIno cs = some e) :
    ∃ k, readNames hIno cs a = (appendName hIno { a with called := k } e).2 ∧ e.ino = hIno := by
  induction cs generalizing a with
  | nil => cases h
  | cons c cs ih =>
    rw [firstHit] at h
    split at h
    · rename_i e' hfind
      obtain rfl : e' = e := Option.some.inj h
      have hino : e'.ino = hIno := by simpa using List.find?_some hfind
      obtain ⟨k, hk⟩ := @appendNames_some hIno c.ents { a with called := 0 } e' hfind
      refine ⟨k, ?_, hino⟩
      rw [readNames, hk]
      dsimp only
      rw [if_neg]
      simp only [appendName, hino, ne_eq, not_true_eq_false, if_false]
      omega
    · rename_i hfind
      rw [readNames, appendNames_none hfind]
      dsimp only
      split at h
      · rename_i hgo
        have hlen := List.length_pos_of_ne_nil hgo.2
        rw [if_pos ⟨hgo.1, h0, by omega⟩]
        exact @ih { a with called := 0 + c.ents.length } h0 h
      · cases h

@[simp] theorem NameEnt.length_bytes (e : NameEnt) (n : Nat) : (e.bytes n).length = n := by
  rw [bytes, List.length_append, List.length_take, List.length_map, List.length_range]
  omega

-- ---------------------------------------------------------------------------
-- The hidden path
-- ---------------------------------------------------------------------------

/-- The part of the hidden path that is left of it, below the root of the branch. -/
def hiddenTail (hRoot path : Path) : List UInt8 :=
  if path = [] then (if hRoot = [] then [47] else []) else slashed path

theorem two_le_length_slashed {p : Path} (hp : ∀ n ∈ p, PathName n) (hne : p ≠ []) :
    2 ≤ (slashed p).length := by
  obtain ⟨n, q, rfl⟩ := List.exists_cons_of_ne_nil hne
  have := List.length_pos_of_ne_nil (hp n List.mem_cons_self).1
  simp only [slashed, List.map_cons, List.flatten_cons, List.length_append, List.length_cons]
  omega

/-- The hidden path is the root of the branch and the tail. -/
theorem pathStr_hidden (hRoot path : Path) : pathStr (hRoot ++ path) =
    (if hRoot = [] then [] else slashed hRoot) ++ hiddenTail hRoot path := by
  unfold pathStr hiddenTail
  by_cases hr : hRoot = []
  · subst hr
    by_cases hq : path = []
    · subst hq
      rfl
    · simp only [List.nil_append, if_neg hq, if_true]
  · rw [if_neg hr, if_neg (by simp [hr]), slashed_append]
    by_cases hq : path = []
    · subst hq
      simp [hr, slashed]
    · rw [if_neg hq]

theorem zero_notMem_hiddenTail {hRoot path : Path} (h : ∀ n ∈ path, PathName n) :
    (0 : UInt8) ∉ hiddenTail hRoot path := by
  unfold hiddenTail
  repeat' split
  · decide
  · exact List.not_mem_nil
  · exact zero_notMem_slashed h

/-- The tail stands at the end of the buffer, behind the root of the branch. -/
theorem hiddenPath_ok {e : PathEnv} {path : Path} (hr : ∀ n ∈ e.hRoot, PathName n)
    (hq : ∀ n ∈ path, PathName n) (hfit : (pathStr (e.hRoot ++ path)).length < pathMax) :
    ∃ b, hiddenPath e (e.hRoot ++ path) =
        (.ok (pathMax - 1 - (hiddenTail e.hRoot path).length : Int), b) ∧ b.outside = false ∧
      IsStr b.mem (pathMax - 1 - (pathStr (e.hRoot ++ path)).length : Int) (pathStr (e.hRoot ++ path)) := by
  have hall : ∀ n ∈ e.hRoot ++ path, PathName n := fun n hn =>
    (List.mem_append.mp hn).elim (hr n) (hq n)
  have hsplit := congrArg List.length (pathStr_hidden e.hRoot path)
  rw [List.length_append] at hsplit
  have hroot : (pathStr e.hRoot).length < pathMax ∧
      (if (pathStr e.hRoot).length ≠ 1 then (pathStr e.hRoot).length else 0) =
        (if e.hRoot = [] then [] else slashed e.hRoot).length := by
    by_cases hne : e.hRoot = []
    · rw [hne]
      exact ⟨by decide, rfl⟩
    · have h2 := two_le_length_slashed hr hne
      rw [if_neg hne] at hsplit ⊢
      rw [pathStr_of_ne hne, if_pos (by omega)]
      exact ⟨by omega, rfl⟩
  obtain ⟨b₁, hd₁, hs₁, ho₁, -⟩ := @dPath_ok ⟨e.mem, false⟩ pathMax e.hRoot hr (by omega)
  obtain ⟨b₂, hd₂, hs₂, ho₂, -⟩ := @dPath_ok b₁ pathMax (e.hRoot ++ path) hall (by omega)
  refine ⟨b₂, ?_, ?_, hs₂⟩
  · simp only [hiddenPath, hd₁, hd₂, PathBuf.strlen_eq hs₁ hroot.1]
    congr 2
    have := hroot.2
    split <;> split at this <;> omega
  · rw [ho₂ (Int.le_refl _), ho₁ (Int.le_refl _)]

-- ---------------------------------------------------------------------------
-- The name behind the tail
-- ---------------------------------------------------------------------------

/-- The tail is moved down by its own length and one, and as many bytes of the name follow. -/
theorem appendName_hit {hIno : Nat} {a : AppendName} {e : NameEnt} {t : List UInt8} (hino : e.ino = hIno)
    (hpath : a.hPath = (pathMax - 1 - t.length : Int)) (ht : IsStr a.buf.mem a.hPath t)
    (hlen : t.length < pathMax) (hout : a.buf.outside = false) :
    ∃ b, (appendName hIno a e).2 = ⟨b, pathMax - 2 * t.length - 2, t.length + 1 + e.name.length,
        a.found + 1, a.called + 1, a.bug || e.name == dot || e.name == dotdot⟩ ∧
      Holds b.mem (pathMax - 2 * t.length - 2 : Int) (t ++ 47 :: (e.bytes t.length ++ [0])) ∧
      (b.outside = false ↔ t = [] ∨ 2 * t.length + 2 ≤ pathMax) ∧
      ∀ j s, j + s.length ≤ (pathMax - 2 * t.length - 2 : Int) → Holds a.buf.mem j s → Holds b.mem j s := by
  have hstr : a.buf.strlen a.hPath = t.length := PathBuf.strlen_eq ht hlen
  have hload : load a.buf.mem a.hPath t.length = t := (holds_append.mp ht.1).1.load
  have hzero := (holds_append.mp ht.1).2
  -- the three addresses
  have h₁ : a.hPath - t.length - 1 = (pathMax - 2 * t.length - 2 : Int) := by omega
  have h₂ : a.hPath - (t.length + 1) = (pathMax - 2 * t.length - 2 : Int) := by omega
  refine ⟨((a.buf.write (pathMax - 2 * t.length - 2) t).write (pathMax - 2 * t.length - 2 + t.length) [47]).write
    (pathMax - 2 * t.length - 2 + t.length + 1) (e.bytes t.length), ?_, ?_, ?_, ?_⟩
  · rw [appendName, if_neg (fun h => h hino)]
    simp only [hstr, hload, h₁, h₂]
  · rw [holds_append, holds_cons, holds_append]
    refine ⟨?_, ?_, ?_, ?_⟩
    · refine ((holds_store _ _ _).store ?_).store ?_
      · exact Or.inr (Int.le_refl _)
      · exact Or.inr (by omega)
    · have := (holds_store (a.buf.write (pathMax - 2 * t.length - 2) t).mem
        (pathMax - 2 * t.length - 2 + t.length) [47]).store (i := pathMax - 2 * t.length - 2 + t.length + 1)
        (l := e.bytes t.length) (Or.inr (by simp only [List.length_singleton]; omega))
      exact (holds_cons.mp this).1
    · exact holds_store _ _ _
    · rw [NameEnt.length_bytes,
        show (pathMax - 2 * t.length - 2 + t.length + 1 + t.length : Int) = a.hPath + t.length by omega]
      refine ((hzero.store ?_).store ?_).store ?_
      all_goals
        simp only [List.length_singleton, NameEnt.length_bytes]
        omega
  · have hmax : 2 ≤ pathMax := by decide
    simp only [PathBuf.write_outside_iff, hout, true_and, NameEnt.length_bytes, List.length_singleton,
      ← List.length_eq_zero_iff]
    omega
  · intro j s hj hs
    refine ((hs.store (Or.inr hj)).store ?_).store ?_
    · exact Or.inr (by omega)
    · exact Or.inr (by omega)

-- ---------------------------------------------------------------------------
-- The assertions
-- ---------------------------------------------------------------------------

/-- The search finds the directory itself, or its parent. -/
def PathEnv.FindsDot (e : PathEnv) : Prop :=
  ∃ h, e.decodeFh = .ok (some h) ∧ h.anon = false ∧ e.getname = none ∧ e.dentryOpen = none ∧
    (∃ i b, hiddenPath e h.path = (.ok i, b)) ∧
    ∃ n, firstHit e.hIno e.calls = some n ∧ (n.name = dot ∨ n.name = dotdot)

theorem lookupName_bug {e : PathEnv} {i : Int} {b : PathBuf} :
    (lookupName e i b).bug = (readNames e.hIno e.calls ⟨b, i, e.len, 0, 0, false⟩).bug := by
  rcases hd : dPath (readNames e.hIno e.calls ⟨b, i, e.len, 0, 0, false⟩).buf
    (cInt (pathMax - (readNames e.hIno e.calls ⟨b, i, e.len, 0, 0, false⟩).len - 2)) e.root with ⟨_ | _, b'⟩
  · simp only [lookupName, hd]
  · simp only [lookupName, hd]

/-- The assertions of `append_name` fail exactly there. -/
theorem decodeByPath_bug_iff {e : PathEnv} : (decodeByPath e).bug = true ↔ e.FindsDot := by
  have hread : ∀ i b, (readNames e.hIno e.calls ⟨b, i, e.len, 0, 0, false⟩).bug = true ↔
      ∃ n, firstHit e.hIno e.calls = some n ∧ (n.name = dot ∨ n.name = dotdot) := by
    intro i b
    cases hn : firstHit e.hIno e.calls with
    | none =>
      obtain ⟨k, hk⟩ := @readNames_none e.hIno e.calls ⟨b, i, e.len, 0, 0, false⟩ hn
      simp [hk]
    | some n =>
      obtain ⟨k, hk, hino⟩ := @readNames_some e.hIno e.calls ⟨b, i, e.len, 0, 0, false⟩ n rfl hn
      simp [hk, appendName, hino]
  unfold PathEnv.FindsDot
  rcases hdec : e.decodeFh with err | _ | h
  · simp [decodeByPath, hdec]
  · simp [decodeByPath, hdec]
  cases hanon : h.anon with
  | true => simp [decodeByPath, hdec, hanon]
  | false =>
    cases hget : e.getname with
    | some err => simp [decodeByPath, hdec, hanon, hget]
    | none =>
      rcases hpath : hiddenPath e h.path with ⟨err | i, b⟩
      · simp [decodeByPath, hdec, hanon, hget, hpath]
      · cases hopen : e.dentryOpen with
        | some err => simp [decodeByPath, hdec, hanon, hget, hpath, hopen]
        | none => simp [decodeByPath, hdec, hanon, hget, hpath, hopen, lookupName_bug, hread]

-- ---------------------------------------------------------------------------
-- The string that is looked up
-- ---------------------------------------------------------------------------

/-- Where the path of the mount fits before `n`, the string begins with it and a slash, and goes on
with what stands at `n`. -/
theorem lookupName_ok {e : PathEnv} {b : PathBuf} {i n : Int} {a : AppendName}
    (ha : readNames e.hIno e.calls ⟨b, i, e.len, 0, 0, false⟩ = a) (hn : cInt (pathMax - a.len - 2) = n)
    (hroot : ∀ c ∈ e.root, PathName c) (hfit : (pathStr e.root).length + 1 ≤ n) (hle : n ≤ pathMax) :
    ∃ m j, (lookupName e i b).lookup = some (m, j) ∧ (lookupName e i b).outside = a.buf.outside ∧
      j + (pathStr e.root).length + 1 = n ∧ Holds m j (pathStr e.root ++ [47]) ∧
      ∀ k s, n ≤ k → Holds a.buf.mem k s → Holds m k s := by
  obtain ⟨b', hd, hs, ho, hrest⟩ := @dPath_ok a.buf n e.root hroot hfit
  have hlen : b'.strlen (n - 1 - (pathStr e.root).length) = (pathStr e.root).length :=
    PathBuf.strlen_eq hs (by omega)
  refine ⟨(b'.write (n - 1) [47]).mem, n - 1 - (pathStr e.root).length, ?_, ?_, by omega, ?_, ?_⟩
  · simp only [lookupName, ha, hn, hd, hlen, Int.sub_add_cancel]
  · simp only [lookupName, ha, hn, hd, hlen, Int.sub_add_cancel]
    rw [PathBuf.write_outside (by omega) (by simp only [List.length_singleton]; omega), ho hle]
  · rw [holds_append, Int.sub_add_cancel]
    exact ⟨(holds_append.mp hs.1).1.store (Or.inr (by omega)), holds_store _ _ _⟩
  · intro k s hk hh
    exact (hrest k s hk hh).store (Or.inl (by simp only [List.length_singleton]; omega))

/-- Where it does not fit, nothing is looked up. -/
theorem lookupName_error {e : PathEnv} {b : PathBuf} {i n : Int} {a : AppendName}
    (ha : readNames e.hIno e.calls ⟨b, i, e.len, 0, 0, false⟩ = a) (hn : cInt (pathMax - a.len - 2) = n)
    (hfit : n < (pathStr e.root).length + 1) :
    (lookupName e i b).lookup = none ∧ (lookupName e i b).res = .error .ENAMETOOLONG := by
  obtain ⟨b', hd⟩ := @dPath_error a.buf n e.root hfit
  simp only [lookupName, ha, hn, hd, and_self]

/-- What the copy brings behind the name, up to a zero. -/
def NameEnt.behind (e : NameEnt) (n : Nat) : List UInt8 :=
  ((List.range (n - e.name.length)).map e.rest).takeWhile (· ≠ 0)

/-- A call that gets to the search: the hidden parent is at a path below the root of the branch,
the calls before the search succeed, and the paths and the entry found have names. -/
structure PathEnv.Ready (e : PathEnv) (p : Path) : Prop where
  decodeFh : e.decodeFh = .ok (some ⟨false, e.hRoot ++ p⟩)
  getname : e.getname = none
  dentryOpen : e.dentryOpen = none
  root : ∀ c ∈ e.root, PathName c
  hRoot : ∀ c ∈ e.hRoot, PathName c
  path : ∀ c ∈ p, PathName c
  hidden : (pathStr (e.hRoot ++ p)).length < pathMax
  name : ∀ n, firstHit e.hIno e.calls = some n → PathName n.name ∧
    (pathStr (e.root ++ p ++ [n.name])).length < pathMax

/-- The string that is looked up is the path of the entry below the mount, in a buffer that holds
all that was written; without the entry nothing is looked up. -/
def PathEnv.Right (e : PathEnv) (p : Path) : Prop :=
  match firstHit e.hIno e.calls with
  | some n => ∃ m i, (decodeByPath e).lookup = some (m, i) ∧
      IsStr m i (pathStr (e.root ++ p ++ [n.name])) ∧ (decodeByPath e).outside = false
  | none => (decodeByPath e).lookup = none ∧ ∃ err, (decodeByPath e).res = .error err

/-- What the shifts need: a name shorter than the path of the parent, so that the end of that path
and the copy of the name meet at the slash after the mount and what is lost of the path comes back. -/
def PathEnv.Fits (e : PathEnv) (p : Path) : Prop :=
  match firstHit e.hIno e.calls with
  | some n => e.root ≠ [] ∧ n.name.length < (slashed p).length ∧ 2 * (slashed p).length + 2 ≤ pathMax ∧
      (slashed e.root).length + (slashed p).length + n.name.length + 4 ≤ pathMax ∧
      (slashed p).drop ((slashed p).length - n.name.length - 1) ++
        47 :: (n.name ++ n.behind (slashed p).length) = (slashed p ++ 47 :: n.name).tail
  | none => cInt (pathMax - e.len - 2) < (pathStr e.root).length + 1

/-- From within the tail on, the string is the rest of it, the name, and what the copy brings. -/
theorem NameEnt.isStr_bytes {m : Mem} {i : Int} {n : NameEnt} {t : List UInt8} (ht : 0 ∉ t)
    (hname : PathName n.name) (hlt : n.name.length < t.length)
    (h : Holds m i (t ++ 47 :: (n.bytes t.length ++ [0]))) :
    IsStr m (i + (t.length - n.name.length - 1 : Nat))
      (t.drop (t.length - n.name.length - 1) ++ 47 :: (n.name ++ n.behind t.length)) := by
  have hle : t.length - n.name.length - 1 ≤ t.length := by omega
  have hd := h.drop (n := t.length - n.name.length - 1) (by rw [List.length_append]; omega)
  rw [List.drop_append_of_le_length hle, holds_append, holds_cons, bytes,
    List.take_of_length_le (Nat.le_of_lt hlt), List.append_assoc, holds_append] at hd
  obtain ⟨h₁, h₂, h₃, h₄⟩ := hd
  rw [isStr_append fun hz => ht (List.mem_of_mem_drop hz)]
  refine ⟨h₁, ?_⟩
  rw [← List.singleton_append, isStr_append (by decide), isStr_append hname.2.2]
  exact ⟨holds_cons.mpr ⟨h₂, holds_nil _ _⟩, h₃, isStr_takeWhile h₄⟩

/-- The second byte of a path is in a name. -/
theorem slashed_second {p : Path} (hp : ∀ n ∈ p, PathName n) (hne : p ≠ []) :
    ∃ x t, slashed p = 47 :: x :: t ∧ x ≠ 47 := by
  obtain ⟨n, q, rfl⟩ := List.exists_cons_of_ne_nil hne
  obtain ⟨hn, h47, -⟩ := hp n List.mem_cons_self
  obtain ⟨x, t, rfl⟩ := List.exists_cons_of_ne_nil hn
  refine ⟨x, t ++ slashed q, rfl, fun hx => h47 ?_⟩
  rw [hx]
  exact List.mem_cons_self

namespace PathEnv

variable {e : PathEnv} {p : Path}

/-- A ready call searches with the tail of the hidden path at the end of the buffer. -/
theorem Ready.decode (h : e.Ready p) :
    ∃ b, decodeByPath e = lookupName e (pathMax - 1 - (hiddenTail e.hRoot p).length : Int) b ∧
      b.outside = false ∧
      IsStr b.mem (pathMax - 1 - (pathStr (e.hRoot ++ p)).length : Int) (pathStr (e.hRoot ++ p)) := by
  obtain ⟨b, hb, ho, hs⟩ := hiddenPath_ok h.hRoot h.path h.hidden
  refine ⟨b, ?_, ho, hs⟩
  simp only [decodeByPath, h.decodeFh, h.getname, h.dentryOpen, hb, Bool.false_eq_true, if_false]

/-- The tail as a string of its own. -/
theorem Ready.tail {m : Mem} (h : e.Ready p)
    (hs : IsStr m (pathMax - 1 - (pathStr (e.hRoot ++ p)).length : Int) (pathStr (e.hRoot ++ p))) :
    IsStr m (pathMax - 1 - (hiddenTail e.hRoot p).length : Int) (hiddenTail e.hRoot p) := by
  refine ⟨?_, zero_notMem_hiddenTail h.path⟩
  obtain ⟨hh, -⟩ := hs
  have hlen := congrArg List.length (pathStr_hidden e.hRoot p)
  rw [List.length_append] at hlen
  rw [pathStr_hidden, List.append_assoc, holds_append] at hh
  have := hh.2
  rwa [← pathStr_hidden, hlen, show ∀ a b : Nat, (pathMax - 1 - ((a + b : Nat) : Int) + a : Int) =
    pathMax - 1 - b by intro a b; omega] at this

theorem Ready.tail_lt (h : e.Ready p) : (hiddenTail e.hRoot p).length < pathMax := by
  have hlen := congrArg List.length (pathStr_hidden e.hRoot p)
  rw [List.length_append] at hlen
  have := h.hidden
  omega

/-- Without the entry, `d_path` is given what happens to stand in `arg.len`. -/
theorem Ready.right_of_none (h : e.Ready p) (hn : firstHit e.hIno e.calls = none) :
    e.Right p ↔ e.Fits p := by
  obtain ⟨b, hb, -, -⟩ := h.decode
  obtain ⟨k, hk⟩ := @readNames_none e.hIno e.calls
    ⟨b, pathMax - 1 - (hiddenTail e.hRoot p).length, e.len, 0, 0, false⟩ hn
  simp only [Right, Fits, hn, hb]
  constructor
  · rintro ⟨hl, -⟩
    by_contra hfit
    obtain ⟨b', hd, -⟩ := @dPath_ok b (cInt (pathMax - e.len - 2)) e.root h.root (by omega)
    simp only [lookupName, hk, hd] at hl
    cases hl
  · intro hfit
    obtain ⟨hl, hr⟩ := lookupName_error hk rfl hfit
    exact ⟨hl, _, hr⟩

/-- The buffer after the search has found the entry. -/
theorem Ready.hit (h : e.Ready p) {n : NameEnt} (hn : firstHit e.hIno e.calls = some n) :
    ∃ i b a, decodeByPath e = lookupName e i b ∧ readNames e.hIno e.calls ⟨b, i, e.len, 0, 0, false⟩ = a ∧
      a.len = (hiddenTail e.hRoot p).length + 1 + n.name.length ∧
      Holds a.buf.mem (pathMax - 2 * (hiddenTail e.hRoot p).length - 2 : Int)
        (hiddenTail e.hRoot p ++ 47 :: (n.bytes (hiddenTail e.hRoot p).length ++ [0])) ∧
      (a.buf.outside = false ↔
        hiddenTail e.hRoot p = [] ∨ 2 * (hiddenTail e.hRoot p).length + 2 ≤ pathMax) ∧
      (hiddenTail e.hRoot p = [] → a.buf.mem (pathMax - 3) ≠ 0) := by
  obtain ⟨b, hb, ho, hs⟩ := h.decode
  obtain ⟨k, hk, hino⟩ := @readNames_some e.hIno e.calls
    ⟨b, pathMax - 1 - (hiddenTail e.hRoot p).length, e.len, 0, 0, false⟩ n rfl hn
  obtain ⟨b', ha, hh, hout, hlow⟩ := @appendName_hit e.hIno
    ⟨b, pathMax - 1 - (hiddenTail e.hRoot p).length, e.len, 0, k, false⟩ n (hiddenTail e.hRoot p) hino rfl
    (h.tail hs) h.tail_lt ho
  refine ⟨_, b, _, hb, hk.trans ha, rfl, hh, hout, fun hnil => ?_⟩
  -- the last byte but one of the path of the root of the branch is still there
  have hp : p = [] := by
    by_contra hne
    rw [hiddenTail, if_neg hne] at hnil
    have := two_le_length_slashed h.path hne
    rw [hnil] at this
    cases this
  have hr : e.hRoot ≠ [] := by
    intro hr
    rw [hiddenTail, if_pos hp, if_pos hr] at hnil
    cases hnil
  subst hp
  rw [List.append_nil, pathStr_of_ne hr] at hs
  have h2 := two_le_length_slashed h.hRoot hr
  have hb0 := (holds_append.mp hs.1).1 ((slashed e.hRoot).length - 2) (by omega)
  rw [show (pathMax - 1 - ((slashed e.hRoot).length : Int) + ((slashed e.hRoot).length - 2 : Nat) : Int) =
    pathMax - 3 by omega] at hb0
  have hb1 := hlow (pathMax - 3) [b.mem (pathMax - 3)]
    (by rw [hnil, List.length_singleton, List.length_nil]; omega) (holds_cons.mpr ⟨rfl, holds_nil _ _⟩)
  rw [(holds_cons.mp hb1).1, hb0]
  intro hz
  exact hs.2 (hz ▸ List.getElem_mem _)

/-- A name that is not shorter than the path: where the string should end stands a byte of the
name, or of the path. -/
theorem Ready.hit_ne_zero (h : e.Ready p) {n : NameEnt} {m : Mem} (hname : PathName n.name)
    (hlt : ¬n.name.length < (slashed p).length)
    (hh : Holds m (pathMax - 2 * (hiddenTail e.hRoot p).length - 2 : Int)
      (hiddenTail e.hRoot p ++ 47 :: (n.bytes (hiddenTail e.hRoot p).length ++ [0])))
    (hnil : hiddenTail e.hRoot p = [] → m (pathMax - 3) ≠ 0) :
    m (pathMax - 3 + (slashed p).length - (hiddenTail e.hRoot p).length) ≠ 0 := by
  by_cases hp : p = []
  · subst hp
    by_cases hr : e.hRoot = []
    · have ht : hiddenTail e.hRoot [] = [47] := by rw [hiddenTail, if_pos rfl, if_pos hr]
      rw [ht, List.singleton_append, holds_cons] at hh
      rw [ht]
      have h47 : m (pathMax - 4) = 47 := hh.1
      exact fun hz => absurd (h47.symm.trans hz) (by decide)
    · have ht : hiddenTail e.hRoot [] = [] := by rw [hiddenTail, if_pos rfl, if_neg hr]
      rw [ht]
      exact hnil ht
  · have ht : hiddenTail e.hRoot p = slashed p := by rw [hiddenTail, if_neg hp]
    have h2 := two_le_length_slashed h.path hp
    rw [ht] at hh ⊢
    obtain ⟨-, hh⟩ := holds_append.mp hh
    obtain ⟨-, hh⟩ := holds_cons.mp hh
    rw [NameEnt.bytes, Nat.sub_eq_zero_of_le (Nat.not_lt.mp hlt), List.range_zero, List.map_nil,
      List.append_nil, holds_append] at hh
    have hb := hh.1 ((slashed p).length - 2) (by rw [List.length_take]; omega)
    rw [show (pathMax - 2 * (slashed p).length - 2 + (slashed p).length + 1 +
      ((slashed p).length - 2 : Nat) : Int) = pathMax - 3 + (slashed p).length - (slashed p).length by omega,
      List.getElem_take] at hb
    rw [hb]
    intro hz
    exact hname.2.2 (hz ▸ List.getElem_mem _)

/-- With the entry, the string is right where the shifts fit. -/
theorem Ready.right_of_some (h : e.Ready p) {n : NameEnt} (hn : firstHit e.hIno e.calls = some n) :
    e.Right p ↔ e.Fits p := by
  obtain ⟨hname, htotal⟩ := h.name n hn
  obtain ⟨i, b, a, hb, ha, hlen, hh, hout, hnil⟩ := h.hit hn
  have hstr : pathStr (e.root ++ p ++ [n.name]) = slashed e.root ++ (slashed p ++ 47 :: n.name) := by
    rw [pathStr_of_ne (List.append_ne_nil_of_right_ne_nil _ (List.cons_ne_nil _ _)), slashed_append,
      slashed_append, slashed_singleton, List.append_assoc]
  rw [hstr] at htotal
  simp only [List.length_append, List.length_cons] at htotal
  have htl := h.tail_lt
  have hmax : pathMax = 4096 := rfl
  have hbuf : cInt (pathMax - a.len - 2) =
      pathMax - 3 - (hiddenTail e.hRoot p).length - n.name.length := by
    rw [cInt_eq (by omega) (by omega)]
    omega
  simp only [Right, Fits, hn, hb, hstr]
  -- the string begins with a slash, and the rest of it is the same whatever the mount is
  obtain ⟨t, ht⟩ : ∃ t, slashed p ++ 47 :: n.name = 47 :: t := by
    by_cases hp : p = []
    · exact ⟨n.name, by rw [hp]; rfl⟩
    · obtain ⟨t, ht⟩ := slashed_ne_nil hp
      exact ⟨t ++ 47 :: n.name, by rw [ht]; rfl⟩
  have htlen := congrArg List.length ht
  simp only [List.length_append, List.length_cons] at htlen
  constructor
  · rintro ⟨m, j, hl, hs, ho⟩
    -- the path of the mount fits
    have hfit : (pathStr e.root).length + 1 ≤
        (pathMax - 3 - (hiddenTail e.hRoot p).length - n.name.length : Int) := by
      by_contra hfit
      rw [(lookupName_error ha hbuf (by omega)).1] at hl
      cases hl
    obtain ⟨m', j', hl', ho', hj, hpre, hrest⟩ := lookupName_ok ha hbuf h.root hfit (by omega)
    rw [hl'] at hl
    obtain ⟨rfl, rfl⟩ := Prod.mk.inj (Option.some.inj hl)
    -- a mount at the root of the namespace gives two slashes
    have hroot : e.root ≠ [] := by
      intro hr
      obtain ⟨x, u, hx, hne⟩ := @slashed_second (p ++ [n.name])
        (fun c hc => (List.mem_append.mp hc).elim (h.path c) fun hc => List.mem_singleton.mp hc ▸ hname)
        (List.append_ne_nil_of_right_ne_nil _ (List.cons_ne_nil _ _))
      rw [slashed_append, slashed_singleton] at hx
      rw [hr, hx] at hs
      rw [hr] at hpre
      have h₁ := (holds_cons.mp (holds_cons.mp hs.1).2).1
      have h₂ := (holds_cons.mp (holds_cons.mp hpre).2).1
      exact hne (h₁.symm.trans h₂)
    rw [ht, isStr_append (zero_notMem_slashed h.root), ← List.singleton_append,
      isStr_append (by decide)] at hs
    rw [pathStr_of_ne hroot] at hj hfit
    have hs := hs.2.2
    rw [List.length_singleton, show ((1 : Nat) : Int) = 1 from rfl, hj] at hs
    have hlt : n.name.length < (slashed p).length := by
      by_contra hlt
      have hz := (holds_cons.mp (holds_append.mp hs.1).2).1
      have hb := hrest (pathMax - 3 + (slashed p).length - (hiddenTail e.hRoot p).length)
        [a.buf.mem (pathMax - 3 + (slashed p).length - (hiddenTail e.hRoot p).length)] (by omega)
        (holds_cons.mpr ⟨rfl, holds_nil _ _⟩)
      have hb := (holds_cons.mp hb).1
      rw [show (pathMax - 3 - ((hiddenTail e.hRoot p).length : Int) - n.name.length + t.length : Int) =
        pathMax - 3 + (slashed p).length - (hiddenTail e.hRoot p).length by omega, hb] at hz
      exact h.hit_ne_zero hname hlt hh hnil hz
    have htail : hiddenTail e.hRoot p = slashed p := by
      rw [hiddenTail, if_neg]
      rintro rfl
      exact absurd hlt (Nat.not_lt_zero _)
    rw [htail] at hh hout hfit hs hrest
    refine ⟨hroot, hlt, ?_, by omega, ?_⟩
    · rcases hout.mp (ho'.symm.trans ho) with hz | hle
      · rw [hz] at hlt
        exact absurd hlt (Nat.not_lt_zero _)
      · exact hle
    · have hb' := NameEnt.isStr_bytes (zero_notMem_slashed h.path) hname hlt hh
      have hb := hrest _ _ (by omega) hb'.1
      have hx : IsStr m' (pathMax - 3 - (slashed p).length - n.name.length) _ :=
        ⟨by rwa [show (pathMax - 2 * ((slashed p).length : Int) - 2 +
          ((slashed p).length - n.name.length - 1 : Nat) : Int) =
          pathMax - 3 - (slashed p).length - n.name.length by omega] at hb, hb'.2⟩
      rw [ht, List.tail_cons]
      exact hx.unique hs
  · rintro ⟨hroot, hlt, hbound, hsum, heq⟩
    have htail : hiddenTail e.hRoot p = slashed p := by
      rw [hiddenTail, if_neg]
      rintro rfl
      exact absurd hlt (Nat.not_lt_zero _)
    rw [htail] at hh hout hbuf
    obtain ⟨m, j, hl, ho, hj, hpre, hrest⟩ := lookupName_ok ha hbuf h.root
      (by rw [pathStr_of_ne hroot]; omega) (by omega)
    refine ⟨m, j, hl, ?_, ho.trans (hout.mpr (Or.inr hbound))⟩
    have hb' := NameEnt.isStr_bytes (zero_notMem_slashed h.path) hname hlt hh
    have hb := hrest _ _ (by omega) hb'.1
    rw [pathStr_of_ne hroot] at hj hpre
    obtain ⟨h₁, h₂⟩ := holds_append.mp hpre
    rw [ht, isStr_append (zero_notMem_slashed h.root), ← List.singleton_append,
      isStr_append (by decide), List.length_singleton, show ((1 : Nat) : Int) = 1 from rfl, hj]
    refine ⟨h₁, h₂, ?_⟩
    rw [ht, List.tail_cons] at heq
    rw [← heq]
    exact ⟨by rwa [show (pathMax - 2 * ((slashed p).length : Int) - 2 +
      ((slashed p).length - n.name.length - 1 : Nat) : Int) =
      pathMax - 3 - (slashed p).length - n.name.length by omega] at hb, hb'.2⟩

end PathEnv

/-- `decode_by_path` looks up the right path, within its buffer, exactly where the mount is not at
the root, the name is shorter than the hidden path, twice that path and all three parts with what
the shifts waste have room, and the copy of the name by the length of the path makes the string whole;
without the entry it looks nothing up exactly where what stands in `arg.len` leaves too little
room for the path of the mount. -/
theorem decodeByPath_right_iff {e : PathEnv} {p : Path} (h : e.Ready p) : e.Right p ↔ e.Fits p := by
  cases hn : firstHit e.hIno e.calls with
  | none => exact h.right_of_none hn
  | some n => exact h.right_of_some hn

/-- One entry in the directory `path` of the branch at `/br`, below the mount at `/mnt`. -/
def deepFile (hIno : Nat) (path : Path) (name : Name) : PathEnv where
  root := [[109, 110, 116]]
  hRoot := [[98, 114]]
  hIno := hIno
  decodeFh := .ok (some ⟨false, [[98, 114]] ++ path⟩)
  getname := none
  dentryOpen := none
  calls := [⟨[⟨name, 7, fun _ => 0⟩], none⟩]
  pathLookup := .error .ENOENT
  mem := fun _ => 0
  len := 0

/-- The calls below are ready. -/
theorem deepFile_ready {hIno : Nat} {path : Path} {name : Name} (hp : ∀ c ∈ path, PathName c)
    (hname : PathName name) (hlen : (slashed path).length + name.length ≤ 100) :
    (deepFile hIno path name).Ready path := by
  have hmnt : PathName [109, 110, 116] := by decide
  have hbr : PathName [98, 114] := by decide
  have hmax : pathMax = 4096 := rfl
  refine ⟨rfl, rfl, rfl, ?_, ?_, hp, ?_, ?_⟩
  · exact fun c hc => List.mem_singleton.mp hc ▸ hmnt
  · exact fun c hc => List.mem_singleton.mp hc ▸ hbr
  · have : pathStr ([[98, 114]] ++ path) = slashed [[98, 114]] ++ slashed path := by
      rw [pathStr_of_ne (List.append_ne_nil_of_left_ne_nil (List.cons_ne_nil _ _) _), slashed_append]
    rw [show (deepFile hIno path name).hRoot = [[98, 114]] from rfl, this, List.length_append,
      show (slashed [[98, 114]]).length = 3 from rfl]
    omega
  · intro n hn
    have hname' : n.name = name := by
      by_cases hi : 7 = hIno
      · simp only [deepFile, firstHit, hi, List.find?_cons, decide_true] at hn
        exact Option.some.inj hn ▸ rfl
      · simp only [deepFile, firstHit, hi, List.find?_cons, decide_false, List.find?_nil] at hn
        split at hn <;> cases hn
    rw [hname']
    refine ⟨hname, ?_⟩
    have : pathStr ([[109, 110, 116]] ++ path ++ [name]) =
        slashed [[109, 110, 116]] ++ slashed path ++ (47 :: name) := by
      rw [pathStr_of_ne (List.append_ne_nil_of_right_ne_nil _ (List.cons_ne_nil _ _)), slashed_append,
        slashed_append, slashed_singleton name]
    rw [show (deepFile hIno path name).root = [[109, 110, 116]] from rfl, this, List.length_append,
      List.length_append, List.length_cons, show (slashed [[109, 110, 116]]).length = 4 from rfl]
    omega

/-- The name `abc` in the directory `/dirs`, one byte longer: the shifts fit. -/
theorem decodeByPath_right_dirs :
    (deepFile 7 [[100, 105, 114, 115]] [97, 98, 99]).Right [[100, 105, 114, 115]] :=
  (decodeByPath_right_iff (deepFile_ready (by decide) (by decide)
    (by decide))).mpr ⟨by decide, by decide, by decide, by decide, by decide⟩

/-- The name `file` in the directory `/d`: another string is looked up. And a number that the
directory does not hold: a string is looked up all the same. -/
theorem decodeByPath_wrong_d :
    ((deepFile 7 [[100]] [102, 105, 108, 101]).Ready [[100]] ∧
      ¬(deepFile 7 [[100]] [102, 105, 108, 101]).Right [[100]]) ∧
    (deepFile 8 [[100]] [102, 105, 108, 101]).Ready [[100]] ∧
      ¬(deepFile 8 [[100]] [102, 105, 108, 101]).Right [[100]] := by
  have h : ∀ i, (deepFile i [[100]] [102, 105, 108, 101]).Ready [[100]] := fun i =>
    deepFile_ready (by decide) (by decide) (by decide)
  refine ⟨⟨h 7, ?_⟩, h 8, ?_⟩
  · rw [(h 7).right_of_some rfl]
    rintro ⟨-, hlt, -⟩
    exact absurd hlt (by decide)
  · rw [(h 8).right_of_none rfl]
    intro hfit
    have : ¬cInt (pathMax - 0 - 2) < ((pathStr [[109, 110, 116]]).length + 1 : Int) := by
      rw [cInt_eq (by decide) (by decide)]
      decide
    exact this hfit

end Aufs
