-- SUMMARY: The file systems below aufs: trees of inodes, the VFS calls aufs makes on them, and a world in which each call may fail.
import Mathlib.Data.List.Infix
import Mathlib.Data.List.Nodup
import Aufs.Basic

/-!
# The lower file systems

A branch is a directory of some other file system. `LowerFs` is such a file
system as aufs sees it: the inodes by path, closed under parents. The calls of
`vfsub.h` are total functions that answer with an error number or with the new
tree; they check what the VFS checks before it changes anything.
-/

namespace Aufs

/-- An inode of a lower file system. `data` stands for the content and the
attributes a copy-up carries over. -/
structure HInode where
  mode : FType
  ino : Nat
  data : Nat
  immutable : Bool
  deriving DecidableEq, Repr

/-- Is it a directory inode? -/
def HInode.isDir (i : HInode) : Bool := i.mode = .dir

-- ---------------------------------------------------------------------------
-- Trees of inodes
-- ---------------------------------------------------------------------------

/-- The inodes of a tree with their paths. -/
abbrev Ents := List (Path × HInode)

namespace Ents

/-- The inode at a path, `NULL` when the name does not exist. -/
def node (es : Ents) (p : Path) : Option HInode := es.lookup p

/-- Is there a directory at `p`? -/
def isDir (es : Ents) (p : Path) : Bool := (es.node p).any HInode.isDir

/-- Every inode but the root is in a directory. -/
def Closed (es : Ents) : Prop :=
  es.isDir [] ∧ ∀ e ∈ es, e.1 = [] ∨ es.isDir e.1.dropLast

instance (es : Ents) : Decidable es.Closed := inferInstanceAs (Decidable (_ ∧ _))

/-- The path of an inode after a rename of `s` to `t`. -/
def movePath (s t k : Path) : Path := if s <+: k then t ++ k.drop s.length else k

/-- Rename `s` to `t`, replacing what was at `t`. -/
def move (es : Ents) (s t : Path) : Ents :=
  (es.filter fun e => ¬ t <+: e.1).map fun e => (movePath s t e.1, e.2)

/-- The names in a directory, in the order in which it delivers them. -/
def children (es : Ents) (p : Path) : List Name :=
  es.filterMap fun e => if e.1 ≠ [] ∧ e.1.dropLast = p then e.1.getLast? else none

theorem node_cons (k : Path) (i : HInode) (es : Ents) (p : Path) :
    node ((k, i) :: es) p = if p = k then some i else es.node p := by
  by_cases h : p = k
  · simp [node, h]
  · have hb : (p == k) = false := by simpa using h
    simp [node, List.lookup_cons, hb, h]

theorem node_filter (es : Ents) (f : Path → Bool) (p : Path) :
    node (es.filter fun e => f e.1) p = if f p then es.node p else none := by
  induction es with
  | nil => simp [node]
  | cons e es ih =>
      obtain ⟨k, i⟩ := e
      by_cases hk : f k
      · rw [List.filter_cons_of_pos (by simpa using hk), node_cons, node_cons, ih]
        by_cases hp : p = k
        · simp [hp, hk]
        · simp [hp]
      · rw [List.filter_cons_of_neg (by simpa using hk), node_cons, ih]
        by_cases hp : p = k
        · simp [hp, hk]
        · simp [hp]

theorem node_isSome {es : Ents} {p : Path} : (es.node p).isSome ↔ ∃ i, (p, i) ∈ es := by
  induction es with
  | nil => simp [node]
  | cons e es ih =>
      obtain ⟨k, i⟩ := e
      rw [node_cons]
      by_cases h : p = k
      · simp only [h, if_true, Option.isSome_some, true_iff]
        exact ⟨i, List.mem_cons_self⟩
      · simp [h, ih]

theorem mem_of_node {es : Ents} {p : Path} {i : HInode} (h : es.node p = some i) :
    ∃ j, (p, j) ∈ es :=
  node_isSome.mp (by simp [h])

/-- Closure, read at the level of paths: what holds a name is a directory. -/
theorem Closed.isDir_of_child {es : Ents} (hc : es.Closed) {p : Path} {n : Name}
    (h : (es.node (p ++ [n])).isSome) : es.isDir p := by
  obtain ⟨i, hi⟩ := node_isSome.mp h
  simpa using hc.2 _ hi

theorem Closed.of_children {es : Ents} (hr : es.isDir [])
    (hc : ∀ p n, (es.node (p ++ [n])).isSome → es.isDir p) : es.Closed := by
  refine ⟨hr, fun e he => ?_⟩
  rcases List.eq_nil_or_concat e.1 with h | ⟨p, n, h⟩
  · exact .inl h
  · refine .inr ?_
    have hn : (es.node (p ++ [n])).isSome := node_isSome.mpr ⟨e.2, by
      rw [← List.concat_eq_append, ← h]; exact he⟩
    simpa [h] using hc p n hn

/-- Below a name that does not exist there is nothing. -/
theorem Closed.node_append_none {es : Ents} (hc : es.Closed) {p : Path} (h : es.node p = none)
    (q : Path) : es.node (p ++ q) = none := by
  induction q using List.reverseRecOn with
  | nil => simpa using h
  | append_singleton q n ih =>
      by_contra hne
      have := hc.isDir_of_child (p := p ++ q) (n := n) (by
        rw [List.append_assoc]; exact Option.isSome_iff_ne_none.mpr hne)
      simp [isDir, ih] at this

/-- Below an inode that is no directory there is nothing. -/
theorem Closed.node_append_of_not_isDir {es : Ents} (hc : es.Closed) {p : Path}
    (h : es.isDir p = false) {q : Path} (hq : q ≠ []) : es.node (p ++ q) = none := by
  obtain ⟨n, q, rfl⟩ := List.exists_cons_of_ne_nil hq
  have hn : es.node (p ++ [n]) = none := by
    by_contra hne
    have := hc.isDir_of_child (Option.isSome_iff_ne_none.mpr hne)
    simp [h] at this
  simpa using hc.node_append_none hn q

theorem mem_children {es : Ents} {p : Path} {n : Name} :
    n ∈ es.children p ↔ (es.node (p ++ [n])).isSome := by
  rw [node_isSome]
  simp only [children, List.mem_filterMap]
  constructor
  · rintro ⟨⟨k, i⟩, hmem, h⟩
    split at h
    · rename_i hk
      refine ⟨i, ?_⟩
      have hlast : k.getLast hk.1 = n := by
        simpa [List.getLast?_eq_getLast_of_ne_nil hk.1] using h
      have hsplit : p ++ [n] = k := by
        rw [← hk.2, ← hlast]
        exact List.dropLast_append_getLast hk.1
      rw [hsplit]
      exact hmem
    · simp at h
  · rintro ⟨i, hmem⟩
    exact ⟨(p ++ [n], i), hmem, by simp⟩

theorem node_of_children_nil {es : Ents} {p : Path} (h : es.children p = []) (n : Name) :
    es.node (p ++ [n]) = none := by
  have : n ∉ es.children p := by simp [h]
  simpa [mem_children] using this

theorem children_nodup {es : Ents} (h : (es.map Prod.fst).Nodup) (p : Path) :
    (es.children p).Nodup := by
  induction es with
  | nil => exact List.nodup_nil
  | cons e es ih =>
      rw [List.map_cons, List.nodup_cons] at h
      have ih := ih h.2
      unfold children at ih ⊢
      rw [List.filterMap_cons]
      split
      · exact ih
      · rename_i n hn
        refine List.nodup_cons.mpr ⟨fun hm => h.1 ?_, ih⟩
        -- both entries have the path `p ++ [n]`
        have hpath : ∀ e' : Path × HInode,
            (if e'.1 ≠ [] ∧ e'.1.dropLast = p then e'.1.getLast? else none) = some n → e'.1 = p ++ [n] := by
          intro e' he'
          split at he'
          · rename_i hk
            rw [← hk.2]
            exact (List.dropLast_append_getLast? n he').symm
          · simp at he'
        obtain ⟨e', he', hn'⟩ := List.mem_filterMap.mp hm
        exact List.mem_map.mpr ⟨e', he', (hpath e' hn').trans (hpath e hn).symm⟩

-- ---------------------------------------------------------------------------
-- Renaming a subtree
-- ---------------------------------------------------------------------------

theorem not_prefix_append {s t q : Path} (hst : ¬ s <+: t) (hts : ¬ t <+: s) : ¬ t <+: s ++ q := by
  intro h
  rcases List.prefix_or_prefix_of_prefix h (List.prefix_append s q) with h' | h'
  · exact hts h'
  · exact hst h'

private theorem movePath_eq_iff {s t k q : Path} (hk : ¬ t <+: k) :
    movePath s t k = q ↔
      (t <+: q ∧ k = s ++ q.drop t.length) ∨ (¬ t <+: q ∧ ¬ s <+: q ∧ k = q) := by
  unfold movePath
  split
  · rename_i hs
    obtain ⟨r, rfl⟩ := hs
    simp only [List.drop_left]
    constructor
    · rintro rfl
      exact .inl ⟨List.prefix_append _ _, by simp⟩
    · rintro (⟨⟨u, rfl⟩, h⟩ | ⟨_, h, rfl⟩)
      · simpa using h
      · exact absurd (List.prefix_append _ _) h
  · rename_i hs
    constructor
    · rintro rfl
      exact .inr ⟨hk, hs, rfl⟩
    · rintro (⟨_, h⟩ | ⟨_, _, h⟩)
      · exact absurd (h ▸ List.prefix_append _ _) hs
      · exact h

/-- After the rename, `t` holds what was below `s`, `s` holds nothing, and the
rest of the tree is as before. -/
theorem node_move {es : Ents} {s t : Path} (hst : ¬ s <+: t) (hts : ¬ t <+: s) (q : Path) :
    (es.move s t).node q =
      if t <+: q then es.node (s ++ q.drop t.length) else if s <+: q then none else es.node q := by
  have key : ∀ l : Ents, (∀ e ∈ l, ¬ t <+: e.1) →
      node (l.map fun e => (movePath s t e.1, e.2)) q =
        if t <+: q then l.node (s ++ q.drop t.length)
        else if s <+: q then none else l.node q := by
    intro l
    induction l with
    | nil => simp [node]
    | cons e l ih =>
        intro hl
        have hiff := movePath_eq_iff (s := s) (q := q) (hl e List.mem_cons_self)
        have ih' := ih fun e he => hl e (List.mem_cons_of_mem _ he)
        rw [List.map_cons, node_cons, ih', show e = (e.1, e.2) from rfl, node_cons, node_cons]
        by_cases ht : t <+: q
        · simp only [ht, true_and, not_true_eq_false, false_and, or_false, if_true] at hiff ⊢
          simp only [eq_comm (a := q), hiff, eq_comm (a := s ++ q.drop t.length)]
        · by_cases hs : s <+: q
          · simp only [ht, hs, false_and, not_true_eq_false, and_false, or_false,
              if_true, if_false] at hiff ⊢
            simp only [eq_comm (a := q), hiff, if_false]
          · simp only [ht, hs, false_and, not_false_eq_true, true_and, false_or, if_false] at hiff ⊢
            simp only [eq_comm (a := q), hiff]
  have hfil : ∀ e ∈ es.filter (fun e => ¬ t <+: e.1), ¬ t <+: e.1 := by
    intro e he
    simpa using (List.mem_filter.mp he).2
  rw [move, key _ hfil]
  have hnode : ∀ r, ¬ t <+: r → node (es.filter fun e => ¬ t <+: e.1) r = es.node r := by
    intro r hr
    have := node_filter es (fun k => decide (¬ t <+: k)) r
    simpa [hr] using this
  by_cases ht : t <+: q
  · simp only [ht, if_true]
    exact hnode _ (not_prefix_append hst hts)
  · simp only [ht, if_false]
    rw [hnode _ ht]

-- ---------------------------------------------------------------------------
-- Well-formed trees
-- ---------------------------------------------------------------------------

/-- Every name is a file name, occurs once and is in a directory, and every inode
number was given out. -/
structure Wf (es : Ents) (nextIno : Nat) : Prop where
  closed : es.Closed
  nodup : (es.map Prod.fst).Nodup
  fresh : ∀ e ∈ es, e.2.ino < nextIno
  names : ∀ e ∈ es, ∀ n ∈ e.1, validName n

/-- The tree without the name `p`. -/
def del (es : Ents) (p : Path) : Ents := es.filter fun e => e.1 ≠ p

theorem node_del {es : Ents} {p q : Path} :
    (es.del p).node q = if q = p then none else es.node q := by
  have := node_filter es (fun k => decide (k ≠ p)) q
  simp only [del, this, decide_eq_true_eq]
  by_cases h : q = p <;> simp [h]

theorem isDir_iff {es : Ents} {p : Path} : es.isDir p = true ↔ ∃ i, es.node p = some i ∧ i.mode = .dir := by
  simp [isDir, HInode.isDir, Option.any_eq_true]

theorem mem_of_node_nodup {es : Ents} (h : (es.map Prod.fst).Nodup) {p : Path} {i : HInode} :
    es.node p = some i ↔ (p, i) ∈ es := by
  induction es with
  | nil => simp [node]
  | cons e es ih =>
      obtain ⟨k, j⟩ := e
      rw [List.map_cons, List.nodup_cons] at h
      rw [node_cons, List.mem_cons]
      by_cases hp : p = k
      · subst hp
        have : (p, i) ∉ es := fun hm => h.1 (List.mem_map.mpr ⟨_, hm, rfl⟩)
        simp [this, eq_comm]
      · simp [hp, ih h.2]

theorem Wf.add {es : Ents} {n m : Nat} (h : es.Wf n) {p : Path} {i : HInode} {q : Path} {k : Name}
    (hp : p = q ++ [k]) (hnone : es.node p = none) (hdir : es.isDir q) (hle : n ≤ m)
    (hi : i.ino < m) (hk : validName k) : Wf ((p, i) :: es) m where
  closed := by
    have hne : ∀ r, es.isDir r → isDir ((p, i) :: es) r := by
      intro r hr
      obtain ⟨j, hj, hmode⟩ := isDir_iff.mp hr
      refine isDir_iff.mpr ⟨j, ?_, hmode⟩
      rw [node_cons, if_neg, hj]
      rintro rfl
      simp [hnone] at hj
    refine ⟨hne [] h.closed.1, fun e he => ?_⟩
    rcases List.mem_cons.mp he with rfl | he
    · exact .inr (hne _ (by simpa [hp] using hdir))
    · exact (h.closed.2 e he).imp_right (hne _)
  nodup := by
    rw [List.map_cons, List.nodup_cons]
    refine ⟨fun hm => ?_, h.nodup⟩
    obtain ⟨⟨k, j⟩, hj, rfl⟩ := List.mem_map.mp hm
    have := node_isSome.mpr ⟨j, hj⟩
    simp [hnone] at this
  fresh := by
    intro e he
    rcases List.mem_cons.mp he with rfl | he
    · exact hi
    · exact (h.fresh e he).trans_le hle
  names := by
    intro e he x hx
    rcases List.mem_cons.mp he with rfl | he
    · obtain ⟨j, hj, -⟩ := isDir_iff.mp hdir
      obtain ⟨j', hj'⟩ := mem_of_node hj
      simp only [hp, List.mem_append, List.mem_singleton] at hx
      rcases hx with hx | rfl
      · exact h.names _ hj' x hx
      · exact hk
    · exact h.names e he x hx

theorem Wf.del {es : Ents} {n : Nat} (h : es.Wf n) {p : Path} (hp : p ≠ [])
    (hempty : ∀ k, es.node (p ++ [k]) = none) : (es.del p).Wf n where
  closed := by
    refine Closed.of_children ?_ fun q k hk => ?_
    · obtain ⟨i, hi, hmode⟩ := isDir_iff.mp h.closed.1
      exact isDir_iff.mpr ⟨i, by rw [node_del, if_neg (Ne.symm hp), hi], hmode⟩
    · rw [node_del] at hk
      split at hk
      · simp at hk
      · have hq : q ≠ p := by
          rintro rfl
          simp [hempty] at hk
        obtain ⟨i, hi, hmode⟩ := isDir_iff.mp (h.closed.isDir_of_child hk)
        exact isDir_iff.mpr ⟨i, by rw [node_del, if_neg hq, hi], hmode⟩
  nodup := h.nodup.sublist (List.filter_sublist.map _)
  fresh := fun e he => h.fresh e (List.mem_filter.mp he).1
  names := fun e he => h.names e (List.mem_filter.mp he).1

theorem Wf.move {es : Ents} {n : Nat} (h : es.Wf n) {s t : Path} (hst : ¬ s <+: t) (hts : ¬ t <+: s)
    (hdir : es.isDir t.dropLast) (hname : ∀ k ∈ t, validName k) : (es.move s t).Wf n where
  closed := by
    have htne : t ≠ [] := fun he => hts (he ▸ List.nil_prefix)
    have hsne : s ≠ [] := fun he => hst (he ▸ List.nil_prefix)
    -- a directory that is not below `s` or `t` stays
    have hstay : ∀ q, es.isDir q → ¬ t <+: q → ¬ s <+: q → (es.move s t).isDir q := by
      intro q hq h1 h2
      simpa [isDir, node_move hst hts, h1, h2] using hq
    refine Closed.of_children (hstay [] h.closed.1 (by simpa using htne) (by simpa using hsne)) ?_
    intro q k hk
    rw [node_move hst hts] at hk
    by_cases hq : t <+: q
    · -- below the new name
      obtain ⟨r, rfl⟩ := hq
      have hpre : t <+: t ++ r ++ [k] := ⟨r ++ [k], by simp⟩
      rw [if_pos hpre] at hk
      have hk' : (es.node (s ++ r ++ [k])).isSome := by simpa using hk
      simpa [isDir, node_move hst hts] using h.closed.isDir_of_child hk'
    · by_cases hqk : t <+: q ++ [k]
      · have hqt : t = q ++ [k] := (List.prefix_concat_iff.mp hqk).resolve_right hq
        have hsq : ¬ s <+: q := fun hp => hst (hqt ▸ hp.trans (List.prefix_append q [k]))
        exact hstay q (by simpa [hqt] using hdir) hq hsq
      · rw [if_neg hqk] at hk
        split at hk
        · simp at hk
        · rename_i hsk
          have hsq : ¬ s <+: q := fun hp => hsk (hp.trans (List.prefix_append q [k]))
          exact hstay q (h.closed.isDir_of_child hk) hq hsq
  nodup := by
    have hfil : ((es.filter fun e => ¬ t <+: e.1).map Prod.fst).Nodup :=
      h.nodup.sublist (List.filter_sublist.map _)
    have heq : (es.move s t).map Prod.fst =
        ((es.filter fun e => ¬ t <+: e.1).map Prod.fst).map (movePath s t) := by
      simp [Ents.move, Function.comp_def]
    rw [heq]
    refine List.Nodup.map_on (fun a ha b hb hab => ?_) hfil
    have hnot : ∀ c ∈ (es.filter fun e => ¬ t <+: e.1).map Prod.fst, ¬ t <+: c := by
      intro c hc
      obtain ⟨e, he, rfl⟩ := List.mem_map.mp hc
      simpa using (List.mem_filter.mp he).2
    rcases (movePath_eq_iff (s := s) (hnot a ha)).mp hab with ⟨h1, h2⟩ | ⟨h1, h2, h3⟩
    · rcases (movePath_eq_iff (s := s) (hnot b hb)).mp rfl with ⟨_, h4⟩ | ⟨h4, _⟩
      · exact h2.trans h4.symm
      · exact absurd h1 h4
    · rcases (movePath_eq_iff (s := s) (hnot b hb)).mp rfl with ⟨h4, _⟩ | ⟨_, _, h4⟩
      · exact absurd h4 h1
      · rw [h3, ← h4]
  fresh := by
    intro e he
    obtain ⟨e', he', rfl⟩ := List.mem_map.mp he
    exact h.fresh e' (List.mem_filter.mp he').1
  names := by
    intro e he x hx
    obtain ⟨e', he', rfl⟩ := List.mem_map.mp he
    have hn := h.names e' (List.mem_filter.mp he').1
    simp only [movePath] at hx
    split at hx
    · rcases List.mem_append.mp hx with hx | hx
      · exact hname x hx
      · exact hn x (List.mem_of_mem_drop hx)
    · exact hn x hx

end Ents

-- ---------------------------------------------------------------------------
-- File systems
-- ---------------------------------------------------------------------------

/-- A lower file system. An ill-formed tree cannot be built. -/
structure LowerFs where
  ents : Ents
  nextIno : Nat
  wf : ents.Wf nextIno

instance (es : Ents) (n : Nat) : Decidable (es.Wf n) :=
  decidable_of_iff (es.Closed ∧ (es.map Prod.fst).Nodup ∧ (∀ e ∈ es, e.2.ino < n) ∧
    ∀ e ∈ es, ∀ n ∈ e.1, validName n)
    ⟨fun h => ⟨h.1, h.2.1, h.2.2.1, h.2.2.2⟩, fun h => ⟨h.closed, h.nodup, h.fresh, h.names⟩⟩

/-- The inodes of a new tree, numbered from 2 on. -/
def Ents.ofList (l : List (Path × FType)) : Ents :=
  (([], .dir) :: l).zipIdx.map fun e => (e.1.1, ⟨e.1.2, e.2 + 2, e.2, false⟩)

/-- A file system with these files in its root directory. -/
def LowerFs.ofList (l : List (Path × FType))
    (h : (Ents.ofList l).Wf (l.length + 3) := by decide) : LowerFs := ⟨Ents.ofList l, l.length + 3, h⟩

/-- A file system with the file `a`. -/
def LowerFs.oneFile : LowerFs := .ofList [([[97]], .reg)]

/-- A directory entry as `filldir` receives it. -/
structure Dirent where
  name : Name
  ino : Nat
  type : FType
  deriving DecidableEq, Repr

namespace LowerFs

variable {f f' : LowerFs}

/-- The inode at a path. -/
def node (f : LowerFs) (p : Path) : Option HInode := f.ents.node p

/-- Is there a directory at `p`? -/
def isDir (f : LowerFs) (p : Path) : Bool := f.ents.isDir p

/-- The entries of a directory, `.` and `..` first. -/
def dirents (f : LowerFs) (p : Path) : List Dirent :=
  match f.node p with
  | none => []
  | some i =>
    let up := ((f.node p.dropLast).map HInode.ino).getD i.ino
    ⟨dot, i.ino, .dir⟩ :: ⟨dotdot, up, .dir⟩ ::
      (f.ents.children p).filterMap fun n =>
        (f.node (p ++ [n])).map fun j => ⟨n, j.ino, j.mode⟩

/-- Enter the inode `i` under a new name. -/
def enter (f : LowerFs) (p : Path) (i : HInode) : Except Errno LowerFs :=
  match h : p.getLast? with
  | none => .error .EEXIST
  | some k =>
    if hk : validName k then
      if hp : f.node p = none ∧ f.isDir p.dropLast then
        .ok ⟨(p, i) :: f.ents, max f.nextIno (i.ino + 1),
          f.wf.add (List.dropLast_append_getLast? k h).symm hp.1 hp.2 (Nat.le_max_left _ _)
            (by omega) hk⟩
      else .error (if (f.node p).isSome then .EEXIST else .ENOENT)
    else .error .ENAMETOOLONG

/-- `vfs_create`, `vfs_mkdir`, `vfs_symlink`, `vfs_mknod`: a new inode. -/
def make (f : LowerFs) (p : Path) (mode : FType) (data : Nat) : Except Errno LowerFs :=
  f.enter p ⟨mode, f.nextIno, data, false⟩

/-- `vfs_link` -/
def link (f : LowerFs) (s t : Path) : Except Errno LowerFs :=
  match f.node s with
  | none => .error .ENOENT
  | some i => if i.isDir then .error .EPERM else f.enter t i

/-- `vfs_unlink` -/
def unlink (f : LowerFs) (p : Path) : Except Errno LowerFs :=
  match h : f.node p with
  | none => .error .ENOENT
  | some i =>
    if hd : i.isDir then .error .EISDIR
    else
      have hnd : f.ents.isDir p = false := by
        simpa [Ents.isDir, show f.ents.node p = some i from h] using hd
      have hp : p ≠ [] := by
        rintro rfl
        simp [f.wf.closed.1] at hnd
      .ok ⟨f.ents.del p, f.nextIno,
        f.wf.del hp fun _ => f.wf.closed.node_append_of_not_isDir hnd (by simp)⟩

/-- `vfs_rmdir` -/
def rmdir (f : LowerFs) (p : Path) : Except Errno LowerFs :=
  match f.node p with
  | none => .error .ENOENT
  | some i =>
    if i.isDir then
      if h : p ≠ [] ∧ f.ents.children p = [] then
        .ok ⟨f.ents.del p, f.nextIno, f.wf.del h.1 (Ents.node_of_children_nil h.2)⟩
      else .error (if p = [] then .EBUSY else .ENOTEMPTY)
    else .error .ENOTDIR

/-- `vfs_rename`. Nothing happens between two names of one inode. -/
def rename (f : LowerFs) (s t : Path) : Except Errno LowerFs :=
  match f.node s with
  | none => .error .ENOENT
  | some i =>
    if (f.node t).any fun j => j.ino = i.ino then .ok f
    else if h : s <+: t ∨ t <+: s then .error (if s <+: t then .EINVAL else .ENOTEMPTY)
    else if hd : f.isDir t.dropLast ∧ ∀ k ∈ t, validName k then
      match (f.node t).map HInode.isDir with
      | some true =>
        if !i.isDir then .error .EISDIR
        else if f.ents.children t ≠ [] then .error .ENOTEMPTY
        else .ok ⟨f.ents.move s t, f.nextIno, f.wf.move (not_or.mp h).1 (not_or.mp h).2 hd.1 hd.2⟩
      | some false =>
        if i.isDir then .error .ENOTDIR
        else .ok ⟨f.ents.move s t, f.nextIno, f.wf.move (not_or.mp h).1 (not_or.mp h).2 hd.1 hd.2⟩
      | none => .ok ⟨f.ents.move s t, f.nextIno, f.wf.move (not_or.mp h).1 (not_or.mp h).2 hd.1 hd.2⟩
    else .error .ENOENT

-- ---------------------------------------------------------------------------
-- What the calls do to the names
-- ---------------------------------------------------------------------------

theorem enter_ok {p : Path} {i : HInode} (h : f.enter p i = .ok f') :
    f.node p = none ∧ f.isDir p.dropLast ∧ p ≠ [] ∧
      ∀ q, f'.node q = if q = p then some i else f.node q := by
  unfold enter at h
  split at h
  · simp at h
  · rename_i k hk
    split at h
    · split at h
      · rename_i hp
        obtain rfl := Except.ok.inj h
        refine ⟨hp.1, hp.2, ?_, fun q => Ents.node_cons p i f.ents q⟩
        rintro rfl
        simp at hk
      · simp at h
    · simp at h

theorem make_ok {p : Path} {mode : FType} {data : Nat} (h : f.make p mode data = .ok f') :
    f.node p = none ∧ f.isDir p.dropLast ∧ p ≠ [] ∧
      ∀ q, f'.node q = if q = p then some ⟨mode, f.nextIno, data, false⟩ else f.node q :=
  enter_ok h

theorem link_ok {s t : Path} (h : f.link s t = .ok f') :
    ∃ i, f.node s = some i ∧ i.isDir = false ∧ f.node t = none ∧ f.isDir t.dropLast ∧ t ≠ [] ∧
      ∀ q, f'.node q = if q = t then some i else f.node q := by
  unfold link at h
  split at h
  · simp at h
  · rename_i i hi
    split at h
    · simp at h
    · rename_i hd
      exact ⟨i, hi, by simpa using hd, enter_ok h⟩

theorem unlink_ok {p : Path} (h : f.unlink p = .ok f') :
    ∃ i, f.node p = some i ∧ i.isDir = false ∧
      ∀ q, f'.node q = if q = p then none else f.node q := by
  unfold unlink at h
  split at h
  · simp at h
  · rename_i i hi
    split at h
    · simp at h
    · rename_i hd
      obtain rfl := Except.ok.inj h
      exact ⟨i, hi, by simpa using hd, fun q => Ents.node_del⟩

theorem rmdir_ok {p : Path} (h : f.rmdir p = .ok f') :
    ∃ i, f.node p = some i ∧ i.isDir = true ∧ p ≠ [] ∧ (∀ n, f.node (p ++ [n]) = none) ∧
      ∀ q, f'.node q = if q = p then none else f.node q := by
  unfold rmdir at h
  split at h
  · simp at h
  · rename_i i hi
    split at h
    · rename_i hd
      split at h
      · rename_i hp
        obtain rfl := Except.ok.inj h
        refine ⟨i, hi, hd, hp.1, fun n => ?_, fun q => Ents.node_del⟩
        exact Ents.node_of_children_nil hp.2 n
      · simp at h
    · simp at h

/-- A rename of two names of one inode changes nothing; any other moves the tree at `s`
to `t`, where nothing or an empty directory was. -/
theorem rename_ok {s t : Path} (h : f.rename s t = .ok f') :
    ∃ i, f.node s = some i ∧
      ((∃ j, f.node t = some j ∧ j.ino = i.ino ∧ f' = f) ∨
        (¬ s <+: t ∧ ¬ t <+: s ∧ f.isDir t.dropLast ∧
          (∀ j, f.node t = some j → j.isDir = i.isDir ∧ ∀ n, f.node (t ++ [n]) = none) ∧
          ∀ q, f'.node q =
            if t <+: q then f.node (s ++ q.drop t.length) else if s <+: q then none else f.node q)) := by
  unfold rename at h
  split at h
  · simp at h
  · rename_i i hi
    refine ⟨i, hi, ?_⟩
    split at h
    · rename_i hsame
      obtain ⟨j, hj, he⟩ := (Option.any_eq_true _ _).mp hsame
      exact .inl ⟨j, hj, by simpa using he, (Except.ok.inj h).symm⟩
    · split at h
      · simp at h
      · rename_i hpre
        obtain ⟨hst, hts⟩ := not_or.mp hpre
        split at h
        · rename_i hd
          refine .inr ⟨hst, hts, hd.1, ?_⟩
          split at h
          · rename_i ht
            split at h
            · simp at h
            · rename_i hid
              split at h
              · simp at h
              · rename_i hch
                obtain rfl := Except.ok.inj h
                refine ⟨fun j hj => ⟨?_, fun n => ?_⟩, Ents.node_move hst hts⟩
                · rw [hj] at ht
                  simp only [Option.map_some, Option.some.injEq] at ht
                  rw [ht]
                  simpa using hid
                · exact Ents.node_of_children_nil (not_not.mp hch) n
          · rename_i ht
            split at h
            · simp at h
            · rename_i hid
              obtain rfl := Except.ok.inj h
              refine ⟨fun j hj => ⟨?_, fun n => ?_⟩, Ents.node_move hst hts⟩
              · rw [hj] at ht
                simp only [Option.map_some, Option.some.injEq] at ht
                rw [ht]
                simpa using hid
              · refine f.wf.closed.node_append_of_not_isDir ?_ (by simp)
                rw [hj] at ht
                simpa [Ents.isDir, show f.ents.node t = some j from hj] using ht
          · rename_i ht
            obtain rfl := Except.ok.inj h
            refine ⟨fun j hj => ?_, Ents.node_move hst hts⟩
            simp [hj] at ht
        · simp at h

-- ---------------------------------------------------------------------------
-- What a directory delivers
-- ---------------------------------------------------------------------------

theorem names_dirents (f : LowerFs) {p : Path} {i : HInode} (h : f.node p = some i) :
    (f.dirents p).map Dirent.name = dot :: dotdot :: f.ents.children p := by
  have hall : ∀ l : List Name, (∀ n ∈ l, (f.node (p ++ [n])).isSome) →
      (l.filterMap fun n => (f.node (p ++ [n])).map fun j : HInode => Dirent.mk n j.ino j.mode).map
        Dirent.name = l := by
    intro l hl
    induction l with
    | nil => rfl
    | cons n l ih =>
        obtain ⟨j, hj⟩ := Option.isSome_iff_exists.mp (hl n List.mem_cons_self)
        simp [hj, ih fun m hm => hl m (List.mem_cons_of_mem n hm)]
  simp only [dirents, h, List.map_cons]
  rw [hall _ fun n hn => Ents.mem_children.mp hn]

theorem validName_of_node (f : LowerFs) {p : Path} {n : Name} (h : (f.node (p ++ [n])).isSome) :
    validName n := by
  obtain ⟨i, hi⟩ := Ents.node_isSome.mp h
  exact f.wf.names _ hi n (by simp)

theorem nodup_dirents (f : LowerFs) (p : Path) : ((f.dirents p).map Dirent.name).Nodup := by
  cases h : f.node p with
  | none => simp [dirents, h]
  | some i =>
      have hv : ∀ n ∈ f.ents.children p, validName n := fun n hn =>
        f.validName_of_node (Ents.mem_children.mp hn)
      rw [names_dirents f h, List.nodup_cons, List.nodup_cons]
      refine ⟨?_, fun hm => (hv _ hm).2.2.1 rfl, Ents.children_nodup f.wf.nodup p⟩
      rw [List.mem_cons, not_or]
      exact ⟨by decide, fun hm => (hv _ hm).2.1 rfl⟩

theorem mem_dirents (f : LowerFs) {p : Path} {n : Name} (h1 : n ≠ dot) (h2 : n ≠ dotdot) :
    n ∈ (f.dirents p).map Dirent.name ↔ (f.node (p ++ [n])).isSome := by
  cases h : f.node p with
  | none =>
      have hn : f.node (p ++ [n]) = none := f.wf.closed.node_append_none h [n]
      simp [dirents, h, hn]
  | some i =>
      rw [names_dirents f h]
      simp [h1, h2, Ents.mem_children, node]

end LowerFs

end Aufs
