-- SUMMARY: The walk over the cached dentries below a directory: what au_dcsub_pages lists, how often, and in which order.
import Aufs.Basic
import Aufs.Lib.Forest
import Mathlib.Logic.Function.Iterate

/-!
# The walk over cached dentries

`au_dcsub_pages` goes through the cached dentries below a root with two labels to
come back to. A directory is listed at `resume`, which is where the walk comes to
when it goes down into it, and again every time it comes back up from one of its
children. So a directory with children that have children is listed more than once.
-/

namespace Aufs

open Forest

/-- A cached dentry: where it is, its superblock, `d_count`, and the type of its inode. -/
structure CachedDentry where
  addr : Nat
  sb : Nat
  count : Nat
  inode : Option FType
  deriving DecidableEq, Repr

/-- The cached dentries below a root, in the order of the lists `d_subdirs`; `isRoot` is `IS_ROOT`
of the root. -/
structure DcacheTree where
  root : CachedDentry
  subdirs : Forest CachedDentry
  isRoot : Bool
  distinct : (root :: subdirs.items).Nodup

namespace Dcsub

/-- Where the walk is: `this_parent` with the rest of its list, the dentries above it, each with
what follows the one below in its list, what has been appended, and whether the walk is at
`resume`. -/
structure Walk where
  here : CachedDentry
  next : Forest CachedDentry
  up : List (CachedDentry × Forest CachedDentry)
  out : List CachedDentry
  resumed : Bool

/-- The walk is somewhere, or it has ended. -/
inductive WalkState where
  | at (w : Walk)
  | done (r : Except Errno Unit) (out : List CachedDentry)

-- ---------------------------------------------------------------------------
-- The functions
-- ---------------------------------------------------------------------------

variable (t : DcacheTree) (test : CachedDentry → Bool) (room : Nat → Bool)

/-- The test before a dentry is appended. -/
def accepts (d : CachedDentry) : Bool :=
  decide (d.sb = t.root.sb) && decide (d.count ≠ 0) && d.inode.isSome && test d

/-- The test at `resume`, where `this_parent` may be the root. -/
def acceptsHere (d : CachedDentry) : Bool := !(decide (d = t.root) && t.isRoot) && accepts t test d

/-- `au_dpages_append` of `d` if `wanted`, and on to `w`. There is room for some appends only. -/
def append (wanted : Bool) (d : CachedDentry) (w : Walk) : WalkState :=
  if !wanted then .at w
  else if room w.out.length then .at { w with out := w.out ++ [d] }
  else .done (.error .ENOMEM) w.out

/-- One step of `au_dcsub_pages`. -/
def step : WalkState → WalkState
  | .done r out => .done r out
  | .at w =>
    if w.resumed then append room (acceptsHere t test w.here) w.here { w with resumed := false }
    else
      match w.next with
      | .cons d below rest =>
        if d.inode.isNone then .at { w with next := rest }
        -- goto repeat
        else if !below.isNil then .at ⟨d, below, (w.here, rest) :: w.up, w.out, true⟩
        else append room (accepts t test d) d { w with next := rest }
      | .nil =>
        match w.up with
        | [] => .done (.ok ()) w.out
        -- goto resume
        | (parent, rest) :: up => .at ⟨parent, rest, up, w.out, true⟩

/-- The walk before its first step. -/
def start : WalkState := .at ⟨t.root, t.subdirs, [], [], true⟩

/-- The walk after some steps. -/
def Reaches (s s' : WalkState) : Prop := ∃ n, (step t test room)^[n] s = s'

/-- `au_dcsub_pages` ends with this. -/
def Ends (r : Except Errno Unit) (out : List CachedDentry) : Prop :=
  Reaches t test room (start t) (.done r out)

/-- `test_dir` -/
def testDir (d : CachedDentry) : Bool := decide (d.inode = some .dir)

/-- `d_parent`; the root is its own. -/
def dParent (d : CachedDentry) : CachedDentry :=
  match (t.subdirs.placed [t.root]).find? fun p => decide (p.1 = d) with
  | some (_, parent :: _) => parent
  | _ => d

/-- `refresh_dir` ends, or an assertion of its loop fails. -/
inductive RefreshEnd where
  | ends (r : Except Errno Unit)
  | bug
  deriving DecidableEq

/-- The loop of `refresh_dir` over the dentries that are listed, with their generations. A
directory that `do_refresh_dir` refreshes is of the generation of the superblock. -/
def refreshDir (sgen : Int) (doRefreshDir : CachedDentry → Except Errno Unit) :
    (CachedDentry → Int) → List CachedDentry → RefreshEnd
  | _, [] => .ends (.ok ())
  | digen, d :: rest =>
    if d.inode ≠ some .dir ∨ (d = t.root ∧ t.isRoot = true) ∨ digen (dParent t d) ≠ sgen then .bug
    else if digen d ≠ sgen then
      match doRefreshDir d with
      | .error err => .ends (.error err)
      | .ok () => refreshDir sgen doRefreshDir (Function.update digen d sgen) rest
    else refreshDir sgen doRefreshDir digen rest

-- ---------------------------------------------------------------------------
-- What is to be listed
-- ---------------------------------------------------------------------------

/-- The dentries of a forest that are positive and below positive ones only. -/
def reached : Forest CachedDentry → List CachedDentry
  | .nil => []
  | .cons d below rest =>
    if d.inode.isSome then d :: (reached below ++ reached rest) else reached rest

/-- Is one of these dentries positive, with children? -/
def hasParent : Forest CachedDentry → Bool
  | .nil => false
  | .cons d below rest => (d.inode.isSome && !below.isNil) || hasParent rest

/-- Does a dentry that is to be listed have a positive child that has children? -/
def hasGrandparent : Forest CachedDentry → Bool
  | .nil => false
  | .cons d below rest =>
    (d.inode.isSome && ((accepts t test d && hasParent below) || hasGrandparent below)) || hasGrandparent rest

-- ---------------------------------------------------------------------------
-- What is listed
-- ---------------------------------------------------------------------------

/-- A dentry, if it is to be listed. -/
def one (d : CachedDentry) : List CachedDentry := if accepts t test d then [d] else []

/-- `this_parent`, if it is to be listed. -/
def oneHere (d : CachedDentry) : List CachedDentry := if acceptsHere t test d then [d] else []

/-- What the walk over a list lists; `again` is what it lists each time it comes back up to it. -/
def listing (again : List CachedDentry) : Forest CachedDentry → List CachedDentry
  | .nil => []
  | .cons d below rest =>
    (if d.inode.isNone then []
      else if !below.isNil then oneHere t test d ++ listing (oneHere t test d) below ++ again
      else one t test d) ++ listing again rest

/-- All that is listed. -/
def listed : List CachedDentry :=
  oneHere t test t.root ++ listing t test (oneHere t test t.root) t.subdirs

variable {t test room} {s s' s'' g : WalkState} {here : CachedDentry} {next : Forest CachedDentry}
  {up : List (CachedDentry × Forest CachedDentry)} {out : List CachedDentry}

theorem Reaches.refl : Reaches t test room s s := ⟨0, rfl⟩

theorem Reaches.trans (h : Reaches t test room s s') (h' : Reaches t test room s' s'') :
    Reaches t test room s s'' := by
  obtain ⟨n, rfl⟩ := h
  obtain ⟨m, rfl⟩ := h'
  exact ⟨m + n, Function.iterate_add_apply _ m n s⟩

theorem Reaches.step (h : step t test room s = s') : Reaches t test room s s' := ⟨1, h⟩

/-- The walk stays where it has ended. -/
theorem iterate_done (n : Nat) (r : Except Errno Unit) (out : List CachedDentry) :
    (Dcsub.step t test room)^[n] (.done r out) = .done r out := by
  induction n with
  | zero => rfl
  | succ n ih => rw [Function.iterate_succ_apply, Dcsub.step, ih]

/-- The walk ends in one way. -/
theorem Reaches.done_unique {r r' : Except Errno Unit} {out out' : List CachedDentry}
    (h : Reaches t test room s (.done r out)) (h' : Reaches t test room s (.done r' out')) :
    r = r' ∧ out = out' := by
  obtain ⟨n, hn⟩ := h
  obtain ⟨m, hm⟩ := h'
  have hnm : (Dcsub.step t test room)^[m + n] s = .done r out := by
    rw [Function.iterate_add_apply, hn, iterate_done]
  have hmn : (Dcsub.step t test room)^[n + m] s = .done r' out' := by
    rw [Function.iterate_add_apply, hm, iterate_done]
  rw [Nat.add_comm, hmn] at hnm
  cases hnm
  exact ⟨rfl, rfl⟩

/-- The walk gets to `g`, unless an append finds no room. -/
def Leads (t : DcacheTree) (test : CachedDentry → Bool) (room : Nat → Bool) (s g : WalkState) : Prop :=
  Reaches t test room s g ∨ (∃ out, Reaches t test room s (.done (.error .ENOMEM) out)) ∧ ∃ k, room k = false

theorem Leads.trans (h : Leads t test room s s') (h' : Leads t test room s' g) : Leads t test room s g := by
  rcases h with h | h
  · rcases h' with h' | ⟨⟨out, h'⟩, hroom⟩
    · exact .inl (h.trans h')
    · exact .inr ⟨⟨out, h.trans h'⟩, hroom⟩
  · exact .inr h

theorem Leads.step (h : Dcsub.step t test room s = s') (h' : Leads t test room s' g) :
    Leads t test room s g :=
  Leads.trans (.inl (Reaches.step h)) h'

/-- An append leads on with the dentry in the list. -/
theorem leads_append {wanted : Bool} {d : CachedDentry} {w : Walk}
    (h : Dcsub.step t test room s = append room wanted d w) :
    Leads t test room s (.at { w with out := w.out ++ if wanted then [d] else [] }) := by
  unfold append at h
  cases wanted with
  | false =>
      rw [if_neg Bool.false_ne_true, List.append_nil]
      exact .inl (Reaches.step h)
  | true =>
      rw [if_pos rfl]
      cases hroom : room w.out.length with
      | true =>
          rw [hroom] at h
          exact .inl (Reaches.step h)
      | false =>
          rw [hroom] at h
          exact .inr ⟨⟨w.out, Reaches.step h⟩, _, hroom⟩

/-- At `resume` the dentry is listed, and the walk goes on with its list. -/
theorem leads_resume :
    Leads t test room (.at ⟨here, next, up, out, true⟩)
      (.at ⟨here, next, up, out ++ oneHere t test here, false⟩) :=
  leads_append (w := ⟨here, next, up, out, false⟩) rfl

/-- The walk over a list gets to its end. -/
theorem leads_listing (f : Forest CachedDentry) :
    Leads t test room (.at ⟨here, f, up, out, false⟩)
      (.at ⟨here, .nil, up, out ++ listing t test (oneHere t test here) f, false⟩) := by
  induction f generalizing here up out with
  | nil =>
      rw [listing, List.append_nil]
      exact .inl .refl
  | cons d below rest ihb ihr =>
      rw [listing]
      cases hneg : d.inode.isNone with
      | true =>
          have hstep : Dcsub.step t test room (.at ⟨here, .cons d below rest, up, out, false⟩) =
              .at ⟨here, rest, up, out, false⟩ := by
            simp only [Dcsub.step, hneg, if_pos, Bool.false_eq_true, if_false]
          exact Leads.step hstep (by simpa using ihr)
      | false =>
          cases hbelow : below.isNil with
          | false =>
              have hstep : Dcsub.step t test room (.at ⟨here, .cons d below rest, up, out, false⟩) =
                  .at ⟨d, below, (here, rest) :: up, out, true⟩ := by
                simp [Dcsub.step, hneg, hbelow]
              refine Leads.step hstep (Leads.trans leads_resume (Leads.trans ihb ?_))
              refine Leads.step rfl (Leads.trans leads_resume ?_)
              have h : Leads t test room (.at ⟨here, rest, up, out ++ oneHere t test d ++
                listing t test (oneHere t test d) below ++ oneHere t test here, false⟩) _ := ihr
              simpa [List.append_assoc] using h
          | true =>
              have hstep : Dcsub.step t test room (.at ⟨here, .cons d below rest, up, out, false⟩) =
                  append room (accepts t test d) d ⟨here, rest, up, out, false⟩ := by
                simp [Dcsub.step, hneg, hbelow]
              refine Leads.trans (leads_append hstep) ?_
              have h : Leads t test room (.at ⟨here, rest, up, out ++ one t test d, false⟩) _ := ihr
              simpa [List.append_assoc, one] using h

/-- The walk ends, and if every append finds room it has listed this. -/
theorem leads_done (t : DcacheTree) (test : CachedDentry → Bool) (room : Nat → Bool) :
    Leads t test room (start t) (.done (.ok ()) (listed t test)) := by
  refine Leads.trans leads_resume (Leads.trans (leads_listing t.subdirs) ?_)
  refine .inl (Reaches.step ?_)
  rw [List.nil_append]
  rfl

-- ---------------------------------------------------------------------------
-- How often a dentry is listed
-- ---------------------------------------------------------------------------

variable {f : Forest CachedDentry} {again : List CachedDentry} {d x : CachedDentry}

/-- Only the root is treated differently at `resume`. -/
theorem oneHere_of_ne (h : d ≠ t.root) : oneHere t test d = one t test d := by
  simp [oneHere, one, acceptsHere, h]

/-- What the walk lists when it comes back up is all that depends on where it comes up to. -/
theorem count_listing_of_notMem (h : x ∉ again) (f : Forest CachedDentry) :
    (listing t test again f).count x = (listing t test [] f).count x := by
  induction f with
  | nil => rfl
  | cons d below rest _ ihr =>
      rw [listing, listing, List.count_append, List.count_append, ihr]
      split
      · rfl
      · split
        · rw [List.count_append, List.count_append, List.count_append, List.count_append,
            List.count_eq_zero_of_not_mem h, List.count_nil]
        · rfl

/-- A list with a dentry that has children is listed with the dentry above it. -/
theorem mem_listing_of_hasParent (hf : hasParent f = true) (hx : x ∈ again) : x ∈ listing t test again f := by
  induction f with
  | nil => cases hf
  | cons d below rest _ ihr =>
      rw [listing, List.mem_append]
      rw [hasParent, Bool.or_eq_true, Bool.and_eq_true] at hf
      rcases hf with ⟨hpos, hbelow⟩ | hf
      · have hneg : d.inode.isNone = false := by
          rw [← Option.not_isSome, hpos]
          rfl
        rw [hneg, if_neg Bool.false_ne_true, if_pos hbelow, List.mem_append]
        exact .inl (.inr hx)
      · exact .inr (ihr hf)

/-- Where no dentry that is to be listed has a child with children, everything is listed once. -/
theorem listing_eq_filter (hroot : t.root ∉ f.items) (hf : hasGrandparent t test f = false)
    (hagain : again = [] ∨ hasParent f = false) :
    listing t test again f = (reached f).filter (accepts t test) := by
  induction f generalizing again with
  | nil => rfl
  | cons d below rest ihb ihr =>
      rw [items, List.mem_cons, List.mem_append, not_or, not_or] at hroot
      obtain ⟨hne, hrootb, hrootr⟩ := hroot
      rw [hasGrandparent, Bool.or_eq_false_iff] at hf
      obtain ⟨hd, hfr⟩ := hf
      have hrest : listing t test again rest = (reached rest).filter (accepts t test) := by
        refine ihr hrootr hfr (hagain.imp_right fun h => ?_)
        rw [hasParent, Bool.or_eq_false_iff] at h
        exact h.2
      rw [listing, reached, hrest]
      cases hpos : d.inode.isSome with
      | false =>
          have hneg : d.inode.isNone = true := by rw [← Option.not_isSome, hpos]; rfl
          rw [hneg, if_pos rfl, if_neg Bool.false_ne_true, List.nil_append]
      | true =>
          have hneg : d.inode.isNone = false := by rw [← Option.not_isSome, hpos]; rfl
          rw [hpos, Bool.true_and, Bool.or_eq_false_iff] at hd
          have hone : one t test d ++ (reached below).filter (accepts t test) =
              (d :: reached below).filter (accepts t test) := by
            rw [List.filter_cons, one]
            split <;> rfl
          rw [hneg, if_neg Bool.false_ne_true, if_pos rfl, ← List.cons_append, List.filter_append, ← hone]
          congr 1
          cases hnil : below.isNil with
          | true =>
              cases below with
              | nil => rw [if_neg (by decide), reached, List.filter_nil, List.append_nil]
              | cons a b c => cases hnil
          | false =>
              have hnone : again = [] := by
                refine hagain.resolve_right fun h => ?_
                rw [hasParent, hpos, hnil] at h
                cases h
              have hbelow : listing t test (one t test d) below = (reached below).filter (accepts t test) := by
                refine ihb hrootb hd.2 ?_
                rw [one]
                cases hacc : accepts t test d with
                | false => exact .inl rfl
                | true =>
                    refine .inr ?_
                    have := hd.1
                    rwa [hacc, Bool.true_and] at this
              rw [Bool.not_false, if_pos rfl, oneHere_of_ne (Ne.symm hne), hbelow, hnone, List.append_nil]

/-- A dentry that is to be listed is listed twice if it has a child with children. -/
theorem exists_twice (hroot : t.root ∉ f.items) (hf : hasGrandparent t test f = true) :
    ∃ d ∈ f.items, 2 ≤ (listing t test again f).count d := by
  induction f generalizing again with
  | nil => cases hf
  | cons d below rest ihb ihr =>
      rw [items, List.mem_cons, List.mem_append, not_or, not_or] at hroot
      obtain ⟨hne, hrootb, hrootr⟩ := hroot
      rw [hasGrandparent, Bool.or_eq_true, Bool.and_eq_true, Bool.or_eq_true, Bool.and_eq_true] at hf
      rcases hf with ⟨hpos, hd⟩ | hf
      · have hneg : d.inode.isNone = false := by rw [← Option.not_isSome, hpos]; rfl
        have hnil : (!below.isNil) = true := by
          cases below with
          | nil => rcases hd with ⟨-, h⟩ | h <;> cases h
          | cons a b c => rfl
        rw [listing, hneg, if_neg Bool.false_ne_true, if_pos hnil, oneHere_of_ne (Ne.symm hne)]
        rcases hd with ⟨hacc, hparent⟩ | hbelow
        · have hone : one t test d = [d] := by rw [one, if_pos hacc]
          have hmem : d ∈ listing t test (one t test d) below :=
            mem_listing_of_hasParent hparent (by rw [hone]; exact List.mem_singleton_self d)
          refine ⟨d, List.mem_cons_self, ?_⟩
          have hcount : 1 ≤ (listing t test (one t test d) below).count d := List.one_le_count_iff.mpr hmem
          rw [List.count_append, List.count_append, List.count_append]
          have hself : (one t test d).count d = 1 := by rw [hone]; exact List.count_singleton_self
          omega
        · obtain ⟨y, hy, hcount⟩ : ∃ y ∈ below.items, 2 ≤ (listing t test (one t test d) below).count y :=
            ihb hrootb hbelow
          refine ⟨y, List.mem_cons_of_mem _ (List.mem_append_left _ hy), ?_⟩
          rw [List.count_append, List.count_append, List.count_append]
          omega
      · obtain ⟨y, hy, hcount⟩ : ∃ y ∈ rest.items, 2 ≤ (listing t test again rest).count y := ihr hrootr hf
        refine ⟨y, List.mem_cons_of_mem _ (List.mem_append_right _ hy), ?_⟩
        rw [listing, List.count_append]
        omega

-- ---------------------------------------------------------------------------
-- In which order
-- ---------------------------------------------------------------------------

/-- May a dentry stand after these? Its ancestors that are listed are among them. -/
def AfterAncestors (t : DcacheTree) (test : CachedDentry → Bool) (seen : List CachedDentry) (d : CachedDentry) :
    Prop :=
  ∀ anc, (d, anc) ∈ t.subdirs.placed [t.root] → ∀ x ∈ anc, acceptsHere t test x = true → x ∈ seen

theorem AfterAncestors.append {seen more : List CachedDentry} (h : AfterAncestors t test seen d) :
    AfterAncestors t test (seen ++ more) d :=
  fun anc hanc x hx hacc => List.mem_append_left more (h anc hanc x hx hacc)

theorem not_mem_items : t.root ∉ t.subdirs.items := (List.nodup_cons.mp t.distinct).1

theorem acceptsHere_of_mem {d : CachedDentry} (h : d ∈ t.subdirs.items) :
    acceptsHere t test d = accepts t test d := by
  have hne : d ≠ t.root := fun heq => not_mem_items (heq ▸ h)
  simp [acceptsHere, hne]

/-- What is listed of a list comes after its ancestors, if those above the list are there. -/
theorem follows_listing {anc seen : List CachedDentry} (hplaced : f.placed anc ⊆ t.subdirs.placed [t.root])
    (hseen : ∀ x ∈ anc, acceptsHere t test x = true → x ∈ seen)
    (hagain : ∀ x ∈ again, AfterAncestors t test seen x) :
    Follows (AfterAncestors t test) seen (listing t test again f) := by
  induction f generalizing anc seen again with
  | nil => exact trivial
  | cons d below rest ihb ihr =>
      have hd : (d, anc) ∈ t.subdirs.placed [t.root] := hplaced List.mem_cons_self
      have hbelow : below.placed (d :: anc) ⊆ t.subdirs.placed [t.root] := fun x hx =>
        hplaced (List.mem_cons_of_mem _ (List.mem_append_left _ hx))
      have hrest : rest.placed anc ⊆ t.subdirs.placed [t.root] := fun x hx =>
        hplaced (List.mem_cons_of_mem _ (List.mem_append_right _ hx))
      have hmem : d ∈ t.subdirs.items := mem_items_of_placed hd
      have hafter : AfterAncestors t test seen d := by
        intro as has
        rw [placed_unique (List.nodup_cons.mp t.distinct).2 has hd]
        exact hseen
      have hone (x : CachedDentry) (hx : x ∈ oneHere t test d) : AfterAncestors t test seen x := by
        unfold oneHere at hx
        split at hx
        · rw [List.mem_singleton.mp hx]
          exact hafter
        · cases hx
      rw [listing, follows_append]
      constructor
      · split
        · exact trivial
        · split
          · rw [follows_append, follows_append]
            refine ⟨⟨follows_of_forall AfterAncestors.append hone, ?_⟩, ?_⟩
            · refine ihb hbelow ?_ fun x hx => (hone x hx).append
              intro x hx hacc
              rcases List.mem_cons.mp hx with rfl | hx
              · refine List.mem_append_right _ ?_
                rw [oneHere, if_pos hacc]
                exact List.mem_singleton_self x
              · exact List.mem_append_left _ (hseen x hx hacc)
            · exact follows_of_forall AfterAncestors.append fun x hx => (hagain x hx).append
          · refine follows_of_forall AfterAncestors.append ?_
            intro x hx
            refine hone x ?_
            rw [oneHere, acceptsHere_of_mem hmem]
            exact hx
      · refine ihr hrest ?_ fun x hx => (hagain x hx).append
        intro x hx hacc
        exact List.mem_append_left _ (hseen x hx hacc)

/-- What the walk lists comes after its ancestors. -/
theorem follows_listed : Follows (AfterAncestors t test) [] (listed t test) := by
  have hroot (seen : List CachedDentry) : AfterAncestors t test seen t.root := by
    intro anc hanc
    exact absurd (mem_items_of_placed hanc) not_mem_items
  have hone (seen : List CachedDentry) (x : CachedDentry) (hx : x ∈ oneHere t test t.root) :
      AfterAncestors t test seen x := by
    unfold oneHere at hx
    split at hx
    · rw [List.mem_singleton.mp hx]
      exact hroot seen
    · cases hx
  rw [listed, follows_append]
  refine ⟨follows_of_forall AfterAncestors.append (hone []), ?_⟩
  refine follows_listing (List.Subset.refl _) ?_ (hone _)
  intro x hx hacc
  rw [List.mem_singleton.mp hx] at hacc ⊢
  rw [oneHere, if_pos hacc]
  exact List.mem_append_right _ (List.mem_singleton_self _)

-- ---------------------------------------------------------------------------
-- The refresh loop
-- ---------------------------------------------------------------------------

theorem mem_listing (h : x ∈ listing t test again f) (hroot : t.root ∉ f.items) :
    x ∈ again ∨ (x ∈ f.items ∧ accepts t test x = true) := by
  induction f generalizing again with
  | nil => cases h
  | cons d below rest ihb ihr =>
      rw [items, List.mem_cons, List.mem_append, not_or, not_or] at hroot
      obtain ⟨hne, hrootb, hrootr⟩ := hroot
      rw [listing, List.mem_append] at h
      have hone (hx : x ∈ one t test d) : x ∈ (cons d below rest).items ∧ accepts t test x = true := by
        unfold one at hx
        split at hx
        case isTrue hacc =>
          rw [List.mem_singleton.mp hx]
          exact ⟨List.mem_cons_self, hacc⟩
        case isFalse => cases hx
      rcases h with h | h
      · split at h
        · cases h
        · split at h
          · rw [oneHere_of_ne (Ne.symm hne), List.mem_append, List.mem_append] at h
            rcases h with (h | h) | h
            · exact .inr (hone h)
            · rcases ihb h hrootb with h | ⟨h, hacc⟩
              · exact .inr (hone h)
              · exact .inr ⟨List.mem_cons_of_mem _ (List.mem_append_left _ h), hacc⟩
            · exact .inl h
          · exact .inr (hone h)
      · rcases ihr h hrootr with h | ⟨h, hacc⟩
        · exact .inl h
        · exact .inr ⟨List.mem_cons_of_mem _ (List.mem_append_right _ h), hacc⟩

/-- What is listed is to be listed, and it is the root or below it. -/
theorem mem_listed (h : x ∈ listed t test) :
    acceptsHere t test x = true ∧ (x = t.root ∨ x ∈ t.subdirs.items) := by
  have hroot (hx : x ∈ oneHere t test t.root) : acceptsHere t test x = true ∧ (x = t.root ∨ x ∈ t.subdirs.items) := by
    unfold oneHere at hx
    split at hx
    case isTrue hacc =>
      rw [List.mem_singleton.mp hx]
      exact ⟨hacc, .inl rfl⟩
    case isFalse => cases hx
  rw [listed, List.mem_append] at h
  rcases h with h | h
  · exact hroot h
  · rcases mem_listing h not_mem_items with h | ⟨h, hacc⟩
    · exact hroot h
    · exact ⟨by rw [acceptsHere_of_mem h, hacc], .inr h⟩

/-- What holds of cached dentries: they are of one superblock, and one with a positive child is a
directory in use, since its child refers to it. -/
structure Sound (t : DcacheTree) : Prop where
  sb : ∀ d ∈ t.subdirs.items, d.sb = t.root.sb
  parent : ∀ d p anc, (d, p :: anc) ∈ t.subdirs.placed [t.root] → d.inode.isSome = true →
    p.count ≠ 0 ∧ p.inode = some .dir

theorem placed_ne_nil {anc as : List CachedDentry} (h : (d, as) ∈ f.placed anc) (hanc : anc ≠ []) : as ≠ [] := by
  induction f generalizing anc with
  | nil => cases h
  | cons a below rest ihb ihr =>
      rw [placed, List.mem_cons, List.mem_append] at h
      rcases h with h | h | h
      · cases h
        exact hanc
      · exact ihb h (List.cons_ne_nil a anc)
      · exact ihr h hanc

/-- The parent of a dentry below the root is the first of its ancestors. -/
theorem exists_parent (h : d ∈ t.subdirs.items) :
    ∃ anc, (d, dParent t d :: anc) ∈ t.subdirs.placed [t.root] := by
  obtain ⟨as, has⟩ := exists_placed [t.root] h
  unfold dParent
  cases hfind : (t.subdirs.placed [t.root]).find? fun p => decide (p.1 = d) with
  | none =>
      have hnot := List.find?_eq_none.mp hfind _ has
      exact absurd (decide_eq_true rfl) hnot
  | some p =>
      have heq : p.1 = d := of_decide_eq_true (List.find?_some (p := fun p : CachedDentry × List CachedDentry => decide (p.1 = d)) hfind)
      have hmem := List.mem_of_find?_eq_some hfind
      obtain ⟨d', bs⟩ := p
      cases heq
      cases bs with
      | nil => exact absurd rfl (placed_ne_nil hmem (List.cons_ne_nil _ _))
      | cons p anc => exact ⟨anc, hmem⟩

/-- The loop meets only directories whose parents it has refreshed. -/
theorem refreshDir_ne_bug {sgen : Int} {doRefreshDir : CachedDentry → Except Errno Unit}
    {digen : CachedDentry → Int} {seen l : List CachedDentry} (hsound : Sound t) (hisRoot : t.isRoot = true)
    (hl : ∀ x ∈ l, acceptsHere t testDir x = true ∧ (x = t.root ∨ x ∈ t.subdirs.items))
    (hfollows : Follows (AfterAncestors t testDir) seen l) (hroot : digen t.root = sgen)
    (hseen : ∀ x ∈ seen, digen x = sgen) : refreshDir t sgen doRefreshDir digen l ≠ .bug := by
  induction l generalizing digen seen with
  | nil =>
      intro h
      cases h
  | cons d l ih =>
      obtain ⟨hacc, hwhere⟩ := hl d List.mem_cons_self
      have hne : d ≠ t.root := by
        rintro rfl
        simp [acceptsHere, hisRoot] at hacc
      have hmem : d ∈ t.subdirs.items := hwhere.resolve_left hne
      rw [acceptsHere_of_mem hmem] at hacc
      have hdir : d.inode = some .dir := by
        simp only [accepts, testDir, Bool.and_eq_true, decide_eq_true_eq] at hacc
        exact hacc.2
      obtain ⟨anc, hplaced⟩ := exists_parent hmem
      have hparent : digen (dParent t d) = sgen := by
        obtain ⟨hcount, hpdir⟩ := hsound.parent d _ anc hplaced (by rw [hdir]; rfl)
        rcases ancestor_mem hplaced List.mem_cons_self with hp | hp
        · rw [List.mem_singleton.mp hp]
          exact hroot
        · refine hseen _ (hfollows.1 _ hplaced _ List.mem_cons_self ?_)
          rw [acceptsHere_of_mem hp]
          simp [accepts, testDir, hsound.sb _ hp, hcount, hpdir]
      have hrest := fun x hx => hl x (List.mem_cons_of_mem d hx)
      have hseen' {g : CachedDentry → Int} (hd : g d = sgen) (hg : ∀ x ∈ seen, g x = sgen) (x : CachedDentry)
          (hx : x ∈ seen ++ [d]) : g x = sgen := by
        rcases List.mem_append.mp hx with hx | hx
        · exact hg x hx
        · rw [List.mem_singleton.mp hx]
          exact hd
      rw [refreshDir, if_neg]
      · split
        case isFalse hd => exact ih hrest hfollows.2 hroot (hseen' (not_not.mp hd) hseen)
        case isTrue =>
          split
          · intro h
            cases h
          · refine ih hrest hfollows.2 ?_ (hseen' (Function.update_self ..) ?_)
            · rw [Function.update_of_ne (Ne.symm hne)]
              exact hroot
            · intro x hx
              by_cases hxd : x = d
              · rw [hxd, Function.update_self]
              · rw [Function.update_of_ne hxd]
                exact hseen x hx
      · rintro (h | ⟨h, -⟩ | h)
        · exact h hdir
        · exact hne h
        · exact h hparent

-- ---------------------------------------------------------------------------
-- The walk as a whole
-- ---------------------------------------------------------------------------

/-- The dentries below the root that are to be listed are listed once, and the others not at all. -/
def Once (t : DcacheTree) (test : CachedDentry → Bool) (out : List CachedDentry) : Prop :=
  ∀ d, d ≠ t.root → out.count d = if d ∈ reached t.subdirs ∧ accepts t test d = true then 1 else 0

/-- Every ancestor that is listed comes before its descendants. -/
def InOrder (t : DcacheTree) (out : List CachedDentry) : Prop :=
  ∀ pre d post, out = pre ++ d :: post → ∀ anc, (d, anc) ∈ t.subdirs.placed [t.root] →
    ∀ x ∈ anc, x ∈ out → x ∈ pre

/-- After a walk over the directories below an `IS_ROOT` root the refresh loop meets a dentry only
after its parent was refreshed. -/
def RefreshSound (t : DcacheTree) : Prop :=
  Sound t → t.isRoot = true → ∀ room out, Ends t testDir room (.ok ()) out →
    ∀ sgen doRefreshDir digen, digen t.root = sgen → refreshDir t sgen doRefreshDir digen out ≠ .bug

/-- A walk that succeeds has listed what is listed where every append finds room. -/
theorem eq_listed_of_ends (h : Ends t test room (.ok ()) out) : out = listed t test := by
  rcases leads_done t test room with hok | ⟨⟨out', herr⟩, -⟩
  · exact (Reaches.done_unique h hok).2
  · cases (Reaches.done_unique h herr).1

theorem inOrder_listed : InOrder t (listed t test) := by
  intro pre d post hout anc hplaced x hx hmem
  have hacc := (mem_listed hmem).1
  have hfollows : Follows (AfterAncestors t test) [] (listed t test) := follows_listed
  rw [hout] at hfollows
  exact hfollows.at anc hplaced x hx hacc

theorem reached_sublist (f : Forest CachedDentry) : (reached f).Sublist f.items := by
  induction f with
  | nil => exact List.Sublist.slnil
  | cons d below rest ihb ihr =>
      rw [reached, items]
      split
      · exact (ihb.append ihr).cons_cons d
      · exact (ihr.trans (List.sublist_append_right _ _)).cons d

theorem once_of_not_hasGrandparent (h : hasGrandparent t test t.subdirs = false) : Once t test (listed t test) := by
  intro d hd
  have hnot : d ∉ oneHere t test t.root := by
    unfold oneHere
    split
    · exact fun hmem => hd (List.mem_singleton.mp hmem)
    · exact List.not_mem_nil
  have hnodup : ((reached t.subdirs).filter (accepts t test)).Nodup :=
    ((reached_sublist t.subdirs).nodup (List.nodup_cons.mp t.distinct).2).filter _
  rw [listed, List.count_append, List.count_eq_zero_of_not_mem hnot, Nat.zero_add, count_listing_of_notMem hnot,
    listing_eq_filter not_mem_items h (.inl rfl)]
  by_cases hmem : d ∈ reached t.subdirs ∧ accepts t test d = true
  · rw [if_pos hmem]
    exact List.count_eq_one_of_mem hnodup (List.mem_filter.mpr hmem)
  · rw [if_neg hmem]
    exact List.count_eq_zero_of_not_mem fun h' => hmem (List.mem_filter.mp h')

theorem not_once_of_hasGrandparent (h : hasGrandparent t test t.subdirs = true) : ¬ Once t test (listed t test) := by
  intro honce
  obtain ⟨d, hd, hcount⟩ : ∃ d ∈ t.subdirs.items,
      2 ≤ (listing t test (oneHere t test t.root) t.subdirs).count d := exists_twice not_mem_items h
  have hne : d ≠ t.root := fun heq => not_mem_items (heq ▸ hd)
  have hd1 := honce d hne
  rw [listed, List.count_append] at hd1
  split at hd1 <;> omega

/-- The walk ends, what it lists is in order, and the refresh loop never meets a dentry before its
parent. It lists every dentry once exactly if no dentry that is to be listed has a positive child
with children. -/
theorem auDcsubPages_once_iff (t : DcacheTree) (test : CachedDentry → Bool) :
    (∀ room, (∃ r out, Ends t test room r out) ∧
        ∀ out, Ends t test room (.ok ()) out → Once t test out ∧ InOrder t out) ∧ RefreshSound t ↔
      hasGrandparent t test t.subdirs = false := by
  constructor
  · rintro ⟨hwalk, -⟩
    by_contra hgrand
    rw [Bool.not_eq_false] at hgrand
    have hok : Ends t test (fun _ => true) (.ok ()) (listed t test) := by
      rcases leads_done t test fun _ => true with hok | ⟨-, k, hk⟩
      · exact hok
      · cases hk
    exact not_once_of_hasGrandparent hgrand ((hwalk _).2 _ hok).1
  · intro hgrand
    refine ⟨fun room => ⟨?_, ?_⟩, ?_⟩
    · rcases leads_done t test room with hok | ⟨⟨out, herr⟩, -⟩
      · exact ⟨_, _, hok⟩
      · exact ⟨_, _, herr⟩
    · intro out hout
      rw [eq_listed_of_ends hout]
      exact ⟨once_of_not_hasGrandparent hgrand, inOrder_listed⟩
    · intro hsound hisRoot room out hout sgen doRefreshDir digen hroot
      rw [eq_listed_of_ends hout]
      refine refreshDir_ne_bug hsound hisRoot (fun x hx => mem_listed hx) follows_listed hroot ?_
      intro x hx
      cases hx

-- ---------------------------------------------------------------------------
-- A file in the third directory
-- ---------------------------------------------------------------------------

/-- The directories `a` and `a/b`. -/
def dirA : CachedDentry := ⟨1, 0, 1, some .dir⟩
def dirB : CachedDentry := ⟨2, 0, 1, some .dir⟩

/-- The cached dentries of `/a/b/c`. -/
def pathTree : DcacheTree where
  root := ⟨0, 0, 1, some .dir⟩
  subdirs := .cons dirA (.cons dirB (.cons ⟨3, 0, 1, some .reg⟩ .nil .nil) .nil) .nil
  isRoot := true
  distinct := by decide

/-- The directory `a` is listed when the walk goes into it and when it comes back from `a/b`. -/
theorem pathTree_twice :
    ¬ ∀ room out, Ends pathTree testDir room (.ok ()) out → Once pathTree testDir out := by
  intro h
  have hends : Ends pathTree testDir (fun _ => true) (.ok ()) [dirA, dirB, dirA] := ⟨11, by rfl⟩
  have honce := h _ _ hends dirA (by decide)
  rw [show List.count dirA [dirA, dirB, dirA] = 2 by decide] at honce
  split at honce <;> cases honce

end Dcsub

end Aufs
