-- SUMMARY: Library of circular doubly linked lists: unlinking an entry, and walks that unlink what they visit.
import Mathlib.Data.List.Chain
import Mathlib.Data.List.Nodup
import Mathlib.Logic.Function.Basic

/-!
# Rings

A list head and its entries are linked in a circle in both directions. An entry is
unlinked by its two neighbours alone. A walk that reads the next entry before it looks at
the present one may unlink the present one.
-/

namespace Ring

/-- The links of everything that can be in a ring. -/
structure Links (α : Type) where
  next : α → α
  prev : α → α

variable {α : Type}

namespace Links

/-- Unlink an entry: its neighbours are linked to each other. -/
def del [DecidableEq α] (s : Links α) (x : α) : Links α where
  next := Function.update s.next (s.prev x) (s.next x)
  prev := Function.update s.prev (s.next x) (s.prev x)

/-- `b` follows `a`. -/
def Linked (s : Links α) (a b : α) : Prop := s.next a = b ∧ s.prev b = a

/-- A ring of a head and the entries of a list. -/
structure Holds (s : Links α) (head : α) (l : List α) : Prop where
  nodup : (head :: l).Nodup
  chain : List.IsChain s.Linked (head :: (l ++ [head]))

variable {s : Links α} {head x : α} {l a b : List α}

/-- What follows in a ring. -/
theorem Holds.next_mid (h : s.Holds head (a ++ x :: b)) : (b ++ [head]).head? = some (s.next x) := by
  obtain ⟨n, post, hpost⟩ : ∃ n post, b ++ [head] = n :: post := List.exists_cons_of_ne_nil (by simp)
  have hold : head :: ((a ++ x :: b) ++ [head]) = (head :: a) ++ x :: n :: post := by
    rw [List.append_assoc, List.cons_append, hpost]
    rfl
  have hchain := h.chain
  rw [hold, List.isChain_append_cons_cons] at hchain
  rw [hpost, hchain.2.1.1]
  rfl

theorem Holds.next_head (h : s.Holds head l) : (l ++ [head]).head? = some (s.next head) := by
  have hchain := h.chain
  obtain ⟨n, post, hpost⟩ : ∃ n post, l ++ [head] = n :: post := List.exists_cons_of_ne_nil (by simp)
  rw [hpost, List.isChain_cons_cons] at hchain
  rw [hpost, hchain.1.1]
  rfl

private theorem chain_eq {l' : List α} (h : List.IsChain s.Linked (x :: (l ++ [head])))
    (h' : List.IsChain s.Linked (x :: (l' ++ [head]))) (hl : head ∉ l) (hl' : head ∉ l') : l = l' := by
  induction l generalizing x l' with
  | nil =>
    cases l' with
    | nil => rfl
    | cons y l' =>
      simp only [List.nil_append, List.cons_append, List.isChain_cons_cons] at h h'
      have hy : head = y := h.1.1.symm.trans h'.1.1
      exact absurd (hy ▸ List.mem_cons_self) hl'
  | cons z l ih =>
    cases l' with
    | nil =>
      simp only [List.nil_append, List.cons_append, List.isChain_cons_cons] at h h'
      have hz : head = z := h'.1.1.symm.trans h.1.1
      exact absurd (hz ▸ List.mem_cons_self) hl
    | cons y l' =>
      simp only [List.cons_append, List.isChain_cons_cons] at h h'
      have hy : z = y := h.1.1.symm.trans h'.1.1
      subst hy
      have hrest := ih h.2 h'.2 (fun hmem => hl (List.mem_cons_of_mem z hmem))
        (fun hmem => hl' (List.mem_cons_of_mem z hmem))
      rw [hrest]

/-- The links say what is in a ring. -/
theorem Holds.eq {l' : List α} (h : s.Holds head l) (h' : s.Holds head l') : l = l' :=
  chain_eq h.chain h'.chain (List.nodup_cons.mp h.nodup).1 (List.nodup_cons.mp h'.nodup).1

-- ---------------------------------------------------------------------------
-- Unlinking
-- ---------------------------------------------------------------------------

variable [DecidableEq α]

/-- Links between entries that are both not `x` do not change. -/
theorem Linked.del {p n u v : α} (h : s.Linked u v) (hp : s.Linked p x) (hn : s.Linked x n)
    (hu : u ≠ x) (hv : v ≠ x) : (s.del x).Linked u v := by
  have hup : u ≠ s.prev x := by
    rintro rfl
    rw [hp.2] at h
    exact hv (h.1.symm.trans hp.1)
  have hvn : v ≠ s.next x := by
    rintro rfl
    rw [hn.1] at h
    exact hu (h.2.symm.trans hn.2)
  exact ⟨(Function.update_of_ne hup ..).trans h.1, (Function.update_of_ne hvn ..).trans h.2⟩

theorem Linked.del_around {p n : α} (hp : s.Linked p x) (hn : s.Linked x n) :
    (s.del x).Linked p n := by
  simp only [Links.del, Linked, hp.2, hn.1, Function.update_self, and_self]

/-- Links among entries that are not `x` do not change. -/
private theorem chain_del {p n : α} {m : List α} (hp : s.Linked p x) (hn : s.Linked x n)
    (hx : x ∉ m) (h : List.IsChain s.Linked m) : List.IsChain (s.del x).Linked m := by
  apply h.imp_of_mem_imp
  intro u v hu hv huv
  exact huv.del hp hn (ne_of_mem_of_not_mem hu hx) (ne_of_mem_of_not_mem hv hx)

/-- An unlinked entry is the only one that a ring loses. -/
theorem Holds.del (h : s.Holds head (a ++ x :: b)) : (s.del x).Holds head (a ++ b) := by
  obtain ⟨pre, p, hpre⟩ : ∃ pre p, head :: a = pre ++ [p] :=
    ⟨_, _, (List.dropLast_append_getLast (List.cons_ne_nil head a)).symm⟩
  obtain ⟨n, post, hpost⟩ : ∃ n post, b ++ [head] = n :: post := List.exists_cons_of_ne_nil (by simp)
  have hold : head :: ((a ++ x :: b) ++ [head]) = pre ++ p :: x :: n :: post := by
    rw [List.append_assoc, List.cons_append, hpost, ← List.cons_append, hpre, List.append_assoc]
    rfl
  have hnew : head :: ((a ++ b) ++ [head]) = pre ++ p :: n :: post := by
    rw [List.append_assoc, hpost, ← List.cons_append, hpre, List.append_assoc]
    rfl
  have hnodup := h.nodup
  rw [← List.cons_append, List.nodup_middle, List.nodup_cons] at hnodup
  have hxpre : x ∉ pre ++ [p] := by
    rw [← hpre]
    intro hmem
    exact hnodup.1 (List.mem_append_left b hmem)
  have hxpost : x ∉ n :: post := by
    rw [← hpost, List.mem_append, List.mem_singleton]
    rintro (hmem | rfl)
    · exact hnodup.1 (List.mem_append_right _ hmem)
    · exact hnodup.1 (by simp)
  have hchain := h.chain
  rw [hold, List.isChain_append_cons_cons, List.isChain_cons_cons] at hchain
  obtain ⟨hleft, hp, hn, hright⟩ := hchain
  refine ⟨hnodup.2, ?_⟩
  rw [hnew, List.isChain_append_cons_cons]
  exact ⟨chain_del hp hn hxpre hleft, hp.del_around hn, chain_del hp hn hxpost hright⟩

end Links

-- ---------------------------------------------------------------------------
-- Walks
-- ---------------------------------------------------------------------------

section Walk

variable {σ : Type} [DecidableEq α]

/-- A walk over the entries of a ring. `tmp` is the entry behind `pos`, which was read before the
body runs. -/
def walk (links : σ → Links α) (body : σ → α → Option σ) (head : α) : Nat → α → α → σ → Option σ
  | 0, pos, _, st => if pos = head then some st else none
  | fuel + 1, pos, tmp, st =>
    if pos = head then some st
    else
      match body st pos with
      | none => none
      | some st => walk links body head fuel tmp ((links st).next tmp) st

/-- `list_for_each_entry_safe` -/
def forEachSafe (links : σ → Links α) (body : σ → α → Option σ) (head : α) (fuel : Nat) (st : σ) :
    Option σ :=
  let pos := (links st).next head
  walk links body head fuel pos ((links st).next pos) st

variable {links : σ → Links α} {body : σ → α → Option σ} {head : α} {Inv : List α → List α → σ → Prop}

private theorem walk_head (fuel : Nat) (tmp : α) (st : σ) :
    walk links body head fuel head tmp st = some st := by
  cases fuel with
  | zero => exact if_pos rfl
  | succ fuel => exact if_pos rfl

/-- The entries behind one that a walk looks at are looked at in turn, whatever the body does to
that one. The invariant says what was kept and what is to come. -/
theorem walk_rule (hring : ∀ ys rest st, Inv ys rest st → (links st).Holds head (ys ++ rest))
    (hbody : ∀ ys x rest st, Inv ys (x :: rest) st →
      ∃ ys' st', body st x = some st' ∧ Inv ys' rest st')
    {rest : List α} {fuel : Nat} {ys : List α} {st : σ} {pos tmp : α} (hfuel : rest.length ≤ fuel)
    (hinv : Inv ys rest st) (hpos : (rest ++ [head]).head? = some pos)
    (htmp : pos ≠ head → tmp = (links st).next pos) :
    ∃ ys' st', walk links body head fuel pos tmp st = some st' ∧ Inv ys' [] st' := by
  induction rest generalizing fuel ys st pos tmp with
  | nil =>
    obtain rfl : head = pos := Option.some.inj hpos
    exact ⟨ys, st, walk_head fuel tmp st, hinv⟩
  | cons x rest ih =>
    obtain rfl : x = pos := Option.some.inj hpos
    have hold := hring ys (x :: rest) st hinv
    have hne : x ≠ head := by
      rintro rfl
      exact (List.nodup_cons.mp hold.nodup).1 (by simp)
    cases fuel with
    | zero => cases hfuel
    | succ fuel =>
      obtain ⟨ys₁, st₁, hstep, hinv₁⟩ := hbody ys x rest st hinv
      have hnext : (rest ++ [head]).head? = some tmp := by
        rw [htmp hne]
        exact hold.next_mid
      simp only [walk, if_neg hne, hstep]
      exact ih (Nat.le_of_succ_le_succ hfuel) hinv₁ hnext fun _ => rfl

/-- What holds of all entries before a walk and is kept by the body holds behind it. -/
theorem forEachSafe_rule (hring : ∀ ys rest st, Inv ys rest st → (links st).Holds head (ys ++ rest))
    (hbody : ∀ ys x rest st, Inv ys (x :: rest) st →
      ∃ ys' st', body st x = some st' ∧ Inv ys' rest st')
    {l : List α} {fuel : Nat} {st : σ} (hfuel : l.length ≤ fuel) (hinv : Inv [] l st) :
    ∃ ys st', forEachSafe links body head fuel st = some st' ∧ Inv ys [] st' :=
  walk_rule hring hbody hfuel hinv (hring [] l st hinv).next_head fun _ => rfl

end Walk

end Ring
