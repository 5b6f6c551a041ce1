-- SUMMARY: Library of transfers in chunks: the loop that ends with a short answer, the rounds it reaches, and what its end is.
import Mathlib.Data.List.Basic

/-!
# Transfers in chunks

A transfer of many units is done by rounds that move no more than a chunk each. A round
that moves nothing ends it, and a round that fails ends it with its error, whatever was
moved before. The chunk shrinks with what is left.
-/

namespace Chunks

variable {σ ε : Type}

/-- One round, for the size of the chunk and what was moved before. -/
abbrev Body (σ ε : Type) : Type := σ → Nat → Nat → Except ε Nat × σ

/-- The rounds, until nothing is left. -/
def loop (body : Body σ ε) : Nat → Nat → Nat → Nat → σ → Option (Except ε Nat × σ)
  | 0, _, _, _, _ => none
  | fuel + 1, left, chunk, moved, s =>
    match body s chunk moved with
    | (.error err, s) => some (.error err, s)
    | (.ok n, s) =>
      if n = 0 then some (.ok moved, s)
      else if left - n = 0 then some (.ok (moved + n), s)
      else loop body fuel (left - n) (min chunk (left - n)) (moved + n) s

/-- What is left, the chunk, what was moved and the state before a round of a transfer. -/
inductive Reached (body : Body σ ε) (count chunk : Nat) (s₀ : σ) : Nat → Nat → Nat → σ → Prop where
  | start : Reached body count chunk s₀ count chunk 0 s₀
  | next {left c moved n : Nat} {s s' : σ} (h : Reached body count chunk s₀ left c moved s)
      (hbody : body s c moved = (.ok n, s')) (hn : n ≠ 0) (hleft : left - n ≠ 0) :
      Reached body count chunk s₀ (left - n) (min c (left - n)) (moved + n) s'

variable {body : Body σ ε} {count chunk left c moved n fuel : Nat} {s₀ s s' : σ}

-- ---------------------------------------------------------------------------
-- Rounds
-- ---------------------------------------------------------------------------

/-- What holds at the start and is kept by a round that goes on holds before every round. -/
theorem Reached.inv {Inv : Nat → Nat → Nat → σ → Prop} (h : Reached body count chunk s₀ left c moved s)
    (hstart : Inv count chunk 0 s₀)
    (hnext : ∀ left c moved n s s', Inv left c moved s → body s c moved = (.ok n, s') → n ≠ 0 →
      left - n ≠ 0 → Inv (left - n) (min c (left - n)) (moved + n) s') :
    Inv left c moved s := by
  induction h with
  | start => exact hstart
  | next _ hbody hn hleft ih => exact hnext _ _ _ _ _ _ ih hbody hn hleft

/-- The chunk is no more than what is left. -/
theorem Reached.chunk_le (h : Reached body count chunk s₀ left c moved s) (hle : chunk ≤ count) :
    c ≤ left := by
  cases h with
  | start => exact hle
  | next _ _ _ _ => exact Nat.min_le_right ..

/-- What is left and what was moved are the whole. -/
theorem Reached.left_add_moved (h : Reached body count chunk s₀ left c moved s) :
    left + moved = count := by
  induction h with
  | start => rfl
  | next _ _ _ hleft ih => omega

theorem Reached.chunk_pos (h : Reached body count chunk s₀ left c moved s) (hpos : 0 < chunk) :
    0 < c := by
  induction h with
  | start => exact hpos
  | next _ _ _ hleft ih => exact Nat.lt_min.mpr ⟨ih, Nat.pos_of_ne_zero hleft⟩

/-- A round that goes on is one round of the loop. -/
theorem loop_next (hbody : body s c moved = (.ok n, s')) (hn : n ≠ 0) (hleft : left - n ≠ 0) :
    loop body (fuel + 1) left c moved s =
      loop body fuel (left - n) (min c (left - n)) (moved + n) s' := by
  simp only [loop, hbody, if_neg hn, if_neg hleft]

theorem loop_error {err : ε} (hbody : body s c moved = (.error err, s')) :
    loop body (fuel + 1) left c moved s = some (.error err, s') := by
  simp only [loop, hbody]

/-- The loop is in every round that it reaches, with fuel for what is left. -/
theorem Reached.loop_eq (h : Reached body count chunk s₀ left c moved s) (hpos : 0 < count)
    (hfuel : count ≤ fuel) :
    0 < left ∧ ∃ rest, left ≤ rest ∧
      loop body fuel count chunk 0 s₀ = loop body rest left c moved s := by
  induction h with
  | start => exact ⟨hpos, fuel, hfuel, rfl⟩
  | next _ hbody hn hleft ih =>
    obtain ⟨_, rest, hrest, hloop⟩ := ih
    cases rest with
    | zero => omega
    | succ rest =>
      rw [loop_next hbody hn hleft] at hloop
      exact ⟨by omega, rest, by omega, hloop⟩

/-- A round that fails is the end of the transfer. -/
theorem Reached.loop_error {err : ε} (h : Reached body count chunk s₀ left c moved s)
    (hpos : 0 < count) (hfuel : count ≤ fuel) (hbody : body s c moved = (.error err, s')) :
    loop body fuel count chunk 0 s₀ = some (.error err, s') := by
  obtain ⟨hleft, rest, hrest, hloop⟩ := h.loop_eq hpos hfuel
  cases rest with
  | zero => omega
  | succ rest => rw [hloop, Chunks.loop_error hbody]

/-- The last round of a transfer: it fails, or it moves nothing or all that was left. -/
structure Ends (body : Body σ ε) (count chunk : Nat) (s₀ : σ) (r : Except ε Nat) (s' : σ)
    (left c moved : Nat) (s : σ) : Prop where
  reached : Reached body count chunk s₀ left c moved s
  last : (∃ err, r = .error err ∧ body s c moved = (.error err, s')) ∨
    ∃ n, r = .ok (moved + n) ∧ body s c moved = (.ok n, s') ∧ (n = 0 ∨ left - n = 0)

private theorem ends_from (h : Reached body count chunk s₀ left c moved s) (hleft : 0 < left)
    (hfuel : left ≤ fuel) :
    ∃ r s', loop body fuel left c moved s = some (r, s') ∧
      ∃ left' c' moved' t, Ends body count chunk s₀ r s' left' c' moved' t := by
  induction fuel generalizing left c moved s with
  | zero => omega
  | succ fuel ih =>
    rcases hbody : body s c moved with ⟨err | n, s'⟩
    case error =>
      exact ⟨_, _, Chunks.loop_error hbody, left, c, moved, s, h, Or.inl ⟨err, rfl, hbody⟩⟩
    case ok =>
      by_cases hn : n = 0
      case pos =>
        refine ⟨.ok moved, s', ?_, left, c, moved, s, h, Or.inr ⟨n, ?_, hbody, Or.inl hn⟩⟩
        · simp only [loop, hbody, if_pos hn]
        · rw [hn, Nat.add_zero]
      case neg =>
        by_cases hrest : left - n = 0
        case pos =>
          refine ⟨.ok (moved + n), s', ?_, left, c, moved, s, h, Or.inr ⟨n, rfl, hbody, Or.inr hrest⟩⟩
          simp only [loop, hbody, if_neg hn, if_pos hrest]
        case neg =>
          rw [loop_next hbody hn hrest]
          exact ih (h.next hbody hn hrest) (by omega) (by omega)

/-- A transfer ends: with the error of a round that it reached, or behind a round that moved nothing
or all that was left. -/
theorem loop_ends (body : Body σ ε) (chunk : Nat) (s₀ : σ) (hpos : 0 < count) (hfuel : count ≤ fuel) :
    ∃ r s', loop body fuel count chunk 0 s₀ = some (r, s') ∧
      ∃ left c moved s, Ends body count chunk s₀ r s' left c moved s :=
  ends_from .start hpos hfuel

/-- All ends of a transfer are good just when the rounds that fail end well, if the others do. -/
theorem loop_good_iff {Good : Except ε Nat → σ → Prop} (hpos : 0 < count) (hfuel : count ≤ fuel)
    (hok : ∀ left c moved n s s', Reached body count chunk s₀ left c moved s →
      body s c moved = (.ok n, s') → n = 0 ∨ left - n = 0 → Good (.ok (moved + n)) s') :
    (∃ r s', loop body fuel count chunk 0 s₀ = some (r, s') ∧ Good r s') ↔
      ∀ left c moved s err s', Reached body count chunk s₀ left c moved s →
        body s c moved = (.error err, s') → Good (.error err) s' := by
  constructor
  case mp =>
    rintro ⟨r, s', hloop, hgood⟩ left c moved s err s₁ hreached hbody
    rw [hreached.loop_error hpos hfuel hbody] at hloop
    obtain ⟨rfl, rfl⟩ := Prod.mk.inj (Option.some.inj hloop)
    exact hgood
  case mpr =>
    intro herr
    obtain ⟨r, s', hloop, left, c, moved, s, hreached, hlast⟩ := loop_ends body chunk s₀ hpos hfuel
    refine ⟨r, s', hloop, ?_⟩
    rcases hlast with ⟨err, rfl, hbody⟩ | ⟨n, rfl, hbody, hlast⟩
    case inl => exact herr _ _ _ _ _ _ hreached hbody
    case inr => exact hok _ _ _ _ _ _ hreached hbody hlast

end Chunks
