-- SUMMARY: In-place remapping of an array: every item is swapped to its target slot or dropped, with termination and no-loss.
import Mathlib.Data.Finset.Card
import Mathlib.Data.Finset.Range
import Mathlib.Logic.Equiv.Basic

/-!
# Remapping an array in place

A cursor runs over an array of optional items. An item without a target is
dropped, an item away from its target is swapped to it, and when the swap has
brought another item under the cursor the cursor stays where it is. The array
may be scanned over a range whose end moves while the scan runs, so the step is
defined on its own and the invariant takes the range as a parameter.
-/

namespace Remap

variable {α : Type*}

/-- The array, the cursor and the items dropped so far, last one first. -/
structure State (α : Type*) where
  slots : Int → Option α
  pos : Int
  dropped : List α

/-- The array with the contents of two slots exchanged. -/
def swap (s : Int → Option α) (i j : Int) : Int → Option α := s ∘ Equiv.swap i j

theorem swap_apply (s : Int → Option α) (i j k : Int) :
    swap s i j k = if k = i then s j else if k = j then s i else s k := by
  simp only [swap, Function.comp_apply, Equiv.swap_apply_def]
  split
  · rfl
  · split <;> rfl

/-- One round of the scan. -/
def step (tgt : α → Option Int) (σ : State α) : State α :=
  match σ.slots σ.pos with
  | none => { σ with pos := σ.pos + 1 }
  | some x =>
    match tgt x with
    | none =>
      { slots := Function.update σ.slots σ.pos none, pos := σ.pos + 1, dropped := x :: σ.dropped }
    | some j =>
      if j = σ.pos then { σ with pos := σ.pos + 1 }
      else
        { slots := swap σ.slots σ.pos j
          pos := if (σ.slots j).isSome then σ.pos else σ.pos + 1
          dropped := σ.dropped }

/-- What one round can do. -/
inductive StepCase (tgt : α → Option Int) (σ : State α) : State α → Prop where
  | empty (h : σ.slots σ.pos = none) : StepCase tgt σ { σ with pos := σ.pos + 1 }
  | drop {x : α} (h : σ.slots σ.pos = some x) (ht : tgt x = none) :
      StepCase tgt σ ⟨Function.update σ.slots σ.pos none, σ.pos + 1, x :: σ.dropped⟩
  | stay {x : α} (h : σ.slots σ.pos = some x) (ht : tgt x = some σ.pos) :
      StepCase tgt σ { σ with pos := σ.pos + 1 }
  | move {x : α} {j : Int} (h : σ.slots σ.pos = some x) (ht : tgt x = some j) (hj : j ≠ σ.pos)
      (he : σ.slots j = none) : StepCase tgt σ ⟨swap σ.slots σ.pos j, σ.pos + 1, σ.dropped⟩
  | exchange {x y : α} {j : Int} (h : σ.slots σ.pos = some x) (ht : tgt x = some j)
      (hj : j ≠ σ.pos) (hy : σ.slots j = some y) :
      StepCase tgt σ ⟨swap σ.slots σ.pos j, σ.pos, σ.dropped⟩

theorem step_cases (tgt : α → Option Int) (σ : State α) : StepCase tgt σ (step tgt σ) := by
  unfold step
  split
  · exact .empty ‹_›
  · rename_i x hx
    split
    · exact .drop hx ‹_›
    · rename_i j ht
      split
      · rename_i hj
        exact .stay hx (hj ▸ ht)
      · rename_i hj
        cases hy : σ.slots j with
        | none => exact .move hx ht hj hy
        | some y => exact .exchange hx ht hj hy

-- ---------------------------------------------------------------------------
-- The invariant
-- ---------------------------------------------------------------------------

/-- No item occurs twice and no two items have one target. -/
def Separated (tgt : α → Option Int) (s : Int → Option α) : Prop :=
  ∀ ⦃i j x y⦄, s i = some x → s j = some y → (x = y ∨ ∃ b, tgt x = some b ∧ tgt y = some b) → i = j

/-- The slot is empty or holds the item whose target it is. -/
def Settled (tgt : α → Option Int) (s : Int → Option α) (k : Int) : Prop :=
  ∀ x, s k = some x → tgt x = some k

/-- The scan of `s₀` has passed the slots below the cursor, and everything above
`hi` is where it belongs. -/
structure Inv (tgt : α → Option Int) (s₀ : Int → Option α) (hi : Int) (σ : State α) : Prop where
  separated : Separated tgt σ.slots
  below : ∀ k < σ.pos, Settled tgt σ.slots k
  above : ∀ k > hi, Settled tgt σ.slots k
  kept : ∀ x, (∃ k, s₀ k = some x) ↔ (∃ k, σ.slots k = some x) ∨ x ∈ σ.dropped
  noTarget : ∀ x ∈ σ.dropped, tgt x = none
  gone : ∀ x ∈ σ.dropped, ∀ k, σ.slots k ≠ some x
  nodup : σ.dropped.Nodup

variable {tgt : α → Option Int} {s₀ : Int → Option α} {lo hi : Int} {σ : State α}

theorem Inv.init (hs : Separated tgt s₀) (hlo : ∀ k < lo, s₀ k = none)
    (hhi : ∀ k > hi, s₀ k = none) : Inv tgt s₀ hi ⟨s₀, lo, []⟩ where
  separated := hs
  below := fun k hk x hx => by simp [hlo k hk] at hx
  above := fun k hk x hx => by simp [hhi k hk] at hx
  kept := by simp
  noTarget := by simp
  gone := by simp
  nodup := List.nodup_nil

theorem Inv.mono {hi' : Int} (h : Inv tgt s₀ hi σ) (hle : hi ≤ hi') : Inv tgt s₀ hi' σ :=
  { h with above := fun k hk => h.above k (by omega) }

theorem Separated.swap {s : Int → Option α} (h : Separated tgt s) (i j : Int) :
    Separated tgt (swap s i j) := by
  intro a b x y ha hb hxy
  exact (Equiv.swap i j).injective (h ha hb hxy)

theorem Separated.update {s : Int → Option α} (h : Separated tgt s) (i : Int) :
    Separated tgt (Function.update s i none) := by
  intro a b x y ha hb hxy
  refine h (i := a) (j := b) ?_ ?_ hxy
  · by_cases hai : a = i
    · simp [hai] at ha
    · simpa [hai] using ha
  · by_cases hbi : b = i
    · simp [hbi] at hb
    · simpa [hbi] using hb

private theorem exists_swap (s : Int → Option α) (i j : Int) (x : α) :
    (∃ k, swap s i j k = some x) ↔ ∃ k, s k = some x := by
  constructor
  · rintro ⟨k, hk⟩
    exact ⟨_, hk⟩
  · rintro ⟨k, hk⟩
    exact ⟨Equiv.swap i j k, by simpa [swap] using hk⟩

/-- A swap of the item under the cursor to its target keeps everything but the
place of the cursor. What was at the target was not settled there. -/
private theorem Inv.swap (h : Inv tgt s₀ hi σ) (hp : σ.pos ≤ hi) {x : α} {j : Int}
    (hx : σ.slots σ.pos = some x) (ht : tgt x = some j) :
    Inv tgt s₀ hi ⟨swap σ.slots σ.pos j, σ.pos, σ.dropped⟩ := by
  have hset : ∀ k, k ≠ σ.pos → Settled tgt σ.slots k → Settled tgt (Remap.swap σ.slots σ.pos j) k := by
    intro k hk hs y hy
    rw [swap_apply, if_neg hk] at hy
    split at hy
    · rename_i hkj
      rw [hx] at hy
      obtain rfl : x = y := by simpa using hy
      rw [ht, hkj]
    · exact hs y hy
  refine ⟨h.separated.swap _ _, fun k hk => hset k (by simp only at hk; omega) (h.below k hk),
    fun k hk => hset k (by omega) (h.above k hk), ?_, h.noTarget, ?_, h.nodup⟩
  · intro y
    rw [h.kept y, exists_swap]
  · intro y hy k
    exact h.gone y hy _

theorem Inv.step (h : Inv tgt s₀ hi σ) (hp : σ.pos ≤ hi) : Inv tgt s₀ hi (step tgt σ) := by
  have advance : ∀ τ : State α, Inv tgt s₀ hi τ → Settled tgt τ.slots τ.pos →
      Inv tgt s₀ hi ⟨τ.slots, τ.pos + 1, τ.dropped⟩ := by
    intro τ hτ hs
    refine { hτ with below := fun k hk => ?_ }
    rcases (show k < τ.pos ∨ k = τ.pos by simp only at hk; omega) with hk | rfl
    · exact hτ.below k hk
    · exact hs
  have hc := step_cases tgt σ
  generalize Remap.step tgt σ = τ at hc
  cases hc with
  | empty he => exact advance σ h fun x hx => by simp [he] at hx
  | stay hx ht =>
      refine advance σ h fun y hy => ?_
      rw [hx] at hy
      obtain rfl := Option.some.inj hy
      exact ht
  | move hx ht hj he =>
      refine advance _ (h.swap hp hx ht) fun y hy => ?_
      simp [swap_apply, he] at hy
  | exchange hx ht hj hy => exact h.swap hp hx ht
  | @drop x hx ht =>
      have hother : ∀ k y, Function.update σ.slots σ.pos none k = some y →
          k ≠ σ.pos ∧ σ.slots k = some y := by
        intro k y hk
        by_cases hkp : k = σ.pos
        · simp [hkp] at hk
        · exact ⟨hkp, by simpa [hkp] using hk⟩
      refine ⟨h.separated.update _, ?_, ?_, ?_, ?_, ?_, ?_⟩
      · intro k hk y hy
        obtain ⟨hkp, hy⟩ := hother k y hy
        exact h.below k (by simp only at hk; omega) y hy
      · intro k hk y hy
        exact h.above k hk y (hother k y hy).2
      · intro y
        rw [h.kept y, List.mem_cons]
        constructor
        · rintro (⟨k, hk⟩ | hy)
          · by_cases hkp : k = σ.pos
            · subst hkp
              rw [hx] at hk
              exact .inr (.inl (Option.some.inj hk).symm)
            · exact .inl ⟨k, by simpa [hkp] using hk⟩
          · exact .inr (.inr hy)
        · rintro (⟨k, hk⟩ | rfl | hy)
          · exact .inl ⟨k, (hother k y hk).2⟩
          · exact .inl ⟨_, hx⟩
          · exact .inr hy
      · intro y hy
        rcases List.mem_cons.mp hy with rfl | hy
        · exact ht
        · exact h.noTarget y hy
      · intro y hy k hk
        obtain ⟨hkp, hky⟩ := hother k y hk
        rcases List.mem_cons.mp hy with rfl | hy
        · exact hkp (h.separated hky hx (.inl rfl))
        · exact h.gone y hy k hky
      · exact List.nodup_cons.mpr ⟨fun hm => h.gone x hm _ hx, h.nodup⟩

/-- When the cursor has passed the end of the range, a slot holds exactly the
item whose target it is, and exactly the items without target were dropped. -/
theorem Inv.final (h : Inv tgt s₀ hi σ) (hp : hi < σ.pos) :
    (∀ k x, σ.slots k = some x ↔ tgt x = some k ∧ ∃ i, s₀ i = some x) ∧
      σ.dropped.Nodup ∧ ∀ x, x ∈ σ.dropped ↔ tgt x = none ∧ ∃ i, s₀ i = some x := by
  have hset : ∀ k, Settled tgt σ.slots k := fun k =>
    if hk : k < σ.pos then h.below k hk else h.above k (by omega)
  refine ⟨fun k x => ⟨fun hk => ?_, ?_⟩, h.nodup, fun x => ⟨fun hx => ?_, ?_⟩⟩
  · exact ⟨hset k x hk, (h.kept x).mpr (.inl ⟨k, hk⟩)⟩
  · rintro ⟨ht, hi⟩
    rcases (h.kept x).mp hi with ⟨i, hi⟩ | hd
    · have : i = k := by
        have := hset i x hi
        rw [ht] at this
        exact (Option.some.inj this).symm
      rwa [← this]
    · simp [h.noTarget x hd] at ht
  · exact ⟨h.noTarget x hx, (h.kept x).mpr (.inr hx)⟩
  · rintro ⟨ht, hi⟩
    rcases (h.kept x).mp hi with ⟨i, hi⟩ | hd
    · simp [hset i x hi] at ht
    · exact hd

-- ---------------------------------------------------------------------------
-- Termination
-- ---------------------------------------------------------------------------

/-- The slots from `lo` to `hi`. -/
def window (lo hi : Int) : Finset Int :=
  (Finset.range (hi + 1 - lo).toNat).image fun n : Nat => lo + (n : Int)

theorem mem_window {lo hi k : Int} : k ∈ window lo hi ↔ lo ≤ k ∧ k ≤ hi := by
  simp only [window, Finset.mem_image, Finset.mem_range]
  constructor
  · rintro ⟨n, hn, rfl⟩
    omega
  · rintro ⟨h1, h2⟩
    exact ⟨(k - lo).toNat, by omega, by omega⟩

theorem card_window_le (lo hi : Int) : (window lo hi).card ≤ (hi + 1 - lo).toNat :=
  Finset.card_image_le.trans (Finset.card_range _).le

/-- The slots of the range that hold an item which is not at home there. -/
def strays (home : Int → α → Bool) (lo hi : Int) (s : Int → Option α) : Finset Int :=
  (window lo hi).filter fun k => (s k).any fun x => !home k x

theorem mem_strays {home : Int → α → Bool} {lo hi k : Int} {s : Int → Option α} :
    k ∈ strays home lo hi s ↔ (lo ≤ k ∧ k ≤ hi) ∧ ∃ x, s k = some x ∧ home k x = false := by
  simp [strays, mem_window, Option.any_eq_true]

theorem card_strays_le (home : Int → α → Bool) (lo hi : Int) (s : Int → Option α) :
    (strays home lo hi s).card ≤ (hi + 1 - lo).toNat :=
  (Finset.card_filter_le _ _).trans (card_window_le lo hi)

section

variable {home : Int → α → Bool} {s : Int → Option α} {i j : Int} {x y : α}

/-- Emptying a slot. -/
theorem strays_update_subset : strays home lo hi (Function.update s i none) ⊆ strays home lo hi s := by
  intro k hk
  obtain ⟨hr, z, hz, haway⟩ := mem_strays.mp hk
  refine mem_strays.mpr ⟨hr, z, ?_, haway⟩
  by_cases hki : k = i
  · simp [hki] at hz
  · simpa [hki] using hz

/-- Bringing a stray item home. -/
theorem strays_swap_subset (hx : s i = some x) (haway : home i x = false) (hhome : home j x = true) :
    strays home lo hi (swap s i j) ⊆ strays home lo hi s := by
  intro k hk
  obtain ⟨hr, z, hz, hz'⟩ := mem_strays.mp hk
  rw [swap_apply] at hz
  refine mem_strays.mpr ⟨hr, ?_⟩
  split at hz
  · rename_i hki
    exact ⟨x, hki ▸ hx, hki ▸ haway⟩
  · split at hz
    · rename_i hkj
      rw [hx] at hz
      obtain rfl := Option.some.inj hz
      rw [hkj, hhome] at hz'
      exact absurd hz' (by decide)
    · exact ⟨z, hz, hz'⟩

/-- Bringing a stray item home, to where another one is that was not. -/
theorem card_strays_swap_lt (hx : s i = some x) (haway : home i x = false) (hhome : home j x = true)
    (hj : lo ≤ j ∧ j ≤ hi) (hy : s j = some y) (hy' : home j y = false) :
    (strays home lo hi (swap s i j)).card < (strays home lo hi s).card := by
  refine Finset.card_lt_card (Finset.ssubset_iff_subset_ne.mpr
    ⟨strays_swap_subset hx haway hhome, fun he => ?_⟩)
  have hmem : j ∈ strays home lo hi (swap s i j) := he ▸ mem_strays.mpr ⟨hj, y, hy, hy'⟩
  obtain ⟨-, z, hz, hz'⟩ := mem_strays.mp hmem
  have hne : j ≠ i := by
    rintro rfl
    exact absurd (haway.symm.trans hhome) (by decide)
  rw [swap_apply, if_neg hne, if_pos rfl, hx] at hz
  obtain rfl := Option.some.inj hz
  exact absurd (hhome.symm.trans hz') (by decide)

end

/-- The slots of the range that hold an item of another slot. -/
def misplaced (tgt : α → Option Int) (lo hi : Int) (s : Int → Option α) : Finset Int :=
  (window lo hi).filter fun k => (s k).any fun x => tgt x ≠ some k

/-- What is left of the scan: the misplaced items and the way to the end. -/
def remaining (tgt : α → Option Int) (lo hi : Int) (σ : State α) : Nat :=
  (misplaced tgt lo hi σ.slots).card + (hi + 1 - σ.pos).toNat

theorem misplaced_eq (tgt : α → Option Int) (lo hi : Int) (s : Int → Option α) :
    misplaced tgt lo hi s = strays (fun k x => tgt x = some k) lo hi s := by
  simp only [misplaced, strays, decide_not, ne_eq]

theorem remaining_le (lo hi : Int) (hlo : lo ≤ σ.pos) :
    remaining tgt lo hi σ ≤ 2 * (hi + 1 - lo).toNat := by
  have hcard := card_strays_le (fun k x => tgt x = some k) lo hi σ.slots
  simp only [remaining, misplaced_eq]
  omega

/-- Every round brings the scan nearer to its end: a swap settles an item, and
every other round advances the cursor. -/
theorem remaining_step (lo hi : Int) (hs : Separated tgt σ.slots) (hhi : σ.pos ≤ hi)
    (htgt : ∀ k x j, σ.slots k = some x → tgt x = some j → lo ≤ j ∧ j ≤ hi) :
    remaining tgt lo hi (step tgt σ) < remaining tgt lo hi σ := by
  have advance : ∀ τ : State α, τ.pos = σ.pos + 1 →
      strays (fun k x => tgt x = some k) lo hi τ.slots ⊆
        strays (fun k x => tgt x = some k) lo hi σ.slots →
      remaining tgt lo hi τ < remaining tgt lo hi σ := by
    intro τ hτ hsub
    have := Finset.card_le_card hsub
    simp only [remaining, misplaced_eq, hτ]
    omega
  have haway : ∀ {x j}, tgt x = some j → j ≠ σ.pos → decide (tgt x = some σ.pos) = false := by
    intro x j ht hj
    simpa [ht] using hj
  have hc := step_cases tgt σ
  generalize step tgt σ = τ at hc
  cases hc with
  | empty he => exact advance _ rfl (Finset.Subset.refl _)
  | stay hx ht => exact advance _ rfl (Finset.Subset.refl _)
  | move hx ht hj he => exact advance _ rfl (strays_swap_subset hx (haway ht hj) (decide_eq_true ht))
  | drop hx ht => exact advance _ rfl strays_update_subset
  | @exchange x y j hx ht hj hy =>
      -- what was in the target slot was of another slot
      have hy' : decide (tgt y = some j) = false := by
        refine decide_eq_false fun hty => hj ?_
        exact hs hy hx (.inr ⟨j, hty, ht⟩)
      have hless : (strays (fun k x => tgt x = some k) lo hi (swap σ.slots σ.pos j)).card <
          (strays (fun k x => tgt x = some k) lo hi σ.slots).card :=
        card_strays_swap_lt hx (haway ht hj) (decide_eq_true ht) (htgt _ x j hx ht) hy hy'
      simp only [remaining, misplaced_eq]
      omega

/-- The items of a round are those of the round before. -/
theorem mem_step {k : Int} {x : α} (h : (step tgt σ).slots k = some x) :
    ∃ i, σ.slots i = some x := by
  have hc := step_cases tgt σ
  generalize step tgt σ = τ at hc h
  cases hc with
  | empty he => exact ⟨k, h⟩
  | stay hx ht => exact ⟨k, h⟩
  | move hx ht hj he => exact ⟨_, h⟩
  | exchange hx ht hj hy => exact ⟨_, h⟩
  | drop hx ht =>
      by_cases hkp : k = σ.pos
      · simp [hkp] at h
      · exact ⟨k, by simpa [hkp] using h⟩

-- ---------------------------------------------------------------------------
-- The whole scan
-- ---------------------------------------------------------------------------

/-- The scan up to `hi`. `none` when the fuel does not reach the end. -/
def scan (tgt : α → Option Int) (hi : Int) : Nat → State α → Option (State α)
  | 0, σ => if σ.pos ≤ hi then none else some σ
  | fuel + 1, σ => if σ.pos ≤ hi then scan tgt hi fuel (step tgt σ) else some σ

/-- The cursor never goes back. -/
theorem pos_le_step (tgt : α → Option Int) (σ : State α) : σ.pos ≤ (step tgt σ).pos := by
  have hc := step_cases tgt σ
  generalize step tgt σ = τ at hc
  cases hc <;> simp only <;> omega

theorem Inv.scan {fuel : Nat} {N : Int} (h : Inv tgt s₀ hi σ) (hlo : lo ≤ σ.pos) (hN : hi ≤ N)
    (htgt : ∀ i x j, s₀ i = some x → tgt x = some j → lo ≤ j ∧ j ≤ N)
    (hfuel : remaining tgt lo N σ ≤ fuel) :
    ∃ τ, scan tgt hi fuel σ = some τ ∧ hi < τ.pos ∧ Inv tgt s₀ hi τ := by
  induction fuel generalizing σ with
  | zero =>
      have hlt : hi < σ.pos := by
        simp only [remaining] at hfuel
        omega
      exact ⟨σ, by rw [Remap.scan, if_neg (by omega)], hlt, h⟩
  | succ fuel ih =>
      rw [Remap.scan]
      split
      case isFalse hle => exact ⟨σ, rfl, by omega, h⟩
      case isTrue hle =>
        have hless := remaining_step lo N h.separated (by omega) fun k x j hk ht =>
          have ⟨i, hi⟩ := (h.kept x).mpr (.inl ⟨k, hk⟩)
          htgt i x j hi ht
        exact ih (h.step hle) (hlo.trans (pos_le_step tgt σ)) (by omega)

/-- A scan of an array that is filled from `lo` to `hi` ends, and leaves every item with a
target there and nothing else. -/
theorem scan_eq_some {fuel : Nat} {bot N : Int} (hs : Separated tgt s₀)
    (hrange : ∀ k x, s₀ k = some x → lo ≤ k ∧ k ≤ hi) (hbot : bot ≤ lo) (hN : hi ≤ N)
    (htgt : ∀ i x j, s₀ i = some x → tgt x = some j → bot ≤ j ∧ j ≤ N)
    (hfuel : 2 * (N + 1 - bot).toNat ≤ fuel) :
    ∃ τ, scan tgt hi fuel ⟨s₀, lo, []⟩ = some τ ∧
      ∀ k x, τ.slots k = some x ↔ tgt x = some k ∧ ∃ i, s₀ i = some x := by
  have hout : ∀ k, k < lo ∨ k > hi → s₀ k = none := by
    intro k hk
    cases hx : s₀ k with
    | none => rfl
    | some x =>
        have := hrange k x hx
        omega
  have hinit : Inv tgt s₀ hi ⟨s₀, lo, []⟩ :=
    .init hs (fun k hk => hout k (.inl hk)) fun k hk => hout k (.inr hk)
  obtain ⟨τ, hτ, hpos, hinv⟩ := hinit.scan hbot hN htgt
    ((remaining_le bot N hbot).trans hfuel)
  exact ⟨τ, hτ, (hinv.final hpos).1⟩

end Remap
