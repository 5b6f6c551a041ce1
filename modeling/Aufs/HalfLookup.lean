-- SUMMARY: Lookup on a dentry that has some of its hidden dentries already: the search is taken up again.
import Aufs.Refresh
import Aufs.Lib.Resume

/-!
# Lookup on a half-filled dentry

After the remapping, `lkup_dentry` skips the slots that are filled and goes on
with the marks that were taken over. For directories this is the resumed search
of `Lib/Resume.lean`; for other files the first filled slot is the end.
-/

namespace Aufs

open Overlay

variable {sb : SuperBlock} {name : Name} {parent d : Dinfo} {w w' : World} {type : FType}

-- ---------------------------------------------------------------------------
-- The lookup on the half-filled array
-- ---------------------------------------------------------------------------

theorem Dinfo.Tidy.enter (h : d.Tidy) {b : Int} (hb : 0 ≤ b) (x : HDentry) : (d.enter b x).Tidy := by
  have h0 := h.nonneg
  refine ⟨?_, fun c hc => ?_⟩
  · simp only [Dinfo.enter]
    split <;> omega
  · simp only [Dinfo.enter] at hc ⊢
    have hcb : c ≠ b ∧ c < d.bstart := by split at hc <;> omega
    rw [Function.update_of_ne hcb.1]
    exact h.below c hcb.2

/-- A mark as an option. -/
def markOpt (b : Int) : Option Int := if b = -1 then none else some b

@[simp] theorem markOpt_getD (b : Int) : (markOpt b).getD (-1) = b := by
  unfold markOpt
  split <;> simp [*]

theorem mem_of_lookup {l : List (Int × HDentry)} (hl : (l.map Prod.fst).Pairwise (· < ·)) {b : Int}
    {x : HDentry} : l.lookup b = some x ↔ (b, x) ∈ l := by
  induction l with
  | nil => simp
  | cons e l ih =>
      obtain ⟨he, hl⟩ := List.pairwise_cons.mp hl
      rw [List.lookup_cons, List.mem_cons]
      by_cases hb : b = e.1
      · subst hb
        have hno : (e.1, x) ∉ l := fun hm => lt_irrefl _ (he e.1 (List.mem_map.mpr ⟨_, hm, rfl⟩))
        simp only [beq_self_eq_true, Option.some.injEq, hno, or_false]
        exact ⟨fun h => by rw [← h], fun h => by rw [← h]⟩
      · have hbe : (b == e.1) = false := by simpa using hb
        rw [hbe]
        simp only [ih hl]
        exact ⟨.inr, fun h => h.resolve_left fun he => hb (by rw [← he])⟩

/-- A search that finds something leaves exact ends. -/
theorem ends_ofScan {r : Scan Int HDentry} (hl : (r.slots.map Prod.fst).Pairwise (· < ·))
    (h0 : ∀ e ∈ r.slots, 0 ≤ e.1) (hne : r.slots ≠ []) : (Dinfo.ofScan r).Ends := by
  obtain ⟨e, l, he⟩ := List.exists_cons_of_ne_nil hne
  have hfirst : (Dinfo.ofScan r).bstart = e.1 := by simp [Dinfo.ofScan, he]
  have hlast : (Dinfo.ofScan r).bend = (r.slots.getLast hne).1 := by
    simp [Dinfo.ofScan, List.getLast?_eq_getLast_of_ne_nil hne]
  have hfill : ∀ x ∈ r.slots, ((Dinfo.ofScan r).hdentry x.1).isSome := fun x hx => by
    rw [hdentry_ofScan, (mem_of_lookup hl (x := x.2)).mpr hx]
    rfl
  refine ⟨by rw [hfirst]; exact h0 e (by simp [he]), by rw [hfirst]; exact hfill e (by simp [he]),
    by rw [hlast]; exact hfill _ (List.getLast_mem hne), fun b hb => ?_⟩
  obtain ⟨x, hx⟩ := Option.isSome_iff_exists.mp hb
  have hmem : (b, x) ∈ r.slots := (mem_of_lookup hl).mp hx
  refine ⟨?_, ?_⟩
  · rw [hfirst]
    rw [he] at hmem hl
    rcases List.mem_cons.mp hmem with h | h
    · simp [← h]
    · exact (List.rel_of_pairwise_cons hl (List.mem_map_of_mem h)).le
  · rw [hlast]
    have hmap : (r.slots.map Prod.fst) ≠ [] := by simpa using hne
    have := List.Pairwise.rel_getLast_of_rel_getLast_getLast (R := (· ≤ ·)) (hl.imp le_of_lt)
      (List.mem_map_of_mem (f := Prod.fst) hmem) le_rfl
    simpa [List.getLast_map] using this

end Aufs
