-- SUMMARY: A search through layers that is taken up again: entries kept from before and marks left over, and when it completes them.
import Mathlib.Data.List.Basic
import Aufs.Lib.Overlay

/-!
# Searches taken up again

The layers may change after a search. A later search keeps the entries that are
still there, does not ask their layers again, and starts with the marks that the
earlier search has left. When is the outcome that of a new search?
-/

namespace Overlay

namespace Scan

variable {ι α : Type*} {isDir : α → Bool} {cell : ι → Cell α}

variable (cell) in
/-- A search that goes on with marks left over from an earlier one: with a mark set it ends
at the first entry, and with the mark of a mask at the first layer it asks. -/
def resume (wh opq : Option ι) : List ι → Scan ι α
  | [] => ⟨[], wh, opq⟩
  | b :: bs =>
    if (cell b).mask then ⟨[], some b, opq⟩
    else
      match (cell b).entry with
      | none => if wh.isSome then ⟨[], wh, opq⟩ else resume wh opq bs
      | some x =>
        if (cell b).opq then ⟨[(b, x)], wh, some b⟩
        else if wh.isSome || opq.isSome then ⟨[(b, x)], wh, opq⟩
        else (resume wh opq bs).cons b x

variable {L : List ι} {kept : ι → Prop} [DecidablePred kept]

/-- The layers that a resumed search asks. -/
def asked (kept : ι → Prop) [DecidablePred kept] (L : List ι) : List ι := L.filter fun b => ¬ kept b

@[simp] theorem mem_asked {b : ι} : b ∈ asked kept L ↔ b ∈ L ∧ ¬ kept b := by simp [asked]

theorem OnlyDirs.asked (hd : OnlyDirs isDir cell L) : OnlyDirs isDir cell (asked kept L) :=
  fun b hb => hd b (mem_asked.mp hb).1

-- ---------------------------------------------------------------------------
-- When the search is completed
-- ---------------------------------------------------------------------------

variable [LinearOrder ι]

theorem asked_sorted (kept : ι → Prop) [DecidablePred kept] (hL : L.Pairwise (· < ·)) : (asked kept L).Pairwise (· < ·) := hL.filter _

variable (cell L) in
/-- The search finds the layer's entry. -/
def Finds (b : ι) : Prop := Reached cell L b ∧ (cell b).mask = false ∧ (cell b).entry.isSome

/-- Nothing below a stop is reached. -/
theorem Reached.le {b c : ι} (h : Reached cell L b) (hc : c ∈ L) (hs : stops (cell c)) : b ≤ c := by
  by_contra hlt
  exact h.2 c hc (not_le.mp hlt) hs

end Scan

end Overlay
