-- SUMMARY: aufs_lookup in a directory whose dentries are fresh: what the new dentry has, and that no file changes.
import Aufs.Added
import Aufs.ViewFrame

/-!
# A new dentry

An operation on a path starts with the lookup of its last name, in a directory whose
dentries are as fresh lookups leave them. The new dentry is what the directory shows under
the name, and a lookup changes no file, whether it succeeds or not.
-/

namespace Aufs

open Prog Op Overlay

variable {m m' : Mount} {sb : SuperBlock} {dir : Path} {name : Name} {b : Int} {w w' : World} {parent d d' : Dinfo}

-- ---------------------------------------------------------------------------
-- No file changes
-- ---------------------------------------------------------------------------

theorem isWh_fs {h : HDentry} {n : Name} {r : Except Errno Bool} (hl : isWh w h n = (r, w')) : w'.fs = w.fs := by
  unfold isWh at hl
  rcases hone : lkupOne w h n with ⟨_ | x, w₁⟩
  · rw [hone] at hl
    exact (Prod.mk.inj hl).2 ▸ lkupOne_fs hone
  · have hw := lkupOne_fs hone
    rw [hone] at hl
    dsimp only at hl
    split at hl
    · exact (Prod.mk.inj hl).2 ▸ hw
    · split at hl <;> exact (Prod.mk.inj hl).2 ▸ hw

theorem doLookup_fs {hp : HDentry} {an : Bool} {type : Option FType} {r : Except Errno (Option HDentry)}
    (hl : doLookup sb name hp d b an type w = (r, d', w')) : w'.fs = w.fs := by
  unfold doLookup at hl
  dsimp only at hl
  have hfirst : ∀ {x w₁}, (if sb.sbrIsWhable b then isWh w hp (whName name) else (.ok false, w)) = (x, w₁) →
      w₁.fs = w.fs := by
    intro x w₁ hx
    split at hx
    · exact isWh_fs hx
    · exact (Prod.mk.inj hx).2 ▸ rfl
  have hend : ∀ {α β : Type} {a a' : α} {x x' : β} {w₁ : World}, (a, x, w₁) = (a', x', w') → w' = w₁ := by
    intro α β a a' x x' w₁ h
    exact ((Prod.mk.inj (Prod.mk.inj h).2).2).symm
  split at hl
  · rename_i hx
    rw [hend hl, hfirst hx]
  · rename_i found w₁ hx
    have hw₁ := hfirst hx
    split at hl
    · rw [hend hl, hw₁]
    · split at hl
      · rename_i hone
        rw [hend hl, lkupOne_fs hone, hw₁]
      · rename_i h w₂ hone
        have hw₂ := (lkupOne_fs hone).trans hw₁
        split at hl
        · split at hl <;> rw [hend hl, hw₂]
        · split at hl
          · rw [hend hl, hw₂]
          · split at hl
            · rw [hend hl, hw₂]
            · split at hl
              · rename_i hopq
                rw [hend hl, isWh_fs hopq, hw₂]
              · rename_i hopq
                rw [hend hl, isWh_fs hopq, hw₂]
              · rename_i hopq
                rw [hend hl, isWh_fs hopq, hw₂]

theorem lkupLoop_fs {L : List Int} {v : LkupVars} {r : Except Errno Nat}
    (hl : lkupLoop sb name parent L v d w = (r, d', w')) : w'.fs = w.fs := by
  have hend : ∀ {a : Except Errno Nat} {x : Dinfo} {w₁ : World}, (a, x, w₁) = (r, d', w') → w' = w₁ := fun h =>
    ((Prod.mk.inj (Prod.mk.inj h).2).2).symm
  induction L generalizing v d w with
  | nil => rw [hend hl]
  | cons c L ih =>
    rw [lkupLoop] at hl
    split at hl
    · rename_i h _
      dsimp only at hl
      generalize (if h.positive = true then { v with npositive := v.npositive + 1 } else v : LkupVars) = v' at hl
      split at hl
      · rw [hend hl]
      · exact ih hl
    · split at hl
      · exact ih hl
      · split at hl
        · rename_i hdo
          rw [hend hl, doLookup_fs hdo]
        · rename_i hdo
          have hw := doLookup_fs hdo
          dsimp only at hl
          split at hl
          · rw [hend hl, hw]
          · split at hl
            · rw [ih hl, hw]
            · split at hl
              · rw [hend hl, hw]
              · split at hl
                · rw [hend hl, hw]
                · rw [ih hl, hw]

/-- `lkup_dentry` changes no file. -/
theorem lkupDentry_fs {bstart : Int} {type : Option FType} {r : Except Errno Nat}
    (hl : lkupDentry sb name parent d bstart type w = (r, d', w')) : w'.fs = w.fs := by
  have hend : ∀ {a : Except Errno Nat} {x : Dinfo} {w₁ : World}, (a, x, w₁) = (r, d', w') → w' = w₁ := fun h =>
    ((Prod.mk.inj (Prod.mk.inj h).2).2).symm
  unfold lkupDentry at hl
  split at hl
  · rw [hend hl]
  · have halloc : ∀ {x w₁}, allocWhname name w = (x, w₁) → w₁.fs = w.fs := by
      intro x w₁ hx
      unfold allocWhname at hx
      split at hx
      · exact (Prod.mk.inj hx).2 ▸ rfl
      · split at hx <;>
        · rename_i hask
          rw [← (Prod.mk.inj hx).2, ← (Prod.mk.inj hask).2]
          rfl
    split at hl
    · rename_i hx
      rw [hend hl, halloc hx]
    · rename_i hx
      have hw := halloc hx
      split at hl
      · rename_i hloop
        rw [hend hl, lkupLoop_fs hloop, hw]
      · rename_i hloop
        rw [hend hl, lkupLoop_fs hloop, hw]

-- ---------------------------------------------------------------------------
-- The new dentry
-- ---------------------------------------------------------------------------

/-- The dentries of the directory and its parents are as fresh lookups leave them. -/
structure Mount.FreshTo (sb : SuperBlock) (dir : Path) (m : Mount) : Prop where
  di : ∀ q, q <+: dir → m.di q = freshDi sb m.w q
  hi : ∀ q, q <+: dir → ∀ b, m.hi q b = ((m.di q).hdentry b).bind HDentry.inode

theorem Mount.FreshTo.dirs (hf : m.FreshTo sb dir) (hdir : SeenDir sb m.w dir) : m.Dirs sb dir := by
  refine (dirs_cold hdir).congr (fun q hq => ⟨hf.di q hq, ?_⟩) fun _ _ _ _ => rfl
  funext b
  rw [hf.hi q hq, hf.di q hq]
  rfl

theorem Mount.FreshTo.found (hf : m.FreshTo sb dir) (n : Name) :
    m.found sb dir n = (Mount.cold sb m.w).found sb dir n := by
  rw [Mount.found, hf.di dir (List.prefix_refl dir)]
  rfl

/-- A fresh directory ends where it is opaque. -/
theorem Mount.FreshTo.opaqueTail (hf : m.FreshTo sb dir) (hdir : SeenDir sb m.w dir) : m.OpaqueTail sb dir := by
  intro hne c h hc hable hopq
  induction dir using List.reverseRecOn with
  | nil => exact absurd rfl hne
  | append_singleton q n _ =>
    have hself := (hf.dirs hdir).self
    rw [hself.hDptrI] at hc
    rw [hf.di _ (List.prefix_refl _)] at hc ⊢
    have hn := hdir.name_ok
    have hmem := (slot_iff_mem hn).mp hc
    have hisdir := hdir.isDir hc
    obtain ⟨hp, hhp, -⟩ := freshDi_parent hc
    obtain ⟨br, i, hbr, hi, rfl⟩ := freshDi_slot hc
    obtain ⟨br', i', hbr', -, rfl⟩ := freshDi_slot hhp
    obtain rfl := Option.some.inj (hbr.symm.trans hbr')
    have hcell : ((Mount.cold sb m.w).cell sb q n c).opq := by
      rw [(dirs_cold (hdir.within (List.prefix_append q [n]))).cell_some hhp, hable]
      exact hopq
    have hat : ((freshDi sb m.w q).scan sb m.w n).opaqueAt = some c := Scan.opaqueAt_search hisdir hcell hmem
    have hdiropq : (freshDi sb m.w (q ++ [n])).bdiropq = c := by
      rw [freshDi_concat hn, Dinfo.ofScan, hat]
      rfl
    have h0 := (SuperBlock.range_of_stobr hbr).1
    rw [Dinfo.dbtaildir, hdiropq]
    split
    · split
      · exact le_rfl
      · omega
    · omega

/-- The dentry was looked up now. -/
structure Mount.LookedNow (sb : SuperBlock) (dir : Path) (name : Name) (m m₀ : Mount) : Prop where
  fs : m₀.w.fs = m.w.fs
  off : Mount.Off (dir ++ [name]) m m₀
  look : m₀.LookedUp sb dir name
  hi : ∀ b, m₀.hi (dir ++ [name]) b = ((m₀.di (dir ++ [name])).hdentry b).bind HDentry.inode
  fails : m₀.fails = m.fails

/-- `aufs_lookup` leaves a dentry that was looked up now. -/
theorem wp_aufsLookup (h0 : 0 ≤ (m.di dir).bstart) :
    wp (aufsLookup sb (dir ++ [name])) (fun _ m₀ => Mount.LookedNow sb dir name m m₀)
      (fun _ m' => m'.w.fs = m.w.fs ∧ m.fails < m'.fails) m := by
  have hne : dir ≠ dir ++ [name] := ne_concat_of_within (List.prefix_refl dir)
  refine wp_bind.mpr (wp_kmalloc (fun w₁ hw₁ => ?_) fun e w hw => ⟨hw, Nat.lt_succ_self _⟩)
  refine wp_bind.mpr (wp_kmalloc (fun w₂ hw₂ => ?_) fun e w hw => ⟨hw.trans hw₁, Nat.lt_succ_self _⟩)
  refine wp_bind.mpr (wp_onDinfo.mpr (wp_bind.mpr (wp_dinfo.mpr ?_)))
  have hw₂ : w₂.fs = m.w.fs := hw₂.trans hw₁
  refine wp_bind.mpr (wp_onDentry (fun np d w hl => ?_) fun e d w hl => ⟨?_, Nat.lt_succ_self _⟩)
  rotate_left
  · exact (lkupDentry_fs hl).trans hw₂
  simp only [dParent_append, dName_append, Mount.setDi_di, Function.update_self, Function.update_of_ne hne,
    Mount.setDi_w] at hl
  have hw : w.fs = m.w.fs := (lkupDentry_fs hl).trans hw₂
  have hlook : ∀ m₀ : Mount, m₀.w.fs = m.w.fs → m₀.di dir = m.di dir → m₀.di (dir ++ [name]) = d →
      m₀.LookedUp sb dir name := fun m₀ hfs hdir hself =>
    ⟨w₂, w, np, hw₂.trans hfs.symm, by rw [hdir, hself]; exact hl⟩
  refine wp_ite.mpr ⟨fun hpos => ?_, fun hneg => wp_update.mpr ?_⟩
  · refine wp_bind.mpr (wp_mayFail (fun w₃ hw₃ => wp_update.mpr ?_) fun e w₃ hw₃ => ⟨hw₃.trans hw, Nat.lt_succ_self _⟩)
    refine ⟨hw₃.trans hw, ⟨fun q hq => ?_, fun q hq => ?_⟩, hlook _ (hw₃.trans hw) ?_ ?_, fun b => ?_, rfl⟩
    · simp [hq]
    · exact Function.update_of_ne hq ..
    · simp [hne]
    · simp
    · simp
  · obtain ⟨-, hnp, hd⟩ := lkupDentry_fresh h0 hl
    refine ⟨hw, ⟨fun q hq => ?_, fun q hq => ?_⟩, hlook _ hw ?_ ?_, fun b => ?_, rfl⟩
    · simp [hq]
    · exact Function.update_of_ne hq ..
    · simp [hne]
    · simp
    · -- the slots are negative
      have hnil : ((m.di dir).scan sb w₂ name).slots = [] :=
        List.length_eq_zero_iff.mp (hnp.symm.trans (not_not.mp hneg))
      rw [if_neg hneg] at hd
      simp only [Mount.setDi_di, Function.update_self, hd, hdentry_ofScan, Scan.prepend_slots, hnil, List.append_nil]
      cases hslot : (negSlot sb w₂ (m.di dir) name (bindexes (m.di dir).bstart (m.di dir).dbtaildir)).lookup b with
      | none => rfl
      | some x => rw [Option.bind_some, negSlot_negative hslot]

end Aufs
