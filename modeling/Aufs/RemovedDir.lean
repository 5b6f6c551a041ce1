-- SUMMARY: rmdir: the directory is tested, hidden, set aside under a temporary name and removed there.
import Aufs.Removed
import Aufs.EmptyDir
import Aufs.WhTmp

/-!
# Removing directories

The hidden directory is renamed to a name that no lookup asks for. What happens below that
name, and whether the directory is removed at all, is not seen: an error there is ignored.
-/

namespace Aufs

open Prog Op Overlay Stream

variable {m m' m₁ m₂ : Mount} {sb : SuperBlock} {dir p : Path} {name k : Name} {b s : Int} {hash : Name → Nat}

-- ---------------------------------------------------------------------------
-- The test
-- ---------------------------------------------------------------------------

/-- Every name in the directory has a whiteout on the same branch or above. -/
def Dinfo.AllCovered (d : Dinfo) (w : World) : Prop :=
  ∀ n b, Ordinary n → d.nameAt w n b → ∃ c ≤ b, d.nameAt w (whName n) c

theorem Dinfo.allCovered_of_layers {d : Dinfo} {w : World} (h : LayersCovered Ordinary whName (d.namesAt w)) :
    d.AllCovered w := by
  intro n b hn hb
  obtain ⟨l₁, l₂, hsplit⟩ := List.append_of_mem ((mem_namesAt hn.1 hn.2.1 b).mpr hb)
  have hwh : ∀ c, whName n ∈ d.namesAt w c ↔ d.nameAt w (whName n) c :=
    mem_namesAt (whName_ne (by decide)) (whName_ne (by decide))
  rcases h b l₁ n l₂ hsplit hn with ⟨c, hlt, hc⟩ | hc
  · exact ⟨c, hlt.le, (hwh c).mp hc⟩
  · refine ⟨b, le_rfl, (hwh b).mp ?_⟩
    rw [hsplit]
    exact List.mem_append_left _ hc

/-- `test_empty` changes no file, and it succeeds only where every name is covered by a whiteout. -/
theorem wp_testEmpty (hdir : (m.di p).IsDir) :
    wp (testEmpty hash p .init)
      (fun _ m' => m'.w.fs = m.w.fs ∧ m' = { m with w := m'.w } ∧ (m.di p).AllCovered m.w)
      (fun _ m' => m'.w.fs = m.w.fs ∧ m' = m.failed m'.w) m := by
  have hkeep : wp (testEmpty hash p .init) (fun _ m' => m'.w.fs = m.w.fs ∧ m' = { m with w := m'.w })
      (fun _ m' => m'.w.fs = m.w.fs ∧ m' = m.failed m'.w) m := by
    have hinit : TestInv hash (fun _ => []) ⟨.init, true, 0, none, 0⟩ := by
      refine ⟨rfl, fun _ _ => rfl, fun n => ?_, fun wh => ?_⟩
      · simp
      · simp [Nhash.all, Nhash.init, First]
    have hfs : ∀ {res arg w}, testEmptyLoop hash (m.di p) (bindexes (m.di p).bstart (m.di p).dbtaildir)
        ⟨.init, true, 0, none, 0⟩ m.w = (res, arg, w) → w.fs = m.w.fs := fun hloop => by
      refine (testEmptyLoop_spec hdir hinit (bindexes_sorted _ _) (fun b hb => ?_) hloop).1.fs
      have h0 := hdir.bstart
      have hb := mem_bindexes.mp hb
      exact ⟨hb.1, hb.2, by simp only; omega, rfl⟩
    refine wp_bind.mpr (wp_dinfo.mpr (wp_onWorld (fun whlist w h => ?_) fun e w h => ?_))
    all_goals
      rcases hloop : testEmptyLoop hash (m.di p) (bindexes (m.di p).bstart (m.di p).dbtaildir)
        ⟨.init, true, 0, none, 0⟩ m.w with ⟨r, arg, w₁⟩
      rw [hloop] at h
      have hw₁ := hfs hloop
      cases r with
      | error e => ?_
      | ok u => ?_
    · cases h
    · obtain rfl := (Prod.mk.inj h).2
      exact ⟨hw₁, rfl⟩
    · obtain rfl := (Prod.mk.inj h).2
      exact ⟨hw₁, rfl⟩
    · cases h
  refine (hkeep.and (wp.intro (Q := fun _ _ => (m.di p).AllCovered m.w) (E := fun _ _ => True)
    (fun whlist m' hrun => ?_) fun _ _ _ => trivial)).mono ?_ ?_
  · exact Dinfo.allCovered_of_layers ((testEmpty_spec hdir hrun).1 whlist rfl).1
  · exact fun _ _ h => ⟨h.1.1, h.1.2, h.2⟩
  · exact fun _ _ h => h.1

-- ---------------------------------------------------------------------------
-- The temporary name
-- ---------------------------------------------------------------------------

/-- No lookup asks for a temporary name. -/
theorem askedFor_whtmpName (name : Name) (cnt : Nat) : AskedFor name (whtmpName name cnt) := by
  have hsplit : whtmpName name cnt = whName (whPfx ++ name ++ [46] ++ decimal4 cnt) := by
    simp [whtmpName, whName]
  refine .inr ⟨?_, fun heq => ?_, fun n hn heq => ?_⟩
  · rw [hsplit]
    exact hasWhPfx_whName _
  · have hlen := congrArg List.length heq
    rw [length_whtmpName] at hlen
    have hopq : diropqName.length = 12 := rfl
    omega
  · rw [hsplit] at heq
    rw [← whName_injective heq] at hn
    have hpfx : hasWhPfx (whPfx ++ name ++ [46] ++ decimal4 cnt) = true := by
      rw [List.append_assoc, List.append_assoc]
      exact hasWhPfx_whName _
    rw [hpfx] at hn
    cases hn

/-- A temporary name is neither the name nor its whiteout. -/
theorem not_whtmpName_within {x : Name} (hx : x.length ≤ name.length + 4) (cnt : Nat) :
    ¬ dir ++ [whtmpName name cnt] <+: dir ++ [x] := by
  intro hpre
  have hlast := List.append_cancel_left (hpre.eq_of_length (by simp))
  have hlen := congrArg List.length (List.singleton_inj.mp hlast)
  rw [length_whtmpName] at hlen
  omega

/-- A free temporary name of the hidden parent. -/
def Mount.FreeWhtmp (m : Mount) (hp : HDentry) (name : Name) (t : HDentry) : Prop :=
  t.root = hp.root ∧ m.w.node t.root t.path = none ∧ ∃ cnt, t.path = hp.path ++ [whtmpName name cnt]

/-- The lookup of a temporary name changes no file. -/
theorem wp_lkupWhtmp {hp : HDentry} :
    wp (lkupWhtmp hp name)
      (fun t m' => m'.w.fs = m.w.fs ∧ m'.fails = m.fails ∧ m'.di = m.di ∧ m'.hi = m.hi ∧ m.FreeWhtmp hp name t)
      (fun _ m' => m'.w.fs = m.w.fs ∧ m.fails < m'.fails ∧ m'.di = m.di ∧ m'.hi = m.hi) m := by
  have htry : ∀ (tries : Nat) (m₁ : Mount), m₁.w.fs = m.w.fs → m₁.fails = m.fails → m₁.di = m.di → m₁.hi = m.hi →
      wp (lkupWhtmpTry hp name tries)
        (fun t m' => m'.w.fs = m.w.fs ∧ m'.fails = m.fails ∧ m'.di = m.di ∧ m'.hi = m.hi ∧ m.FreeWhtmp hp name t)
        (fun _ m' => m'.w.fs = m.w.fs ∧ m.fails < m'.fails ∧ m'.di = m.di ∧ m'.hi = m.hi) m₁ := by
    intro tries
    induction tries with
    | zero => exact fun m₁ hfs hfails hdi hhi => wp_refuse.mpr ⟨hfs, hfails ▸ Nat.lt_succ_self _, hdi, hhi⟩
    | succ tries ih =>
      intro m₁ hfs hfails hdi hhi
      refine wp_bind.mpr (wp_state.mpr (wp_bind.mpr (wp_update.mpr (wp_bind.mpr (wp_lkupOne (fun w hw => ?_) ?_)))))
      rotate_left
      · exact fun e w hw => ⟨hw.trans hfs, hfails ▸ Nat.lt_succ_self _, hdi, hhi⟩
      refine wp_ite.mpr ⟨fun _ => ih _ (hw.trans hfs) hfails hdi hhi, fun hneg => wp_pure.mpr ?_⟩
      refine ⟨hw.trans hfs, hfails, hdi, hhi, rfl, ?_, m₁.cnt, rfl⟩
      rw [← World.node_congr hfs]
      exact Option.not_isSome_iff_eq_none.mp hneg
  refine wp_ite.mpr ⟨fun _ => wp_ite.mpr ⟨fun _ => ?_, fun _ => ?_⟩, fun _ => htry 3 m rfl rfl rfl rfl⟩
  · exact wp_refuse.mpr ⟨rfl, Nat.lt_succ_self _, rfl, rfl⟩
  · exact wp_bind.mpr (wp_kmalloc (fun w hw => htry 3 _ hw rfl rfl rfl) fun e w hw => ⟨hw, Nat.lt_succ_self _, rfl, rfl⟩)

/-- The hidden directory was renamed. -/
structure Mount.SetAside (dir : Path) (name : Name) (b : Int) (h : HDentry) (k : Name) (m m' : Mount) : Prop where
  off : Mount.Off (dir ++ [name]) m m'
  slot : (m'.di (dir ++ [name])).hDptrI b = some { h with path := dir ++ [k] }
  others : ∀ r x, ¬ (r = h.root ∧ (dir ++ [name] <+: x ∨ dir ++ [k] <+: x)) → m'.w.node r x = m.w.node r x
  gone : m'.w.node h.root (dir ++ [name]) = none

/-- `rename_whtmp` -/
theorem wp_renameWhtmp {h : HDentry} (hslot : (m.di (dir ++ [name])).hDptrI b = some h) (hpath : h.path = dir ++ [name]) :
    wp (renameWhtmp (dir ++ [name]) b)
      (fun _ m' => m'.fails = m.fails ∧ ∃ cnt, Mount.SetAside dir name b h (whtmpName name cnt) m m')
      (fun _ m' => m'.w.fs = m.w.fs ∧ m.fails < m'.fails ∧ Mount.Off (dir ++ [name]) m m') m := by
  have hoff : ∀ {m₁ : Mount}, m₁.di = m.di → m₁.hi = m.hi → Mount.Off (dir ++ [name]) m m₁ := fun hdi hhi =>
    ⟨fun q _ => by rw [hdi], fun q _ => by rw [hhi]⟩
  refine wp_bind.mpr (wp_hDptrI (fun x hx => ?_) fun hno => ?_)
  rotate_left
  · rw [hslot] at hno
    cases hno
  obtain rfl := Option.some.inj (hslot.symm.trans hx)
  rw [hpath, dParent_append, dName_append]
  refine wp_bind.mpr (wp_lkupWhtmp.mono ?_ fun _ _ h => ⟨h.1, h.2.1, hoff h.2.2.1 h.2.2.2⟩)
  rintro t m₁ ⟨hfs, hfails, hdi, hhi, hroot, hfree, cnt, htpath⟩
  have hnode : m₁.w.node = m.w.node := World.node_congr hfs
  refine wp_bind.mpr (wp_vfsubRename (fun w _ hmoves => wp_onDinfo.mpr ⟨hfails, cnt, ?_⟩) fun e w hw => ?_)
  rotate_left
  · exact ⟨hw.trans hfs, hfails ▸ Nat.lt_succ_self _, hoff hdi hhi⟩
  dsimp only at htpath hroot
  obtain ⟨i, hi, hmoves⟩ := hmoves
  -- the temporary name is free
  obtain ⟨hst, hts, -, -, hmoved⟩ := hmoves.resolve_left fun ⟨j, hj, _⟩ => by
    rw [hnode, hfree] at hj
    cases hj
  rw [hroot, htpath, hpath, hnode] at hmoved
  rw [htpath, hpath] at hst hts
  refine ⟨⟨fun q hq => ?_, fun q hq => by rw [Mount.setDi_hi]; exact congrFun hhi q⟩, ?_, fun r x hx => ?_, ?_⟩
  · rw [Mount.setDi_di, Function.update_of_ne hq]
    exact congrFun hdi q
  · have hrange := Dinfo.range_of_hDptrI hslot
    rw [Mount.setDi_di, Function.update_self, htpath]
    have hsame : m₁.di (dir ++ [name]) = m.di (dir ++ [name]) := congrFun hdi _
    show Dinfo.hDptrI ((m₁.di (dir ++ [name])).setHDptr b _) b = _
    rw [hsame, Dinfo.hDptrI_of_le (by exact hrange.1) (by exact hrange.2)]
    exact Function.update_self ..
  · rw [Mount.setDi_w, hmoved r x]
    split
    · rename_i hr
      split
      · rename_i hpre
        exact absurd ⟨hr, .inr hpre⟩ hx
      · split
        · rename_i hpre
          exact absurd ⟨hr, .inl hpre⟩ hx
        · rw [hr]
    · rfl
  · rw [Mount.setDi_w, hmoved _ _, if_pos rfl, if_neg hts, if_pos (List.prefix_refl _)]

/-- Only files below one path of one branch have changed. -/
structure Mount.Within (r : Nat) (q : Path) (m m' : Mount) : Prop where
  di : m'.di = m.di
  hi : m'.hi = m.hi
  others : ∀ s x, ¬ (s = r ∧ q <+: x) → m'.w.node s x = m.w.node s x

theorem Mount.Within.of_fs {r : Nat} {q : Path} {w : World} (hfs : w.fs = m.w.fs) (n : Nat) :
    Mount.Within r q m (m.withWorld w n) :=
  ⟨rfl, rfl, fun s x _ => by rw [Mount.withWorld_w, World.node_congr hfs]⟩

theorem Mount.Within.trans {r : Nat} {q : Path} (h : Mount.Within r q m m₁) (h' : Mount.Within r q m₁ m₂) :
    Mount.Within r q m m₂ :=
  ⟨h'.di.trans h.di, h'.hi.trans h.hi, fun s x hx => (h'.others s x hx).trans (h.others s x hx)⟩

theorem Mount.Within.of_sets {r : Nat} {q x : Path} {w : World} {v : Option HInode} (hx : q <+: x)
    (hsets : m.w.Sets w r x v) : Mount.Within r q m { m with w } := by
  refine ⟨rfl, rfl, fun s y hy => ?_⟩
  rw [hsets s y, if_neg]
  rintro ⟨rfl, rfl⟩
  exact hy ⟨rfl, hx⟩

/-- What is deleted in a directory lies below it. -/
theorem wp_rmdirWhtmp_within {h : HDentry} {whlist : Nhash Wh} :
    wp (rmdirWhtmp h whlist b) (fun _ m' => Mount.Within h.root h.path m m')
      (fun _ m' => Mount.Within h.root h.path m m') m := by
  have hloop : ∀ (L : List Wh) (m : Mount), wp (delWhLoop h L) (fun _ m' => Mount.Within h.root h.path m m')
      (fun _ m' => Mount.Within h.root h.path m m') m := by
    intro L
    induction L with
    | nil => exact fun m => wp_pure.mpr (.of_fs rfl m.fails)
    | cons x L ih =>
      intro m
      refine wp_ite.mpr ⟨fun _ => wp_bind.mpr ?_, fun _ => wp_refuse.mpr (.of_fs rfl _)⟩
      refine wp_bind.mpr (wp_lkupOne (fun w hw => ?_) fun e w hw => .of_fs hw _)
      have hlook : Mount.Within h.root h.path m { m with w } := .of_fs hw m.fails
      refine wp_ite.mpr ⟨fun _ => wp_vfsubUnlink (fun w' i _ _ hsets => ?_) fun e w' hw' => ?_, fun _ => ?_⟩
      · have hdel := hlook.trans (.of_sets (List.prefix_append _ _) hsets)
        exact (ih _).mono (fun _ _ h => hdel.trans h) fun _ _ h => hdel.trans h
      · exact hlook.trans (.of_fs hw' _)
      · exact wp_pure.mpr ((ih _).mono (fun _ _ h => hlook.trans h) fun _ _ h => hlook.trans h)
  refine wp_bind.mpr (wp_bind.mpr (wp_kmalloc (fun w hw => ?_) fun e w hw => .of_fs hw _))
  have halloc : Mount.Within h.root h.path m { m with w } := .of_fs hw m.fails
  refine (hloop _ _).mono (fun _ m₁ h₁ => ?_) fun _ _ h => halloc.trans h
  have hdel := halloc.trans h₁
  exact wp_vfsubRmdir (fun w' i _ _ _ hsets => hdel.trans (.of_sets (List.prefix_refl _) hsets)) fun e w' hw' =>
    hdel.trans (.of_fs hw' _)

/-- `renwh_and_rmdir`: the directory is gone from its name, or nothing has changed. -/
theorem wp_renwhAndRmdir {h : HDentry} {whlist : Nhash Wh} (hslot : (m.di (dir ++ [name])).hDptrI b = some h)
    (hpath : h.path = dir ++ [name]) :
    wp (renwhAndRmdir sb (dir ++ [name]) b whlist)
      (fun _ m' => Mount.Off (dir ++ [name]) m m' ∧ m'.w.node h.root (dir ++ [name]) = none ∧
        ∃ cnt, ∀ r x, ¬ (r = h.root ∧ (dir ++ [name] <+: x ∨ dir ++ [whtmpName name cnt] <+: x)) →
          m'.w.node r x = m.w.node r x)
      (fun _ m' => m'.w.fs = m.w.fs ∧ m.fails < m'.fails ∧ Mount.Off (dir ++ [name]) m m') m := by
  refine wp_bind.mpr ((wp_renameWhtmp hslot hpath).mono ?_ fun _ _ h => h)
  rintro _ m₁ ⟨-, cnt, haside⟩
  refine wp_bind.mpr (wp_hDptrI (fun x hx => ?_) fun hno => ?_)
  rotate_left
  · rw [haside.slot] at hno
    cases hno
  obtain rfl := Option.some.inj (haside.slot.symm.trans hx)
  refine wp_ite.mpr ⟨fun _ => wp_pure.mpr ⟨haside.off, haside.gone, cnt, haside.others⟩, fun _ => ?_⟩
  -- an error of `rmdir_whtmp` is ignored
  have hrest : ∀ {m₂ : Mount}, Mount.Within h.root (dir ++ [whtmpName name cnt]) m₁ m₂ →
      Mount.Off (dir ++ [name]) m m₂ ∧ m₂.w.node h.root (dir ++ [name]) = none ∧
        ∃ cnt, ∀ r x, ¬ (r = h.root ∧ (dir ++ [name] <+: x ∨ dir ++ [whtmpName name cnt] <+: x)) →
          m₂.w.node r x = m.w.node r x := by
    intro m₂ hw
    refine ⟨haside.off.trans ⟨fun q _ => by rw [hw.di], fun q _ => by rw [hw.hi]⟩, ?_, cnt, fun r x hx => ?_⟩
    · rw [hw.others h.root (dir ++ [name]) fun hpre => not_whtmpName_within (Nat.le_add_right _ _) cnt hpre.2, haside.gone]
    · rw [hw.others r x fun hpre => hx ⟨hpre.1, .inr hpre.2⟩, haside.others r x hx]
  refine wp_bind.mpr (wp_attempt.mpr (wp_rmdirWhtmp_within.mono (fun _ m₂ hw => ?_) fun _ m₂ hw => ?_))
  · exact wp_pure.mpr (hrest hw)
  · exact wp_pure.mpr (hrest hw)

-- ---------------------------------------------------------------------------
-- rmdir
-- ---------------------------------------------------------------------------

theorem Mount.setDi_setDi (m : Mount) (p : Path) (d e : Dinfo) : (m.setDi p d).setDi p e = m.setDi p e := by
  simp only [Mount.setDi, Function.update_idem]

/-- `aufs_rmdir` removes a directory in which every name is covered by a whiteout, or the files stay as they are. -/
theorem wp_aufsRmdir (hroots : sb.DistinctRoots) (hwr : sb.HonoursWh) (hname : hasWhPfx name = false)
    (ht : m.Target sb dir name s) (hdir : (m.di (dir ++ [name])).IsDir) (alone : Bool) :
    wp (aufsRmdir hash sb alone (dir ++ [name]))
      (fun _ m' => Mount.Removed sb m dir name m' ∧ (m.di (dir ++ [name])).AllCovered m.w)
      (fun _ m' => Mount.NotDone sb m dir name m') m := by
  have hstop : ∀ {w n}, w.fs = m.w.fs → Mount.NotDone sb m dir name (m.withWorld w n) := fun hfs =>
    ⟨.inl ⟨_, le_rfl, m, .refl, .of_node (World.node_congr hfs)⟩, fun _ _ _ => rfl⟩
  refine wp_bind.mpr (wp_state.mpr (wp_ite.mpr ⟨fun _ => wp_fail.mpr (hstop rfl), fun _ => ?_⟩))
  refine wp_bind.mpr (wp_kmalloc (fun w₁ hw₁ => ?_) fun e w hw => hstop hw)
  refine wp_bind.mpr (wp_kmalloc (fun w₂ hw₂ => ?_) fun e w hw => hstop (hw.trans hw₁))
  have hw₂ : w₂.fs = m.w.fs := hw₂.trans hw₁
  have hcovered : (m.di (dir ++ [name])).AllCovered w₂ → (m.di (dir ++ [name])).AllCovered m.w := fun h n => by
    rw [← nameAt_congr hw₂, ← nameAt_congr hw₂]
    exact h n
  refine wp_bind.mpr ((wp_testEmpty (m := { m with w := w₂ }) hdir).mono ?_ fun _ m₁ h => ?_)
  rotate_left
  · rw [h.2]
    exact hstop (h.1.trans hw₂)
  rintro whlist m₀ ⟨hfs₀, heq, hcov⟩
  have hfs : m₀.w.fs = m.w.fs := hfs₀.trans hw₂
  generalize m₀.w = w₀ at hfs heq
  subst heq
  have ht₀ : Mount.Target sb dir name s { m with w := w₀ } := ht.withFs hfs
  rw [ht.starts.start]
  refine wp_bind.mpr ((wp_lockHdirCreateWh hwr ht₀.toShownAt ht₀.starts).mono ?_ fun _ _ h => h.of_withFs hfs)
  rintro ⟨wh, b⟩ m₂ ⟨br, m₁, hh⟩
  obtain ⟨hstart, -⟩ := hh.slot ht₀
  refine wp_bind.mpr (wp_dinfo.mpr ?_)
  rw [hstart]
  refine wp_bind.mpr (wp_hDptrI (fun h hslot => ?_) fun hno => ?_)
  rotate_left
  · obtain ⟨br', i, -, hi⟩ := ht₀.slot
    rw [(hh.slot ht₀).2, hi] at hno
    cases hno
  have hdone : ∀ {m₃ : Mount}, (∀ d, Mount.Removed sb m dir name (m₃.setDi (dir ++ [name]) d)) →
      wp (do
          onDinfo (dir ++ [name]) fun d => { d with bdiropq := -1 }
          delEpilog alone (dir ++ [name]))
        (fun _ m' => Mount.Removed sb m dir name m' ∧
          (m.di (dir ++ [name])).AllCovered m.w)
        (fun _ m' => Mount.NotDone sb m dir name m') m₃ := by
    intro m₃ hr
    refine wp_bind.mpr (wp_onDinfo.mpr ((wp_delEpilog fun d => ?_).mono (fun _ _ h => ⟨h, hcovered hcov⟩) fun _ _ h => h))
    rw [Mount.setDi_setDi]
    exact hr d
  refine wp_bind.mpr (wp_attempt.mpr (wp_ite.mpr ⟨fun hb => ?_, fun hb => wp_pure.mpr ?_⟩))
  · obtain ⟨hroot, hpath⟩ := hh.top ht₀ hslot hb
    refine (wp_renwhAndRmdir hslot hpath).mono (fun _ m₃ h => hdone fun d => ?_) fun e m₃ h => ?_
    · obtain ⟨hoff, hgone, cnt, hothers⟩ := h
      rw [hroot] at hgone hothers
      refine (hh.removed hroots hwr ht₀.toShownAt hname (hoff.setDi d) (fun r x hr => ?_) (fun r x hx => ?_) ?_
        fun _ => ⟨hgone, ht₀.bwh, ht₀.positive⟩).of_withFs hfs
      · exact hothers r x fun hx => hr hx.1
      · refine hothers r x ?_
        rintro ⟨-, hpre | hpre⟩
        · exact hx name (.inl rfl) hpre
        · exact hx _ (askedFor_whtmpName name cnt) hpre
      · refine hothers _ _ ?_
        rintro ⟨-, hpre | hpre⟩
        · exact concat_ne_whName hname name (hpre.eq_of_length (by simp))
        · exact not_whtmpName_within (by simp [whName, whPfx]) cnt hpre
    · obtain ⟨hfs₃, hfails, hoff⟩ := h
      cases wh with
      | none => exact wp_fail.mpr ((hh.notDone hoff hfails hfs₃).of_withFs hfs)
      | some x =>
        exact (hh.wp_doRevert hoff hfails hfs₃).mono (fun _ _ => False.elim) fun _ _ h => h.of_withFs hfs
  · refine hdone fun d => ?_
    refine (hh.removed hroots hwr ht₀.toShownAt hname (Mount.Off.refl.setDi d) (fun _ _ _ => rfl) (ChangesAt.refl rfl) rfl
      fun hx => ?_).of_withFs hfs
    exact absurd (hh.alone (by rw [hx]; rfl)).1 hb

end Aufs
