-- SUMMARY: The test for an empty directory against its listing, and what is left of the directory when its whiteouts are deleted.
import Aufs.Agree
import Aufs.Calls
import Aufs.Lib.Streams

/-!
# Empty directories

`test_empty` decides whether a directory is empty without building its listing:
it reads the branches from the top and keeps one list of whiteouts, which it
fills while it reads. A name is accepted if its whiteout is on the list by then,
also if the whiteout is on the same branch and happens to be delivered first. The
listing counts whiteouts of upper branches only. The list is then taken for all
that is left in the directory on the first branch.
-/

namespace Aufs

open Overlay Stream Prog Op

variable {hash : Name → Nat} {sb : SuperBlock} {d : Dinfo} {w w' : World} {met : Int → List Name}
  {arg arg' : TestEmptyArg}

/-- A name that the test asks for: no whiteout, and not the directory or its parent. -/
def Ordinary (n : Name) : Prop := n ≠ dot ∧ n ≠ dotdot ∧ isWhName n = false

theorem whName_ne {n m : Name} (hm : m.length ≤ 2) : whName n ≠ m := by
  rintro rfl
  simp [whName, whPfx] at hm

/-- The names that the branch `b` of a directory delivers. -/
def Dinfo.namesAt (d : Dinfo) (w : World) (b : Int) : List Name :=
  if d.bstart ≤ b ∧ b ≤ d.dbtaildir then
    match d.hDptrI b with
    | none => []
    | some h => (w.dirents h.root h.path).map Dirent.name
  else []

theorem mem_namesAt {n : Name} (h1 : n ≠ dot) (h2 : n ≠ dotdot) (b : Int) :
    n ∈ d.namesAt w b ↔ d.nameAt w n b := by
  unfold Dinfo.namesAt Dinfo.nameAt
  by_cases hb : d.bstart ≤ b ∧ b ≤ d.dbtaildir
  · rw [if_pos hb]
    cases hd : d.hDptrI b with
    | none => simp
    | some h => simp [World.mem_dirents _ h1 h2, hb.1, hb.2]
  · rw [if_neg hb]
    simp only [List.not_mem_nil, false_iff]
    exact fun h => hb ⟨h.1, h.2.1⟩

theorem namesAt_congr (h : w.SameFs w') : d.namesAt w' = d.namesAt w := by
  funext b
  simp only [Dinfo.namesAt, h.dirents]

-- ---------------------------------------------------------------------------
-- The list of whiteouts
-- ---------------------------------------------------------------------------

theorem Nhash.mem_all_add {nh : Nhash Wh} {x y : Wh} :
    x ∈ (nh.add hash y.str y).all ↔ x = y ∨ x ∈ nh.all := by
  simp only [Nhash.all, Nhash.add, List.mem_flatMap, List.mem_range]
  constructor
  · rintro ⟨i, hi, hx⟩
    by_cases heq : i = hash y.str % nhashSize
    · rw [heq, Function.update_self, List.mem_cons] at hx
      exact hx.imp_right fun hx => ⟨_, heq ▸ hi, hx⟩
    · rw [Function.update_of_ne heq] at hx
      exact .inr ⟨i, hi, hx⟩
  · rintro (rfl | ⟨i, hi, hx⟩)
    · refine ⟨hash x.str % nhashSize, Nat.mod_lt _ (by decide), ?_⟩
      rw [Function.update_self]
      exact List.mem_cons_self
    · refine ⟨i, hi, ?_⟩
      by_cases heq : i = hash y.str % nhashSize
      · rw [heq, Function.update_self]
        exact List.mem_cons_of_mem y (heq ▸ hx)
      · rwa [Function.update_of_ne heq]

/-- What the list holds when the branches have delivered the names `met`, the last of them
`arg.bindex`: each whiteout once, with the first branch that had it. -/
structure TestInv (hash : Name → Nat) (met : Int → List Name) (arg : TestEmptyArg) : Prop where
  whonly : arg.whonly = true
  range : ∀ b, arg.bindex < b → met b = []
  known : ∀ n, arg.whlist.known hash Wh.str n = true ↔ n ≠ [] ∧ ∃ b, whName n ∈ met b
  all : ∀ wh, wh ∈ arg.whlist.all ↔ wh.str ≠ [] ∧ First (fun b => whName wh.str ∈ met b) wh.bindex

/-- One more name of the branch. -/
def TestInv.more (met : Int → List Name) (arg : TestEmptyArg) (l : List Name) : Int → List Name :=
  Function.update met arg.bindex (met arg.bindex ++ l)

@[simp] theorem TestInv.more_nil : TestInv.more met arg [] = met := by
  rw [TestInv.more, List.append_nil, Function.update_eq_self]

theorem TestInv.mem_more {l : List Name} {n : Name} {b : Int} :
    n ∈ TestInv.more met arg l b ↔ n ∈ met b ∨ (b = arg.bindex ∧ n ∈ l) := by
  unfold TestInv.more
  by_cases h : b = arg.bindex
  · rw [h, Function.update_self, List.mem_append]
    simp
  · rw [Function.update_of_ne h]
    simp [h]

theorem TestInv.range_more (h : TestInv hash met arg) (l : List Name) :
    ∀ b, arg.bindex < b → TestInv.more met arg l b = [] := by
  intro b hb
  rw [TestInv.more, Function.update_of_ne (by omega)]
  exact h.range b hb

/-- A name that is no new whiteout leaves the list as it should be. -/
theorem TestInv.keep (h : TestInv hash met arg) {n : Name}
    (hn : ∀ k, k ≠ [] → n = whName k → ∃ b, n ∈ met b) (hlist : arg'.whlist = arg.whlist)
    (hwhonly : arg'.whonly = arg.whonly) (hb : arg'.bindex = arg.bindex) :
    TestInv hash (TestInv.more met arg [n]) arg' := by
  -- whether a branch has a whiteout is as before, up to the first branch that has it
  have hsome : ∀ k, k ≠ [] → ((∃ b, whName k ∈ TestInv.more met arg [n] b) ↔ ∃ b, whName k ∈ met b) := by
    intro k hk
    constructor
    · rintro ⟨b, hb⟩
      rcases TestInv.mem_more.mp hb with hb | ⟨-, hb⟩
      · exact ⟨b, hb⟩
      · rw [List.mem_singleton] at hb
        rw [hb]
        exact hn k hk hb.symm
    · rintro ⟨b, hb⟩
      exact ⟨b, TestInv.mem_more.mpr (.inl hb)⟩
  have hup : ∀ k b, whName k ∈ met b → b ≤ arg.bindex := by
    intro k b hm
    by_contra hlt
    rw [h.range b (by omega)] at hm
    exact List.not_mem_nil hm
  refine ⟨hwhonly.trans h.whonly, fun b hlt => h.range_more [n] b (hb ▸ hlt), fun k => ?_, fun wh => ?_⟩
  · rw [hlist, h.known]
    exact and_congr_right fun hk => (hsome k hk).symm
  · rw [hlist, h.all]
    refine and_congr_right fun hk => ?_
    constructor
    · rintro ⟨hmem, hfirst⟩
      refine ⟨TestInv.mem_more.mpr (.inl hmem), fun c hc hmem' => ?_⟩
      have hle := hup _ _ hmem
      exact hfirst c hc ((TestInv.mem_more.mp hmem').resolve_right fun hx => by omega)
    · rintro ⟨hmem, hfirst⟩
      have hfirst' : ∀ c < wh.bindex, whName wh.str ∉ met c := fun c hc hmem' =>
        hfirst c hc (TestInv.mem_more.mpr (.inl hmem'))
      refine ⟨?_, hfirst'⟩
      rcases TestInv.mem_more.mp hmem with hmem | ⟨hbi, hmem⟩
      · exact hmem
      · rw [List.mem_singleton] at hmem
        obtain ⟨b, hb'⟩ := hn wh.str hk hmem.symm
        rw [← hmem] at hb'
        have hle := hup _ _ hb'
        rcases hle.lt_or_eq with hlt | heq
        · exact absurd hb' (hfirst' b (by omega))
        · rwa [hbi, ← heq]

/-- A whiteout that is met for the first time is put on the list. -/
theorem TestInv.add (h : TestInv hash met arg) {k : Name} (hk : k ≠ [])
    (hnew : ∀ b, whName k ∉ met b) (hlist : arg'.whlist = arg.whlist.add hash k ⟨arg.bindex, k⟩)
    (hwhonly : arg'.whonly = arg.whonly) (hb : arg'.bindex = arg.bindex) :
    TestInv hash (TestInv.more met arg [whName k]) arg' := by
  have hinj : ∀ j, whName j = whName k ↔ j = k := fun j =>
    ⟨fun he => List.append_cancel_left he, fun he => by rw [he]⟩
  refine ⟨hwhonly.trans h.whonly, fun b hlt => h.range_more _ b (hb ▸ hlt), fun j => ?_, fun wh => ?_⟩
  · have hadd := Nhash.known_add hash Wh.str arg.whlist ⟨arg.bindex, k⟩ j
    rw [hlist]
    simp only at hadd
    rw [hadd, Bool.or_eq_true, h.known, decide_eq_true_eq]
    constructor
    · rintro (rfl | ⟨hj, b, hb'⟩)
      · exact ⟨hk, arg.bindex, TestInv.mem_more.mpr (.inr ⟨rfl, List.mem_singleton_self _⟩)⟩
      · exact ⟨hj, b, TestInv.mem_more.mpr (.inl hb')⟩
    · rintro ⟨hj, b, hb'⟩
      rcases TestInv.mem_more.mp hb' with hb' | ⟨-, hb'⟩
      · exact .inr ⟨hj, b, hb'⟩
      · rw [List.mem_singleton, hinj] at hb'
        exact .inl hb'.symm
  · have hadd : wh ∈ arg'.whlist.all ↔ wh = ⟨arg.bindex, k⟩ ∨ wh ∈ arg.whlist.all := by
      rw [hlist]
      exact Nhash.mem_all_add (y := ⟨arg.bindex, k⟩)
    rw [hadd, h.all]
    constructor
    · rintro (rfl | ⟨hne, hmem, hfirst⟩)
      · refine ⟨hk, TestInv.mem_more.mpr (.inr ⟨rfl, List.mem_singleton_self _⟩), fun c hc hmem => ?_⟩
        rcases TestInv.mem_more.mp hmem with hmem | ⟨heq, -⟩
        · exact hnew c hmem
        · simp only at hc
          omega
      · refine ⟨hne, TestInv.mem_more.mpr (.inl hmem), fun c hc hmem' => ?_⟩
        rcases TestInv.mem_more.mp hmem' with hmem' | ⟨-, hmem'⟩
        · exact hfirst c hc hmem'
        · rw [List.mem_singleton, hinj] at hmem'
          exact hnew wh.bindex (hmem' ▸ hmem)
    · rintro ⟨hne, hmem, hfirst⟩
      rcases TestInv.mem_more.mp hmem with hmem | ⟨heq, hmem⟩
      · exact .inr ⟨hne, hmem, fun c hc hm => hfirst c hc (TestInv.mem_more.mpr (.inl hm))⟩
      · rw [List.mem_singleton, hinj] at hmem
        obtain ⟨b, s⟩ := wh
        simp only at heq hmem
        rw [heq, hmem]
        exact .inl rfl

-- ---------------------------------------------------------------------------
-- One branch
-- ---------------------------------------------------------------------------

/-- The names `l` of a branch have been tested: if the test is `ok`, each came after its whiteout and
the list is as it should be. Without failures from below the test is `ok` if each comes after its
whiteout. -/
structure Tested (hash : Name → Nat) (met : Int → List Name) (arg : TestEmptyArg) (w : World) (l : List Name)
    (ok : Prop) (arg' : TestEmptyArg) (w' : World) : Prop where
  sameFs : w.SameFs w'
  quiet : w.Quiet → w'.Quiet
  bindex : arg'.bindex = arg.bindex
  sound : ok → TestInv hash (TestInv.more met arg l) arg' ∧
    Covered Ordinary whName (fun y => ∃ b, y ∈ met b) l
  complete : w.Quiet → Covered Ordinary whName (fun y => ∃ b, y ∈ met b) l → ok

variable {ok ok' : Prop} {l l' : List Name} {arg₁ : TestEmptyArg} {w₁ : World}

theorem TestInv.more_more (hb : arg₁.bindex = arg.bindex) :
    TestInv.more (TestInv.more met arg l) arg₁ l' = TestInv.more met arg (l ++ l') := by
  simp only [TestInv.more, hb, Function.update_self, Function.update_idem, List.append_assoc]

theorem TestInv.met_more (y : Name) :
    (∃ b, y ∈ TestInv.more met arg l b) ↔ (∃ b, y ∈ met b) ∨ y ∈ l := by
  simp only [TestInv.mem_more, exists_or, exists_eq_left]

theorem Tested.append (h : Tested hash met arg w l ok arg₁ w₁) (hok : ok)
    (h' : Tested hash (TestInv.more met arg l) arg₁ w₁ l' ok' arg' w') :
    Tested hash met arg w (l ++ l') ok' arg' w' where
  sameFs := h.sameFs.trans h'.sameFs
  quiet hq := h'.quiet (h.quiet hq)
  bindex := h'.bindex.trans h.bindex
  sound hok' := by
    obtain ⟨hinv, hcov⟩ := h'.sound hok'
    rw [TestInv.more_more h.bindex] at hinv
    exact ⟨hinv, covered_append.mpr ⟨(h.sound hok).2, (covered_congr TestInv.met_more).mp hcov⟩⟩
  complete hq hcov :=
    h'.complete (h.quiet hq) ((covered_congr TestInv.met_more).mpr (covered_append.mp hcov).2)

/-- A test that has been refused is refused whatever follows. -/
theorem Tested.refused (h : Tested hash met arg w l ok arg' w') (hok : ¬ ok) (hok' : ¬ ok') :
    Tested hash met arg w (l ++ l') ok' arg' w' where
  sameFs := h.sameFs
  quiet := h.quiet
  bindex := h.bindex
  sound hno := absurd hno hok'
  complete hq hcov := absurd (h.complete hq (covered_append.mp hcov).1) hok

/-- A call from below that does not fail. -/
theorem Tested.next (h : Tested hash met arg w l ok arg' w') : Tested hash met arg w l ok arg' w'.next where
  sameFs := h.sameFs.trans (.ask w')
  quiet hq := (h.quiet hq).next
  bindex := h.bindex
  sound := h.sound
  complete := h.complete

/-- A call from below that fails ends the test. -/
theorem Tested.fault (h : Tested hash met arg w l ok arg' w') {e : Errno} (hfault : w'.fault w'.tick = some e)
    (hok' : ¬ ok') : Tested hash met arg w (l ++ l') ok' arg' w'.next where
  sameFs := h.sameFs.trans (.ask w')
  quiet hq := (h.quiet hq).next
  bindex := h.bindex
  sound hno := absurd hno hok'
  complete hq _ := by
    rw [h.quiet hq w'.tick le_rfl] at hfault
    cases hfault

/-- Before a call the test forgets what the last one answered. -/
theorem Tested.reset {called : Nat} {err : Option Errno}
    (h : Tested hash met { arg with err, called } w l ok arg' w') : Tested hash met arg w l ok arg' w' :=
  ⟨h.sameFs, h.quiet, h.bindex, h.sound, h.complete⟩

/-- A name that is passed over or accepted. -/
theorem TestInv.tested (h : TestInv hash met arg) {n : Name}
    (hwh : ∀ k, k ≠ [] → n = whName k → ∃ b, n ∈ met b) (hasked : Ordinary n → ∃ b, whName n ∈ met b) :
    Tested hash met arg w [n] (none = (none : Option Errno))
      { arg with err := none, called := arg.called + 1 } w where
  sameFs := .refl w
  quiet hq := hq
  bindex := rfl
  sound _ := ⟨h.keep hwh rfl rfl rfl, covered_singleton.mpr hasked⟩
  complete _ _ := rfl

theorem testEmptyCb_called {dn : Dirent} (hcb : testEmptyCb hash arg dn w = (arg', w')) :
    arg'.called = arg.called + 1 := by
  unfold testEmptyCb at hcb
  dsimp only at hcb
  repeat' split at hcb
  all_goals
    obtain ⟨rfl, -⟩ := Prod.mk.inj hcb
    rfl

theorem testEmptyCb_tested {dn : Dirent} (h : TestInv hash met arg) (hn : dn.name ≠ [])
    (hcb : testEmptyCb hash arg dn w = (arg', w')) :
    Tested hash met arg w [dn.name] (arg'.err = none) arg' w' := by
  have hnotwh : isWhName dn.name = false → ∀ k, k ≠ [] → dn.name = whName k → ∃ b, dn.name ∈ met b := by
    intro hw k hk he
    rw [he, isWhName_whName.mpr hk] at hw
    cases hw
  unfold testEmptyCb at hcb
  dsimp only at hcb
  split at hcb
  · -- `.` and `..`
    rename_i hdot
    obtain ⟨rfl, rfl⟩ := Prod.mk.inj hcb
    refine h.tested (fun k _ he => ?_) fun hx => ?_
    · rcases hdot with hdot | hdot
      · exact absurd (he.symm.trans hdot) (whName_ne (by decide))
      · exact absurd (he.symm.trans hdot) (whName_ne (by decide))
    · exact absurd hdot (not_or.mpr ⟨hx.1, hx.2.1⟩)
  · rename_i hdot
    obtain ⟨h1, h2⟩ := not_or.mp hdot
    split at hcb
    · rename_i hw
      have hw : isWhName dn.name = false := by simpa using hw
      split at hcb
      · rename_i hk
        obtain ⟨rfl, rfl⟩ := Prod.mk.inj hcb
        refine ⟨.refl w, fun hq => hq, rfl, fun hno => (by cases hno), fun _ hcov => ?_⟩
        have hmet := covered_singleton.mp hcov ⟨h1, h2, hw⟩
        rw [h.whonly, (h.known _).mpr ⟨hn, hmet⟩] at hk
        cases hk
      · rename_i hk
        obtain ⟨rfl, rfl⟩ := Prod.mk.inj hcb
        refine h.tested (hnotwh hw) fun _ => ?_
        rw [h.whonly, Bool.true_and, Bool.not_eq_true', Bool.not_eq_false] at hk
        exact ((h.known _).mp hk).2
    · rename_i hw
      have hw : isWhName dn.name = true := by simpa using hw
      obtain ⟨k, hk, he⟩ := isWhName_iff.mp hw
      have hnot : ¬ Ordinary dn.name := fun hx => by
        rw [hx.2.2] at hw
        cases hw
      rw [he, drop_whName] at hcb
      split at hcb
      · rename_i hknown
        obtain ⟨rfl, rfl⟩ := Prod.mk.inj hcb
        refine h.tested (fun _ _ _ => ?_) fun hx => absurd hx hnot
        rw [he]
        exact ((h.known k).mp hknown).2
      · rename_i hknown
        have hnew : ∀ b, whName k ∉ met b := fun b hb => hknown ((h.known k).mpr ⟨hk, b, hb⟩)
        split at hcb
        · rename_i e w1 hask
          obtain ⟨rfl, rfl⟩ := Prod.mk.inj hcb
          obtain ⟨hfault, rfl⟩ := Prod.mk.inj hask
          refine ⟨.ask w, World.Quiet.next, rfl, fun hno => (by cases hno), fun hq _ => ?_⟩
          rw [hq w.tick le_rfl] at hfault
          cases hfault
        · rename_i w1 hask
          obtain ⟨rfl, rfl⟩ := Prod.mk.inj hcb
          obtain ⟨-, rfl⟩ := Prod.mk.inj hask
          refine ⟨.ask w, World.Quiet.next, rfl, fun _ => ⟨?_, ?_⟩, fun _ _ => rfl⟩
          · rw [he]
            exact h.add hk hnew rfl rfl rfl
          · exact covered_singleton.mpr fun hx => absurd hx hnot

theorem testEmptyChunk_tested {ds : List Dirent} {pos pos' : Nat} (h : TestInv hash met arg)
    (hn : [] ∉ ds.map Dirent.name) (harg : arg.err = none)
    (hch : testEmptyChunk hash ds pos arg w = (pos', arg', w')) :
    Tested hash met arg w (ds.map Dirent.name) (arg'.err = none) arg' w' ∧
      (arg'.err = none → pos' = pos + ds.length ∧ arg'.called = arg.called + ds.length) := by
  induction ds generalizing met arg w pos with
  | nil =>
    simp only [testEmptyChunk, Prod.mk.injEq] at hch
    obtain ⟨rfl, rfl, rfl⟩ := hch
    refine ⟨⟨.refl w, fun hq => hq, rfl, fun _ => ⟨?_, covered_nil⟩, fun _ _ => harg⟩, fun _ => ⟨rfl, rfl⟩⟩
    rwa [List.map_nil, TestInv.more_nil]
  | cons dn ds ih =>
    simp only [List.map_cons, List.mem_cons, not_or] at hn
    rcases hcb : testEmptyCb hash arg dn w with ⟨arg₁, w₁⟩
    have hone := testEmptyCb_tested h (Ne.symm hn.1) hcb
    simp only [testEmptyChunk, hcb] at hch
    split at hch
    · rename_i hok
      obtain ⟨hrest, hpos⟩ := ih (hone.sound hok).1 hn.2 hok hch
      refine ⟨hone.append hok hrest, fun hok' => ?_⟩
      obtain ⟨hp, hc⟩ := hpos hok'
      rw [hp, hc, testEmptyCb_called hcb, List.length_cons]
      omega
    · rename_i hok
      simp only [Prod.mk.injEq] at hch
      obtain ⟨-, rfl, rfl⟩ := hch
      exact ⟨hone.refused hok hok, fun hok' => absurd hok' hok⟩

/-- The loop of `do_test_empty` tests what the hidden directory still delivers. -/
theorem testEmptyRead_tested {fuel : Nat} {hf : HFile} {res : Except Errno Unit} (h : TestInv hash met arg)
    (hfuel : (hf.unread w).length < fuel) (hrd : testEmptyRead hash fuel hf arg w = (res, arg', w')) :
    Tested hash met arg w (hf.unread w) (res = .ok ()) arg' w' := by
  induction fuel generalizing met arg hf w with
  | zero => omega
  | succ fuel ih =>
    rw [testEmptyRead] at hrd
    obtain ⟨ds, hds⟩ : ∃ ds, ds = ((w.dirents hf.root hf.path).drop hf.pos).take (w.chunk w.tick + 1) :=
      ⟨_, rfl⟩
    -- what is tested now and what is left
    have hsplit : hf.unread w = ds.map Dirent.name ++ HFile.unread w { hf with pos := hf.pos + ds.length } := by
      have hpre : ds <+: (w.dirents hf.root hf.path).drop hf.pos := hds ▸ List.take_prefix _ _
      rw [HFile.unread, HFile.unread, ← List.map_append, ← List.drop_drop, List.prefix_iff_eq_append.mp hpre]
    have hlen : ds.length = 0 → hf.unread w = [] := by
      intro h0
      rw [hds, List.length_take] at h0
      rw [HFile.unread, List.map_eq_nil_iff, ← List.length_eq_zero_iff]
      omega
    have hnil : [] ∉ ds.map Dirent.name := fun hm =>
      hf.nil_not_mem_unread w (by rw [hsplit]; exact List.mem_append_left _ hm)
    have h0 : TestInv hash met { arg with err := none, called := 0 } := ⟨h.whonly, h.range, h.known, h.all⟩
    rcases hch : testEmptyChunk hash ds hf.pos { arg with err := none, called := 0 } w with ⟨pos, arg₁, w₁⟩
    obtain ⟨hch', hpos⟩ := testEmptyChunk_tested h0 hnil rfl hch
    dsimp only at hrd
    rw [← hds, hch] at hrd
    dsimp only at hrd
    rw [hsplit]
    rcases hask : w₁.ask with ⟨_ | e, w₂⟩
    · obtain ⟨-, rfl⟩ := Prod.mk.inj hask
      rw [hask] at hrd
      dsimp only at hrd
      rcases herr : arg₁.err with _ | e
      · obtain ⟨rfl, hcalled⟩ := hpos herr
        rw [Nat.zero_add] at hcalled
        have hunread : HFile.unread w₁.next { hf with pos := hf.pos + ds.length } =
            HFile.unread w { hf with pos := hf.pos + ds.length } := by
          simp only [HFile.unread, hch'.next.sameFs.dirents]
        simp only [herr] at hrd
        split at hrd
        · -- nothing was delivered: the end
          rename_i hzero
          simp only [Prod.mk.injEq] at hrd
          obtain ⟨rfl, rfl, rfl⟩ := hrd
          have hend := hlen (by omega)
          rw [← hsplit, hend]
          rw [hsplit, List.append_eq_nil_iff] at hend
          rw [hend.1] at hch'
          exact ⟨hch'.reset.next.sameFs, hch'.reset.next.quiet, hch'.bindex,
            fun _ => hch'.sound herr, fun _ _ => rfl⟩
        · rename_i hzero
          have hshort : (HFile.unread w₁.next { hf with pos := hf.pos + ds.length }).length < fuel := by
            rw [hsplit, List.length_append, List.length_map] at hfuel
            rw [hunread]
            omega
          have hrest := ih (hch'.sound herr).1 hshort hrd
          rw [hunread] at hrest
          exact hch'.next.reset.append herr hrest
      · simp only [herr, Prod.mk.injEq] at hrd
        obtain ⟨rfl, rfl, rfl⟩ := hrd
        have hno : ¬ arg₁.err = none := fun hok => by
          rw [hok] at herr
          cases herr
        exact (hch'.refused hno fun hok => by cases hok).next.reset
    · obtain ⟨hfault, rfl⟩ := Prod.mk.inj hask
      rw [hask] at hrd
      simp only [Prod.mk.injEq] at hrd
      obtain ⟨rfl, rfl, rfl⟩ := hrd
      exact (hch'.fault hfault fun hok => by cases hok).reset

/-- Before the first name. -/
theorem TestInv.tested_nil (h : TestInv hash met arg) : Tested hash met arg w [] True arg w where
  sameFs := .refl w
  quiet hq := hq
  bindex := rfl
  sound _ := ⟨by rwa [TestInv.more_nil], covered_nil⟩
  complete _ _ := trivial

theorem doTestEmpty_tested {h : HDentry} {res : Except Errno Unit} (hinv : TestInv hash met arg)
    (hh : d.hDptrI arg.bindex = some h) (hdo : doTestEmpty hash d arg w = (res, arg', w')) :
    Tested hash met arg w ((w.dirents h.root h.path).map Dirent.name) (res = .ok ()) arg' w' := by
  unfold doTestEmpty at hdo
  rw [hh] at hdo
  dsimp only at hdo
  rcases hask : w.ask with ⟨_ | e, w₁⟩
  · obtain ⟨-, rfl⟩ := Prod.mk.inj hask
    rw [hask] at hdo
    have hread := testEmptyRead_tested hinv (by
      rw [HFile.unread, List.drop_zero, List.length_map]
      exact Nat.lt_add_of_pos_right Nat.two_pos) hdo
    refine hinv.tested_nil.next.append trivial ?_
    rw [TestInv.more_nil]
    exact hread
  · obtain ⟨hfault, rfl⟩ := Prod.mk.inj hask
    rw [hask] at hdo
    simp only [Prod.mk.injEq] at hdo
    obtain ⟨rfl, rfl, rfl⟩ := hdo
    exact hinv.tested_nil.fault hfault fun hok => by cases hok

-- ---------------------------------------------------------------------------
-- All branches
-- ---------------------------------------------------------------------------

/-- What the branches have delivered after `met` when the branches `L` are read too. -/
def Dinfo.deliveredBy (d : Dinfo) (w : World) (met : Int → List Name) (L : List Int) (b : Int) : List Name :=
  if b ∈ L then d.namesAt w b else met b

/-- Every name of these branches comes after its whiteout. -/
def CoveredOn (L : List Int) (held : Int → List Name) : Prop :=
  ∀ b ∈ L, Covered Ordinary whName (fun y => ∃ c < b, y ∈ held c) (held b)

/-- The slots that the test passes over deliver nothing. -/
theorem namesAt_of_not_positive (hdir : d.IsDir) {b : Int} (hb : d.positiveAt b = false) :
    d.namesAt w b = [] := by
  unfold Dinfo.namesAt
  split
  · rename_i hrange
    cases hd : d.hDptrI b with
    | none => rfl
    | some h =>
      have hpos := hdir.slots b h hd hrange.2
      rw [Dinfo.positiveAt, hd, Option.any_some, HDentry.positive] at hb
      rw [HDentry.isDir] at hpos
      cases hi : h.inode with
      | none =>
        rw [hi] at hpos
        cases hpos
      | some i =>
        rw [hi] at hb
        cases hb
  · rfl

theorem deliveredBy_cons {L : List Int} {b : Int} (hmet : met b = []) (hL : b ∉ L) :
    d.deliveredBy w met (b :: L) =
      d.deliveredBy w (TestInv.more met { arg with bindex := b } (d.namesAt w b)) L := by
  funext c
  simp only [Dinfo.deliveredBy, TestInv.more, List.mem_cons]
  by_cases hc : c = b
  · rw [hc, Function.update_self, hmet, if_pos (.inl rfl), if_neg hL, List.nil_append]
  · rw [Function.update_of_ne hc]
    simp [hc]

theorem testEmptyLoop_spec {L : List Int} {res : Except Errno Unit} (hdir : d.IsDir)
    (h : TestInv hash met arg) (hsorted : L.Pairwise (· < ·))
    (hL : ∀ b ∈ L, d.bstart ≤ b ∧ b ≤ d.dbtaildir ∧ arg.bindex ≤ b ∧ met b = [])
    (hloop : testEmptyLoop hash d L arg w = (res, arg', w')) :
    w.SameFs w' ∧
      (res = .ok () → (∃ b, TestInv hash (d.deliveredBy w met L) { arg' with bindex := b }) ∧
        CoveredOn L (d.deliveredBy w met L)) ∧
      (w.Quiet → CoveredOn L (d.deliveredBy w met L) → res = .ok ()) := by
  induction L generalizing met arg w with
  | nil =>
    simp only [testEmptyLoop, Prod.mk.injEq] at hloop
    obtain ⟨rfl, rfl, rfl⟩ := hloop
    have hheld : d.deliveredBy w met [] = met := by
      funext c
      exact if_neg List.not_mem_nil
    refine ⟨.refl w, fun _ => ⟨⟨arg.bindex, hheld ▸ h⟩, fun b hb => absurd hb List.not_mem_nil⟩, fun _ _ => rfl⟩
  | cons b L ih =>
    obtain ⟨hlo, hhi, hbarg, hbmet⟩ := hL b List.mem_cons_self
    obtain ⟨habove, hsorted'⟩ := List.pairwise_cons.mp hsorted
    have hbL : b ∉ L := fun hm => (habove b hm).ne rfl
    have hb : TestInv hash met { arg with bindex := b } :=
      ⟨h.whonly, fun c hc => h.range c (by simp only at hc; omega), h.known, h.all⟩
    have hheld : d.deliveredBy w met (b :: L) =
        d.deliveredBy w (TestInv.more met { arg with bindex := b } (d.namesAt w b)) L :=
      deliveredBy_cons hbmet hbL
    have hmore : ∀ c ∈ L, TestInv.more met { arg with bindex := b } (d.namesAt w b) c = [] := by
      intro c hc
      have hne : c ≠ b := fun he => hbL (he ▸ hc)
      rw [TestInv.more, Function.update_of_ne hne]
      exact (hL c (List.mem_cons_of_mem b hc)).2.2.2
    -- what has been met above the branch is what was met before it
    have hmet : ∀ y, (∃ c, y ∈ met c) ↔ ∃ c < b, y ∈ d.deliveredBy w met (b :: L) c := by
      have hout : ∀ c < b, d.deliveredBy w met (b :: L) c = met c := by
        intro c hc
        refine if_neg fun hm => ?_
        rcases List.mem_cons.mp hm with rfl | hm
        · exact lt_irrefl _ hc
        · exact absurd (habove c hm) hc.not_gt
      intro y
      constructor
      · rintro ⟨c, hy⟩
        have hcb : c < b := by
          by_contra hge
          rcases (not_lt.mp hge).lt_or_eq with hlt | rfl
          · rw [h.range c (by omega)] at hy
            exact List.not_mem_nil hy
          · rw [hbmet] at hy
            exact List.not_mem_nil hy
        exact ⟨c, hcb, by rwa [hout c hcb]⟩
      · rintro ⟨c, hcb, hy⟩
        exact ⟨c, by rwa [← hout c hcb]⟩
    have hself : d.deliveredBy w met (b :: L) b = d.namesAt w b := if_pos List.mem_cons_self
    have hcons : CoveredOn (b :: L) (d.deliveredBy w met (b :: L)) ↔
        Covered Ordinary whName (fun y => ∃ c, y ∈ met c) (d.namesAt w b) ∧
          CoveredOn L (d.deliveredBy w met (b :: L)) := by
      rw [CoveredOn, List.forall_mem_cons, hself, covered_congr hmet]
      rfl
    rw [testEmptyLoop] at hloop
    cases hpos : d.positiveAt b with
    | false =>
      rw [if_neg (by rw [hpos]; exact Bool.false_ne_true)] at hloop
      have hnames := namesAt_of_not_positive (w := w) hdir hpos
      rw [hnames, TestInv.more_nil] at hheld
      rw [hcons, hnames, hheld]
      obtain ⟨hsame, hsound, hcomplete⟩ := ih h hsorted' (fun c hc => hL c (List.mem_cons_of_mem b hc)) hloop
      exact ⟨hsame, fun hok => ⟨(hsound hok).1, covered_nil, (hsound hok).2⟩, fun hq hcov => hcomplete hq hcov.2⟩
    | true =>
      rw [if_pos hpos] at hloop
      obtain ⟨hd, hhd, -⟩ := (Option.any_eq_true _ _).mp hpos
      have hnames : d.namesAt w b = (w.dirents hd.root hd.path).map Dirent.name := by
        rw [Dinfo.namesAt, if_pos ⟨hlo, hhi⟩, hhd]
      rcases hdo : doTestEmpty hash d { arg with bindex := b } w with ⟨res₁, arg₁, w₁⟩
      have htest := doTestEmpty_tested hb hhd hdo
      rw [← hnames] at htest
      rw [hdo] at hloop
      cases res₁ with
      | error e =>
        simp only [Prod.mk.injEq] at hloop
        obtain ⟨rfl, rfl, rfl⟩ := hloop
        refine ⟨htest.sameFs, fun hok => (by cases hok), fun hq hcov => ?_⟩
        exact htest.complete hq (hcons.mp hcov).1
      | ok u =>
        obtain ⟨hinv₁, hcov₁⟩ := htest.sound rfl
        obtain ⟨hsame, hsound, hcomplete⟩ := ih hinv₁ hsorted' (fun c hc => by
          have hc' := hL c (List.mem_cons_of_mem b hc)
          rw [htest.bindex]
          exact ⟨hc'.1, hc'.2.1, (habove c hc).le, hmore c hc⟩) hloop
        have hrest : d.deliveredBy w₁ (TestInv.more met { arg with bindex := b } (d.namesAt w b)) L =
            d.deliveredBy w met (b :: L) := by
          rw [hheld]
          funext c
          simp only [Dinfo.deliveredBy, namesAt_congr htest.sameFs]
        rw [hrest] at hsound hcomplete
        refine ⟨htest.sameFs.trans hsame, fun hok => ?_, fun hq hcov => ?_⟩
        · exact ⟨(hsound hok).1, hcons.mpr ⟨hcov₁, (hsound hok).2⟩⟩
        · exact hcomplete (htest.quiet hq) (hcons.mp hcov).2

theorem testEmpty_spec {p : Path} {m m' : Mount} {res : Except Errno (Nhash Wh)} (hdir : (m.di p).IsDir)
    (hrun : testEmpty hash p .init m = (res, m')) :
    (∀ whlist, res = .ok whlist → LayersCovered Ordinary whName ((m.di p).namesAt m.w) ∧
      ∀ wh, wh ∈ whlist.all ↔
        wh.str ≠ [] ∧ First (fun b => whName wh.str ∈ (m.di p).namesAt m.w b) wh.bindex) ∧
    (m.w.Quiet → LayersCovered Ordinary whName ((m.di p).namesAt m.w) → ∃ whlist, res = .ok whlist) := by
  have hinit : TestInv hash (fun _ => []) ⟨.init, true, 0, none, 0⟩ := by
    refine ⟨rfl, fun _ _ => rfl, fun n => ?_, fun wh => ?_⟩
    · simp
    · simp [Nhash.all, Nhash.init, First]
  rcases hloop : testEmptyLoop hash (m.di p) (bindexes (m.di p).bstart (m.di p).dbtaildir)
    ⟨.init, true, 0, none, 0⟩ m.w with ⟨r, arg, w₁⟩
  have hheld : (m.di p).deliveredBy m.w (fun _ => []) (bindexes (m.di p).bstart (m.di p).dbtaildir) =
      (m.di p).namesAt m.w := by
    funext b
    simp only [Dinfo.deliveredBy, Dinfo.namesAt, mem_bindexes]
    split
    · rfl
    · rfl
  obtain ⟨-, hsound, hcomplete⟩ := testEmptyLoop_spec hdir hinit (bindexes_sorted _ _) (fun b hb => by
    have h0 := hdir.bstart
    have hb := mem_bindexes.mp hb
    exact ⟨hb.1, hb.2, by simp only; omega, rfl⟩) hloop
  rw [hheld] at hsound hcomplete
  -- the branches outside the range deliver nothing
  have hcov : CoveredOn (bindexes (m.di p).bstart (m.di p).dbtaildir) ((m.di p).namesAt m.w) ↔
      LayersCovered Ordinary whName ((m.di p).namesAt m.w) := by
    constructor
    · intro h b
      by_cases hb : b ∈ bindexes (m.di p).bstart (m.di p).dbtaildir
      · exact h b hb
      · have hnil : (m.di p).namesAt m.w b = [] := if_neg fun hr => hb (mem_bindexes.mpr hr)
        rw [hnil]
        exact covered_nil
    · exact fun h b _ => h b
  rw [hcov] at hcomplete
  simp only [hcov] at hsound
  have hwp : wp (testEmpty hash p .init) (fun whlist _ => r = .ok () ∧ whlist = arg.whlist)
      (fun _ _ => ∃ e, r = .error e) m := by
    refine wp_bind.mpr (wp_dinfo.mpr (wp_onWorld (fun whlist w h => ?_) fun e w h => ?_))
    · rw [hloop] at h
      cases r with
      | error e => cases h
      | ok u =>
        cases h
        exact ⟨rfl, rfl⟩
    · rw [hloop] at h
      cases r with
      | error e => exact ⟨e, rfl⟩
      | ok u => cases h
  cases res with
  | error e =>
    obtain ⟨e', rfl⟩ := hwp.error hrun
    exact ⟨fun _ hok => (by cases hok), fun hq hc => by cases hcomplete hq hc⟩
  | ok whlist =>
    obtain ⟨hr, rfl⟩ := hwp.ok hrun
    obtain ⟨⟨b, hinv⟩, hlayers⟩ := hsound hr
    refine ⟨fun whlist hok => ?_, fun _ _ => ⟨_, rfl⟩⟩
    cases hok
    exact ⟨hlayers, hinv.all⟩

-- ---------------------------------------------------------------------------
-- Deleting the whiteouts
-- ---------------------------------------------------------------------------

namespace LowerFs

variable {f : LowerFs} {p : Path} {i : HInode}

theorem unlink_of_file (h : f.node p = some i) (hi : i.isDir = false) : ∃ f', f.unlink p = .ok f' := by
  unfold unlink
  split
  · rename_i hnone
    rw [h] at hnone
    cases hnone
  · rename_i j hj
    rw [h] at hj
    cases hj
    rw [dif_neg (by rw [hi]; exact Bool.false_ne_true)]
    exact ⟨_, rfl⟩

theorem rmdir_of_empty (h : f.node p = some i) (hi : i.isDir = true) (hp : p ≠ [])
    (hempty : ∀ n, f.node (p ++ [n]) = none) : ∃ f', f.rmdir p = .ok f' := by
  have hnil : f.ents.children p = [] := by
    rw [List.eq_nil_iff_forall_not_mem]
    intro n hn
    rw [Ents.mem_children] at hn
    have hnone : f.ents.node (p ++ [n]) = none := hempty n
    rw [hnone] at hn
    cases hn
  unfold rmdir
  rw [h]
  dsimp only
  rw [if_pos hi, dif_pos ⟨hp, hnil⟩]
  exact ⟨_, rfl⟩

end LowerFs

theorem World.call_of_quiet {root : Nat} {op : LowerFs → Except Errno LowerFs} {f : LowerFs} (hq : w.Quiet)
    (hop : op (w.fs root) = .ok f) :
    w.call root op = (.ok (), { w.next with fs := Function.update w.fs root f }) := by
  have hfs : w.next.fs root = w.fs root := rfl
  rw [World.call, World.ask_of_quiet hq]
  dsimp only
  rw [hfs, hop]
  rfl

section Quiet

variable {α : Type} {m : Mount} {E : Errno → Mount → Prop} {h : HDentry}

theorem wp_onWorld_ok {f : World → Except Errno α × World} {Q : α → Mount → Prop} {a : α}
    (hf : f m.w = (.ok a, w)) (hok : Q a { m with w }) : wp (onWorld f) Q E m := by
  refine wp_onWorld (fun b v hb => ?_) fun e v he => ?_
  · rw [hf] at hb
    cases hb
    exact hok
  · rw [hf] at he
    cases he

theorem wp_kmalloc_of_quiet {Q : Unit → Mount → Prop} (hq : m.w.Quiet) (hok : Q () { m with w := m.w.next }) :
    wp kmalloc Q E m := by
  refine wp_onWorld_ok ?_ hok
  rw [World.ask_of_quiet hq]

theorem wp_lkupOne_of_quiet {n : Name} {Q : HDentry → Mount → Prop} (hq : m.w.Quiet) (hn : n.length ≤ nameMax)
    (hok : Q ⟨h.root, h.path ++ [n], m.w.node h.root (h.path ++ [n])⟩ { m with w := m.w.next }) :
    wp (Op.lkupOne h n) Q E m := by
  refine wp_onWorld_ok ?_ hok
  unfold Aufs.lkupOne
  rw [World.ask_of_quiet hq]
  exact if_neg (not_lt.mpr hn)

theorem wp_vfsubUnlink_of_quiet {Q : Unit → Mount → Prop} {i : HInode} (hq : m.w.Quiet)
    (hi : m.w.node h.root h.path = some i) (hfile : i.isDir = false)
    (hok : ∀ w, w.Quiet → m.w.Sets w h.root h.path none → Q () { m with w }) : wp (vfsubUnlink h) Q E m := by
  obtain ⟨f, hf⟩ := LowerFs.unlink_of_file hi hfile
  obtain ⟨-, -, -, hnode⟩ := LowerFs.unlink_ok hf
  exact wp_onWorld_ok (World.call_of_quiet hq hf) (hok _ (fun t ht => hq.next t ht) (sets_of_fs rfl hnode))

theorem wp_vfsubRmdir_of_quiet {Q : Unit → Mount → Prop} (hq : m.w.Quiet) (hdir : (m.w.fs h.root).isDir h.path)
    (hp : h.path ≠ []) (hempty : ∀ n, m.w.node h.root (h.path ++ [n]) = none)
    (hok : ∀ w, Q () { m with w }) : wp (vfsubRmdir h) Q E m := by
  obtain ⟨i, hi, hmode⟩ := Ents.isDir_iff.mp hdir
  have hi' : i.isDir = true := by rw [HInode.isDir, hmode]; rfl
  obtain ⟨f, hf⟩ := LowerFs.rmdir_of_empty hi hi' hp hempty
  exact wp_onWorld_ok (World.call_of_quiet hq hf) (hok _)

/-- A whiteout that is there is unlinked. -/
theorem wp_unlinkWhName_of_quiet {n : Name} {Q : Unit → Mount → Prop} (hq : m.w.Quiet)
    (hn : n.length ≤ nameMax) (hfile : ∀ i, m.w.node h.root (h.path ++ [n]) = some i → i.isDir = false)
    (hok : ∀ w, w.Quiet → m.w.Sets w h.root (h.path ++ [n]) none → Q () { m with w }) :
    wp (unlinkWhName h n) Q E m := by
  refine wp_bind.mpr (wp_lkupOne_of_quiet hq hn (wp_ite.mpr ⟨fun hpos => ?_, fun hneg => ?_⟩))
  · obtain ⟨i, hi⟩ := Option.isSome_iff_exists.mp hpos
    exact wp_vfsubUnlink_of_quiet (m := { m with w := m.w.next }) hq.next hi (hfile i hi) hok
  · refine wp_pure.mpr (hok _ hq.next fun r q => ?_)
    split
    · rename_i hrq
      rw [hrq.1, hrq.2]
      exact Option.not_isSome_iff_eq_none.mp hneg
    · rfl

/-- The whiteouts of the list are unlinked, and nothing else. -/
theorem wp_delWhLoop_of_quiet {L : List Wh} (hq : m.w.Quiet)
    (hlen : ∀ wh ∈ L, (whName wh.str).length ≤ nameMax)
    (hfile : ∀ wh ∈ L, ∀ i, m.w.node h.root (h.path ++ [whName wh.str]) = some i → i.isDir = false) :
    wp (delWhLoop h L) (fun _ m' => m'.w.Quiet ∧ m'.w.node h.root h.path = m.w.node h.root h.path ∧
      ∀ n, m'.w.node h.root (h.path ++ [n]) =
        if ∃ wh ∈ L, n = whName wh.str then none else m.w.node h.root (h.path ++ [n])) E m := by
  induction L generalizing m with
  | nil => exact wp_pure.mpr ⟨hq, rfl, fun n => by simp⟩
  | cons wh L ih =>
    have hlen' := hlen wh List.mem_cons_self
    have hmax : wh.str.length + whLen ≤ pathMax := by
      have hle : nameMax ≤ pathMax := by decide
      rw [whName, List.length_append, ← whLen] at hlen'
      omega
    rw [delWhLoop, if_pos hmax]
    refine wp_bind.mpr (wp_unlinkWhName_of_quiet hq hlen' (hfile wh List.mem_cons_self) fun w hqw hset => ?_)
    have hset' : ∀ n, w.node h.root (h.path ++ [n]) =
        if n = whName wh.str then none else m.w.node h.root (h.path ++ [n]) := by
      intro n
      rw [hset h.root]
      simp
    have hself : w.node h.root h.path = m.w.node h.root h.path := by
      rw [hset h.root, if_neg]
      simp
    refine wp.mono (ih (m := { m with w }) hqw (fun x hx => hlen x (List.mem_cons_of_mem wh hx)) ?_) ?_
      fun _ _ he => he
    · intro x hx i hi
      have hi : w.node h.root (h.path ++ [whName x.str]) = some i := hi
      rw [hset'] at hi
      split at hi
      · cases hi
      · exact hfile x (List.mem_cons_of_mem wh hx) i hi
    · rintro _ m' ⟨hq', hself', hnode⟩
      refine ⟨hq', hself'.trans hself, fun n => ?_⟩
      rw [hnode n]
      have hn : World.node w h.root (h.path ++ [n]) = _ := hset' n
      simp only [List.exists_mem_cons_iff, hn]
      by_cases hwh : n = whName wh.str
      · rw [if_pos hwh, ite_self, if_pos (.inl hwh)]
      · simp only [hwh, false_or, if_false]

end Quiet

/-- Deleting whiteouts does not remove a directory. -/
theorem wp_delWhLoop_dir {m : Mount} {h : HDentry} {L : List Wh} {root : Nat} {q : Path} {i : HInode}
    (hi : m.w.node root q = some i) (hdir : i.isDir = true) :
    wp (delWhLoop h L) (fun _ m' => m'.w.node root q = some i) (fun _ m' => m'.w.node root q = some i) m := by
  induction L generalizing m with
  | nil => exact wp_pure.mpr hi
  | cons wh L ih =>
    have hsame : ∀ w : World, w.fs = m.w.fs → w.node root q = some i := by
      intro w hw
      rw [World.node_congr hw, hi]
    rw [delWhLoop]
    refine wp_ite.mpr ⟨fun _ => ?_, fun _ => wp_refuse.mpr hi⟩
    refine wp_bind.mpr (wp_bind.mpr (wp_lkupOne (fun w hw => ?_) fun _ w hw => hsame w hw))
    have hi' := hsame w hw
    refine wp_ite.mpr ⟨fun _ => ?_, fun _ => wp_pure.mpr (ih hi')⟩
    refine wp_vfsubUnlink (fun w' j hj hfile hset => ih ?_) fun _ w' hw' => hsame w' (Eq.trans hw' hw)
    have hset' := hset root q
    rw [if_neg] at hset'
    · exact hset'.trans hi'
    · rintro ⟨rfl, rfl⟩
      have heq : some j = some i := hj.symm.trans hi'
      cases heq
      rw [hdir] at hfile
      cases hfile

-- ---------------------------------------------------------------------------
-- The test and the listing
-- ---------------------------------------------------------------------------

/-- `vd` is built by `read_vdir` for the directory: it has just been opened, and the branches are those
of `fs`. -/
def ListedBy (hash : Name → Nat) (sb : SuperBlock) (d : Dinfo) (fs : Nat → LowerFs) (vd : Vdir) : Prop :=
  ∃ (ino ino' : DirInode) (f f' : DirFile) (w w₁ w₂ : World) (mayRead : Bool), w.fs = fs ∧
    doOpenDir ino d w = (some f, w₁) ∧ readVdir hash sb mayRead ino f w₁ = (.ok (), ino', f', w₂) ∧
    vdirPlan sb mayRead ino w₁ ≠ .serve ∧ ino'.vdir = some vd

/-- The listing has only `.` and `..`. -/
def Vdir.OnlyDots (vd : Vdir) : Prop := ∀ n ∈ vd.names, n = dot ∨ n = dotdot

/-- What `test_empty` answers for the directory `p` in the world `w`. -/
def testEmptyIn (hash : Name → Nat) (p : Path) (m : Mount) (w : World) : Except Errno (Nhash Wh) :=
  (testEmpty hash p .init { m with w }).1

/-- The test agrees with the listing, whatever the order and the chunks in which the branches deliver
their names, and its list of whiteouts is all that is in the directory on the first branch: when these
are deleted the directory is empty, be it where it was or renamed, and can be removed. -/
structure EmptyAgrees (hash : Name → Nat) (sb : SuperBlock) (m : Mount) (p : Path) (h : HDentry) : Prop where
  listed : ∀ w, w.fs = m.w.fs → ∀ whlist, testEmptyIn hash p m w = .ok whlist →
    ∀ vd, ListedBy hash sb (m.di p) m.w.fs vd → vd.OnlyDots
  accepted : ∀ w, w.fs = m.w.fs → w.Quiet → ∀ vd, ListedBy hash sb (m.di p) m.w.fs vd → vd.OnlyDots →
    ∃ whlist, testEmptyIn hash p m w = .ok whlist
  order : ∀ w w', w.fs = m.w.fs → w'.fs = m.w.fs → w.Quiet → w'.Quiet →
    ((∃ whlist, testEmptyIn hash p m w = .ok whlist) ↔ ∃ whlist, testEmptyIn hash p m w' = .ok whlist)
  emptied : ∀ w, w.fs = m.w.fs → ∀ whlist, testEmptyIn hash p m w = .ok whlist →
    ∀ (m' : Mount) (h' : HDentry), m'.w.Quiet →
      (∀ n, m'.w.node h'.root (h'.path ++ [n]) = m.w.node h.root (h.path ++ [n])) →
      ∃ m'', delWhChildren whlist h' (m.di p).bstart m' = (.ok (), m'') ∧
        (∀ n, m''.w.node h'.root (h'.path ++ [n]) = none) ∧
        (h'.path ≠ [] → (m'.w.fs h'.root).isDir h'.path → (vfsubRmdir h' m'').1 = .ok ())

/-- The branch `b` shows the name `n` of the directory. -/
def Dinfo.Shows (d : Dinfo) (w : World) (n : Name) (b : Int) : Prop :=
  Ordinary n ∧ Shown (d.nameAt w n) (d.nameAt w (whName n)) b

theorem showsAt_namesAt {n : Name} {b : Int} : ShowsAt Ordinary whName (d.namesAt w) n b ↔ d.Shows w n b := by
  refine and_congr_right fun hn => ?_
  simp only [Shown, mem_namesAt hn.1 hn.2.1, mem_namesAt (whName_ne (m := dot) (by decide))
    (whName_ne (m := dotdot) (by decide))]

theorem shows_congr (h : w'.fs = w.fs) {n : Name} {b : Int} : d.Shows w' n b ↔ d.Shows w n b := by
  simp only [Dinfo.Shows, nameAt_congr h]

theorem namesAt_eq_nil (hdir : d.IsDir) : ∀ c < (0 : Int), d.namesAt w c = [] := by
  intro c hc
  have h0 := hdir.bstart
  exact if_neg fun hr => by omega

/-- A directory whose listing has only `.` and `..` shows nothing. -/
theorem ListedBy.onlyDots_iff {vd : Vdir} (hdir : d.IsDir) (h : ListedBy hash sb d w.fs vd) :
    vd.OnlyDots ↔ ∀ n b, ¬ d.Shows w n b := by
  obtain ⟨ino, ino', f, f', v, v₁, v₂, mayRead, hfs, hopen, hread, hbuild, hvd⟩ := h
  have hmem : ∀ n, n ≠ dot → n ≠ dotdot → (n ∈ vd.names ↔ ∃ b, d.Shows w n b) := by
    intro n h1 h2
    obtain ⟨vd', hvd', hlist⟩ := mem_listing hdir h1 h2 hopen hread hbuild
    rw [hvd] at hvd'
    cases hvd'
    simp only [hlist, nameAt_congr hfs, Dinfo.Shows, Ordinary, h1, h2, ne_eq, not_false_eq_true, true_and,
      exists_and_left]
  constructor
  · intro hdots n b hs
    have hn := hs.1
    rcases hdots n ((hmem n hn.1 hn.2.1).mpr ⟨b, hs⟩) with he | he
    · exact hn.1 he
    · exact hn.2.1 he
  · intro hno n hn
    by_cases h1 : n = dot
    · exact .inl h1
    · by_cases h2 : n = dotdot
      · exact .inr h2
      · obtain ⟨b, hs⟩ := (hmem n h1 h2).mp hn
        exact absurd hs (hno n b)

/-- A quiet world over `fs` whose directories deliver the entries that `first` picks before the others. -/
def World.picking (fs : Nat → LowerFs) (first : Dirent → Bool) : World :=
  { World.ofFs fs with
    order := fun l => l.filter first ++ l.filter fun dn => !first dn
    order_perm := fun l => List.filter_append_perm first l }

theorem World.picking_quiet (fs : Nat → LowerFs) (first : Dirent → Bool) : (World.picking fs first).Quiet :=
  fun _ _ => rfl

theorem namesAt_picking (fs : Nat → LowerFs) (first : Name → Bool) (b : Int) :
    ∃ l l', d.namesAt (World.picking fs fun dn => first dn.name) b = l ++ l' ∧
      (∀ n ∈ l, first n = true) ∧ ∀ n ∈ l', first n = false := by
  unfold Dinfo.namesAt
  split
  · split
    · exact ⟨[], [], rfl, fun n hn => absurd hn List.not_mem_nil, fun n hn => absurd hn List.not_mem_nil⟩
    · refine ⟨_, _, List.map_append, fun n hn => ?_, fun n hn => ?_⟩
      · obtain ⟨dn, hdn, rfl⟩ := List.mem_map.mp hn
        exact (List.mem_filter.mp hdn).2
      · obtain ⟨dn, hdn, rfl⟩ := List.mem_map.mp hn
        simpa using (List.mem_filter.mp hdn).2
  · exact ⟨[], [], rfl, fun n hn => absurd hn List.not_mem_nil, fun n hn => absurd hn List.not_mem_nil⟩

theorem nil_not_mem_namesAt (b : Int) : [] ∉ d.namesAt w b := by
  rw [mem_namesAt (by decide) (by decide)]
  rintro ⟨-, -, h, -, hn⟩
  exact ((w.fs h.root).validName_of_node hn).1 rfl

/-- The whiteout of a name that a branch delivers is a whiteout. -/
theorem isWhName_of_mem {n : Name} {b : Int} (hn : n ∈ d.namesAt w b) : isWhName (whName n) = true :=
  isWhName_whName.mpr fun he => nil_not_mem_namesAt b (he ▸ hn)

/-- Whiteouts come first: the test accepts what has its whiteout beside it. -/
theorem layersCovered_whFirst (hdir : d.IsDir) {fs : Nat → LowerFs} (hfs : w.fs = fs)
    (h : ∀ n b, d.Shows w n b → d.nameAt w (whName n) b) :
    LayersCovered Ordinary whName (d.namesAt (World.picking fs fun dn => isWhName dn.name)) := by
  refine layersCovered_of_first 0 (namesAt_eq_nil hdir) (fun b => ?_) fun n b hs => ?_
  · obtain ⟨l, l', heq, hl, hl'⟩ := namesAt_picking (d := d) fs isWhName b
    refine ⟨l, l', heq, fun n hn ha => ?_, fun n hn _ hmem => ?_⟩
    · have hwh := hl n hn
      rw [ha.2.2] at hwh
      cases hwh
    · have hwh := hl' _ hmem
      rw [isWhName_of_mem hn] at hwh
      cases hwh
  · rw [showsAt_namesAt, shows_congr (w := w) hfs.symm] at hs
    rw [mem_namesAt (whName_ne (by decide)) (whName_ne (by decide)), nameAt_congr (w := w) hfs.symm]
    exact h n b hs

/-- Whiteouts come last: the test accepts nothing that is shown. -/
theorem not_layersCovered_whLast {fs : Nat → LowerFs} (hfs : w.fs = fs) {n : Name} {b : Int}
    (hs : d.Shows w n b) :
    ¬ LayersCovered Ordinary whName (d.namesAt (World.picking fs fun dn => !isWhName dn.name)) := by
  refine not_layersCovered_of_last (fun b => ?_)
    (showsAt_namesAt.mpr ((shows_congr (w := w) hfs.symm).mpr hs))
  obtain ⟨l, l', heq, hl, hl'⟩ := namesAt_picking (d := d) fs (fun n => !isWhName n) b
  refine ⟨l, l', heq, fun n hn ha => ?_, fun n hn _ hmem => ?_⟩
  · have hwh := hl' n hn
    rw [ha.2.2] at hwh
    cases hwh
  · have hwh := hl _ hmem
    rw [isWhName_of_mem hn] at hwh
    cases hwh

section Mounted

variable {m : Mount} {p : Path} {h : HDentry}

theorem testEmptyIn_ok (hdir : (m.di p).IsDir) {whlist : Nhash Wh} (hok : testEmptyIn hash p m w = .ok whlist) :
    LayersCovered Ordinary whName ((m.di p).namesAt w) ∧ ∀ wh, wh ∈ whlist.all ↔
      wh.str ≠ [] ∧ First (fun b => whName wh.str ∈ (m.di p).namesAt w b) wh.bindex :=
  (testEmpty_spec (m := { m with w }) hdir (Prod.ext hok rfl)).1 whlist rfl

theorem testEmptyIn_of_quiet (hdir : (m.di p).IsDir) (hq : w.Quiet)
    (hcov : LayersCovered Ordinary whName ((m.di p).namesAt w)) :
    ∃ whlist, testEmptyIn hash p m w = .ok whlist :=
  (testEmpty_spec (m := { m with w }) hdir rfl).2 hq hcov

/-- A directory that shows nothing is emptied by deleting the whiteouts of the list, unless one of them is
a directory. -/
theorem emptied_of_not_shows (hdir : (m.di p).IsDir) (htop : (m.di p).hDptr = some h)
    (htail : (m.di p).bstart ≤ (m.di p).dbtaildir) (hno : ∀ n b, ¬ (m.di p).Shows m.w n b)
    (hfile : ∀ n i, m.w.node h.root (h.path ++ [whName n]) = some i → i.isDir = false)
    (hfs : w.fs = m.w.fs) {whlist : Nhash Wh} (hok : testEmptyIn hash p m w = .ok whlist) {m' : Mount}
    {h' : HDentry} (hq : m'.w.Quiet)
    (hsame : ∀ n, m'.w.node h'.root (h'.path ++ [n]) = m.w.node h.root (h.path ++ [n])) :
    ∃ m'', delWhChildren whlist h' (m.di p).bstart m' = (.ok (), m'') ∧
      (∀ n, m''.w.node h'.root (h'.path ++ [n]) = none) ∧
      (h'.path ≠ [] → (m'.w.fs h'.root).isDir h'.path → (vfsubRmdir h' m'').1 = .ok ()) := by
  obtain ⟨-, hall⟩ := testEmptyIn_ok hdir hok
  have htopAt : ∀ n, (m.di p).nameAt m.w n (m.di p).bstart ↔ (m.w.node h.root (h.path ++ [n])).isSome := by
    intro n
    constructor
    · rintro ⟨-, -, hd, hhd, hn⟩
      rw [Dinfo.hDptr, hhd] at htop
      cases htop
      exact hn
    · exact fun hn => ⟨le_rfl, htail, h, htop, hn⟩
  have habove : ∀ n, ∀ c < (m.di p).bstart, ¬ (m.di p).nameAt m.w n c := fun n c hc hat => by
    have hle := hat.1
    omega
  have hat : ∀ n b, whName n ∈ (m.di p).namesAt w b ↔ (m.di p).nameAt m.w (whName n) b := by
    intro n b
    rw [mem_namesAt (whName_ne (by decide)) (whName_ne (by decide)), nameAt_congr hfs]
  -- everything in the directory is on the list
  have hlisted : ∀ n, (m.w.node h.root (h.path ++ [n])).isSome →
      ∃ wh ∈ whlist.all.filter fun wh => wh.bindex = (m.di p).bstart, n = whName wh.str := by
    intro n hn
    obtain ⟨hne, hdot, hdotdot, -⟩ := (m.w.fs h.root).validName_of_node hn
    cases hwh : isWhName n with
    | false =>
      refine absurd ?_ (hno n (m.di p).bstart)
      exact ⟨⟨hdot, hdotdot, hwh⟩, (htopAt n).mpr hn, fun c hc => ⟨habove n c hc, habove (whName n) c hc⟩⟩
    | true =>
      obtain ⟨k, hk, rfl⟩ := isWhName_iff.mp hwh
      refine ⟨⟨(m.di p).bstart, k⟩, List.mem_filter.mpr ⟨(hall _).mpr ⟨hk, ?_, fun c hc => ?_⟩, by simp⟩, rfl⟩
      · exact (hat k _).mpr ((htopAt _).mpr hn)
      · exact fun hm => habove _ c hc ((hat k c).mp hm)
  have hin : ∀ wh ∈ whlist.all.filter fun wh => wh.bindex = (m.di p).bstart,
      (m.w.node h.root (h.path ++ [whName wh.str])).isSome := by
    intro wh hwh
    obtain ⟨hmem, hb⟩ := List.mem_filter.mp hwh
    rw [decide_eq_true_eq] at hb
    exact (htopAt _).mp (hb ▸ (hat _ _).mp ((hall wh).mp hmem).2.1)
  have hwp : wp (delWhChildren whlist h' (m.di p).bstart) (fun _ m'' => m''.w.Quiet ∧
      m''.w.node h'.root h'.path = m'.w.node h'.root h'.path ∧
      ∀ n, m''.w.node h'.root (h'.path ++ [n]) = none) (fun _ _ => False) m' := by
    refine wp_bind.mpr (wp_kmalloc_of_quiet hq ?_)
    refine wp.mono (wp_delWhLoop_of_quiet hq.next ?_ ?_) ?_ fun _ _ he => he
    · intro wh hwh
      exact ((m.w.fs h.root).validName_of_node (hin wh hwh)).2.2.2
    · intro wh _ i hi
      exact hfile wh.str i ((hsame _).symm.trans hi)
    · rintro _ m'' ⟨hq'', hself, hnode⟩
      refine ⟨hq'', hself, fun n => ?_⟩
      rw [hnode n]
      split
      · rfl
      · rename_i hnot
        by_contra hsome
        refine hnot (hlisted n ?_)
        rw [← hsame n]
        exact Option.isSome_iff_ne_none.mpr hsome
  obtain ⟨_, m'', hrun, hq'', hself, hempty⟩ := hwp.total
  refine ⟨m'', hrun, hempty, fun hp hd => ?_⟩
  have hd' : (m''.w.fs h'.root).isDir h'.path := by
    obtain ⟨i, hi, hmode⟩ := Ents.isDir_iff.mp hd
    exact Ents.isDir_iff.mpr ⟨i, hself.trans hi, hmode⟩
  have hrm : wp (vfsubRmdir h') (fun _ _ => True) (fun _ _ => False) m'' :=
    wp_vfsubRmdir_of_quiet hq'' hd' hp hempty fun _ => trivial
  obtain ⟨_, t, ht, -⟩ := hrm.total
  rw [ht]

/-- The test agrees with the listing exactly if some branch shows a name that has no whiteout beside it,
or nothing is shown and no whiteout on the first branch is a directory. -/
theorem emptyAgrees_iff (hdir : (m.di p).IsDir) (htop : (m.di p).hDptr = some h)
    (htail : (m.di p).bstart ≤ (m.di p).dbtaildir) :
    EmptyAgrees hash sb m p h ↔
      (∃ n b, (m.di p).Shows m.w n b ∧ ¬ (m.di p).nameAt m.w (whName n) b) ∨
        ((∀ n b, ¬ (m.di p).Shows m.w n b) ∧
          ∀ n i, m.w.node h.root (h.path ++ [whName n]) = some i → i.isDir = false) := by
  constructor
  · intro hagrees
    by_contra hnot
    simp only [not_or, not_exists, not_and, not_not] at hnot
    obtain ⟨hbeside, hdirs⟩ := hnot
    by_cases hsome : ∃ n b, (m.di p).Shows m.w n b
    · -- the order decides
      obtain ⟨n, b, hs⟩ := hsome
      have hfirst : ∃ whlist, testEmptyIn hash p m (.picking m.w.fs fun dn => isWhName dn.name) = .ok whlist :=
        testEmptyIn_of_quiet hdir (World.picking_quiet m.w.fs _) (layersCovered_whFirst hdir rfl hbeside)
      obtain ⟨whlist, hok⟩ := (hagrees.order (.picking m.w.fs fun dn => isWhName dn.name)
        (.picking m.w.fs fun dn => !isWhName dn.name) rfl rfl (World.picking_quiet m.w.fs _)
        (World.picking_quiet m.w.fs _)).mp hfirst
      exact not_layersCovered_whLast rfl hs (testEmptyIn_ok hdir hok).1
    · -- a whiteout cannot be unlinked
      have hno : ∀ n b, ¬ (m.di p).Shows m.w n b := fun n b hs => hsome ⟨n, b, hs⟩
      have hdirs' := hdirs hno
      simp only [not_forall] at hdirs'
      obtain ⟨n, i, hi, hid⟩ := hdirs'
      have hid : i.isDir = true := by simpa using hid
      have hfs : (World.picking m.w.fs fun _ => true).fs = m.w.fs := rfl
      have hcov : LayersCovered Ordinary whName ((m.di p).namesAt (World.picking m.w.fs fun _ => true)) :=
        layersCovered_of_not_shown 0 (namesAt_eq_nil hdir) fun x b hs =>
          hno x b ((shows_congr hfs).mp (showsAt_namesAt.mp hs))
      obtain ⟨whlist, hok⟩ : ∃ whlist, testEmptyIn hash p m (.picking m.w.fs fun _ => true) = .ok whlist :=
        testEmptyIn_of_quiet hdir (World.picking_quiet m.w.fs _) hcov
      obtain ⟨m'', hrun, hempty, -⟩ := hagrees.emptied (.picking m.w.fs fun _ => true) rfl whlist hok
        { m with w := World.picking m.w.fs fun _ => true } h (World.picking_quiet m.w.fs _) fun _ => rfl
      have hi' : (World.picking m.w.fs fun _ => true).next.node h.root (h.path ++ [whName n]) = some i := hi
      have hstay : wp (delWhChildren whlist h (m.di p).bstart)
          (fun _ m' => m'.w.node h.root (h.path ++ [whName n]) = some i) (fun _ _ => True)
          { m with w := World.picking m.w.fs fun _ => true } := by
        refine wp_bind.mpr (wp_kmalloc_of_quiet (World.picking_quiet m.w.fs _) ?_)
        exact wp.mono (wp_delWhLoop_dir hi' hid) (fun _ _ hq => hq) fun _ _ _ => trivial
      have hgone := hstay.ok hrun
      rw [hempty (whName n)] at hgone
      cases hgone
  · rintro (⟨n, b, hs, hbeside⟩ | ⟨hno, hfile⟩)
    · -- the test fails in every order
      have hfails : ∀ w, w.fs = m.w.fs → ∀ whlist, testEmptyIn hash p m w ≠ .ok whlist := by
        intro w hfs whlist hok
        have hat := (testEmptyIn_ok hdir hok).1.beside (showsAt_namesAt.mpr ((shows_congr hfs).mpr hs))
        rw [mem_namesAt (whName_ne (by decide)) (whName_ne (by decide)), nameAt_congr hfs] at hat
        exact hbeside hat
      refine ⟨fun w hfs whlist hok => absurd hok (hfails w hfs whlist), fun w hfs _ vd hvd hdots => ?_,
        fun w w' hfs hfs' _ _ => ⟨?_, ?_⟩, fun w hfs whlist hok => absurd hok (hfails w hfs whlist)⟩
      · exact absurd hs ((hvd.onlyDots_iff hdir).mp hdots n b)
      · rintro ⟨whlist, hok⟩
        exact absurd hok (hfails w hfs whlist)
      · rintro ⟨whlist, hok⟩
        exact absurd hok (hfails w' hfs' whlist)
    · have haccepts : ∀ w, w.fs = m.w.fs → w.Quiet → ∃ whlist, testEmptyIn hash p m w = .ok whlist := by
        intro w hfs hq
        apply testEmptyIn_of_quiet hdir hq
        apply layersCovered_of_not_shown 0 (namesAt_eq_nil hdir)
        intro x b hs
        exact hno x b ((shows_congr hfs).mp (showsAt_namesAt.mp hs))
      exact ⟨fun w hfs whlist hok vd hvd => (hvd.onlyDots_iff hdir).mpr hno,
        fun w hfs hq vd _ _ => haccepts w hfs hq,
        fun w w' hfs hfs' hq hq' => ⟨fun _ => haccepts w' hfs' hq', fun _ => haccepts w hfs hq⟩,
        fun w hfs whlist hok m' h' hq hsame => emptied_of_not_shows hdir htop htail hno hfile hfs hok hq hsame⟩

end Mounted

-- ---------------------------------------------------------------------------
-- A name beside its whiteout
-- ---------------------------------------------------------------------------

/-- The directory `d` on two branches. -/
def dPair (up low : LowerFs) : Dinfo where
  bstart := 0
  bend := 1
  bwh := -1
  bdiropq := -1
  hdentry := fun b =>
    if b = 0 then some ⟨1, [[100]], up.node [[100]]⟩
    else if b = 1 then some ⟨2, [[100]], low.node [[100]]⟩ else none

/-- A mount of two branches, at work on `d`. -/
def dMount (up low : LowerFs) : Mount where
  w := .ofFs fun root => if root = 1 then up else low
  di := fun _ => dPair up low
  hi := fun _ _ => none
  ino := fun _ => 0
  cnt := 0
  fails := 0

/-- The permissions of the two branches. -/
def dSb : SuperBlock := .ofBranches [.plain 1 .RW, .plain 2 .RO]

/-- `d` with the whiteout of `a`. -/
def dWhited : LowerFs := .ofList [([[100]], .dir), ([[100], whName [97]], .reg)]

/-- `d` with `a`. -/
def dNamed : LowerFs := .ofList [([[100]], .dir), ([[100], [97]], .reg)]

/-- `d` with `a` and its whiteout. -/
def dBoth : LowerFs := .ofList [([[100]], .dir), ([[100], [97]], .reg), ([[100], whName [97]], .reg)]

/-- `d` without files. -/
def dBare : LowerFs := .ofList [([[100]], .dir)]

theorem dPair_isDir {up low : LowerFs} (hup : up.isDir [[100]]) (hlow : low.isDir [[100]]) :
    (dPair up low).IsDir where
  bstart := le_rfl
  slots b h hb hle := by
    have h0 := (Dinfo.range_of_hDptrI hb).2
    have hle : b ≤ 1 := hle
    have h0 : 0 ≤ b := h0
    obtain rfl | rfl : b = 0 ∨ b = 1 := by omega
    · cases hb
      exact hup
    · cases hb
      exact hlow

/-- `a` is whited out: the directory is empty, and it is emptied. -/
theorem whited_emptyAgrees :
    EmptyAgrees List.length dSb (dMount dWhited dNamed) [[100]] ⟨1, [[100]], dWhited.node [[100]]⟩ := by
  have hup : ∀ n, (dWhited.node ([[100]] ++ [n])).isSome → n = whName [97] := by
    intro n hn
    have hall : dWhited.ents.children [[100]] = [whName [97]] := by decide
    rw [← List.mem_singleton, ← hall]
    exact Ents.mem_children.mpr hn
  have hlow : ∀ n, (dNamed.node ([[100]] ++ [n])).isSome → n = [97] := by
    intro n hn
    have hall : dNamed.ents.children [[100]] = [[97]] := by decide
    rw [← List.mem_singleton, ← hall]
    exact Ents.mem_children.mpr hn
  refine (emptyAgrees_iff (dPair_isDir (by decide) (by decide)) rfl (by decide)).mpr (.inr ⟨?_, ?_⟩)
  · rintro n b ⟨hord, ⟨h0, h1, h, hh, hn⟩, habove⟩
    have h0 : 0 ≤ b := h0
    have h1 : b ≤ 1 := h1
    obtain rfl | rfl : b = 0 ∨ b = 1 := by omega
    · cases hh
      have hwh := hord.2.2
      rw [hup n hn] at hwh
      cases hwh
    · cases hh
      refine (habove 0 (by decide)).2 ⟨by decide, by decide, _, rfl, ?_⟩
      rw [hlow n hn]
      decide
  · intro n i hi
    have hn := hup (whName n) (Option.isSome_iff_exists.mpr ⟨i, hi⟩)
    rw [hn] at hi
    have hreg : (dWhited.node [[100], whName [97]]).any HInode.isDir = false := by decide
    have hi : dWhited.node [[100], whName [97]] = some i := hi
    rw [hi] at hreg
    exact hreg

/-- The test of the directory that has both, when the entries that `first` picks are delivered first. -/
def bothTest (first : Dirent → Bool) : Except Errno (Nhash Wh) :=
  testEmptyIn List.length [[100]] (dMount dBoth dBare) (.picking (dMount dBoth dBare).w.fs first)

/-- `a` stands beside its whiteout: whether the directory is empty depends on which of them comes first. -/
theorem both_not_emptyAgrees :
    ¬ EmptyAgrees List.length dSb (dMount dBoth dBare) [[100]] ⟨1, [[100]], dBoth.node [[100]]⟩ := by
  intro hagrees
  have horder : (∃ whlist, bothTest (fun dn => isWhName dn.name) = .ok whlist) ↔
      ∃ whlist, bothTest (fun dn => !isWhName dn.name) = .ok whlist :=
    hagrees.order (.picking _ _) (.picking _ _) rfl rfl (World.picking_quiet _ _) (World.picking_quiet _ _)
  have hfirst : (bothTest fun dn => isWhName dn.name).isOk = true := by decide +kernel
  have hlast : (bothTest fun dn => !isWhName dn.name).isOk = false := by decide +kernel
  rcases hx : bothTest (fun dn => isWhName dn.name) with e | whlist
  · rw [hx] at hfirst
    cases hfirst
  · obtain ⟨whlist', hx'⟩ := horder.mp ⟨whlist, hx⟩
    rw [hx'] at hlast
    cases hlast

end Aufs
