-- SUMMARY: What read_vdir lists: the merge of the unread parts of the hidden directories.
import Aufs.Vdir
import Aufs.Lib.Overlay

/-!
# Listings

The invariant of `read_vdir` says what the hashes and the blocks hold after any
prefix of the entries of any branches. From it follows what a rebuilt `vdir`
lists, for every state of the hidden files.
-/

namespace Aufs

open Overlay

-- ---------------------------------------------------------------------------
-- Appending entries
-- ---------------------------------------------------------------------------

namespace Vdir

@[simp] theorem names_reinit (vd : Vdir) : vd.reinit.names = [] := rfl

theorem names_push (vd : Vdir) (de : De) (h : vd.deblk ≠ []) :
    (vd.push de).names = vd.names ++ [de.str] := by
  have hlast : vd.deblk = vd.deblk.dropLast ++ [vd.deblk.getLast?.getD []] := by
    rw [List.getLast?_eq_some_getLast h, Option.getD_some, List.dropLast_append_getLast]
  rw [names, names, entries, entries]
  conv_rhs => rw [hlast]
  simp [push]

theorem appendDeblk_ok {vd vd' : Vdir} {w w' : World} (h : vd.appendDeblk w = (.ok vd', w')) :
    vd'.names = vd.names ∧ vd'.deblk ≠ [] ∧ w' = w.next := by
  unfold appendDeblk World.ask at h
  split at h
  · simp at h
  · rename_i hw
    simp only [Prod.mk.injEq, Except.ok.injEq] at h hw
    obtain ⟨rfl, rfl⟩ := h
    exact ⟨by simp [names, entries], by simp, hw.2.symm⟩

theorem alloc_ok {vd : Vdir} {w w' : World} (h : alloc w = (.ok vd, w')) :
    vd.names = [] ∧ vd.deblk ≠ [] ∧ w' = w.next.next := by
  unfold alloc at h
  split at h
  · simp at h
  · rename_i hw
    have hw' := congrArg Prod.snd hw
    simp only [World.ask] at hw'
    obtain ⟨h1, h2, h3⟩ := appendDeblk_ok h
    exact ⟨h1, h2, by rw [h3, ← hw']⟩

end Vdir

/-- The outside that a listing reads stays as it is: a call uses up ticks, and only the
inode number table changes. -/
structure World.SameFs (w w' : World) : Prop where
  fs : w'.fs = w.fs
  order : w'.order = w.order
  jiffies : w'.jiffies = w.jiffies

namespace World.SameFs

variable {w w' w'' : World}

theorem refl (w : World) : w.SameFs w := ⟨rfl, rfl, rfl⟩

theorem trans (h : w.SameFs w') (h' : w'.SameFs w'') : w.SameFs w'' :=
  ⟨h'.fs.trans h.fs, h'.order.trans h.order, h'.jiffies.trans h.jiffies⟩

theorem ask (w : World) : w.SameFs w.ask.2 := ⟨rfl, rfl, rfl⟩

theorem dirents (h : w.SameFs w') (root : Nat) (p : Path) :
    w'.dirents root p = w.dirents root p := by
  simp only [World.dirents, h.fs, h.order]

end World.SameFs

theorem xinoRead_sameFs (sb : SuperBlock) (w : World) (b : Int) (i : Nat) :
    w.SameFs (xinoRead sb w b i).2 := by
  unfold xinoRead World.ask
  repeat' split
  all_goals first
    | exact .refl w
    | (rename_i hw; obtain ⟨-, rfl⟩ := Prod.mk.inj hw; exact .ask w)

theorem xinoWrite_sameFs (sb : SuperBlock) (w : World) (b : Int) (i j : Nat) :
    w.SameFs (xinoWrite sb w b i j).2 := by
  unfold xinoWrite World.ask
  repeat' split
  all_goals first
    | exact .refl w
    | (rename_i hw; obtain ⟨-, rfl⟩ := Prod.mk.inj hw; exact ⟨rfl, rfl, rfl⟩)

theorem xinoNewIno_sameFs (w : World) : w.SameFs (xinoNewIno w).2 := by
  unfold xinoNewIno
  dsimp only
  split <;> exact ⟨rfl, rfl, rfl⟩

theorem fillIno_sameFs (sb : SuperBlock) (w : World) (b : Int) (i : Nat) :
    w.SameFs (fillIno sb w b i).2 := by
  have hread := xinoRead_sameFs sb w b i
  unfold fillIno
  split
  · rename_i hr
    rwa [hr] at hread
  · rename_i ino w1 hr
    rw [hr] at hread
    have hnew : w.SameFs (if ino = 0 then xinoNewIno w1 else (ino, w1)).2 := by
      split
      · exact hread.trans (xinoNewIno_sameFs w1)
      · exact hread
    have hwrite := xinoWrite_sameFs sb (if ino = 0 then xinoNewIno w1 else (ino, w1)).2 b i
      (if ino = 0 then xinoNewIno w1 else (ino, w1)).1
    dsimp only
    split
    · rename_i hw
      rw [hw] at hwrite
      exact hnew.trans hwrite
    · rename_i hw
      rw [hw] at hwrite
      exact hnew.trans hwrite

variable {hash : Name → Nat} {sb : SuperBlock}

/-- An entry that is appended is the last one, and its name is known from then on. -/
theorem appendDe_ok {vd vd' : Vdir} {dl dl' : Nhash Name} {de : De} {w w' : World}
    (h : appendDe hash vd dl de w = (.ok (), vd', dl', w')) (hne : vd.deblk ≠ []) :
    vd'.names = vd.names ++ [de.str] ∧ vd'.deblk ≠ [] ∧ dl' = dl.add hash de.str de.str ∧
      w.SameFs w' := by
  unfold appendDe at h
  -- the block with room for the entry
  have hroom : ∀ {vd1 w1}, (if calcSize de.str.length > deblkSize - vd.lastP then vd.appendDeblk w
      else (.ok vd, w)) = (.ok vd1, w1) → vd1.names = vd.names ∧ vd1.deblk ≠ [] ∧ w.SameFs w1 := by
    intro vd1 w1 h1
    split at h1
    · obtain ⟨h2, h3, rfl⟩ := Vdir.appendDeblk_ok h1
      exact ⟨h2, h3, .ask w⟩
    · simp only [Prod.mk.injEq, Except.ok.injEq] at h1
      obtain ⟨rfl, rfl⟩ := h1
      exact ⟨rfl, hne, .refl w⟩
  split at h
  · simp at h
  · rename_i vd1 w1 h1
    obtain ⟨hn1, hne1, hs1⟩ := hroom h1
    have hpush := Vdir.names_push vd1 de hne1
    split at h
    · simp at h
    · rename_i w2 hw2
      obtain ⟨-, rfl⟩ := Prod.mk.inj hw2
      dsimp only at h
      split at h
      · simp only [Prod.mk.injEq, true_and] at h
        obtain ⟨rfl, rfl, rfl⟩ := h
        exact ⟨by rw [hpush, hn1], by simp [Vdir.push], rfl, hs1.trans (.ask w1)⟩
      · split at h
        · simp at h
        · rename_i vd3 w3 h3
          obtain ⟨hn3, hne3, rfl⟩ := Vdir.appendDeblk_ok h3
          simp only [Prod.mk.injEq, true_and] at h
          obtain ⟨rfl, rfl, rfl⟩ := h
          exact ⟨by rw [hn3, hpush, hn1], hne3, rfl, hs1.trans ⟨rfl, rfl, rfl⟩⟩

-- ---------------------------------------------------------------------------
-- One entry
-- ---------------------------------------------------------------------------

/-- What `fillvdir` does with an entry it accepts. -/
inductive FillCase (hash : Name → Nat) (arg : FillArg) (n : Name) (arg' : FillArg) : Prop where
  | hidden (hw : isWhName n = false) (hh : arg.hidden hash n = true)
      (hn : arg'.vdir.names = arg.vdir.names) (hd : arg'.delist = arg.delist)
      (hwl : arg'.whlist = arg.whlist)
  | listed (hw : isWhName n = false) (hh : arg.hidden hash n = false)
      (hn : arg'.vdir.names = arg.vdir.names ++ [n])
      (hd : arg'.delist = Function.update arg.delist arg.bindex ((arg.delist arg.bindex).add hash n n))
      (hwl : arg'.whlist = arg.whlist)
  | whiteout (hw : isWhName n = true) (hn : arg'.vdir.names = arg.vdir.names)
      (hd : arg'.delist = arg.delist)
      (hwl : ∀ b m, (arg'.whlist b).known hash Wh.str m =
        ((arg.whlist b).known hash Wh.str m || decide (b = arg.bindex ∧ m = n.drop whLen)))

theorem fillvdir_ok {arg arg' : FillArg} {d : Dirent} {w w' : World}
    (h : fillvdir hash sb arg d w = (arg', w')) (hok : arg'.err = none) (hne : arg.vdir.deblk ≠ []) :
    FillCase hash arg d.name arg' ∧ arg'.bindex = arg.bindex ∧ arg'.called = arg.called + 1 ∧
      arg'.vdir.deblk ≠ [] ∧ w.SameFs w' := by
  unfold fillvdir at h
  dsimp only at h
  split at h
  · rename_i hw
    have hw : isWhName d.name = false := by simpa using hw
    split at h
    · rename_i hh
      simp only [if_true, Prod.mk.injEq] at h
      obtain ⟨rfl, rfl⟩ := h
      exact ⟨.hidden hw hh rfl rfl rfl, rfl, rfl, hne, .refl w⟩
    · rename_i hh
      have hh : arg.hidden hash d.name = false := by simpa [FillArg.hidden] using hh
      have hino := fillIno_sameFs sb w arg.bindex d.ino
      split at h
      · obtain ⟨rfl, -⟩ := Prod.mk.inj h
        simp at hok
      · rename_i ino w1 hi
        rw [hi] at hino
        obtain ⟨res, vd, dl, w2, ha⟩ : ∃ res vd dl w2, appendDe hash arg.vdir (arg.delist arg.bindex)
          ⟨ino, d.type, d.name⟩ w1 = (res, vd, dl, w2) := ⟨_, _, _, _, rfl⟩
        rw [ha] at h
        obtain ⟨h1, h2⟩ := Prod.mk.inj h
        subst h2
        cases res with
        | error e =>
            subst h1
            simp at hok
        | ok u =>
            obtain ⟨h3, h4, h5, h6⟩ := appendDe_ok ha hne
            simp only [if_true] at h1
            subst h1
            exact ⟨.listed hw hh h3 (by rw [h5]) rfl, rfl, rfl, h4, hino.trans h6⟩
  · rename_i hw
    have hw : isWhName d.name = true := by simpa using hw
    split at h
    · rename_i hk
      simp only [Bool.and_eq_true, decide_eq_true_eq] at hk
      simp only [if_true, Prod.mk.injEq] at h
      obtain ⟨rfl, rfl⟩ := h
      refine ⟨.whiteout hw rfl rfl fun b m => ?_, rfl, rfl, hne, .refl w⟩
      by_cases hb : b = arg.bindex ∧ m = d.name.drop whLen
      · obtain ⟨rfl, rfl⟩ := hb
        simp [hk.2]
      · simp [hb]
    · split at h
      · obtain ⟨rfl, -⟩ := Prod.mk.inj h
        simp at hok
      · rename_i w1 hw1
        obtain ⟨-, rfl⟩ := Prod.mk.inj hw1
        simp only [if_true, Prod.mk.injEq] at h
        obtain ⟨rfl, rfl⟩ := h
        refine ⟨.whiteout hw rfl rfl fun b m => ?_, rfl, rfl, hne, .ask w⟩
        by_cases hb : b = arg.bindex
        · subst hb
          have := Nhash.known_add hash Wh.str (arg.whlist arg.bindex)
            ⟨arg.bindex, d.name.drop whLen⟩ m
          simp only [Function.update_self, this]
          rw [Bool.or_comm]
          simp [eq_comm]
        · simp [hb]

-- ---------------------------------------------------------------------------
-- The invariant of the listing
-- ---------------------------------------------------------------------------

/-- The branch `b` shows `n`, when the branches have delivered the names `seen`. -/
def ShownIn (seen : Int → List Name) (n : Name) (b : Int) : Prop :=
  isWhName n = false ∧ Shown (fun c => n ∈ seen c) (fun c => whName n ∈ seen c) b

/-- What the hashes and the blocks hold when the names `seen` have been delivered, the
last of them by `arg.bindex`. -/
structure FillInv (hash : Name → Nat) (seen : Int → List Name) (arg : FillArg) : Prop where
  named : ∀ b, [] ∉ seen b
  range : ∀ b, b < 0 ∨ arg.bindex < b → seen b = []
  listed : ∀ b n, (arg.delist b).known hash id n = true ↔ ShownIn seen n b
  whited : ∀ b n, (arg.whlist b).known hash Wh.str n = true ↔ n ≠ [] ∧ whName n ∈ seen b
  names : ∀ n, n ∈ arg.vdir.names ↔ ∃ b, ShownIn seen n b
  nodup : arg.vdir.names.Nodup

variable {seen : Int → List Name} {arg arg' : FillArg}

theorem isWhName_whName {n : Name} : isWhName (whName n) = true ↔ n ≠ [] := by
  rw [isWhName, hasWhPfx_whName, Bool.and_true, decide_eq_true_eq, whName, List.length_append, ← whLen,
    Nat.lt_add_right_iff_pos, List.length_pos_iff]

theorem isWhName_iff {n : Name} : isWhName n = true ↔ ∃ m, m ≠ [] ∧ n = whName m := by
  constructor
  · intro h
    simp only [isWhName, Bool.and_eq_true] at h
    obtain ⟨m, rfl⟩ := hasWhPfx_iff.mp h.2
    exact ⟨m, isWhName_whName.mp (by simp [isWhName, h.1]), rfl⟩
  · rintro ⟨m, hm, rfl⟩
    exact isWhName_whName.mpr hm

theorem drop_whName (n : Name) : (whName n).drop whLen = n := by
  simp [whName, whLen]

/-- The search of `fillvdir` in the hashes of the upper branches finds a name exactly if
one of them has delivered it or its whiteout: the topmost that has is known. -/
theorem FillInv.hidden_iff (h : FillInv hash seen arg) {n : Name} (hw : isWhName n = false)
    (hn : n ≠ []) :
    arg.hidden hash n = true ↔ ∃ c < arg.bindex, n ∈ seen c ∨ whName n ∈ seen c := by
  simp only [FillArg.hidden, List.any_eq_true, mem_bindexes, Bool.or_eq_true, h.listed, h.whited]
  constructor
  · rintro ⟨c, hc, hk | hk⟩
    · exact ⟨c, by omega, .inl hk.2.1⟩
    · exact ⟨c, by omega, .inr hk.2⟩
  · rintro ⟨c, hc, hk⟩
    obtain ⟨e, he⟩ := exists_first (p := fun c => n ∈ seen c ∨ whName n ∈ seen c) 0
      (fun c hc => by simp [h.range c (.inl hc)]) hk
    have hec := he.le hk
    have he0 : 0 ≤ e := by
      by_contra hlt
      simpa [h.range e (.inl (by omega))] using he.1
    refine ⟨e, ⟨he0, by omega⟩, ?_⟩
    rcases he.1 with hn' | hwn
    · exact .inl ⟨hw, shown_iff.mpr ⟨he, hn'⟩⟩
    · exact .inr ⟨hn, hwn⟩

theorem mem_seen_append {b c : Int} {m n : Name} :
    m ∈ Function.update seen b (seen b ++ [n]) c ↔ m ∈ seen c ∨ (c = b ∧ m = n) := by
  by_cases h : c = b
  · simp [h]
  · simp [h]

/-- One more name changes what is seen of that name only, and only if nothing above
hides it. -/
theorem FillInv.shownIn_append (h : FillInv hash seen arg) {n : Name} (m : Name) (b : Int) :
    ShownIn (Function.update seen arg.bindex (seen arg.bindex ++ [n])) m b ↔
      ShownIn seen m b ∨ (m = n ∧ b = arg.bindex ∧ isWhName n = false ∧
        ∀ c < arg.bindex, n ∉ seen c ∧ whName n ∉ seen c) := by
  simp only [ShownIn, Shown, mem_seen_append]
  rcases lt_trichotomy b arg.bindex with hb | rfl | hb
  · have hne : ∀ c < b, c ≠ arg.bindex := fun c hc => by omega
    constructor
    · rintro ⟨hw, h1, h2⟩
      refine .inl ⟨hw, h1.resolve_right fun hx => by omega, fun c hc => ?_⟩
      have := h2 c hc
      simp only [hne c hc, false_and, or_false] at this
      exact this
    · rintro (⟨hw, h1, h2⟩ | ⟨-, rfl, -⟩)
      · refine ⟨hw, .inl h1, fun c hc => ?_⟩
        simp only [hne c hc, false_and, or_false]
        exact h2 c hc
      · omega
  · have hne : ∀ c < arg.bindex, c ≠ arg.bindex := fun c hc => by omega
    have hup : (∀ c < arg.bindex, ¬(m ∈ seen c ∨ c = arg.bindex ∧ m = n) ∧
        ¬(whName m ∈ seen c ∨ c = arg.bindex ∧ whName m = n)) ↔
        ∀ c < arg.bindex, m ∉ seen c ∧ whName m ∉ seen c := by
      refine forall_congr' fun c => forall_congr' fun hc => ?_
      simp only [hne c hc, false_and, or_false]
    rw [hup]
    constructor
    · rintro ⟨hw, h1 | ⟨-, rfl⟩, h2⟩
      · exact .inl ⟨hw, h1, h2⟩
      · exact .inr ⟨rfl, rfl, hw, h2⟩
    · rintro (⟨hw, h1, h2⟩ | ⟨rfl, -, hw, h2⟩)
      · exact ⟨hw, .inl h1, h2⟩
      · exact ⟨hw, .inr ⟨rfl, rfl⟩, h2⟩
  · have hempty := h.range b (.inr hb)
    simp only [hempty, List.not_mem_nil, false_or, false_and, and_false]
    constructor
    · rintro ⟨-, h1, -⟩
      omega
    · rintro ⟨-, rfl, -⟩
      omega

/-- One accepted entry keeps the invariant. -/
theorem FillInv.step (h : FillInv hash seen arg) {n : Name} (hc : FillCase hash arg n arg')
    (hb : arg'.bindex = arg.bindex) (hn : n ≠ []) (hnew : n ∉ seen arg.bindex)
    (h0 : 0 ≤ arg.bindex) :
    FillInv hash (Function.update seen arg.bindex (seen arg.bindex ++ [n])) arg' := by
  have hshown := h.shownIn_append (n := n)
  have hnamed : ∀ b, [] ∉ Function.update seen arg.bindex (seen arg.bindex ++ [n]) b := by
    intro b hm
    rcases mem_seen_append.mp hm with hm | ⟨-, hm⟩
    · exact h.named b hm
    · exact hn hm.symm
  have hrange : ∀ b, b < 0 ∨ arg'.bindex < b →
      Function.update seen arg.bindex (seen arg.bindex ++ [n]) b = [] := by
    intro b hr
    rw [hb] at hr
    rw [Function.update_of_ne (by omega)]
    exact h.range b hr
  cases hc with
  | hidden hw hh hn' hd hwl =>
      have hnot : ¬ ∀ c < arg.bindex, n ∉ seen c ∧ whName n ∉ seen c := by
        intro hall
        obtain ⟨c, hc, hm⟩ := (h.hidden_iff hw hn).mp hh
        exact (not_or.mpr (hall c hc)) hm
      have hsame : ∀ m b, ShownIn (Function.update seen arg.bindex (seen arg.bindex ++ [n])) m b ↔
          ShownIn seen m b := fun m b => by
        rw [hshown]
        exact or_iff_left fun hx => hnot hx.2.2.2
      refine ⟨hnamed, hrange, fun b m => ?_, fun b m => ?_, fun m => ?_, by rw [hn']; exact h.nodup⟩
      · rw [hd, h.listed, hsame]
      · have hne : whName m = n → m = [] := fun he => by
          by_contra hm
          rw [← he, isWhName_whName.mpr hm] at hw
          simp at hw
        rw [hwl, h.whited, mem_seen_append]
        refine and_congr_right fun hm => (or_iff_left fun hx => hm (hne hx.2)).symm
      · rw [hn', h.names]
        exact exists_congr fun b => (hsame m b).symm
  | listed hw hh hn' hd hwl =>
      have hall : ∀ c < arg.bindex, n ∉ seen c ∧ whName n ∉ seen c := by
        intro c hc
        rw [← not_or]
        intro hx
        rw [(h.hidden_iff hw hn).mpr ⟨c, hc, hx⟩] at hh
        simp at hh
      have hfresh : n ∉ arg.vdir.names := by
        rw [h.names]
        rintro ⟨b, hb'⟩
        have hbn : n ∈ seen b := hb'.2.1
        by_cases hlt : b < arg.bindex
        · exact (hall b hlt).1 hbn
        · by_cases hgt : arg.bindex < b
          · rw [h.range b (.inr hgt)] at hbn
            simp at hbn
          · exact hnew ((show b = arg.bindex by omega) ▸ hbn)
      refine ⟨hnamed, hrange, fun b m => ?_, fun b m => ?_, fun m => ?_, ?_⟩
      · rw [hd, hshown]
        by_cases hbb : b = arg.bindex
        · subst hbb
          have hadd := Nhash.known_add hash id (arg.delist arg.bindex) n m
          simp only [id_eq] at hadd
          rw [Function.update_self, hadd, Bool.or_eq_true, decide_eq_true_eq, h.listed, or_comm]
          exact or_congr_right ⟨fun he => ⟨he.symm, rfl, hw, hall⟩, fun hx => hx.1.symm⟩
        · rw [Function.update_of_ne hbb, h.listed]
          exact (or_iff_left fun hx => hbb hx.2.1).symm
      · have hne : whName m = n → m = [] := fun he => by
          by_contra hm
          rw [← he, isWhName_whName.mpr hm] at hw
          simp at hw
        rw [hwl, h.whited, mem_seen_append]
        exact and_congr_right fun hm => (or_iff_left fun hx => hm (hne hx.2)).symm
      · rw [hn', List.mem_append, List.mem_singleton, h.names]
        simp only [hshown, exists_or]
        exact or_congr_right ⟨fun he => ⟨arg.bindex, he, rfl, hw, hall⟩, fun ⟨_, hx⟩ => hx.1⟩
      · rw [hn', List.nodup_append]
        refine ⟨h.nodup, List.nodup_singleton _, fun a ha c hc => ?_⟩
        rw [List.mem_singleton.mp hc]
        rintro rfl
        exact hfresh ha
  | whiteout hw hn' hd hwl =>
      obtain ⟨k, hk, rfl⟩ := isWhName_iff.mp hw
      have hsame : ∀ m b,
          ShownIn (Function.update seen arg.bindex (seen arg.bindex ++ [whName k])) m b ↔
            ShownIn seen m b := fun m b => by
        rw [hshown]
        refine or_iff_left fun hx => ?_
        rw [hx.2.2.1] at hw
        simp at hw
      refine ⟨hnamed, hrange, fun b m => ?_, fun b m => ?_, fun m => ?_, by rw [hn']; exact h.nodup⟩
      · rw [hd, h.listed, hsame]
      · rw [hwl, Bool.or_eq_true, decide_eq_true_eq, h.whited, mem_seen_append, drop_whName, whName_inj]
        constructor
        · rintro (⟨hm, hs⟩ | ⟨rfl, rfl⟩)
          · exact ⟨hm, .inl hs⟩
          · exact ⟨hk, .inr ⟨rfl, rfl⟩⟩
        · rintro ⟨hm, hs | hs⟩
          · exact .inl ⟨hm, hs⟩
          · exact .inr hs
      · rw [hn', h.names]
        exact exists_congr fun b => (hsame m b).symm

-- ---------------------------------------------------------------------------
-- One hidden directory
-- ---------------------------------------------------------------------------

theorem fillChunk_ok {ds : List Dirent} {pos pos' : Nat} {w w' : World}
    (h : fillChunk hash sb ds pos arg w = (pos', arg', w')) (hok : arg'.err = none)
    (hinv : FillInv hash seen arg) (hne : arg.vdir.deblk ≠ []) (h0 : 0 ≤ arg.bindex)
    (hnames : [] ∉ ds.map Dirent.name) (hnodup : (seen arg.bindex ++ ds.map Dirent.name).Nodup) :
    FillInv hash (Function.update seen arg.bindex (seen arg.bindex ++ ds.map Dirent.name)) arg' ∧
      pos' = pos + ds.length ∧ arg'.bindex = arg.bindex ∧ arg'.called = arg.called + ds.length ∧
      arg'.vdir.deblk ≠ [] ∧ w.SameFs w' := by
  induction ds generalizing seen arg pos w with
  | nil =>
      simp only [fillChunk, Prod.mk.injEq] at h
      obtain ⟨rfl, rfl, rfl⟩ := h
      exact ⟨by simpa using hinv, by simp, rfl, by simp, hne, .refl w⟩
  | cons d ds ih =>
      simp only [List.map_cons, List.mem_cons, not_or] at hnames
      obtain ⟨arg1, w1, h1⟩ : ∃ arg1 w1, fillvdir hash sb arg d w = (arg1, w1) := ⟨_, _, rfl⟩
      simp only [fillChunk, h1] at h
      split at h
      · rename_i hok1
        obtain ⟨hc, hb, hcalled, hne1, hs1⟩ := fillvdir_ok h1 hok1 hne
        have hnot : d.name ∉ seen arg.bindex := fun hm => by
          have := List.disjoint_of_nodup_append hnodup hm
          simp at this
        have hinv1 := hinv.step hc hb (Ne.symm hnames.1) hnot h0
        have happ : seen arg.bindex ++ (d :: ds).map Dirent.name =
            (seen arg.bindex ++ [d.name]) ++ ds.map Dirent.name := by simp
        obtain ⟨h2, h3, h4, h5, h6, h7⟩ := ih h hinv1 hne1 (by rw [hb]; exact h0) hnames.2
          (by rw [hb, Function.update_self, ← happ]; exact hnodup)
        rw [hb] at h2 h4
        rw [Function.update_self, Function.update_idem, ← happ] at h2
        exact ⟨h2, by rw [h3, List.length_cons]; omega, h4,
          by rw [h5, hcalled, List.length_cons]; omega, h6, hs1.trans h7⟩
      · rename_i hok1
        simp only [Prod.mk.injEq] at h
        obtain ⟨-, rfl, -⟩ := h
        exact absurd hok hok1

/-- The names a hidden directory still delivers. -/
def HFile.unread (w : World) (hf : HFile) : List Name :=
  ((w.dirents hf.root hf.path).drop hf.pos).map Dirent.name

theorem HFile.unread_nodup (w : World) (hf : HFile) : (hf.unread w).Nodup := by
  refine (w.nodup_dirents hf.root hf.path).sublist ?_
  exact (List.drop_sublist _ _).map _

theorem HFile.nil_not_mem_unread (w : World) (hf : HFile) : [] ∉ hf.unread w := by
  intro hm
  have hm' : [] ∈ (w.dirents hf.root hf.path).map Dirent.name :=
    ((List.drop_sublist _ _).map _).subset hm
  rw [w.mem_dirents (by decide) (by decide)] at hm'
  exact ((w.fs hf.root).validName_of_node hm').1 rfl

theorem vfsubReaddir_ok {hf hf' : HFile} {w w' : World}
    (h : vfsubReaddir hash sb hf arg w = (.ok (), hf', arg', w')) (hok : arg'.err = none)
    (hinv : FillInv hash seen arg) (hne : arg.vdir.deblk ≠ []) (h0 : 0 ≤ arg.bindex)
    (hnodup : (seen arg.bindex ++ hf.unread w).Nodup) :
    ∃ n, n = min (w.chunk w.tick + 1) (hf.unread w).length ∧ hf' = { hf with pos := hf.pos + n } ∧
      FillInv hash (Function.update seen arg.bindex (seen arg.bindex ++ (hf.unread w).take n)) arg' ∧
      arg'.bindex = arg.bindex ∧ arg'.called = arg.called + n ∧ arg'.vdir.deblk ≠ [] ∧ w.SameFs w' := by
  unfold vfsubReaddir at h
  dsimp only at h
  obtain ⟨ds, hds⟩ : ∃ ds, ds = ((w.dirents hf.root hf.path).drop hf.pos).take (w.chunk w.tick + 1) :=
    ⟨_, rfl⟩
  have hlen : ds.length = min (w.chunk w.tick + 1) (hf.unread w).length := by
    rw [hds, List.length_take, HFile.unread, List.length_map]
  have hmap : ds.map Dirent.name = (hf.unread w).take ds.length := by
    rw [hds, HFile.unread, List.map_take, List.length_take, ← List.length_map (f := Dirent.name),
      List.take_eq_take_iff]
    omega
  obtain ⟨pos, arg1, w1, h1⟩ : ∃ pos arg1 w1, fillChunk hash sb ds hf.pos arg w = (pos, arg1, w1) :=
    ⟨_, _, _, rfl⟩
  rw [← hds, h1] at h
  dsimp only at h
  split at h
  · simp at h
  · rename_i w2 hw2
    obtain ⟨-, rfl⟩ := Prod.mk.inj hw2
    simp only [Prod.mk.injEq, true_and] at h
    obtain ⟨rfl, rfl, rfl⟩ := h
    have hsub : (ds.map Dirent.name).Sublist (hf.unread w) := hmap ▸ List.take_sublist _ _
    obtain ⟨h2, rfl, h4, h5, h6, h7⟩ := fillChunk_ok h1 hok hinv hne h0
      (fun hm => hf.nil_not_mem_unread w (hsub.subset hm))
      (hnodup.sublist ((List.Sublist.refl _).append hsub))
    exact ⟨ds.length, hlen, rfl, hmap ▸ h2, h4, h5, h6, h7.trans (.ask w1)⟩

/-- The inner loop reads a hidden directory to its end. -/
theorem readHdir_ok {fuel : Nat} {hf hf' : HFile} {w w' : World}
    (h : readHdir hash sb fuel hf arg w = some (.ok (), hf', arg', w'))
    (hinv : FillInv hash seen arg) (hne : arg.vdir.deblk ≠ []) (h0 : 0 ≤ arg.bindex)
    (hnodup : (seen arg.bindex ++ hf.unread w).Nodup) :
    FillInv hash (Function.update seen arg.bindex (seen arg.bindex ++ hf.unread w)) arg' ∧
      arg'.bindex = arg.bindex ∧ arg'.vdir.deblk ≠ [] ∧ w.SameFs w' := by
  induction fuel generalizing seen arg hf w with
  | zero => simp [readHdir] at h
  | succ fuel ih =>
      rw [readHdir] at h
      obtain ⟨res, hf1, arg1, w1, h1⟩ : ∃ res hf1 arg1 w1,
        vfsubReaddir hash sb hf { arg with err := none, called := 0 } w = (res, hf1, arg1, w1) :=
        ⟨_, _, _, _, rfl⟩
      rw [h1] at h
      cases res with
      | error e => simp at h
      | ok u =>
          dsimp only at h
          split at h
          · simp at h
          · rename_i hok1
            have hinv0 : FillInv hash seen { arg with err := none, called := 0 } :=
              ⟨hinv.named, hinv.range, hinv.listed, hinv.whited, hinv.names, hinv.nodup⟩
            obtain ⟨n, hn, rfl, h2, h3, h4, h5, h6⟩ := vfsubReaddir_ok h1 hok1 hinv0 hne h0 hnodup
            split at h
            · -- nothing was delivered: the end
              rename_i hcalled
              simp only [Option.some.injEq, Prod.mk.injEq, true_and] at h
              obtain ⟨-, rfl, rfl⟩ := h
              have hnil : hf.unread w = [] := by
                rw [← List.length_eq_zero_iff]
                simp only at h4
                omega
              rw [hnil, List.take_nil] at h2
              rw [hnil]
              exact ⟨h2, h3, h5, h6⟩
            · have hun : HFile.unread w1 { hf with pos := hf.pos + n } = (hf.unread w).drop n := by
                simp only [HFile.unread, h6.dirents, ← List.map_drop, List.drop_drop]
              have happ : (seen arg.bindex ++ (hf.unread w).take n) ++ (hf.unread w).drop n =
                  seen arg.bindex ++ hf.unread w := by
                rw [List.append_assoc, List.take_append_drop]
              obtain ⟨h7, h8, h9, h10⟩ := ih h h2 h5 (by rw [h3]; exact h0)
                (by rw [h3, hun]; simpa [happ] using hnodup)
              rw [h3, hun] at h7
              rw [Function.update_self, Function.update_idem, happ] at h7
              exact ⟨h7, h8.trans h3, h9, h6.trans h10⟩

/-- The fuel of the inner loop reaches its end: a round that does not end it reads an entry. -/
theorem readHdir_isSome {fuel : Nat} {hf : HFile} {w : World}
    (hfuel : (hf.unread w).length < fuel) (hinv : FillInv hash seen arg)
    (hne : arg.vdir.deblk ≠ []) (h0 : 0 ≤ arg.bindex)
    (hnodup : (seen arg.bindex ++ hf.unread w).Nodup) : (readHdir hash sb fuel hf arg w).isSome := by
  induction fuel generalizing seen arg hf w with
  | zero => omega
  | succ fuel ih =>
      rw [readHdir]
      obtain ⟨res, hf1, arg1, w1, h1⟩ : ∃ res hf1 arg1 w1,
        vfsubReaddir hash sb hf { arg with err := none, called := 0 } w = (res, hf1, arg1, w1) :=
        ⟨_, _, _, _, rfl⟩
      rw [h1]
      cases res with
      | error e => simp
      | ok u =>
          dsimp only
          split
          · simp
          · rename_i hok1
            have hinv0 : FillInv hash seen { arg with err := none, called := 0 } :=
              ⟨hinv.named, hinv.range, hinv.listed, hinv.whited, hinv.names, hinv.nodup⟩
            obtain ⟨n, hn, rfl, h2, h3, h4, h5, h6⟩ := vfsubReaddir_ok h1 hok1 hinv0 hne h0 hnodup
            split
            · simp
            · rename_i hcalled
              have hun : HFile.unread w1 { hf with pos := hf.pos + n } = (hf.unread w).drop n := by
                simp only [HFile.unread, h6.dirents, ← List.map_drop, List.drop_drop]
              refine ih ?_ h2 h5 (by rw [h3]; exact h0) ?_
              · rw [hun, List.length_drop]
                simp only at h4
                omega
              · rw [h3, hun]
                simpa using hnodup

-- ---------------------------------------------------------------------------
-- All branches
-- ---------------------------------------------------------------------------

/-- The names the hidden file of a branch still delivers; nothing without a hidden file. -/
def unreadAt (w : World) (hfs : Int → Option HFile) (b : Int) : List Name :=
  (hfs b).elim [] (HFile.unread w)

/-- The loop of `read_vdir` lists what the hidden files still deliver. -/
theorem readBranches_ok {L : List Int} {hfs hfs' : Int → Option HFile} {w w' : World}
    (h : readBranches hash sb L hfs arg w = (.ok (), hfs', arg', w'))
    (hinv : FillInv hash seen arg) (hne : arg.vdir.deblk ≠ []) (hsorted : L.Pairwise (· < ·))
    (hL : ∀ b ∈ L, 0 ≤ b ∧ arg.bindex ≤ b ∧ seen b = []) :
    (∃ b, FillInv hash (fun b => if b ∈ L then unreadAt w hfs b else seen b) { arg' with bindex := b }) ∧
      arg'.vdir.deblk ≠ [] ∧ w.SameFs w' := by
  induction L generalizing seen hfs arg w with
  | nil =>
      simp only [readBranches, Prod.mk.injEq, true_and] at h
      obtain ⟨-, rfl, rfl⟩ := h
      exact ⟨⟨arg.bindex, by simpa using hinv⟩, hne, .refl w⟩
  | cons b L ih =>
      obtain ⟨hb0, hbarg, hbseen⟩ := hL b List.mem_cons_self
      have hsorted' := List.pairwise_cons.mp hsorted
      have hbL : b ∉ L := fun hm => (hsorted'.1 b hm).ne rfl
      rw [readBranches] at h
      split at h
      · rename_i hnone
        obtain ⟨⟨b', h1⟩, h2, h3⟩ := ih h hinv hne hsorted'.2 fun c hc => hL c (List.mem_cons_of_mem b hc)
        refine ⟨⟨b', ?_⟩, h2, h3⟩
        have heq : (fun c => if c ∈ b :: L then unreadAt w hfs c else seen c) =
            fun c => if c ∈ L then unreadAt w hfs c else seen c := by
          funext c
          by_cases hc : c = b
          · subst hc
            simp [hbL, hbseen, unreadAt, hnone]
          · simp [hc]
        rwa [heq]
      · rename_i hf hhf
        -- the branch is read as one hidden directory
        have hinv0 : FillInv hash seen { arg with bindex := b } :=
          { hinv with range := fun c hc => hinv.range c (hc.imp_right fun hlt => by simp only at hlt; omega) }
        split at h
        · simp at h
        · simp at h
        · rename_i hf1 arg1 w1 hr
          obtain ⟨h1, h2, h3, h4⟩ := readHdir_ok hr hinv0 hne hb0
            (by simpa [hbseen] using hf.unread_nodup w)
          simp only [hbseen, List.nil_append] at h1 h2
          have hother : ∀ c ∈ L, c ≠ b := fun c hc he => hbL (he ▸ hc)
          obtain ⟨⟨b', h5⟩, h6, h7⟩ := ih h h1 h3 hsorted'.2 fun c hc => by
            obtain ⟨hc0, -, hcs⟩ := hL c (List.mem_cons_of_mem b hc)
            exact ⟨hc0, by rw [h2]; exact (hsorted'.1 c hc).le, by
              rw [Function.update_of_ne (hother c hc), hcs]⟩
          refine ⟨⟨b', ?_⟩, h6, h4.trans h7⟩
          have heq : (fun c => if c ∈ b :: L then unreadAt w hfs c else seen c) =
              fun c => if c ∈ L then unreadAt w1 (Function.update hfs b (some hf1)) c
                else Function.update seen b (hf.unread w) c := by
            funext c
            by_cases hc : c = b
            · subst hc
              simp [hbL, unreadAt, hhf]
            · by_cases hcL : c ∈ L
              · simp only [hcL, List.mem_cons_of_mem, if_true, unreadAt, Function.update_of_ne hc]
                cases hfs c with
                | none => rfl
                | some g => simp [HFile.unread, h4.dirents]
              · simp [hc, hcL]
          rw [heq]
          exact h5

/-- The names the branches of a range deliver from the positions of the hidden files. -/
def DirFile.delivers (w : World) (f : DirFile) (b : Int) : List Name :=
  if f.fbstart ≤ b ∧ b ≤ f.fbend then unreadAt w f.hfile b else []

/-- The `vdir` lists the merge of `held`: a name once if the topmost branch that has the
name or its whiteout has the name, and not at all otherwise. -/
structure Merges (held : Int → List Name) (vd : Vdir) : Prop where
  mem : ∀ n, n ∈ vd.names ↔ isWhName n = false ∧
    ∃ b, n ∈ held b ∧ ∀ c < b, n ∉ held c ∧ whName n ∉ held c
  nodup : vd.names.Nodup

theorem fillVdir_ok {f f' : DirFile} {vd vd' : Vdir} {w w' : World}
    (h : fillVdir hash sb f vd w = (.ok (), f', vd', w')) (hempty : vd.names = [])
    (hne : vd.deblk ≠ []) (h0 : 0 ≤ f.fbstart) :
    Merges (f.delivers w) vd' ∧ vd'.deblk ≠ [] ∧ w.SameFs w' := by
  unfold fillVdir at h
  split at h
  · simp at h
  · rename_i w1 hw1
    obtain ⟨-, rfl⟩ := Prod.mk.inj hw1
    split at h
    · simp at h
    · rename_i w2 hw2
      obtain ⟨-, rfl⟩ := Prod.mk.inj hw2
      obtain ⟨res, hfs, arg, w3, hr⟩ : ∃ res hfs arg w3, readBranches hash sb
        (bindexes f.fbstart f.fbend) f.hfile ⟨vd, fun _ => .init, fun _ => .init, 0, none, 0⟩
        w.next.next = (res, hfs, arg, w3) := ⟨_, _, _, _, rfl⟩
      dsimp only at h
      rw [hr] at h
      simp only [Prod.mk.injEq] at h
      obtain ⟨rfl, -, rfl, rfl⟩ := h
      have hinv : FillInv hash (fun _ => []) ⟨vd, fun _ => .init, fun _ => .init, 0, none, 0⟩ := by
        refine ⟨by simp, by simp, fun b n => ?_, fun b n => ?_, fun n => ?_, by simp [hempty]⟩
        · simp [ShownIn, Shown]
        · simp
        · simp [hempty, ShownIn, Shown]
      obtain ⟨⟨b, h1⟩, h2, h3⟩ := readBranches_ok hr hinv hne (bindexes_sorted _ _) fun b hb => by
        have := (mem_bindexes.mp hb).1
        exact ⟨by omega, by simp only; omega, rfl⟩
      have heq : (fun b => if b ∈ bindexes f.fbstart f.fbend then unreadAt w.next.next f.hfile b else []) =
          f.delivers w := by
        funext b
        simp only [DirFile.delivers, mem_bindexes]
        rfl
      rw [heq] at h1
      refine ⟨⟨fun n => ?_, h1.nodup⟩, h2, World.SameFs.trans (show w.SameFs w.next.next from ⟨rfl, rfl, rfl⟩) h3⟩
      rw [h1.names]
      simp only [ShownIn, Shown, exists_and_left]

/-- A call of `read_vdir` that returns 0 serves the `vdir` that is there, or leaves one that
lists what the hidden files still delivered. -/
theorem readVdir_ok {mayRead : Bool} {ino ino' : DirInode} {f f' : DirFile} {w w' : World}
    (h : readVdir hash sb mayRead ino f w = (.ok (), ino', f', w')) (h0 : 0 ≤ f.fbstart) :
    (vdirPlan sb mayRead ino w = .serve ∧ ino' = ino) ∨
      (vdirPlan sb mayRead ino w ≠ .serve ∧
        ∃ vd, ino'.vdir = some vd ∧ Merges (f.delivers w) vd) := by
  unfold readVdir at h
  -- the last assignments do not touch the entries
  have hdone : ∀ (vd : Vdir) (v : Nat), Merges (f.delivers w) vd →
      Merges (f.delivers w) { vd with version := v, lastI := 0, lastP := 0 } :=
    fun vd v hm => ⟨hm.mem, hm.nodup⟩
  split at h
  · rename_i hp
    simp only [Prod.mk.injEq, true_and] at h
    exact .inl ⟨hp, h.1.symm⟩
  · rename_i vd hp
    have hvd : vd.names = [] ∧ vd.deblk ≠ [] := by
      unfold vdirPlan at hp
      split at hp
      · simp at hp
      · split at hp
        · simp only [VdirPlan.again.injEq] at hp
          subst hp
          exact ⟨rfl, by simp [Vdir.reinit]⟩
        · simp at hp
    split at h
    · simp at h
    · rename_i f1 vd1 w1 hf
      simp only [Prod.mk.injEq, true_and] at h
      obtain ⟨rfl, -, -⟩ := h
      exact .inr ⟨by simp [hp], _, rfl, hdone _ _ (fillVdir_ok hf hvd.1 hvd.2 h0).1⟩
  · rename_i hp
    split at h
    · simp at h
    · rename_i vd w1 ha
      obtain ⟨hn, hne, rfl⟩ := Vdir.alloc_ok ha
      split at h
      · simp at h
      · rename_i f1 vd1 w2 hf
        simp only [Prod.mk.injEq, true_and] at h
        obtain ⟨rfl, -, -⟩ := h
        exact .inr ⟨by simp [hp], _, rfl, hdone _ _ (fillVdir_ok hf hn hne h0).1⟩

end Aufs
