-- SUMMARY: The third loop of xino_set and its result: when moved files are shared as before and keep every number.
import Mathlib.Data.Nat.Find
import Aufs.XinoMove
import Aufs.XinoEvents

/-!
# Moving the xino files

The third loop gives the branches that dropped a shared file the file of the first branch on
their super block. It starts whatever the second loop ended with, and its last success takes
the place of an error from there.
-/

namespace Aufs

-- ---------------------------------------------------------------------------
-- The first branch on a super block
-- ---------------------------------------------------------------------------

namespace Host.XinoGood

variable {h : Host} {st : Sbinfo}

/-- The branch whose file the branches on this super block share. -/
theorem exists_first (hg : h.XinoGood st) {b : Int} (hb : st.InTable b) :
    ∃ c, st.InTable c ∧ c ≤ b ∧ st.First c ∧ st.mntSb c = st.mntSb b ∧
      ∀ d, 0 ≤ d → d < c → st.mntSb d ≠ st.mntSb b := by
  -- the least index on the super block
  have hleast : ∃ n : Nat, st.mntSb n = st.mntSb b :=
    ⟨b.toNat, by rw [Int.toNat_of_nonneg hb.1]⟩
  classical
  have hspec := Nat.find_spec hleast
  have hmin : ∀ d : Int, 0 ≤ d → d < (Nat.find hleast : Nat) → st.mntSb d ≠ st.mntSb b := by
    intro d h0 hlt he
    refine Nat.find_min hleast (m := d.toNat) (by omega) ?_
    rw [Int.toNat_of_nonneg h0]
    exact he
  have hle : ((Nat.find hleast : Nat) : Int) ≤ b := by
    have := Nat.find_min' hleast (m := b.toNat) (by rw [Int.toNat_of_nonneg hb.1])
    have := hb.1
    omega
  have hc : st.InTable (Nat.find hleast : Nat) := ⟨by omega, Int.le_trans hle hb.2⟩
  refine ⟨_, hc, hle, fun d f g h0 hlt hf hg' he => ?_, hspec, hmin⟩
  have hd : st.InTable d := ⟨h0, by have := hc.2; omega⟩
  obtain ⟨br, f', hbf⟩ := hg.files d hd
  obtain ⟨br', g', hbg⟩ := hg.files _ hc
  obtain rfl := Option.some.inj (hbf.brXino.symm.trans hf)
  obtain rfl := Option.some.inj (hbg.brXino.symm.trans hg')
  have hsb := (hg.shared d _ br br' f' g' hd hc hbf hbg).mp he
  refine hmin d h0 hlt ?_
  rw [hbf.mntSb, hsb, ← hbg.mntSb]
  exact hspec

/-- Of two first branches on one super block there is one. -/
theorem first_inj (hg : h.XinoGood st) {b c : Int} (hb : st.InTable b) (hc : st.InTable c)
    (hfb : st.First b) (hfc : st.First c) (hsb : st.mntSb b = st.mntSb c) : b = c := by
  have hlt : ∀ {b c : Int}, st.InTable b → st.InTable c → st.First c → st.mntSb b = st.mntSb c →
      ¬b < c := by
    intro b c hb hc hfc hsb hlt
    obtain ⟨br, f, hbf⟩ := hg.files b hb
    obtain ⟨br', g, hbg⟩ := hg.files c hc
    rw [hbf.mntSb, hbg.mntSb] at hsb
    exact hfc b f g hb.1 hlt hbf.brXino hbg.brXino
      ((hg.shared b c br br' f g hb hc hbf hbg).mpr (Option.some.inj hsb))
  have h₁ := hlt hb hc hfc hsb
  have h₂ := hlt hc hb hfb hsb.symm
  omega

/-- Branches on one super block have one file. -/
theorem file_eq_of_mntSb (hg : h.XinoGood st) {b c : Int} {br br' : AufsBranch} {f g : XFile}
    (hb : st.InTable b) (hc : st.InTable c) (hbf : st.HasFile b br f) (hcg : st.HasFile c br' g) :
    f.id = g.id ↔ st.mntSb b = st.mntSb c := by
  rw [hg.shared b c br br' f g hb hc hbf hcg, hbf.mntSb, hcg.mntSb]
  exact ⟨congrArg some, Option.some.inj⟩

end Host.XinoGood

-- ---------------------------------------------------------------------------
-- The third loop
-- ---------------------------------------------------------------------------

/-- The third loop, with the branches `todo` still to come. The files of the first branches
are copies of those in `st`, and they are as `p` says. -/
structure Host.Sharing (p : XFile → Prop) (st : Sbinfo) (todo : List Int) (cur : Sbinfo) : Prop where
  table : st.SameTable cur
  xino : cur.xino = true
  first : ∀ b br f, st.InTable b → st.First b → st.HasFile b br f → ∃ br' g,
    cur.HasFile b br' g ∧ p g ∧ SameEntries (st.files f.id) (cur.files g.id)
  rest : ∀ b, b ∈ todo → ¬st.First b → cur.brXino b = none
  shares : ∀ b c, st.InTable b → b ∉ todo → ¬st.First b → st.InTable c → st.First c →
    st.mntSb c = st.mntSb b → ∃ br g, cur.HasFile b br g ∧ cur.brXino c = some g
  apart : ∀ b c f g, st.InTable b → st.InTable c → st.First b → st.First c →
    cur.brXino b = some f → cur.brXino c = some g → f.id = g.id → b = c

section

variable {h : Host} {e : XinoSetEnv} {place : XinoPlace} {p : XFile → Prop} {st cur : Sbinfo}

/-- Rewriting an entry of a branch with a file. -/
theorem Host.xinoWrite_whole {ans : Except LowerErrno Nat} {b : Int} {br : AufsBranch} {f : XFile}
    {hIno ino : Nat} {src : List UInt8} (hx : st.xino = true) (hf : st.HasFile b br f)
    (hs : SameEntries src (st.files f.id)) (ht : h.long.Table src)
    (hread : h.long.readEntry src hIno = .ok ino) (hino : ino ≠ 0) (hans : h.long.Whole ans) :
    h.xinoWrite st ans b hIno ino = (.ok (), st) := by
  have hon : ¬(!st.xino) = true := by
    rw [hx]
    decide
  rw [Host.xinoWrite, if_neg hon]
  simp only [hf.stobr, hf.file, hf.write, xinoFwrite_same hs ht hread hino hans, Bool.not_true,
    Bool.false_eq_true, if_false, if_true, Function.update_eq_self]

theorem Host.xinoWrite_short {ans : Except LowerErrno Nat} {b : Int} {br : AufsBranch} {f : XFile}
    {hIno ino : Nat} (hx : st.xino = true) (hf : st.HasFile b br f) (hans : ¬h.long.Whole ans) :
    (h.xinoWrite st ans b hIno ino).1 = .error Errno.EIO := by
  have hshort := xinoFwrite_short hans (st.files f.id) hIno ino
  simp only [Host.xinoWrite, hx, hf.stobr, hf.file, hf.write, Bool.not_true, Bool.false_eq_true,
    if_false]
  generalize xinoFwrite h.long ans (st.files f.id) hIno ino = r at *
  obtain ⟨r, content⟩ := r
  cases r with
  | error err => rfl
  | ok sz =>
    have hne : sz ≠ h.long.size := fun he => hshort (congrArg _ he)
    simp only [if_neg hne]

/-- The file that a branch takes over is that of the first branch on its super block. -/
theorem Host.Sharing.sharedFile (hs : Host.Sharing p st todo cur) (hg : h.XinoGood st) {b c : Int}
    {g : XFile} (hb : st.InTable b) (hno : ¬st.First b) (hc : st.InTable c) (hfc : st.First c)
    (hsb : st.mntSb c = st.mntSb b) (hfile : cur.brXino c = some g) :
    cur.sharedFile b true = some g := by
  have hne : b ≠ c := fun he => hno (he ▸ hfc)
  have hfind : cur.isSbShared b cur.siBend = c := by
    have hsome : (bindexes 0 cur.siBend).find? (fun bindex => b ≠ bindex &&
        (cur.stobr b).map AufsBranch.brMntSb = (cur.stobr bindex).map AufsBranch.brMntSb) = some c := by
      rw [find?_bindexes, hs.table.siBend]
      refine ⟨?_, hc.1, hc.2, fun d h0 hlt => ?_⟩
      · have hcur : cur.mntSb b = cur.mntSb c := by rw [hs.table.mntSb, hs.table.mntSb, hsb]
        simp only [Sbinfo.mntSb] at hcur
        simp [hne, hcur]
      · obtain ⟨c', hc', hle, hfc', hsb', hmin⟩ := hg.exists_first hb
        obtain rfl := hg.first_inj hc hc' hfc hfc' (hsb.trans hsb'.symm)
        have hd := hmin d h0 hlt
        rw [← hs.table.mntSb d, ← hs.table.mntSb b] at hd
        simp only [Sbinfo.mntSb] at hd
        simp [Ne.symm hd]
    rw [Sbinfo.isSbShared, hsome]
    rfl
  simp only [Sbinfo.sharedFile, if_true, hfind, if_pos hc.1]
  exact hfile

/-- One round of the third loop, for a branch that dropped its file: it takes over the file
of the first branch if its root entry can be written. -/
theorem Host.Sharing.init {b : Int} {todo : List Int} (hs : Host.Sharing p st (b :: todo) cur)
    (hg : h.XinoGood st) (hb : st.InTable b) (hnot : b ∉ todo) (hno : ¬st.First b)
    (hinit : XinoInitEnv) :
    (h.long.Whole hinit.write →
      (h.xinoInit cur hinit b (some place) true).1 = .ok () ∧
      Host.Sharing p st todo (h.xinoInit cur hinit b (some place) true).2) ∧
    (¬h.long.Whole hinit.write →
      (h.xinoInit cur hinit b (some place) true).1 = .error Errno.EIO) := by
  obtain ⟨c, hc, -, hfc, hsb, -⟩ := hg.exists_first hb
  obtain ⟨brb, fb, hbf⟩ := hg.files b hb
  obtain ⟨brc, fc, hcf⟩ := hg.files c hc
  obtain ⟨br', g, hcg, hpg, hsame⟩ := hs.first c brc fc hc hfc hcf
  have hid : fc.id = fb.id := (hg.file_eq_of_mntSb hc hb hcf hbf).mpr hsb
  have hne : c ≠ b := fun he => hno (he ▸ hfc)
  have hshared := hs.sharedFile hg hb hno hc hfc hsb hcg.brXino
  -- the root of the branch has its entry in the file already
  obtain ⟨l, hl⟩ := hg.table
  obtain ⟨i, s, hi, hslot⟩ := hl.slot hb
  have hinode : (st.hinode b).bind HinodeCell.hiInode = some ⟨s.dir.dSb, s.ino⟩ := by
    rw [hi, hl.hinode_eq hslot]
    rfl
  have hroot := hg.root b brb fb _ hb hbf hinode
  have htable := (hg.old b brb fb hb hbf).2
  rw [← hid] at hroot htable
  obtain ⟨brb', hbrb', -⟩ := (hl.sameTable hs.table).stobr hslot
  rw [← hi] at hbrb'
  generalize hst' : (cur.setBranch b fun br =>
    { br with brXinoRead := true, brXinoWrite := true, brXino := some g }) = st'
  have hstobr : ∀ d, st'.stobr d = if d = b then
      some { brb' with brXinoRead := true, brXinoWrite := true, brXino := some g }
      else cur.stobr d := by
    intro d
    rw [← hst', Sbinfo.stobr_setBranch hb.1, hbrb', Option.map_some]
  have hframe : st.SameTable st' ∧ st'.xino = true ∧ st'.files = cur.files := by
    rw [← hst']
    exact ⟨hs.table.trans (Sbinfo.sameTable_setBranch b fun _ => rfl), hs.xino, rfl⟩
  obtain ⟨htable', hxino', hfiles'⟩ := hframe
  have hfile : st'.HasFile b { brb' with brXinoRead := true, brXinoWrite := true, brXino := some g } g :=
    ⟨(hstobr b).trans (if_pos rfl), rfl, rfl, rfl, hcg.hasRead, hcg.hasWrite⟩
  have hinode' : (st'.hinode b).bind HinodeCell.hiInode = some ⟨s.dir.dSb, s.ino⟩ := by
    rw [← hinode, Sbinfo.hinode, Sbinfo.hinode, htable'.iiHinode]
  constructor
  · intro hwhole
    have hwrite := @Host.xinoWrite_whole h st' hinit.write b _ g s.ino rootIno (st.files fc.id)
      hxino' hfile (by rw [hfiles']; exact hsame) htable hroot (by decide) hwhole
    have hcompute : h.xinoInit cur hinit b (some place) true = (.ok (), st') := by
      simp only [Host.xinoInit, hshared, Host.xinoInitFile, hcg.hasRead, hcg.hasWrite, Bool.not_true,
        Bool.false_eq_true, if_false, hst', hinode', hwrite]
    rw [hcompute]
    refine ⟨rfl, htable', hxino', fun d br f hd hfd hf => ?_, fun d hd hnod => ?_,
      fun d c' hd hmem hnod hc' hfc' hsb' => ?_, fun d d' f f' hd hd' hfd hfd' hf hf' => ?_⟩
    · have hdb : d ≠ b := fun he => hno (he ▸ hfd)
      obtain ⟨br'', g', hg', hp', hs'⟩ := hs.first d br f hd hfd hf
      refine ⟨br'', g', ⟨((hstobr d).trans (if_neg hdb)).trans hg'.stobr, hg'.file, hg'.read, hg'.write,
        hg'.hasRead, hg'.hasWrite⟩, hp', ?_⟩
      dsimp only
      rw [hfiles']
      exact hs'
    · have hdb : d ≠ b := fun he => hnot (he ▸ hd)
      rw [Sbinfo.brXino, hstobr, if_neg hdb]
      exact hs.rest d (List.mem_cons_of_mem b hd) hnod
    · have hcb : c' ≠ b := fun he => hno (he ▸ hfc')
      have hcur : st'.brXino c' = cur.brXino c' := by
        rw [Sbinfo.brXino, hstobr, if_neg hcb]
        rfl
      rw [hcur]
      by_cases hdb : d = b
      · subst hdb
        obtain rfl := hg.first_inj hc hc' hfc hfc' (hsb.trans hsb'.symm)
        exact ⟨_, g, hfile, hcg.brXino⟩
      · obtain ⟨br'', g', hg', hcg'⟩ := hs.shares d c' hd
          (fun hin => (List.mem_cons.mp hin).elim hdb hmem) hnod hc' hfc' hsb'
        exact ⟨br'', g', ⟨((hstobr d).trans (if_neg hdb)).trans hg'.stobr, hg'.file, hg'.read, hg'.write,
          hg'.hasRead, hg'.hasWrite⟩, hcg'⟩
    · have hdb : d ≠ b := fun he => hno (he ▸ hfd)
      have hdb' : d' ≠ b := fun he => hno (he ▸ hfd')
      rw [Sbinfo.brXino, hstobr, if_neg hdb] at hf
      rw [Sbinfo.brXino, hstobr, if_neg hdb'] at hf'
      exact hs.apart d d' f f' hd hd' hfd hfd' hf hf'
  · intro hshort
    have hwrite := @Host.xinoWrite_short h st' hinit.write b _ g s.ino rootIno hxino' hfile hshort
    simp only [Host.xinoInit, hshared, Host.xinoInitFile, hcg.hasRead, hcg.hasWrite, Bool.not_true,
      Bool.false_eq_true, if_false, hst', hinode']
    generalize h.xinoWrite st' hinit.write b s.ino rootIno = r at *
    obtain ⟨r, st''⟩ := r
    obtain rfl : r = .error Errno.EIO := hwrite
    rfl

/-- The third loop. An error from before stays only if nobody needs a file. -/
theorem Host.Sharing.initFiles (hg : h.XinoGood st) (err : Except Errno Unit) {todo : List Int}
    (hnodup : todo.Nodup) (hin : ∀ b ∈ todo, st.InTable b) {cur : Sbinfo}
    (hs : Host.Sharing p st todo cur) :
    ((∀ b ∈ todo, st.First b) → (h.initFiles e place todo err cur).1 = err) ∧
    ((∀ b ∈ todo, ¬st.First b → h.long.Whole (e.init b).write) →
      ((∃ b ∈ todo, ¬st.First b) → (h.initFiles e place todo err cur).1 = .ok ()) ∧
      Host.Sharing p st [] (h.initFiles e place todo err cur).2) ∧
    ∀ b ∈ todo, ¬st.First b → ¬h.long.Whole (e.init b).write →
      (h.initFiles e place todo err cur).1 = .error Errno.EIO := by
  induction todo generalizing cur err with
  | nil =>
    refine ⟨fun _ => rfl, fun _ => ⟨?_, hs⟩, fun b hb => absurd hb List.not_mem_nil⟩
    rintro ⟨_, hb, -⟩
    exact absurd hb List.not_mem_nil
  | cons b todo ih =>
    obtain ⟨hnot, hnodup⟩ := List.nodup_cons.mp hnodup
    obtain ⟨hb, hrest⟩ := List.forall_mem_cons.mp hin
    rw [Host.initFiles]
    by_cases hfb : st.First b
    · -- the branch has a file
      obtain ⟨br, f, hbf⟩ := hg.files b hb
      obtain ⟨br', g, hbg, -, -⟩ := hs.first b br f hb hfb hbf
      have hskip : Host.Sharing p st todo cur :=
        ⟨hs.table, hs.xino, hs.first, fun c hc => hs.rest c (List.mem_cons_of_mem b hc),
          fun d c hd hmem hnod => hs.shares d c hd (fun hin => (List.mem_cons.mp hin).elim
            (fun he => hnod (he ▸ hfb)) hmem) hnod, hs.apart⟩
      rw [hbg.brXino]
      obtain ⟨hall, hwhole, hshort⟩ := ih err hnodup hrest hskip
      refine ⟨fun hf => hall fun c hc => hf c (List.mem_cons_of_mem b hc), fun hw => ?_,
        fun c hc hno hn => ?_⟩
      · obtain ⟨hok, hs'⟩ := hwhole fun c hc => hw c (List.mem_cons_of_mem b hc)
        refine ⟨?_, hs'⟩
        rintro ⟨c, hc, hno⟩
        exact hok ⟨c, (List.mem_cons.mp hc).resolve_left fun he => hno (he ▸ hfb), hno⟩
      · exact hshort c ((List.mem_cons.mp hc).resolve_left fun he => hno (he ▸ hfb)) hno hn
    · rw [hs.rest b (List.mem_cons_self ..) hfb]
      obtain ⟨hok, herr⟩ := @Host.Sharing.init h place p st cur b todo hs hg hb hnot hfb (e.init b)
      dsimp only
      refine ⟨fun hf => absurd (hf b (List.mem_cons_self ..)) hfb, fun hw => ?_, fun c hc hno hn => ?_⟩
      · obtain ⟨hres, hs'⟩ := hok (hw b (List.mem_cons_self ..) hfb)
        generalize h.xinoInit cur (e.init b) b (some place) true = r at *
        obtain ⟨r, cur'⟩ := r
        obtain rfl : r = .ok () := hres
        obtain ⟨hall, hwhole, -⟩ := ih (.ok ()) hnodup hrest hs'
        obtain ⟨hrestOk, hs''⟩ := hwhole fun c hc => hw c (List.mem_cons_of_mem b hc)
        refine ⟨fun _ => ?_, hs''⟩
        by_cases hex : ∃ c ∈ todo, ¬st.First c
        · exact hrestOk hex
        · exact hall fun c hc => by_contra fun hno => hex ⟨c, hc, hno⟩
      · by_cases hwb : h.long.Whole (e.init b).write
        · obtain ⟨hres, hs'⟩ := hok hwb
          generalize h.xinoInit cur (e.init b) b (some place) true = r at *
          obtain ⟨r, cur'⟩ := r
          obtain rfl : r = .ok () := hres
          have hcb : c ≠ b := fun he => hn (he ▸ hwb)
          exact (ih (.ok ()) hnodup hrest hs').2.2 c ((List.mem_cons.mp hc).resolve_left hcb) hno hn
        · have hres := herr hwb
          generalize h.xinoInit cur (e.init b) b (some place) true = r at *
          obtain ⟨r, cur'⟩ := r
          obtain rfl : r = .error Errno.EIO := hres
          rfl

-- ---------------------------------------------------------------------------
-- The whole call
-- ---------------------------------------------------------------------------

/-- What `xino_set` is to do when it returns 0: every file is at the new place, branches share
one exactly when they share a super block, and every entry is what it was. -/
structure Host.XinoMoved (h : Host) (place : XinoPlace) (st st' : Sbinfo) : Prop where
  place : ∀ b, st.InTable b → ∃ g, st'.brXino b = some g ∧ g.place = place
  shared : ∀ b c f g, st.InTable b → st.InTable c → st'.brXino b = some f → st'.brXino c = some g →
    (f.id = g.id ↔ st.mntSb b = st.mntSb c)
  reads : ∀ b hIno ans, st.InTable b → h.long.Whole ans →
    h.xinoRead st' ans b hIno = h.xinoRead st ans b hIno

/-- When the third loop is through and every file was copied, nothing is lost. -/
theorem Host.Sharing.moved (hg : h.XinoGood st)
    (hs : Host.Sharing (fun g => g.place = place) st [] cur) : h.XinoMoved place st cur := by
  -- the file of a branch is the copy that the first branch on its super block has
  have hfile : ∀ b, st.InTable b → ∃ c br br' f g, st.InTable c ∧ st.First c ∧
      st.mntSb c = st.mntSb b ∧ st.HasFile c br f ∧ cur.HasFile b br' g ∧ cur.brXino c = some g ∧
      g.place = place ∧ SameEntries (st.files f.id) (cur.files g.id) := by
    intro b hb
    obtain ⟨c, hc, -, hfc, hsb, -⟩ := hg.exists_first hb
    obtain ⟨br, f, hcf⟩ := hg.files c hc
    obtain ⟨br', g, hcg, hp, hsame⟩ := hs.first c br f hc hfc hcf
    by_cases hfb : st.First b
    · obtain rfl := hg.first_inj hc hb hfc hfb hsb
      exact ⟨c, br, br', f, g, hc, hfc, hsb, hcf, hcg, hcg.brXino, hp, hsame⟩
    · obtain ⟨br'', g', hbg, hcg'⟩ := hs.shares b c hb List.not_mem_nil hfb hc hfc hsb
      obtain rfl := Option.some.inj (hcg'.symm.trans hcg.brXino)
      exact ⟨c, br, br'', f, g', hc, hfc, hsb, hcf, hbg, hcg.brXino, hp, hsame⟩
  refine ⟨fun b hb => ?_, fun b c f g hb hc hf hg' => ?_, fun b hIno ans hb hans => ?_⟩
  · obtain ⟨c, br, br', f, g, -, -, -, -, hbg, -, hp, -⟩ := hfile b hb
    exact ⟨g, hbg.brXino, hp⟩
  · obtain ⟨b₀, _, _, _, f', hb₀, hfb₀, hsb, _, hbf, hb₀f, -, -⟩ := hfile b hb
    obtain ⟨c₀, _, _, _, g', hc₀, hfc₀, hsc, _, hcg, hc₀g, -, -⟩ := hfile c hc
    obtain rfl := Option.some.inj (hbf.brXino.symm.trans hf)
    obtain rfl := Option.some.inj (hcg.brXino.symm.trans hg')
    rw [← hsb, ← hsc]
    constructor
    · intro hid
      rw [hs.apart b₀ c₀ f' g' hb₀ hc₀ hfb₀ hfc₀ hb₀f hc₀g hid]
    · intro he
      obtain rfl := hg.first_inj hb₀ hc₀ hfb₀ hfc₀ he
      rw [Option.some.inj (hb₀f.symm.trans hc₀g)]
  · obtain ⟨c, br, br', f, g, hc, -, hsb, hcf, hbg, -, -, hsame⟩ := hfile b hb
    obtain ⟨brb, fb, hbf⟩ := hg.files b hb
    have hid := (hg.file_eq_of_mntSb hc hb hcf hbf).mpr hsb
    rw [Host.xinoRead_eq_readEntry hs.xino hbg.stobr hbg.file hbg.read hans,
      Host.xinoRead_eq_readEntry hg.flag hbf.stobr hbf.file hbf.read hans, ← hid]
    exact hsame.readEntry (hg.old c br f hc hcf).2 hIno

end

-- ---------------------------------------------------------------------------
-- Two branches with one file
-- ---------------------------------------------------------------------------

/-- A branch option for a directory with this inode number. -/
def AuOpt.addBranch (iIno sb : Nat) (name : Name) (bindex : Int) : AuOpt :=
  .add ⟨iIno, 2, false, ⟨true, true, true, true⟩, ⟨none, none, none, none⟩, .fine⟩
    ⟨bindex, .RW, ⟨⟨sb, [name]⟩, sb, rfl⟩⟩

/-- Copies by whole blocks. -/
def CopyEnv.whole : CopyEnv :=
  ⟨512, 4096, true, true, fun _ => .ok 512, fun _ => .ok 512, fun _ => none, none⟩

def XinoSetEnv.whole : XinoSetEnv := ⟨fun _ => .ok (true, true), fun _ => .whole, 8, fun _ => .fine⟩

/-- There is no space for new files. -/
def XinoSetEnv.noFile : XinoSetEnv :=
  { XinoSetEnv.whole with create := fun _ => .error ⟨.ENOSPC, enospc_ne_oops⟩ }

end Aufs
