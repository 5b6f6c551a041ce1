-- SUMMARY: The first two loops of xino_set: which branches keep their file, and what the copies at the new place hold.
import Aufs.XinoCopy
import Aufs.XinoRun

/-!
# Dropping and copying the xino files

Of the branches that share an xino file the first one keeps it, and its file is copied to the
new place. The others wait for the third loop.
-/

namespace Aufs

open ByteFile

-- ---------------------------------------------------------------------------
-- Files in order
-- ---------------------------------------------------------------------------

namespace Sbinfo

/-- The branch at an index with its file, which offers what the branch needs. -/
structure HasFile (st : Sbinfo) (b : Int) (br : AufsBranch) (f : XFile) : Prop where
  stobr : st.stobr b = some br
  file : br.brXino = some f
  read : br.brXinoRead = true
  write : br.brXinoWrite = true
  hasRead : f.hasRead = true
  hasWrite : f.hasWrite = true

/-- `br_mnt->mnt_sb` of the branch at an index. -/
def mntSb (st : Sbinfo) (b : Int) : Option Nat := (st.stobr b).map AufsBranch.brMntSb

/-- No branch before this one has its file. -/
def First (st : Sbinfo) (b : Int) : Prop :=
  ∀ c f g, 0 ≤ c → c < b → st.brXino c = some f → st.brXino b = some g → f.id ≠ g.id

variable {st st' : Sbinfo}

theorem HasFile.brXino {b : Int} {br : AufsBranch} {f : XFile} (hf : st.HasFile b br f) :
    st.brXino b = some f := by
  rw [Sbinfo.brXino, hf.stobr]
  exact hf.file

theorem HasFile.mntSb {b : Int} {br : AufsBranch} {f : XFile} (hf : st.HasFile b br f) :
    st.mntSb b = some br.brMntSb := by
  rw [Sbinfo.mntSb, hf.stobr]
  rfl

theorem SameTable.mntSb (h : st.SameTable st') (b : Int) : st'.mntSb b = st.mntSb b := by
  have hsb := congrArg (Option.map BrKey.mntSb) (h.stobr b)
  simp only [Option.map_map] at hsb
  exact hsb

end Sbinfo

/-- The xino files in order: the flag is set, every branch has a file, branches share one
exactly when they share a super block, the tables are whole and know the branch roots. -/
structure Host.XinoGood (h : Host) (st : Sbinfo) : Prop where
  table : ∃ l, st.Holds l
  nonempty : 0 ≤ st.siBend
  flag : st.xino = true
  files : ∀ b, st.InTable b → ∃ br f, st.HasFile b br f
  shared : ∀ b c br br' f g, st.InTable b → st.InTable c → st.HasFile b br f → st.HasFile c br' g →
    (f.id = g.id ↔ br.brMntSb = br'.brMntSb)
  old : ∀ b br f, st.InTable b → st.HasFile b br f →
    f.id < st.nextFile ∧ h.long.Table (st.files f.id)
  root : ∀ b br f i, st.InTable b → st.HasFile b br f →
    (st.hinode b).bind HinodeCell.hiInode = some i →
    h.long.readEntry (st.files f.id) i.iIno = .ok rootIno

-- ---------------------------------------------------------------------------
-- The first loop
-- ---------------------------------------------------------------------------

private theorem one_lt_length_iff {α : Type} [DecidableEq α] {l : List α} (hl : l.Nodup) {a : α}
    (ha : a ∈ l) : 1 < l.length ↔ ∃ b ∈ l, b ≠ a := by
  constructor
  · intro hlt
    by_contra hno
    have hall : ∀ b ∈ l, b = a := fun b hb => by_contra fun hne => hno ⟨b, hb, hne⟩
    rw [List.eq_replicate_of_mem hall, List.nodup_replicate] at hl
    omega
  · rintro ⟨b, hb, hne⟩
    obtain ⟨i, hi, rfl⟩ := List.getElem_of_mem ha
    obtain ⟨j, hj, rfl⟩ := List.getElem_of_mem hb
    have hij : i ≠ j := fun he => hne (by subst he; rfl)
    omega

namespace Sbinfo

variable {st cur : Sbinfo}

/-- After the first loop went down to index `k`. -/
structure Dropped (st : Sbinfo) (k : Int) (cur : Sbinfo) : Prop where
  table : st.SameTable cur
  xino : cur.xino = true
  files : cur.files = st.files
  nextFile : cur.nextFile = st.nextFile
  kept : ∀ b, b < k ∨ st.First b → cur.stobr b = st.stobr b
  dropped : ∀ b, k ≤ b → st.InTable b → ¬st.First b → cur.brXino b = none

theorem nodup_bindexes (lo hi : Int) : (bindexes lo hi).Nodup :=
  (bindexes_sorted lo hi).imp fun hlt => Int.ne_of_lt hlt

theorem not_first {b : Int} (hb : ¬st.First b) :
    ∃ c f g, 0 ≤ c ∧ c < b ∧ st.brXino c = some f ∧ st.brXino b = some g ∧ f.id = g.id := by
  simp only [First, not_forall, not_ne_iff] at hb
  obtain ⟨c, f, g, h0, hlt, hf, hg, he⟩ := hb
  exact ⟨c, f, g, h0, hlt, hf, hg, he⟩

/-- One round: the file is dropped exactly if an earlier branch has it. -/
theorem Dropped.step {k : Int} (hk : st.InTable k) (hd : st.Dropped (k + 1) cur) :
    st.Dropped k (cur.dropShared k) := by
  have hsame : cur.stobr k = st.stobr k := hd.kept k (.inl (by omega))
  have hfile : cur.brXino k = st.brXino k := by rw [brXino, brXino, hsame]
  have hkept : ∀ b, b < k ∨ st.First b → cur.stobr b = st.stobr b := fun b hb =>
    hd.kept b (hb.imp (fun hlt => by omega) id)
  rw [dropShared]
  cases hf : cur.brXino k with
  | none =>
    refine ⟨hd.table, hd.xino, hd.files, hd.nextFile, hkept, fun b hb hin hno => ?_⟩
    rcases Int.lt_or_eq_of_le hb with hlt | rfl
    · exact hd.dropped b (by omega) hin hno
    · exact hf
  | some f =>
    dsimp only
    have hmem : k ∈ (bindexes 0 cur.siBend).filter fun b => (cur.brXino b).any (·.id = f.id) := by
      rw [List.mem_filter, mem_bindexes, hd.table.siBend, hf]
      exact ⟨hk, by simp⟩
    -- who else has the file is an earlier branch, since the later ones dropped it
    have hcount : 1 < cur.fileCount f ↔ ¬st.First k := by
      rw [fileCount, one_lt_length_iff ((nodup_bindexes 0 cur.siBend).filter _) hmem]
      constructor
      · rintro ⟨b, hb, hne⟩ hfirst
        rw [List.mem_filter, mem_bindexes, hd.table.siBend] at hb
        obtain ⟨hin, hany⟩ := hb
        obtain ⟨g, hg, hid⟩ := (Option.any_eq_true _ _).mp hany
        have hid : g.id = f.id := by simpa using hid
        have hfk : st.brXino k = some f := hfile.symm.trans hf
        rcases Int.lt_or_gt_of_ne hne with hlt | hgt
        · have hgb : st.brXino b = some g := by
            rw [brXino, ← hd.kept b (.inl (by omega))]
            exact hg
          exact hfirst b g f hin.1 hlt hgb hfk hid
        · by_cases hb : st.First b
          · have hgb : st.brXino b = some g := by
              rw [brXino, ← hd.kept b (.inr hb)]
              exact hg
            exact hb k f g hk.1 hgt hfk hgb hid.symm
          · rw [hd.dropped b (by omega) hin hb] at hg
            cases hg
      · intro hno
        obtain ⟨c, f', g, h0, hlt, hf', hg, hid⟩ := not_first hno
        obtain rfl := Option.some.inj (hg.symm.trans (hfile.symm.trans hf))
        have hcur : cur.brXino c = some f' := by
          rw [brXino, hd.kept c (.inl (by omega))]
          exact hf'
        refine ⟨c, List.mem_filter.mpr ⟨mem_bindexes.mpr ⟨h0, ?_⟩, ?_⟩, by omega⟩
        · have := hk.2
          rw [hd.table.siBend]
          omega
        · rw [hcur]
          simp [hid]
    split
    case isTrue hlt =>
      have hno := hcount.mp hlt
      refine ⟨hd.table.trans (sameTable_setBranch k fun _ => rfl), hd.xino, hd.files, hd.nextFile,
        fun b hb => ?_, fun b hb hin hnb => ?_⟩
      · have hne : b ≠ k := by
          rintro rfl
          rcases hb with hlt | hb
          · omega
          · exact hno hb
        rw [stobr_setBranch hk.1, if_neg hne]
        exact hkept b hb
      · rw [brXino_setBranch hk.1]
        split
        · cases cur.stobr k <;> rfl
        · exact hd.dropped b (by omega) hin hnb
    case isFalse hlt =>
      have hfirst : st.First k := by_contra fun hno => hlt (hcount.mpr hno)
      refine ⟨hd.table, hd.xino, hd.files, hd.nextFile, hkept, fun b hb hin hno => ?_⟩
      rcases Int.lt_or_eq_of_le hb with hlt | rfl
      · exact hd.dropped b (by omega) hin hno
      · exact absurd hfirst hno

end Sbinfo

-- ---------------------------------------------------------------------------
-- The second loop
-- ---------------------------------------------------------------------------

section

variable (h : Host) (e : XinoSetEnv) (place : XinoPlace)

/-- The new file for a branch can be made, and the copy of its table ends without an error. -/
def Host.Copies (st : Sbinfo) (b : Int) : Prop :=
  (h.sb place.dir.dSb).nfs = false ∧ (∃ rw, e.create b = .ok rw) ∧
    ∀ f, st.brXino b = some f → ∃ c,
      auCopyFile (e.copy b) e.fuel [] (st.files f.id) (st.files f.id).length = some (.ok (), c)

/-- What the second loop relies on: new files offer what a branch needs, and copies end, with
an error of the lower file systems or with all their writes. -/
structure XinoSetEnv.Sane (st : Sbinfo) : Prop where
  usable : e.Usable
  writes : ∀ b, st.InTable b → (e.copy b).Writes
  ends : ∀ b f, st.InTable b → st.brXino b = some f → ∃ r c, r ≠ .error .oops ∧
    auCopyFile (e.copy b) e.fuel [] (st.files f.id) (st.files f.id).length = some (r, c)

/-- The second loop, from `st`, with the branches `todo` still to come. -/
structure Host.Moving (st : Sbinfo) (todo : List Int) (cur : Sbinfo) : Prop where
  table : st.SameTable cur
  xino : cur.xino = st.xino
  next : st.nextFile ≤ cur.nextFile
  files : ∀ id, id < st.nextFile → cur.files id = st.files id
  same : ∀ b, b ∈ todo ∨ st.brXino b = none → cur.stobr b = st.stobr b
  moved : ∀ b br f, st.InTable b → b ∉ todo → st.HasFile b br f → ∃ br' g, cur.HasFile b br' g ∧
    g.place = place ∧ st.nextFile ≤ g.id ∧ g.id < cur.nextFile ∧
    SameEntries (st.files f.id) (cur.files g.id)
  new : ∀ b f, b ∉ todo → cur.brXino b = some f → st.InTable b → f.id < cur.nextFile
  apart : ∀ b c f g, st.InTable b → st.InTable c → b ∉ todo → c ∉ todo → cur.brXino b = some f →
    cur.brXino c = some g → f.id = g.id → b = c

end

section

variable {h : Host} {e : XinoSetEnv} {place : XinoPlace} {st cur : Sbinfo}

/-- A branch without a file needs nothing. -/
theorem Host.Moving.skip {b : Int} {todo : List Int} (hm : Host.Moving place st (b :: todo) cur)
    (hno : st.brXino b = none) : Host.Moving place st todo cur := by
  have hnot : ∀ {c f}, c ∉ todo → cur.brXino c = some f → c ∉ b :: todo := by
    intro c f hc hf hin
    rcases List.mem_cons.mp hin with rfl | hin
    · rw [Sbinfo.brXino, hm.same c (.inr hno)] at hf
      cases hno.symm.trans hf
    · exact hc hin
  refine ⟨hm.table, hm.xino, hm.next, hm.files,
    fun c hc => hm.same c (hc.imp (List.mem_cons_of_mem b) id), fun c br f hc hmem hf => ?_,
    fun c f hc hf => hm.new c f (hnot hc hf) hf,
    fun c d f g hc hd hcm hdm hf hg => hm.apart c d f g hc hd (hnot hcm hf) (hnot hdm hg) hf hg⟩
  refine hm.moved c br f hc (fun hin => ?_) hf
  rcases List.mem_cons.mp hin with rfl | hin
  · cases hno.symm.trans hf.brXino
  · exact hmem hin

/-- A file more, and nothing that a branch has. -/
theorem Host.Moving.more {todo : List Int} (hm : Host.Moving place st todo cur)
    {files : Files} (hfiles : ∀ id, id < cur.nextFile → files id = cur.files id) :
    Host.Moving place st todo { cur with nextFile := cur.nextFile + 1, files := files } where
  table := hm.table.trans (Sbinfo.sameTable_files _ _)
  xino := hm.xino
  next := Nat.le_succ_of_le hm.next
  files id hid := (hfiles id (Nat.lt_of_lt_of_le hid hm.next)).trans (hm.files id hid)
  same := hm.same
  moved b br f hb hmem hf := by
    obtain ⟨br', g, hg, hp, hge, hlt, hs⟩ := hm.moved b br f hb hmem hf
    refine ⟨br', g, ⟨hg.stobr, hg.file, hg.read, hg.write, hg.hasRead, hg.hasWrite⟩, hp, hge,
      Nat.lt_succ_of_lt hlt, ?_⟩
    dsimp only
    rw [hfiles g.id hlt]
    exact hs
  new b f hmem hf hb := Nat.lt_succ_of_lt (hm.new b f hmem hf hb)
  apart := hm.apart

/-- The branch gets the new file. -/
theorem Host.Moving.assign {b : Int} {todo : List Int} {br : AufsBranch} {f : XFile}
    (hm : Host.Moving place st (b :: todo) cur) (hb : st.InTable b) (hnot : b ∉ todo)
    (hf : st.HasFile b br f) {id : Nat} (hge : st.nextFile ≤ id) (hlt : id < cur.nextFile)
    (hfresh : ∀ c g, c ∉ b :: todo → cur.brXino c = some g → st.InTable c → g.id ≠ id)
    (hs : SameEntries (st.files f.id) (cur.files id)) :
    Host.Moving place st todo (cur.setBranch b fun br =>
      { br with brXino := some ⟨id, place, true, true⟩, brXinoRead := true, brXinoWrite := true }) := by
  have hbr : cur.stobr b = some br := (hm.same b (.inl (List.mem_cons_self ..))).trans hf.stobr
  generalize hst' : (cur.setBranch b fun br =>
    { br with brXino := some ⟨id, place, true, true⟩, brXinoRead := true, brXinoWrite := true }) = st'
  have hstobr : ∀ c, st'.stobr c = if c = b then
      some { br with brXino := some ⟨id, place, true, true⟩, brXinoRead := true, brXinoWrite := true }
      else cur.stobr c := by
    intro c
    rw [← hst', Sbinfo.stobr_setBranch hb.1, hbr, Option.map_some]
  have hbrXino : ∀ c, st'.brXino c = if c = b then some ⟨id, place, true, true⟩ else cur.brXino c := by
    intro c
    rw [Sbinfo.brXino, hstobr]
    split <;> rfl
  have hout : ∀ {c}, c ≠ b → c ∉ todo → c ∉ b :: todo := fun hne hc hin =>
    (List.mem_cons.mp hin).elim hne hc
  have hframe : st.SameTable st' ∧ st'.xino = st.xino ∧ st'.nextFile = cur.nextFile ∧
      st'.files = cur.files := by
    rw [← hst']
    exact ⟨hm.table.trans (Sbinfo.sameTable_setBranch b fun _ => rfl), hm.xino, rfl, rfl⟩
  obtain ⟨htable, hxino, hnext, hfiles⟩ := hframe
  refine ⟨htable, hxino, by rw [hnext]; exact hm.next, fun i hi => by rw [hfiles]; exact hm.files i hi,
    fun c hc => ?_, fun c br' f' hc hmem hf' => ?_, fun c g hmem hg hc => ?_,
    fun c d g g' hc hd hcm hdm hg hg' hid => ?_⟩
  · have hne : c ≠ b := by
      rintro rfl
      rcases hc with hc | hc
      · exact hnot hc
      · cases hc.symm.trans hf.brXino
    rw [hstobr, if_neg hne]
    exact hm.same c (hc.imp (List.mem_cons_of_mem b) fun hc => hc)
  · by_cases hcb : c = b
    · subst hcb
      obtain rfl := Option.some.inj (hf'.brXino.symm.trans hf.brXino)
      refine ⟨_, ⟨id, place, true, true⟩, ⟨(hstobr c).trans (if_pos rfl), rfl, rfl, rfl, rfl, rfl⟩, rfl, hge,
        hnext ▸ hlt, ?_⟩
      rw [hfiles]
      exact hs
    · obtain ⟨br'', g, hg, hp, hge, hlt, hs⟩ := hm.moved c br' f' hc (hout hcb hmem) hf'
      refine ⟨br'', g, ⟨((hstobr c).trans (if_neg hcb)).trans hg.stobr, hg.file, hg.read, hg.write, hg.hasRead,
        hg.hasWrite⟩, hp, hge, hnext ▸ hlt, ?_⟩
      rw [hfiles]
      exact hs
  · rw [hnext]
    rw [hbrXino] at hg
    split at hg
    · obtain rfl := Option.some.inj hg
      exact hlt
    case isFalse hcb => exact hm.new c g (hout hcb hmem) hg hc
  · rw [hbrXino] at hg hg'
    split at hg <;> split at hg'
    case isTrue.isTrue hcb hdb => exact hcb.trans hdb.symm
    case isTrue.isFalse hdb =>
      obtain rfl := Option.some.inj hg
      exact absurd hid.symm (hfresh d g' (hout hdb hdm) hg' hd)
    case isFalse.isTrue hcb _ =>
      obtain rfl := Option.some.inj hg'
      exact absurd hid (hfresh c g (hout hcb hcm) hg hc)
    case isFalse.isFalse hcb hdb =>
      exact hm.apart c d g g' hc hd (hout hcb hcm) (hout hdb hdm) hg hg' hid

/-- One round for a branch with a file. -/
theorem Host.Moving.moveFile {b : Int} {todo : List Int} {br : AufsBranch} {f : XFile}
    (hm : Host.Moving place st (b :: todo) cur) (hb : st.InTable b) (hnot : b ∉ todo)
    (hf : st.HasFile b br f) (hold : f.id < st.nextFile) (he : e.Sane st) :
    (h.Copies e place st b → (h.moveFile e place cur b f).1 = .ok () ∧
      Host.Moving place st todo (h.moveFile e place cur b f).2) ∧
    (¬h.Copies e place st b → (∃ err, (h.moveFile e place cur b f).1 = .error err ∧ err ≠ .oops) ∧
      Host.Moving place st (b :: todo) (h.moveFile e place cur b f).2) := by
  have hcopies : h.Copies e place st b ↔ (h.sb place.dir.dSb).nfs = false ∧
      (∃ rw, e.create b = .ok rw) ∧ ∃ c, auCopyFile (e.copy b) e.fuel [] (st.files f.id)
        (st.files f.id).length = some (.ok (), c) := by
    refine and_congr_right fun _ => and_congr_right fun _ => ⟨fun hall => hall f hf.brXino, ?_⟩
    intro hc f' hf'
    obtain rfl := Option.some.inj (hf'.symm.trans hf.brXino)
    exact hc
  rw [hcopies, Host.moveFile]
  unfold Host.xinoCreate2
  by_cases hnfs : (h.sb place.dir.dSb).nfs = true
  · rw [if_pos hnfs]
    exact ⟨(fun hc => by cases hnfs.symm.trans hc.1), fun _ => ⟨⟨_, rfl, fun he => by cases he⟩, hm⟩⟩
  rw [if_neg hnfs]
  have husable := he.usable b
  cases hcreate : e.create b with
  | error err =>
    refine ⟨fun hc => ?_, fun _ => ⟨⟨_, rfl, err.2⟩, hm⟩⟩
    obtain ⟨-, ⟨rw, hrw⟩, -⟩ := hc
    cases hrw
  | ok rw =>
    obtain ⟨hasRead, hasWrite⟩ := rw
    obtain ⟨rfl, rfl⟩ := husable hasRead hasWrite hcreate
    have hne : f.id ≠ cur.nextFile := Nat.ne_of_lt (Nat.lt_of_lt_of_le hold hm.next)
    have hsrc : Function.update cur.files cur.nextFile [] f.id = st.files f.id := by
      rw [Function.update_of_ne hne, hm.files f.id hold]
    obtain ⟨r, c, hr, hcopy⟩ := he.ends b f hb hf.brXino
    dsimp only
    rw [hsrc, Function.update_self, hcopy]
    have hmore : Host.Moving place st (b :: todo)
        { cur with nextFile := cur.nextFile + 1,
                   files := Function.update (Function.update cur.files cur.nextFile [])
                     cur.nextFile c.dst } := by
      refine hm.more fun id hid => ?_
      rw [Function.update_of_ne (Nat.ne_of_lt hid), Function.update_of_ne (Nat.ne_of_lt hid)]
    cases r with
    | error err =>
      refine ⟨fun hc => ?_, fun _ => ⟨⟨err, rfl, fun he => hr (congrArg _ he)⟩, hmore⟩⟩
      obtain ⟨-, -, c', hc'⟩ := hc
      cases hc'
    | ok u =>
      refine ⟨fun _ => ⟨rfl, ?_⟩, fun hno => absurd ⟨by simpa using hnfs, ⟨_, rfl⟩, c, rfl⟩ hno⟩
      refine hmore.assign hb hnot hf hm.next (Nat.lt_succ_self _) (fun c' g hmem hg hc' => ?_) ?_
      · exact Nat.ne_of_lt (hm.new c' g hmem hg hc')
      · dsimp only
        rw [Function.update_self]
        exact auCopyFile_entries (he.writes b hb) hcopy

end

end Aufs
