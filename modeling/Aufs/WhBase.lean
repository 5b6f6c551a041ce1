-- SUMMARY: Whiteout bases and pseudo-link directories against the permissions after a mount or a remount (opts.c, whout.c).
import Aufs.XinoEvents
import Aufs.XinoRest

/-!
# Whiteout bases after the options

`verify_opts` ends both option calls: a branch whose whiteout base or pseudo-link directory
is not what its permission and the mount flag want goes through `init_wh` once more. A mount
returns the error of a failing `init_wh`, a remount drops it.
-/

namespace Aufs

-- ---------------------------------------------------------------------------
-- What the permission wants
-- ---------------------------------------------------------------------------

/-- The whiteout base is there on a `rw` branch and no other, and the pseudo-link directory
on a writable branch under the flag `AuFlag_PLINK` and no other. -/
structure AufsBranch.WhMatches (plink : Bool) (br : AufsBranch) : Prop where
  brWh : br.brWh = true ↔ br.brPerm = .RW
  brPlink : br.brPlink = true ↔ brWritable br.brPerm = true ∧ plink = true

/-- `verify_opts` passes over exactly the branches that have what they want. -/
theorem verifySkip_iff {plink : Bool} {br : AufsBranch} :
    verifySkip plink br = true ↔ br.WhMatches plink := by
  obtain ⟨xino, hasRead, hasWrite, id, perm, mntSb, count, wh, pl⟩ := br
  have hiff : (AufsBranch.mk xino hasRead hasWrite id perm mntSb count wh pl).WhMatches plink ↔
      (wh = true ↔ perm = .RW) ∧ (pl = true ↔ brWritable perm = true ∧ plink = true) :=
    ⟨fun h => ⟨h.brWh, h.brPlink⟩, fun h => ⟨h.1, h.2⟩⟩
  rw [hiff]
  cases perm <;> cases wh <;> cases pl <;> cases plink <;> simp [verifySkip, brWritable]

/-- Does a step that `init_wh` takes for the permission fail? -/
def InitWhEnv.fails (e : InitWhEnv) (plink : Bool) (perm : BrPerm) : Bool :=
  e.lookup.isSome ||
    match perm with
    | .RW => e.linkable.isSome || e.create.isSome || (plink && e.plinkDir.isSome)
    | .RWNoLinkWH => plink && (e.linkable.isSome || e.plinkDir.isSome)
    | _ => false

/-- `init_wh` without a failing step gives the branch what it wants. -/
theorem initWh_ok {e : InitWhEnv} {plink : Bool} {br : AufsBranch}
    (hfails : e.fails plink br.brPerm = false) :
    (initWh e plink br).1 = .ok () ∧ (initWh e plink br).2.WhMatches plink := by
  obtain ⟨lookup, linkable, create, plinkDir⟩ := e
  obtain ⟨xino, hasRead, hasWrite, id, perm, mntSb, count, wh, pl⟩ := br
  rw [← verifySkip_iff]
  cases lookup with
  | some err => cases hfails
  | none =>
    cases perm <;> cases plink <;> cases linkable <;> cases create <;> cases plinkDir <;>
      first
      | exact ⟨rfl, rfl⟩
      | cases hfails

/-- After a failing step the branch is still not what it should be. -/
theorem initWh_error {e : InitWhEnv} {plink : Bool} {br : AufsBranch}
    (hfails : e.fails plink br.brPerm = true) (hskip : verifySkip plink br = false) :
    (∃ err, (initWh e plink br).1 = .error err) ∧ ¬(initWh e plink br).2.WhMatches plink := by
  obtain ⟨lookup, linkable, create, plinkDir⟩ := e
  rw [← verifySkip_iff, Bool.not_eq_true]
  cases lookup with
  | some err => exact ⟨⟨err.1, rfl⟩, hskip⟩
  | none =>
    obtain ⟨xino, hasRead, hasWrite, id, perm, mntSb, count, wh, pl⟩ := br
    cases perm <;> cases plink <;> cases linkable <;> cases create <;> cases plinkDir <;>
      first
      | exact ⟨⟨_, rfl⟩, rfl⟩
      | cases hfails

namespace Sbinfo

/-- The branch at an index has what it wants. -/
def MatchesAt (st : Sbinfo) (b : Int) : Prop := ∃ br, st.stobr b = some br ∧ br.WhMatches st.plink

/-- Every branch has. -/
def WhMatches (st : Sbinfo) : Prop := ∀ b, st.InTable b → st.MatchesAt b

/-- The parent that `lkup_plink` and `whplink` look their name up in. -/
def plinkParent (st : Sbinfo) (bindex : Int) : Except Errno Unit :=
  match st.stobr bindex with
  | none => .error .oops
  | some br => if br.brPlink then .ok () else .error .oops

/-- What `link_or_create_wh` asks for: is there a whiteout base to link? -/
def whBase (st : Sbinfo) (bindex : Int) : Bool := (st.stobr bindex).any AufsBranch.brWh

/-- No pseudo link and no whiteout misses its directory or base. -/
theorem WhMatches.parents {st : Sbinfo} (hst : st.WhMatches) {b : Int} (hb : st.InTable b) {br : AufsBranch}
    (hbr : st.stobr b = some br) :
    (brWritable br.brPerm = true → st.plink = true → st.plinkParent b = .ok ()) ∧
      (br.brPerm = .RW → st.whBase b = true) := by
  obtain ⟨br', hbr', hmatches⟩ := hst b hb
  obtain rfl := Option.some.inj (hbr.symm.trans hbr')
  constructor
  · intro hwritable hplink
    rw [plinkParent, hbr]
    exact if_pos (hmatches.brPlink.mpr ⟨hwritable, hplink⟩)
  · intro hrw
    rw [whBase, hbr, Option.any_some]
    exact hmatches.brWh.mpr hrw

end Sbinfo

-- ---------------------------------------------------------------------------
-- The loop of verify_opts
-- ---------------------------------------------------------------------------

/-- The branch at an index passes `verify_opts`: it is passed over, or no step of its
`init_wh` fails. -/
def Sbinfo.Verifies (e : Int → InitWhEnv) (st : Sbinfo) (b : Int) : Prop :=
  ∃ br, st.stobr b = some br ∧
    (verifySkip st.plink br = true ∨ (e b).fails st.plink br.brPerm = false)

theorem verifyLoop_plink (e : Int → InitWhEnv) (bs : List Int) (st : Sbinfo) :
    (verifyLoop e bs st).2.plink = st.plink ∧ (verifyLoop e bs st).2.siBend = st.siBend := by
  induction bs generalizing st with
  | nil => exact ⟨rfl, rfl⟩
  | cons b bs ih =>
    rw [verifyLoop]
    split
    · exact ⟨rfl, rfl⟩
    split
    · exact ih st
    dsimp only
    split
    · exact ⟨rfl, rfl⟩
    · exact ih (st.setBranch b _)

/-- The loop leaves the branches alone that are not in its list. -/
theorem verifyLoop_other (e : Int → InitWhEnv) {bs : List Int} (hbs : ∀ b ∈ bs, 0 ≤ b) {c : Int}
    (hc : c ∉ bs) (st : Sbinfo) : (verifyLoop e bs st).2.stobr c = st.stobr c := by
  induction bs generalizing st with
  | nil => rfl
  | cons b bs ih =>
    obtain ⟨hb, hbs⟩ := List.forall_mem_cons.mp hbs
    have hcb : c ≠ b := fun he => hc (he ▸ List.mem_cons_self)
    have hrest := ih hbs (fun hmem => hc (List.mem_cons_of_mem b hmem))
    have hset : ∀ br', (st.setBranch b fun _ => br').stobr c = st.stobr c := by
      intro br'
      rw [Sbinfo.stobr_setBranch hb, if_neg hcb]
    rw [verifyLoop]
    split
    · rfl
    split
    · exact hrest st
    dsimp only
    split
    · exact hset _
    · exact (hrest _).trans (hset _)

/-- The loop succeeds just when every branch passes, and then each of them has what it wants.
When it fails, one of them does not pass and has not. -/
theorem verifyLoop_matches (e : Int → InitWhEnv) {bs : List Int} (hbs : ∀ b ∈ bs, 0 ≤ b)
    (hnodup : bs.Nodup) (st : Sbinfo) :
    ((verifyLoop e bs st).1 = .ok () ∧
      ∀ b ∈ bs, st.Verifies e b ∧ (verifyLoop e bs st).2.MatchesAt b) ∨
    ((∃ err, (verifyLoop e bs st).1 = .error err) ∧
      ∃ b ∈ bs, ¬st.Verifies e b ∧ ¬(verifyLoop e bs st).2.MatchesAt b) := by
  induction bs generalizing st with
  | nil => exact .inl ⟨rfl, fun _ hb => absurd hb List.not_mem_nil⟩
  | cons b bs ih =>
    obtain ⟨hb, hbs'⟩ := List.forall_mem_cons.mp hbs
    obtain ⟨hnot, hnodup⟩ := List.nodup_cons.mp hnodup
    rw [verifyLoop]
    cases hbr : st.stobr b with
    | none =>
      refine .inr ⟨⟨.oops, rfl⟩, b, List.mem_cons_self, ?_, ?_⟩
      · rintro ⟨br, hbr', -⟩
        cases hbr.symm.trans hbr'
      · rintro ⟨br, hbr', -⟩
        cases hbr.symm.trans hbr'
    | some br =>
      dsimp only
      cases hskip : verifySkip st.plink br with
      | true =>
        rw [if_pos rfl]
        rcases ih hbs' hnodup st with ⟨hok, hall⟩ | ⟨herr, c, hc, hnone⟩
        · refine .inl ⟨hok, List.forall_mem_cons.mpr ⟨⟨⟨br, hbr, .inl hskip⟩, ⟨br, ?_, ?_⟩⟩, hall⟩⟩
          · exact (verifyLoop_other e hbs' hnot st).trans hbr
          · rw [(verifyLoop_plink e bs st).1]
            exact verifySkip_iff.mp hskip
        · exact .inr ⟨herr, c, List.mem_cons_of_mem b hc, hnone⟩
      | false =>
        rw [if_neg Bool.false_ne_true]
        have hstobr : ∀ br', (st.setBranch b fun _ => br').stobr b = some br' := by
          intro br'
          rw [Sbinfo.stobr_setBranch hb, if_pos rfl, hbr]
          rfl
        cases hfails : (e b).fails st.plink br.brPerm with
        | true =>
          obtain ⟨⟨err, herr⟩, hnone⟩ := initWh_error hfails hskip
          rw [herr]
          refine .inr ⟨⟨err, rfl⟩, b, List.mem_cons_self, ?_, ?_⟩
          · rintro ⟨br', hbr', hpass⟩
            obtain rfl := Option.some.inj (hbr.symm.trans hbr')
            rcases hpass with hpass | hpass
            · cases hskip.symm.trans hpass
            · cases hfails.symm.trans hpass
          · rintro ⟨br', hbr', hmatches⟩
            obtain rfl := Option.some.inj ((hstobr _).symm.trans hbr')
            exact hnone hmatches
        | false =>
          obtain ⟨hok, hmatches⟩ := initWh_ok hfails
          rw [hok]
          dsimp only
          generalize (initWh (e b) st.plink br).2 = br' at *
          -- the other branches of the list are those of before
          have hverifies : ∀ c ∈ bs, ((st.setBranch b fun _ => br').Verifies e c ↔ st.Verifies e c) := by
            intro c hc
            have hcb : c ≠ b := fun he => hnot (he ▸ hc)
            rw [Sbinfo.Verifies, Sbinfo.Verifies, Sbinfo.stobr_setBranch hb, if_neg hcb]
            rfl
          rcases ih hbs' hnodup (st.setBranch b fun _ => br') with ⟨hok, hall⟩ | ⟨herr, c, hc, hpass, hnone⟩
          · refine .inl ⟨hok, List.forall_mem_cons.mpr ⟨⟨⟨br, hbr, .inr hfails⟩, ⟨br', ?_, ?_⟩⟩, ?_⟩⟩
            · exact (verifyLoop_other e hbs' hnot _).trans (hstobr br')
            · rw [(verifyLoop_plink e bs _).1]
              exact hmatches
            · exact fun c hc => ⟨(hverifies c hc).mp (hall c hc).1, (hall c hc).2⟩
          · exact .inr ⟨herr, c, List.mem_cons_of_mem b hc, fun hv => hpass ((hverifies c hc).mpr hv), hnone⟩

/-- `verify_opts` leaves every branch with what it wants just when all of them pass, which is
when it succeeds. -/
theorem verifyOpts_matches (e : Int → InitWhEnv) (st : Sbinfo) :
    ((verifyOpts e st).1 = .ok () ↔ ∀ b, st.InTable b → st.Verifies e b) ∧
      ((verifyOpts e st).2.WhMatches ↔ ∀ b, st.InTable b → st.Verifies e b) := by
  have hbend : (verifyOpts e st).2.siBend = st.siBend := (verifyLoop_plink e _ st).2
  have htable : ∀ b, b ∈ bindexes 0 st.siBend ↔ st.InTable b := fun b => mem_bindexes
  have htable' : ∀ b, (verifyOpts e st).2.InTable b ↔ st.InTable b := by
    intro b
    rw [Sbinfo.InTable, Sbinfo.InTable, hbend]
  have hnodup : (bindexes 0 st.siBend).Nodup :=
    (bindexes_sorted 0 st.siBend).imp fun hlt => Int.ne_of_lt hlt
  rcases verifyLoop_matches e (fun b hb => (mem_bindexes.mp hb).1) hnodup st with
    ⟨hok, hall⟩ | ⟨⟨err, herr⟩, b, hb, hpass, hnone⟩
  · have hpass : ∀ b, st.InTable b → st.Verifies e b := fun b hb => (hall b ((htable b).mpr hb)).1
    refine ⟨⟨fun _ => hpass, fun _ => hok⟩, ⟨fun _ => hpass, fun _ b hb => ?_⟩⟩
    exact (hall b ((htable b).mpr ((htable' b).mp hb))).2
  · refine ⟨⟨fun hok => ?_, fun hall => absurd (hall b ((htable b).mp hb)) hpass⟩,
      ⟨fun hall => ?_, fun hall => absurd (hall b ((htable b).mp hb)) hpass⟩⟩
    · rw [verifyOpts, herr] at hok
      cases hok
    · exact absurd (hall b ((htable' b).mpr ((htable b).mp hb))) hnone

/-- The xino files have no part in it. -/
theorem Sbinfo.SameRest.whMatches {st st' : Sbinfo} (h : st.SameRest st') (hst : st.WhMatches) :
    st'.WhMatches := by
  intro b hb
  obtain ⟨br, hbr, hmatches⟩ := hst b (h.inTable.mp hb)
  obtain ⟨br', hbr', heq⟩ := h.stobr_to hbr
  obtain ⟨-, hperm, -, hwh, hpl⟩ := AufsBranch.of_rest heq
  refine ⟨br', hbr', ?_⟩
  rw [h.plink]
  exact ⟨by rw [hwh, hperm]; exact hmatches.brWh, by rw [hpl, hperm]; exact hmatches.brPlink⟩

-- ---------------------------------------------------------------------------
-- After the options
-- ---------------------------------------------------------------------------

/-- After a mount that succeeds every branch has what it wants. -/
theorem Host.doOptsMount_whMatches {h : Host} {e : Host.MountEnv} {opts : List AuOpt} {st st' : Sbinfo}
    (hok : h.doOptsMount e opts st = (.ok (), st')) : st'.WhMatches := by
  rw [Host.doOptsMount] at hok
  generalize opts.foldl (fun st o => (doOptSimple st o).2) st = st₀ at hok
  cases hbrs : h.mountBrs opts { st₀ with xino := false } with
  | mk r st₁ =>
    rw [hbrs] at hok
    cases r with
    | error err => cases hok
    | ok u =>
      dsimp only at hok
      split at hok
      · cases hok
      cases hxinos : h.mountXinos opts false { st₁ with xino := st₀.xino } with
      | mk r st₂ =>
        rw [hxinos] at hok
        cases r with
        | error err => cases hok
        | ok optXino =>
          dsimp only at hok
          obtain ⟨hverify, hmatches⟩ := verifyOpts_matches e.verify st₂
          cases hres : verifyOpts e.verify st₂ with
          | mk r st₃ =>
            rw [hres] at hok hverify hmatches
            cases r with
            | error err => cases hok
            | ok u =>
              have hxino := @Host.sameRest_enableXino h st₃ e optXino
              have hend : (h.enableXino e optXino st₃).2 = st' := congrArg Prod.snd hok
              rw [hend] at hxino
              exact hxino.whMatches (hmatches.mpr (hverify.mp rfl))

/-- After a remount that succeeds every branch has what it wants just when every branch passed
`verify_opts`. -/
theorem Host.doOptsRemount_whMatches {h : Host} {e : Int → InitWhEnv} {opts : List AuOpt} {st st' : Sbinfo}
    (hok : h.doOptsRemount e opts st = (.ok (), st')) :
    st'.WhMatches ↔
      ∀ b, (h.remountOpts opts st).2.InTable b → (h.remountOpts opts st).2.Verifies e b := by
  rw [Host.doOptsRemount] at hok
  split at hok
  · cases hok
  · rename_i r st₁ _ heq
    have hend : (verifyOpts e st₁).2 = st' := congrArg Prod.snd hok
    rw [heq, ← hend]
    exact (verifyOpts_matches e st₁).2

/-- When a mount succeeds, every branch has the whiteout base and the pseudo-link directory
that its permission and the flag want. When a remount succeeds that is so just when no step
of an `init_wh` failed that `verify_opts` called for. In such a state no pseudo link and no
whiteout meets a missing base. -/
theorem doOpts_whMatches (h : Host) (opts : List AuOpt) (st st' : Sbinfo) :
    (∀ e, h.doOptsMount e opts st = (.ok (), st') → st'.WhMatches) ∧
    (∀ e, h.doOptsRemount e opts st = (.ok (), st') →
      (st'.WhMatches ↔
        ∀ b, (h.remountOpts opts st).2.InTable b → (h.remountOpts opts st).2.Verifies e b)) ∧
    (st'.WhMatches → ∀ b br, st'.InTable b → st'.stobr b = some br →
      (brWritable br.brPerm = true → st'.plink = true → st'.plinkParent b = .ok ()) ∧
        (br.brPerm = .RW → st'.whBase b = true)) :=
  ⟨fun _ hok => Host.doOptsMount_whMatches hok, fun _ hok => Host.doOptsRemount_whMatches hok,
    fun hst _ _ hb hbr => hst.parents hb hbr⟩

/-- A mount of one `rw` branch with `noplink`. -/
def noplinkBranch : Sbinfo :=
  (Host.plain.doOptsMount .fine [.addDir 3 [97] 0 .fine] (.init true false)).2

theorem doOpts_whMatches_noplinkBranch :
    Host.plain.doOptsMount .fine [.addDir 3 [97] 0 .fine] (.init true false) = (.ok (), noplinkBranch) ∧
      noplinkBranch.WhMatches := by
  have hok : Host.plain.doOptsMount .fine [.addDir 3 [97] 0 .fine] (.init true false) =
      (.ok (), noplinkBranch) := Prod.ext (by decide +kernel) rfl
  exact ⟨hok, (doOpts_whMatches Host.plain _ _ noplinkBranch).1 .fine hok⟩

theorem eio_ne_oops : ( Errno.EIO) ≠ .oops := nofun

/-- The directory for pseudo links cannot be made. -/
def InitWhEnv.noPlinkDir : InitWhEnv := ⟨none, none, none, some ⟨ Errno.EIO, eio_ne_oops⟩⟩

/-- A remount turns pseudo links on, and the directory for them cannot be made: the remount
returns 0. The `rw` branch has neither its whiteout base nor the directory, and the next
pseudo link asks for it. -/
theorem doOptsRemount_drops_error :
    (Host.plain.doOptsMount .fine [.addDir 3 [97] 0 .fine] (.init true false)).1 = .ok () ∧
    let r := Host.plain.doOptsRemount (fun _ => .noPlinkDir) [.plink true] noplinkBranch
    r.1 = .ok () ∧ r.2.plink = true ∧
      r.2.stobr 0 = some ⟨some ⟨0, defaultPlace, true, true⟩, true, true, 1, .RW, 3, 0, false, false⟩ ∧
      r.2.plinkParent 0 = .error .oops ∧ r.2.whBase 0 = false ∧ ¬r.2.WhMatches := by
  refine ⟨by decide +kernel, ?_⟩
  have hbr : (Host.plain.doOptsRemount (fun _ => .noPlinkDir) [.plink true] noplinkBranch).2.stobr 0 =
      some ⟨some ⟨0, defaultPlace, true, true⟩, true, true, 1, .RW, 3, 0, false, false⟩ := by
    decide +kernel
  refine ⟨by decide +kernel, by decide +kernel, hbr, by decide +kernel, by decide +kernel, fun hst => ?_⟩
  obtain ⟨br, hbr', hmatches⟩ := hst 0 ⟨by decide, by decide +kernel⟩
  obtain rfl := Option.some.inj (hbr.symm.trans hbr')
  exact Bool.false_ne_true (hmatches.brWh.mpr rfl)

end Aufs
