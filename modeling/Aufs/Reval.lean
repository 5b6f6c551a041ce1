-- SUMMARY: The revalidation of a path (au_reval_dpath): which ancestors it refreshes, in which order, and when it leaves none of them old.
import Mathlib.Data.BitVec
import Aufs.Refresh
import Aufs.Inode

/-!
# Revalidating a path

After the branch table changed a cached dentry is of an old generation. `au_reval_dpath`
refreshes it, and, where `refresh_dir` failed, its ancestors before it: it looks for the
first dentry upwards whose parent is current and refreshes that one, until the dentry it
was called for is current. It never looks above a current dentry.
-/

namespace Aufs

/-- `AufsGenYounger`: the difference of two `int`, which wraps. -/
def aufsGenYounger (a b : BitVec 32) : Bool := (b - a).toInt < 0

/-- `AufsGenOlder` -/
def aufsGenOlder (a b : BitVec 32) : Bool := aufsGenYounger b a

/-- `au_sigen`, an `int` -/
def SuperBlock.auSigen (sb : SuperBlock) : BitVec 32 := .ofInt 32 sb.generation

theorem ne_of_aufsGenOlder {a b : BitVec 32} (h : aufsGenOlder a b = true) : a ≠ b := by
  rintro rfl
  simp [aufsGenOlder, aufsGenYounger] at h

namespace Reval

/-- A cached dentry with its inode. `type` is `i_mode & S_IFMT`. -/
structure PathDentry where
  name : Name
  type : FType
  di : Dinfo
  digen : BitVec 32
  inode : Inode

/-- A call of `au_refresh_hdentry`: how far above the first dentry of the path it is made, and
the parent and the dentry as they are then. -/
structure RefreshCall where
  depth : Nat
  parent : PathDentry
  d : PathDentry

/-- The path from the dentry up to the one below the root, and what was called, last one first. -/
structure RevalSt where
  path : List PathDentry
  w : World
  calls : List RefreshCall

/-- A dentry of the path, with those below it and those above. -/
structure Place where
  below : List PathDentry
  d : PathDentry
  above : List PathDentry

-- ---------------------------------------------------------------------------
-- The functions
-- ---------------------------------------------------------------------------

/-- `d_parent` -/
def Place.dParent (root : PathDentry) (p : Place) : PathDentry := p.above.headD root

/-- One more dentry below. -/
def Place.under (d : PathDentry) (p : Place) : Place := { p with below := d :: p.below }

/-- `au_refresh_hdentry`, which ends with `au_update_digen` if it does not fail, and then
`au_refresh_hinode`. -/
def refresh (sb : SuperBlock) (parent d : PathDentry) (w : World) :
    Except Errno Unit × PathDentry × World :=
  match auRefreshHdentry sb d.name parent.di d.di d.type w with
  | (.error e, di, w) => (.error e, { d with di }, w)
  | (.ok _, di, w) =>
    match w.ask with
    | (e, w) =>
      match auRefreshHinode sb e.isNone d.inode di with
      | (r, inode, _) => (r, { d with di, digen := sb.auSigen, inode }, w)

/-- The dentry at a place of the path is refreshed. -/
def refreshAt (sb : SuperBlock) (root : PathDentry) (p : Place) (s : RevalSt) :
    Except Errno Unit × RevalSt :=
  match refresh sb (p.dParent root) p.d s.w with
  | (r, d, w) =>
    (r, ⟨p.below ++ d :: p.above, w, ⟨p.below.length, p.dParent root, p.d⟩ :: s.calls⟩)

/-- `simple_reval_dpath`. The path of the root is empty, and the root is current. -/
def simpleRevalDpath (sb : SuperBlock) (sgen : BitVec 32) (root : PathDentry) (s : RevalSt) :
    Except Errno Unit × RevalSt :=
  match s.path with
  | [] => (.ok (), s)
  | d :: up => if aufsGenOlder d.digen sgen then refreshAt sb root ⟨[], d, up⟩ s else (.ok (), s)

/-- The inner loop of `au_reval_dpath`: up to the first dentry whose parent is of the generation.
`none` when the root is not: it is its own parent, and the loop stays there. -/
def climb (sgen : BitVec 32) (root : PathDentry) : List PathDentry → Option Place
  | [] => none
  | d :: up =>
    if (up.headD root).digen = sgen then some ⟨[], d, up⟩ else (climb sgen root up).map (Place.under d)

/-- The slow loop of `au_reval_dpath`. `none` when the fuel does not reach the end. -/
def slowLoop (sb : SuperBlock) (sgen : BitVec 32) (root : PathDentry) (fuel : Nat) (s : RevalSt) :
    Option (Except Errno Unit × RevalSt) :=
  if (s.path.headD root).digen = sgen then some (.ok (), s)
  else
    match fuel, climb sgen root s.path with
    | fuel + 1, some p =>
      if aufsGenOlder p.d.digen sgen then
        match refreshAt sb root p s with
        | (.error e, s) => some (.error e, s)
        | (.ok (), s) => slowLoop sb sgen root fuel s
      else slowLoop sb sgen root fuel s
    | _, _ => none

/-- `au_reval_dpath`; `failed` is `si_failed_refresh_dirs`. -/
def auRevalDpath (sb : SuperBlock) (failed : Bool) (sgen : BitVec 32) (root : PathDentry) (fuel : Nat)
    (s : RevalSt) : Option (Except Errno Unit × RevalSt) :=
  if failed then slowLoop sb sgen root fuel s else some (simpleRevalDpath sb sgen root s)

variable {sb : SuperBlock} {sgen : BitVec 32} {root : PathDentry}

-- ---------------------------------------------------------------------------
-- The remapping loop ends below any parent
-- ---------------------------------------------------------------------------

/-- The hidden dentry is where `parent` has the parent of it. -/
def atHome (parent : Dinfo) (k : Int) (h : HDentry) : Bool := (parent.hDptrI k).any h.dParent.same

/-- No two hidden dentries have one parent. -/
def OneEach (s : Int → Option HDentry) : Prop :=
  ∀ b c h k, s b = some h → s c = some k → h.dParent.same k.dParent → b = c

/-- What is left of the loop: the hidden dentries of other slots and the way to the end. -/
def left (parent : Dinfo) (N : Int) (st : HdentryLoop) : Nat :=
  (Remap.strays (atHome parent) 0 N st.hdentry).card + (N + 1 - st.bindex).toNat

theorem left_le {parent : Dinfo} {N : Int} {st : HdentryLoop} (h : 0 ≤ st.bindex) :
    left parent N st ≤ 2 * (N + 1).toNat := by
  have hcard := Remap.card_strays_le (atHome parent) 0 N st.hdentry
  simp only [left]
  omega

theorem sameDentry_comm (h k : HDentry) : h.same k = k.same h := by
  simp only [HDentry.same, eq_comm]

theorem sameDentry_trans {h k l : HDentry} (hk : h.same k) (hl : k.same l) : h.same l := by
  rw [HDentry.same_iff] at *
  exact ⟨hk.1.trans hl.1, hk.2.trans hl.2⟩

/-- Two hidden dentries at home in one slot have one parent. -/
theorem same_of_atHome {parent : Dinfo} {j : Int} {h k : HDentry} (hh : atHome parent j h)
    (hk : atHome parent j k) : h.dParent.same k.dParent := by
  obtain ⟨x, hx, hs⟩ := (Option.any_eq_true _ _).mp hh
  obtain ⟨y, hy, ht⟩ := (Option.any_eq_true _ _).mp hk
  obtain rfl := Option.some.inj (hx.symm.trans hy)
  exact sameDentry_trans hs (sameDentry_comm _ _ ▸ ht)

/-- `au_find_dbindex` finds a slot at which the hidden dentry is at home. -/
theorem atHome_findDbindex {parent : Dinfo} {h : HDentry} (h0 : 0 ≤ parent.findDbindex h.dParent) :
    atHome parent (parent.findDbindex h.dParent) h ∧ parent.findDbindex h.dParent ≤ parent.bend := by
  revert h0
  unfold Dinfo.findDbindex
  cases hfind : (bindexes parent.bstart parent.bend).find? fun b => (parent.hDptrI b).any h.dParent.same with
  | none =>
      intro h0
      rw [Option.getD_none] at h0
      omega
  | some c =>
      intro _
      obtain ⟨hany, -, hle, -⟩ := find?_bindexes.mp hfind
      exact ⟨hany, hle⟩

theorem OneEach.update {s : Int → Option HDentry} (h : OneEach s) (i : Int) :
    OneEach (Function.update s i none) := by
  intro b c x y hb hc hxy
  refine h b c x y ?_ ?_ hxy
  · by_cases hi : b = i
    · simp [hi] at hb
    · simpa [hi] using hb
  · by_cases hi : c = i
    · simp [hi] at hc
    · simpa [hi] using hc

theorem OneEach.swap {s : Int → Option HDentry} (h : OneEach s) (i j : Int) :
    OneEach (Remap.swap s i j) := by
  intro b c x y hb hc hxy
  exact (Equiv.swap i j).injective (h _ _ x y hb hc hxy)

/-- One round: a swap brings a hidden dentry home and none away from home, and every other
round goes on. -/
theorem hdentryBody_left {parent d : Dinfo} {N : Int} {st : HdentryLoop} (hone : OneEach st.hdentry)
    (h0 : 0 ≤ st.bindex) (hle : st.bindex ≤ N) (hN : parent.bend ≤ N) :
    OneEach (hdentryBody parent d st).hdentry ∧ 0 ≤ (hdentryBody parent d st).bindex ∧
      left parent N (hdentryBody parent d st) < left parent N st := by
  have hgoes : ∀ st' : HdentryLoop, st'.bindex = st.bindex + 1 →
      Remap.strays (atHome parent) 0 N st'.hdentry ⊆ Remap.strays (atHome parent) 0 N st.hdentry →
      0 ≤ st'.bindex ∧ left parent N st' < left parent N st := by
    intro st' hst' hsub
    have := Finset.card_le_card hsub
    simp only [left, hst']
    omega
  unfold hdentryBody
  cases hx : st.hdentry st.bindex with
  | none => exact ⟨hone, hgoes _ rfl (Finset.Subset.refl _)⟩
  | some x =>
      dsimp only
      split
      case isTrue hany => exact ⟨hone, hgoes _ rfl (Finset.Subset.refl _)⟩
      case isFalse hany =>
        have haway : atHome parent st.bindex x = false := by simpa [atHome] using hany
        split
        case isTrue hneg => exact ⟨hone.update _, hgoes _ rfl Remap.strays_update_subset⟩
        case isFalse hneg =>
          obtain ⟨hhome, htop⟩ := @atHome_findDbindex parent x (by omega)
          generalize parent.findDbindex x.dParent = j at hneg hhome htop
          refine ⟨hone.swap _ _, ?_⟩
          cases hy : st.hdentry j with
          | none => exact hgoes _ (by simp) (Remap.strays_swap_subset hx haway hhome)
          | some y =>
              -- what was in the slot was not at home there
              have hy' : atHome parent j y = false := by
                by_contra hyhome
                obtain rfl := hone j st.bindex y x hy hx (same_of_atHome (by simpa using hyhome) hhome)
                exact absurd (haway.symm.trans hhome) (by decide)
              have hin : 0 ≤ j ∧ j ≤ N := by omega
              have hless := Remap.card_strays_swap_lt hx haway hhome hin hy hy'
              simp only [left, Option.isSome_some, if_true]
              omega

theorem hdentryLoop_ends {parent d : Dinfo} {fuel : Nat} {st : HdentryLoop} (hone : OneEach st.hdentry)
    (h0 : 0 ≤ st.bindex) (hfuel : left parent (max d.bend parent.bend) st ≤ fuel) :
    (hdentryLoop parent d fuel st).isSome := by
  induction fuel generalizing st with
  | zero =>
      have hgt : ¬ st.bindex ≤ d.bend := by
        simp only [left] at hfuel
        omega
      simp [hdentryLoop, hgt]
  | succ fuel ih =>
      rw [hdentryLoop]
      split
      case isTrue hle =>
        obtain ⟨hone', h0', hless⟩ :=
          @hdentryBody_left parent d (max d.bend parent.bend) st hone h0 (by omega) (by omega)
        exact ih hone' h0' (by omega)
      case isFalse hgt => rfl

-- ---------------------------------------------------------------------------
-- What is to hold of a revalidation
-- ---------------------------------------------------------------------------

/-- What a dentry and its inode keep between two calls. -/
structure PathDentry.Wf (d : PathDentry) : Prop where
  nonneg : 0 ≤ d.di.bstart
  oneEach : OneEach d.di.hdentry
  ii : d.inode.ii.Wf

/-- What a lookup leaves has one hidden dentry for each hidden parent. -/
theorem oneEach_of_looked {w : World} {d : Dinfo} {name : Name} {type : FType}
    (hd : d.Looked w name type) : OneEach d.hdentry := by
  intro b c h k hb hc hsame
  rw [HDentry.same_iff] at hsame
  obtain ⟨p, -, hp, -⟩ := hd.slots b h hb
  obtain ⟨q, -, hq, -⟩ := hd.slots c k hc
  refine hd.distinct b c h k hb hc hsame.1 ?_
  have hpq : h.path.dropLast = k.path.dropLast := hsame.2
  rw [hp, hq, List.dropLast_concat, List.dropLast_concat] at hpq
  rw [hp, hq, hpq]

/-- The two remapping loops of the call end. -/
structure RefreshCall.LoopsEnd (sb : SuperBlock) (c : RefreshCall) : Prop where
  hdentry : ∀ p, kzrealloc true (c.d.di.bend + 1) (sb.sbend + 1) c.d.di.hdentry = some p →
    (hdentryLoop c.parent.di c.d.di (hdentryFuel c.parent.di c.d.di)
      ⟨p, c.d.di.bstart, c.d.di.bwh, c.d.di.bdiropq, []⟩).isSome
  hinode : ∀ p, kzrealloc true (c.d.inode.ii.bend + 1) (sb.sbend + 1) c.d.inode.ii.hinode = some p →
    (hinodeLoop sb (hinodeFuel sb { c.d.inode.ii with hinode := p })
      ⟨{ c.d.inode.ii with hinode := p }, c.d.inode.ii.bstart, 0, []⟩).isSome

/-- A revalidation of `path` that works from the top. An error comes from the last call. -/
structure FromTop (sb : SuperBlock) (path : List PathDentry) (r : Except Errno Unit) (s' : RevalSt) :
    Prop where
  parents : ∀ c ∈ s'.calls, c.parent.digen = sb.auSigen
  loops : ∀ c ∈ s'.calls, c.LoopsEnd sb
  length : s'.path.length = path.length
  ok : r = .ok () → ∀ d ∈ s'.path, d.digen = sb.auSigen
  error : ∀ e, r = .error e → ∃ c rest, s'.calls = c :: rest ∧
    (∀ i d, c.depth < i → s'.path[i]? = some d → d.digen = sb.auSigen) ∧
    ∀ i < c.depth, s'.path[i]? = path[i]?

/-- `au_reval_dpath` returns, and has worked from the top. -/
def Revalidates (sb : SuperBlock) (failed : Bool) (root : PathDentry) (path : List PathDentry)
    (w : World) : Prop :=
  ∃ n r s', (∀ fuel ≥ n, auRevalDpath sb failed sb.auSigen root fuel ⟨path, w, []⟩ = some (r, s')) ∧
    FromTop sb path r s'

/-- With `si_failed_refresh_dirs` no current dentry is below an old one; without it every
ancestor is current. -/
def Settled (sgen : BitVec 32) (failed : Bool) (path : List PathDentry) : Prop :=
  if failed then path.Pairwise fun a b => a.digen = sgen → b.digen = sgen
  else ∀ d ∈ path.tail, d.digen = sgen

theorem PathDentry.Wf.loopsEnd {d : PathDentry} (h : d.Wf) (parent : PathDentry) (depth : Nat) :
    RefreshCall.LoopsEnd sb ⟨depth, parent, d⟩ where
  hdentry := by
    intro p hp
    have hone : OneEach p := by
      intro b c x y hb hc
      have hkept : ∀ {i z}, p i = some z → d.di.hdentry i = some z := by
        intro i z hi
        unfold kzrealloc at hp
        split at hp
        · exact Option.some.inj hp ▸ hi
        · rw [if_pos rfl, Option.some.injEq] at hp
          rw [← hp] at hi
          dsimp only at hi
          split at hi
          · cases hi
          · exact hi
      exact h.oneEach b c x y (hkept hb) (hkept hc)
    refine hdentryLoop_ends hone h.nonneg ((left_le h.nonneg).trans (le_of_eq rfl))
  hinode := by
    intro p hp
    obtain rfl := kzrealloc_eq (fun b (hb : d.inode.ii.bend + 1 ≤ b) => by
      by_contra hne
      have := (h.ii.range b (Option.isSome_iff_ne_none.mpr hne)).2
      omega) hp
    obtain ⟨st, hst, -⟩ := hinodeLoop_terminates sb h.ii
    exact Option.isSome_iff_exists.mpr ⟨st, hst⟩

-- ---------------------------------------------------------------------------
-- One round
-- ---------------------------------------------------------------------------

/-- A refresh that does not fail leaves the generation of the superblock. -/
theorem refresh_ok {parent d d' : PathDentry} {w w' : World}
    (h : refresh sb parent d w = (.ok (), d', w')) : d'.digen = sb.auSigen := by
  unfold refresh at h
  cases hh : auRefreshHdentry sb d.name parent.di d.di d.type w with
  | mk r rest =>
      rw [hh] at h
      cases r with
      | error e => cases h
      | ok n =>
          simp only [Prod.mk.injEq] at h
          rw [← h.2.1]

/-- The inner loop goes up to the last of the dentries that are not current. -/
theorem climb_append {low : List PathDentry} {d : PathDentry} {above : List PathDentry}
    (hlow : ∀ x ∈ low, x.digen ≠ sgen) (hd : d.digen ≠ sgen) (habove : (above.headD root).digen = sgen) :
    climb sgen root (low ++ d :: above) = some ⟨low, d, above⟩ := by
  induction low with
  | nil => simp only [List.nil_append, climb, if_pos habove]
  | cons x low ih =>
      have hnext : ((low ++ d :: above).headD root).digen ≠ sgen := by
        cases low with
        | nil => exact hd
        | cons y low => exact hlow y (by simp)
      rw [List.cons_append, climb, if_neg hnext, ih fun y hy => hlow y (by simp [hy])]
      rfl

/-- What the slow loop leaves of the dentries below a current one: it refreshes them from the
top, and an error is that of the last call. -/
structure Climbed (sgen : BitVec 32) (low above : List PathDentry) (calls : List RefreshCall)
    (r : Except Errno Unit) (s' : RevalSt) (low' : List PathDentry) : Prop where
  path : s'.path = low' ++ above
  length : low'.length = low.length
  calls : ∃ new, s'.calls = new ++ calls ∧ ∀ c ∈ new, c.parent.digen = sgen ∧ c.d ∈ low
  ok : r = .ok () → ∀ d ∈ low', d.digen = sgen
  error : ∀ e, r = .error e → ∃ c rest, s'.calls = c :: rest ∧ c.depth < low.length ∧
    (∀ i d, c.depth < i → low'[i]? = some d → d.digen = sgen) ∧ ∀ i < c.depth, low'[i]? = low[i]?


theorem slowLoop_current {fuel : Nat} {s : RevalSt} (h : (s.path.headD root).digen = sgen) :
    slowLoop sb sgen root fuel s = some (.ok (), s) := by
  rw [slowLoop.eq_def, if_pos h]

theorem slowLoop_ok {fuel : Nat} {s s₁ : RevalSt} {p : Place} (hne : (s.path.headD root).digen ≠ sgen)
    (hp : climb sgen root s.path = some p) (hold : aufsGenOlder p.d.digen sgen)
    (h : refreshAt sb root p s = (.ok (), s₁)) :
    slowLoop sb sgen root (fuel + 1) s = slowLoop sb sgen root fuel s₁ := by
  rw [slowLoop.eq_def, if_neg hne, hp]
  dsimp only
  rw [if_pos hold, h]

theorem slowLoop_error {fuel : Nat} {s s₁ : RevalSt} {p : Place} {e : Errno}
    (hne : (s.path.headD root).digen ≠ sgen) (hp : climb sgen root s.path = some p)
    (hold : aufsGenOlder p.d.digen sgen) (h : refreshAt sb root p s = (.error e, s₁)) :
    slowLoop sb sgen root (fuel + 1) s = some (.error e, s₁) := by
  rw [slowLoop.eq_def, if_neg hne, hp]
  dsimp only
  rw [if_pos hold, h]

/-- The slow loop over the dentries that are not current below one that is. The induction
takes them from the top. -/
theorem slowLoop_climbed {low above : List PathDentry} {s : RevalSt}
    (habove : (above.headD root).digen = sb.auSigen)
    (hlow : ∀ d ∈ low, aufsGenOlder d.digen sb.auSigen) (hpath : s.path = low ++ above) :
    ∃ r s' low', (∀ fuel ≥ low.length, slowLoop sb sb.auSigen root fuel s = some (r, s')) ∧
      Climbed sb.auSigen low above s.calls r s' low' := by
  induction low using List.reverseRecOn generalizing above s with
  | nil =>
      refine ⟨.ok (), s, [], fun fuel _ => slowLoop_current (by rw [hpath]; exact habove), hpath, rfl,
        ⟨[], rfl, by simp⟩, by simp, fun e he => by cases he⟩
  | append_singleton low d ih =>
      rw [List.append_assoc, List.singleton_append] at hpath
      have hsucc : ∀ fuel ≥ (low ++ [d]).length, ∃ n ≥ low.length, fuel = n + 1 := by
        intro fuel hfuel
        rw [List.length_append, List.length_singleton] at hfuel
        exact ⟨fuel - 1, by omega, by omega⟩
      have hd : aufsGenOlder d.digen sb.auSigen := hlow d (by simp)
      have hlow' : ∀ x ∈ low, aufsGenOlder x.digen sb.auSigen := fun x hx => hlow x (by simp [hx])
      have hne : (s.path.headD root).digen ≠ sb.auSigen := by
        rw [hpath]
        cases low with
        | nil => exact ne_of_aufsGenOlder hd
        | cons x low => exact ne_of_aufsGenOlder (hlow' x (by simp))
      have hclimb : climb sb.auSigen root s.path = some ⟨low, d, above⟩ := by
        rw [hpath]
        exact climb_append (fun x hx => ne_of_aufsGenOlder (hlow' x hx)) (ne_of_aufsGenOlder hd) habove
      cases hr : refresh sb (above.headD root) d s.w with
      | mk r rest =>
          obtain ⟨d', w'⟩ := rest
          have hat : refreshAt sb root ⟨low, d, above⟩ s =
              (r, ⟨low ++ d' :: above, w', ⟨low.length, above.headD root, d⟩ :: s.calls⟩) := by
            simp only [refreshAt, Place.dParent, hr]
          cases r with
          | error e =>
              refine ⟨.error e, ⟨low ++ d' :: above, w', ⟨low.length, above.headD root, d⟩ :: s.calls⟩,
                low ++ [d'], fun fuel hfuel => ?_, by simp, by simp, ⟨[_], rfl, ?_⟩, (fun h => by cases h),
                fun e' he => ⟨_, _, rfl, by simp, ?_, ?_⟩⟩
              · obtain ⟨n, -, rfl⟩ := hsucc fuel hfuel
                exact slowLoop_error hne hclimb hd hat
              · intro c hm
                rw [List.mem_singleton.mp hm]
                exact ⟨habove, by simp⟩
              · intro i x hi hx
                have hlen := (List.getElem?_eq_some_iff.mp hx).1
                simp only [List.length_append, List.length_singleton] at hlen hi
                omega
              · intro i hi
                simp only at hi
                rw [List.getElem?_append_left hi, List.getElem?_append_left hi]
          | ok u =>
              have hcur : d'.digen = sb.auSigen := refresh_ok hr
              obtain ⟨r, s', low', hloop, hc⟩ := @ih (d' :: above)
                ⟨low ++ d' :: above, w', ⟨low.length, above.headD root, d⟩ :: s.calls⟩ hcur hlow' rfl
              obtain ⟨new, hnew, hcalls⟩ := hc.calls
              refine ⟨r, s', low' ++ [d'], fun fuel hfuel => ?_,
                by rw [hc.path, List.append_assoc, List.singleton_append], by simp [hc.length],
                ⟨new ++ [⟨low.length, above.headD root, d⟩], by simp [hnew], ?_⟩, ?_, ?_⟩
              · obtain ⟨n, hn, rfl⟩ := hsucc fuel hfuel
                rw [slowLoop_ok hne hclimb hd hat, hloop n hn]
              · intro c hm
                rcases List.mem_append.mp hm with hm | hm
                · exact ⟨(hcalls c hm).1, List.mem_append_left _ (hcalls c hm).2⟩
                · rw [List.mem_singleton.mp hm]
                  exact ⟨habove, by simp⟩
              · intro hr x hx
                rcases List.mem_append.mp hx with hx | hx
                · exact hc.ok hr x hx
                · exact List.mem_singleton.mp hx ▸ hcur
              · intro e he
                obtain ⟨c, rest, hcs, hdepth, habv, hbel⟩ := hc.error e he
                have hlen := hc.length
                refine ⟨c, rest, hcs, by simp; omega, fun i x hi hx => ?_, fun i hi => ?_⟩
                · by_cases hlt : i < low'.length
                  · exact habv i x hi (by rwa [List.getElem?_append_left hlt] at hx)
                  · rw [List.getElem?_append_right (by omega)] at hx
                    have := List.mem_of_getElem? hx
                    exact List.mem_singleton.mp this ▸ hcur
                · rw [List.getElem?_append_left (by omega), List.getElem?_append_left (by omega)]
                  exact hbel i hi


-- ---------------------------------------------------------------------------
-- The whole revalidation
-- ---------------------------------------------------------------------------

/-- A path is the dentries up to the first current one, and the rest. -/
theorem exists_split (hroot : root.digen = sgen) (path : List PathDentry) :
    ∃ low above, path = low ++ above ∧ (∀ d ∈ low, d.digen ≠ sgen) ∧
      (above.headD root).digen = sgen := by
  induction path with
  | nil => exact ⟨[], [], rfl, by simp, hroot⟩
  | cons d path ih =>
      by_cases hd : d.digen = sgen
      · exact ⟨[], d :: path, rfl, by simp, hd⟩
      · obtain ⟨low, above, rfl, hlow, habove⟩ := ih
        refine ⟨d :: low, above, rfl, fun x hx => ?_, habove⟩
        rcases List.mem_cons.mp hx with rfl | hx
        · exact hd
        · exact hlow x hx

/-- No current dentry is below an old one if all those above the first current one are current. -/
theorem settled_append_iff {low above : List PathDentry} (hlow : ∀ d ∈ low, d.digen ≠ sgen)
    (habove : (above.headD root).digen = sgen) :
    Settled sgen true (low ++ above) ↔ ∀ d ∈ above, d.digen = sgen := by
  unfold Settled
  rw [if_pos rfl, List.pairwise_append]
  constructor
  · rintro ⟨-, hp, -⟩ d hd
    cases above with
    | nil => cases hd
    | cons a above =>
        rcases List.mem_cons.mp hd with rfl | hd
        · exact habove
        · exact (List.pairwise_cons.mp hp).1 d hd habove
  · intro hall
    refine ⟨?_, ?_, fun a ha b hb _ => hall b hb⟩
    · exact List.pairwise_of_forall_mem_list fun a ha b _ hcur => absurd hcur (hlow a ha)
    · exact List.pairwise_of_forall_mem_list fun a _ b hb _ => hall b hb

/-- The slow loop has worked from the top if it left no old dentry above. -/
theorem Climbed.fromTop {low above low' : List PathDentry} {r : Except Errno Unit} {s' : RevalSt}
    (h : Climbed sb.auSigen low above [] r s' low') (hwf : ∀ d ∈ low, d.Wf)
    (habove : ∀ d ∈ above, d.digen = sb.auSigen) : FromTop sb (low ++ above) r s' := by
  obtain ⟨new, hnew, hcalls⟩ := h.calls
  rw [List.append_nil] at hnew
  have hlen := h.length
  refine ⟨fun c hc => (hcalls c (hnew ▸ hc)).1, fun c hc => ?_, ?_, fun hr d hd => ?_, fun e he => ?_⟩
  · exact (hwf c.d (hcalls c (hnew ▸ hc)).2).loopsEnd c.parent c.depth
  · rw [h.path, List.length_append, List.length_append, hlen]
  · rw [h.path] at hd
    exact (List.mem_append.mp hd).elim (h.ok hr d) (habove d)
  · obtain ⟨c, rest, hcs, hdepth, habv, hbel⟩ := h.error e he
    refine ⟨c, rest, hcs, fun i d hi hd => ?_, fun i hi => ?_⟩
    · rw [h.path] at hd
      by_cases hlt : i < low'.length
      · exact habv i d hi (by rwa [List.getElem?_append_left hlt] at hd)
      · rw [List.getElem?_append_right (by omega)] at hd
        exact habove d (List.mem_of_getElem? hd)
    · rw [h.path, List.getElem?_append_left (by omega), List.getElem?_append_left (by omega)]
      exact hbel i hi

/-- What is above the first current dentry stays as it is, whether the loop fails or not. -/
theorem Climbed.above_current {low above low' : List PathDentry} {r : Except Errno Unit} {s' : RevalSt}
    (h : Climbed sb.auSigen low above [] r s' low') (htop : FromTop sb (low ++ above) r s') :
    ∀ d ∈ above, d.digen = sb.auSigen := by
  intro d hd
  cases r with
  | ok u => exact htop.ok rfl d (by rw [h.path]; exact List.mem_append_right _ hd)
  | error e =>
      obtain ⟨c, rest, hcs, hdepth, -⟩ := h.error e rfl
      obtain ⟨c', rest', hcs', habv, -⟩ := htop.error e rfl
      obtain ⟨rfl, -⟩ := List.cons.inj (hcs'.symm.trans hcs)
      obtain ⟨i, hi⟩ := List.mem_iff_getElem?.mp hd
      have hlen := h.length
      refine habv (low'.length + i) d (by omega) ?_
      rw [h.path, List.getElem?_append_right (by omega), Nat.add_sub_cancel_left, hi]

/-- Without the flag, the first dentry alone is refreshed, so its ancestors have to be current. -/
theorem simpleRevalDpath_fromTop_iff {path : List PathDentry} {w : World}
    (hmix : ∀ d ∈ path, d.digen = sb.auSigen ∨ aufsGenOlder d.digen sb.auSigen)
    (hroot : root.digen = sb.auSigen) (hwf : ∀ d ∈ path, d.Wf) {r : Except Errno Unit} {s' : RevalSt}
    (h : simpleRevalDpath sb sb.auSigen root ⟨path, w, []⟩ = (r, s')) :
    FromTop sb path r s' ↔ ∀ d ∈ path.tail, d.digen = sb.auSigen := by
  cases path with
  | nil =>
      simp only [simpleRevalDpath, Prod.mk.injEq] at h
      obtain ⟨rfl, rfl⟩ := h
      exact iff_of_true ⟨by simp, by simp, rfl, by simp, fun e he => by cases he⟩ (by simp)
  | cons d up =>
      simp only [simpleRevalDpath] at h
      split at h
      case isFalse hold =>
        simp only [Prod.mk.injEq] at h
        obtain ⟨rfl, rfl⟩ := h
        have hcur : d.digen = sb.auSigen := (hmix d (by simp)).resolve_right hold
        constructor
        · intro htop x hx
          exact htop.ok rfl x (List.mem_cons_of_mem d hx)
        · intro hall
          refine ⟨by simp, by simp, rfl, fun _ x hx => ?_, fun e he => by cases he⟩
          rcases List.mem_cons.mp hx with rfl | hx
          · exact hcur
          · exact hall x hx
      case isTrue hold =>
        cases hr : refresh sb (up.headD root) d w with
        | mk r' rest =>
            obtain ⟨d', w'⟩ := rest
            simp only [refreshAt, Place.dParent, hr, Prod.mk.injEq, List.nil_append,
              List.length_nil] at h
            obtain ⟨rfl, rfl⟩ := h
            constructor
            · intro htop x hx
              obtain ⟨i, hi⟩ := List.mem_iff_getElem?.mp hx
              cases r' with
              | ok u => exact htop.ok rfl x (List.mem_cons_of_mem d' hx)
              | error e =>
                  obtain ⟨c, rest, hcs, habv, -⟩ := htop.error e rfl
                  obtain ⟨rfl, -⟩ := List.cons.inj hcs
                  exact habv (i + 1) x (by simp) hi
            · intro hall
              have hparent : (up.headD root).digen = sb.auSigen := by
                cases up with
                | nil => exact hroot
                | cons p up => exact hall p (by simp)
              refine ⟨fun c hc => ?_, fun c hc => ?_, rfl, fun hok x hx => ?_, fun e he => ?_⟩
              · exact List.mem_singleton.mp hc ▸ hparent
              · rw [List.mem_singleton.mp hc]
                exact (hwf d (by simp)).loopsEnd _ _
              · rcases List.mem_cons.mp hx with rfl | hx
                · exact refresh_ok (hok ▸ hr)
                · exact hall x hx
              · refine ⟨_, _, rfl, fun i x hi hx => ?_, fun i hi => absurd hi (by simp)⟩
                cases i with
                | zero => exact absurd hi (by simp)
                | succ i => exact hall x (List.mem_of_getElem? hx)

/-- With the flag, the loop leaves what is above the first current dentry as it is. -/
theorem slow_revalidates_iff {path : List PathDentry} {w : World} (hroot : root.digen = sb.auSigen)
    (hmix : ∀ d ∈ path, d.digen = sb.auSigen ∨ aufsGenOlder d.digen sb.auSigen)
    (hwf : ∀ d ∈ path, d.Wf) :
    Revalidates sb true root path w ↔ Settled sb.auSigen true path := by
  obtain ⟨low, above, rfl, hlow, habove⟩ := exists_split hroot path
  have hold : ∀ d ∈ low, aufsGenOlder d.digen sb.auSigen := fun d hd =>
    (hmix d (List.mem_append_left _ hd)).resolve_left (hlow d hd)
  rw [settled_append_iff hlow habove]
  obtain ⟨r, s', low', hloop, hc⟩ :=
    @slowLoop_climbed sb root low above ⟨low ++ above, w, []⟩ habove hold rfl
  constructor
  · rintro ⟨n, r₁, s₁, hrun, htop⟩
    have heq := (hrun _ (Nat.le_max_left n low.length)).symm.trans (hloop _ (Nat.le_max_right n _))
    simp only [Option.some.injEq, Prod.mk.injEq] at heq
    obtain ⟨rfl, rfl⟩ := heq
    exact hc.above_current htop
  · intro hall
    exact ⟨low.length, r, s', hloop, hc.fromTop (fun d hd => hwf d (by simp [hd])) hall⟩

/-- Without the flag, the ancestors are left as they are. -/
theorem simple_revalidates_iff {path : List PathDentry} {w : World} (hroot : root.digen = sb.auSigen)
    (hmix : ∀ d ∈ path, d.digen = sb.auSigen ∨ aufsGenOlder d.digen sb.auSigen)
    (hwf : ∀ d ∈ path, d.Wf) :
    Revalidates sb false root path w ↔ Settled sb.auSigen false path := by
  cases h : simpleRevalDpath sb sb.auSigen root ⟨path, w, []⟩ with
  | mk r s' =>
      have hiff := simpleRevalDpath_fromTop_iff hmix hroot hwf h
      constructor
      · rintro ⟨n, r', s'', hrun, htop⟩
        have heq := (hrun n (Nat.le_refl n)).symm.trans (congrArg some h)
        simp only [Option.some.injEq, Prod.mk.injEq] at heq
        obtain ⟨rfl, rfl⟩ := heq
        exact hiff.mp htop
      · intro hs
        exact ⟨0, r, s', fun fuel _ => congrArg some h, hiff.mpr hs⟩

/-- A dentry that is of another generation but not of an older one is never refreshed, and the
loop comes back to it for ever. -/
theorem slowLoop_stuck {s : RevalSt} {p : Place} (hne : (s.path.headD root).digen ≠ sgen)
    (hp : climb sgen root s.path = some p) (hold : aufsGenOlder p.d.digen sgen = false) (fuel : Nat) :
    slowLoop sb sgen root fuel s = none := by
  induction fuel with
  | zero => rw [slowLoop.eq_def, if_neg hne]
  | succ fuel ih =>
      rw [slowLoop.eq_def, if_neg hne, hp]
      dsimp only
      rw [if_neg (by simp [hold]), ih]

/-- `au_reval_dpath` ends and works from the top exactly if no current dentry of the path is
below an old one, and without `si_failed_refresh_dirs` exactly if every ancestor is current. -/
theorem revalidates_iff {failed : Bool} {path : List PathDentry} {w : World}
    (hroot : root.digen = sb.auSigen)
    (hmix : ∀ d ∈ path, d.digen = sb.auSigen ∨ aufsGenOlder d.digen sb.auSigen)
    (hwf : ∀ d ∈ path, d.Wf) :
    Revalidates sb failed root path w ↔ Settled sb.auSigen failed path := by
  cases failed with
  | false => exact simple_revalidates_iff hroot hmix hwf
  | true => exact slow_revalidates_iff hroot hmix hwf

-- ---------------------------------------------------------------------------
-- A path on one branch
-- ---------------------------------------------------------------------------

/-- One branch, at the second generation. -/
def oneBranch : SuperBlock := { SuperBlock.ofBranches [.plain 1 .RW] with generation := 2 }

/-- A dentry that is there on that branch. -/
def onBranch (path : Path) (type : FType) (ino : Nat) (generation : Int) : PathDentry where
  name := path.getLastD []
  type := type
  di := ⟨0, 0, -1, -1, fun b => if b = 0 then some ⟨1, path, some ⟨type, ino, 0, false⟩⟩ else none⟩
  digen := .ofInt 32 generation
  inode :=
    { isDir := type = .dir, version := 0, attrFrom := none
      ii := ⟨0, 0, fun b => if b = 0 then some ⟨⟨1, ino⟩, 1⟩ else none, generation⟩ }

/-- Its root, and the file `t/m/f` there. -/
def branchRoot : PathDentry := onBranch [] .dir 1 2
def branchWorld : World :=
  .ofFs fun _ => .ofList [([[116]], .dir), ([[116], [109]], .dir), ([[116], [109], [102]], .reg)]

theorem onBranch_wf (path : Path) (type : FType) (ino : Nat) (generation : Int) :
    (onBranch path type ino generation).Wf where
  nonneg := by simp [onBranch]
  oneEach := by
    intro b c h k hb hc _
    simp only [onBranch, Option.ite_none_right_eq_some] at hb hc
    rw [hb.1, hc.1]
  ii :=
    { nonneg := by simp [onBranch]
      start := by simp [onBranch]
      range := by
        intro b hb
        simp only [onBranch, Option.isSome_ite] at hb ⊢
        omega
      distinct := by
        intro b c p q hb hc _
        simp only [onBranch, Option.ite_none_right_eq_some] at hb hc
        rw [hb.1, hc.1] }

/-- All three are old: the loop begins at `t`. -/
theorem revalidates_all_old :
    Revalidates oneBranch true branchRoot
      [onBranch [[116], [109], [102]] .reg 4 1, onBranch [[116], [109]] .dir 3 1,
        onBranch [[116]] .dir 2 1] branchWorld :=
  (revalidates_iff (by decide) (by decide) (by simp [onBranch_wf])).mpr
    (by simp [Settled, onBranch, oneBranch, SuperBlock.auSigen])

/-- `m` was moved into `t`, which could not be refreshed, and is current itself: `f` is refreshed
below it, and `t` stays old. -/
theorem not_revalidates_moved :
    ¬ Revalidates oneBranch true branchRoot
      [onBranch [[116], [109], [102]] .reg 4 1, onBranch [[116], [109]] .dir 3 2,
        onBranch [[116]] .dir 2 1] branchWorld := by
  rw [slow_revalidates_iff (by decide) (by decide) (by simp [onBranch_wf])]
  simp [Settled, onBranch, oneBranch, SuperBlock.auSigen]

end Reval

end Aufs
