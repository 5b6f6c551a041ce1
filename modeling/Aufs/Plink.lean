-- SUMMARY: The directory of pseudo-links as a map from inodes to hidden inodes: the names, lkup_plink and append_plink (plink.c).
import Aufs.CopyUp

/-!
# Pseudo-links

A pseudo-link of an inode is one more name of its hidden inode, in a directory of the
branch; the name joins the two inode numbers. `append_plink` makes it anew, and
`lkup_plink` finds it again. A name that is taken by another file is unlinked first. But
`vfsub_unlink` holds the dentry meanwhile, and so it stays positive for its caller,
who links only to a negative one.
-/

namespace Aufs

open Prog Op

-- ---------------------------------------------------------------------------
-- Names
-- ---------------------------------------------------------------------------

/-- `PLINK_NAME_LEN` -/
def plinkNameLen : Nat := (20 + 1) * 2

/-- `snprintf` into a buffer of `len` bytes: the buffer, and the length of the whole text. -/
def snprintf (len : Nat) (text : Name) : Name × Nat := (text.take (len - 1) ++ [0], text.length)

/-- The text of a name: `%lu.%lu`. -/
def plinkText (ino hIno : Nat) : Name := decimal ino ++ [46] ++ decimal hIno

/-- `plink_name` -/
def plinkName (ino hIno : Nat) : Name × Nat := snprintf plinkNameLen (plinkText ino hIno)

/-- What is looked up: as many bytes of the buffer as `plink_name` has returned. -/
def plinkTgt (ino hIno : Nat) : Name := (plinkName ino hIno).1.take (plinkName ino hIno).2

theorem length_decimal {n : Nat} (hn : n < 2 ^ 64) : (decimal n).length ≤ 20 := by
  rw [decimal, List.length_map]
  exact (Nat.length_toDigits_le_iff (by decide) (by decide)).mpr (hn.trans (by decide))

/-- A digit is a byte. -/
theorem toNat_lt_of_isDigit {c : Char} (hc : c.isDigit) : 48 ≤ c.toNat ∧ c.toNat < 58 := by
  simp only [Char.isDigit, Bool.and_eq_true, decide_eq_true_eq] at hc
  obtain ⟨hlo, hhi⟩ := hc
  have hlo : 48 ≤ c.toNat := hlo
  have hhi : c.toNat ≤ 57 := hhi
  omega

theorem toNat_toUInt8_of_isDigit {c : Char} (hc : c.isDigit) : c.toNat.toUInt8.toNat = c.toNat := by
  have hcn := toNat_lt_of_isDigit hc
  rw [Nat.toUInt8, UInt8.toNat_ofNat']
  omega

theorem decimal_injective : Function.Injective decimal := by
  -- the digits can be read back
  have hback : ∀ n, (decimal n).map (fun b => Char.ofNat b.toNat) = Nat.toDigits 10 n := by
    intro n
    rw [decimal, List.map_map]
    refine (List.map_congr_left fun c hc => ?_).trans (List.map_id _)
    rw [Function.comp_apply, toNat_toUInt8_of_isDigit (Nat.isDigit_of_mem_toDigits (by decide) (by decide) hc)]
    exact Char.ofNat_toNat c
  intro n k h
  have hdigits : Nat.toDigits 10 n = Nat.toDigits 10 k := by rw [← hback n, ← hback k, h]
  rw [← Nat.ofDigitChars_ten_toDigits (n := n), hdigits, Nat.ofDigitChars_ten_toDigits]

/-- No digit is a dot. -/
theorem dot_notMem_decimal (n : Nat) : (46 : UInt8) ∉ decimal n := by
  intro h
  obtain ⟨c, hc, hdot⟩ := List.mem_map.mp h
  have hdigit : c.isDigit := Nat.isDigit_of_mem_toDigits (by decide) (by decide) hc
  have hrange := toNat_lt_of_isDigit hdigit
  have hnat := congrArg UInt8.toNat hdot
  rw [toNat_toUInt8_of_isDigit hdigit] at hnat
  have h46 : (46 : UInt8).toNat = 46 := rfl
  omega

/-- Different pairs have different names. -/
theorem plinkText_inj {ino hIno ino' hIno' : Nat} (h : plinkText ino hIno = plinkText ino' hIno') :
    ino = ino' ∧ hIno = hIno' := by
  rw [plinkText, plinkText, List.append_assoc, List.append_assoc] at h
  obtain ⟨hl, -, hr⟩ := (List.append_cons_inj_of_notMem (dot_notMem_decimal _) (dot_notMem_decimal _)).mp h
  exact ⟨decimal_injective hl, decimal_injective hr⟩

theorem length_plinkText {ino hIno : Nat} (hino : ino < 2 ^ 64) (hh : hIno < 2 ^ 64) :
    (plinkText ino hIno).length < plinkNameLen := by
  have hl := length_decimal hino
  have hr := length_decimal hh
  simp only [plinkText, List.length_append, List.length_singleton, plinkNameLen]
  omega

/-- The names of 64-bit numbers fit into the buffer. -/
theorem plinkName_fits {ino hIno : Nat} (hino : ino < 2 ^ 64) (hh : hIno < 2 ^ 64) :
    plinkName ino hIno = (plinkText ino hIno ++ [0], (plinkText ino hIno).length) := by
  have hlen := length_plinkText hino hh
  rw [plinkName, snprintf, List.take_of_length_le (by omega)]

theorem plinkTgt_eq {ino hIno : Nat} (hino : ino < 2 ^ 64) (hh : hIno < 2 ^ 64) :
    plinkTgt ino hIno = plinkText ino hIno := by
  rw [plinkTgt, plinkName_fits hino hh, List.take_left]

-- ---------------------------------------------------------------------------
-- The operations
-- ---------------------------------------------------------------------------

/-- `br_plink` -/
def plinkDir (br : Branch) : HDentry := ⟨br.root, [whPlinkName], none⟩

/-- `lkup_plink` of the inode `ino`, whose hidden inode on the branch is `hIno`. -/
def lkupPlinkIno (sb : SuperBlock) (bindex : Int) (ino hIno : Nat) : Op HDentry :=
  match sb.stobr bindex with
  | none => refuse .oops
  | some br => Op.lkupOne (plinkDir br) (plinkTgt ino hIno)

/-- Do the hidden dentries have one inode? -/
def HDentry.sameInode (h k : HDentry) : Bool :=
  decide (h.root = k.root ∧ h.inode.map HInode.ino = k.inode.map HInode.ino)

/-- `vfsub_unlink`, and what it leaves of the dentry. `d_delete` makes it negative for an only user, and
`call_unlink` is one more user but on NFS. `shared` tells whether somebody else uses it, too. -/
def unlinkTgt (nfs shared : Bool) (h : HDentry) : Op HDentry := do
  vfsubUnlink h
  pure (if nfs && !shared then { h with inode := none } else h)

/-- `do_whplink` -/
def doWhplink (nfs shared : Bool) (tgt : Name) (hParent hDentry : HDentry) : Op Unit := do
  let hTgt ← Op.lkupOne hParent tgt
  let hTgt ← if hTgt.positive && !hTgt.sameInode hDentry then unlinkTgt nfs shared hTgt else pure hTgt
  if hTgt.positive then pure () else vfsubLink hDentry hTgt

/-- `whplink` -/
def whplink (sb : SuperBlock) (bindex : Int) (shared : Bool) (ino hIno : Nat) (hDentry : HDentry) : Op Unit :=
  match sb.stobr bindex with
  | none => refuse .oops
  | some br => doWhplink br.nfs shared (plinkTgt ino hIno) (plinkDir br) hDentry

/-- What `append_plink` is called with: the inode, and the hidden dentry of its new name. `mem` is the answer of
`kmalloc`. -/
structure PlinkCall where
  ino : Nat
  hDentry : HDentry
  mem : Bool
  shared : Bool

/-- The mount, the inodes that `si_plink` lists, and the number of the hidden inode that an inode has on the
branch. -/
structure PlinkMount where
  m : Mount
  plinks : List Nat
  hIptr : Nat → Option Nat

/-- `append_plink`; the inode was given its hidden inode just before. -/
def appendPlink (sb : SuperBlock) (bindex : Int) (c : PlinkCall) (s : PlinkMount) :
    Except Errno Unit × PlinkMount :=
  let s := { s with hIptr := Function.update s.hIptr c.ino (c.hDentry.inode.map HInode.ino) }
  let found := s.plinks.contains c.ino
  if !found && !c.mem then (.error .ENOMEM, s)
  else
    let s := if found then s else { s with plinks := c.ino :: s.plinks }
    match s.hIptr c.ino with
    | none => (.error .oops, s)
    | some hIno =>
      match whplink sb bindex c.shared c.ino hIno c.hDentry s.m with
      | (r, m) => (r, { s with m })

/-- A run of calls, all of which succeed. -/
def appendPlinks (sb : SuperBlock) (bindex : Int) : List PlinkCall → PlinkMount → Option PlinkMount
  | [], s => some s
  | c :: calls, s =>
    match appendPlink sb bindex c s with
    | (.error _, _) => none
    | (.ok (), s) => appendPlinks sb bindex calls s

/-- The hidden inode of the last call for an inode. -/
def lastPlink (calls : List PlinkCall) : Nat → Option Nat :=
  calls.foldl (fun f c => Function.update f c.ino (c.hDentry.inode.map HInode.ino)) fun _ => none

/-- `lkup_plink` finds the hidden inode of a listed inode, unless a lower step fails. -/
structure PlinkMount.Finds (sb : SuperBlock) (bindex : Int) (s : PlinkMount) (ino hIno : Nat) : Prop where
  listed : ino ∈ s.plinks
  hIptr : s.hIptr ino = some hIno
  lkup : wp (lkupPlinkIno sb bindex ino hIno) (fun h _ => ∃ j, h.inode = some j ∧ j.ino = hIno)
    (fun _ _ => True) s.m

/-- The hidden dentry is a name of an inode on the branch, and the numbers are those of an `unsigned long`. -/
structure PlinkCall.Valid (br : Branch) (c : PlinkCall) (s : PlinkMount) (hIno : Nat) : Prop where
  root : c.hDentry.root = br.root
  inode : c.hDentry.inode.map HInode.ino = some hIno
  node : (s.m.w.node br.root c.hDentry.path).map HInode.ino = some hIno
  hIno : hIno < 2 ^ 64
  ino : c.ino < 2 ^ 64

/-- The condition: no other file has the name, or its dentry is negative once it is unlinked. -/
def PlinkCall.NoForeign (br : Branch) (c : PlinkCall) (s : PlinkMount) (hIno : Nat) : Prop :=
  ∀ j, s.m.w.node br.root [whPlinkName, plinkTgt c.ino hIno] = some j →
    j.ino = hIno ∨ br.nfs = true ∧ c.shared = false

/-- Every call of the run is a proper one. -/
def ValidCalls (sb : SuperBlock) (bindex : Int) (br : Branch) : List PlinkCall → PlinkMount → Prop
  | [], _ => True
  | c :: calls, s => (∃ hIno, c.Valid br s hIno) ∧ ValidCalls sb bindex br calls (appendPlink sb bindex c s).2

/-- Every call of the run meets the condition. -/
def NoForeignCalls (sb : SuperBlock) (bindex : Int) (br : Branch) : List PlinkCall → PlinkMount → Prop
  | [], _ => True
  | c :: calls, s => (∀ hIno, c.hDentry.inode.map HInode.ino = some hIno → c.NoForeign br s hIno) ∧
      NoForeignCalls sb bindex br calls (appendPlink sb bindex c s).2

/-- The pseudo-link directory as a map: what was appended last is found, and the names of 64-bit numbers are
whole and different. -/
structure PlinkMap (sb : SuperBlock) (bindex : Int) (calls : List PlinkCall) (s : PlinkMount) : Prop where
  finds : ∀ ino hIno, lastPlink calls ino = some hIno → s.Finds sb bindex ino hIno
  fits : ∀ ino hIno : Nat, ino < 2 ^ 64 → hIno < 2 ^ 64 → (plinkName ino hIno).2 < plinkNameLen ∧
    (plinkName ino hIno).1 = plinkText ino hIno ++ [0]
  inj : ∀ ino hIno ino' hIno' : Nat, ino < 2 ^ 64 → hIno < 2 ^ 64 → ino' < 2 ^ 64 → hIno' < 2 ^ 64 →
    (plinkName ino hIno).1 = (plinkName ino' hIno').1 → ino = ino' ∧ hIno = hIno'

variable {sb : SuperBlock} {bindex : Int} {br : Branch} {m : Mount} {s s' : PlinkMount} {c : PlinkCall}
  {ino hIno : Nat}

/-- The `lkup_plink` of a dentry is the one of its inode. -/
theorem lkupPlink_eq {p : Path} {i : HInode} (hino : m.ino p < 2 ^ 64) (hh : i.ino < 2 ^ 64) :
    lkupPlink sb p bindex i m = lkupPlinkIno sb bindex (m.ino p) i.ino m := by
  have hname : decimal (m.ino p) ++ [46] ++ decimal i.ino = plinkTgt (m.ino p) i.ino :=
    (plinkTgt_eq hino hh).symm
  unfold lkupPlinkIno plinkDir
  rw [← hname]
  rfl

-- ---------------------------------------------------------------------------
-- One call
-- ---------------------------------------------------------------------------

/-- The name is one of the inode with the number `hIno` now, and no other name has changed. -/
structure Mount.Links (m : Mount) (root : Nat) (tgt : Path) (hIno : Nat) (m' : Mount) : Prop where
  made : ∃ j, m'.w.node root tgt = some j ∧ j.ino = hIno
  others : ∀ r q, (r, q) ≠ (root, tgt) → m'.w.node r q = m.w.node r q

/-- The hidden dentry is linked to a name that is free. -/
theorem wp_vfsubLink_links {m₀ : Mount} {src h : HDentry} (hroot : src.root = h.root)
    (hsrc : (m.w.node h.root src.path).map HInode.ino = some hIno)
    (hothers : ∀ r q, (r, q) ≠ (h.root, h.path) → m.w.node r q = m₀.w.node r q) :
    wp (vfsubLink src h) (fun _ m' => m₀.Links h.root h.path hIno m') (fun _ _ => True) m := by
  refine wp_vfsubLink (fun w i _ hnode _ _ _ _ hsets => ?_) fun _ _ _ => trivial
  rw [hroot] at hnode
  rw [hnode] at hsrc
  refine ⟨⟨i, (hsets _ _).trans (if_pos ⟨rfl, rfl⟩), Option.some.inj hsrc⟩, fun r q hne => ?_⟩
  rw [← hothers r q hne, hsets r q, if_neg fun he => hne (Prod.ext he.1 he.2)]

theorem wp_doWhplink {nfs shared : Bool} {tgt : Name} {hParent src : HDentry} (hroot : src.root = hParent.root)
    (hinode : src.inode.map HInode.ino = some hIno)
    (hsrc : (m.w.node hParent.root src.path).map HInode.ino = some hIno)
    (hclean : ∀ j, m.w.node hParent.root (hParent.path ++ [tgt]) = some j →
      j.ino = hIno ∨ nfs = true ∧ shared = false) :
    wp (doWhplink nfs shared tgt hParent src)
      (fun _ m' => m.Links hParent.root (hParent.path ++ [tgt]) hIno m') (fun _ _ => True) m := by
  refine wp_bind.mpr (wp_lkupOne (fun w hw => ?_) fun _ _ _ => trivial)
  have hsame : ∀ r q, ({ m with w } : Mount).w.node r q = m.w.node r q := fun r q => by rw [World.node_congr hw]
  cases hj : m.w.node hParent.root (hParent.path ++ [tgt]) with
  | none =>
    -- a free name
    have hsrc' : (({ m with w } : Mount).w.node hParent.root src.path).map HInode.ino = some hIno := by
      rw [hsame]
      exact hsrc
    exact wp_bind.mpr (wp_pure.mpr (wp_vfsubLink_links hroot hsrc' fun r q _ => hsame r q))
  | some j =>
    by_cases heq : j.ino = hIno
    case pos =>
      -- the name is there already
      have hno : (HDentry.positive ⟨hParent.root, hParent.path ++ [tgt], some j⟩ &&
          !HDentry.sameInode ⟨hParent.root, hParent.path ++ [tgt], some j⟩ src) = false := by
        simp [HDentry.sameInode, hroot, hinode, heq]
      rw [hno]
      refine wp_bind.mpr (wp_pure.mpr (wp_pure.mpr ⟨⟨j, ?_, heq⟩, fun r q _ => hsame r q⟩))
      rw [hsame]
      exact hj
    case neg =>
      -- a foreign file
      obtain ⟨hnfs, hshared⟩ := (hclean j hj).resolve_left heq
      have hyes : (HDentry.positive ⟨hParent.root, hParent.path ++ [tgt], some j⟩ &&
          !HDentry.sameInode ⟨hParent.root, hParent.path ++ [tgt], some j⟩ src) = true := by
        simp [HDentry.sameInode, HDentry.positive, hinode, heq]
      rw [hyes, if_pos rfl, unlinkTgt, hnfs, hshared]
      refine wp_bind.mpr (wp_bind.mpr (wp_vfsubUnlink (fun w' i _ _ hsets => wp_pure.mpr ?_) fun _ _ _ => trivial))
      have hne : src.path ≠ hParent.path ++ [tgt] := by
        intro he
        rw [he, hj] at hsrc
        exact heq (Option.some.inj hsrc)
      refine wp_vfsubLink_links hroot ?_ fun r q hrq => ?_
      · have hout := hsets hParent.root src.path
        rw [if_neg fun he => hne he.2, hsame] at hout
        exact (congrArg _ hout).trans hsrc
      · have hout := hsets r q
        rw [if_neg fun he => hrq (Prod.ext he.1 he.2), hsame] at hout
        exact hout

/-- A successful call of `append_plink`. -/
theorem appendPlink_ok (hbr : sb.stobr bindex = some br) (hvalid : c.Valid br s hIno)
    (hclean : c.NoForeign br s hIno) (h : appendPlink sb bindex c s = (.ok (), s')) :
    c.ino ∈ s'.plinks ∧ (∀ i ∈ s.plinks, i ∈ s'.plinks) ∧
      s'.hIptr = Function.update s.hIptr c.ino (some hIno) ∧
      s.m.Links br.root [whPlinkName, plinkTgt c.ino hIno] hIno s'.m := by
  unfold appendPlink at h
  dsimp only at h
  rw [hvalid.inode] at h
  split at h
  · cases h
  · generalize ht : (if s.plinks.contains c.ino = true then
        { s with hIptr := Function.update s.hIptr c.ino (some hIno) }
      else { s with plinks := c.ino :: s.plinks, hIptr := Function.update s.hIptr c.ino (some hIno) } :
        PlinkMount) = t at h
    have hlisted : c.ino ∈ t.plinks ∧ (∀ i ∈ s.plinks, i ∈ t.plinks) := by
      rw [← ht]
      split
      case isTrue hfound => exact ⟨List.contains_iff_mem.mp hfound, fun _ hi => hi⟩
      case isFalse => exact ⟨List.mem_cons_self, fun _ hi => List.mem_cons_of_mem _ hi⟩
    have hiptr : t.hIptr = Function.update s.hIptr c.ino (some hIno) := by
      rw [← ht]
      split <;> rfl
    have hm : t.m = s.m := by
      rw [← ht]
      split <;> rfl
    rw [hiptr, Function.update_self, hm] at h
    dsimp only at h
    unfold whplink at h
    rw [hbr] at h
    dsimp only at h
    have hwp : wp (doWhplink br.nfs c.shared (plinkTgt c.ino hIno) (plinkDir br) c.hDentry) _ _ s.m :=
      wp_doWhplink hvalid.root hvalid.inode hvalid.node hclean
    cases hrun : doWhplink br.nfs c.shared (plinkTgt c.ino hIno) (plinkDir br) c.hDentry s.m with
    | mk r m' =>
      rw [hrun] at h
      cases h
      exact ⟨hlisted.1, hlisted.2, rfl, hwp.ok hrun⟩

-- ---------------------------------------------------------------------------
-- A run
-- ---------------------------------------------------------------------------

/-- The names that the map `f` asks for are in the directory. -/
def PlinkMount.Maps (br : Branch) (s : PlinkMount) (f : Nat → Option Nat) : Prop :=
  ∀ ino hIno, f ino = some hIno → ino ∈ s.plinks ∧ s.hIptr ino = some hIno ∧ ino < 2 ^ 64 ∧ hIno < 2 ^ 64 ∧
    ∃ j, s.m.w.node br.root [whPlinkName, plinkTgt ino hIno] = some j ∧ j.ino = hIno

/-- A call adds its own name and keeps those of the others. -/
theorem PlinkMount.Maps.append {f : Nat → Option Nat} (h : s.Maps br f) (hbr : sb.stobr bindex = some br)
    (hvalid : c.Valid br s hIno) (hclean : c.NoForeign br s hIno)
    (hrun : appendPlink sb bindex c s = (.ok (), s')) : s'.Maps br (Function.update f c.ino (some hIno)) := by
  obtain ⟨hlisted, hkept, hiptr, hlinks⟩ := appendPlink_ok hbr hvalid hclean hrun
  intro ino hIno' hf
  rw [hiptr]
  by_cases hino : ino = c.ino
  case pos =>
    subst hino
    rw [Function.update_self] at hf
    obtain rfl := Option.some.inj hf
    exact ⟨hlisted, Function.update_self .., hvalid.ino, hvalid.hIno, hlinks.made⟩
  case neg =>
    rw [Function.update_of_ne hino] at hf
    obtain ⟨hin, hptr, hlt, hlt', j, hj, hjino⟩ := h ino hIno' hf
    refine ⟨hkept ino hin, (Function.update_of_ne hino ..).trans hptr, hlt, hlt', j, ?_, hjino⟩
    -- the names of two inodes differ
    have hne : plinkTgt ino hIno' ≠ plinkTgt c.ino hIno := by
      rw [plinkTgt_eq hlt hlt', plinkTgt_eq hvalid.ino hvalid.hIno]
      exact fun he => hino (plinkText_inj he).1
    rw [hlinks.others _ _ fun he => hne (by simpa using congrArg Prod.snd he)]
    exact hj

theorem appendPlinks_maps {calls : List PlinkCall} {f : Nat → Option Nat} (hbr : sb.stobr bindex = some br)
    (hvalid : ValidCalls sb bindex br calls s) (hclean : NoForeignCalls sb bindex br calls s)
    (hrun : appendPlinks sb bindex calls s = some s') (h : s.Maps br f) :
    s'.Maps br (calls.foldl (fun f c => Function.update f c.ino (c.hDentry.inode.map HInode.ino)) f) := by
  induction calls generalizing s f with
  | nil =>
    cases hrun
    exact h
  | cons c calls ih =>
    obtain ⟨⟨hIno, hc⟩, hvalid⟩ := hvalid
    obtain ⟨hno, hclean⟩ := hclean
    rw [appendPlinks] at hrun
    rcases hstep : appendPlink sb bindex c s with ⟨e | _, s₁⟩
    · rw [hstep] at hrun
      cases hrun
    · rw [hstep] at hrun hvalid hclean
      rw [List.foldl_cons, hc.inode]
      exact ih hvalid hclean hrun (h.append hbr hc (hno hIno hc.inode) hstep)

theorem PlinkMount.Maps.finds {f : Nat → Option Nat} (h : s.Maps br f) (hbr : sb.stobr bindex = some br)
    (hf : f ino = some hIno) : s.Finds sb bindex ino hIno := by
  obtain ⟨hin, hptr, -, -, j, hj, hjino⟩ := h ino hIno hf
  refine ⟨hin, hptr, ?_⟩
  unfold lkupPlinkIno
  rw [hbr]
  exact wp_lkupOne (fun w _ => ⟨j, hj, hjino⟩) fun _ _ _ => trivial

/-- The pseudo-link directory is a map as long as no other file has one of the names. -/
theorem appendPlinks_map {calls : List PlinkCall} {s₀ : PlinkMount} (hbr : sb.stobr bindex = some br)
    (hvalid : ValidCalls sb bindex br calls s₀) (hclean : NoForeignCalls sb bindex br calls s₀)
    (hrun : appendPlinks sb bindex calls s₀ = some s) : PlinkMap sb bindex calls s := by
  have hmaps : s.Maps br (lastPlink calls) :=
    appendPlinks_maps hbr hvalid hclean hrun fun _ _ hf => by cases hf
  refine ⟨fun ino hIno hlast => hmaps.finds hbr hlast, fun ino hIno hino hh => ?_, ?_⟩
  · rw [plinkName_fits hino hh]
    exact ⟨length_plinkText hino hh, rfl⟩
  · intro ino hIno ino' hIno' hino hh hino' hh' he
    rw [plinkName_fits hino hh, plinkName_fits hino' hh'] at he
    exact plinkText_inj (List.append_cancel_right he)

/-- A writable branch with a file, the directory of the pseudo-links, and perhaps a file of another inode that
has the name of the pseudo-link. -/
def plinkTree (stale : Bool) : LowerFs :=
  if stale then .ofList [([whPlinkName], .dir), ([[97]], .reg), ([whPlinkName, plinkText 5 4], .reg)]
  else .ofList [([whPlinkName], .dir), ([[97]], .reg)]

/-- A super block with this branch. -/
def plinkBrSb : SuperBlock := .ofBranches [.plain 1 .RW]

/-- Before the first call. -/
def plinkStart (stale : Bool) : PlinkMount where
  m :=
    { w := .ofFs fun _ => plinkTree stale
      di := fun _ => .alloc
      hi := fun _ _ => none
      ino := fun _ => 5
      cnt := 0
      fails := 0 }
  plinks := []
  hIptr _ := none

/-- A new name of the file. -/
def plinkCall : PlinkCall := ⟨5, ⟨1, [[97]], some ⟨.reg, 4, 0, false⟩⟩, true, false⟩

theorem plinkCall_valid (stale : Bool) : plinkCall.Valid (.plain 1 .RW) (plinkStart stale) 4 where
  root := rfl
  inode := rfl
  node := by cases stale <;> decide +kernel
  hIno := by decide
  ino := by decide

theorem appendPlinks_plinkCall (stale : Bool) : appendPlinks plinkBrSb 0 [plinkCall] (plinkStart stale) =
    some (appendPlink plinkBrSb 0 plinkCall (plinkStart stale)).2 := by
  have hok : (appendPlink plinkBrSb 0 plinkCall (plinkStart stale)).1 = .ok () := by
    cases stale <;> decide +kernel
  rw [appendPlinks]
  rcases hrun : appendPlink plinkBrSb 0 plinkCall (plinkStart stale) with ⟨e | _, s⟩
  · rw [hrun] at hok
    cases hok
  · rfl

/-- A call with a free name. -/
theorem appendPlinks_map_once :
    PlinkMap plinkBrSb 0 [plinkCall] (appendPlink plinkBrSb 0 plinkCall (plinkStart false)).2 := by
  refine appendPlinks_map rfl ⟨⟨4, plinkCall_valid false⟩, trivial⟩ ⟨fun hIno hino j hj => ?_, trivial⟩
    (appendPlinks_plinkCall false)
  obtain rfl := Option.some.inj hino
  have hfree : (plinkStart false).m.w.node 1 [whPlinkName, plinkTgt 5 4] = none := by decide +kernel
  cases hfree.symm.trans hj

/-- A foreign file is unlinked, and nothing takes its place. -/
theorem not_plinkMap_stale : ¬ ∀ (sb : SuperBlock) (bindex : Int) (br : Branch) (calls : List PlinkCall)
    (s₀ s : PlinkMount), sb.stobr bindex = some br → ValidCalls sb bindex br calls s₀ →
    appendPlinks sb bindex calls s₀ = some s → PlinkMap sb bindex calls s := by
  intro hall
  have hvalid : ValidCalls plinkBrSb 0 (.plain 1 .RW) [plinkCall] (plinkStart true) :=
    ⟨⟨4, plinkCall_valid true⟩, trivial⟩
  have hfinds := ((hall _ _ _ _ _ _ rfl hvalid (appendPlinks_plinkCall true)).finds 5 4 rfl).lkup
  have hnone : (lkupPlinkIno plinkBrSb 0 5 4 (appendPlink plinkBrSb 0 plinkCall (plinkStart true)).2.m).1 =
      .ok ⟨1, [whPlinkName, plinkTgt 5 4], none⟩ := by decide +kernel
  obtain ⟨j, hj, -⟩ := hfinds.ok (Prod.ext hnone rfl)
  cases hj

end Aufs
