-- SUMMARY: The temporary name of a directory that is set aside: its buffer, its length and the three tries for a free one.
import Aufs.Whout
import Aufs.Lib.CMem

/-!
# Temporary names

`lkup_whtmp` forms a name of two whiteout prefixes, the name of the directory, a dot and a
counter of one byte, in an array on the stack or in one that it allocates. The name is
longer than the directory's by more than `aufs_statfs` takes off, and there are three
tries only for one that is not in use.
-/

namespace Aufs

/-- `f_namelen` that `aufs_statfs` returns for the one of the hidden filesystem. -/
def statfsNamelen (lower : Nat) : Nat := lower - whLen

/-- An array of bytes. -/
structure NameBuf where
  size : Nat
  mem : CMem.Mem

/-- Bytes are written into an array. `none` when one of them is behind its end. -/
def NameBuf.put (b : NameBuf) (p : Nat) (l : Name) : Option NameBuf :=
  if p + l.length ≤ b.size then some { b with mem := CMem.store b.mem p l } else none

/-- What `lkup_whtmp` returns, if it does. -/
inductive WhtmpEnd where
  | negative (name : Name)
  | error (err : Errno)
  | bug

/-- A run of `lkup_whtmp`: the names that it looked up, and its end. -/
structure WhtmpRun where
  names : List Name
  result : WhtmpEnd

/-- One more name was looked up before. -/
def WhtmpRun.cons (name : Name) (r : WhtmpRun) : WhtmpRun := { r with names := name :: r.names }

/-- The surroundings of `lkup_whtmp`: `DNAME_INLINE_LEN_MIN`, what was in the arrays, whether
`kmalloc` finds memory, and the hidden parent: what `sio_lkup_one` says about a name, and whether
it is in use if it says anything. -/
structure WhtmpEnv where
  inlineLen : Nat
  stack : CMem.Mem
  heap : CMem.Mem
  kmalloc : Bool
  sioLkupOne : Name → Except Errno Bool

namespace WhtmpEnv

/-- `sizeof(defname)`, with `HEX_LEN` 4 -/
def sizeofDefname (e : WhtmpEnv) : Nat := whLen * 2 + e.inlineLen + 1 + 4 + 1

/-- The loop. `p` is behind the dot. -/
def whtmpLoop (e : WhtmpEnv) (len p : Nat) : Nat → UInt8 → NameBuf → Option WhtmpRun
  | 0, _, _ => some ⟨[], .bug⟩
  | tries + 1, cnt, b =>
    -- sprintf() ends the string
    match b.put p (decimal4 cnt.toNat ++ [0]) with
    | none => none
    | some b =>
      let name := CMem.load b.mem 0 len
      match e.sioLkupOne name with
      | .error err => some ⟨[name], .error err⟩
      | .ok false => some ⟨[name], .negative name⟩
      | .ok true => (whtmpLoop e len p tries (cnt + 1) b).map (WhtmpRun.cons name)

/-- The name without its counter is put into an array. -/
def putPrefix (b : NameBuf) (pfx : Name) : Option (NameBuf × Nat) :=
  (b.put 0 (whPfx ++ whPfx)).bind fun b =>
    let p := whLen * 2
    (b.put p pfx).bind fun b =>
      let p := p + pfx.length
      (b.put p [46]).map fun b => (b, p + 1)

/-- `lkup_whtmp`. `none` when it writes behind its array. -/
def lkupWhtmp (e : WhtmpEnv) (pfx : Name) (cnt : UInt8) : Option WhtmpRun :=
  let len := e.sizeofDefname - e.inlineLen + pfx.length - 1
  let fill (b : NameBuf) : Option WhtmpRun :=
    (putPrefix b pfx).bind fun (b, p) => e.whtmpLoop len p 3 cnt b
  if e.inlineLen < pfx.length then
    if pathMax ≤ len then some ⟨[], .error .ENAMETOOLONG⟩
    else if e.kmalloc then fill ⟨len + 1, e.heap⟩
    else some ⟨[], .error .ENOMEM⟩
  else fill ⟨e.sizeofDefname, e.stack⟩

/-- The names that are tried, one after the other. -/
def pick (e : WhtmpEnv) (pfx : Name) : Nat → UInt8 → WhtmpRun
  | 0, _ => ⟨[], .bug⟩
  | tries + 1, cnt =>
    let name := whtmpName pfx cnt.toNat
    match e.sioLkupOne name with
    | .error err => ⟨[name], .error err⟩
    | .ok false => ⟨[name], .negative name⟩
    | .ok true => (pick e pfx tries (cnt + 1)).cons name

end WhtmpEnv

-- ---------------------------------------------------------------------------
-- The array
-- ---------------------------------------------------------------------------

theorem length_decimal4 (n : Nat) : (decimal4 n).length = 4 := rfl

theorem length_whtmpName (pfx : Name) (cnt : Nat) : (whtmpName pfx cnt).length = pfx.length + 13 := by
  simp only [whtmpName, List.length_append, length_decimal4, whPfx, List.length_cons, List.length_nil]
  omega

/-- Bytes that fit are put behind those that are there. -/
theorem NameBuf.put_behind {b : NameBuf} {l t : Name} (hmem : CMem.Holds b.mem 0 l)
    (hsize : l.length + t.length ≤ b.size) :
    ∃ b', b.put l.length t = some b' ∧ b'.size = b.size ∧ CMem.Holds b'.mem 0 (l ++ t) := by
  refine ⟨{ b with mem := CMem.store b.mem l.length t }, if_pos hsize, rfl, ?_⟩
  rw [CMem.holds_append, Int.zero_add]
  refine ⟨hmem.store ?_, CMem.holds_store _ _ _⟩
  omega

namespace WhtmpEnv

variable {e : WhtmpEnv} {pfx : Name}

/-- The name without its counter. -/
private theorem length_head (pfx : Name) : (whPfx ++ whPfx ++ pfx ++ [46]).length = pfx.length + 9 := by
  simp only [List.length_append, whPfx, List.length_cons, List.length_nil]
  omega

/-- The loop looks up the temporary names as long as there is room for the counter. -/
theorem whtmpLoop_eq (tries : Nat) (cnt : UInt8) {b : NameBuf} (hsize : pfx.length + 14 ≤ b.size)
    (hmem : CMem.Holds b.mem 0 (whPfx ++ whPfx ++ pfx ++ [46])) :
    e.whtmpLoop (pfx.length + 13) (pfx.length + 9) tries cnt b = some (e.pick pfx tries cnt) := by
  induction tries generalizing cnt b with
  | zero => rfl
  | succ tries ih =>
    have hroom : (whPfx ++ whPfx ++ pfx ++ [46]).length + (decimal4 cnt.toNat ++ [0]).length ≤ b.size := by
      rw [length_head, List.length_append, length_decimal4, List.length_singleton]
      exact hsize
    obtain ⟨b', hput, hsize', hmem'⟩ := NameBuf.put_behind hmem hroom
    rw [length_head] at hput
    rw [← List.append_assoc] at hmem'
    have hname : CMem.load b'.mem 0 (pfx.length + 13) = whtmpName pfx cnt.toNat := by
      rw [← length_whtmpName pfx cnt.toNat]
      exact (CMem.holds_append.mp hmem').1.load
    have hhead := (CMem.holds_append.mp (CMem.holds_append.mp hmem').1).1
    rw [whtmpLoop, hput, pick]
    dsimp only
    rw [hname]
    rcases e.sioLkupOne (whtmpName pfx cnt.toNat) with err | found
    case error => rfl
    case ok =>
      cases found with
      | false => rfl
      | true =>
        dsimp only
        rw [ih (cnt + 1) (hsize' ▸ hsize) hhead]
        rfl

/-- The name without its counter fits into any array that is long enough for the whole. -/
theorem putPrefix_eq {b : NameBuf} (hsize : pfx.length + 14 ≤ b.size) :
    ∃ b', putPrefix b pfx = some (b', pfx.length + 9) ∧ b'.size = b.size ∧
      CMem.Holds b'.mem 0 (whPfx ++ whPfx ++ pfx ++ [46]) := by
  have hwh : (whPfx ++ whPfx).length = whLen * 2 := rfl
  have hpfx : (whPfx ++ whPfx ++ pfx).length = whLen * 2 + pfx.length := by
    rw [List.length_append, hwh]
  have hlen : whLen * 2 = 8 := rfl
  obtain ⟨b₁, hput₁, hsize₁, hmem₁⟩ := NameBuf.put_behind (CMem.holds_nil b.mem 0)
    (t := whPfx ++ whPfx) (by rw [hwh, List.length_nil]; omega)
  obtain ⟨b₂, hput₂, hsize₂, hmem₂⟩ := NameBuf.put_behind hmem₁ (t := pfx)
    (by rw [List.nil_append, hwh]; omega)
  obtain ⟨b₃, hput₃, hsize₃, hmem₃⟩ := NameBuf.put_behind hmem₂ (t := [46])
    (by rw [List.nil_append, hpfx, List.length_singleton]; omega)
  rw [List.nil_append] at hput₂ hput₃ hmem₃
  rw [hwh] at hput₂
  rw [hpfx] at hput₃
  refine ⟨b₃, ?_, by omega, hmem₃⟩
  have hput₁' : b.put 0 (whPfx ++ whPfx) = some b₁ := hput₁
  rw [putPrefix, hput₁']
  dsimp only [Option.bind_some]
  rw [hput₂]
  dsimp only [Option.bind_some]
  rw [hput₃, Option.map_some, hlen]
  congr 2
  omega

/-- `lkup_whtmp` writes within its array, and looks up the temporary names. -/
theorem lkupWhtmp_eq (e : WhtmpEnv) (pfx : Name) (cnt : UInt8) :
    e.lkupWhtmp pfx cnt = some (
      if e.inlineLen < pfx.length then
        if pathMax ≤ pfx.length + 13 then ⟨[], .error .ENAMETOOLONG⟩
        else if e.kmalloc then e.pick pfx 3 cnt
        else ⟨[], .error .ENOMEM⟩
      else e.pick pfx 3 cnt) := by
  have hlen : e.sizeofDefname - e.inlineLen + pfx.length - 1 = pfx.length + 13 := by
    simp only [sizeofDefname, whLen, whPfx, List.length_cons, List.length_nil]
    omega
  have hfill : ∀ b : NameBuf, pfx.length + 14 ≤ b.size →
      ((putPrefix b pfx).bind fun (b, p) => e.whtmpLoop (pfx.length + 13) p 3 cnt b) =
        some (e.pick pfx 3 cnt) := by
    intro b hsize
    obtain ⟨b', hput, hsize', hmem⟩ := putPrefix_eq hsize
    rw [hput]
    apply whtmpLoop_eq 3 cnt _ hmem
    rw [hsize']
    exact hsize
  simp only [lkupWhtmp, hlen]
  split
  case isTrue =>
    split
    case isTrue => rfl
    case isFalse =>
      split
      case isTrue => exact hfill _ (Nat.le_refl _)
      case isFalse => rfl
  case isFalse hshort =>
    apply hfill
    simp only [sizeofDefname, whLen, whPfx, List.length_cons, List.length_nil]
    omega

-- ---------------------------------------------------------------------------
-- The tries
-- ---------------------------------------------------------------------------

/-- A temporary name of the hidden parent is in use. -/
def InUse (e : WhtmpEnv) (pfx : Name) (cnt : UInt8) : Prop :=
  e.sioLkupOne (whtmpName pfx cnt.toNat) = .ok true

/-- What should hold of a run: it writes within its array, looks up names within the limit only, and
ends with a name that is not in use or with an error. -/
def SetsAside (e : WhtmpEnv) (limit : Nat) (r : Option WhtmpRun) : Prop :=
  ∃ run, r = some run ∧ (∀ name ∈ run.names, name.length ≤ limit) ∧ run.result ≠ .bug ∧
    ∀ name, run.result = .negative name → e.sioLkupOne name = .ok false

theorem pick_names (tries : Nat) (cnt : UInt8) :
    ∀ name ∈ (e.pick pfx tries cnt).names, name.length = pfx.length + 13 := by
  induction tries generalizing cnt with
  | zero =>
    intro name hname
    cases hname
  | succ tries ih =>
    intro name hname
    rw [pick] at hname
    rcases hlook : e.sioLkupOne (whtmpName pfx cnt.toNat) with err | _ | _ <;>
      simp only [hlook, WhtmpRun.cons, List.mem_cons, List.not_mem_nil, or_false] at hname
    case error =>
      rw [hname]
      exact length_whtmpName ..
    case ok.false =>
      rw [hname]
      exact length_whtmpName ..
    case ok.true =>
      rcases hname with rfl | hname
      · exact length_whtmpName ..
      · exact ih (cnt + 1) name hname

/-- At least one name is looked up. -/
theorem pick_names_ne_nil (tries : Nat) (cnt : UInt8) : (e.pick pfx (tries + 1) cnt).names ≠ [] := by
  rw [pick]
  rcases e.sioLkupOne (whtmpName pfx cnt.toNat) with err | _ | _ <;> simp [WhtmpRun.cons]

/-- It is a `BUG()` just when the names of all tries are in use. -/
theorem pick_bug_iff (tries : Nat) (cnt : UInt8) :
    (e.pick pfx tries cnt).result = .bug ↔ ∀ i < tries, e.InUse pfx (cnt + UInt8.ofNat i) := by
  induction tries generalizing cnt with
  | zero => simp [pick]
  | succ tries ih =>
    have hsplit : (∀ i < tries + 1, e.InUse pfx (cnt + UInt8.ofNat i)) ↔
        e.InUse pfx cnt ∧ ∀ i < tries, e.InUse pfx (cnt + 1 + UInt8.ofNat i) := by
      rw [Nat.forall_lt_succ_left]
      have hzero : cnt + UInt8.ofNat 0 = cnt := UInt8.add_zero cnt
      have hsucc : ∀ i, cnt + UInt8.ofNat (i + 1) = cnt + 1 + UInt8.ofNat i := by
        intro i
        rw [Nat.add_comm, UInt8.ofNat_add, UInt8.add_assoc]
        rfl
      simp only [hzero, hsucc]
    rw [hsplit, ← ih (cnt + 1), pick, InUse]
    rcases e.sioLkupOne (whtmpName pfx cnt.toNat) with err | _ | _ <;> simp [WhtmpRun.cons]

theorem pick_negative (tries : Nat) (cnt : UInt8) {name : Name}
    (h : (e.pick pfx tries cnt).result = .negative name) : e.sioLkupOne name = .ok false := by
  induction tries generalizing cnt with
  | zero => cases h
  | succ tries ih =>
    rw [pick] at h
    rcases hlook : e.sioLkupOne (whtmpName pfx cnt.toNat) with err | _ | _ <;>
      simp only [hlook, WhtmpRun.cons] at h
    case error => cases h
    case ok.false =>
      cases h
      exact hlook
    case ok.true => exact ih (cnt + 1) h

/-- The tries set a name aside just when it is short enough and one of three is not in use. -/
theorem setsAside_pick_iff (limit : Nat) (cnt : UInt8) :
    e.SetsAside limit (some (e.pick pfx 3 cnt)) ↔
      pfx.length + 13 ≤ limit ∧ ∃ i < 3, ¬ e.InUse pfx (cnt + UInt8.ofNat i) := by
  have hbug : (e.pick pfx 3 cnt).result ≠ .bug ↔ ∃ i < 3, ¬ e.InUse pfx (cnt + UInt8.ofNat i) := by
    rw [ne_eq, pick_bug_iff]
    simp only [not_forall, exists_prop]
  rw [← hbug]
  constructor
  case mp =>
    rintro ⟨run, hrun, hnames, hresult, _⟩
    obtain rfl := Option.some.inj hrun
    have hne : (e.pick pfx 3 cnt).names ≠ [] := pick_names_ne_nil 2 cnt
    obtain ⟨name, hname⟩ := List.exists_mem_of_ne_nil _ hne
    have hlen := pick_names 3 cnt name hname
    exact ⟨hlen ▸ hnames name hname, hresult⟩
  case mpr =>
    rintro ⟨hlimit, hresult⟩
    refine ⟨_, rfl, ?_, hresult, fun name => pick_negative 3 cnt⟩
    intro name hname
    rw [pick_names 3 cnt name hname]
    exact hlimit

/-- A call that ends before it forms a name. -/
private theorem setsAside_error (limit : Nat) (err : Errno) :
    e.SetsAside limit (some ⟨[], .error err⟩) := by
  refine ⟨_, rfl, ?_, ?_, ?_⟩
  · intro name hname
    cases hname
  · intro hbug
    cases hbug
  · intro name hneg
    cases hneg

/-- A name that `aufs_statfs` admits is set aside just when there is no memory for its temporary
name, or it leaves room for two prefixes, a dot and the counter, and one of the three names is not
in use. -/
theorem lkupWhtmp_setsAside_iff (e : WhtmpEnv) {pfx : Name} (cnt : UInt8)
    (h : pfx.length ≤ statfsNamelen 255) :
    e.SetsAside 255 (e.lkupWhtmp pfx cnt) ↔
      e.inlineLen < pfx.length ∧ e.kmalloc = false ∨
      pfx.length ≤ 242 ∧ ∃ i < 3, ¬ e.InUse pfx (cnt + UInt8.ofNat i) := by
  have hpath : ¬ pathMax ≤ pfx.length + 13 := by
    simp only [statfsNamelen, whLen, whPfx, List.length_cons, List.length_nil] at h
    simp only [pathMax]
    omega
  have hroom : pfx.length + 13 ≤ 255 ↔ pfx.length ≤ 242 := by omega
  have hpick : e.SetsAside 255 (some (e.pick pfx 3 cnt)) ↔
      pfx.length ≤ 242 ∧ ∃ i < 3, ¬ e.InUse pfx (cnt + UInt8.ofNat i) := by
    rw [← hroom]
    exact setsAside_pick_iff 255 cnt
  rw [lkupWhtmp_eq, if_neg hpath]
  by_cases hlong : e.inlineLen < pfx.length
  case neg =>
    rw [if_neg hlong, hpick]
    exact (or_iff_right fun hmem => hlong hmem.1).symm
  case pos =>
    rw [if_pos hlong]
    cases hmem : e.kmalloc with
    | false => exact iff_of_true (setsAside_error ..) (Or.inl ⟨hlong, rfl⟩)
    | true =>
      rw [if_pos rfl, hpick]
      refine (or_iff_right ?_).symm
      rintro ⟨_, hfalse⟩
      cases hfalse

/-- An empty hidden parent. -/
def emptyParent (inlineLen : Nat) : WhtmpEnv where
  inlineLen := inlineLen
  stack := fun _ => 0
  heap := fun _ => 0
  kmalloc := true
  sioLkupOne := fun _ => .ok false

/-- A name of a given length. -/
def longName (n : Nat) : Name := List.replicate n 97

theorem length_longName (n : Nat) : (longName n).length = n := List.length_replicate

/-- The longest name that can be set aside. -/
theorem lkupWhtmp_setsAside_longest :
    (emptyParent 36).SetsAside 255 ((emptyParent 36).lkupWhtmp (longName 242) 0) := by
  have hadmitted : (longName 242).length ≤ statfsNamelen 255 := by
    rw [length_longName]
    decide
  refine (lkupWhtmp_setsAside_iff (emptyParent 36) 0 hadmitted).mpr (Or.inr ⟨?_, 0, by decide, ?_⟩)
  · exact Nat.le_of_eq (length_longName 242)
  · intro huse
    cases huse

/-- A name of 251 bytes is admitted, and its temporary name has 264. -/
theorem longName_not_setsAside :
    (longName 251).length ≤ statfsNamelen 255 ∧
      ¬ (emptyParent 36).SetsAside 255 ((emptyParent 36).lkupWhtmp (longName 251) 0) := by
  rw [lkupWhtmp_eq, length_longName]
  refine ⟨by decide, ?_⟩
  have hrun : (if (emptyParent 36).inlineLen < 251 then
      if pathMax ≤ 251 + 13 then (⟨[], .error .ENAMETOOLONG⟩ : WhtmpRun)
      else if (emptyParent 36).kmalloc then (emptyParent 36).pick (longName 251) 3 0
      else ⟨[], .error .ENOMEM⟩
    else (emptyParent 36).pick (longName 251) 3 0) = (emptyParent 36).pick (longName 251) 3 0 := rfl
  rw [hrun, setsAside_pick_iff, length_longName]
  rintro ⟨hlen, _⟩
  omega

end WhtmpEnv

end Aufs
