-- SUMMARY: The array of options that au_parse_opts fills and the references kept in it: slots, the terminator, and what is released on an error.
import Aufs.BrCalls
import Aufs.Options

/-!
# The array of options

`au_parse_opts` writes the options into a page and ends them with `Opt_tail`. An option keeps a path,
a dentry or a file, and after an error `au_free_opts` releases what it finds before the first
`Opt_tail`. The list of branches and the other options go on to the next slot in two places of the
code, which end differently when the page is full.
-/

namespace Aufs

open OptText

-- ---------------------------------------------------------------------------
-- Slots and references
-- ---------------------------------------------------------------------------

/-- Does `au_free_opts` release something of the option? -/
def Opt.carries : Opt → Bool
  | .add _ => true
  | .append .. => true
  | .prepend .. => true
  | .del _ => true
  | .mod .. => true
  | .xino _ => true
  | _ => false

/-- A slot: the option, and the reference that is kept with it. -/
structure OptSlot where
  opt : Opt
  ref : Option Nat

/-- What `au_free_opts` releases of a slot. -/
def OptSlot.held (s : OptSlot) : Option Nat := if s.opt.carries then s.ref else none

/-- The slots with what is behind them in memory, the position `opt`, how many slots were written
and whether one behind the array was, and the references: how many were acquired, in whose
order they are numbered, and which were released. -/
structure OptArray where
  slot : Nat → OptSlot
  opt : Nat
  top : Nat
  outside : Bool
  acquired : Nat
  released : List Nat

namespace OptArray

variable (c : OptConf) (a : OptArray)

/-- A slot is written. -/
def put (i : Nat) (s : OptSlot) : OptArray :=
  { a with
    slot := fun j => if j = i then s else a.slot j
    top := max a.top (i + 1)
    outside := a.outside || decide (c.maxOpt ≤ i) }

/-- `opt->type = Opt_tail` -/
def setTail : OptArray := a.put c a.opt ⟨.tail, none⟩

/-- The slot is written in part, its type is not. -/
def touch : OptArray := a.put c a.opt (a.slot a.opt)

def acquire : OptArray := { a with acquired := a.acquired + 1 }

def release (r : Nat) : OptArray := { a with released := a.released ++ [r] }

/-- An option goes into the slot with a new reference. -/
def keep (o : Opt) : OptArray := a.acquire.put c a.opt ⟨o, some a.acquired⟩

/-- An option goes into the slot. The dentry of `del` and `mod` is taken from a path that is
released. -/
def take (o : Opt) : OptArray :=
  match o with
  | .add _ => a.keep c o
  | .append .. => a.keep c o
  | .prepend .. => a.keep c o
  | .xino _ => a.keep c o
  | .del _ => (a.acquire.keep c o).release a.acquired
  | .mod .. => (a.acquire.keep c o).release a.acquired
  | _ => a.put c a.opt ⟨o, none⟩

/-- The next slot, at the end of the loop: the last slot becomes the end. -/
def next : Option Errno × OptArray :=
  if c.maxOpt ≤ a.opt + 1 then (some .E2BIG, a.setTail c)
  else (none, { a with opt := a.opt + 1 }.setTail c)

/-- The next slot, in the loop over the branches. -/
def nextBr : Option Errno × OptArray :=
  if c.maxOpt ≤ a.opt + 1 then (some .E2BIG, { a with opt := a.opt + 1 })
  else (none, { a with opt := a.opt + 1 }.setTail c)

/-- `au_free_opts` from a slot on. It may get to the end of the memory. -/
def auFreeOpts : Nat → Nat → OptArray → Option OptArray
  | 0, _, _ => none
  | n + 1, i, a =>
    if (a.slot i).opt.isTail then some a
    else
      match (a.slot i).held with
      | some r => auFreeOpts n (i + 1) (a.release r)
      | none => auFreeOpts n (i + 1) a

end OptArray

-- ---------------------------------------------------------------------------
-- Parsing
-- ---------------------------------------------------------------------------

section

variable (h : Host) (c : OptConf) (w : Namei)

/-- The loop over the branches of one option. -/
def slotBrs : List (List Char) → Int → OptArray → Except Errno Int × OptArray
  | [], bindex, a => (.ok bindex, a)
  | optStr :: ps, bindex, a =>
    match optAdd c w optStr bindex with
    | .error err => (.error err, a.setTail c)
    | .ok add =>
      match (a.take c (.add add)).nextBr c with
      | (some err, a) => (.error err, a)
      | (none, a) => slotBrs ps (h.branchMax.toBindex (bindex + 1)) a

/-- An option that is refused. A file in aufs was created and is released. -/
def refuse (token : OptToken) (args : List (List Char)) (a : OptArray) : OptArray :=
  match token, args with
  | .xino, [path] =>
    match w.filpOpen path with
    | .ok _ => a.acquire.release a.acquired
    | .error _ => a
  | _, _ => a.touch c

/-- The end of a round of the loop. -/
def slotNext (bindex : Int) (a : OptArray) : Except Errno Int × OptArray :=
  match a.next c with
  | (some err, a) => (.error err, a)
  | (none, a) => (.ok bindex, a)

/-- An option with one value. -/
def slotValue (bindex : Int) (token : OptToken) (args : List (List Char)) (a : OptArray) :
    Except Errno Int × OptArray :=
  match parseValue h c w bindex token args with
  | .error err => (.error err, refuse c w token args a)
  | .ok (opt, bindex) => slotNext c bindex (a.take c opt)

/-- One round of the loop of `au_parse_opts`. -/
def slotOpt (optStr : List Char) (bindex : Int) (a : OptArray) : Except Errno Int × OptArray :=
  match matchToken .err c.options optStr with
  | (.br, args) =>
    match pieces ':' (args.headD []) with
    | [] => slotNext c bindex a
    | ps => slotBrs h c w ps bindex a
  | (.ignore, _) => (.ok bindex, a)
  | (token, args) => slotValue h c w bindex token args a

/-- The loop of `au_parse_opts`. -/
def slotOpts : List (List Char) → Int → OptArray → Except Errno Int × OptArray
  | [], bindex, a => (.ok bindex, a)
  | optStr :: ps, bindex, a =>
    match slotOpt h c w optStr bindex a with
    | (.error err, a) => (.error err, a)
    | (.ok bindex, a) => slotOpts ps bindex a

/-- How `au_parse_opts` ends: the error, the array, and what `au_free_opts` makes of it. -/
structure OptExit where
  err : Option Errno
  arr : OptArray
  freed : Option OptArray

/-- The end of `au_parse_opts`, with memory for `n` slots. -/
def optExit (n : Nat) : Except Errno Int × OptArray → OptExit
  | (.ok _, a) => ⟨none, a, none⟩
  | (.error err, a) => ⟨some err, a, OptArray.auFreeOpts n 0 a⟩

/-- `au_parse_opts` on a page with this contents, with `behind` more slots of memory behind the array. -/
def slotParseOpts (mem : Nat → OptSlot) (behind : Nat) (str : List Char) : OptExit :=
  optExit (c.maxOpt + behind)
    (slotOpts h c w (pieces ',' str) 0 (OptArray.setTail c ⟨mem, 0, 0, false, 0, []⟩))

-- ---------------------------------------------------------------------------
-- What a text asks for
-- ---------------------------------------------------------------------------

/-- The options of one list of branches. -/
def brPlaces : List (List Char) → Int → List (Opt × Bool) × Except Errno Int
  | [], bindex => ([], .ok bindex)
  | optStr :: ps, bindex =>
    match optAdd c w optStr bindex with
    | .error err => ([], .error err)
    | .ok add =>
      let (l, r) := brPlaces ps (h.branchMax.toBindex (bindex + 1))
      ((.add add, true) :: l, r)

/-- The option of one value. -/
def valuePlaces (bindex : Int) (token : OptToken) (args : List (List Char)) :
    List (Opt × Bool) × Except Errno Int :=
  match parseValue h c w bindex token args with
  | .error err => ([], .error err)
  | .ok (opt, bindex) => ([(opt, false)], .ok bindex)

/-- The options of one text, each with whether it is of a list of branches. -/
def optPlaces (optStr : List Char) (bindex : Int) : List (Opt × Bool) × Except Errno Int :=
  match matchToken .err c.options optStr with
  | (.br, args) =>
    match pieces ':' (args.headD []) with
    | [] => ([(.tail, false)], .ok bindex)
    | ps => brPlaces h c w ps bindex
  | (.ignore, _) => ([], .ok bindex)
  | (token, args) => valuePlaces h c w bindex token args

/-- The options of a text up to the first error, were the array without end. -/
def places : List (List Char) → Int → List (Opt × Bool) × Except Errno Int
  | [], bindex => ([], .ok bindex)
  | optStr :: ps, bindex =>
    match optPlaces h c w optStr bindex with
    | (l, .error err) => (l, .error err)
    | (l, .ok bindex) => (l ++ (places ps bindex).1, (places ps bindex).2)

end

-- ---------------------------------------------------------------------------
-- The array and the list it stands for
-- ---------------------------------------------------------------------------

/-- The references in slots. -/
def refs (l : List OptSlot) : List Nat := l.filterMap OptSlot.held

@[simp] theorem refs_append (l l' : List OptSlot) : refs (l ++ l') = refs l ++ refs l' := List.filterMap_append

namespace OptArray

variable {c : OptConf} {a : OptArray} {l : List OptSlot} {s : OptSlot} {lost : List Nat} {o : Opt}

/-- The first slots hold these options, and the references are those that were released, those in the
slots, and those that are lost. -/
structure Slots (c : OptConf) (a : OptArray) (l : List OptSlot) (lost : List Nat) : Prop where
  slot : ∀ i (hi : i < l.length), a.slot i = l[i]
  outside : a.outside = false
  own : ∀ s ∈ l, s.opt.carries = true → s.ref.isSome
  ledger : (a.released ++ refs l ++ lost).Perm (List.range a.acquired)

/-- The options end in the array. -/
structure Holds (c : OptConf) (a : OptArray) (l : List OptSlot) (lost : List Nat) : Prop
    extends Slots c a l lost where
  opt : a.opt = l.length
  lt : l.length < c.maxOpt
  tail : a.slot l.length = ⟨.tail, none⟩
  top : a.top = l.length + 1

/-- The slot at the position has just been filled. -/
structure Filled (c : OptConf) (a : OptArray) (l : List OptSlot) (s : OptSlot) : Prop
    extends Slots c a (l ++ [s]) [] where
  opt : a.opt = l.length
  lt : l.length < c.maxOpt
  top : a.top = l.length + 1

/-- The array is full, and no slot ends the options. -/
structure Over (c : OptConf) (a : OptArray) (l : List OptSlot) : Prop extends Slots c a l [] where
  len : l.length = c.maxOpt
  top : a.top = l.length

theorem getElem_append_singleton {i : Nat} (hi : i < (l ++ [s]).length) :
    (l ++ [s])[i] = if h : i < l.length then l[i] else s := by
  rw [List.getElem_append]
  split
  · rfl
  · simp only [List.getElem_singleton]

theorem Slots.put_end (h : Slots c a l lost) (hlt : l.length < c.maxOpt) :
    Slots c (a.put c l.length s) l lost where
  slot i hi := by
    rw [put]
    dsimp only
    rw [if_neg (Nat.ne_of_lt hi), h.slot i hi]
  outside := by
    simp only [put, h.outside, Bool.false_or, decide_eq_false_iff_not, Nat.not_le]
    exact hlt
  own := h.own
  ledger := h.ledger

theorem Holds.setTail (h : Holds c a l lost) : Holds c (a.setTail c) l lost := by
  unfold OptArray.setTail
  rw [h.opt]
  refine { toSlots := h.toSlots.put_end h.lt, opt := h.opt, lt := h.lt, tail := if_pos rfl, top := ?_ }
  simp only [put, h.top, Nat.max_self]

theorem Holds.touch (h : Holds c a l lost) : Holds c (a.touch c) l lost := by
  unfold OptArray.touch
  rw [h.opt]
  refine { toSlots := h.toSlots.put_end h.lt, opt := h.opt, lt := h.lt, tail := ?_, top := ?_ }
  · simp only [put, if_true]
    exact h.tail
  · simp only [put, h.top, Nat.max_self]

/-- A slot is filled, where the references are those of the slots with it. -/
theorem Holds.put (h : Holds c a l []) (hown : s.opt.carries = true → s.ref.isSome) {b : OptArray}
    (hslot : b.slot = a.slot) (hopt : b.opt = a.opt) (htop : b.top = a.top) (hout : b.outside = a.outside)
    (hledger : (b.released ++ refs (l ++ [s])).Perm (List.range b.acquired)) :
    Filled c (b.put c b.opt s) l s := by
  have hpos : b.opt = l.length := hopt.trans h.opt
  refine { slot := fun i hi => ?_, outside := ?_, own := fun t ht => ?_, ledger := ?_, opt := hpos, lt := h.lt,
           top := ?_ }
  · rw [getElem_append_singleton, OptArray.put, hpos]
    rw [List.length_append, List.length_singleton] at hi
    dsimp only
    by_cases hlt : i < l.length
    · rw [if_neg (Nat.ne_of_lt hlt), dif_pos hlt, hslot, h.slot i hlt]
    · rw [if_pos (by omega), dif_neg hlt]
  · simp only [OptArray.put, hout, h.outside, Bool.false_or, decide_eq_false_iff_not, Nat.not_le, hpos]
    exact h.lt
  · rcases List.mem_append.mp ht with ht | ht
    · exact h.own t ht
    · rw [List.mem_singleton.mp ht]
      exact hown
  · rw [List.append_nil]
    exact hledger
  · simp only [OptArray.put, htop, h.top, hpos, Nat.max_self]

/-- The end itself fills a slot. -/
theorem Holds.filled (h : Holds c a l []) : Filled c a l ⟨.tail, none⟩ := by
  refine { slot := fun i hi => ?_, outside := h.outside, own := fun t ht => ?_, ledger := ?_, opt := h.opt,
           lt := h.lt, top := h.top }
  · rw [getElem_append_singleton]
    rw [List.length_append, List.length_singleton] at hi
    split
    · exact h.slot i _
    · rw [show i = l.length by omega]
      exact h.tail
  · rcases List.mem_append.mp ht with ht | ht
    · exact h.own t ht
    · rw [List.mem_singleton.mp ht]
      exact fun hc => by cases hc
  · rw [refs_append, show refs [⟨.tail, none⟩] = [] from rfl, List.append_nil (refs l)]
    exact h.ledger

/-- The order of the references does not matter. -/
theorem Holds.ledger_keep (h : Holds c a l []) :
    (a.released ++ (refs l ++ [a.acquired])).Perm (List.range (a.acquired + 1)) := by
  have hl := h.ledger
  rw [List.append_nil] at hl
  rw [List.range_succ, ← List.append_assoc]
  exact hl.append_right _

theorem Holds.keep (h : Holds c a l []) (ho : o.carries = true) :
    Filled c (a.keep c o) l ⟨o, some a.acquired⟩ := by
  refine Holds.put (b := a.acquire) h (fun _ => rfl) rfl rfl rfl rfl ?_
  rw [refs_append]
  have : refs [⟨o, some a.acquired⟩] = [a.acquired] := by simp [refs, OptSlot.held, ho]
  rw [this]
  exact h.ledger_keep

/-- A reference that was taken besides is released again. -/
theorem Holds.keep_release (h : Holds c a l []) (ho : o.carries = true) :
    Filled c ((a.acquire.keep c o).release a.acquired) l ⟨o, some (a.acquired + 1)⟩ := by
  have hfilled := Holds.put (b := a.acquire.acquire.release a.acquired) (s := ⟨o, some (a.acquired + 1)⟩) h
    (fun _ => rfl) rfl rfl rfl rfl ?_
  · exact { hfilled with }
  rw [refs_append]
  have : refs [⟨o, some (a.acquired + 1)⟩] = [a.acquired + 1] := by simp [refs, OptSlot.held, ho]
  rw [this]
  have hl := h.ledger_keep
  have hswap : (a.released ++ [a.acquired] ++ (refs l ++ [a.acquired + 1])).Perm
      (a.released ++ (refs l ++ [a.acquired]) ++ [a.acquired + 1]) := by
    simp only [List.append_assoc]
    refine List.Perm.append_left _ ?_
    rw [← List.append_assoc, ← List.append_assoc (refs l)]
    exact List.Perm.append_right _ List.perm_append_comm
  refine hswap.trans ?_
  have hr : List.range (a.acquired + 1 + 1) = List.range (a.acquired + 1) ++ [a.acquired + 1] :=
    List.range_succ
  show List.Perm _ (List.range (a.acquired + 1 + 1))
  rw [hr]
  exact hl.append_right _

theorem Holds.take (h : Holds c a l []) (o : Opt) : ∃ s, s.opt = o ∧ Filled c (a.take c o) l s := by
  have hplain : o.carries = false → Filled c (a.put c a.opt ⟨o, none⟩) l ⟨o, none⟩ := by
    intro ho
    refine Holds.put (b := a) h (fun hc => by rw [ho] at hc; cases hc) rfl rfl rfl rfl ?_
    have : refs [⟨o, none⟩] = [] := by simp [refs, OptSlot.held]
    rw [refs_append, this, List.append_nil]
    have := h.ledger
    rwa [List.append_nil] at this
  cases o
  case add => exact ⟨_, rfl, h.keep rfl⟩
  case append => exact ⟨_, rfl, h.keep rfl⟩
  case prepend => exact ⟨_, rfl, h.keep rfl⟩
  case xino => exact ⟨_, rfl, h.keep rfl⟩
  case del => exact ⟨_, rfl, h.keep_release rfl⟩
  case mod => exact ⟨_, rfl, h.keep_release rfl⟩
  all_goals exact ⟨_, rfl, hplain rfl⟩

/-- On to the next slot. -/
theorem Filled.advance (h : Filled c a l s) (hlt : l.length + 1 < c.maxOpt) :
    Holds c ({ a with opt := a.opt + 1 }.setTail c) (l ++ [s]) [] := by
  have hpos : ({ a with opt := a.opt + 1 } : OptArray).opt = (l ++ [s]).length := by
    rw [List.length_append, List.length_singleton]
    exact congrArg (· + 1) h.opt
  unfold OptArray.setTail
  rw [hpos]
  have hslots : Slots c { a with opt := a.opt + 1 } (l ++ [s]) [] := { h.toSlots with }
  have hlen : (l ++ [s]).length < c.maxOpt := by
    rw [List.length_append, List.length_singleton]
    exact hlt
  refine { toSlots := hslots.put_end hlen, opt := hpos, lt := hlen, tail := if_pos rfl, top := ?_ }
  simp only [OptArray.put, h.top, List.length_append, List.length_singleton]
  omega

theorem Filled.next_lt (h : Filled c a l s) (hlt : l.length + 1 < c.maxOpt) :
    ∃ b, a.next c = (none, b) ∧ Holds c b (l ++ [s]) [] := by
  refine ⟨_, if_neg ?_, h.advance hlt⟩
  rw [h.opt]
  omega

theorem Filled.nextBr_lt (h : Filled c a l s) (hlt : l.length + 1 < c.maxOpt) :
    ∃ b, a.nextBr c = (none, b) ∧ Holds c b (l ++ [s]) [] := by
  refine ⟨_, if_neg ?_, h.advance hlt⟩
  rw [h.opt]
  omega

/-- In a full array the last option makes way for the end, and its reference is lost. -/
theorem Filled.next_full (h : Filled c a l s) (hfull : l.length + 1 = c.maxOpt) :
    ∃ b, a.next c = (some .E2BIG, b) ∧ Holds c b l s.held.toList := by
  refine ⟨_, if_pos ?_, ?_⟩
  · rw [h.opt]
    omega
  · have hslots : Slots c a l s.held.toList := by
      refine { slot := fun i hi => ?_, outside := h.outside, own := fun t ht => ?_, ledger := ?_ }
      · have := h.slot i (by rw [List.length_append]; omega)
        rw [this, List.getElem_append_left hi]
      · exact h.own t (List.mem_append_left _ ht)
      · have hl := h.ledger
        rw [List.append_nil, refs_append, ← List.append_assoc] at hl
        have : refs [s] = s.held.toList := by
          simp only [refs, List.filterMap_cons, List.filterMap_nil]
          cases s.held <;> rfl
        rwa [this] at hl
    unfold OptArray.setTail
    rw [h.opt]
    refine { toSlots := hslots.put_end h.lt, opt := h.opt, lt := h.lt, tail := if_pos rfl, top := ?_ }
    simp only [OptArray.put, h.top, Nat.max_self]

/-- In the loop over the branches it stays, and no slot is left for the end. -/
theorem Filled.nextBr_full (h : Filled c a l s) (hfull : l.length + 1 = c.maxOpt) :
    ∃ b, a.nextBr c = (some .E2BIG, b) ∧ Over c b (l ++ [s]) := by
  refine ⟨_, if_pos ?_, { h.toSlots with len := ?_, top := ?_ }⟩
  · rw [h.opt]
    omega
  · rw [List.length_append, List.length_singleton, hfull]
  · rw [List.length_append, List.length_singleton]
    exact h.top

theorem Holds.refuse (h : Holds c a l []) (w : Namei) (token : OptToken) (args : List (List Char)) :
    Holds c (Aufs.refuse c w token args a) l [] := by
  unfold Aufs.refuse
  split
  · split
    · refine { slot := h.slot, outside := h.outside, own := h.own, ledger := ?_, opt := h.opt, lt := h.lt,
               tail := h.tail, top := h.top }
      have hl := h.ledger_keep
      rw [← List.append_assoc] at hl
      rw [List.append_nil]
      have hswap : (a.released ++ [a.acquired] ++ refs l).Perm (a.released ++ refs l ++ [a.acquired]) := by
        simp only [List.append_assoc]
        exact List.Perm.append_left _ List.perm_append_comm
      exact hswap.trans hl
    · exact h
  · exact h.touch

end OptArray

open OptArray

-- ---------------------------------------------------------------------------
-- How the loops end
-- ---------------------------------------------------------------------------

variable {h : Host} {c : OptConf} {w : Namei} {a b : OptArray} {pre : List Opt}
  {q q₁ q₂ : List (Opt × Bool)} {res res' r : Except Errno Int}

/-- How a loop ends that is to store the options `q` behind `pre`: there is room for them, or the array
is full with one of them that ends the loop, or with one of a list of branches. -/
inductive Outcome (c : OptConf) (pre : List Opt) (q : List (Opt × Bool)) (res : Except Errno Int) :
    Except Errno Int → OptArray → Prop where
  | room {a : OptArray} (l : List OptSlot) (hl : l.map OptSlot.opt = pre ++ q.map Prod.fst)
      (h : OptArray.Holds c a l []) : Outcome c pre q res res a
  | full {a : OptArray} (l : List OptSlot) (lost : List Nat) (q₁ : List (Opt × Bool)) (o : Opt)
      (q₂ : List (Opt × Bool)) (hq : q = q₁ ++ (o, false) :: q₂)
      (hl : l.map OptSlot.opt = pre ++ q₁.map Prod.fst) (hlen : l.length + 1 = c.maxOpt)
      (hlost : lost = [] ↔ o.carries = false) (h : OptArray.Holds c a l lost) :
      Outcome c pre q res (.error .E2BIG) a
  | overfull {a : OptArray} (l : List OptSlot) (q₁ : List (Opt × Bool)) (o : Opt) (q₂ : List (Opt × Bool))
      (hq : q = q₁ ++ (o, true) :: q₂) (hl : l.map OptSlot.opt = pre ++ q₁.map Prod.fst ++ [o])
      (ho : o.carries = true) (h : Over c a l) : Outcome c pre q res (.error .E2BIG) a

namespace Outcome

/-- A loop that has ended for want of room does not care what would have followed. -/
theorem extend (hfull : Outcome c pre q₁ res r a) (hr : r ≠ res) : Outcome c pre (q₁ ++ q₂) res' r a := by
  cases hfull with
  | room l hl h => exact absurd rfl hr
  | full l lost p o p' hq hl hlen hlost h =>
    exact .full l lost p o (p' ++ q₂) (by rw [hq, List.append_assoc, List.cons_append]) hl hlen hlost h
  | overfull l p o p' hq hl ho h =>
    exact .overfull l p o (p' ++ q₂) (by rw [hq, List.append_assoc, List.cons_append]) hl ho h

/-- What comes after options for which there was room. -/
theorem after (h : Outcome c (pre ++ q₁.map Prod.fst) q₂ res r a) : Outcome c pre (q₁ ++ q₂) res r a := by
  cases h with
  | room l hl h => exact .room l (by rw [hl, List.map_append, List.append_assoc]) h
  | full l lost p o p' hq hl hlen hlost h =>
    exact .full l lost (q₁ ++ p) o p' (by rw [hq, List.append_assoc])
      (by rw [hl, List.map_append, List.append_assoc]) hlen hlost h
  | overfull l p o p' hq hl ho h =>
    exact .overfull l (q₁ ++ p) o p' (by rw [hq, List.append_assoc])
      (by simp only [hl, List.map_append, List.append_assoc]) ho h

end Outcome

/-- The slots have the options of the list. -/
def Parsed (c : OptConf) (pre : List Opt) (a : OptArray) : Prop :=
  ∃ l, l.map OptSlot.opt = pre ∧ OptArray.Holds c a l []

theorem slotBrs_outcome {ps : List (List Char)} {bindex : Int} (ha : Parsed c pre a) :
    Outcome c pre (brPlaces h c w ps bindex).1 (brPlaces h c w ps bindex).2
      (slotBrs h c w ps bindex a).1 (slotBrs h c w ps bindex a).2 := by
  induction ps generalizing pre bindex a with
  | nil =>
    obtain ⟨l, hl, hh⟩ := ha
    exact .room l (by rw [hl]; exact (List.append_nil _).symm) hh
  | cons s ps ih =>
    obtain ⟨l, hl, hh⟩ := ha
    rw [brPlaces, slotBrs]
    cases hadd : optAdd c w s bindex with
    | error err => exact .room l (by rw [hl]; exact (List.append_nil _).symm) hh.setTail
    | ok add =>
      dsimp only
      obtain ⟨t, ht, hfilled⟩ := hh.take (.add add)
      rcases Nat.lt_or_ge (l.length + 1) c.maxOpt with hlt | hge
      · obtain ⟨b, hb, hhb⟩ := hfilled.nextBr_lt hlt
        rw [hb]
        have hb' : Parsed c (pre ++ [.add add]) b := ⟨_, by rw [List.map_append, hl, List.map_singleton, ht], hhb⟩
        show Outcome c pre ([(.add add, true)] ++ _) _ _ _
        exact Outcome.after (ih hb')
      · have hlen : l.length + 1 = c.maxOpt := Nat.le_antisymm hh.lt hge
        obtain ⟨b, hb, hob⟩ := hfilled.nextBr_full hlen
        rw [hb]
        refine .overfull _ [] (.add add) _ rfl ?_ rfl hob
        rw [List.map_append, hl, List.map_singleton, ht, List.map_nil, List.append_nil]

/-- One option, stored at the end of the loop. -/
theorem slotNext_outcome {l : List OptSlot} {s : OptSlot} {bindex : Int} (hl : l.map OptSlot.opt = pre)
    (hfilled : Filled c a l s) :
    Outcome c pre [(s.opt, false)] (.ok bindex) (slotNext c bindex a).1 (slotNext c bindex a).2 := by
  unfold slotNext
  rcases Nat.lt_or_ge (l.length + 1) c.maxOpt with hlt | hge
  · obtain ⟨b, hb, hhb⟩ := hfilled.next_lt hlt
    rw [hb]
    exact .room _ (by rw [List.map_append, hl]; rfl) hhb
  · have hlen : l.length + 1 = c.maxOpt := Nat.le_antisymm hfilled.lt hge
    obtain ⟨b, hb, hhb⟩ := hfilled.next_full hlen
    rw [hb]
    refine .full l _ [] s.opt [] rfl (by rw [hl, List.map_nil, List.append_nil]) hlen ?_ hhb
    have hown := hfilled.own s (List.mem_append_right _ List.mem_cons_self)
    unfold OptSlot.held
    cases hc : s.opt.carries with
    | false => simp
    | true =>
      obtain ⟨k, hk⟩ := Option.isSome_iff_exists.mp (hown hc)
      simp [hk]

theorem slotValue_outcome {bindex : Int} {token : OptToken} {args : List (List Char)} (ha : Parsed c pre a) :
    Outcome c pre (valuePlaces h c w bindex token args).1 (valuePlaces h c w bindex token args).2
      (slotValue h c w bindex token args a).1 (slotValue h c w bindex token args a).2 := by
  obtain ⟨l, hl, hh⟩ := ha
  unfold valuePlaces slotValue
  cases parseValue h c w bindex token args with
  | error err => exact .room l (by rw [hl, List.map_nil, List.append_nil]) (hh.refuse w token args)
  | ok r =>
    obtain ⟨s, hs, hfilled⟩ := hh.take r.1
    have hnext : Outcome c pre [(s.opt, false)] (.ok r.2) _ _ := slotNext_outcome hl hfilled
    rwa [hs] at hnext

theorem slotOpt_outcome {optStr : List Char} {bindex : Int} (ha : Parsed c pre a) :
    Outcome c pre (optPlaces h c w optStr bindex).1 (optPlaces h c w optStr bindex).2
      (slotOpt h c w optStr bindex a).1 (slotOpt h c w optStr bindex a).2 := by
  obtain ⟨l, hl, hh⟩ := id ha
  rcases hm : matchToken .err c.options optStr with ⟨token, args⟩
  cases token
  case br =>
    cases hp : pieces ':' (args.headD []) with
    | nil =>
      simp only [optPlaces, slotOpt, hm, hp]
      exact slotNext_outcome hl hh.filled
    | cons p ps =>
      simp only [optPlaces, slotOpt, hm, hp]
      exact slotBrs_outcome ha
  case ignore =>
    simp only [optPlaces, slotOpt, hm]
    exact .room l (by rw [hl, List.map_nil, List.append_nil]) hh
  all_goals
    simp only [optPlaces, slotOpt, hm]
    exact slotValue_outcome ha

theorem slotOpts_outcome {ps : List (List Char)} {bindex : Int} (ha : Parsed c pre a) :
    Outcome c pre (places h c w ps bindex).1 (places h c w ps bindex).2
      (slotOpts h c w ps bindex a).1 (slotOpts h c w ps bindex a).2 := by
  induction ps generalizing pre bindex a with
  | nil =>
    obtain ⟨l, hl, hh⟩ := ha
    exact .room l (by rw [hl]; exact (List.append_nil _).symm) hh
  | cons s ps ih =>
    have hstep : Outcome c pre (optPlaces h c w s bindex).1 _ _ _ := slotOpt_outcome ha
    rw [places, slotOpts]
    generalize optPlaces h c w s bindex = p at hstep ⊢
    generalize slotOpt h c w s bindex a = x at hstep ⊢
    obtain ⟨q₁, res⟩ := p
    obtain ⟨r, b⟩ := x
    dsimp only at hstep ⊢
    cases res with
    | error err =>
      cases r with
      | error err' => exact hstep
      | ok i => cases hstep
    | ok i =>
      cases r with
      | error err => exact hstep.extend fun he => by cases he
      | ok j =>
        cases hstep with
        | room l hl hh => exact Outcome.after (ih ⟨l, hl, hh⟩)

-- ---------------------------------------------------------------------------
-- What is released
-- ---------------------------------------------------------------------------

/-- `au_free_opts` releases what is before the first end. -/
theorem auFreeOpts_eq {n i : Nat} {l : List OptSlot} (hslot : ∀ j (hj : j < l.length), a.slot (i + j) = l[j])
    (htail : ∀ s ∈ l, s.opt.isTail = false) (hend : (a.slot (i + l.length)).opt.isTail = true)
    (hn : l.length < n) :
    auFreeOpts n i a = some { a with released := a.released ++ refs l } := by
  induction l generalizing n i a with
  | nil =>
    obtain ⟨n, rfl⟩ : ∃ m, n = m + 1 := ⟨n - 1, by omega⟩
    rw [auFreeOpts, if_pos (by simpa using hend)]
    simp [refs]
  | cons s l ih =>
    obtain ⟨n, rfl⟩ : ∃ m, n = m + 1 := ⟨n - 1, by omega⟩
    have hs : a.slot i = s := hslot 0 (Nat.succ_pos _)
    have hrest : ∀ j (hj : j < l.length), a.slot (i + 1 + j) = l[j] := fun j hj => by
      have := hslot (j + 1) (Nat.succ_lt_succ hj)
      rw [List.getElem_cons_succ] at this
      rwa [Nat.add_assoc, Nat.add_comm 1]
    have hend' : (a.slot (i + 1 + l.length)).opt.isTail = true := by
      rwa [Nat.add_assoc, Nat.add_comm 1]
    have htail' : ∀ t ∈ l, t.opt.isTail = false := fun t ht => htail t (List.mem_cons_of_mem _ ht)
    rw [auFreeOpts, hs, if_neg (by simp [htail s List.mem_cons_self])]
    cases hheld : s.held with
    | none =>
      dsimp only
      rw [ih hrest htail' hend' (Nat.lt_of_succ_lt_succ hn)]
      simp [refs, hheld]
    | some r =>
      dsimp only
      rw [ih (a := a.release r) hrest htail' hend' (Nat.lt_of_succ_lt_succ hn)]
      simp [refs, hheld, OptArray.release]

/-- The array ends within, and once, and after an error each reference has been released once. -/
structure OptExit.Owns (c : OptConf) (x : OptExit) : Prop where
  inside : x.arr.outside = false
  tail : ∃ t, t < x.arr.top ∧ t < c.maxOpt ∧ ∀ i < x.arr.top, ((x.arr.slot i).opt.isTail = true ↔ i = t)
  released : ∀ err, x.err = some err → ∃ f, x.freed = some f ∧ f.released.Perm (List.range f.acquired)

/-- With the end behind the options, it is the only one if none of them is an end, and what is lost is
not released. -/
theorem OptArray.Holds.owns_iff {x : OptExit} {n : Nat} {l : List OptSlot} {lost : List Nat}
    (hh : OptArray.Holds c x.arr l lost) (hfreed : ∀ err, x.err = some err → x.freed = auFreeOpts n 0 x.arr)
    (hn : c.maxOpt ≤ n) :
    x.Owns c ↔ (∀ s ∈ l, s.opt.isTail = false) ∧ ∀ err, x.err = some err → lost = [] := by
  have hend : (x.arr.slot (0 + l.length)).opt.isTail = true := by
    rw [Nat.zero_add, hh.tail]
    rfl
  have hslot : ∀ j (hj : j < l.length), x.arr.slot (0 + j) = l[j] := fun j hj => by
    rw [Nat.zero_add]
    exact hh.slot j hj
  have hfree : (∀ s ∈ l, s.opt.isTail = false) → ∀ err, x.err = some err →
      x.freed = some { x.arr with released := x.arr.released ++ refs l } := fun hno err he => by
    rw [hfreed err he]
    exact auFreeOpts_eq hslot hno hend (Nat.lt_of_lt_of_le hh.lt hn)
  constructor
  · rintro ⟨-, ⟨t, -, -, htail⟩, hrel⟩
    have hno : ∀ s ∈ l, s.opt.isTail = false := by
      intro s hs
      obtain ⟨j, hj, rfl⟩ := List.getElem_of_mem hs
      have hlast := (htail l.length (by rw [hh.top]; omega)).mp (by rw [← Nat.zero_add l.length]; exact hend)
      by_contra hc
      have := (htail j (by rw [hh.top]; omega)).mp (by rw [hh.slot j hj]; simpa using hc)
      omega
    refine ⟨hno, fun err he => ?_⟩
    obtain ⟨f, hf, hperm⟩ := hrel err he
    rw [hfree hno err he] at hf
    obtain rfl := Option.some.inj hf
    have hlen : (x.arr.released ++ refs l ++ lost).length = (x.arr.released ++ refs l).length :=
      hh.ledger.length_eq.trans hperm.length_eq.symm
    rw [List.length_append] at hlen
    exact List.length_eq_zero_iff.mp (by omega)
  · rintro ⟨hno, hlost⟩
    refine ⟨hh.outside, ⟨l.length, by rw [hh.top]; omega, hh.lt, fun i hi => ?_⟩, fun err he => ?_⟩
    · rw [hh.top] at hi
      rcases Nat.lt_or_ge i l.length with hlt | hge
      · rw [hh.slot i hlt, hno _ (List.getElem_mem hlt)]
        exact ⟨(fun h => by cases h), fun h => absurd h (Nat.ne_of_lt hlt)⟩
      · obtain rfl : i = l.length := by omega
        rw [← Nat.zero_add l.length]
        exact ⟨fun _ => rfl, fun _ => hend⟩
    · refine ⟨_, hfree hno err he, ?_⟩
      have := hh.ledger
      rwa [hlost err he, List.append_nil] at this

/-- A full array without an end: either the walk does not end in it, or it ends at an earlier one and the
last reference stays. -/
theorem OptArray.Over.not_owns {x : OptExit} {n : Nat} {l : List OptSlot} {s : OptSlot} {err : Errno}
    (ho : Over c x.arr (l ++ [s])) (hs : s.opt.carries = true) (herr : x.err = some err)
    (hfreed : x.freed = auFreeOpts n 0 x.arr) (hn : c.maxOpt ≤ n) : ¬x.Owns c := by
  rintro ⟨-, ⟨t, ht, -, htail⟩, hrel⟩
  have hnot : s.opt.isTail = false := by
    cases hc : s.opt <;> first
      | rfl
      | rw [hc] at hs; cases hs
  rw [ho.top, List.length_append, List.length_singleton] at ht
  have hslot_t := (htail t (by rw [ho.top, List.length_append, List.length_singleton]; exact ht)).mpr rfl
  have htl : t < l.length := by
    by_contra hge
    obtain rfl : t = l.length := by omega
    rw [ho.slot l.length (by simp), getElem_append_singleton, dif_neg (Nat.lt_irrefl _), hnot] at hslot_t
    cases hslot_t
  have hslot : ∀ j (hj : j < (l.take t).length), x.arr.slot (0 + j) = (l.take t)[j] := fun j hj => by
    rw [List.length_take] at hj
    rw [Nat.zero_add, ho.slot j (by rw [List.length_append]; omega), getElem_append_singleton,
      dif_pos (show j < l.length by omega), List.getElem_take]
  have hlen : (l.take t).length = t := by rw [List.length_take]; omega
  have hno : ∀ u ∈ l.take t, u.opt.isTail = false := by
    intro u hu
    obtain ⟨j, hj, rfl⟩ := List.getElem_of_mem hu
    rw [← hslot j hj, Nat.zero_add]
    rw [hlen] at hj
    by_contra hc
    have := (htail j (by rw [ho.top, List.length_append]; omega)).mp (by simpa using hc)
    omega
  have hnlt : (l.take t).length < n := by
    have := ho.len
    rw [List.length_append, List.length_singleton] at this
    omega
  obtain ⟨f, hf, hperm⟩ := hrel err herr
  rw [hfreed, auFreeOpts_eq hslot hno (by rw [hlen, Nat.zero_add]; exact hslot_t) hnlt] at hf
  obtain rfl := Option.some.inj hf
  -- the reference of the last slot is not among those
  have hcount := ho.ledger.length_eq.trans hperm.length_eq.symm
  obtain ⟨k, hk⟩ := Option.isSome_iff_exists.mp
    (ho.own s (List.mem_append_right _ List.mem_cons_self) hs)
  have hlast : refs [s] = [k] := by simp [refs, OptSlot.held, hs, hk]
  have hsplit : refs l = refs (l.take t) ++ refs (l.drop t) := by rw [← refs_append, List.take_append_drop]
  rw [List.append_nil, refs_append, hlast, hsplit] at hcount
  simp only [List.length_append, List.length_singleton] at hcount
  omega

/-- What fits into the array: no list of branches is empty before it is full, and the option that fills
it is not of a list of branches and carries nothing. -/
def Roomy (c : OptConf) (q : List (Opt × Bool)) : Prop :=
  (∀ p ∈ q.take (c.maxOpt - 1), p.1.isTail = false) ∧
    ∀ p, q[c.maxOpt - 1]? = some p → p.2 = false ∧ p.1.carries = false

/-- The empty array. -/
theorem holds_init (hmax : 1 ≤ c.maxOpt) (mem : Nat → OptSlot) :
    OptArray.Holds c (OptArray.setTail c ⟨mem, 0, 0, false, 0, []⟩) [] [] where
  slot i hi := absurd hi (Nat.not_lt_zero i)
  outside := by
    simp only [OptArray.setTail, put, Bool.false_or, decide_eq_false_iff_not, Nat.not_le]
    exact hmax
  own s hs := absurd hs List.not_mem_nil
  ledger := List.Perm.refl []
  opt := rfl
  lt := hmax
  tail := rfl
  top := rfl

/-- The options of slots are no ends where those of the text are none. -/
theorem forall_isTail_iff {l : List OptSlot} {q : List (Opt × Bool)}
    (hl : l.map OptSlot.opt = q.map Prod.fst) :
    (∀ s ∈ l, s.opt.isTail = false) ↔ ∀ p ∈ q, p.1.isTail = false := by
  rw [← List.forall_mem_map (f := OptSlot.opt) (P := fun o => o.isTail = false),
    ← List.forall_mem_map (f := Prod.fst) (P := fun o : Opt => o.isTail = false), hl]

/-- A call ends well where its options fit. -/
theorem Outcome.owns_iff {n : Nat} (hout : Outcome c [] q res r a) (hfuel : c.maxOpt ≤ n) :
    (optExit n (r, a)).Owns c ↔ Roomy c q := by
  cases hout with
  | room l hl hh =>
    rw [List.nil_append] at hl
    have hlen : q.length < c.maxOpt := by
      have := congrArg List.length hl
      rw [List.length_map, List.length_map] at this
      rw [← this]
      exact hh.lt
    have htake : q.take (c.maxOpt - 1) = q := List.take_of_length_le (by omega)
    have hnone : q[c.maxOpt - 1]? = none := List.getElem?_eq_none (by omega)
    rw [Roomy, htake, hnone]
    cases res with
    | ok i =>
      rw [optExit, OptArray.Holds.owns_iff (x := ⟨none, a, none⟩) hh (fun _ he => by cases he) hfuel,
        forall_isTail_iff hl]
      exact and_congr_right fun _ => ⟨(fun _ p hp => by cases hp), fun _ _ he => by cases he⟩
    | error err =>
      rw [optExit, OptArray.Holds.owns_iff (x := ⟨some err, a, auFreeOpts n 0 a⟩) hh (fun _ _ => rfl) hfuel,
        forall_isTail_iff hl]
      exact and_congr_right fun _ => ⟨(fun _ p hp => by cases hp), fun _ _ _ => rfl⟩
  | full l lost q₁ o q₂ hq hl hlen hlost hh =>
    rw [List.nil_append] at hl
    have hq₁ : q₁.length = c.maxOpt - 1 := by
      have := congrArg List.length hl
      rw [List.length_map, List.length_map] at this
      omega
    have htake : q.take (c.maxOpt - 1) = q₁ := by rw [hq, ← hq₁, List.take_left]
    have hget : q[c.maxOpt - 1]? = some (o, false) := by
      rw [hq, ← hq₁, List.getElem?_append_right (Nat.le_refl _), Nat.sub_self, List.getElem?_cons_zero]
    rw [optExit, OptArray.Holds.owns_iff (x := ⟨some .E2BIG, a, auFreeOpts n 0 a⟩) hh (fun _ _ => rfl) hfuel,
      forall_isTail_iff hl, Roomy, htake, hget]
    refine and_congr_right fun _ => ⟨fun hl p hp => ?_, fun hp _ _ => ?_⟩
    · obtain rfl := Option.some.inj hp
      exact ⟨rfl, hlost.mp (hl _ rfl)⟩
    · exact hlost.mpr (hp _ rfl).2
  | overfull l q₁ o q₂ hq hl ho hh =>
    rw [List.nil_append] at hl
    have hlen := congrArg List.length hl
    have hmaxlen := hh.len
    simp only [List.length_map, List.length_append, List.length_singleton] at hlen
    have hget : q[c.maxOpt - 1]? = some (o, true) := by
      rw [hq, List.getElem?_append_right (by omega), show c.maxOpt - 1 - q₁.length = 0 by omega,
        List.getElem?_cons_zero]
    obtain ⟨l₁, s, rfl, hs⟩ : ∃ l₁ s, l = l₁ ++ [s] ∧ s.opt = o := by
      obtain ⟨l₁, l₂, rfl, -, h₂⟩ := List.map_eq_append_iff.mp hl
      obtain ⟨s, rfl, hs⟩ := List.map_eq_singleton_iff.mp h₂
      exact ⟨l₁, s, rfl, hs⟩
    rw [optExit]
    constructor
    · intro hown
      exact absurd hown (Over.not_owns (x := ⟨some .E2BIG, a, auFreeOpts n 0 a⟩) hh (hs ▸ ho) rfl rfl hfuel)
    · rintro ⟨-, hp⟩
      exact absurd (hp _ hget).1 (by simp)

theorem parseOpts_outcome (hmax : 1 ≤ c.maxOpt) (mem : Nat → OptSlot) (str : List Char) :
    Outcome c [] (places h c w (pieces ',' str) 0).1 (places h c w (pieces ',' str) 0).2
      (slotOpts h c w (pieces ',' str) 0 (OptArray.setTail c ⟨mem, 0, 0, false, 0, []⟩)).1
      (slotOpts h c w (pieces ',' str) 0 (OptArray.setTail c ⟨mem, 0, 0, false, 0, []⟩)).2 :=
  slotOpts_outcome ⟨[], rfl, holds_init hmax mem⟩

/-- `au_parse_opts` ends the array once and within, and releases each reference once on an error, exactly
for the texts whose options fit. -/
theorem slotParseOpts_owns_iff (hmax : 1 ≤ c.maxOpt) (mem : Nat → OptSlot) (behind : Nat) (str : List Char) :
    (slotParseOpts h c w mem behind str).Owns c ↔ Roomy c (places h c w (pieces ',' str) 0).1 :=
  (parseOpts_outcome hmax mem str).owns_iff (Nat.le_add_right _ _)

-- ---------------------------------------------------------------------------
-- The list of the options
-- ---------------------------------------------------------------------------

/-- Options that are stored behind others, where there is room for them. -/
def fitted (c : OptConf) (pre : List Opt) (p : List (Opt × Bool) × Except Errno Int) :
    Except Errno (List Opt × Int) :=
  if c.maxOpt ≤ pre.length + p.1.length then .error .E2BIG else p.2.map fun i => (pre ++ p.1.map Prod.fst, i)

theorem fitted_nil (hpre : pre.length < c.maxOpt) : fitted c pre ([], res) = res.map fun i => (pre, i) := by
  rw [fitted, if_neg (by simpa using hpre)]
  simp only [List.map_nil, List.append_nil]

/-- One option more. -/
theorem fitted_cons (o : Opt) (x : Bool) (p : List (Opt × Bool) × Except Errno Int) :
    fitted c pre ((o, x) :: p.1, p.2) = fitted c (pre ++ [o]) p := by
  unfold fitted
  simp only [List.length_cons, List.length_append, List.length_nil, List.map_cons, List.append_assoc,
    List.singleton_append, Nat.add_comm p.1.length, Nat.add_assoc, Nat.zero_add]

theorem fitted_full {p : List (Opt × Bool) × Except Errno Int} (h : c.maxOpt ≤ pre.length + p.1.length) :
    fitted c pre p = .error .E2BIG := if_pos h

theorem parseBrs_eq {ps : List (List Char)} {bindex : Int} (hpre : pre.length < c.maxOpt) :
    parseBrs h c w ps pre bindex = fitted c pre (brPlaces h c w ps bindex) := by
  induction ps generalizing pre bindex with
  | nil => rw [brPlaces, fitted_nil hpre]; rfl
  | cons s ps ih =>
    rw [parseBrs, brPlaces]
    cases optAdd c w s bindex with
    | error err => rw [fitted_nil hpre]; rfl
    | ok add =>
      dsimp only [storeOpt]
      by_cases hfull : c.maxOpt ≤ pre.length + 1
      · rw [if_pos hfull, fitted_full]
        rw [List.length_cons]
        omega
      · rw [if_neg hfull]
        dsimp only
        rw [fitted_cons, ih (by rw [List.length_append, List.length_singleton]; omega)]

theorem storeOpt_eq {o : Opt} {bindex : Int} :
    ((storeOpt c pre o).map fun opts => (opts, bindex)) = fitted c pre ([(o, false)], .ok bindex) := by
  unfold storeOpt
  by_cases hfull : c.maxOpt ≤ pre.length + 1
  · rw [if_pos hfull, fitted_full (by exact hfull)]
    rfl
  · have hfits : fitted c pre ([(o, false)], .ok bindex) = .ok (pre ++ [o], bindex) := if_neg hfull
    rw [if_neg hfull, hfits]
    rfl

theorem parseOpt_eq {s : List Char} {bindex : Int} (hpre : pre.length < c.maxOpt) :
    parseOpt h c w s pre bindex = fitted c pre (optPlaces h c w s bindex) := by
  rcases hm : matchToken .err c.options s with ⟨token, args⟩
  cases token
  case br =>
    cases hp : pieces ':' (args.headD []) with
    | nil =>
      simp only [parseOpt, optPlaces, hm, hp]
      exact storeOpt_eq
    | cons p ps =>
      simp only [parseOpt, optPlaces, hm, hp]
      exact parseBrs_eq hpre
  case ignore =>
    simp only [parseOpt, optPlaces, hm]
    rw [fitted_nil hpre]
    rfl
  all_goals
    simp only [parseOpt, optPlaces, hm, valuePlaces]
    cases parseValue h c w bindex _ args with
    | error err =>
      dsimp only
      rw [fitted_nil hpre]
      rfl
    | ok r => exact storeOpt_eq

theorem parseLoop_eq {ps : List (List Char)} {bindex : Int} (hpre : pre.length < c.maxOpt) :
    parseLoop h c w ps pre bindex = (fitted c pre (places h c w ps bindex)).map Prod.fst := by
  induction ps generalizing pre bindex with
  | nil => rw [places, fitted_nil hpre]; rfl
  | cons s ps ih =>
    rw [parseLoop, places, parseOpt_eq hpre]
    generalize optPlaces h c w s bindex = p
    obtain ⟨q₁, res⟩ := p
    cases res with
    | error err =>
      by_cases hfull : c.maxOpt ≤ pre.length + q₁.length
      · rw [fitted_full (by exact hfull)]
        rfl
      · have hone : fitted c pre (q₁, .error err) = .error err := if_neg hfull
        rw [hone]
        rfl
    | ok i =>
      by_cases hfull : c.maxOpt ≤ pre.length + q₁.length
      · rw [fitted_full hfull, fitted_full]
        · rfl
        · rw [List.length_append]
          omega
      · have hone : fitted c pre (q₁, .ok i) = .ok (pre ++ q₁.map Prod.fst, i) := if_neg hfull
        rw [hone]
        dsimp only
        rw [ih (by rw [List.length_append, List.length_map]; omega)]
        unfold fitted
        simp only [List.length_append, List.length_map, List.map_append, List.append_assoc, Nat.add_assoc]

/-- The slots of the array that were written. -/
def OptExit.opts (x : OptExit) : List Opt := (List.range x.arr.top).map fun i => (x.arr.slot i).opt

/-- The array holds what the list of options is read from: the errors are the same, and without one the
options are those up to the first end. -/
theorem auParseOpts_eq (hmax : 1 ≤ c.maxOpt) (mem : Nat → OptSlot) (behind : Nat) (str : List Char) :
    (∀ err, (slotParseOpts h c w mem behind str).err = some err ↔ auParseOpts h c w str = .error err) ∧
      ((slotParseOpts h c w mem behind str).err = none →
        auParseOpts h c w str =
          .ok ((slotParseOpts h c w mem behind str).opts.takeWhile fun opt => !opt.isTail)) := by
  have hlist : auParseOpts h c w str =
      ((fitted c [] (places h c w (pieces ',' str) 0)).map Prod.fst).map
        fun opts => opts.takeWhile fun opt => !opt.isTail := by
    rw [auParseOpts, parseLoop_eq (show ([] : List Opt).length < c.maxOpt from hmax)]
  have hout := parseOpts_outcome (h := h) (w := w) hmax mem str
  rw [hlist, slotParseOpts]
  generalize places h c w (pieces ',' str) 0 = p at hout ⊢
  obtain ⟨q, res⟩ := p
  generalize slotOpts h c w (pieces ',' str) 0 (OptArray.setTail c ⟨mem, 0, 0, false, 0, []⟩) = x at hout ⊢
  obtain ⟨r, a⟩ := x
  have hfull : c.maxOpt ≤ q.length → fitted c [] (q, res) = .error .E2BIG := fun hq =>
    fitted_full (by simpa using hq)
  dsimp only at hout ⊢
  cases hout with
  | room l hl hh =>
    rw [List.nil_append] at hl
    have hlen : q.length < c.maxOpt := by
      have := congrArg List.length hl
      rw [List.length_map, List.length_map] at this
      rw [← this]
      exact hh.lt
    have hfits : fitted c [] (q, res) = res.map fun i => (q.map Prod.fst, i) := if_neg (by simpa using hlen)
    rw [hfits]
    cases res with
    | error err => exact ⟨fun e => by simp [optExit, Except.map], fun he => by cases he⟩
    | ok i =>
      refine ⟨fun e => by simp [optExit, Except.map], fun _ => congrArg Except.ok ?_⟩
      have hopts : (OptExit.mk none a none).opts = q.map Prod.fst ++ [.tail] := by
        unfold OptExit.opts
        rw [hh.top, List.range_succ, List.map_append, List.map_singleton, hh.tail, ← hl]
        congr 1
        apply List.ext_getElem
        · simp
        · intro j hj _
          simp only [List.length_map, List.length_range] at hj
          simp [hh.slot j hj]
      rw [optExit, hopts]
      have htail : ∀ os : List Opt, (os ++ [Opt.tail]).takeWhile (fun opt => !opt.isTail) =
          os.takeWhile fun opt => !opt.isTail := by
        intro os
        induction os with
        | nil => rfl
        | cons o os ih =>
          rw [List.cons_append, List.takeWhile_cons, List.takeWhile_cons, ih]
      exact (htail _).symm
  | full l lost q₁ o q₂ hq hl hlen hlost hh =>
    have hq₁ := congrArg List.length hl
    simp only [List.length_map, List.nil_append] at hq₁
    rw [hfull (by rw [hq, List.length_append, List.length_cons]; omega)]
    exact ⟨fun e => by simp [optExit, Except.map], fun he => by cases he⟩
  | overfull l q₁ o q₂ hq hl ho hh =>
    have hq₁ := congrArg List.length hl
    simp only [List.length_map, List.nil_append, List.length_append, List.length_singleton] at hq₁
    have := hh.len
    rw [hfull (by rw [hq, List.length_append, List.length_cons]; omega)]
    exact ⟨fun e => by simp [optExit, Except.map], fun he => by cases he⟩

-- ---------------------------------------------------------------------------
-- Small arrays
-- ---------------------------------------------------------------------------

theorem hz1_pos : 0 < (1 : BitVec 32).toInt := by decide

/-- A build with room for `n` options. -/
def slotConf (n : Nat) : OptConf := ⟨false, true, false, false, true, n, 1, hz1_pos⟩

theorem slotErr_ne_oops : Errno.EINVAL ≠ .oops := by decide

theorem slotOpen_nil {place : XinoPlace} :
    (Except.error ⟨.EINVAL, slotErr_ne_oops⟩ : Except LowerErrno XinoPlace) ≠ .ok place := by
  intro he
  cases he

/-- Every path leads to one directory, and no file can be created. -/
def slotNamei : Namei where
  pathLookup _ := .ok ⟨3, []⟩
  dPath _ := ['/']
  lookup_dPath _ _ h := h
  filpOpen _ := .error ⟨.EINVAL, slotErr_ne_oops⟩
  filePath _ := []
  open_nil _ := slotOpen_nil
  iIno _ := 10
  iNlink _ := 2
  rdonly _ := false
  msRdonly := false

/-- The options of a text there. -/
def slotPlaces (str : String) : List (Opt × Bool) :=
  (places .plain (slotConf 2) slotNamei (pieces ',' str.toList) 0).1

/-- With two slots, one option and the end have room. -/
theorem slotParseOpts_owns_noxino :
    (slotParseOpts .plain (slotConf 2) slotNamei (fun _ => ⟨.noxino, none⟩) 0 "noxino".toList).Owns (slotConf 2) := by
  refine (slotParseOpts_owns_iff (by decide) _ _ _).mpr ⟨?_, fun p hp => ?_⟩
  · show ∀ p ∈ (slotPlaces "noxino").take 1, p.1.isTail = false
    decide +kernel
  · have hnone : (slotPlaces "noxino")[1]?.isNone = true := by decide +kernel
    rw [Option.isNone_iff_eq_none] at hnone
    exact absurd (hnone.symm.trans hp) (by simp)

/-- A branch in the last slot leaves no room for the end, the path of an option in the last slot is lost,
and an empty list of branches ends the options early. -/
theorem slotParseOpts_not_owns :
    ¬(slotParseOpts .plain (slotConf 2) slotNamei (fun _ => ⟨.noxino, none⟩) 0 "br:/a:/b".toList).Owns (slotConf 2) ∧
    ¬(slotParseOpts .plain (slotConf 2) slotNamei (fun _ => ⟨.noxino, none⟩) 0 "noxino,append=/a".toList).Owns
        (slotConf 2) ∧
    ¬(slotParseOpts .plain (slotConf 2) slotNamei (fun _ => ⟨.noxino, none⟩) 0 "br::".toList).Owns (slotConf 2) := by
  have howns : ∀ str : String, (slotParseOpts .plain (slotConf 2) slotNamei (fun _ => ⟨.noxino, none⟩) 0
      str.toList).Owns (slotConf 2) → Roomy (slotConf 2) (slotPlaces str) := fun str h =>
    ((parseOpts_outcome (by decide) _ str.toList).owns_iff (Nat.le_add_right 2 0)).mp h
  -- what is in the second slot
  have hlast : ∀ str x y, ((slotPlaces str)[1]?).map (fun p => (p.2, p.1.carries)) = some (x, y) →
      Roomy (slotConf 2) (slotPlaces str) → x = false ∧ y = false := by
    intro str x y hget hroomy
    obtain ⟨p, hp, hxy⟩ := Option.map_eq_some_iff.mp hget
    obtain ⟨rfl, rfl⟩ := Prod.mk.inj hxy
    exact hroomy.2 p hp
  refine ⟨fun h => ?_, fun h => ?_, fun h => ?_⟩
  · exact absurd (hlast _ true true (by decide +kernel) (howns _ h)).1 (by decide)
  · exact absurd (hlast _ false true (by decide +kernel) (howns _ h)).2 (by decide)
  · have hall : ∀ p ∈ (slotPlaces "br::").take 1, p.1.isTail = false := (howns _ h).1
    exact absurd hall (by decide +kernel)

end Aufs
