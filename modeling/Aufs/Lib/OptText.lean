-- SUMMARY: Library of option texts: cutting them up, matching a piece with a table of patterns, and printing and reading numbers and paths.
import Mathlib.Data.List.TakeWhile

/-!
# Option texts

A text is cut at a separator, and a piece is compared with the patterns of a table, in which
`%d` stands for a number and `%s` for all that is left. A printed number is read back as it
was, and pieces that were joined are found again.
-/

namespace OptText

-- ---------------------------------------------------------------------------
-- Numbers
-- ---------------------------------------------------------------------------

/-- The value of a digit of any base up to 16. -/
def digitVal (c : Char) : Option Nat :=
  if '0' ≤ c ∧ c ≤ '9' then some (c.toNat - '0'.toNat)
  else if 'a' ≤ c ∧ c ≤ 'f' then some (c.toNat - 'a'.toNat + 10)
  else if 'A' ≤ c ∧ c ≤ 'F' then some (c.toNat - 'A'.toNat + 10)
  else none

/-- The loop of `simple_strtoul`: the number and what is left of the text. -/
def strtoulLoop (base : Nat) : Nat → List Char → Nat × List Char
  | result, [] => (result, [])
  | result, c :: cs =>
    match digitVal c with
    | none => (result, c :: cs)
    | some value =>
      if value < base then strtoulLoop base (result * base + value) cs else (result, c :: cs)

/-- After a leading zero: does a hexadecimal number follow? -/
def isHex : List Char → Bool
  | x :: c :: _ => x.toUpper = 'X' && (digitVal c).isSome
  | _ => false

/-- `simple_strtoul` with base 0. The number is not yet cut to a machine word. -/
def simpleStrtoul : List Char → Nat × List Char
  | '0' :: cs => if isHex cs then strtoulLoop 16 0 cs.tail else strtoulLoop 8 0 cs
  | cs => strtoulLoop 10 0 cs

/-- `simple_strtol` with base 0. -/
def simpleStrtol : List Char → Int × List Char
  | '-' :: cs =>
    let (n, rest) := simpleStrtoul cs
    (-(n : Int), rest)
  | cs =>
    let (n, rest) := simpleStrtoul cs
    (n, rest)

/-- `match_int`: a number as an `int`. Nothing is read of a text without a number. -/
def matchInt (s : List Char) : Option (BitVec 32) :=
  let (n, rest) := simpleStrtol s
  if rest.length = s.length then none else some (BitVec.ofInt 32 n)

/-- What `%d` prints. -/
def printInt (n : BitVec 32) : List Char :=
  if n.toInt < 0 then '-' :: Nat.toDigits 10 n.toInt.natAbs else Nat.toDigits 10 n.toInt.natAbs

theorem digitVal_digitChar {d : Nat} (hd : d < 10) : digitVal d.digitChar = some d := by
  rcases d with _ | _ | _ | _ | _ | _ | _ | _ | _ | _ | d
  case succ => omega
  all_goals decide

theorem strtoulLoop_append_digit {d : Nat} (hd : d < 10) {cs : List Char} {n m : Nat}
    (hcs : strtoulLoop 10 n cs = (m, [])) :
    strtoulLoop 10 n (cs ++ [d.digitChar]) = (m * 10 + d, []) := by
  induction cs generalizing n with
  | nil =>
    simp only [strtoulLoop, Prod.mk.injEq, and_true] at hcs
    subst hcs
    simp only [List.nil_append, strtoulLoop, digitVal_digitChar hd, if_pos hd]
  | cons c cs ih =>
    rw [List.cons_append, strtoulLoop]
    rw [strtoulLoop] at hcs
    cases hc : digitVal c with
    | none =>
      rw [hc] at hcs
      simp at hcs
    | some value =>
      rw [hc] at hcs
      dsimp only at hcs ⊢
      split at hcs
      case isTrue hlt =>
        rw [if_pos hlt]
        exact ih hcs
      case isFalse => simp at hcs

/-- The decimal digits of a number are read in full. -/
theorem strtoulLoop_toDigits (n : Nat) : strtoulLoop 10 0 (Nat.toDigits 10 n) = (n, []) := by
  induction n using Nat.strongRecOn with
  | ind n ih =>
    by_cases hn : n < 10
    · rw [Nat.toDigits_of_lt_base hn]
      have hone := @strtoulLoop_append_digit n hn [] 0 0 rfl
      simpa using hone
    · rw [Nat.toDigits_of_base_le (by decide) (by omega),
        strtoulLoop_append_digit (by omega) (ih (n / 10) (by omega))]
      congr 1
      omega

/-- The first digit of a number is not zero, unless the number is. -/
theorem head_toDigits {n : Nat} (hn : n ≠ 0) {c : Char} {cs : List Char}
    (hc : Nat.toDigits 10 n = c :: cs) : c ≠ '0' := by
  induction n using Nat.strongRecOn generalizing c cs with
  | ind n ih =>
    by_cases hlt : n < 10
    · rw [Nat.toDigits_of_lt_base hlt, List.cons.injEq] at hc
      rw [← hc.1, ne_eq, Nat.digitChar_eq_zero]
      exact hn
    · rw [Nat.toDigits_of_base_le (by decide) (by omega)] at hc
      cases hrest : Nat.toDigits 10 (n / 10) with
      | nil => exact absurd hrest Nat.toDigits_ne_nil
      | cons c' cs' =>
        rw [hrest, List.cons_append, List.cons.injEq] at hc
        rw [← hc.1]
        exact ih (n / 10) (by omega) (by omega) hrest

theorem isDigit_of_mem {n : Nat} {c : Char} (hc : c ∈ Nat.toDigits 10 n) : c.isDigit = true :=
  Nat.isDigit_of_mem_toDigits (by decide) (by decide) hc

/-- A number in decimal digits is read back. -/
theorem simpleStrtoul_toDigits (n : Nat) : simpleStrtoul (Nat.toDigits 10 n) = (n, []) := by
  by_cases hn : n = 0
  · subst hn
    decide
  · have hread := strtoulLoop_toDigits n
    cases hds : Nat.toDigits 10 n with
    | nil => exact absurd hds Nat.toDigits_ne_nil
    | cons c cs =>
      have hc := head_toDigits hn hds
      rw [hds] at hread
      rw [simpleStrtoul]
      · exact hread
      · intro cs' heq
        exact hc (List.cons.inj heq).1

/-- A printed number is read back. -/
theorem simpleStrtol_printInt (n : BitVec 32) : simpleStrtol (printInt n) = (n.toInt, []) := by
  rw [printInt]
  split
  case isTrue hneg =>
    simp only [simpleStrtol, simpleStrtoul_toDigits]
    congr 1
    omega
  case isFalse hpos =>
    rw [simpleStrtol]
    · simp only [simpleStrtoul_toDigits]
      congr 1
      omega
    · intro cs heq
      have hdigit := isDigit_of_mem (n := n.toInt.natAbs) (c := '-') (by rw [heq]; exact List.mem_cons_self)
      exact absurd hdigit (by decide)

theorem printInt_ne_nil (n : BitVec 32) : printInt n ≠ [] := by
  rw [printInt]
  split
  · exact List.cons_ne_nil _ _
  · exact Nat.toDigits_ne_nil

/-- `match_one`: the parts of the text that `%d` and `%s` stand for. -/
def matchOne : List Char → List Char → Option (List (List Char))
  | [], s => if s = [] then some [] else none
  | '%' :: 's' :: p, s => if s = [] then none else (matchOne p []).map (s :: ·)
  | '%' :: 'd' :: p, s =>
    let rest := (simpleStrtol s).2
    if rest.length = s.length then none
    else (matchOne p rest).map (s.take (s.length - rest.length) :: ·)
  | _ :: _, [] => none
  | c :: p, c' :: s => if c = c' then matchOne p s else none

/-- `match_token`: the token of the first pattern that the text matches. The last entry of a
table has no pattern. -/
def matchToken {α : Type} (last : α) : List (α × String) → List Char → α × List (List Char)
  | [], _ => (last, [])
  | (token, pattern) :: table, s =>
    match matchOne pattern.toList s with
    | some args => (token, args)
    | none => matchToken last table s

theorem matchToken_mem {α : Type} (last : α) (table : List (α × String)) (s : List Char) :
    (matchToken last table s).1 = last ∨ (matchToken last table s).1 ∈ table.map Prod.fst := by
  induction table with
  | nil => exact .inl rfl
  | cons entry table ih =>
    obtain ⟨token, pattern⟩ := entry
    rw [matchToken]
    split
    · exact .inr List.mem_cons_self
    · exact ih.imp id (List.mem_cons_of_mem _)

/-- A number at the end of the text. -/
theorem matchOne_printInt (n : BitVec 32) : matchOne ['%', 'd'] (printInt n) = some [printInt n] := by
  have hlen : ([] : List Char).length ≠ (printInt n).length := fun he =>
    printInt_ne_nil n (List.length_eq_zero_iff.mp he.symm)
  rw [matchOne, simpleStrtol_printInt, if_neg hlen]
  simp [matchOne]

-- ---------------------------------------------------------------------------
-- Pieces
-- ---------------------------------------------------------------------------

/-- What `strsep` hands out before the text ends or a piece is empty. -/
def pieces (sep : Char) (s : List Char) : List (List Char) :=
  (s.splitOn sep).takeWhile fun piece => piece ≠ []

/-- An octal digit of a character. -/
def octal (c : Char) (weight : Nat) : Char := (c.toNat / weight % 8).digitChar

/-- `mangle_path`: characters of the set are written as three octal digits. -/
def manglePath (esc : List Char) (s : List Char) : List Char :=
  s.flatMap fun c => if c ∈ esc then ['\\', octal c 64, octal c 8, octal c 1] else [c]

theorem manglePath_append (esc s t : List Char) :
    manglePath esc (s ++ t) = manglePath esc s ++ manglePath esc t :=
  List.flatMap_append

end OptText
