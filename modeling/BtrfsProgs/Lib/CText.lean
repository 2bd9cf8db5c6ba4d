import BtrfsProgs.Lib.Decimal

/-
  Functions of the C library for text, on the bytes in front
  of the end of a string.

  Main declarations:
    * `CText.strtok`, `CText.strtok_append` and
      `CText.strtok_token`
    * `CText.strtoull` and `CText.strtoull_digits`
    * `CText.strtoull_append`
    * `CText.Reads` and `CText.strtoull_end_iff`
-/

----------
-- Tokens and Numbers
----------

namespace CText

open Decimal

/- What the calls of `strtok` for one string return, in turn. -/
def strtok
    (delimiter : UInt8)
    (s : List UInt8) : List (List UInt8) :=
  (s.splitOn delimiter).filter fun token => token ≠ []

/- `isspace`. -/
def isSpace
    (b : UInt8) : Bool :=
  b.toNat = 32 ∨ 9 ≤ b.toNat ∧ b.toNat ≤ 13

/- A sign in front, if there is one, and what is behind it. -/
def sign : List UInt8 → Bool × List UInt8
  | 43 :: s => (false, s)
  | 45 :: s => (true, s)
  | s => (false, s)

/- A number with its sign as a `u64`, as large as one can be. -/
def saturated
    (negative : Bool)
    (n : Nat) : Nat :=
  if 2 ^ 64 ≤ n then 2 ^ 64 - 1
  else if negative then (2 ^ 64 - n) % 2 ^ 64
  else n

/- `strtoull` in base 10, with what `endptr` points to. -/
def strtoull
    (s : List UInt8) : Nat × List UInt8 :=
  let (negative, number) := sign (s.dropWhile isSpace)
  let digits := number.takeWhile isDigit
  if digits = [] then (0, s)
  else
    (saturated negative (value digits),
      number.dropWhile isDigit)

theorem strtok_append
    (delimiter : UInt8)
    (s rest : List UInt8) :
    strtok delimiter (s ++ delimiter :: rest) =
      strtok delimiter s ++ strtok delimiter rest := by
  unfold strtok
  rw [List.splitOn_append_cons_self, List.filter_append]

theorem strtok_cons
    (delimiter : UInt8)
    (rest : List UInt8) :
    strtok delimiter (delimiter :: rest) =
      strtok delimiter rest :=
  strtok_append delimiter [] rest

/- A token with nothing or a delimiter behind it. -/
theorem strtok_token
    {delimiter : UInt8}
    {token rest : List UInt8}
    (hSome : token ≠ [])
    (hToken : delimiter ∉ token)
    (hRest : rest = [] ∨ ∃ more, rest = delimiter :: more) :
    strtok delimiter (token ++ rest) =
      token :: strtok delimiter rest := by
  have hOne : strtok delimiter token = [token] := by
    unfold strtok
    rw [List.splitOn_eq_singleton hToken]
    exact List.filter_cons_of_pos (decide_eq_true hSome)
  rcases hRest with rfl | ⟨more, rfl⟩
  · rw [List.append_nil, hOne]
    rfl
  · rw [strtok_append, hOne, strtok_cons]
    rfl

theorem not_isSpace_of_isDigit
    {b : UInt8}
    (hDigit : isDigit b = true) :
    isSpace b = false := by
  have hRange := of_decide_eq_true hDigit
  exact decide_eq_false (by omega)

theorem sign_of_isDigit
    {b : UInt8}
    {s : List UInt8}
    (hDigit : isDigit b = true) :
    sign (b :: s) = (false, b :: s) := by
  have hPlus : b ≠ 43 := by
    rintro rfl
    cases hDigit
  have hMinus : b ≠ 45 := by
    rintro rfl
    cases hDigit
  unfold sign
  split
  · rename_i hHead
    exact absurd (List.cons.inj hHead).1 hPlus
  · rename_i hHead
    exact absurd (List.cons.inj hHead).1 hMinus
  · rfl

/- Digits in front are read as they are written. -/
theorem strtoull_digits
    {s : List UInt8}
    (hDigits : s.takeWhile isDigit ≠ []) :
    strtoull s =
      (min (value (s.takeWhile isDigit)) (2 ^ 64 - 1),
        s.dropWhile isDigit) := by
  cases s with
  | nil => exact absurd rfl hDigits
  | cons b s =>
      have hFirst : isDigit b = true := by
        by_contra hNot
        rw [List.takeWhile_cons_of_neg hNot] at hDigits
        exact hDigits rfl
      unfold strtoull
      rw [List.dropWhile_cons_of_neg
          (by rw [not_isSpace_of_isDigit hFirst]; decide),
        sign_of_isDigit hFirst]
      dsimp only
      rw [if_neg hDigits]
      unfold saturated
      rw [if_neg Bool.false_ne_true]
      congr 1
      rcases Nat.lt_or_ge (value (List.takeWhile isDigit
          (b :: s))) (2 ^ 64) with hLess | hMore
      · rw [if_neg (Nat.not_le.mpr hLess), min_eq_left (by omega)]
      · rw [if_pos hMore, min_eq_right (by omega)]

theorem sign_append
    {stop : UInt8}
    (hPlus : stop ≠ 43)
    (hMinus : stop ≠ 45)
    (s rest : List UInt8) :
    sign (s ++ stop :: rest) =
      ((sign s).1, (sign s).2 ++ stop :: rest) := by
  cases s with
  | nil =>
      rw [List.nil_append]
      unfold sign
      split
      · rename_i hHead
        exact absurd (List.cons.inj hHead).1 hPlus
      · rename_i hHead
        exact absurd (List.cons.inj hHead).1 hMinus
      · rfl
  | cons b s =>
      rw [List.cons_append]
      by_cases hFirst : b = 43
      · subst hFirst
        rfl
      by_cases hSecond : b = 45
      · subst hSecond
        rfl
      unfold sign
      split
      · rename_i hHead
        exact absurd (List.cons.inj hHead).1 hFirst
      · rename_i hHead
        exact absurd (List.cons.inj hHead).1 hSecond
      · split
        · rename_i hHead
          exact absurd (List.cons.inj hHead).1 hFirst
        · rename_i hHead
          exact absurd (List.cons.inj hHead).1 hSecond
        · rfl

/- A byte that is in no number ends one. -/
theorem strtoull_append
    {stop : UInt8}
    (hDigit : isDigit stop = false)
    (hSpace : isSpace stop = false)
    (hPlus : stop ≠ 43)
    (hMinus : stop ≠ 45)
    (s rest : List UInt8) :
    strtoull (s ++ stop :: rest) =
      ((strtoull s).1, (strtoull s).2 ++ stop :: rest) := by
  have hBlanks : (s ++ stop :: rest).dropWhile isSpace =
      s.dropWhile isSpace ++ stop :: rest := by
    rw [List.dropWhile_append]
    split
    case isTrue hNil =>
        rw [List.isEmpty_iff.mp hNil]
        exact List.dropWhile_cons_of_neg (by rw [hSpace]; decide)
    case isFalse => rfl
  unfold strtoull
  rw [hBlanks, sign_append hPlus hMinus]
  cases sign (s.dropWhile isSpace) with
  | mk negative number =>
      dsimp only
      have hTake : (number ++ stop :: rest).takeWhile isDigit =
          number.takeWhile isDigit := by
        rw [List.takeWhile_append]
        split
        case isTrue hAll =>
            rw [List.takeWhile_cons_of_neg
              (by rw [hDigit]; decide), List.append_nil]
            refine (List.takeWhile_prefix _).eq_of_length ?_ |>.symm
            exact hAll
        case isFalse => rfl
      have hDrop : (number ++ stop :: rest).dropWhile isDigit =
          number.dropWhile isDigit ++ stop :: rest := by
        rw [List.dropWhile_append]
        split
        case isTrue hNil =>
            rw [List.isEmpty_iff.mp hNil]
            exact List.dropWhile_cons_of_neg
              (by rw [hDigit]; decide)
        case isFalse => rfl
      rw [hTake, hDrop]
      split
      · rfl
      · rfl

/- A number up to the end, as `strtoull` takes it. -/
def Reads
    (s : List UInt8)
    (n : Nat) : Prop :=
  ∃ blanks signed digits negative, s = blanks ++ signed ∧
    (∀ b ∈ blanks, isSpace b = true) ∧
      sign signed = (negative, digits) ∧ digits ≠ [] ∧
        (∀ b ∈ digits, isDigit b = true) ∧
          n = saturated negative (value digits)

theorem dropWhile_signed
    {s digits : List UInt8}
    {negative : Bool}
    (hSign : sign s = (negative, digits))
    (hDigits : ∀ b ∈ digits, isDigit b = true) :
    s.dropWhile isSpace = s := by
  unfold sign at hSign
  split at hSign
  · rfl
  · rfl
  · cases hSign
    cases s with
    | nil => rfl
    | cons b s =>
        refine List.dropWhile_cons_of_neg ?_
        rw [not_isSpace_of_isDigit (hDigits b List.mem_cons_self)]
        decide

theorem strtoull_end_iff
    {s : List UInt8}
    {n : Nat}
    (hSome : s ≠ []) :
    strtoull s = (n, []) ↔ Reads s n := by
  constructor
  · intro hRead
    unfold strtoull at hRead
    cases hSign : sign (s.dropWhile isSpace) with
    | mk negative number =>
        rw [hSign] at hRead
        dsimp only at hRead
        by_cases hNone : number.takeWhile isDigit = []
        · rw [if_pos hNone] at hRead
          exact absurd (congrArg Prod.snd hRead) hSome
        · rw [if_neg hNone] at hRead
          injection hRead with hValue hEnd
          have hAll : number.takeWhile isDigit = number := by
            have hParts : number.takeWhile isDigit ++
                number.dropWhile isDigit = number :=
              List.takeWhile_append_dropWhile
            rwa [hEnd, List.append_nil] at hParts
          rw [hAll] at hValue hNone
          refine ⟨s.takeWhile isSpace, _, number, negative,
            List.takeWhile_append_dropWhile.symm,
            fun b hMem => List.mem_takeWhile_imp hMem, hSign,
            hNone, ?_, hValue.symm⟩
          rw [← hAll]
          exact fun b hMem => List.mem_takeWhile_imp hMem
  · intro hReads
    rcases hReads with ⟨blanks, signed, digits, negative, rfl,
      hBlanks, hSign, hDigits, hAll, rfl⟩
    have hTake : digits.takeWhile isDigit = digits :=
      List.takeWhile_eq_self_iff.mpr hAll
    have hDrop : digits.dropWhile isDigit = [] :=
      List.dropWhile_eq_nil_iff.mpr hAll
    unfold strtoull
    rw [List.dropWhile_append_of_pos hBlanks,
      dropWhile_signed hSign hAll, hSign]
    dsimp only
    rw [hTake, hDrop, if_neg hDigits]

/- Plain digits of a number that fits are read as they are. -/
theorem reads_digits
    {s : List UInt8}
    (hSome : s ≠ [])
    (hDigits : ∀ b ∈ s, isDigit b = true)
    (hFits : value s < 2 ^ 64) :
    Reads s (value s) := by
  rcases List.exists_cons_of_ne_nil hSome with ⟨b, more, rfl⟩
  have hSign := sign_of_isDigit (s := more)
    (hDigits b List.mem_cons_self)
  refine ⟨[], _, _, false, rfl, ?_, hSign, hSome, hDigits, ?_⟩
  · intro c hMem
    cases hMem
  unfold saturated
  rw [if_neg (Nat.not_le.mpr hFits), if_neg Bool.false_ne_true]

end CText
