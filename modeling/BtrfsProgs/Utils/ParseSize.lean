import BtrfsProgs.Lib.CText

/-
  `parse_size`, from `utils.c`.

  Main declarations:
    * `parseSize`
    * `Written`
    * `parseSize_exact_iff`
-/

----------
-- The Function
----------

namespace BtrfsProgs

namespace Utils

open CText Decimal

/- What the `switch` multiplies `mult` to, from `tolower(c)`. -/
def suffixMult
    (c : UInt8) : Option Nat :=
  if c = 69 ∨ c = 101 then some (1024 ^ 6)
  else if c = 80 ∨ c = 112 then some (1024 ^ 5)
  else if c = 84 ∨ c = 116 then some (1024 ^ 4)
  else if c = 71 ∨ c = 103 then some (1024 ^ 3)
  else if c = 77 ∨ c = 109 then some (1024 ^ 2)
  else if c = 75 ∨ c = 107 then some 1024
  else if c = 66 ∨ c = 98 then some 1
  else none

/- `parse_size`; an error is the status of `exit`. -/
def parseSize
    (s : List UInt8) : Except Nat Nat :=
  if s.takeWhile isDigit = [] then .error 50
  else
    match s.dropWhile isDigit with
    | [] => .ok ((strtoull s).1 * 1 % 2 ^ 64)
    | c :: more =>
        match suffixMult c with
        | none => .error 1
        | some mult =>
            if more ≠ [] then .error 51
            else .ok ((strtoull s).1 * mult % 2 ^ 64)

----------
-- Sizes
----------

/- The power of 1024 that a suffix stands for. -/
def Suffix
    (suffix : List UInt8)
    (mult : Nat) : Prop :=
  suffix = [] ∧ mult = 1 ∨
    ∃ c, suffix = [c] ∧ suffixMult c = some mult

/- The text of a number with a suffix, and what it stands for. -/
def Written
    (s : List UInt8)
    (size : Nat) : Prop :=
  ∃ digits suffix mult, s = digits ++ suffix ∧
    digits ≠ [] ∧ (∀ b ∈ digits, isDigit b = true) ∧
      Suffix suffix mult ∧ size = value digits * mult

/- No size is returned but the one that is written. -/
def Exact
    (s : List UInt8) : Prop :=
  ∀ size, parseSize s = .ok size → Written s size

section Sizes

variable {s : List UInt8}

theorem not_isDigit_of_suffix
    {c : UInt8}
    {mult : Nat}
    (hSuffix : suffixMult c = some mult) :
    isDigit c = false := by
  by_contra hDigit
  rw [Bool.not_eq_false] at hDigit
  have hRange := of_decide_eq_true hDigit
  have hNone : suffixMult c = none := by
    unfold suffixMult
    simp only [← UInt8.toNat_inj, UInt8.reduceToNat]
    split_ifs <;> first | rfl | omega
  rw [hNone] at hSuffix
  cases hSuffix

/- What is written, in the parts that the function finds. -/
theorem written_parts
    {size : Nat}
    (hWritten : Written s size) :
    s.takeWhile isDigit ≠ [] ∧
      ∃ mult, Suffix (s.dropWhile isDigit) mult ∧
        size = value (s.takeWhile isDigit) * mult := by
  rcases hWritten with
    ⟨digits, suffix, mult, rfl, hSome, hDigits, hSuffix, hSize⟩
  have hTake : suffix.takeWhile isDigit = [] ∧
      suffix.dropWhile isDigit = suffix := by
    rcases hSuffix with ⟨rfl, _⟩ | ⟨c, rfl, hMult⟩
    · exact ⟨rfl, rfl⟩
    · have hNot := not_isDigit_of_suffix hMult
      simp [hNot]
  rw [List.takeWhile_append_of_pos hDigits,
    List.dropWhile_append_of_pos hDigits, hTake.1, hTake.2,
    List.append_nil]
  exact ⟨hSome, mult, hSuffix, hSize⟩

theorem written_of_parts
    {mult : Nat}
    (hSome : s.takeWhile isDigit ≠ [])
    (hSuffix : Suffix (s.dropWhile isDigit) mult) :
    Written s (value (s.takeWhile isDigit) * mult) :=
  ⟨_, _, mult, List.takeWhile_append_dropWhile.symm, hSome,
    fun _ hMem => List.mem_takeWhile_imp hMem, hSuffix, rfl⟩

theorem suffix_unique
    {suffix : List UInt8}
    {a b : Nat}
    (hFirst : Suffix suffix a)
    (hSecond : Suffix suffix b) :
    a = b := by
  rcases hFirst with ⟨rfl, rfl⟩ | ⟨c, rfl, hMult⟩
  · rcases hSecond with ⟨_, rfl⟩ | ⟨d, hNil, _⟩
    · rfl
    · cases hNil
  · rcases hSecond with ⟨hNil, _⟩ | ⟨d, hSame, hOther⟩
    · cases hNil
    · cases hSame
      exact Option.some.inj (hMult.symm.trans hOther)

/- A size is returned for every text of one, and for no other. -/
theorem parseSize_ok_iff
    {out : Nat} :
    parseSize s = .ok out ↔
      s.takeWhile isDigit ≠ [] ∧
        ∃ mult, Suffix (s.dropWhile isDigit) mult ∧
          out = min (value (s.takeWhile isDigit)) (2 ^ 64 - 1) *
            mult % 2 ^ 64 := by
  unfold parseSize
  by_cases hNone : s.takeWhile isDigit = []
  · simp [hNone]
  · rw [if_neg hNone, strtoull_digits hNone]
    cases hRest : s.dropWhile isDigit with
    | nil => simp [hNone, Suffix, eq_comm]
    | cons c more =>
        dsimp only
        cases hMult : suffixMult c with
        | none => simp [Suffix, hMult]
        | some mult =>
            by_cases hMore : more = []
            · simp [hNone, hMore, Suffix, hMult, eq_comm]
            · simp [hMore, Suffix]

end Sizes

/-
  `parse_size` returns no other size than the one that is
  written just when that is below 2^64.
-/
theorem parseSize_exact_iff
    (s : List UInt8) :
    Exact s ↔ ∀ size, Written s size → size < 2 ^ 64 := by
  constructor
  · intro hExact size hWritten
    rcases written_parts hWritten with
      ⟨hSome, mult, hSuffix, rfl⟩
    have hOut := hExact _
      (parseSize_ok_iff.mpr ⟨hSome, mult, hSuffix, rfl⟩)
    rcases written_parts hOut with ⟨_, mult', hSuffix', hSize⟩
    rw [suffix_unique hSuffix' hSuffix] at hSize
    rw [← hSize]
    exact Nat.mod_lt _ (by decide)
  · intro hBelow size hOk
    rcases parseSize_ok_iff.mp hOk with
      ⟨hSome, mult, hSuffix, rfl⟩
    have hWritten := written_of_parts hSome hSuffix
    have hLess := hBelow _ hWritten
    have hSmall : min (value (s.takeWhile isDigit))
        (2 ^ 64 - 1) * mult =
        value (s.takeWhile isDigit) * mult := by
      rcases Nat.eq_zero_or_pos mult with rfl | hPos
      · rfl
      · have hLe := Nat.le_mul_of_pos_right
          (value (s.takeWhile isDigit)) hPos
        rw [min_eq_left (by omega)]
    rw [hSmall, Nat.mod_eq_of_lt hLess]
    exact hWritten

/- `16E` is 2^64, and comes out as no bytes at all. -/
theorem parseSize_wraps :
    parseSize [49, 54, 69] = .ok 0 ∧ ¬ Exact [49, 54, 69] := by
  have hOk : parseSize [49, 54, 69] = .ok 0 := by
    decide +kernel
  refine ⟨hOk, fun hExact => ?_⟩
  rcases written_parts (hExact 0 hOk) with
    ⟨_, mult, hSuffix, hSize⟩
  have hMult : Suffix [69] (1024 ^ 6) := .inr ⟨69, rfl, rfl⟩
  rw [suffix_unique hSuffix hMult] at hSize
  exact absurd hSize (by decide)

end Utils

end BtrfsProgs
