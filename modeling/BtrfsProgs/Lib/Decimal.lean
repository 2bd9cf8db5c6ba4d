import Mathlib

/-
  Numbers as decimal text, in bytes of ASCII.

  Main declarations:
    * `Decimal.text` and `Decimal.value`
    * `Decimal.value_text`
    * `Decimal.takeWhile_text`
-/

----------
-- Text and Value
----------

namespace Decimal

/- `isdigit`. -/
def isDigit
    (b : UInt8) : Bool :=
  48 ≤ b.toNat ∧ b.toNat ≤ 57

/- The digit of a number below ten. -/
def digit
    (d : Nat) : UInt8 :=
  UInt8.ofNat (48 + d)

/- A number, highest digit first. -/
def text
    (n : Nat) : List UInt8 :=
  if n = 0 then [digit 0]
  else ((Nat.digits 10 n).map digit).reverse

/- What some digits stand for, highest digit first. -/
def value
    (ds : List UInt8) : Nat :=
  ds.foldl (fun n b => 10 * n + (b.toNat - 48)) 0

theorem toNat_digit
    {d : Nat}
    (hLt : d < 10) :
    (digit d).toNat = 48 + d := by
  unfold digit
  rw [UInt8.toNat_ofNat']
  omega

theorem isDigit_digit
    {d : Nat}
    (hLt : d < 10) : isDigit (digit d) := by
  unfold isDigit
  rw [toNat_digit hLt]
  exact decide_eq_true (by omega)

theorem value_reverse
    {ds : List Nat}
    (hDigits : ∀ d ∈ ds, d < 10) :
    value (ds.map digit).reverse = Nat.ofDigits 10 ds := by
  unfold value
  rw [List.foldl_reverse]
  induction ds with
  | nil => rfl
  | cons d ds ih =>
      have hRest := ih fun e hMem =>
        hDigits e (List.mem_cons_of_mem d hMem)
      have hDigit := toNat_digit
        (hDigits d List.mem_cons_self)
      rw [List.map_cons, List.foldr_cons, hRest, hDigit,
        Nat.ofDigits_cons]
      omega

/- A number is what its text stands for. -/
theorem value_text
    (n : Nat) : value (text n) = n := by
  unfold text
  split
  case isTrue hZero =>
      rw [hZero]
      rfl
  case isFalse =>
      rw [value_reverse fun d hMem =>
        Nat.digits_lt_base (by decide) hMem]
      exact Nat.ofDigits_digits 10 n

theorem isDigit_of_mem_text
    {n : Nat}
    {b : UInt8}
    (hMem : b ∈ text n) : isDigit b := by
  unfold text at hMem
  split at hMem
  case isTrue =>
      rw [List.mem_singleton.mp hMem]
      decide
  case isFalse =>
      rw [List.mem_reverse, List.mem_map] at hMem
      rcases hMem with ⟨d, hDigit, rfl⟩
      exact isDigit_digit
        (Nat.digits_lt_base (by decide) hDigit)

theorem text_ne_nil
    (n : Nat) : text n ≠ [] := by
  unfold text
  split
  case isTrue => exact List.cons_ne_nil _ _
  case isFalse hNotZero =>
      rw [ne_eq, List.reverse_eq_nil_iff,
        List.map_eq_nil_iff]
      exact Nat.digits_ne_nil_iff_ne_zero.mpr hNotZero

theorem length_text_le
    {n k : Nat}
    (hPos : 0 < k)
    (hLt : n < 10 ^ k) : (text n).length ≤ k := by
  unfold text
  split
  case isTrue => exact hPos
  case isFalse =>
      rw [List.length_reverse, List.length_map]
      exact (Nat.digits_length_le_iff (by decide) n).mpr hLt

theorem lt_length_text
    {n k : Nat}
    (hLe : 10 ^ k ≤ n) : k < (text n).length := by
  have hPos : 0 < 10 ^ k := Nat.pow_pos (by decide)
  unfold text
  rw [if_neg (by omega), List.length_reverse, List.length_map]
  exact (Nat.lt_digits_length_iff (by decide) n).mpr hLe

/- The digits at the start of a text that goes on. -/
theorem takeWhile_text
    {n : Nat}
    {stop : UInt8}
    {more : List UInt8}
    (hStop : isDigit stop = false) :
    (text n ++ stop :: more).takeWhile isDigit = text n := by
  rw [List.takeWhile_append_of_pos fun b hMem =>
      isDigit_of_mem_text hMem,
    List.takeWhile_cons_of_neg (by rw [hStop]; decide),
    List.append_nil]

end Decimal
