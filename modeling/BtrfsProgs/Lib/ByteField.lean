import Mathlib

/-
  Bytes as elements of the field of 256 elements: the bits of
  a byte are the coefficients of a polynomial over the field
  of two elements, modulo `X ^ 8 + X ^ 4 + X ^ 3 + X ^ 2 + 1`.

  Main declarations:
    * `ByteField.element`
    * `ByteField.element_xor`
    * `ByteField.element_double`
    * `ByteField.eq_zero_of_sums`
-/

----------
-- Polynomials of Bytes
----------

namespace ByteField

open Polynomial

/- The coefficient of a bit. -/
def coefficient
    (b : Bool) : ZMod 2 :=
  if b then 1 else 0

theorem coefficient_xor
    (a b : Bool) :
    coefficient (a ^^ b) = coefficient a + coefficient b := by
  cases a <;> cases b <;> rfl

/- A byte has eight bits. -/
theorem testBit_of_le
    {n : Nat}
    (w : UInt8)
    (hn : 8 ≤ n) :
    w.toNat.testBit n = false := by
  have hByte := w.toNat_lt
  have hPow : 2 ^ 8 ≤ 2 ^ n :=
    Nat.pow_le_pow_right (by omega) hn
  apply Nat.testBit_lt_two_pow
  omega

/- The polynomial of a byte. -/
noncomputable def polynomial
    (w : UInt8) : (ZMod 2)[X] :=
  ∑ i ∈ Finset.range 8,
    monomial i (coefficient (w.toNat.testBit i))

theorem coeff_polynomial
    (w : UInt8)
    (n : Nat) :
    (polynomial w).coeff n =
      coefficient (w.toNat.testBit n) := by
  unfold polynomial
  rw [finsetSum_coeff]
  simp only [coeff_monomial, Finset.sum_ite_eq']
  split
  case isTrue => rfl
  case isFalse hOut =>
    rw [testBit_of_le w (by simpa using hOut)]
    rfl

theorem polynomial_xor
    (v w : UInt8) :
    polynomial (v ^^^ w) = polynomial v + polynomial w := by
  ext n
  rw [coeff_add, coeff_polynomial, coeff_polynomial,
    coeff_polynomial, UInt8.toNat_xor, Nat.testBit_xor,
    coefficient_xor]

----------
-- The Field
----------

/- `X ^ 8` and the polynomial of `0x1d`. -/
noncomputable def modulus : (ZMod 2)[X] :=
  X ^ 8 + polynomial 0x1d

/- The element that a byte stands for. -/
noncomputable def element
    (w : UInt8) : AdjoinRoot modulus :=
  AdjoinRoot.mk modulus (polynomial w)

theorem element_zero :
    element 0 = 0 := by
  have hZero : polynomial 0 = 0 := by
    ext n
    rw [coeff_polynomial]
    simp [coefficient]
  unfold element
  rw [hZero, map_zero]

theorem element_xor
    (v w : UInt8) :
    element (v ^^^ w) = element v + element w := by
  unfold element
  rw [polynomial_xor, map_add]

/- Twice a byte, reduced by `0x1d`. -/
def double
    (w : UInt8) : UInt8 :=
  (w <<< 1) ^^^ (if 128 ≤ w then 0x1d else 0)

/- The bits of a byte move up by one. -/
theorem testBit_shift
    (w : UInt8) :
    ∀ n < 8,
      (w <<< 1).toNat.testBit n =
        (decide (0 < n) && w.toNat.testBit (n - 1)) := by
  intro n hn
  rw [UInt8.toNat_shiftLeft]
  simp only [UInt8.toNat_ofNat, Nat.testBit_mod_two_pow,
    Nat.testBit_shiftLeft]
  simp [hn, Nat.one_le_iff_ne_zero, Nat.pos_iff_ne_zero]

theorem testBit_seven
    (w : UInt8) :
    w.toNat.testBit 7 = decide (128 ≤ w) := by
  have hByte := w.toNat_lt
  rw [Nat.testBit_eq_decide_div_mod_eq]
  apply decide_eq_decide.mpr
  rw [UInt8.le_iff_toNat_le]
  simp only [UInt8.reduceToNat]
  omega

theorem coeff_modulus
    (n : Nat) :
    modulus.coeff n =
      (if n = 8 then 1 else 0) +
        coefficient ((0x1d : UInt8).toNat.testBit n) := by
  unfold modulus
  rw [coeff_add, coeff_X_pow, coeff_polynomial]

theorem polynomial_double
    (w : UInt8) :
    X * polynomial w =
      polynomial (double w) +
        (if 128 ≤ w then modulus else 0) := by
  have hTwice : ∀ a : ZMod 2, a + a = 0 := by
    decide
  ext n
  have hShift : (w <<< 1).toNat.testBit n =
      (decide (n < 8) &&
        (decide (0 < n) && w.toNat.testBit (n - 1))) := by
    by_cases hn : n < 8
    · rw [testBit_shift w n hn]
      simp [hn]
    · rw [testBit_of_le _ (by omega)]
      simp [hn]
  have hSplit : (polynomial (double w)).coeff n +
      (if 128 ≤ w then modulus else 0).coeff n =
        coefficient ((w <<< 1).toNat.testBit n) +
          if 128 ≤ w ∧ n = 8 then 1 else 0 := by
    unfold double
    by_cases hHigh : 128 ≤ w
    · rw [if_pos hHigh, if_pos hHigh, polynomial_xor,
        coeff_add, coeff_polynomial, coeff_polynomial,
        coeff_modulus, add_assoc,
        add_comm (if n = 8 then _ else _),
        ← add_assoc _ _ (ite _ _ _), hTwice, zero_add]
      simp [hHigh]
    · rw [if_neg hHigh, if_neg hHigh, polynomial_xor,
        coeff_add, coeff_polynomial, coeff_polynomial]
      simp [hHigh, coefficient]
  rw [coeff_add, hSplit, hShift]
  cases n with
  | zero =>
      rw [coeff_X_mul_zero]
      simp [coefficient]
  | succ n =>
      rw [coeff_X_mul, coeff_polynomial, Nat.add_sub_cancel]
      by_cases hLow : n + 1 < 8
      · simp [hLow, show n ≠ 7 by omega]
      · by_cases hTop : n = 7
        · subst hTop
          rw [testBit_seven]
          simp [coefficient]
        · rw [testBit_of_le w (by omega)]
          simp [hTop]

/- Doubling is the product with the root of the modulus. -/
theorem element_double
    (w : UInt8) :
    element (double w) =
      AdjoinRoot.root modulus * element w := by
  have hMul : AdjoinRoot.root modulus * element w =
      AdjoinRoot.mk modulus (X * polynomial w) := by
    rw [map_mul, AdjoinRoot.mk_X]
    rfl
  rw [hMul, polynomial_double, map_add]
  split
  case isTrue => rw [AdjoinRoot.mk_self, add_zero]; rfl
  case isFalse => rw [map_zero, add_zero]; rfl

----------
-- Powers of the Root
----------

theorem element_injective :
    Function.Injective element := by
  intro u v hSame
  have hZero : element (u ^^^ v) = 0 := by
    rw [element_xor, hSame, ← element_xor, UInt8.xor_self,
      element_zero]
  refine UInt8.xor_eq_zero_iff.mp ?_
  set w := u ^^^ v
  have hHigh : (8 : WithBot ℕ) ≤ modulus.degree := by
    refine le_degree_of_ne_zero ?_
    rw [coeff_modulus]
    decide
  have hLow : (polynomial w).degree < 8 := by
    refine (degree_lt_iff_coeff_zero _ 8).mpr fun n hn => ?_
    rw [coeff_polynomial, testBit_of_le w hn]
    rfl
  have hPoly := eq_zero_of_dvd_of_degree_lt
    (AdjoinRoot.mk_eq_zero.mp hZero) (hLow.trans_le hHigh)
  refine UInt8.toNat_inj.mp (Nat.zero_of_testBit_eq_false ?_)
  intro n
  have hCoeff := coeff_polynomial w n
  rw [hPoly, coeff_zero] at hCoeff
  cases hBit : w.toNat.testBit n with
  | false => rfl
  | true =>
      rw [hBit] at hCoeff
      cases hCoeff

theorem element_iterate
    (k : Nat) :
    element (double^[k] 1) = AdjoinRoot.root modulus ^ k := by
  induction k with
  | zero =>
      have hOne : polynomial 1 = 1 := by
        ext n
        rw [coeff_polynomial, coeff_one]
        cases n <;> simp [coefficient, Nat.testBit_succ]
      exact (congrArg _ hOne).trans (map_one _)
  | succ k ih =>
      rw [Function.iterate_succ_apply', element_double, ih,
        pow_succ']

theorem element_one :
    element 1 = 1 :=
  element_iterate 0

theorem root_period :
    AdjoinRoot.root modulus ^ 255 = 1 := by
  rw [← element_iterate, ← element_one]
  exact congrArg element (by decide +kernel)

theorem isUnit_root :
    IsUnit (AdjoinRoot.root modulus) :=
  IsUnit.of_pow_eq_one root_period (by decide)

/- 255 powers of the root in a row are apart. -/
theorem eq_zero_of_root_pow
    {k : Nat}
    {x : AdjoinRoot modulus}
    (hPos : 0 < k)
    (hLess : k < 255)
    (hSame : AdjoinRoot.root modulus ^ k * x = x) :
    x = 0 := by
  set r := AdjoinRoot.root modulus
  have hDvd : ∀ k < 255, 0 < k →
      k.gcd 255 ∣ 85 ∨ k.gcd 255 ∣ 51 ∨ k.gcd 255 ∣ 15 := by
    decide +kernel
  have hLog : ∀ j ∈ [85, 51, 15], ∃ e < 255,
      double^[j] 1 ^^^ 1 = double^[e] 1 := by
    decide +kernel
  have hTurn : ∀ j,
      Function.IsPeriodicPt (r * ·) j x ↔ r ^ j * x = x := by
    intro j
    unfold Function.IsPeriodicPt Function.IsFixedPt
    rw [mul_left_iterate]
  have hGcd := ((hTurn k).mpr hSame).gcd
    ((hTurn 255).mpr (by rw [root_period, one_mul]))
  have hPart : ∃ j ∈ [85, 51, 15], r ^ j * x = x := by
    simp only [← hTurn]
    rcases hDvd k hLess hPos with hTo | hTo | hTo
    · exact ⟨85, by simp, hGcd.trans_dvd hTo⟩
    · exact ⟨51, by simp, hGcd.trans_dvd hTo⟩
    · exact ⟨15, by simp, hGcd.trans_dvd hTo⟩
  rcases hPart with ⟨j, hMem, hHere⟩
  rcases hLog j hMem with ⟨e, -, hSum⟩
  -- twice `x` is 0, and `r ^ j + 1` is a power of `r`
  have hTwo := element_xor 1 1
  rw [UInt8.xor_self, element_zero, element_one] at hTwo
  have hElem := congrArg element hSum
  rw [element_xor, element_iterate, element_iterate,
    element_one] at hElem
  refine (isUnit_root.pow e).mul_left_cancel ?_
  linear_combination hHere - x * hElem - x * hTwo

/- Two unknown bytes are given by their two syndromes. -/
theorem eq_zero_of_sums
    {a b : Nat}
    {x y : AdjoinRoot modulus}
    (hTwo : a < b)
    (hLess : b < 255)
    (hP : x + y = 0)
    (hQ : AdjoinRoot.root modulus ^ a * x +
      AdjoinRoot.root modulus ^ b * y = 0) :
    x = 0 ∧ y = 0 := by
  have hLast : y = 0 := by
    rw [eq_neg_of_add_eq_zero_left hP, mul_neg,
      neg_add_eq_zero] at hQ
    refine eq_zero_of_root_pow (k := b - a) (by omega)
      (by omega) ((isUnit_root.pow a).mul_left_cancel ?_)
    rw [← mul_assoc, ← pow_add, Nat.add_sub_cancel' hTwo.le,
      hQ]
  rw [hLast, add_zero] at hP
  exact ⟨hP, hLast⟩

end ByteField
