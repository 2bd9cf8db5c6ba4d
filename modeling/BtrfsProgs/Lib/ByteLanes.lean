import BtrfsProgs.Lib.LittleEndian

/-
  Words as lanes of bytes: operations on a whole word that
  work on each of its bytes.

  Main declarations:
    * `ByteLanes.decode_xor` and `ByteLanes.decode_and`
    * `ByteLanes.decode_shift`
    * `ByteLanes.decode_spread`
-/

----------
-- Bitwise Operations
----------

namespace ByteLanes

open LittleEndian

/- A byte below other bytes, bit by bit. -/
theorem testBit_lane
    {a : Nat}
    (x : Nat)
    (ha : a < 256)
    (n : Nat) :
    (a + 256 * x).testBit n =
      if n < 8 then a.testBit n else x.testBit (n - 8) := by
  rw [Nat.add_comm, show (256 : Nat) = 2 ^ 8 from rfl,
    Nat.testBit_two_pow_mul_add x ha]

/- An operation on bits works on each lane. -/
theorem bitwise_lane
    {op : Nat → Nat → Nat}
    {f : Bool → Bool → Bool}
    {a c : Nat}
    (hOp :
      ∀ x y n, (op x y).testBit n =
        f (x.testBit n) (y.testBit n))
    (ha : a < 256)
    (hc : c < 256)
    (hac : op a c < 256)
    (x y : Nat) :
    op (a + 256 * x) (c + 256 * y) =
      op a c + 256 * op x y := by
  apply Nat.eq_of_testBit_eq
  intro n
  rw [hOp, testBit_lane x ha, testBit_lane y hc,
    testBit_lane _ hac]
  split
  case isTrue => rw [hOp]
  case isFalse => rw [hOp]

theorem decode_xor
    {as bs : List UInt8}
    (hLength : as.length = bs.length) :
    decode as ^^^ decode bs =
      decode (List.zipWith (· ^^^ ·) as bs) := by
  induction as generalizing bs with
  | nil =>
      rw [List.length_eq_zero_iff.mp hLength.symm]
      rfl
  | cons a as ih =>
      cases bs with
      | nil => cases hLength
      | cons b bs =>
          simp only [decode, List.zipWith_cons_cons]
          rw [bitwise_lane Nat.testBit_xor a.toNat_lt
            b.toNat_lt (Nat.xor_lt_two_pow (n := 8)
              a.toNat_lt b.toNat_lt),
            ih (Nat.succ.inj hLength), UInt8.toNat_xor]

theorem decode_and
    {as bs : List UInt8}
    (hLength : as.length = bs.length) :
    decode as &&& decode bs =
      decode (List.zipWith (· &&& ·) as bs) := by
  induction as generalizing bs with
  | nil =>
      rw [List.length_eq_zero_iff.mp hLength.symm]
      rfl
  | cons a as ih =>
      cases bs with
      | nil => cases hLength
      | cons b bs =>
          simp only [decode, List.zipWith_cons_cons]
          rw [bitwise_lane Nat.testBit_and a.toNat_lt
            b.toNat_lt (Nat.and_lt_two_pow (n := 8)
              _ b.toNat_lt),
            ih (Nat.succ.inj hLength), UInt8.toNat_and]

/- The same mask for every lane. -/
theorem decode_and_replicate
    (bs : List UInt8)
    (m : UInt8) :
    decode bs &&& decode (List.replicate bs.length m) =
      decode (bs.map fun b => b &&& m) := by
  have hZip : List.zipWith (· &&& ·) bs
      (List.replicate bs.length m) =
        bs.map fun b => b &&& m := by
    induction bs with
    | nil => rfl
    | cons b bs ih =>
        rw [List.length_cons, List.replicate_succ,
          List.zipWith_cons_cons, ih, List.map_cons]
  rw [decode_and (by simp), hZip]

/- A mask of whole lanes cuts what is above them. -/
theorem mod_and
    {m k : Nat}
    (v : Nat)
    (hm : m < 2 ^ k) :
    v % 2 ^ k &&& m = v &&& m := by
  apply Nat.eq_of_testBit_eq
  intro n
  rw [Nat.testBit_and, Nat.testBit_and,
    Nat.testBit_mod_two_pow]
  by_cases hn : n < k
  · simp [hn]
  · have hOut : m.testBit n = false := by
      apply Nat.testBit_lt_two_pow
      exact lt_of_lt_of_le hm
        (Nat.pow_le_pow_right (by omega) (by omega))
    simp [hOut]

----------
-- Shifts
----------

/- A shift by one bit, without what comes from below. -/
theorem shift_lane :
    ∀ b < 256, ∀ c < 2,
      (2 * b + c) % 256 &&& 254 = 2 * b % 256 := by
  decide +kernel

theorem decode_shift
    {c : Nat}
    (bs : List UInt8)
    (hc : c < 2) :
    (2 * decode bs + c) &&&
        decode (List.replicate bs.length 254) =
      decode (bs.map fun b => b <<< (1 : UInt8)) := by
  induction bs generalizing c with
  | nil => simp [decode]
  | cons b bs ih =>
      have hByte := b.toNat_lt
      have hSplit : 2 * decode (b :: bs) + c =
          (2 * b.toNat + c) % 256 +
            256 * (2 * decode bs +
              (2 * b.toNat + c) / 256) := by
        simp only [decode]
        omega
      have hShift : (b <<< 1).toNat = 2 * b.toNat % 256 := by
        rw [UInt8.toNat_shiftLeft, Nat.shiftLeft_eq]
        simp only [UInt8.reduceToNat, Nat.reduceMod,
          Nat.pow_one]
        omega
      have hLow := shift_lane b.toNat hByte c hc
      rw [hSplit]
      simp only [List.length_cons, List.replicate_succ,
        decode, List.map_cons, UInt8.reduceToNat]
      rw [bitwise_lane Nat.testBit_and (Nat.mod_lt _ (by omega))
        (by omega) (by omega), hLow, ih (by omega), hShift]

/- One value in some lanes and nothing in the others. -/
theorem decode_spread
    (p : UInt8 → Prop)
    [DecidablePred p]
    (m : UInt8)
    (bs : List UInt8) :
    decode (bs.map fun b => if p b then m else 0) =
      m.toNat * decode (bs.map fun b => if p b then 1 else 0)
      := by
  induction bs with
  | nil => simp [decode]
  | cons b bs ih =>
      simp only [List.map_cons, decode, ih]
      split
      · simp only [UInt8.reduceToNat]
        ring
      · simp only [UInt8.reduceToNat]
        ring

end ByteLanes
