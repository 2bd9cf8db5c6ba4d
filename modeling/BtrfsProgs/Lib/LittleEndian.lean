import Mathlib

/-
  Little-endian numbers as lists of bytes.

  Main declarations:
    * `LittleEndian.decode` and `LittleEndian.encode`
    * `LittleEndian.decode_encode`
-/

----------
-- Numbers and Bytes
----------

namespace LittleEndian

/- The number that some bytes stand for, lowest byte first. -/
def decode : List UInt8 → Nat
  | [] => 0
  | b :: bs => b.toNat + 256 * decode bs

/- The lowest `w` bytes of a number. -/
def encode : Nat → Nat → List UInt8
  | 0, _ => []
  | w + 1, n => UInt8.ofNat n :: encode w (n / 256)

@[simp]
theorem length_encode
    (w n : Nat) :
    (encode w n).length = w := by
  induction w generalizing n with
  | zero => rfl
  | succ w ih => simp [encode, ih]

theorem decode_lt
    (bs : List UInt8) :
    decode bs < 256 ^ bs.length := by
  induction bs with
  | nil => simp [decode]
  | cons b bs ih =>
      have hByte := b.toNat_lt
      have hPow : 256 ^ (bs.length + 1) =
          256 * 256 ^ bs.length := by
        ring
      simp only [decode, List.length_cons]
      rw [hPow]
      omega

/- What was encoded is decoded, up to the width. -/
theorem decode_encode
    (w n : Nat) :
    decode (encode w n) = n % 256 ^ w := by
  induction w generalizing n with
  | zero => simp [encode, decode, Nat.mod_one]
  | succ w ih =>
      have hPow : 256 ^ (w + 1) = 256 * 256 ^ w := by
        ring
      simp only [encode, decode, ih]
      rw [hPow, Nat.mod_mul, UInt8.toNat_ofNat']

theorem decode_encode_of_lt
    {w n : Nat}
    (hFits : n < 256 ^ w) :
    decode (encode w n) = n := by
  rw [decode_encode, Nat.mod_eq_of_lt hFits]

/- Equal bytes start with equal numbers of one width. -/
theorem encode_append_inj
    {w m n : Nat}
    {r s : List UInt8}
    (hM : m < 256 ^ w)
    (hN : n < 256 ^ w)
    (hEq : encode w m ++ r = encode w n ++ s) :
    m = n ∧ r = s := by
  have hLen : (encode w m).length = (encode w n).length := by
    rw [length_encode, length_encode]
  rcases List.append_inj hEq hLen with ⟨hSame, hRest⟩
  refine ⟨?_, hRest⟩
  rw [← decode_encode_of_lt hM, hSame,
    decode_encode_of_lt hN]

/- What was decoded is encoded again. -/
theorem encode_decode
    (bs : List UInt8) :
    encode bs.length (decode bs) = bs := by
  induction bs with
  | nil => rfl
  | cons b bs ih =>
      have hByte := b.toNat_lt
      have hLow : UInt8.ofNat (b.toNat + 256 * decode bs) =
          b := by
        apply UInt8.toNat_inj.mp
        rw [UInt8.toNat_ofNat']
        omega
      have hHigh : (b.toNat + 256 * decode bs) / 256 =
          decode bs := by
        omega
      simp only [List.length_cons, decode, encode, hLow,
        hHigh, ih]

/- Only the lowest bytes of a number are encoded. -/
theorem encode_mod
    (w n : Nat) :
    encode w (n % 256 ^ w) = encode w n := by
  have hBack := encode_decode (encode w n)
  rw [length_encode, decode_encode] at hBack
  exact hBack

end LittleEndian
