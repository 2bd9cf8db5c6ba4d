import BtrfsProgs.Lib.ByteField
import BtrfsProgs.Lib.ByteLanes
import BtrfsProgs.Volumes.DataIo

/-
  The parity loops of `volumes.c` and `raid6.c` on machine
  words, and what they compute for each byte.

  Main declarations:
    * `genSyndrome` and `genSyndrome_eq`
    * `xorStripes` and `xorStripes_eq`
    * `element_syndromeByte`
    * `genSyndrome_restores`
-/

----------
-- Words
----------

namespace BtrfsProgs

namespace Volumes

open LittleEndian

/- `NSIZE`, the bytes of a word. -/
def NSIZE : Nat := 8

/- `NBYTES`: a byte in all lanes of a word. -/
def NBYTES
    (x : Nat) : Nat :=
  x * 0x0101010101010101

/- `SHLBYTE`. -/
def SHLBYTE
    (v : Nat) : Nat :=
  v <<< 1 % 2 ^ 64 &&& NBYTES 0xfe

/- `MASK`; the overflow on the top bit is cut. -/
def MASK
    (v : Nat) : Nat :=
  let vv := v &&& NBYTES 0x80
  (vv <<< 1 % 2 ^ 64 + 2 ^ 64 - vv >>> 7) % 2 ^ 64

/-
  The inner loop of `raid6_gen_syndrome` for one word of each
  data stripe, from the highest stripe down: `wp0` and `wq0`.
-/
def syndromeWord : List Nat → Nat × Nat
  | [] => (0, 0)
  | [wd0] => (wd0, wd0)
  | wd0 :: wds =>
      let (wp0, wq0) := syndromeWord wds
      let w20 := MASK wq0 &&& NBYTES 0x1d
      let w10 := SHLBYTE wq0 ^^^ w20
      (wp0 ^^^ wd0, w10 ^^^ wd0)

/- The words of the stripes at a place. -/
def wordsAt
    (ebs : List (List UInt8))
    (d : Nat) : List Nat :=
  ebs.map fun eb => decode ((eb.drop d).take NSIZE)

/- `raid6_gen_syndrome` for the data stripes: P and Q. -/
def genSyndrome
    (bytes : Nat)
    (ebs : List (List UInt8)) : List (List UInt8) :=
  let places := (List.range (bytes / NSIZE)).map (· * NSIZE)
  [places.flatMap fun d =>
      encode NSIZE (syndromeWord (wordsAt ebs d)).1,
    places.flatMap fun d =>
      encode NSIZE (syndromeWord (wordsAt ebs d)).2]

/-
  The parity of RAID5: the first data stripe, to which the
  words of the others are added.
-/
def xorWords : List Nat → Nat
  | [] => 0
  | wd0 :: wds => wds.foldl (· ^^^ ·) wd0

def xorStripes
    (bytes : Nat)
    (ebs : List (List UInt8)) : List UInt8 :=
  ((List.range (bytes / NSIZE)).map (· * NSIZE)).flatMap
    fun d => encode NSIZE (xorWords (wordsAt ebs d))

----------
-- Lanes
----------

section Lanes

variable {bs : List UInt8}

theorem NBYTES_eq
    (x : UInt8) :
    NBYTES x.toNat =
      decode (List.replicate NSIZE x) := by
  simp only [NBYTES, NSIZE, List.replicate, decode]
  omega

theorem SHLBYTE_decode
    (hLength : bs.length = NSIZE) :
    SHLBYTE (decode bs) = decode (bs.map fun b => b <<< (1 : UInt8)) := by
  have hMask : NBYTES 0xfe =
      decode (List.replicate bs.length 254) := by
    rw [hLength]
    exact NBYTES_eq 254
  have hLt : NBYTES 0xfe < 2 ^ 64 := by
    decide
  have hShift := ByteLanes.decode_shift (c := 0) bs (by omega)
  unfold SHLBYTE
  rw [ByteLanes.mod_and _ hLt, hMask, Nat.shiftLeft_eq,
    Nat.mul_comm]
  exact hShift

/- The high bit of every lane fills the lane. -/
theorem MASK_decode
    (hLength : bs.length = NSIZE) :
    MASK (decode bs) =
      decode (bs.map fun b => if 128 ≤ b then 255 else 0) := by
  set ks := bs.map fun b : UInt8 =>
    if 128 ≤ b then (1 : UInt8) else 0 with hks
  have hAnd : ∀ b : UInt8, b &&& 128 =
      if 128 ≤ b then 128 else 0 := by
    intro b
    apply UInt8.toNat_inj.mp
    have hByte := b.toNat_lt
    have hAll : ∀ n < 256, n &&& 128 =
        if 128 ≤ n then 128 else 0 := by
      decide +kernel
    rw [UInt8.toNat_and]
    simp only [UInt8.reduceToNat, hAll b.toNat hByte,
      UInt8.le_iff_toNat_le]
    split
    · rfl
    · rfl
  have hHigh : decode bs &&& NBYTES 0x80 = 128 * decode ks := by
    have hMask : NBYTES 0x80 =
        decode (List.replicate bs.length 128) := by
      rw [hLength]
      exact NBYTES_eq 128
    rw [hMask, ByteLanes.decode_and_replicate]
    simp only [hAnd]
    exact ByteLanes.decode_spread _ 128 bs
  have hSmall : decode ks < 256 ^ 8 := by
    have hLt := decode_lt ks
    rwa [hks, List.length_map, hLength, ← hks] at hLt
  have hLarge : 255 * decode ks < 256 ^ 8 := by
    have hLt := decode_lt
      (bs.map fun b : UInt8 => if 128 ≤ b then 255 else 0)
    rw [ByteLanes.decode_spread, List.length_map,
      hLength] at hLt
    exact hLt
  rw [ByteLanes.decode_spread (128 ≤ ·) 255, ← hks]
  unfold MASK
  simp only [hHigh, UInt8.reduceToNat, Nat.shiftLeft_eq,
    Nat.shiftRight_eq_div_pow]
  omega

/- One step of the syndrome, in every lane. -/
theorem step_decode
    {f g : Nat → UInt8} :
    SHLBYTE (decode ((List.range NSIZE).map f)) ^^^
          (MASK (decode ((List.range NSIZE).map f)) &&&
            NBYTES 0x1d) ^^^
        decode ((List.range NSIZE).map g) =
      decode ((List.range NSIZE).map fun j =>
        shlByte (f j) ^^^ g j) := by
  have hMask : NBYTES 0x1d =
      decode (List.replicate
        (((List.range NSIZE).map f).map fun b : UInt8 =>
          if 128 ≤ b then (255 : UInt8) else 0).length
        0x1d) := by
    simp only [List.length_map, List.length_range]
    exact NBYTES_eq 0x1d
  have hAnd : ∀ b : UInt8,
      (if 128 ≤ b then (255 : UInt8) else 0) &&& 0x1d =
        if 128 ≤ b then 0x1d else 0 := by
    intro b
    split
    · rfl
    · rfl
  rw [SHLBYTE_decode (by simp), MASK_decode (by simp), hMask,
    ByteLanes.decode_and_replicate,
    ByteLanes.decode_xor (by simp),
    ByteLanes.decode_xor (by simp)]
  congr 1
  simp only [List.map_map, List.zipWith_map,
    List.zipWith_self]
  apply List.map_congr_left
  intro j _
  simp only [Function.comp_apply, hAnd, shlByte]

end Lanes

----------
-- Stripes
----------

section Stripes

variable {bytes : Nat} {ebs : List (List UInt8)}

/- The bytes of a word of a stripe. -/
theorem word_eq
    {eb : List UInt8}
    {d : Nat}
    (hFits : d + NSIZE ≤ eb.length) :
    (eb.drop d).take NSIZE =
      (List.range NSIZE).map fun j => eb.getD (d + j) 0 := by
  apply List.ext_getElem
  · simp only [List.length_take, List.length_drop,
      List.length_map, List.length_range]
    omega
  · intro j hLeft hRight
    simp only [List.length_map, List.length_range] at hRight
    rw [List.getElem_take, List.getElem_drop,
      List.getElem_map, List.getElem_range,
      List.getD_eq_getElem]

theorem syndromeWord_eq
    {d : Nat}
    (hSome : ebs ≠ [])
    (hFits : ∀ eb ∈ ebs, d + NSIZE ≤ eb.length) :
    syndromeWord (wordsAt ebs d) =
      (decode ((List.range NSIZE).map fun j =>
          xorByte ebs (d + j)),
        decode ((List.range NSIZE).map fun j =>
          syndromeByte ebs (d + j))) := by
  induction ebs with
  | nil => exact absurd rfl hSome
  | cons eb ebs ih =>
      have hWord := word_eq (hFits eb List.mem_cons_self)
      cases ebs with
      | nil =>
          simp [wordsAt, syndromeWord, xorByte, syndromeByte,
            shlByte, hWord]
      | cons eb' ebs =>
          have hRest := ih (by simp) fun e he =>
            hFits e (List.mem_cons_of_mem _ he)
          simp only [wordsAt, List.map_cons,
            syndromeWord] at hRest ⊢
          rw [hRest]
          dsimp only
          rw [hWord, step_decode,
            ByteLanes.decode_xor (by simp),
            List.zipWith_map, List.zipWith_self]
          rfl

theorem xorWords_eq
    {d : Nat}
    (hFits : ∀ eb ∈ ebs, d + NSIZE ≤ eb.length) :
    xorWords (wordsAt ebs d) =
      decode ((List.range NSIZE).map fun j =>
        xorByte ebs (d + j)) := by
  have hFold : xorWords (wordsAt ebs d) =
      (wordsAt ebs d).foldr (· ^^^ ·) 0 := by
    cases hWords : wordsAt ebs d with
    | nil => rfl
    | cons wd0 wds =>
        rw [← List.foldl_eq_foldr, List.foldl_cons,
          Nat.zero_xor]
        rfl
  rw [hFold]
  clear hFold
  induction ebs with
  | nil => rfl
  | cons eb ebs ih =>
      have hWord := word_eq (hFits eb List.mem_cons_self)
      have hRest := ih fun e he =>
        hFits e (List.mem_cons_of_mem _ he)
      simp only [wordsAt, List.map_cons,
        List.foldr_cons] at hRest ⊢
      rw [hRest, hWord, ByteLanes.decode_xor (by simp),
        List.zipWith_map, List.zipWith_self]
      congr 1
      apply List.map_congr_left
      intro j _
      rw [UInt8.xor_comm]
      rfl

/- A stripe is the bytes of its words. -/
theorem flatMap_words
    (f : Nat → UInt8)
    (words : Nat) :
    ((List.range words).map (· * NSIZE)).flatMap
        (fun d => (List.range NSIZE).map fun j => f (d + j)) =
      (List.range (words * NSIZE)).map f := by
  induction words with
  | zero => rfl
  | succ words ih =>
      rw [List.range_succ, List.map_append, List.flatMap_append,
        ih, Nat.succ_mul, List.range_add, List.map_append,
        List.map_map]
      simp

/- The words of all places, given their bytes. -/
theorem flatMap_encode
    {word : Nat → Nat}
    {f : Nat → UInt8}
    (hDvd : NSIZE ∣ bytes)
    (hWord :
      ∀ d, d + NSIZE ≤ bytes →
        word d =
          decode ((List.range NSIZE).map fun j => f (d + j))) :
    ((List.range (bytes / NSIZE)).map (· * NSIZE)).flatMap
        (fun d => encode NSIZE (word d)) =
      (List.range bytes).map f := by
  have hCount := Nat.div_mul_cancel hDvd
  have hWords := flatMap_words f (bytes / NSIZE)
  rw [hCount] at hWords
  rw [← hWords]
  apply List.flatMap_congr
  intro d hd
  rw [List.mem_map] at hd
  rcases hd with ⟨k, hk, rfl⟩
  have hStep : (k + 1) * NSIZE ≤ bytes := by
    rw [← hCount]
    exact Nat.mul_le_mul_right _ (List.mem_range.mp hk)
  rw [Nat.succ_mul] at hStep
  rw [hWord _ hStep]
  have hBytes := encode_decode
    ((List.range NSIZE).map fun j => f (k * NSIZE + j))
  rwa [List.length_map, List.length_range] at hBytes

/- The loop on words computes P and Q byte by byte. -/
theorem genSyndrome_eq
    (hDvd : NSIZE ∣ bytes)
    (hSome : ebs ≠ [])
    (hLength : ∀ eb ∈ ebs, eb.length = bytes) :
    genSyndrome bytes ebs = raid6GenSyndrome bytes ebs := by
  have hWord : ∀ d, d + NSIZE ≤ bytes → _ := fun d hd =>
    syndromeWord_eq hSome fun eb he =>
      (hLength eb he).symm ▸ hd
  unfold genSyndrome raid6GenSyndrome
  dsimp only
  rw [flatMap_encode hDvd fun d hd =>
      congrArg Prod.fst (hWord d hd),
    flatMap_encode hDvd fun d hd =>
      congrArg Prod.snd (hWord d hd)]

/- So does the loop for RAID5. -/
theorem xorStripes_eq
    (hDvd : NSIZE ∣ bytes)
    (hLength : ∀ eb ∈ ebs, eb.length = bytes) :
    xorStripes bytes ebs =
      (List.range bytes).map (xorByte ebs) := by
  unfold xorStripes
  exact flatMap_encode hDvd fun d hd =>
    xorWords_eq fun eb he => (hLength eb he).symm ▸ hd

end Stripes

----------
-- Sums
----------

/- The exclusive or of some bytes. -/
def xorSum
    (f : Nat → UInt8)
    (is : List Nat) : UInt8 :=
  is.foldr (fun i w => w ^^^ f i) 0

theorem xorByte_eq_xorSum
    (ebs : List (List UInt8))
    (d : Nat) :
    xorByte ebs d =
      xorSum (fun i => (ebs.getD i []).getD d 0)
        (List.range ebs.length) := by
  induction ebs with
  | nil => rfl
  | cons eb ebs ih =>
      simp only [xorByte, List.foldr_cons] at ih ⊢
      rw [ih, List.length_cons, List.range_succ_eq_map]
      simp only [xorSum, List.foldr_cons, List.foldr_map]
      rfl

/-
  In the field of bytes, Q is the sum of the data stripes,
  stripe `i` times the `i`-th power of the root.
-/
theorem element_syndromeByte
    (ebs : List (List UInt8))
    (d : Nat) :
    ByteField.element (syndromeByte ebs d) =
      ∑ i ∈ Finset.range ebs.length,
        AdjoinRoot.root ByteField.modulus ^ i *
          ByteField.element ((ebs.getD i []).getD d 0) := by
  induction ebs with
  | nil => exact ByteField.element_zero
  | cons eb ebs ih =>
      have hStep : syndromeByte (eb :: ebs) d =
          ByteField.double (syndromeByte ebs d) ^^^
            eb.getD d 0 :=
        rfl
      rw [hStep, ByteField.element_xor,
        ByteField.element_double, ih, List.length_cons,
        Finset.sum_range_succ', Finset.mul_sum]
      congr 1
      · apply Finset.sum_congr rfl
        intro i _
        rw [pow_succ', mul_assoc, List.getD_cons_succ]
      · rw [pow_zero, one_mul, List.getD_cons_zero]

/- A byte is the exclusive or of the sum and the others. -/
theorem xorSum_recover
    {f : Nat → UInt8}
    {i : Nat}
    {is : List Nat}
    (hNodup : is.Nodup)
    (hMem : i ∈ is) :
    f i = xorSum f is ^^^ xorSum f (is.filter (· ≠ i)) := by
  induction is with
  | nil => cases hMem
  | cons j is ih =>
      rw [List.nodup_cons] at hNodup
      have hHead : xorSum f (j :: is) =
          xorSum f is ^^^ f j :=
        rfl
      by_cases hEq : j = i
      · subst hEq
        have hOthers : (j :: is).filter (· ≠ j) = is := by
          rw [List.filter_cons_of_neg (by simp),
            List.filter_eq_self]
          intro k hk
          simp only [decide_eq_true_eq]
          intro hkj
          exact hNodup.1 (hkj ▸ hk)
        rw [hOthers, hHead, UInt8.xor_comm (xorSum f is),
          UInt8.xor_assoc, UInt8.xor_self, UInt8.xor_zero]
      · have hRest := ih hNodup.2
          ((List.mem_cons.mp hMem).resolve_left
            (Ne.symm hEq))
        have hOthers :
            xorSum f ((j :: is).filter (· ≠ i)) =
              xorSum f (is.filter (· ≠ i)) ^^^ f j := by
          rw [List.filter_cons_of_pos (by simpa using hEq)]
          rfl
        have hTwice : ∀ a b c : UInt8,
            (a ^^^ c) ^^^ (b ^^^ c) = a ^^^ b := by
          intro a b c
          rw [UInt8.xor_comm b c, UInt8.xor_assoc,
            ← UInt8.xor_assoc c, UInt8.xor_self,
            UInt8.zero_xor]
        rw [hOthers, hHead, hTwice]
        exact hRest

----------
-- Lost Disks
----------

section Lost

variable {bytes a b d k : Nat}
variable {ebs ebs' : List (List UInt8)}

theorem element_xorByte
    (ebs : List (List UInt8))
    (d : Nat) :
    ByteField.element (xorByte ebs d) =
      ∑ i ∈ Finset.range ebs.length,
        ByteField.element ((ebs.getD i []).getD d 0) := by
  induction ebs with
  | nil => exact ByteField.element_zero
  | cons eb ebs ih =>
      have hStep : xorByte (eb :: ebs) d =
          xorByte ebs d ^^^ eb.getD d 0 :=
        rfl
      rw [hStep, ByteField.element_xor, ih, List.length_cons,
        Finset.sum_range_succ']
      rfl

/- What a byte of stripe `k` changes by, in the field. -/
noncomputable def change
    (ebs ebs' : List (List UInt8))
    (d k : Nat) : AdjoinRoot ByteField.modulus :=
  ByteField.element ((ebs.getD k []).getD d 0) -
    ByteField.element ((ebs'.getD k []).getD d 0)

theorem change_out
    (hSame : ebs'.length = ebs.length)
    (hk : ebs.length ≤ k) :
    change ebs ebs' d k = 0 := by
  simp [change, hk, hSame]

/- A parity, with the factors of its sum, that is the same. -/
theorem change_parity
    (hSame : ebs'.length = ebs.length)
    (hTwo : a ≠ b)
    (hData : ∀ k, k ≠ a → k ≠ b → change ebs ebs' d k = 0)
    {f : List (List UInt8) → Nat → UInt8}
    (c : Nat → AdjoinRoot ByteField.modulus)
    (hSum :
      ∀ es d, ByteField.element (f es d) =
        ∑ k ∈ Finset.range es.length, c k *
          ByteField.element ((es.getD k []).getD d 0))
    (hParity : f ebs d = f ebs' d) :
    c a * change ebs ebs' d a + c b * change ebs ebs' d b =
      0 := by
  have hElem := congrArg ByteField.element hParity
  rw [hSum, hSum, hSame, ← sub_eq_zero,
    ← Finset.sum_sub_distrib] at hElem
  simp only [← mul_sub] at hElem
  rw [← hElem]
  refine (Finset.sum_eq_add (f := fun k =>
    c k * change ebs ebs' d k) a b hTwo ?_ ?_ ?_).symm
  · rintro k - ⟨hA, hB⟩
    exact mul_eq_zero_of_right _ (hData k hA hB)
  · exact fun hMem => mul_eq_zero_of_right _
      (change_out hSame (by simpa using hMem))
  · exact fun hMem => mul_eq_zero_of_right _
      (change_out hSame (by simpa using hMem))

/- Any two of the disks can be lost. -/
theorem genSyndrome_restores
    (hDvd : NSIZE ∣ bytes)
    (hMany : ebs.length ≤ 255)
    (hSame : ebs'.length = ebs.length)
    (hLength : ∀ eb ∈ ebs ++ ebs', eb.length = bytes)
    (hTwo : a < b)
    (hKept :
      ∀ k, k ≠ a → k ≠ b →
        (ebs ++ genSyndrome bytes ebs)[k]? =
          (ebs' ++ genSyndrome bytes ebs')[k]?) :
    ebs = ebs' := by
  by_cases hNil : ebs = []
  · rw [hNil] at hSame ⊢
    exact (List.eq_nil_of_length_eq_zero hSame).symm
  have hNil' : ebs' ≠ [] := by
    rwa [← List.length_pos_iff, hSame, List.length_pos_iff]
  rw [genSyndrome_eq hDvd hNil fun eb he =>
      hLength eb (List.mem_append_left _ he),
    genSyndrome_eq hDvd hNil' fun eb he =>
      hLength eb (List.mem_append_right _ he)] at hKept
  have hData : ∀ d k, k ≠ a → k ≠ b →
      change ebs ebs' d k = 0 := by
    intro d k hA hB
    by_cases hk : k < ebs.length
    · have hHere := hKept k hA hB
      rw [List.getElem?_append_left hk,
        List.getElem?_append_left (hSame ▸ hk)] at hHere
      simp [change, List.getD_eq_getElem?_getD, hHere]
    · exact change_out hSame (not_lt.mp hk)
  have hParity : ∀ i < 2,
      ebs.length + i ≠ a → ebs.length + i ≠ b →
        (raid6GenSyndrome bytes ebs)[i]? =
          (raid6GenSyndrome bytes ebs')[i]? := by
    intro i _ hA hB
    have hHere := hKept _ hA hB
    rwa [List.getElem?_append_right (by omega),
      List.getElem?_append_right (by omega), hSame,
      Nat.add_sub_cancel_left] at hHere
  have hBoth : ∀ d < bytes, change ebs ebs' d a = 0 ∧
      change ebs ebs' d b = 0 := by
    intro d hd
    have hd := List.mem_range.mpr hd
    have hP := fun hA hB => change_parity hSame hTwo.ne
      (hData d) (fun _ => 1) (by simpa using element_xorByte)
      (List.map_inj_left.mp (Option.some.inj
        (hParity 0 (by decide) hA hB)) d hd)
    have hQ := fun hA hB => change_parity hSame hTwo.ne
      (hData d) (AdjoinRoot.root ByteField.modulus ^ ·)
      element_syndromeByte
      (List.map_inj_left.mp (Option.some.inj
        (hParity 1 (by decide) hA hB)) d hd)
    simp only [one_mul] at hP
    by_cases hB : b < ebs.length
    · exact ByteField.eq_zero_of_sums hTwo (by omega)
        (hP (by omega) (by omega)) (hQ (by omega) (by omega))
    · have hLast : change ebs ebs' d b = 0 :=
        change_out hSame (not_lt.mp hB)
      simp only [hLast, mul_zero, add_zero] at hP hQ
      refine ⟨?_, hLast⟩
      by_cases hA : a < ebs.length
      · by_cases hAt : ebs.length = b
        · exact (ByteField.isUnit_root.pow a).mul_right_eq_zero.mp
            (hQ (by omega) (by omega))
        · exact hP (by omega) hAt
      · exact change_out hSame (not_lt.mp hA)
  refine List.ext_getElem hSame.symm fun k hk hk' => ?_
  have hSize := hLength _
    (List.mem_append_left ebs' (List.getElem_mem hk))
  have hSize' := hLength _
    (List.mem_append_right ebs (List.getElem_mem hk'))
  refine List.ext_getElem (hSize.trans hSize'.symm)
    fun d hd hd' => ?_
  have hNone : change ebs ebs' d k = 0 := by
    by_cases hA : k = a
    · exact hA ▸ (hBoth d (hSize ▸ hd)).1
    · by_cases hB : k = b
      · exact hB ▸ (hBoth d (hSize ▸ hd)).2
      · exact hData d k hA hB
  have hByte := ByteField.element_injective
    (sub_eq_zero.mp hNone)
  rwa [List.getD_eq_getElem _ _ hk, List.getD_eq_getElem _ _ hk',
    List.getD_eq_getElem _ _ hd,
    List.getD_eq_getElem _ _ hd'] at hByte

/- The first and the last of three stripes. -/
theorem genSyndrome_restores_three :
    ¬ ∃ u v : List UInt8,
      u.length = 8 ∧ v.length = 8 ∧ u ≠ .replicate 8 7 ∧
        genSyndrome 8 [u, .replicate 8 7, v] =
          genSyndrome 8 (.replicate 3 (.replicate 8 7)) := by
  rintro ⟨u, v, hU, hV, hNot, hSame⟩
  have hEq : .replicate 3 (.replicate 8 7) =
      [u, .replicate 8 7, v] := by
    have hDvd : NSIZE ∣ 8 := dvd_rfl
    refine genSyndrome_restores (a := 0) (b := 2) hDvd
      (by decide) rfl (by simp [hU, hV]) (by decide) ?_
    intro k hA hB
    rw [hSame]
    rcases k with _ | _ | _ | k
    · exact absurd rfl hA
    · rfl
    · exact absurd rfl hB
    · rfl
  exact hNot (List.cons.inj hEq).1.symm

end Lost

end Volumes

end BtrfsProgs
