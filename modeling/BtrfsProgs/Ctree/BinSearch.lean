import BtrfsProgs.Ctree.ItemSearch
import BtrfsProgs.Lib.ByteArea
import BtrfsProgs.Lib.CountIn
import BtrfsProgs.Lib.LittleEndian

/-
  `generic_bin_search` on the bytes of a block, from
  `ctree.c`.

  Main declarations:
    * `diskKey` and `btrfsCompKeys`
    * `genericBinSearchIn`
    * `genericBinSearchIn_exact`
-/

----------
-- Keys of a Block
----------

namespace BtrfsProgs

namespace Ctree

open ByteArea

/- `btrfs_disk_key_to_cpu` for the `struct btrfs_disk_key`. -/
def diskKey
    (data : Area)
    (offset : Nat) : Key where
  objectid := LittleEndian.decode (load data offset 8)
  type := LittleEndian.decode (load data (offset + 8) 1)
  offset := LittleEndian.decode (load data (offset + 9) 8)

/- `btrfs_comp_keys`, field by field. -/
def btrfsCompKeys
    (k1 k2 : Key) : Int :=
  if k1.objectid > k2.objectid then 1
  else if k1.objectid < k2.objectid then -1
  else if k1.type > k2.type then 1
  else if k1.type < k2.type then -1
  else if k1.offset > k2.offset then 1
  else if k1.offset < k2.offset then -1
  else 0

/-
  `generic_bin_search` for the entries from `p` on, which are
  those of a leaf or of a node. The sum of two slots of a block
  fits in an `int`.
-/
def genericBinSearchIn
    (data : Area)
    (p itemSize : Nat)
    (key : Key)
    (max : Nat) : Int × Nat :=
  genericBinSearch
    (fun mid => btrfsCompKeys (diskKey data (p + mid * itemSize))
      key) 0 max

----------
-- The Search
----------

/- Comparing the fields in turn is the order of keys. -/
theorem btrfsCompKeys_eq
    (k1 k2 : Key) :
    btrfsCompKeys k1 k2 = compKeys k1 k2 := by
  unfold compKeys
  simp only [Key.lt_iff]
  unfold btrfsCompKeys
  rcases Nat.lt_trichotomy k1.objectid k2.objectid with
    hLess | hSame | hMore
  · rw [if_neg (by omega), if_pos hLess, if_pos (.inl hLess)]
  · rw [if_neg (by omega), if_neg (by omega)]
    rcases Nat.lt_trichotomy k1.type k2.type with
      hLess | hType | hMore
    · rw [if_neg (by omega), if_pos hLess,
        if_pos (.inr ⟨hSame, .inl hLess⟩)]
    · rw [if_neg (by omega), if_neg (by omega)]
      rcases Nat.lt_trichotomy k1.offset k2.offset with
        hLess | hOffset | hMore
      · rw [if_neg (by omega), if_pos hLess,
          if_pos (.inr ⟨hSame, .inr ⟨hType, hLess⟩⟩)]
      · rw [if_neg (by omega), if_neg (by omega),
          if_neg (by omega), if_neg (by omega)]
      · rw [if_pos hMore, if_neg (by omega),
          if_pos (.inr ⟨hSame.symm, .inr
            ⟨hType.symm, hMore⟩⟩)]
    · rw [if_pos hMore, if_neg (by omega),
        if_pos (.inr ⟨hSame.symm, .inl hMore⟩)]
  · rw [if_pos hMore, if_neg (by omega), if_pos (.inl hMore)]

section Search

variable {keyAt : Nat → Key} {key : Key} {max : Nat}

/- The slots in front of a place where all keys are smaller. -/
theorem countIn_smaller
    {slot : Nat}
    (hLe : slot ≤ max)
    (hBelow : ∀ i, i < slot → keyAt i < key)
    (hAbove : ∀ i, slot ≤ i → i < max → key < keyAt i) :
    countIn (fun i => keyAt i < key) 0 max = slot := by
  rw [countIn_split (Nat.zero_le slot) hLe,
    countIn_all fun i _ hLess => hBelow i hLess,
    countIn_none fun i hFrom hLess =>
      lt_asymm (hAbove i hFrom hLess)]
  rfl

/- The slot of the key, or that of the smaller ones. -/
theorem genericBinSearch_exact
    (keyAt : Nat → Key)
    (hAscending : ∀ i j, i < j → j < max → keyAt i < keyAt j) :
    (∀ slot, slot < max → keyAt slot = key →
      genericBinSearch (fun i => compKeys (keyAt i) key) 0 max =
        (0, slot)) ∧
      ((∀ slot, slot < max → keyAt slot ≠ key) →
        genericBinSearch (fun i => compKeys (keyAt i) key) 0 max =
          (1, countIn (fun i => keyAt i < key) 0 max)) := by
  have hRising :
      Rising (fun i => compKeys (keyAt i) key) max := by
    intro i j hLess hIn
    have hKeys := hAscending i j hLess hIn
    rw [compKeys_neg, compKeys_neg, compKeys_pos, compKeys_pos]
    exact ⟨fun h => hKeys.trans h, fun h => h.trans hKeys⟩
  have hSpec := genericBinSearch_spec 0 max hRising
    (Nat.zero_le _) (Nat.le_refl _) (by omega) (by omega)
  generalize genericBinSearch (fun i => compKeys (keyAt i) key)
    0 max = result at hSpec
  rcases result with ⟨ret, slot⟩
  dsimp only at hSpec
  rcases hSpec with ⟨rfl, hIn, hZero⟩ |
    ⟨rfl, hLe, hNeg, hPos⟩
  · have hHere : keyAt slot = key := compKeys_zero.mp hZero
    constructor
    · intro other hOther hEq
      rcases Nat.lt_trichotomy slot other with
        hLess | rfl | hMore
      · have hKeys := hAscending slot other hLess hOther
        rw [hHere, hEq] at hKeys
        exact absurd hKeys (lt_irrefl key)
      · rfl
      · have hKeys := hAscending other slot hMore hIn
        rw [hHere, hEq] at hKeys
        exact absurd hKeys (lt_irrefl key)
    · intro hNone
      exact absurd hHere (hNone slot hIn)
  · constructor
    · intro other hOther hEq
      rcases Nat.lt_or_ge other slot with hBelow | hFrom
      · exact absurd hEq (compKeys_neg.mp (hNeg other hBelow)).ne
      · exact absurd hEq
          (compKeys_pos.mp (hPos other hFrom hOther)).ne'
    · intro _
      rw [countIn_smaller hLe
        (fun i hBelow => compKeys_neg.mp (hNeg i hBelow))
        (fun i hFrom hIn => compKeys_pos.mp (hPos i hFrom hIn))]

end Search

/-
  Among strictly ascending keys, the slot of the given one is
  found, or how many keys are smaller.
-/
theorem genericBinSearchIn_exact
    (data : Area)
    (p itemSize max : Nat)
    (key : Key)
    (hAscending : ∀ i j, i < j → j < max →
      diskKey data (p + i * itemSize) <
        diskKey data (p + j * itemSize)) :
    (∀ slot, slot < max →
      diskKey data (p + slot * itemSize) = key →
        genericBinSearchIn data p itemSize key max =
          (0, slot)) ∧
      ((∀ slot, slot < max →
          diskKey data (p + slot * itemSize) ≠ key) →
        genericBinSearchIn data p itemSize key max =
          (1, countIn (fun i =>
            diskKey data (p + i * itemSize) < key) 0 max)) := by
  unfold genericBinSearchIn
  simp only [btrfsCompKeys_eq]
  exact genericBinSearch_exact
    (fun i => diskKey data (p + i * itemSize)) hAscending

/- A node with the keys `(0, 0, 0)` and `(1, 0, 0)`. -/
def twoPointers : Area :=
  fun q => if q = 101 + 33 then 1 else 0

theorem genericBinSearchIn_exact_two :
    genericBinSearchIn twoPointers 101 33 ⟨1, 0, 0⟩ 2 =
      (0, 1) := by
  refine (genericBinSearchIn_exact twoPointers 101 33 2
    ⟨1, 0, 0⟩ ?_).1 1 (by decide) (by decide)
  intro i j hLess hIn
  have hOnly : i = 0 ∧ j = 1 := by omega
  rcases hOnly with ⟨rfl, rfl⟩
  rw [Key.lt_iff]
  decide

end Ctree

end BtrfsProgs
