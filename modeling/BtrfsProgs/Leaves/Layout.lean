import BtrfsProgs.Key
import BtrfsProgs.Lib.ByteArea
import BtrfsProgs.Lib.LittleEndian
import BtrfsProgs.Lib.OrderedItems

/-
  The bytes of a leaf, from `ctree.h` and `ctree.c`.

  Item headers grow upwards from the start of the leaf's data
  and item data grow downwards from its end.  Addresses count
  from `btrfs_leaf_data`.

  Main declarations:
    * `Leaf`, `itemKey`, `itemOffset` and `itemSize`
    * `leafSpaceUsed` and `leafFreeSpace`
    * `Layout`
-/

----------
-- Item Headers
----------

namespace BtrfsProgs

namespace Leaves

open ByteArea

/- `sizeof(struct btrfs_item)`. -/
def ITEM_SIZE : Nat := 25

/-
  What the code takes from the root: `BTRFS_LEAF_DATA_SIZE`,
  which fits in an `int`.
-/
structure Geometry where
  dataSize : Nat
  dataSize_lt : dataSize < 2 ^ 31

/- A leaf: the count of its header, and its data. -/
structure Leaf where
  nritems : Nat
  area : Area

/- `btrfs_item_key_to_cpu`. -/
def itemKey
    (a : Area)
    (i : Nat) : Key where
  objectid :=
    LittleEndian.decode (load a (ITEM_SIZE * i) 8)
  type := LittleEndian.decode (load a (ITEM_SIZE * i + 8) 1)
  offset :=
    LittleEndian.decode (load a (ITEM_SIZE * i + 9) 8)

/- `btrfs_item_offset`. -/
def itemOffset
    (a : Area)
    (i : Nat) : Nat :=
  LittleEndian.decode (load a (ITEM_SIZE * i + 17) 4)

/- `btrfs_item_size`. -/
def itemSize
    (a : Area)
    (i : Nat) : Nat :=
  LittleEndian.decode (load a (ITEM_SIZE * i + 21) 4)

/- `btrfs_item_end_nr`, a sum of two `u32`. -/
def itemEnd
    (a : Area)
    (i : Nat) : Nat :=
  (itemOffset a i + itemSize a i) % 2 ^ 32

/- An `int` where an unsigned number of `w` bits is wanted. -/
def unsigned
    (w : Nat)
    (z : Int) : Nat :=
  (z % 2 ^ w).toNat

----------
-- Space
----------

/- What an `int` keeps of a number. -/
def wrapInt
    (z : Int) : Int :=
  (z + 2 ^ 31) % 2 ^ 32 - 2 ^ 31

theorem wrapInt_eq
    {z : Int}
    (hLow : 0 ≤ z)
    (hHigh : z < 2 ^ 31) :
    wrapInt z = z := by
  unfold wrapInt
  omega

/-
  `leaf_space_used`. The sum is kept in an `int`, and a
  negative one is the `WARN_ON`, an assertion: `none`.
-/
def leafSpaceUsed
    (l : Leaf)
    (start nr : Nat) : Option Int :=
  if nr = 0 then some 0
  else
    let dataLen := wrapInt
      ((itemEnd l.area start : Int) -
        itemOffset l.area (min l.nritems (start + nr) - 1) +
        ITEM_SIZE * nr)
    if dataLen < 0 then none else some dataLen

/- `btrfs_leaf_free_space`; the difference is an `int`. -/
def leafFreeSpace
    (g : Geometry)
    (l : Leaf) : Option Int :=
  (leafSpaceUsed l 0 l.nritems).map fun used =>
    g.dataSize - used

/- `leaf_data_end`. -/
def leafDataEnd
    (g : Geometry)
    (l : Leaf) : Nat :=
  if l.nritems = 0 then g.dataSize
  else itemOffset l.area (l.nritems - 1)

----------
-- Layout
----------

/-
  A well laid out leaf: the keys ascend, the data of the first
  item end with the leaf, those of every other item end where
  those of the item before it begin, and headers and data do
  not overlap.
-/
structure Layout
    (g : Geometry)
    (l : Leaf) : Prop where
  ascending :
    ∀ i j, i < j → j < l.nritems →
      itemKey l.area i < itemKey l.area j
  first :
    0 < l.nritems →
      itemOffset l.area 0 + itemSize l.area 0 = g.dataSize
  contiguous :
    ∀ i, i + 1 < l.nritems →
      itemOffset l.area (i + 1) + itemSize l.area (i + 1) =
        itemOffset l.area i
  free : ITEM_SIZE * l.nritems ≤ leafDataEnd g l

/- Where data follow on data, offsets stay in the leaf. -/
theorem offset_le
    {a : Area}
    {n size : Nat}
    (hFirst : itemOffset a 0 + itemSize a 0 ≤ size)
    (hNext :
      ∀ i, i + 1 < n →
        itemOffset a (i + 1) + itemSize a (i + 1) =
          itemOffset a i)
    (i : Nat)
    (hIn : i < n) :
    itemOffset a i ≤ size := by
  induction i with
  | zero => omega
  | succ i ih =>
      have hBefore := ih (by omega)
      have hHere := hNext i hIn
      omega

theorem Layout.offset_le
    {g : Geometry}
    {l : Leaf}
    (hLayout : Layout g l)
    (i : Nat)
    (hIn : i < l.nritems) :
    itemOffset l.area i ≤ g.dataSize :=
  Leaves.offset_le
    (Nat.le_of_eq (hLayout.first (by omega)))
    hLayout.contiguous i hIn

theorem Layout.headers_lt
    {g : Geometry}
    {l : Leaf}
    (hLayout : Layout g l) :
    l.nritems * ITEM_SIZE < 2 ^ 31 := by
  have hSize := g.dataSize_lt
  have hFree := hLayout.free
  unfold leafDataEnd at hFree
  split at hFree
  · rename_i hNone
    rw [hNone]
    decide
  · have hLast := hLayout.offset_le (l.nritems - 1) (by omega)
    rw [Nat.mul_comm]
    omega

/-
  Where the data are from the last item's offset to the end of
  the leaf, the space is free or the headers take it.
-/
theorem leafFreeSpace_iff
    {g : Geometry}
    {l : Leaf}
    (hSome : 0 < l.nritems)
    (hHeaders : l.nritems * ITEM_SIZE < 2 ^ 31)
    (hEnd : itemEnd l.area 0 = g.dataSize)
    (hLast : itemOffset l.area (l.nritems - 1) ≤ g.dataSize) :
    (∃ free, leafFreeSpace g l = some free ∧ 0 ≤ free) ↔
      ITEM_SIZE * l.nritems ≤ leafDataEnd g l := by
  have hSize := g.dataSize_lt
  unfold leafFreeSpace leafSpaceUsed leafDataEnd
  have hNone : l.nritems ≠ 0 := Nat.ne_of_gt hSome
  rw [if_neg hNone, if_neg hNone, hEnd, Nat.zero_add,
    Nat.min_self]
  constructor
  · rintro ⟨free, hFree, hPos⟩
    rcases Option.map_eq_some_iff.mp hFree with
      ⟨used, hUsed, hSame⟩
    dsimp only at hUsed
    split at hUsed
    · cases hUsed
    · rename_i hNoWarn
      cases hUsed
      unfold wrapInt ITEM_SIZE at *
      omega
  · intro hFits
    have hHere :
        wrapInt ((g.dataSize : Int) -
            itemOffset l.area (l.nritems - 1) +
              ITEM_SIZE * l.nritems) =
          (g.dataSize : Int) -
            itemOffset l.area (l.nritems - 1) +
              ITEM_SIZE * l.nritems := by
      unfold ITEM_SIZE at *
      apply wrapInt_eq
      · omega
      · omega
    rw [hHere, if_neg (by unfold ITEM_SIZE at *; omega)]
    refine ⟨_, rfl, ?_⟩
    dsimp only
    unfold ITEM_SIZE at *
    omega

----------
-- Moving Headers
----------

section Moving

variable {a a' : Area} {h h' : Nat}

/- The bytes of a header are at another place. -/
theorem itemKey_congr
    (hSame :
      ∀ q < ITEM_SIZE,
        a' (ITEM_SIZE * h' + q) = a (ITEM_SIZE * h + q)) :
    itemKey a' h' = itemKey a h := by
  unfold itemKey
  congr 2
  · apply load_congr
    intro i hi
    exact hSame i (by unfold ITEM_SIZE; omega)
  · apply load_congr
    intro i hi
    simpa only [Nat.add_assoc] using
      hSame (8 + i) (by unfold ITEM_SIZE; omega)
  · apply load_congr
    intro i hi
    simpa only [Nat.add_assoc] using
      hSame (9 + i) (by unfold ITEM_SIZE; omega)

theorem itemOffset_congr
    (hSame :
      ∀ q < ITEM_SIZE,
        a' (ITEM_SIZE * h' + q) = a (ITEM_SIZE * h + q)) :
    itemOffset a' h' = itemOffset a h := by
  unfold itemOffset
  congr 1
  apply load_congr
  intro i hi
  simpa only [Nat.add_assoc] using
    hSame (17 + i) (by unfold ITEM_SIZE; omega)

theorem itemSize_congr
    (hSame :
      ∀ q < ITEM_SIZE,
        a' (ITEM_SIZE * h' + q) = a (ITEM_SIZE * h + q)) :
    itemSize a' h' = itemSize a h := by
  unfold itemSize
  congr 1
  apply load_congr
  intro i hi
  simpa only [Nat.add_assoc] using
    hSame (21 + i) (by unfold ITEM_SIZE; omega)

end Moving

end Leaves

end BtrfsProgs
