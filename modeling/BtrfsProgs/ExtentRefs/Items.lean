import BtrfsProgs.Basic
import BtrfsProgs.Crc32c
import BtrfsProgs.Key
import BtrfsProgs.Lib.LittleEndian
import BtrfsProgs.Lib.OrderedItems

/-
  Items of the extent tree, from `ctree.h` and `extent-tree.c`.

  Extent items have the current format, not that of
  `struct btrfs_extent_item_v0`.

  Main declarations:
    * `ExtentItem` and `InlineRef`
    * `Value` and `Value.Fits`
    * `hashExtentDataRef`
    * `Tree`
-/

----------
-- Key Types
----------

namespace BtrfsProgs

namespace ExtentRefs

/- `BTRFS_EXTENT_ITEM_KEY`. -/
def EXTENT_ITEM_KEY : Nat := 168

/- `BTRFS_METADATA_ITEM_KEY`. -/
def METADATA_ITEM_KEY : Nat := 169

/- `BTRFS_TREE_BLOCK_REF_KEY`. -/
def TREE_BLOCK_REF_KEY : Nat := 176

/- `BTRFS_EXTENT_DATA_REF_KEY`. -/
def EXTENT_DATA_REF_KEY : Nat := 178

/- `BTRFS_EXTENT_REF_V0_KEY`. -/
def EXTENT_REF_V0_KEY : Nat := 180

/- `BTRFS_SHARED_BLOCK_REF_KEY`. -/
def SHARED_BLOCK_REF_KEY : Nat := 182

/- `BTRFS_SHARED_DATA_REF_KEY`. -/
def SHARED_DATA_REF_KEY : Nat := 184

/- `BTRFS_BLOCK_GROUP_ITEM_KEY`. -/
def BLOCK_GROUP_ITEM_KEY : Nat := 192

/- `BTRFS_FIRST_FREE_OBJECTID`. -/
def FIRST_FREE_OBJECTID : Nat := 256

/- `BTRFS_EXTENT_FLAG_DATA`. -/
def EXTENT_FLAG_DATA : Nat := 1

/- `BTRFS_EXTENT_FLAG_TREE_BLOCK`. -/
def EXTENT_FLAG_TREE_BLOCK : Nat := 2

----------
-- Items
----------

/- The owner of a data reference. -/
structure Owner where
  root : Nat
  objectid : Nat
  offset : Nat
deriving Repr, DecidableEq

/- `struct btrfs_extent_data_ref`. -/
structure ExtentDataRef where
  owner : Owner
  count : Nat
deriving Repr, DecidableEq

/- `struct btrfs_extent_inline_ref` and what follows it. -/
inductive InlineRef where
  | treeBlock (root : Nat)
  | extentData (ref : ExtentDataRef)
  | sharedBlock (parent : Nat)
  | sharedData (parent count : Nat)
deriving Repr, DecidableEq

/- `btrfs_extent_inline_ref_type`. -/
def InlineRef.type : InlineRef → Nat
  | .treeBlock _ => TREE_BLOCK_REF_KEY
  | .extentData _ => EXTENT_DATA_REF_KEY
  | .sharedBlock _ => SHARED_BLOCK_REF_KEY
  | .sharedData _ _ => SHARED_DATA_REF_KEY

/- `btrfs_extent_inline_ref_size`, for the four types. -/
def inlineRefSize
    (type : Nat) : Nat :=
  if type = TREE_BLOCK_REF_KEY ∨
      type = SHARED_BLOCK_REF_KEY then 9
  else if type = SHARED_DATA_REF_KEY then 13
  else 29

/- `struct btrfs_extent_item` and its inline references. -/
structure ExtentItem where
  refs : Nat
  generation : Nat
  flags : Nat
  inlineRefs : List InlineRef
deriving Repr, DecidableEq

def ExtentItem.isTreeBlock
    (item : ExtentItem) : Prop :=
  item.flags &&& EXTENT_FLAG_TREE_BLOCK ≠ 0

instance
    (item : ExtentItem) :
    Decidable item.isTreeBlock :=
  inferInstanceAs (Decidable (_ ≠ _))

/-
  The size of an extent item: a fat item of a tree block has a
  `struct btrfs_tree_block_info`.
-/
def ExtentItem.size
    (item : ExtentItem)
    (type : Nat) : Nat :=
  24 +
    (if item.isTreeBlock ∧ type = EXTENT_ITEM_KEY
      then 18 else 0) +
    (item.inlineRefs.map fun iref =>
      inlineRefSize iref.type).sum

/- The data of an item. -/
inductive Value where
  | extent (item : ExtentItem)
  | dataRef (ref : ExtentDataRef)
  | sharedDataRef (count : Nat)
  | refV0 (count : Nat)
  | other
deriving Repr, DecidableEq

/- The data is what the type of the key says. -/
def Value.Fits
    (type : Nat) : Value → Prop
  | .extent _ =>
      type = EXTENT_ITEM_KEY ∨ type = METADATA_ITEM_KEY
  | .dataRef _ => type = EXTENT_DATA_REF_KEY
  | .sharedDataRef _ => type = SHARED_DATA_REF_KEY
  | .refV0 _ => type = EXTENT_REF_V0_KEY
  | .other =>
      type ≠ EXTENT_ITEM_KEY ∧ type ≠ METADATA_ITEM_KEY ∧
        type ≠ EXTENT_DATA_REF_KEY ∧
        type ≠ SHARED_DATA_REF_KEY ∧
        type ≠ EXTENT_REF_V0_KEY

instance
    (type : Nat) :
    (value : Value) → Decidable (value.Fits type)
  | .extent _ => inferInstanceAs (Decidable (_ ∨ _))
  | .dataRef _ => inferInstanceAs (Decidable (_ = _))
  | .sharedDataRef _ => inferInstanceAs (Decidable (_ = _))
  | .refV0 _ => inferInstanceAs (Decidable (_ = _))
  | .other => inferInstanceAs (Decidable (_ ∧ _))

----------
-- The Hash of a Data Reference
----------

/- `hash_extent_data_ref`. -/
def hashExtentDataRef
    (owner : Owner) : Nat :=
  let high :=
    crc32c (BitVec.allOnes 32)
      (LittleEndian.encode 8 owner.root)
  let low :=
    crc32c (crc32c (BitVec.allOnes 32)
        (LittleEndian.encode 8 owner.objectid))
      (LittleEndian.encode 8 owner.offset)
  ((high.setWidth 64 <<< 31) ^^^ low.setWidth 64).toNat

----------
-- The Tree
----------

open OrderedItems

/-
  The items of the extent tree.  The place of a key is where
  `btrfs_search_slot` ends; `slot` is `path->slots[0]` there,
  which depends on how the items are spread over leaves.
-/
structure Tree where
  items : List (Key × Value)
  ascending : Ascending items
  fits : ∀ item ∈ items, item.2.Fits item.1.type
  slot : Key → Nat
  slot_le : ∀ k, slot k ≤ rank k items

/- What the open filesystem says. -/
structure FsInfo where
  skinnyMetadata : Bool
  leafsize : Nat

theorem Tree.exists_extent
    (t : Tree)
    {k : Key}
    {value : Value}
    (hGet : get k t.items = some value)
    (hType :
      k.type = EXTENT_ITEM_KEY ∨ k.type = METADATA_ITEM_KEY) :
    ∃ item, value = .extent item := by
  have hFits := t.fits _ (mem_of_get hGet)
  simp only at hFits
  cases value with
  | extent item => exact ⟨item, rfl⟩
  | dataRef ref
  | sharedDataRef count
  | refV0 count =>
      rcases hType with h | h <;> rw [h] at hFits <;>
        cases hFits
  | other =>
      rcases hType with h | h
      · exact absurd h hFits.1
      · exact absurd h hFits.2.1

end ExtentRefs

end BtrfsProgs
