import BtrfsProgs.Ctree.ItemSearch
import BtrfsProgs.CsumCheck.RangeCount

/-
  The csum tree, and the bytes that its items cover.

  Main declarations:
    * `CsumRoot`
    * `CsumRoot.ranges` and `CsumRoot.Covered`
    * `IsCsum` and `IsCsum.between`
-/

----------
-- The Tree
----------

namespace BtrfsProgs

namespace CsumCheck

open Trail Ctree

/- `BTRFS_EXTENT_CSUM_OBJECTID`, -10 as a `u64`. -/
def EXTENT_CSUM_OBJECTID : Nat := 2 ^ 64 - 10

/- `BTRFS_EXTENT_CSUM_KEY`. -/
def EXTENT_CSUM_KEY : Nat := 128

/-
  The csum root as it is read, with the sizes of its items.
  The bytes that the checksums of an item stand for are a
  `u32`, as an item is no longer than a leaf.
-/
structure CsumRoot (N : Type) where
  slots : Slots N
  key : N → Nat → Key
  size : N → Nat → Nat
  top : Nat
  root : N
  csum_size : Nat
  sectorsize : Nat
  fits : ∀ n i, size n i / csum_size * sectorsize < 2 ^ 32

/- An item of the tree: its key and its size. -/
abbrev CsumItem : Type := Key × Nat

def IsCsum
    (key : Key) : Prop :=
  key.objectid = EXTENT_CSUM_OBJECTID ∧
    key.type = EXTENT_CSUM_KEY

instance
    (key : Key) : Decidable (IsCsum key) :=
  inferInstanceAs (Decidable (_ ∧ _))

/- The key of the checksums from a byte on. -/
def csumKey
    (start : Nat) : Key :=
  ⟨EXTENT_CSUM_OBJECTID, EXTENT_CSUM_KEY, start⟩

theorem isCsum_csumKey
    (start : Nat) :
    IsCsum (csumKey start) :=
  ⟨rfl, rfl⟩

/- What is between csum items is one. -/
theorem IsCsum.between
    {a b c : Key}
    (hFirst : IsCsum a)
    (hLast : IsCsum c)
    (hLow : a ≤ b)
    (hHigh : b ≤ c) :
    IsCsum b := by
  rw [Key.le_iff] at hLow hHigh
  unfold IsCsum at *
  omega

/- A key that is not below the start's starts no earlier. -/
theorem offset_of_le
    {start : Nat}
    {key : Key}
    (hLow : csumKey start ≤ key)
    (hCsum : IsCsum key) :
    start ≤ key.offset := by
  rw [Key.le_iff] at hLow
  unfold IsCsum at hCsum
  unfold csumKey at hLow
  dsimp only at hLow
  omega

theorem offset_of_lt
    {start : Nat}
    {key : Key}
    (hLow : key < csumKey start)
    (hCsum : IsCsum key) :
    key.offset < start := by
  rw [Key.lt_iff] at hLow
  unfold IsCsum at hCsum
  unfold csumKey at hLow
  dsimp only at hLow
  omega

namespace CsumRoot

variable {N : Type}
variable (c : CsumRoot N)

def item
    (n : N)
    (i : Nat) : CsumItem :=
  (c.key n i, c.size n i)

theorem item_key
    (n : N)
    (i : Nat) :
    (c.item n i).1 = c.key n i :=
  rfl

/- The bytes that the checksums of an item stand for. -/
def bytes
    (x : CsumItem) : Nat :=
  x.2 / c.csum_size * c.sectorsize

def range
    (x : CsumItem) : Range :=
  (x.1.offset, x.1.offset + c.bytes x)

/- All items, and the ranges of those that are csums. -/
def items : List CsumItem :=
  allItems c.slots c.item c.top c.root

def rangesOf
    (items : List CsumItem) : List Range :=
  (items.filter fun x => IsCsum x.1).map c.range

def ranges : List Range :=
  c.rangesOf c.items

/- A csum item covers the byte. -/
def Covered
    (b : Nat) : Prop :=
  ∃ r ∈ c.ranges, r.Has b

instance
    (b : Nat) : Decidable (c.Covered b) :=
  inferInstanceAs (Decidable (∃ r ∈ c.ranges, r.Has b))

variable {c}

theorem mem_rangesOf
    {items : List CsumItem}
    {r : Range} :
    r ∈ c.rangesOf items ↔
      ∃ x ∈ items, IsCsum x.1 ∧ c.range x = r := by
  unfold rangesOf
  simp only [List.mem_map, List.mem_filter, decide_eq_true_eq,
    and_assoc]

theorem rangesOf_append
    (xs ys : List CsumItem) :
    c.rangesOf (xs ++ ys) = c.rangesOf xs ++ c.rangesOf ys := by
  unfold rangesOf
  rw [List.filter_append, List.map_append]

theorem rangesOf_cons
    (x : CsumItem)
    (xs : List CsumItem) :
    c.rangesOf (x :: xs) =
      if IsCsum x.1 then c.range x :: c.rangesOf xs
      else c.rangesOf xs := by
  unfold rangesOf
  by_cases hCsum : IsCsum x.1
  · rw [if_pos hCsum, List.filter_cons_of_pos (by simpa),
      List.map_cons]
  · rw [if_neg hCsum, List.filter_cons_of_neg (by simpa)]

end CsumRoot

----------
-- A Tree of One Item
----------

/- The checksums of two sectors from byte 4096 on. -/
def oneCsum : CsumRoot Unit where
  slots := leafSlots 1
  key := fun _ _ => csumKey 4096
  size := fun _ _ => 8
  top := 0
  root := ()
  csum_size := 4
  sectorsize := 4096
  fits := fun _ _ => by decide

theorem oneCsum_tree :
    ItemTree oneCsum.slots oneCsum.key oneCsum.top
      oneCsum.root :=
  leafSlots_tree fun i j hLess hIn => by omega

theorem oneCsum_ranges : oneCsum.ranges = [(4096, 12288)] := by
  decide

theorem oneCsum_search :
    searchKey (leafSlots 1) oneCsum.key 0 () (csumKey 0) emptyPath =
      (1, emptyPath.put 0 () 0) := by
  have hComp : compKeys (csumKey 4096) (csumKey 0) = 1 := by
    decide
  have hFound : genericBinSearch
      (fun _ => compKeys (csumKey 4096) (csumKey 0)) 0 1 =
        (1, 0) := by
    rw [hComp, genericBinSearch, if_pos (by decide)]
    dsimp only
    rw [if_neg (by decide), if_pos (by decide),
      genericBinSearch, if_neg (by decide)]
  unfold searchKey searchSlot
  change ((genericBinSearch
      (fun _ => compKeys (csumKey 4096) (csumKey 0)) 0 1).1,
    emptyPath.put 0 () (genericBinSearch
      (fun _ => compKeys (csumKey 4096) (csumKey 0)) 0 1).2) =
        _
  rw [hFound]

end CsumCheck

end BtrfsProgs
