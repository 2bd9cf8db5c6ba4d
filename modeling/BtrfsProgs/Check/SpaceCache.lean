import BtrfsProgs.Basic
import BtrfsProgs.Volumes.Rmap

/-
  Checking a free-space cache against the extent tree, from
  `cmds-check.c`.

  The entries of a cache are extents: loading it turns bitmaps
  into extents and merges neighbours.  A return value of 0 is
  `none`.

  Main declarations:
    * `FreeSpace` and `treeSearchOffset`
    * `checkCacheRange`
    * `verifySpaceCache`
-/

----------
-- Free-Space Entries
----------

namespace BtrfsProgs

namespace Check

open Volumes

/- `struct btrfs_free_space` without a bitmap. -/
structure FreeSpace where
  offset : Nat
  bytes : Nat
deriving Repr, DecidableEq

/- The entries of a `btrfs_free_space_ctl`, by offset. -/
abbrev FreeSpaceCtl : Type := List FreeSpace

/-
  `tree_search_offset`, neither fuzzy nor for bitmaps: the
  last entry that starts at or before the offset, if it
  starts there or reaches past it.
-/
def treeSearchOffset
    (ctl : FreeSpaceCtl)
    (offset : Nat) : Option FreeSpace :=
  match (ctl.filter fun e => e.offset ≤ offset).getLast? with
  | none => none
  | some e =>
      if e.offset = offset ∨ offset < e.offset + e.bytes then
        some e
      else
        none

/- `unlink_free_space`. -/
def unlinkFreeSpace
    (ctl : FreeSpaceCtl)
    (e : FreeSpace) : FreeSpaceCtl :=
  ctl.erase e

----------
-- One Gap
----------

/- The end of `check_cache_range`: look for the very entry. -/
def checkEntry
    (offset bytes : Nat)
    (ctl : FreeSpaceCtl) : Option Errno × FreeSpaceCtl :=
  match treeSearchOffset ctl offset with
  | none => (some .einval, ctl)
  | some entry =>
      if entry.offset ≠ offset then
        (some .einval, ctl)
      else if entry.bytes ≠ bytes then
        (some .einval, ctl)
      else
        (none, unlinkFreeSpace ctl entry)

/-
  The loops of `check_cache_range` over the superblock
  stripes, `left` being the call for the left side of one.
-/
def cutStripes
    (left :
      Nat → Nat → FreeSpaceCtl →
        Option Errno × FreeSpaceCtl) :
    List (Nat × Nat) → Nat → Nat → FreeSpaceCtl →
      Option Errno × FreeSpaceCtl
  | [], offset, bytes, ctl => checkEntry offset bytes ctl
  | (logical, stripeLen) :: stripes, offset, bytes, ctl =>
      if logical + stripeLen ≤ offset then
        cutStripes left stripes offset bytes ctl
      else if offset + bytes ≤ logical then
        cutStripes left stripes offset bytes ctl
      else if logical = offset then
        if bytes ≤ stripeLen then
          (none, ctl)
        else
          cutStripes left stripes (offset + stripeLen)
            (bytes - stripeLen) ctl
      else if logical < offset then
        if offset + bytes ≤ logical + stripeLen then
          (none, ctl)
        else
          cutStripes left stripes (logical + stripeLen)
            (offset + bytes - (logical + stripeLen)) ctl
      else if bytes + offset ≤ logical + stripeLen then
        cutStripes left stripes offset (logical - offset) ctl
      else
        match left offset (logical - offset) ctl with
        | (some e, ctl) => (some e, ctl)
        | (none, ctl) =>
            cutStripes left stripes (logical + stripeLen)
              (offset + bytes - (logical + stripeLen)) ctl

/-
  `check_cache_range` over a list of superblock stripes, with
  a bound on the depth of the calls for left sides.
-/
def checkCacheRangeFuel
    (stripes : List (Nat × Nat)) :
    Nat → Nat → Nat → FreeSpaceCtl →
      Option Errno × FreeSpaceCtl
  | 0, _, _, ctl => (some .einval, ctl)
  | fuel + 1, offset, bytes, ctl =>
      cutStripes (checkCacheRangeFuel stripes fuel) stripes
        offset bytes ctl

/-
  `check_cache_range`; a left side is shorter than the range,
  so the length of the range bounds the depth.
-/
def checkCacheRange
    (stripes : List (Nat × Nat))
    (offset bytes : Nat)
    (ctl : FreeSpaceCtl) : Option Errno × FreeSpaceCtl :=
  checkCacheRangeFuel stripes (bytes + 1) offset bytes ctl

/-
  The stripes in the order of the loops: by superblock
  mirror, and for each from the last address down.  A block
  group has a chunk, so the reverse mapping finds one.
-/
def superStripes
    (mapTree : List MapLookup)
    (groupStart : Nat) : List (Nat × Nat) :=
  (List.range SUPER_MIRROR_MAX).flatMap fun i =>
    match rmapBlock mapTree groupStart (sbOffset i) 0 with
    | none => []
    | some (logical, stripeLen) =>
        logical.reverse.map fun l => (l, stripeLen)

----------
-- A Block Group
----------

/- `BTRFS_EXTENT_ITEM_KEY`. -/
def EXTENT_ITEM_KEY : Nat := 168

/- `BTRFS_METADATA_ITEM_KEY`. -/
def METADATA_ITEM_KEY : Nat := 169

/- A key of the extent tree. -/
structure ExtentKey where
  objectid : Nat
  type : Nat
  offset : Nat
deriving Repr, DecidableEq

/- The key of an extent, with or without its length. -/
def ExtentKey.IsExtent
    (key : ExtentKey) : Prop :=
  key.type = EXTENT_ITEM_KEY ∨ key.type = METADATA_ITEM_KEY

instance
    (key : ExtentKey) :
    Decidable key.IsExtent := by
  unfold ExtentKey.IsExtent
  infer_instance

/- The end of an extent. -/
def ExtentKey.extentEnd
    (leafsize : Nat)
    (key : ExtentKey) : Nat :=
  if key.type = EXTENT_ITEM_KEY then
    key.objectid + key.offset
  else
    key.objectid + leafsize

/-
  The loop of `verify_space_cache`: the result, how far the
  extents reach, and the entries left.
-/
def verifyLoop
    (check :
      Nat → Nat → FreeSpaceCtl → Option Errno × FreeSpaceCtl)
    (leafsize groupEnd : Nat) :
    List ExtentKey → Nat → FreeSpaceCtl →
      Option Errno × Nat × FreeSpaceCtl
  | [], last, ctl => (none, last, ctl)
  | key :: keys, last, ctl =>
      if groupEnd ≤ key.objectid then
        (none, last, ctl)
      else if ¬ key.IsExtent then
        verifyLoop check leafsize groupEnd keys last ctl
      else if last = key.objectid then
        verifyLoop check leafsize groupEnd keys
          (key.extentEnd leafsize) ctl
      else
        match check last (u64Sub key.objectid last) ctl with
        | (some e, ctl) => (some e, last, ctl)
        | (none, ctl) =>
            verifyLoop check leafsize groupEnd keys
              (key.extentEnd leafsize) ctl

/- The key comes before the first one the search asks for. -/
def ExtentKey.Before
    (last : Nat)
    (key : ExtentKey) : Prop :=
  key.objectid < last ∨
    (key.objectid = last ∧ key.type < EXTENT_ITEM_KEY)

instance
    (last : Nat)
    (key : ExtentKey) :
    Decidable (key.Before last) := by
  unfold ExtentKey.Before
  infer_instance

/-
  `verify_space_cache`.  The result of the last gap replaces
  that of the loop.
-/
def verifySpaceCache
    (mapTree : List MapLookup)
    (leafsize : Nat)
    (keys : List ExtentKey)
    (groupStart groupSize : Nat)
    (ctl : FreeSpaceCtl) : Option Errno :=
  let stripes := superStripes mapTree groupStart
  let check := checkCacheRange stripes
  let last := max groupStart SUPER_INFO_OFFSET
  let keys := keys.dropWhile fun key => key.Before last
  match verifyLoop check leafsize (groupSize + groupStart) keys
      last ctl with
  | (ret, last, ctl) =>
      let (ret, ctl) :=
        if last < groupStart + groupSize then
          check last (groupStart + groupSize - last) ctl
        else
          (ret, ctl)
      match ret with
      | some e => some e
      | none => if ctl = [] then none else some .einval

end Check

end BtrfsProgs
