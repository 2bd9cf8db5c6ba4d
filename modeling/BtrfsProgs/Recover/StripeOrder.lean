import BtrfsProgs.Lib.SearchTree
import BtrfsProgs.Volumes.Mirrors

/-
  The order of the stripes of a metadata chunk is found from
  its tree blocks, from `chunk-recover.c`.

  Main declarations:
    * `calcStripeIndex`
    * `rebuildOrdered`
    * `visited`
-/

----------
-- Records
----------

namespace BtrfsProgs

namespace Recover

open Volumes

/- `struct device_extent_record`. -/
structure DevExtent where
  objectid : Nat
  offset : Nat
  length : Nat
deriving Repr, DecidableEq

/- `struct extent_record`: a tree block and its places. -/
structure ExtentRecord where
  start : Nat
  size : Nat
  mirrors : List BioStripe
deriving Repr, DecidableEq

/-
  What of `struct chunk_record` is known; its stripes are
  zero at first.
-/
structure ChunkRecord where
  offset : Nat
  length : Nat
  stripeLen : Nat
  type : Profile
  numStripes : Nat
  subStripes : Nat
  dextents : List DevExtent
deriving Repr, DecidableEq

/- What the rebuilding comes to. -/
inductive Rebuilt where
  -- it returns 0 with these stripes
  | done (stripes : List BioStripe)
  -- it returns an error
  | failed (err : Int)
  -- it writes or reads outside of the array or the list
  | outside
  -- it stops at a `BUG_ON`
  | bug
  -- it goes on
  | running
deriving Repr, DecidableEq

/- `-EINVAL`. -/
def EINVAL : Int := -22

/- `-ENOENT`. -/
def ENOENT : Int := -2

/- `cache_tree_comp_range`. -/
def compRange
    (start size : Nat)
    (er : ExtentRecord) : Ordering :=
  if er.start + er.size ≤ start then .gt
  else if start + size ≤ er.start then .lt
  else .eq

/- `lookup_cache_extent`. -/
def lookup
    (ebCache : SearchTree ExtentRecord)
    (start size : Nat) : Option ExtentRecord :=
  ebCache.search (compRange start size)

/- `is_extent_record_in_device_extent`. -/
def inDeviceExtent
    (er : ExtentRecord)
    (dext : DevExtent) : Bool :=
  er.mirrors.any fun m =>
    m.dev = dext.objectid ∧ dext.offset ≤ m.physical ∧
      m.physical < dext.offset + dext.length

def DevExtent.stripe
    (dext : DevExtent) : BioStripe :=
  ⟨dext.objectid, dext.offset⟩

----------
-- Indexes
----------

/- A `u64` that is kept in an `int`. -/
def toInt
    (n : Nat) : Int :=
  Int.bmod n (2 ^ 32)

/- `btrfs_calc_stripe_index`; `none` is its `BUG_ON`. -/
def calcStripeIndex
    (chunk : ChunkRecord)
    (logical : Nat) : Option Int :=
  let offset := logical - chunk.offset
  let stripeNr := toInt (offset / chunk.stripeLen)
  let rotated (nrDataStripes : Int) : Int :=
    (stripeNr.tmod nrDataStripes +
      stripeNr.tdiv nrDataStripes).tmod chunk.numStripes
  match chunk.type with
  | .raid0 => some (stripeNr.tmod chunk.numStripes)
  | .raid10 =>
      some (stripeNr.tmod
        ((chunk.numStripes / chunk.subStripes : Nat) : Int) *
          chunk.subStripes)
  | .raid5 => some (rotated (chunk.numStripes - 1))
  | .raid6 => some (rotated (chunk.numStripes - 2))
  | _ => none

/- `btrfs_next_stripe_logical_offset`. -/
def nextStripeLogicalOffset
    (chunk : ChunkRecord)
    (logical : Nat) : Nat :=
  let offset := logical - chunk.offset
  offset / chunk.stripeLen * chunk.stripeLen +
    chunk.stripeLen + chunk.offset

----------
-- The Stripes
----------

/-
  The loop that gives the device extents of a block to the
  stripes from an index on; `none` is a write outside.
-/
def takeExtents
    (er : ExtentRecord) :
    List DevExtent → Nat → List BioStripe →
      Option (List DevExtent × List BioStripe)
  | [], _, stripes => some ([], stripes)
  | dext :: dexts, index, stripes =>
      if inDeviceExtent er dext then
        if index < stripes.length then
          takeExtents er dexts (index + 1)
            (stripes.set index dext.stripe)
        else none
      else
        (takeExtents er dexts index stripes).map
          fun (left, stripes) => (dext :: left, stripes)

/- What is done for one block. -/
def examine
    (chunk : ChunkRecord)
    (er : ExtentRecord)
    (dexts : List DevExtent)
    (stripes : List BioStripe) :
    Except Rebuilt (List DevExtent × List BioStripe) :=
  match calcStripeIndex chunk er.start with
  | none => .error .bug
  | some (.negSucc _) => .error .outside
  | some (.ofNat index) =>
      match stripes[index]? with
      | none => .error .outside
      | some s =>
          if s.dev ≠ 0 then .ok (dexts, stripes)
          else
            match takeExtents er dexts index stripes with
            | none => .error .outside
            | some res => .ok res

/-
  The stripes that are left get the device extents that are
  left, with the ids of the devices that are there.
-/
def fillRest
    (devices : List Nat) :
    Nat → Nat → List DevExtent → List BioStripe → Rebuilt
  | 0, _, _, stripes => .done stripes
  | n + 1, index, dexts, stripes =>
      if (stripes.getD index ⟨0, 0⟩).dev ≠ 0 then
        fillRest devices n (index + 1) dexts stripes
      else
        match dexts with
        | [] => .outside
        | dext :: dexts =>
            match devices.count dext.objectid with
            | 0 => .failed EINVAL
            | 1 =>
                fillRest devices n (index + 1) dexts
                  (stripes.set index dext.stripe)
            | _ => .bug

/- What follows the last block. -/
def finish
    (devices : List Nat)
    (chunk : ChunkRecord)
    (dexts : List DevExtent)
    (stripes : List BioStripe) : Rebuilt :=
  if dexts = [] then .done stripes
  else if chunk.type.isRaid56 then .failed EINVAL
  else fillRest devices chunk.numStripes 0 dexts stripes

/- The block that is looked at after another one. -/
def nextRecord
    (ebCache : SearchTree ExtentRecord)
    (chunk : ChunkRecord)
    (er : ExtentRecord) : Option ExtentRecord :=
  let start := nextStripeLogicalOffset chunk er.start
  if chunk.offset + chunk.length ≤ start then none
  else
    lookup ebCache start (chunk.offset + chunk.length - start)

/- The loop over the blocks. -/
def rebuildFrom
    (ebCache : SearchTree ExtentRecord)
    (devices : List Nat)
    (chunk : ChunkRecord) :
    Nat → ExtentRecord → List DevExtent → List BioStripe →
      Rebuilt
  | 0, _, _, _ => .running
  | fuel + 1, er, dexts, stripes =>
      match examine chunk er dexts stripes with
      | .error res => res
      | .ok (dexts, stripes) =>
          match nextRecord ebCache chunk er with
          | none => finish devices chunk dexts stripes
          | some er =>
              rebuildFrom ebCache devices chunk fuel er dexts
                stripes

/- `btrfs_rebuild_unordered_chunk_stripes`. -/
def rebuildUnordered
    (devices : List Nat) :
    Nat → List DevExtent → List BioStripe → Rebuilt
  | 0, _, stripes => .done stripes
  | n + 1, dexts, stripes =>
      match dexts with
      | [] => .outside
      | dext :: dexts =>
          match devices.count dext.objectid with
          | 0 => .failed ENOENT
          | 1 =>
              rebuildUnordered devices n dexts
                (stripes ++ [dext.stripe])
          | _ => .bug

/-
  `btrfs_rebuild_ordered_meta_chunk_stripes`.  Every turn of
  the loop goes to a later stripe.
-/
def rebuildOrdered
    (ebCache : SearchTree ExtentRecord)
    (devices : List Nat)
    (chunk : ChunkRecord) : Rebuilt :=
  match lookup ebCache chunk.offset chunk.length with
  | none =>
      rebuildUnordered devices chunk.numStripes
        chunk.dextents []
  | some er =>
      rebuildFrom ebCache devices chunk (chunk.length + 1) er
        chunk.dextents
        (List.replicate chunk.numStripes ⟨0, 0⟩)

/- The blocks that the loop looks at. -/
def visitedFrom
    (ebCache : SearchTree ExtentRecord)
    (chunk : ChunkRecord) :
    Nat → ExtentRecord → List ExtentRecord
  | 0, er => [er]
  | fuel + 1, er =>
      match nextRecord ebCache chunk er with
      | none => [er]
      | some next => er :: visitedFrom ebCache chunk fuel next

/- The blocks that the lookups meet. -/
def visited
    (ebCache : SearchTree ExtentRecord)
    (chunk : ChunkRecord) : List ExtentRecord :=
  match lookup ebCache chunk.offset chunk.length with
  | none => []
  | some er => visitedFrom ebCache chunk chunk.length er

end Recover

end BtrfsProgs
