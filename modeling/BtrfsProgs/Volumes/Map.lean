import BtrfsProgs.Basic
import BtrfsProgs.Lib.BubbleSort
import BtrfsProgs.Lib.RangeTree

/-
  The logical-to-physical mapping of `volumes.c`.

  `mapBlock` is `__btrfs_map_block`.  The retry with a larger
  `multi` array only concerns memory: the second pass finds
  the same chunk and computes the same values, so the model
  takes the array as large enough from the start.

  Main declarations:
    * `MapLookup` and `Chunk`
    * `numCopies`
    * `mapBlock`
-/

----------
-- Chunks
----------

namespace BtrfsProgs

namespace Volumes

open RangeTree

/- The `BTRFS_BLOCK_GROUP_*` profile of a chunk. -/
inductive Profile where
  | single
  | dup
  | raid0
  | raid1
  | raid10
  | raid5
  | raid6
deriving Repr, DecidableEq

/- `struct btrfs_bio_stripe`, the device by its id. -/
structure BioStripe where
  dev : Nat
  physical : Nat
deriving Repr, DecidableEq

/- `struct map_lookup`, with the range of its cache node. -/
structure MapLookup where
  start : Nat
  size : Nat
  type : Profile
  stripeLen : Nat
  numStripes : Nat
  subStripes : Nat
  stripes : List BioStripe
deriving Repr, DecidableEq

instance : Ranged MapLookup where
  lo map := map.start
  hi map := map.start + map.size

/- `BTRFS_RAID5_P_STRIPE`, the `u64` below the last. -/
def RAID5_P_STRIPE : Nat := 2 ^ 64 - 2

/- `BTRFS_RAID6_Q_STRIPE`, the last `u64`. -/
def RAID6_Q_STRIPE : Nat := 2 ^ 64 - 1

/- The profiles `BTRFS_BLOCK_GROUP_RAID5 | …_RAID6`. -/
def Profile.isRaid56 : Profile → Bool
  | .raid5 => true
  | .raid6 => true
  | _ => false

/- `nr_parity_stripes`. -/
def nrParityStripes
    (map : MapLookup) : Nat :=
  match map.type with
  | .raid5 => 1
  | .raid6 => 2
  | _ => 0

/- `nr_data_stripes`. -/
def nrDataStripes
    (map : MapLookup) : Nat :=
  map.numStripes - nrParityStripes map

/- `chunk_bytes_by_type`. -/
def chunkBytesByType
    (type : Profile)
    (calcSize numStripes subStripes : Nat) : Nat :=
  match type with
  | .raid1 => calcSize
  | .dup => calcSize
  | .raid10 => calcSize * (numStripes / subStripes)
  | .raid5 => calcSize * (numStripes - 1)
  | .raid6 => calcSize * (numStripes - 2)
  | .single => calcSize * numStripes
  | .raid0 => calcSize * numStripes

/-
  The number of stripes each profile needs, and for RAID10
  that mirrors come in groups of `sub_stripes`.  A SINGLE
  chunk is one stripe, as `btrfs_alloc_chunk` builds it.
-/
def Profile.StripesOk
    (type : Profile)
    (numStripes subStripes : Nat) : Prop :=
  match type with
  | .single => numStripes = 1
  | .dup => 1 ≤ numStripes
  | .raid0 => 1 ≤ numStripes
  | .raid1 => 1 ≤ numStripes
  | .raid10 =>
      1 ≤ numStripes ∧ 1 ≤ subStripes ∧
        subStripes ∣ numStripes
  | .raid5 => 2 ≤ numStripes
  | .raid6 => 3 ≤ numStripes

instance
    (type : Profile)
    (numStripes subStripes : Nat) :
    Decidable (type.StripesOk numStripes subStripes) := by
  cases type <;> unfold Profile.StripesOk <;> infer_instance

/-
  A chunk as `btrfs_alloc_chunk` builds it: every stripe is a
  device extent of `calcSize` bytes, a multiple of the stripe
  length, and the extents do not overlap.
-/
structure Chunk extends MapLookup where
  calcSize : Nat
  stripeLen_pos : 0 < stripeLen
  stripeLen_dvd : stripeLen ∣ calcSize
  size_eq :
    size = chunkBytesByType type calcSize numStripes subStripes
  stripesOk : type.StripesOk numStripes subStripes
  stripes_length : stripes.length = numStripes
  start_bound : start + size ≤ RAID5_P_STRIPE
  physical_bound :
    ∀ s ∈ stripes, s.physical + calcSize ≤ 2 ^ 64
  disjoint :
    stripes.Pairwise fun s t =>
      s.dev = t.dev →
        s.physical + calcSize ≤ t.physical ∨
          t.physical + calcSize ≤ s.physical

----------
-- Copies
----------

/-
  `btrfs_num_copies`; `none` is one of its two `BUG_ON`s, for
  an address that no chunk holds.
-/
def numCopies
    (mapTree : List MapLookup)
    (logical : Nat) : Option Nat :=
  match search mapTree logical with
  | none => none
  | some c =>
      if logical < c.node.start ∨
          c.node.start + c.node.size < logical then
        none
      else
        some <|
          match c.node.type with
          | .dup => c.node.numStripes
          | .raid1 => c.node.numStripes
          | .raid10 => c.node.subStripes
          | .raid5 => 2
          | .raid6 => 3
          | .single => 1
          | .raid0 => 1

----------
-- Mapping a Block
----------

/- The `rw` argument. -/
inductive Rw where
  | READ
  | WRITE
deriving Repr, DecidableEq

/-
  Where a request goes: `multi->num_stripes` stripes of the
  chunk from `stripe_index` on, each `stripe_nr` stripe
  lengths and `stripe_offset` bytes into its device extent.
-/
structure StripePlan where
  numStripes : Nat
  stripeIndex : Nat
  stripeNr : Nat
  stripeOffset : Nat
  length : Nat
deriving Repr, DecidableEq

/- What `__btrfs_map_block` hands back through pointers. -/
structure MapResult where
  length : Nat
  type : Profile
  stripes : List BioStripe
  raidMap : Option (List Nat)
deriving Repr, DecidableEq

/- The branches of `__btrfs_map_block` without a raid map. -/
def stripePlan
    (map : MapLookup)
    (rw : Rw)
    (mirrorNum : Nat)
    (stripeNr stripeOffset length : Nat) : StripePlan :=
  match map.type with
  | .raid1 =>
      if rw = .WRITE then
        ⟨map.numStripes, 0, stripeNr, stripeOffset, length⟩
      else if mirrorNum ≠ 0 then
        ⟨1, mirrorNum - 1, stripeNr, stripeOffset, length⟩
      else
        ⟨1, stripeNr % map.numStripes, stripeNr,
          stripeOffset, length⟩
  | .raid10 =>
      let factor := map.numStripes / map.subStripes
      let stripeIndex :=
        stripeNr % factor * map.subStripes
      if rw = .WRITE then
        ⟨map.subStripes, stripeIndex, stripeNr / factor,
          stripeOffset, length⟩
      else if mirrorNum ≠ 0 then
        ⟨1, stripeIndex + (mirrorNum - 1),
          stripeNr / factor, stripeOffset, length⟩
      else
        ⟨1, stripeIndex, stripeNr / factor, stripeOffset,
          length⟩
  | .dup =>
      if rw = .WRITE then
        ⟨map.numStripes, 0, stripeNr, stripeOffset, length⟩
      else if mirrorNum ≠ 0 then
        ⟨1, mirrorNum - 1, stripeNr, stripeOffset, length⟩
      else
        ⟨1, 0, stripeNr, stripeOffset, length⟩
  | .raid5 | .raid6 =>
      let stripeIndex :=
        if 1 < mirrorNum then
          nrDataStripes map + mirrorNum - 2
        else
          stripeNr % nrDataStripes map
      let stripeNr := stripeNr / nrDataStripes map
      -- parity blocks are distributed across the stripes
      ⟨1, (stripeNr + stripeIndex) % map.numStripes,
        stripeNr, stripeOffset, length⟩
  | .single | .raid0 =>
      ⟨1, stripeNr % map.numStripes,
        stripeNr / map.numStripes, stripeOffset, length⟩

/-
  The `u64` that a product of two `int`s becomes, which wraps
  as two's complement.
-/
def intMul
    (a b : Nat) : Nat :=
  let product := a * b % 2 ^ 32
  if product < 2 ^ 31 then product
  else product + (2 ^ 64 - 2 ^ 32)

/- `nr_data_stripes(map) * map->stripe_len`. -/
def fullStripeLen
    (map : MapLookup) : Nat :=
  intMul (nrDataStripes map) map.stripeLen

/- `raid56_full_stripe_start`. -/
def fullStripeStart
    (map : MapLookup)
    (offset : Nat) : Nat :=
  offset / fullStripeLen map * fullStripeLen map

/- The number of the full stripe that is mapped. -/
def fullStripeNr
    (map : MapLookup)
    (offset : Nat) : Nat :=
  fullStripeStart map offset / map.stripeLen /
    nrDataStripes map

/-
  The raid map before sorting: the logical address of every
  data stripe at its rotated place, then P and Q.
-/
def fillRaidMap
    (map : MapLookup)
    (stripeNr : Nat) : List Nat :=
  let rot := stripeNr % map.numStripes
  let tmp := stripeNr * nrDataStripes map
  let data :=
    (List.range (nrDataStripes map)).foldl
      (fun raidMap i =>
        raidMap.set ((i + rot) % map.numStripes)
          (map.start + (tmp + i) * map.stripeLen))
      (List.replicate map.numStripes 0)
  let withP :=
    data.set ((nrDataStripes map + rot) % map.numStripes)
      RAID5_P_STRIPE
  if map.type = .raid6 then
    withP.set
      ((nrDataStripes map + rot + 1) % map.numStripes)
      RAID6_Q_STRIPE
  else
    withP

/-
  `sort_parity_stripes`: bubble-sort the stripes and the raid
  map together, so that parity comes last.
-/
def sortParityStripes
    (raidMap : List Nat)
    (stripes : List BioStripe) :
    Option (List Nat × List BioStripe) :=
  (BubbleSort.sort Prod.fst (raidMap.length + 1)
    (raidMap.zip stripes)).map List.unzip

/- The loop that fills `multi->stripes`. -/
def fillStripes
    (map : MapLookup)
    (plan : StripePlan) : Except Stop (List BioStripe) :=
  if map.numStripes ≤ plan.stripeIndex then
    .error .bug
  else
    let chosen :=
      (map.stripes.drop plan.stripeIndex).take
        plan.numStripes
    if chosen.length = plan.numStripes then
      .ok (chosen.map fun s =>
        ⟨s.dev, s.physical + plan.stripeOffset +
          plan.stripeNr * map.stripeLen⟩)
    else
      .error .bug

/-
  `__btrfs_map_block` once the chunk is found, for a caller
  that passes `multi_ret`.
-/
def mapBlockIn
    (map : MapLookup)
    (rw : Rw)
    (offset mirrorNum : Nat)
    (raidMapRet : Bool) : Except Stop MapResult :=
  let stripeNr := offset / map.stripeLen
  let stripeOffset := offset - stripeNr * map.stripeLen
  let length :=
    if map.type = .single then
      map.size - offset
    else
      min (map.size - offset) (map.stripeLen - stripeOffset)
  if map.type.isRaid56 ∧ (rw = .WRITE ∨ 1 < mirrorNum) ∧
      raidMapRet then
    -- a division by zero ends the program
    if fullStripeLen map = 0 then
      .error .bug
    else
      let stripeNr := fullStripeNr map offset
      match fillStripes map
          ⟨map.numStripes, 0, stripeNr, 0, map.stripeLen⟩ with
      | .error e => .error e
      | .ok stripes =>
          match sortParityStripes (fillRaidMap map stripeNr)
              stripes with
          | none => .error .bug
          | some (raidMap, sorted) =>
              .ok ⟨map.stripeLen, map.type, sorted,
                some raidMap⟩
  else
    let plan :=
      stripePlan map rw mirrorNum stripeNr stripeOffset length
    match fillStripes map plan with
    | .error e => .error e
    | .ok stripes =>
        .ok ⟨plan.length, map.type, stripes, none⟩

/- `__btrfs_map_block`. -/
def mapBlock
    (mapTree : List MapLookup)
    (rw : Rw)
    (logical mirrorNum : Nat)
    (raidMapRet : Bool) : Except Stop MapResult :=
  match search mapTree logical with
  | none => .error (.err .enoent)
  | some c =>
      if logical < c.node.start ∨
          c.node.start + c.node.size < logical then
        .error (.err .enoent)
      else
        mapBlockIn c.node rw (logical - c.node.start)
          mirrorNum raidMapRet

end Volumes

end BtrfsProgs
