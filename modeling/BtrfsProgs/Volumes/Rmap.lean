import BtrfsProgs.Volumes.Mirrors

/-
  From physical addresses back to logical ones, by
  `btrfs_rmap_block` of `volumes.c`, and the places of the
  superblock copies from `disk-io.h`.

  Main declarations:
    * `rmapBlock`
    * `sbOffset`
-/

----------
-- Reverse Mapping
----------

namespace BtrfsProgs

namespace Volumes

open RangeTree

/- The bytes of a device extent that `btrfs_rmap_block` sees. -/
def rmapLength
    (map : MapLookup) : Nat :=
  match map.type with
  | .raid10 => map.size / (map.numStripes / map.subStripes)
  | .raid0 => map.size / map.numStripes
  | .raid5 => map.size / nrDataStripes map
  | .raid6 => map.size / nrDataStripes map
  | _ => map.size

/-
  The stripe length that `btrfs_rmap_block` returns, as the
  `u64` that its `int` becomes.
-/
def rmapLen
    (map : MapLookup) : Nat :=
  if map.type.isRaid56 then
    intMul map.stripeLen (nrDataStripes map)
  else
    map.stripeLen

/- The logical stripe that a stripe of the chunk stands for. -/
def rmapStripe
    (map : MapLookup)
    (physical i : Nat)
    (stripe : BioStripe) : Nat :=
  let stripeNr :=
    (physical - stripe.physical) / map.stripeLen
  let stripeNr :=
    match map.type with
    | .raid10 =>
        (stripeNr * map.numStripes + i) / map.subStripes
    | .raid0 => stripeNr * map.numStripes + i
    | _ => stripeNr
  (map.start + stripeNr * rmapLen map) % 2 ^ 64

/-
  `btrfs_rmap_block` once the chunk is found; a device id of
  0 stands for any device.
-/
def rmapBlockIn
    (map : MapLookup)
    (physical devid : Nat) : List Nat :=
  (map.stripes.zipIdx).foldl
    (fun buf (stripe, i) =>
      if devid ≠ 0 ∧ stripe.dev ≠ devid then
        buf
      else if physical < stripe.physical ∨
          stripe.physical + rmapLength map ≤ physical then
        buf
      else
        let bytenr := rmapStripe map physical i stripe
        if bytenr ∈ buf then buf else buf ++ [bytenr])
    []

/-
  `btrfs_rmap_block`: the logical addresses and the stripe
  length; `none` is its `BUG_ON` for an address past all
  chunks.
-/
def rmapBlock
    (mapTree : List MapLookup)
    (chunkStart physical devid : Nat) :
    Option (List Nat × Nat) :=
  match search mapTree chunkStart with
  | none => none
  | some c =>
      some (rmapBlockIn c.node physical devid, rmapLen c.node)

----------
-- Superblock Copies
----------

/- `BTRFS_SUPER_INFO_OFFSET`. -/
def SUPER_INFO_OFFSET : Nat := 65536

/- `BTRFS_SUPER_MIRROR_MAX`. -/
def SUPER_MIRROR_MAX : Nat := 3

/- `btrfs_sb_offset`. -/
def sbOffset
    (mirror : Nat) : Nat :=
  if mirror = 0 then
    SUPER_INFO_OFFSET
  else
    (16 * 1024) <<< (12 * mirror)

end Volumes

end BtrfsProgs
