import BtrfsProgs.Key
import BtrfsProgs.Lib.Record

/-
  Chunk items and disk keys as bytes, from `ctree.h`.

  Main declarations:
    * `Stripe` and `ChunkItem`
    * `decodeKey` and `decodeKey_encodeKey`
    * `decodeChunk` and `decodeChunk_encode`
-/

----------
-- Records
----------

namespace BtrfsProgs

namespace Volumes

open Record

/- `BTRFS_CHUNK_ITEM_KEY`. -/
def CHUNK_ITEM_KEY : Nat := 228

/- `sizeof(struct btrfs_disk_key)`. -/
def DISK_KEY_SIZE : Nat := 17

/- `sizeof(struct btrfs_stripe)`. -/
def STRIPE_SIZE : Nat := 32

/- `sizeof(struct btrfs_chunk)`, with its first stripe. -/
def CHUNK_SIZE : Nat := 80

/- `BTRFS_UUID_SIZE`. -/
def UUID_SIZE : Nat := 16

/- `struct btrfs_stripe`. -/
structure Stripe where
  devid : Nat
  offset : Nat
  devUuid : List UInt8
deriving Repr, DecidableEq

/-
  `struct btrfs_chunk` with its stripes, of which
  `num_stripes` is the number.
-/
structure ChunkItem where
  length : Nat
  owner : Nat
  stripeLen : Nat
  type : Nat
  ioAlign : Nat
  ioWidth : Nat
  sectorSize : Nat
  subStripes : Nat
  stripes : List Stripe
deriving Repr, DecidableEq

/- The fields of a stripe before its uuid. -/
def Stripe.fields
    (s : Stripe) : List (Nat × Nat) :=
  [(8, s.devid), (8, s.offset)]

/- The fields of a chunk before its stripes. -/
def ChunkItem.fields
    (c : ChunkItem) : List (Nat × Nat) :=
  [(8, c.length), (8, c.owner), (8, c.stripeLen),
    (8, c.type), (4, c.ioAlign), (4, c.ioWidth),
    (4, c.sectorSize), (2, c.stripes.length),
    (2, c.subStripes)]

/- The fields of a key. -/
def keyFields
    (k : Key) : List (Nat × Nat) :=
  [(8, k.objectid), (1, k.type), (8, k.offset)]

/- The values that a stripe can have. -/
structure Stripe.Valid
    (s : Stripe) : Prop where
  fields : Fits s.fields
  uuid : s.devUuid.length = UUID_SIZE

/- The values that a chunk can have. -/
structure ChunkItem.Valid
    (c : ChunkItem) : Prop where
  fields : Fits c.fields
  nonempty : c.stripes ≠ []
  stripes : ∀ s ∈ c.stripes, s.Valid

----------
-- Bytes
----------

def Stripe.encode
    (s : Stripe) : List UInt8 :=
  pack s.fields ++ s.devUuid

def ChunkItem.encode
    (c : ChunkItem) : List UInt8 :=
  pack c.fields ++ c.stripes.flatMap Stripe.encode

/- `btrfs_cpu_key_to_disk`. -/
def encodeKey
    (k : Key) : List UInt8 :=
  pack (keyFields k)

/- `btrfs_disk_key_to_cpu` of the key at a pointer. -/
def decodeKey
    (ptr : List UInt8) : Key where
  objectid := field ptr 0 8
  type := field ptr 8 1
  offset := field ptr 9 8

/- The stripe at a pointer. -/
def decodeStripe
    (ptr : List UInt8) : Stripe where
  devid := field ptr 0 8
  offset := field ptr 8 8
  devUuid := (ptr.drop 16).take UUID_SIZE

/- `btrfs_chunk_num_stripes`. -/
def chunkNumStripes
    (ptr : List UInt8) : Nat :=
  field ptr 44 2

/- The chunk at a pointer, with all of its stripes. -/
def decodeChunk
    (ptr : List UInt8) : ChunkItem where
  length := field ptr 0 8
  owner := field ptr 8 8
  stripeLen := field ptr 16 8
  type := field ptr 24 8
  ioAlign := field ptr 32 4
  ioWidth := field ptr 36 4
  sectorSize := field ptr 40 4
  subStripes := field ptr 46 2
  stripes :=
    (List.range (chunkNumStripes ptr)).map fun i =>
      decodeStripe (ptr.drop (48 + STRIPE_SIZE * i))

/-
  `btrfs_chunk_item_size`; `none` is its `BUG_ON` for a chunk
  without stripes.
-/
def chunkItemSize
    (numStripes : Nat) : Option Nat :=
  if numStripes = 0 then none
  else some (CHUNK_SIZE + STRIPE_SIZE * (numStripes - 1))

----------
-- Round Trips
----------

@[simp]
theorem length_encodeKey
    (k : Key) :
    (encodeKey k).length = DISK_KEY_SIZE := by
  rw [encodeKey, length_pack]
  rfl

theorem Stripe.Valid.length_encode
    {s : Stripe}
    (hValid : s.Valid) :
    s.encode.length = STRIPE_SIZE := by
  rw [Stripe.encode, List.length_append, length_pack,
    hValid.uuid]
  rfl

theorem length_stripes
    {stripes : List Stripe}
    (hStripes : ∀ s ∈ stripes, s.Valid) :
    (stripes.flatMap Stripe.encode).length =
      STRIPE_SIZE * stripes.length := by
  induction stripes with
  | nil => rfl
  | cons s stripes ih =>
      have hRest := ih fun t ht =>
        hStripes t (List.mem_cons_of_mem _ ht)
      rw [List.flatMap_cons, List.length_append, hRest,
        (hStripes s List.mem_cons_self).length_encode,
        List.length_cons, Nat.mul_succ, Nat.add_comm]

theorem ChunkItem.Valid.length_encode
    {c : ChunkItem}
    (hValid : c.Valid) :
    chunkItemSize c.stripes.length = some c.encode.length := by
  have hPos := List.length_pos_of_ne_nil hValid.nonempty
  have hFixed : space c.fields = 48 := rfl
  rw [ChunkItem.encode, List.length_append, length_pack,
    hFixed, length_stripes hValid.stripes, chunkItemSize,
    if_neg (by omega)]
  unfold CHUNK_SIZE STRIPE_SIZE
  congr 1
  omega

theorem decodeKey_encodeKey
    {k : Key}
    (tail : List UInt8)
    (hFits : Fits (keyFields k)) :
    decodeKey (encodeKey k ++ tail) = k := by
  unfold encodeKey decodeKey
  rw [field_pack 0 0 tail hFits rfl rfl,
    field_pack 1 8 tail hFits rfl rfl,
    field_pack 2 9 tail hFits rfl rfl]

theorem decodeStripe_encode
    {s : Stripe}
    (tail : List UInt8)
    (hValid : s.Valid) :
    decodeStripe (s.encode ++ tail) = s := by
  have hParts : s.encode ++ tail =
      pack s.fields ++ (s.devUuid ++ tail) :=
    List.append_assoc _ _ _
  have hId : field (s.encode ++ tail) 0 8 = s.devid := by
    rw [hParts]
    exact field_pack 0 0 _ hValid.fields rfl rfl
  have hOffset : field (s.encode ++ tail) 8 8 = s.offset := by
    rw [hParts]
    exact field_pack 1 8 _ hValid.fields rfl rfl
  have hUuid : ((s.encode ++ tail).drop 16).take UUID_SIZE =
      s.devUuid := by
    rw [hParts, List.drop_left' (show _ = 16 from
        length_pack _), List.take_left' hValid.uuid]
  unfold decodeStripe
  rw [hId, hOffset, hUuid]

/- The stripes of a list of stripes, one after another. -/
theorem decode_stripes
    {stripes : List Stripe}
    (tail : List UInt8)
    (hStripes : ∀ s ∈ stripes, s.Valid) :
    (List.range stripes.length).map (fun i =>
        decodeStripe
          ((stripes.flatMap Stripe.encode ++ tail).drop
            (STRIPE_SIZE * i))) =
      stripes := by
  induction stripes with
  | nil => rfl
  | cons s stripes ih =>
      have hFirst := hStripes s List.mem_cons_self
      have hRest := ih fun t ht =>
        hStripes t (List.mem_cons_of_mem _ ht)
      have hHead : decodeStripe
          (((s :: stripes).flatMap Stripe.encode ++ tail).drop
            (STRIPE_SIZE * 0)) = s := by
        rw [Nat.mul_zero, List.drop_zero, List.flatMap_cons,
          List.append_assoc]
        exact decodeStripe_encode _ hFirst
      have hDrop : ∀ i,
          ((s :: stripes).flatMap Stripe.encode ++ tail).drop
              (STRIPE_SIZE * (i + 1)) =
            (stripes.flatMap Stripe.encode ++ tail).drop
              (STRIPE_SIZE * i) := by
        intro i
        rw [List.flatMap_cons, List.append_assoc,
          Nat.mul_succ, Nat.add_comm, ← List.drop_drop,
          List.drop_left' hFirst.length_encode]
      rw [List.length_cons, List.range_succ_eq_map,
        List.map_cons, List.map_map, hHead]
      simp only [Function.comp_def, Nat.succ_eq_add_one,
        hDrop]
      rw [hRest]

theorem decodeChunk_encode
    {c : ChunkItem}
    (tail : List UInt8)
    (hValid : c.Valid) :
    decodeChunk (c.encode ++ tail) = c := by
  have hParts : c.encode ++ tail =
      pack c.fields ++
        (c.stripes.flatMap Stripe.encode ++ tail) :=
    List.append_assoc _ _ _
  have hNum : chunkNumStripes (c.encode ++ tail) =
      c.stripes.length := by
    rw [hParts]
    exact field_pack 7 44 _ hValid.fields rfl rfl
  have hDrop : ∀ i, (c.encode ++ tail).drop
      (48 + STRIPE_SIZE * i) =
        (c.stripes.flatMap Stripe.encode ++ tail).drop
          (STRIPE_SIZE * i) := by
    intro i
    rw [hParts, ← List.drop_drop,
      List.drop_left' (show _ = 48 from length_pack _)]
  unfold decodeChunk
  simp only [hNum, hDrop,
    decode_stripes tail hValid.stripes]
  rw [hParts, field_pack 0 0 _ hValid.fields rfl rfl,
    field_pack 1 8 _ hValid.fields rfl rfl,
    field_pack 2 16 _ hValid.fields rfl rfl,
    field_pack 3 24 _ hValid.fields rfl rfl,
    field_pack 4 32 _ hValid.fields rfl rfl,
    field_pack 5 36 _ hValid.fields rfl rfl,
    field_pack 6 40 _ hValid.fields rfl rfl,
    field_pack 8 46 _ hValid.fields rfl rfl]

end Volumes

end BtrfsProgs
