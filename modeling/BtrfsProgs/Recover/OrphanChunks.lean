import BtrfsProgs.Basic
import BtrfsProgs.Check.ChunkRecords
import BtrfsProgs.Recover.StripeOrder

/-
  `btrfs_recover_chunks`, from `chunk-recover.c`: chunks for
  the block groups that have none, from the device extents.

  The lengths of the device extents are compared on a list
  that has been emptied before.

  Main declarations:
    * `calcNumStripes` and `verifyDeviceExtents`
    * `rebuildChunkStripes`
    * `recoverTurn` and `recoverChunks`
    * `Consistent` and `Sound`
    * `recoverChunks_consistent_iff`
-/

----------
-- Records
----------

namespace BtrfsProgs

namespace OrphanChunks

open Check.ChunkRecords
  (BlockGroupRecord DeviceExtentRecord Stripe calcStripeLength
    RAID0 RAID1 DUP RAID10 RAID5 RAID6)
open Recover (ExtentRecord lookup toInt ENOENT EINVAL)
open ExtentCaches (insertCacheExtent)

/- Where no sum wraps, ranges compare as in a cache tree. -/
theorem compRange_noWrap
    {er : ExtentRecord}
    {start size : Nat}
    (hEr : ExtentCaches.Bounded er.start er.size)
    (hRange : ExtentCaches.Bounded start size) :
    Recover.compRange start size er =
      ExtentCaches.compRange start size
        ⟨0, er.start, er.size⟩ := by
  unfold Recover.compRange ExtentCaches.compRange
  rw [ExtentCaches.rangeEnd_eq hEr,
    ExtentCaches.rangeEnd_eq hRange]

/- The bits `BTRFS_BLOCK_GROUP_…` of the kinds of chunks. -/
def DATA : Nat := 0

def METADATA : Nat := 2

def BTRFS_STRIPE_LEN : Nat := 65536

/- `struct chunk_record`, with room for some stripes. -/
structure ChunkRecord where
  bg_rec : BlockGroupRecord
  offset : Nat
  length : Nat
  type_flags : Nat
  stripe_len : Nat
  num_stripes : Nat
  sub_stripes : Nat
  stripes : List Stripe
  dextents : List DeviceExtentRecord
deriving DecidableEq

/-
  `struct recover_control`: the block groups and the device
  extents without a chunk, the ranges of the chunks, the tree
  blocks that were found, and the ids of the devices.
-/
structure RecoverControl where
  block_groups : List BlockGroupRecord
  no_chunk_orphans : List DeviceExtentRecord
  chunk : SearchTree ExtentCaches.CacheExtent
  color : SearchTree.Rebalance ExtentCaches.CacheExtent
  eb_cache : SearchTree ExtentRecord
  devices : List Nat
  apart : block_groups.Pairwise fun a b =>
    a.objectid ≠ b.objectid
  once : no_chunk_orphans.Nodup

/-
  Why the function does not come to its end: a division by
  zero, a `BUG_ON`, an access outside of a list or an array, or
  a loop that still runs.
-/
inductive Halt where
  | trap
  | bug
  | outside
  | running
deriving Repr, DecidableEq

----------
-- Numbers of Stripes
----------

/- The flags are of a profile whose stripes have an order. -/
def orderedRaid
    (type : Nat) : Bool :=
  type.testBit RAID0 || type.testBit RAID10 ||
    type.testBit RAID5 || type.testBit RAID6

/- `calc_num_stripes`; 0 is any number. -/
def calcNumStripes
    (type : Nat) : Nat :=
  if orderedRaid type then 0
  else if type.testBit RAID1 || type.testBit DUP then 2
  else 1

/- `calc_sub_nstripes`. -/
def calcSubNstripes
    (type : Nat) : Nat :=
  if type.testBit RAID10 then 2 else 1

/- `btrfs_verify_device_extents`. -/
def verifyDeviceExtents
    (bg : BlockGroupRecord)
    (devexts : List DeviceExtentRecord)
    (ndevexts : Nat) : Except Halt Int :=
  let expected := calcNumStripes bg.flags
  if expected ≠ 0 ∧ expected ≠ ndevexts then .ok 1
  else
    match calcStripeLength bg.flags bg.offset ndevexts with
    | none => .error .trap
    | some length =>
        if devexts.any fun devext => devext.length ≠ length then
          .ok 1
        else .ok 0

----------
-- Indexes
----------

/- A quotient and a remainder of two `int`. -/
def quotient
    (a b : Int) : Except Halt Int :=
  if b = 0 then .error .trap else .ok (a.tdiv b)

def modulo
    (a b : Int) : Except Halt Int :=
  if b = 0 then .error .trap else .ok (a.tmod b)

/- The index for a number of data stripes. -/
def rotatedIndex
    (num_stripes : Nat)
    (stripe_nr nr_data_stripes : Int) : Except Halt Int :=
  match modulo stripe_nr nr_data_stripes with
  | .error halt => .error halt
  | .ok index =>
      match quotient stripe_nr nr_data_stripes with
      | .error halt => .error halt
      | .ok stripe_nr => modulo (index + stripe_nr) num_stripes

/- `btrfs_calc_stripe_index`. -/
def calcStripeIndex
    (chunk : ChunkRecord)
    (logical : Nat) : Except Halt Int :=
  let offset := u64Sub logical chunk.offset
  let stripe_nr := toInt (offset / chunk.stripe_len)
  if chunk.type_flags.testBit RAID0 then
    modulo stripe_nr chunk.num_stripes
  else if chunk.type_flags.testBit RAID10 then
    match modulo stripe_nr
        (chunk.num_stripes / chunk.sub_stripes : Nat) with
    | .error halt => .error halt
    | .ok index => .ok (index * chunk.sub_stripes)
  else if chunk.type_flags.testBit RAID5 then
    rotatedIndex chunk.num_stripes stripe_nr
      (chunk.num_stripes - 1)
  else if chunk.type_flags.testBit RAID6 then
    rotatedIndex chunk.num_stripes stripe_nr
      (chunk.num_stripes - 2)
  else .error .bug

/- `btrfs_next_stripe_logical_offset`. -/
def nextStripeLogicalOffset
    (chunk : ChunkRecord)
    (logical : Nat) : Nat :=
  let offset := u64Sub logical chunk.offset
  (offset / chunk.stripe_len * chunk.stripe_len +
    chunk.stripe_len + chunk.offset) % 2 ^ 64

----------
-- Stripes
----------

/- `is_extent_record_in_device_extent`. -/
def isExtentRecordInDeviceExtent
    (er : ExtentRecord)
    (dext : DeviceExtentRecord) : Bool :=
  er.mirrors.any fun mirror =>
    mirror.dev = dext.objectid ∧
      dext.offset ≤ mirror.physical ∧
      mirror.physical < (dext.offset + dext.length) % 2 ^ 64

/- The loop of `btrfs_rebuild_unordered_chunk_stripes`. -/
def unorderedLoop
    (devices : List Nat) :
    Nat → Nat → List DeviceExtentRecord → List Stripe →
      Except Halt (Int × List Stripe)
  | 0, _, _, stripes => .ok (0, stripes)
  | _ + 1, _, [], _ => .error .outside
  | n + 1, i, devext :: devexts, stripes =>
      let stripes :=
        stripes.set i ⟨devext.objectid, devext.offset⟩
      match devices.count devext.objectid with
      | 0 => .ok (ENOENT, stripes)
      | 1 => unorderedLoop devices n (i + 1) devexts stripes
      | _ => .error .bug

def rebuildUnorderedChunkStripes
    (rc : RecoverControl)
    (chunk : ChunkRecord) : Except Halt (Int × ChunkRecord) :=
  match unorderedLoop rc.devices chunk.num_stripes 0
      chunk.dextents chunk.stripes with
  | .error halt => .error halt
  | .ok (ret, stripes) =>
      .ok (ret, { chunk with stripes := stripes })

/- The device extents of a block, for stripes from `index` on. -/
def takeExtents
    (er : ExtentRecord) :
    List DeviceExtentRecord → Nat → ChunkRecord →
      Except Halt (List DeviceExtentRecord × ChunkRecord)
  | [], _, chunk => .ok ([], chunk)
  | devext :: devexts, index, chunk =>
      if isExtentRecordInDeviceExtent er devext then
        if index < chunk.stripes.length then
          takeExtents er devexts (index + 1)
            { chunk with
              stripes :=
                chunk.stripes.set index
                  ⟨devext.objectid, devext.offset⟩
              dextents := devext :: chunk.dextents }
        else .error .outside
      else
        match takeExtents er devexts index chunk with
        | .error halt => .error halt
        | .ok (left, chunk) => .ok (devext :: left, chunk)

/- What is done for one block. -/
def examine
    (chunk : ChunkRecord)
    (er : ExtentRecord)
    (devexts : List DeviceExtentRecord) :
    Except Halt (List DeviceExtentRecord × ChunkRecord) :=
  match calcStripeIndex chunk er.start with
  | .error halt => .error halt
  | .ok (.negSucc _) => .error .outside
  | .ok (.ofNat index) =>
      match chunk.stripes[index]? with
      | none => .error .outside
      | some stripe =>
          if stripe.devid ≠ 0 then .ok (devexts, chunk)
          else takeExtents er devexts index chunk

/- The loop over the stripes without a device. -/
def fillLoop
    (devices : List Nat) :
    Nat → Nat → List DeviceExtentRecord → ChunkRecord →
      Except Halt (Int × ChunkRecord)
  | 0, _, _, chunk => .ok (0, chunk)
  | n + 1, index, devexts, chunk =>
      if (chunk.stripes.getD index ⟨0, 0⟩).devid ≠ 0 then
        fillLoop devices n (index + 1) devexts chunk
      else
        match devexts with
        | [] => .error .outside
        | devext :: devexts =>
            let chunk :=
              { chunk with
                stripes :=
                  chunk.stripes.set index
                    ⟨devext.objectid, devext.offset⟩
                dextents := devext :: chunk.dextents }
            match devices.count devext.objectid with
            | 0 =>
                .ok (EINVAL,
                  { chunk with
                    dextents := chunk.dextents ++ devexts })
            | 1 =>
                fillLoop devices n (index + 1) devexts chunk
            | _ => .error .bug

/- The code behind `no_extent_record`. -/
def noExtentRecord
    (rc : RecoverControl)
    (chunk : ChunkRecord)
    (devexts : List DeviceExtentRecord) :
    Except Halt (Int × ChunkRecord) :=
  if devexts = [] then .ok (0, chunk)
  else if chunk.type_flags.testBit RAID5 ||
      chunk.type_flags.testBit RAID6 then
    .ok (EINVAL,
      { chunk with dextents := chunk.dextents ++ devexts })
  else fillLoop rc.devices chunk.num_stripes 0 devexts chunk

/- The loop over the blocks, for a number of turns. -/
def orderedLoop
    (rc : RecoverControl) :
    Nat → ExtentRecord → List DeviceExtentRecord →
      ChunkRecord → Except Halt (Int × ChunkRecord)
  | 0, _, _, _ => .error .running
  | fuel + 1, er, devexts, chunk =>
      match examine chunk er devexts with
      | .error halt => .error halt
      | .ok (devexts, chunk) =>
          let ending := (chunk.offset + chunk.length) % 2 ^ 64
          let start := nextStripeLogicalOffset chunk er.start
          if ending ≤ start then noExtentRecord rc chunk devexts
          else
            match lookup rc.eb_cache start (ending - start) with
            | none => noExtentRecord rc chunk devexts
            | some er => orderedLoop rc fuel er devexts chunk

/- `btrfs_rebuild_ordered_meta_chunk_stripes`. -/
def rebuildOrderedMetaChunkStripes
    (rc : RecoverControl)
    (fuel : Nat)
    (chunk : ChunkRecord) : Except Halt (Int × ChunkRecord) :=
  match lookup rc.eb_cache chunk.offset chunk.length with
  | none => rebuildUnorderedChunkStripes rc chunk
  | some er =>
      orderedLoop rc (fuel + 1) er chunk.dextents
        { chunk with dextents := [] }

/- `btrfs_rebuild_chunk_stripes`. -/
def rebuildChunkStripes
    (rc : RecoverControl)
    (fuel : Nat)
    (chunk : ChunkRecord) : Except Halt (Int × ChunkRecord) :=
  if chunk.type_flags.testBit METADATA &&
      orderedRaid chunk.type_flags then
    rebuildOrderedMetaChunkStripes rc fuel chunk
  else if chunk.type_flags.testBit DATA &&
      orderedRaid chunk.type_flags then
    .ok (1, chunk)
  else rebuildUnorderedChunkStripes rc chunk

----------
-- The Recovery
----------

/- The lists, and the ranges of the chunks so far. -/
structure State where
  no_chunk_orphans : List DeviceExtentRecord
  chunk : SearchTree ExtentCaches.CacheExtent
  good_chunks : List ChunkRecord
  unrepaired_chunks : List ChunkRecord
  bad_chunks : List ChunkRecord

/- `btrfs_get_device_extents`: those of a chunk, and the rest. -/
def getDeviceExtents
    (chunk_object : Nat)
    (orphans : List DeviceExtentRecord) :
    List DeviceExtentRecord × List DeviceExtentRecord :=
  orphans.partition fun devext =>
    devext.chunk_offset = chunk_object

/- The new record of a chunk for a block group. -/
def newChunk
    (bg : BlockGroupRecord)
    (nstripes : Nat) : ChunkRecord where
  bg_rec := bg
  offset := bg.objectid
  length := bg.offset
  type_flags := bg.flags
  stripe_len := BTRFS_STRIPE_LEN
  num_stripes := 0
  sub_stripes := calcSubNstripes bg.flags
  stripes := List.replicate nstripes ⟨0, 0⟩
  dextents := []

/- The list for a chunk, by what the rebuilding returns. -/
def State.put
    (s : State)
    (ret : Int)
    (chunk : ChunkRecord) : State :=
  if 0 < ret then
    { s with unrepaired_chunks := s.unrepaired_chunks ++ [chunk] }
  else if ret < 0 then
    { s with bad_chunks := s.bad_chunks ++ [chunk] }
  else { s with good_chunks := s.good_chunks ++ [chunk] }

/- A turn of the loop over the block groups. -/
def recoverTurn
    (rc : RecoverControl)
    (fuel : Nat)
    (bg : BlockGroupRecord)
    (s : State) : Except Halt State :=
  let (devexts, orphans) :=
    getDeviceExtents bg.objectid s.no_chunk_orphans
  let nstripes := devexts.length
  let chunk := newChunk bg nstripes
  match insertCacheExtent rc.color s.chunk
      ⟨0, bg.objectid, bg.offset⟩ with
  | (false, _) => .error .bug
  | (true, tree) =>
      let s :=
        { s with no_chunk_orphans := orphans, chunk := tree }
      if nstripes = 0 then .ok (s.put (-1) chunk)
      else
        -- `list_splice_init` leaves `devexts` empty
        let chunk := { chunk with dextents := devexts }
        match verifyDeviceExtents bg [] nstripes with
        | .error halt => .error halt
        | .ok ret =>
            if ret ≠ 0 then .ok (s.put (-1) chunk)
            else
              let chunk :=
                { chunk with num_stripes := nstripes % 2 ^ 16 }
              match rebuildChunkStripes rc fuel chunk with
              | .error halt => .error halt
              | .ok (ret, chunk) => .ok (s.put ret chunk)

/- The loop over block groups, and why it halts, if it does. -/
def recoverLoop
    (rc : RecoverControl)
    (fuel : Nat) :
    List BlockGroupRecord → State → Option Halt × State
  | [], s => (none, s)
  | bg :: groups, s =>
      match recoverTurn rc fuel bg s with
      | .error halt => (some halt, s)
      | .ok s => recoverLoop rc fuel groups s

/- No chunk is on a list before. -/
def RecoverControl.start
    (rc : RecoverControl) : State where
  no_chunk_orphans := rc.no_chunk_orphans
  chunk := rc.chunk
  good_chunks := []
  unrepaired_chunks := []
  bad_chunks := []

def recoverChunks
    (rc : RecoverControl)
    (fuel : Nat) : Option Halt × State :=
  recoverLoop rc fuel rc.block_groups rc.start

----------
-- Divisions
----------

/- No index of a stripe needs a division by zero. -/
def IndexDivides
    (type num_stripes : Nat) : Prop :=
  if type.testBit RAID0 then num_stripes ≠ 0
  else if type.testBit RAID10 then 2 ≤ num_stripes
  else if type.testBit RAID5 then 2 ≤ num_stripes
  else num_stripes ≠ 0 ∧ num_stripes ≠ 2

theorem modulo_trap_iff
    {a b : Int} :
    modulo a b = .error .trap ↔ b = 0 := by
  unfold modulo
  split_ifs with hZero
  · exact iff_of_true rfl hZero
  · exact iff_of_false (fun hIs => by cases hIs) hZero

theorem rotatedIndex_trap_iff
    {num_stripes : Nat}
    {stripe_nr nr : Int} :
    rotatedIndex num_stripes stripe_nr nr = .error .trap ↔
      nr = 0 ∨ num_stripes = 0 := by
  unfold rotatedIndex
  by_cases hZero : nr = 0
  · rw [modulo, if_pos hZero]
    exact iff_of_true rfl (.inl hZero)
  · rw [modulo, if_neg hZero, quotient, if_neg hZero]
    dsimp only
    rw [modulo_trap_iff]
    constructor
    · exact fun hNone => .inr (by exact_mod_cast hNone)
    · intro hEither
      rcases hEither with hIs | hNone
      · exact absurd hIs hZero
      · exact_mod_cast hNone

/- An index traps where a number of stripes is wrong for it. -/
theorem calcStripeIndex_trap_iff
    {chunk : ChunkRecord}
    (logical : Nat)
    (hOrdered : orderedRaid chunk.type_flags = true)
    (hSub : chunk.sub_stripes =
      calcSubNstripes chunk.type_flags) :
    calcStripeIndex chunk logical = .error .trap ↔
      ¬ IndexDivides chunk.type_flags chunk.num_stripes := by
  unfold calcStripeIndex IndexDivides
  dsimp only
  by_cases hRaid0 : chunk.type_flags.testBit RAID0 = true
  · rw [if_pos hRaid0, if_pos hRaid0, modulo_trap_iff]
    omega
  · rw [if_neg hRaid0, if_neg hRaid0]
    by_cases hRaid10 : chunk.type_flags.testBit RAID10 = true
    · have hTwo : chunk.sub_stripes = 2 := by
        rw [hSub, calcSubNstripes, if_pos hRaid10]
      rw [if_pos hRaid10, if_pos hRaid10, hTwo, modulo]
      by_cases hFew : chunk.num_stripes / 2 = 0
      · rw [if_pos (by exact_mod_cast hFew)]
        exact iff_of_true rfl (by omega)
      · rw [if_neg (by exact_mod_cast hFew)]
        exact iff_of_false (fun hIs => by cases hIs) (by omega)
    · rw [if_neg hRaid10, if_neg hRaid10]
      by_cases hRaid5 : chunk.type_flags.testBit RAID5 = true
      · rw [if_pos hRaid5, if_pos hRaid5, rotatedIndex_trap_iff]
        omega
      · have hRaid6 :
            chunk.type_flags.testBit RAID6 = true := by
          unfold orderedRaid at hOrdered
          simpa [hRaid0, hRaid10, hRaid5] using hOrdered
        rw [if_neg hRaid5, if_neg hRaid5, if_pos hRaid6,
          rotatedIndex_trap_iff]
        omega

----------
-- What the Rebuilding Keeps
----------

section Rebuild

variable {rc : RecoverControl}
variable {fuel n i index : Nat}
variable {chunk chunk' : ChunkRecord}
variable {er : ExtentRecord}
variable {devexts left : List DeviceExtentRecord}
variable {ret : Int}
variable {halt : Halt}

/- Only the stripes and the device extents are not the same. -/
structure Kept
    (chunk chunk' : ChunkRecord) : Prop where
  bg_rec : chunk'.bg_rec = chunk.bg_rec
  offset : chunk'.offset = chunk.offset
  length : chunk'.length = chunk.length
  type_flags : chunk'.type_flags = chunk.type_flags
  num_stripes : chunk'.num_stripes = chunk.num_stripes
  sub_stripes : chunk'.sub_stripes = chunk.sub_stripes

theorem Kept.refl
    (chunk : ChunkRecord) : Kept chunk chunk :=
  ⟨rfl, rfl, rfl, rfl, rfl, rfl⟩

theorem Kept.trans
    {other : ChunkRecord}
    (hFirst : Kept chunk chunk')
    (hSecond : Kept chunk' other) :
    Kept chunk other where
  bg_rec := hSecond.bg_rec.trans hFirst.bg_rec
  offset := hSecond.offset.trans hFirst.offset
  length := hSecond.length.trans hFirst.length
  type_flags := hSecond.type_flags.trans hFirst.type_flags
  num_stripes := hSecond.num_stripes.trans hFirst.num_stripes
  sub_stripes := hSecond.sub_stripes.trans hFirst.sub_stripes

/-
  The result of a part of the rebuilding, which is no division
  by zero and attaches none but some device extents.
-/
def Attaches
    (chunk : ChunkRecord)
    (devexts : List DeviceExtentRecord) :
    Except Halt (Int × ChunkRecord) → Prop
  | .error halt => halt ≠ .trap
  | .ok (_, chunk') =>
      Kept chunk chunk' ∧ chunk'.dextents.Subperm devexts

theorem rebuildUnordered_attaches
    (rc : RecoverControl)
    (chunk : ChunkRecord) :
    Attaches chunk chunk.dextents
      (rebuildUnorderedChunkStripes rc chunk) := by
  have hLoop : ∀ n i devexts stripes,
      unorderedLoop rc.devices n i devexts stripes ≠
        .error .trap := by
    intro n
    induction n with
    | zero =>
        intro i devexts stripes hIs
        cases hIs
    | succ n ih =>
        intro i devexts stripes
        cases devexts with
        | nil =>
            intro hIs
            cases hIs
        | cons devext devexts =>
            unfold unorderedLoop
            dsimp only
            cases rc.devices.count devext.objectid with
            | zero =>
                intro hIs
                cases hIs
            | succ k =>
                cases k with
                | zero => exact ih _ _ _
                | succ k =>
                    intro hIs
                    cases hIs
  unfold rebuildUnorderedChunkStripes
  cases hOut : unorderedLoop rc.devices chunk.num_stripes 0
      chunk.dextents chunk.stripes with
  | error halt =>
      intro hIs
      rw [hIs] at hOut
      exact hLoop _ _ _ _ hOut
  | ok out =>
      rcases out with ⟨ret, stripes⟩
      exact ⟨⟨rfl, rfl, rfl, rfl, rfl, rfl⟩, .refl _⟩

theorem Attaches.mono
    {devexts' : List DeviceExtentRecord}
    {out : Except Halt (Int × ChunkRecord)}
    (hAttaches : Attaches chunk' devexts' out)
    (hKept : Kept chunk chunk')
    (hSub : devexts'.Subperm devexts) :
    Attaches chunk devexts out := by
  cases out with
  | error halt => exact hAttaches
  | ok result =>
      exact ⟨hKept.trans hAttaches.1, hAttaches.2.trans hSub⟩

/- A part of the device extents is moved to the chunk. -/
def Takes
    (chunk : ChunkRecord)
    (devexts : List DeviceExtentRecord) :
    Except Halt (List DeviceExtentRecord × ChunkRecord) → Prop
  | .error halt => halt ≠ .trap
  | .ok (left, chunk') =>
      Kept chunk chunk' ∧
        (left ++ chunk'.dextents).Perm
          (devexts ++ chunk.dextents)

theorem takeExtents_takes
    (er : ExtentRecord)
    (devexts : List DeviceExtentRecord)
    (index : Nat)
    (chunk : ChunkRecord) :
    Takes chunk devexts (takeExtents er devexts index chunk) := by
  induction devexts generalizing index chunk with
  | nil => exact ⟨.refl _, .refl _⟩
  | cons devext devexts ih =>
      unfold takeExtents
      split_ifs with hIn hRoom
      · -- it goes to the front of the list of the chunk
        let chunk₁ : ChunkRecord :=
          { chunk with
            stripes := chunk.stripes.set index
              ⟨devext.objectid, devext.offset⟩
            dextents := devext :: chunk.dextents }
        have hRest := ih (index + 1) chunk₁
        cases hTake : takeExtents er devexts (index + 1)
            chunk₁ with
        | error halt =>
            rw [hTake] at hRest
            exact hRest
        | ok out =>
            rw [hTake] at hRest
            have hSame : Kept chunk chunk₁ :=
              ⟨rfl, rfl, rfl, rfl, rfl, rfl⟩
            exact ⟨hSame.trans hRest.1,
              hRest.2.trans List.perm_middle⟩
      · exact fun hIs => by cases hIs
      · have hRest := ih index chunk
        cases hTake : takeExtents er devexts index chunk with
        | error halt =>
            rw [hTake] at hRest
            exact hRest
        | ok out =>
            rw [hTake] at hRest
            exact ⟨hRest.1, hRest.2.cons devext⟩

/- A block is a division by zero where its index is one. -/
theorem examine_takes
    (er : ExtentRecord)
    (devexts : List DeviceExtentRecord)
    (hOrdered : orderedRaid chunk.type_flags = true)
    (hSub : chunk.sub_stripes =
      calcSubNstripes chunk.type_flags)
    (hDivides :
      IndexDivides chunk.type_flags chunk.num_stripes) :
    Takes chunk devexts (examine chunk er devexts) := by
  unfold examine
  cases hIndex : calcStripeIndex chunk er.start with
  | error halt =>
      intro hIs
      rw [hIs] at hIndex
      exact (calcStripeIndex_trap_iff er.start hOrdered
        hSub).mp hIndex hDivides
  | ok index =>
      cases index with
      | negSucc k => exact fun hIs => by cases hIs
      | ofNat index =>
          dsimp only
          cases chunk.stripes[index]? with
          | none => exact fun hIs => by cases hIs
          | some stripe =>
              dsimp only
              split_ifs
              · exact ⟨.refl _, .refl _⟩
              · exact takeExtents_takes er devexts index chunk

theorem fillLoop_attaches
    (devices : List Nat)
    (n index : Nat)
    (devexts : List DeviceExtentRecord)
    (chunk : ChunkRecord) :
    Attaches chunk (chunk.dextents ++ devexts)
      (fillLoop devices n index devexts chunk) := by
  induction n generalizing index devexts chunk with
  | zero =>
      exact ⟨.refl _,
        (List.sublist_append_left _ _).subperm⟩
  | succ n ih =>
      unfold fillLoop
      split_ifs with hSet
      · exact ih _ _ _
      · cases devexts with
        | nil => exact fun hIs => by cases hIs
        | cons devext devexts =>
            have hMoved :
                (devext :: chunk.dextents ++ devexts).Perm
                  (chunk.dextents ++ devext :: devexts) :=
              List.perm_middle.symm
            dsimp only
            cases devices.count devext.objectid with
            | zero =>
                exact ⟨⟨rfl, rfl, rfl, rfl, rfl, rfl⟩,
                  hMoved.subperm⟩
            | succ k =>
                cases k with
                | succ k => exact fun hIs => by cases hIs
                | zero =>
                    exact (ih _ _ _).mono
                      ⟨rfl, rfl, rfl, rfl, rfl, rfl⟩
                      hMoved.subperm

theorem noExtentRecord_attaches
    (rc : RecoverControl)
    (chunk : ChunkRecord)
    (devexts : List DeviceExtentRecord) :
    Attaches chunk (chunk.dextents ++ devexts)
      (noExtentRecord rc chunk devexts) := by
  unfold noExtentRecord
  split_ifs with hNone hParity
  · exact ⟨.refl _, (List.sublist_append_left _ _).subperm⟩
  · exact ⟨⟨rfl, rfl, rfl, rfl, rfl, rfl⟩, .refl _⟩
  · exact fillLoop_attaches _ _ _ _ _

theorem orderedLoop_attaches
    (rc : RecoverControl)
    (fuel : Nat)
    (er : ExtentRecord)
    (devexts : List DeviceExtentRecord)
    (chunk : ChunkRecord)
    (hOrdered : orderedRaid chunk.type_flags = true)
    (hSub : chunk.sub_stripes =
      calcSubNstripes chunk.type_flags)
    (hDivides :
      IndexDivides chunk.type_flags chunk.num_stripes) :
    Attaches chunk (devexts ++ chunk.dextents)
      (orderedLoop rc fuel er devexts chunk) := by
  induction fuel generalizing er devexts chunk with
  | zero => exact fun hIs => by cases hIs
  | succ fuel ih =>
      have hTakes :=
        examine_takes er devexts hOrdered hSub hDivides
      unfold orderedLoop
      cases hExamine : examine chunk er devexts with
      | error halt =>
          rw [hExamine] at hTakes
          exact hTakes
      | ok out =>
          rcases out with ⟨left, chunk'⟩
          rw [hExamine] at hTakes
          rcases hTakes with ⟨hKept, hPerm⟩
          have hEnd : Attaches chunk (devexts ++ chunk.dextents)
              (noExtentRecord rc chunk' left) :=
            (noExtentRecord_attaches rc chunk' left).mono hKept
              (List.perm_append_comm.trans hPerm).subperm
          dsimp only
          split_ifs
          · exact hEnd
          · cases lookup rc.eb_cache
                (nextStripeLogicalOffset chunk' er.start)
                ((chunk'.offset + chunk'.length) % 2 ^ 64 -
                  nextStripeLogicalOffset chunk' er.start) with
            | none => exact hEnd
            | some er =>
                refine Attaches.mono (ih er _ _ ?_ ?_ ?_) hKept
                  hPerm.subperm
                · rw [hKept.type_flags]
                  exact hOrdered
                · rw [hKept.sub_stripes, hKept.type_flags]
                  exact hSub
                · rw [hKept.num_stripes, hKept.type_flags]
                  exact hDivides

/- The rebuilding divides by zero at the first block, or not. -/
theorem rebuildChunkStripes_attaches
    (rc : RecoverControl)
    (fuel : Nat)
    (chunk : ChunkRecord)
    (hSub : chunk.sub_stripes =
      calcSubNstripes chunk.type_flags)
    (hDivides :
      chunk.type_flags.testBit METADATA = true →
      orderedRaid chunk.type_flags = true →
      lookup rc.eb_cache chunk.offset chunk.length ≠ none →
        IndexDivides chunk.type_flags chunk.num_stripes) :
    Attaches chunk chunk.dextents
      (rebuildChunkStripes rc fuel chunk) := by
  unfold rebuildChunkStripes
  split_ifs with hMeta hData
  · rw [Bool.and_eq_true] at hMeta
    unfold rebuildOrderedMetaChunkStripes
    cases hLookup : lookup rc.eb_cache chunk.offset
        chunk.length with
    | none => exact rebuildUnordered_attaches rc chunk
    | some er =>
        have hIndex := hDivides hMeta.1 hMeta.2 (by
          rw [hLookup]
          exact Option.some_ne_none er)
        have hLoop := orderedLoop_attaches rc (fuel + 1) er
          chunk.dextents { chunk with dextents := [] } hMeta.2
          hSub hIndex
        rw [List.append_nil] at hLoop
        exact hLoop.mono ⟨rfl, rfl, rfl, rfl, rfl, rfl⟩
          (.refl _)
  · exact ⟨.refl _, .refl _⟩
  · exact rebuildUnordered_attaches rc chunk

theorem rebuildChunkStripes_trap
    {er : ExtentRecord}
    (rc : RecoverControl)
    (fuel : Nat)
    (chunk : ChunkRecord)
    (hSub : chunk.sub_stripes =
      calcSubNstripes chunk.type_flags)
    (hMeta : chunk.type_flags.testBit METADATA = true)
    (hOrdered : orderedRaid chunk.type_flags = true)
    (hLookup :
      lookup rc.eb_cache chunk.offset chunk.length = some er)
    (hDivides :
      ¬ IndexDivides chunk.type_flags chunk.num_stripes) :
    rebuildChunkStripes rc fuel chunk = .error .trap := by
  have hIndex :
      calcStripeIndex { chunk with dextents := [] } er.start =
        .error .trap :=
    (calcStripeIndex_trap_iff er.start hOrdered hSub).mpr
      hDivides
  have hExamine :
      examine { chunk with dextents := [] } er chunk.dextents =
        .error .trap := by
    unfold examine
    rw [hIndex]
  unfold rebuildChunkStripes
  rw [if_pos (Bool.and_eq_true_iff.mpr ⟨hMeta, hOrdered⟩)]
  unfold rebuildOrderedMetaChunkStripes
  rw [hLookup]
  dsimp only
  unfold orderedLoop
  rw [hExamine]

end Rebuild

----------
-- Consistent Chunks
----------

/- The device extents of a chunk. -/
def RecoverControl.extentsOf
    (rc : RecoverControl)
    (chunk_object : Nat) : List DeviceExtentRecord :=
  rc.no_chunk_orphans.filter fun devext =>
    devext.chunk_offset = chunk_object

/- The number of stripes is the one that the flags require. -/
def CountFits
    (type nstripes : Nat) : Prop :=
  calcNumStripes type = 0 ∨ calcNumStripes type = nstripes

instance
    (type nstripes : Nat) : Decidable (CountFits type nstripes) :=
  inferInstanceAs (Decidable (_ ∨ _))

/- The group has device extents, in the right number. -/
def Counted
    (bg : BlockGroupRecord)
    (devexts : List DeviceExtentRecord) : Prop :=
  devexts ≠ [] ∧ CountFits bg.flags devexts.length

/- All device extents are as long as a stripe. -/
def LengthsFit
    (type length : Nat)
    (devexts : List DeviceExtentRecord) : Prop :=
  ∀ devext ∈ devexts,
    calcStripeLength type length devexts.length =
      some devext.length

/- The device extents of a chunk are right for it. -/
structure Fits
    (rc : RecoverControl)
    (chunk : ChunkRecord) : Prop where
  count :
    CountFits chunk.type_flags
      (rc.extentsOf chunk.offset).length
  lengths :
    LengthsFit chunk.type_flags chunk.length
      (rc.extentsOf chunk.offset)

/- The chunks on the lists other than that of bad ones. -/
def State.kept
    (s : State) : List ChunkRecord :=
  s.good_chunks ++ s.unrepaired_chunks

def State.chunks
    (s : State) : List ChunkRecord :=
  s.kept ++ s.bad_chunks

/-
  No division by zero; what is not on the list of bad chunks
  fits; every block group has its chunk on one list; and no
  device extent is attached to two chunks.
-/
structure Consistent
    (rc : RecoverControl)
    (out : Option Halt × State) : Prop where
  divides : out.1 ≠ some .trap
  fits : ∀ chunk ∈ out.2.kept, Fits rc chunk
  listed : out.1 = none →
    (out.2.chunks.map ChunkRecord.bg_rec).Perm rc.block_groups
  once : (out.2.chunks.flatMap ChunkRecord.dextents).Nodup

/- The chunk that is given to the rebuilding. -/
def filledChunk
    (bg : BlockGroupRecord)
    (devexts : List DeviceExtentRecord) : ChunkRecord :=
  { newChunk bg devexts.length with
    num_stripes := devexts.length % 2 ^ 16
    dextents := devexts }

/- The rebuilding of the stripes does not fail. -/
def Rebuilds
    (rc : RecoverControl)
    (fuel : Nat)
    (chunk : ChunkRecord) : Prop :=
  ∃ ret chunk',
    rebuildChunkStripes rc fuel chunk = .ok (ret, chunk') ∧
      0 ≤ ret

/-
  What a block group needs, unless it has no device extents or
  a wrong number of them.
-/
structure SoundFor
    (rc : RecoverControl)
    (fuel : Nat)
    (bg : BlockGroupRecord)
    (devexts : List DeviceExtentRecord) : Prop where
  length :
    calcStripeLength bg.flags bg.offset devexts.length ≠ none
  index :
    bg.flags.testBit METADATA = true →
    orderedRaid bg.flags = true →
    lookup rc.eb_cache bg.objectid bg.offset ≠ none →
      IndexDivides bg.flags (devexts.length % 2 ^ 16)
  lengths :
    Rebuilds rc fuel (filledChunk bg devexts) →
      LengthsFit bg.flags bg.offset devexts

/- So it is if they are counted rightly. -/
def Sound
    (rc : RecoverControl)
    (fuel : Nat)
    (bg : BlockGroupRecord) : Prop :=
  Counted bg (rc.extentsOf bg.objectid) →
    SoundFor rc fuel bg (rc.extentsOf bg.objectid)

/-
  The loop comes to the block group, and its range is not that
  of another chunk.
-/
def ComesTo
    (rc : RecoverControl)
    (fuel : Nat)
    (bg : BlockGroupRecord) : Prop :=
  ∃ front back s, rc.block_groups = front ++ bg :: back ∧
    recoverLoop rc fuel front rc.start = (none, s) ∧
    (insertCacheExtent rc.color s.chunk
      ⟨0, bg.objectid, bg.offset⟩).1 = true

----------
-- A Block Group
----------

section Groups

variable {rc : RecoverControl}
variable {fuel : Nat}
variable {bg : BlockGroupRecord}
variable {devexts : List DeviceExtentRecord}
variable {s : State}

theorem not_counted_iff :
    ¬ Counted bg devexts ↔
      devexts = [] ∨ ¬ CountFits bg.flags devexts.length := by
  unfold Counted
  rw [not_and_or, not_not]

/- What is put on a list for the device extents of a group. -/
def judge
    (rc : RecoverControl)
    (fuel : Nat)
    (bg : BlockGroupRecord)
    (devexts : List DeviceExtentRecord) :
    Except Halt (Int × ChunkRecord) :=
  if devexts = [] ∨ ¬ CountFits bg.flags devexts.length then
    .ok (-1,
      { newChunk bg devexts.length with dextents := devexts })
  else
    match calcStripeLength bg.flags bg.offset devexts.length with
    | none => .error .trap
    | some _ => rebuildChunkStripes rc fuel (filledChunk bg devexts)

/- A turn puts on a list what is judged of the extents. -/
theorem recoverTurn_judge
    (rc : RecoverControl)
    (fuel : Nat)
    {orphans : List DeviceExtentRecord}
    (hGet : getDeviceExtents bg.objectid s.no_chunk_orphans =
      (devexts, orphans)) :
    recoverTurn rc fuel bg s =
      match insertCacheExtent rc.color s.chunk
          ⟨0, bg.objectid, bg.offset⟩ with
      | (false, _) => .error .bug
      | (true, tree) =>
          match judge rc fuel bg devexts with
          | .error halt => .error halt
          | .ok (ret, chunk) =>
              .ok
                (State.put
                  { s with
                    no_chunk_orphans := orphans
                    chunk := tree } ret chunk) := by
  unfold recoverTurn
  rw [hGet]
  dsimp only
  cases insertCacheExtent rc.color s.chunk
      ⟨0, bg.objectid, bg.offset⟩ with
  | mk inserted tree =>
      cases inserted with
      | false => rfl
      | true =>
          dsimp only
          unfold judge
          by_cases hNone : devexts = []
          · have hEither : devexts = [] ∨
                ¬ CountFits bg.flags devexts.length :=
              .inl hNone
            rw [if_pos hEither, hNone]
            rfl
          · have hLength : devexts.length ≠ 0 :=
              fun hZero =>
                hNone (List.length_eq_zero_iff.mp hZero)
            rw [if_neg hLength]
            unfold verifyDeviceExtents
            dsimp only
            by_cases hCount :
                CountFits bg.flags devexts.length
            · have hFits : ¬ (calcNumStripes bg.flags ≠ 0 ∧
                  calcNumStripes bg.flags ≠ devexts.length) := by
                unfold CountFits at hCount
                tauto
              have hBoth : ¬ (devexts = [] ∨
                  ¬ CountFits bg.flags devexts.length) := by
                tauto
              rw [if_neg hFits, if_neg hBoth]
              cases calcStripeLength bg.flags bg.offset
                  devexts.length with
              | none
              | some length => rfl
            · have hWrong : calcNumStripes bg.flags ≠ 0 ∧
                  calcNumStripes bg.flags ≠ devexts.length := by
                unfold CountFits at hCount
                tauto
              have hEither : devexts = [] ∨
                  ¬ CountFits bg.flags devexts.length :=
                .inr hCount
              rw [if_pos hWrong, if_pos hEither]
              rfl

theorem rebuildChunkStripes_cases
    (rc : RecoverControl)
    (fuel : Nat)
    (chunk : ChunkRecord)
    (hSub : chunk.sub_stripes =
      calcSubNstripes chunk.type_flags) :
    Attaches chunk chunk.dextents
        (rebuildChunkStripes rc fuel chunk) ∨
      rebuildChunkStripes rc fuel chunk = .error .trap := by
  by_cases hMeta : chunk.type_flags.testBit METADATA = true ∧
      orderedRaid chunk.type_flags = true ∧
      ¬ IndexDivides chunk.type_flags chunk.num_stripes
  · rcases hMeta with ⟨hMeta, hOrdered, hDivides⟩
    cases hLookup : lookup rc.eb_cache chunk.offset
        chunk.length with
    | none =>
        refine .inl (rebuildChunkStripes_attaches rc fuel chunk hSub
          fun _ _ hSome => ?_)
        exact absurd hLookup hSome
    | some er =>
        exact .inr (rebuildChunkStripes_trap rc fuel chunk hSub
          hMeta hOrdered hLookup hDivides)
  · refine .inl (rebuildChunkStripes_attaches rc fuel chunk hSub
      fun hIs hOrdered _ => ?_)
    by_contra hDivides
    exact hMeta ⟨hIs, hOrdered, hDivides⟩

/- A chunk is that of a block group, with its device extents. -/
structure Chunk
    (bg : BlockGroupRecord)
    (devexts : List DeviceExtentRecord)
    (chunk : ChunkRecord) : Prop where
  bg_rec : chunk.bg_rec = bg
  offset : chunk.offset = bg.objectid
  length : chunk.length = bg.offset
  type_flags : chunk.type_flags = bg.flags
  dextents : chunk.dextents.Subperm devexts

theorem judge_chunk
    {ret : Int}
    {chunk : ChunkRecord}
    (hJudge : judge rc fuel bg devexts = .ok (ret, chunk)) :
    Chunk bg devexts chunk := by
  unfold judge at hJudge
  split_ifs at hJudge with hBad
  · cases hJudge
    exact ⟨rfl, rfl, rfl, rfl, .refl _⟩
  · cases hLength : calcStripeLength bg.flags bg.offset
        devexts.length with
    | none =>
        rw [hLength] at hJudge
        cases hJudge
    | some length =>
        rw [hLength] at hJudge
        rcases rebuildChunkStripes_cases rc fuel
          (filledChunk bg devexts) rfl with
          hAttaches | hTrap
        · rw [show rebuildChunkStripes rc fuel
            (filledChunk bg devexts) = .ok (ret, chunk) from
              hJudge] at hAttaches
          rcases hAttaches with ⟨hKept, hSub⟩
          exact ⟨hKept.bg_rec, hKept.offset, hKept.length,
            hKept.type_flags, hSub⟩
        · rw [show rebuildChunkStripes rc fuel
            (filledChunk bg devexts) = .ok (ret, chunk) from
              hJudge] at hTrap
          cases hTrap

theorem judge_trap_iff :
    judge rc fuel bg devexts = .error .trap ↔
      Counted bg devexts ∧
        (calcStripeLength bg.flags bg.offset devexts.length =
            none ∨
          bg.flags.testBit METADATA = true ∧
            orderedRaid bg.flags = true ∧
            lookup rc.eb_cache bg.objectid bg.offset ≠ none ∧
            ¬ IndexDivides bg.flags
              (devexts.length % 2 ^ 16)) := by
  unfold judge
  split_ifs with hBad
  · refine iff_of_false (fun hIs => by cases hIs) ?_
    intro hBoth
    exact not_counted_iff.mpr hBad hBoth.1
  · have hGood : Counted bg devexts :=
      not_not.mp (mt not_counted_iff.mp hBad)
    rw [and_iff_right hGood]
    cases hLength : calcStripeLength bg.flags bg.offset
        devexts.length with
    | none => exact iff_of_true rfl (.inl rfl)
    | some length =>
        dsimp only
        have hAlone : ∀ p : Prop, (some length = none ∨ p) ↔ p :=
          fun p => by simp
        rw [hAlone]
        constructor
        · intro hTrap
          by_contra hNot
          have hAttaches := rebuildChunkStripes_attaches rc
            fuel (filledChunk bg devexts) rfl
            fun hMeta hOrdered hLookup => by
              by_contra hDivides
              exact hNot ⟨hMeta, hOrdered, hLookup, hDivides⟩
          rw [hTrap] at hAttaches
          exact hAttaches rfl
        · intro hAll
          rcases hAll with ⟨hMeta, hOrdered, hSome, hDivides⟩
          rcases Option.ne_none_iff_exists'.mp hSome with
            ⟨er, hLookup⟩
          exact rebuildChunkStripes_trap rc fuel
            (filledChunk bg devexts) rfl hMeta hOrdered hLookup
            hDivides

/- What is not bad is counted, and its stripes are rebuilt. -/
theorem judge_good
    {ret : Int}
    {chunk : ChunkRecord}
    (hJudge : judge rc fuel bg devexts = .ok (ret, chunk))
    (hRet : 0 ≤ ret) :
    Counted bg devexts ∧
      Rebuilds rc fuel (filledChunk bg devexts) := by
  unfold judge at hJudge
  split_ifs at hJudge with hBad
  · cases hJudge
    exact absurd hRet (by decide)
  · refine ⟨not_not.mp (mt not_counted_iff.mp hBad), ?_⟩
    cases hLength : calcStripeLength bg.flags bg.offset
        devexts.length with
    | none =>
        rw [hLength] at hJudge
        cases hJudge
    | some length =>
        rw [hLength] at hJudge
        exact ⟨ret, chunk, hJudge, hRet⟩

theorem judge_rebuilds
    (hCounted : Counted bg devexts)
    (hLength : calcStripeLength bg.flags bg.offset
      devexts.length ≠ none)
    (hRebuilds : Rebuilds rc fuel (filledChunk bg devexts)) :
    ∃ ret chunk, judge rc fuel bg devexts = .ok (ret, chunk) ∧
      0 ≤ ret := by
  rcases hRebuilds with ⟨ret, chunk, hRebuild, hRet⟩
  refine ⟨ret, chunk, ?_, hRet⟩
  have hGood : ¬ (devexts = [] ∨
      ¬ CountFits bg.flags devexts.length) :=
    mt not_counted_iff.mpr (not_not.mpr hCounted)
  unfold judge
  rw [if_neg hGood]
  cases hSome : calcStripeLength bg.flags bg.offset
      devexts.length with
  | none => exact absurd hSome hLength
  | some length => exact hRebuild

end Groups

----------
-- The Run over the Groups
----------

section Runs

variable {rc : RecoverControl}
variable {fuel : Nat}
variable {bg : BlockGroupRecord}
variable {front back groups : List BlockGroupRecord}
variable {devexts : List DeviceExtentRecord}
variable {s s' : State}

theorem put_chunks
    (s : State)
    (ret : Int)
    (chunk : ChunkRecord) :
    (s.put ret chunk).chunks.Perm (chunk :: s.chunks) := by
  unfold State.put State.chunks State.kept
  split_ifs
  · dsimp only
    rw [← List.append_assoc, List.append_assoc _ [chunk]]
    exact List.perm_middle
  · dsimp only
    rw [← List.append_assoc]
    exact List.perm_append_singleton chunk _
  · dsimp only
    rw [List.append_assoc, List.append_assoc, List.append_assoc]
    exact List.perm_middle

theorem mem_put_kept
    {ret : Int}
    {chunk other : ChunkRecord} :
    other ∈ (s.put ret chunk).kept ↔
      other ∈ s.kept ∨ other = chunk ∧ 0 ≤ ret := by
  unfold State.put State.kept
  split_ifs with hPos hNeg
  · have hRet : 0 ≤ ret := hPos.le
    simp [hRet, or_assoc]
  · have hRet : ¬ 0 ≤ ret := not_le.mpr hNeg
    simp [hRet]
  · have hRet : 0 ≤ ret := not_lt.mp hNeg
    simp [hRet, or_comm, or_left_comm]

/- The state behind some block groups. -/
structure Behind
    (rc : RecoverControl)
    (front : List BlockGroupRecord)
    (s : State) : Prop where
  orphans : s.no_chunk_orphans =
    rc.no_chunk_orphans.filter fun devext =>
      devext.chunk_offset ∉ front.map BlockGroupRecord.objectid
  listed : (s.chunks.map ChunkRecord.bg_rec).Perm front
  chunk : ∀ chunk ∈ s.chunks,
    Chunk chunk.bg_rec (rc.extentsOf chunk.bg_rec.objectid)
      chunk

theorem behind_start
    (rc : RecoverControl) : Behind rc [] rc.start where
  orphans := by
    have hAll : ∀ devext ∈ rc.no_chunk_orphans,
        decide (devext.chunk_offset ∉
          ([] : List BlockGroupRecord).map
            BlockGroupRecord.objectid) = true := by
      intro devext _
      simp
    exact (List.filter_eq_self.mpr hAll).symm
  listed := .refl _
  chunk := fun _ hIn => by cases hIn

/- A group finds all the device extents of its chunk. -/
theorem Behind.get
    (hBehind : Behind rc front s)
    (hApart : ∀ other ∈ front, other.objectid ≠ bg.objectid) :
    getDeviceExtents bg.objectid s.no_chunk_orphans =
      (rc.extentsOf bg.objectid,
        rc.no_chunk_orphans.filter fun devext =>
          devext.chunk_offset ∉
            (front ++ [bg]).map BlockGroupRecord.objectid) := by
  have hNew : bg.objectid ∉
      front.map BlockGroupRecord.objectid := by
    intro hIn
    rcases List.mem_map.mp hIn with ⟨other, hOther, hSame⟩
    exact hApart other hOther hSame
  unfold getDeviceExtents RecoverControl.extentsOf
  rw [List.partition_eq_filter_filter, hBehind.orphans,
    List.filter_filter, List.filter_filter]
  refine Prod.ext ?_ ?_
  · apply List.filter_congr
    intro devext _
    by_cases hIs : devext.chunk_offset = bg.objectid
    · simp [hIs, hNew]
    · simp [hIs]
  · apply List.filter_congr
    intro devext _
    by_cases hIs : devext.chunk_offset = bg.objectid
    · simp [hIs]
    · simp [hIs]

/- What a turn comes to, by what is judged of the extents. -/
inductive Turned
    (rc : RecoverControl)
    (fuel : Nat)
    (front : List BlockGroupRecord)
    (bg : BlockGroupRecord)
    (s : State) : Prop
  | refused
      (hInsert : (insertCacheExtent rc.color s.chunk
        ⟨0, bg.objectid, bg.offset⟩).1 = false)
      (hTurn : recoverTurn rc fuel bg s = .error .bug)
  | halted
      {halt : Halt}
      (hInsert : (insertCacheExtent rc.color s.chunk
        ⟨0, bg.objectid, bg.offset⟩).1 = true)
      (hJudge : judge rc fuel bg (rc.extentsOf bg.objectid) =
        .error halt)
      (hTurn : recoverTurn rc fuel bg s = .error halt)
  | placed
      {ret : Int}
      {chunk : ChunkRecord}
      {s' : State}
      (hInsert : (insertCacheExtent rc.color s.chunk
        ⟨0, bg.objectid, bg.offset⟩).1 = true)
      (hJudge : judge rc fuel bg (rc.extentsOf bg.objectid) =
        .ok (ret, chunk))
      (hTurn : recoverTurn rc fuel bg s = .ok s')
      (hBehind : Behind rc (front ++ [bg]) s')
      (hKept : ∀ other, other ∈ s'.kept ↔
        other ∈ s.kept ∨ other = chunk ∧ 0 ≤ ret) :
      Turned rc fuel front bg s

theorem Behind.turn
    (hBehind : Behind rc front s)
    (hApart : ∀ other ∈ front, other.objectid ≠ bg.objectid)
    (fuel : Nat) :
    Turned rc fuel front bg s := by
  have hTurn :=
    recoverTurn_judge rc fuel (hBehind.get hApart)
  cases hInsert : insertCacheExtent rc.color s.chunk
      ⟨0, bg.objectid, bg.offset⟩ with
  | mk inserted tree =>
      rw [hInsert] at hTurn
      cases inserted with
      | false => exact .refused (by rw [hInsert]) hTurn
      | true =>
          cases hJudge : judge rc fuel bg
              (rc.extentsOf bg.objectid) with
          | error halt =>
              rw [hJudge] at hTurn
              exact .halted (by rw [hInsert]) hJudge hTurn
          | ok out =>
              rcases out with ⟨ret, chunk⟩
              rw [hJudge] at hTurn
              have hChunk := judge_chunk hJudge
              refine .placed (by rw [hInsert]) hJudge hTurn ?_
                (fun other => mem_put_kept)
              have hPut := put_chunks
                { s with
                  no_chunk_orphans :=
                    rc.no_chunk_orphans.filter fun devext =>
                      devext.chunk_offset ∉ (front ++ [bg]).map
                        BlockGroupRecord.objectid
                  chunk := tree } ret chunk
              exact
                { orphans := by
                    unfold State.put
                    split_ifs <;> rfl
                  listed := by
                    refine (hPut.map _).trans ?_
                    rw [List.map_cons, hChunk.bg_rec]
                    exact (hBehind.listed.cons bg).trans
                      (List.perm_append_singleton bg front).symm
                  chunk := fun other hOther => by
                    rcases List.mem_cons.mp
                      (hPut.mem_iff.mp hOther) with rfl | hOld
                    · rw [hChunk.bg_rec]
                      exact hChunk
                    · exact hBehind.chunk other hOld }

/- The loop over two parts of the groups. -/
theorem recoverLoop_append
    (hFront : recoverLoop rc fuel front s = (none, s')) :
    recoverLoop rc fuel (front ++ back) s =
      recoverLoop rc fuel back s' := by
  induction front generalizing s with
  | nil =>
      cases hFront
      rfl
  | cons bg front ih =>
      unfold recoverLoop at hFront
      rw [List.cons_append]
      conv_lhs => unfold recoverLoop
      cases hTurn : recoverTurn rc fuel bg s with
      | error halt =>
          rw [hTurn] at hFront
          cases hFront
      | ok next =>
          rw [hTurn] at hFront
          exact ih hFront

theorem recoverLoop_cons_of_error
    {halt : Halt}
    (hTurn : recoverTurn rc fuel bg s = .error halt) :
    recoverLoop rc fuel (bg :: groups) s = (some halt, s) := by
  rw [recoverLoop, hTurn]

theorem recoverLoop_cons_of_ok
    (hTurn : recoverTurn rc fuel bg s = .ok s') :
    recoverLoop rc fuel (bg :: groups) s =
      recoverLoop rc fuel groups s' := by
  rw [recoverLoop, hTurn]

/- In a run the groups before differ from a group. -/
theorem apart_front
    (hGroups : rc.block_groups = front ++ bg :: back) :
    ∀ other ∈ front, other.objectid ≠ bg.objectid := by
  have hApart := rc.apart
  rw [hGroups] at hApart
  exact fun other hOther =>
    (List.pairwise_append.mp hApart).2.2 other hOther bg
      List.mem_cons_self

/- Sound device extents make no division by zero. -/
theorem Sound.not_trap
    (hSound : Sound rc fuel bg) :
    judge rc fuel bg (rc.extentsOf bg.objectid) ≠
      .error .trap := by
  intro hTrap
  rcases judge_trap_iff.mp hTrap with ⟨hCounted, hCause⟩
  have hFor := hSound hCounted
  rcases hCause with hNone | ⟨hMeta, hOrdered, hSome, hDivides⟩
  · exact hFor.length hNone
  · exact hDivides (hFor.index hMeta hOrdered hSome)

theorem Sound.fits
    {ret : Int}
    {chunk : ChunkRecord}
    (hSound : Sound rc fuel bg)
    (hJudge : judge rc fuel bg (rc.extentsOf bg.objectid) =
      .ok (ret, chunk))
    (hRet : 0 ≤ ret) :
    Fits rc chunk := by
  have hChunk := judge_chunk hJudge
  rcases judge_good hJudge hRet with ⟨hCounted, hRebuilds⟩
  have hFor := hSound hCounted
  constructor
  · rw [hChunk.type_flags, hChunk.offset]
    exact hCounted.2
  · rw [hChunk.type_flags, hChunk.offset, hChunk.length]
    exact hFor.lengths hRebuilds

/- What the loop makes of a state, over the groups behind. -/
structure Rests
    (rc : RecoverControl)
    (fuel : Nat)
    (groups : List BlockGroupRecord)
    (s : State)
    (out : Option Halt × State) : Prop where
  behind : ∃ front, Behind rc front out.2 ∧
    front <+: groups ∧ (out.1 = none → front = groups)
  grows : ∀ chunk ∈ s.kept, chunk ∈ out.2.kept
  sound : (∀ bg, ComesTo rc fuel bg → Sound rc fuel bg) →
    (∀ chunk ∈ s.kept, Fits rc chunk) →
      out.1 ≠ some .trap ∧
        ∀ chunk ∈ out.2.kept, Fits rc chunk

theorem recoverLoop_rests
    (fuel : Nat)
    (front back more : List BlockGroupRecord)
    (hGroups : rc.block_groups = front ++ back ++ more)
    (hFront : recoverLoop rc fuel front rc.start = (none, s))
    (hBehind : Behind rc front s) :
    Rests rc fuel (front ++ back) s
      (recoverLoop rc fuel back s) := by
  induction back generalizing front s with
  | nil =>
      exact
        { behind := ⟨front, hBehind, List.prefix_append _ _,
            fun _ => (List.append_nil front).symm⟩
          grows := fun _ hIn => hIn
          sound := fun _ hFits =>
            ⟨(fun hIs => by cases hIs), hFits⟩ }
  | cons bg back ih =>
      have hSplit :
          rc.block_groups = front ++ bg :: (back ++ more) := by
        rw [hGroups, List.append_assoc]
        rfl
      have hComes : (insertCacheExtent rc.color s.chunk
          ⟨0, bg.objectid, bg.offset⟩).1 = true →
          ComesTo rc fuel bg :=
        fun hInsert =>
          ⟨front, back ++ more, s, hSplit, hFront, hInsert⟩
      cases hBehind.turn (apart_front hSplit) fuel with
      | refused hInsert hTurn =>
          rw [recoverLoop_cons_of_error hTurn]
          exact
            { behind :=
                ⟨front, hBehind, List.prefix_append _ _,
                  fun hIs => by cases hIs⟩
              grows := fun _ hIn => hIn
              sound := fun _ hFits =>
                ⟨(fun hIs => by cases hIs), hFits⟩ }
      | @halted halt hInsert hJudge hTurn =>
          rw [recoverLoop_cons_of_error hTurn]
          refine
            { behind :=
                ⟨front, hBehind, List.prefix_append _ _,
                  fun hIs => by cases hIs⟩
              grows := fun _ hIn => hIn
              sound := fun hSound hFits => ⟨?_, hFits⟩ }
          intro hIs
          cases hIs
          exact (hSound bg (hComes hInsert)).not_trap hJudge
      | @placed ret chunk s' hInsert hJudge hTurn hNext hKept =>
          rw [recoverLoop_cons_of_ok hTurn]
          have hParts : front ++ [bg] ++ back =
              front ++ bg :: back := by
            rw [List.append_assoc]
            rfl
          have hRests := ih _ (by rw [hParts, hGroups])
            ((recoverLoop_append hFront).trans
              ((recoverLoop_cons_of_ok hTurn).trans rfl))
            hNext
          rw [hParts] at hRests
          refine
            { behind := hRests.behind
              grows := fun other hOther =>
                hRests.grows other ((hKept other).mpr
                  (.inl hOther))
              sound := fun hSound hFits =>
                hRests.sound hSound fun other hOther => ?_ }
          rcases (hKept other).mp hOther with
            hOld | ⟨rfl, hRet⟩
          · exact hFits other hOld
          · exact (hSound bg (hComes hInsert)).fits hJudge hRet

/- No device extent is attached to two chunks. -/
theorem Behind.once
    (hBehind : Behind rc front s)
    (hApart : front.Pairwise fun a b =>
      a.objectid ≠ b.objectid) :
    (s.chunks.flatMap ChunkRecord.dextents).Nodup := by
  rw [List.nodup_flatMap]
  constructor
  · intro chunk hChunk
    rcases (hBehind.chunk chunk hChunk).dextents with
      ⟨part, hPerm, hSublist⟩
    exact hPerm.nodup_iff.mp
      ((rc.once.filter _).sublist hSublist)
  · have hPairs : s.chunks.Pairwise fun a b =>
        a.bg_rec.objectid ≠ b.bg_rec.objectid := by
      have hAll := (hBehind.listed.pairwise_iff
        (fun hNe => Ne.symm hNe)).mpr hApart
      exact (List.pairwise_map
        (R := fun a b : BlockGroupRecord =>
          a.objectid ≠ b.objectid)).mp hAll
    have hMem : ∀ chunk ∈ s.chunks,
        ∀ devext ∈ chunk.dextents,
          devext.chunk_offset = chunk.bg_rec.objectid := by
      intro chunk hChunk devext hDevext
      have hSub := (hBehind.chunk chunk hChunk).dextents
      have hIn := hSub.subset hDevext
      simpa using (List.mem_filter.mp hIn).2
    refine hPairs.imp_of_mem fun hA hB hNe => ?_
    intro devext hFirst hSecond
    apply hNe
    rw [← hMem _ hA devext hFirst, ← hMem _ hB devext hSecond]

/- The state behind a part of the groups that is gone through. -/
theorem behind_of_front
    (hGroups : rc.block_groups = front ++ back)
    (hFront : recoverLoop rc fuel front rc.start = (none, s)) :
    Behind rc front s := by
  have hRests := recoverLoop_rests fuel [] front back hGroups
    rfl (behind_start rc)
  rw [hFront] at hRests
  rcases hRests.behind with ⟨whole, hBehind, _, hWhole⟩
  rw [hWhole rfl] at hBehind
  exact hBehind

/- What becomes of a group that the loop comes to. -/
theorem ComesTo.turn
    (hComes : ComesTo rc fuel bg) :
    (judge rc fuel bg (rc.extentsOf bg.objectid) ≠
        .error .trap ∨
      (recoverChunks rc fuel).1 = some .trap) ∧
    ∀ ret chunk,
      judge rc fuel bg (rc.extentsOf bg.objectid) =
          .ok (ret, chunk) →
        0 ≤ ret → chunk ∈ (recoverChunks rc fuel).2.kept := by
  rcases hComes with
    ⟨front, back, s, hGroups, hFront, hInsert⟩
  have hBehind := behind_of_front hGroups hFront
  have hRun : recoverChunks rc fuel =
      recoverLoop rc fuel (bg :: back) s := by
    unfold recoverChunks
    rw [hGroups]
    exact recoverLoop_append hFront
  rw [hRun]
  cases hBehind.turn (apart_front hGroups) fuel with
  | refused hRefused =>
      rw [hInsert] at hRefused
      cases hRefused
  | @halted halt _ hJudge hTurn =>
      rw [recoverLoop_cons_of_error hTurn, hJudge]
      constructor
      · by_cases hTrap : halt = .trap
        · exact .inr (congrArg some hTrap)
        · exact .inl fun hIs => by
            cases hIs
            exact hTrap rfl
      · intro ret chunk hIs
        cases hIs
  | @placed ret chunk s' _ hJudge hTurn hNext hKept =>
      rw [recoverLoop_cons_of_ok hTurn, hJudge]
      refine ⟨.inl (fun hIs => by cases hIs), ?_⟩
      intro ret' chunk' hIs hRet
      cases hIs
      have hRests := recoverLoop_rests fuel (front ++ [bg])
        back [] (by rw [hGroups]; simp)
        ((recoverLoop_append hFront).trans
          ((recoverLoop_cons_of_ok hTurn).trans rfl)) hNext
      exact hRests.grows chunk
        ((hKept chunk).mpr (.inr ⟨rfl, hRet⟩))

end Runs

----------
-- Consistency
----------

/-
  The recovery is consistent exactly if every block group that
  it comes to is sound: there is no division by zero for its
  extents, and they are as long as they should be where their
  chunk is rebuilt.
-/
theorem recoverChunks_consistent_iff
    (rc : RecoverControl)
    (fuel : Nat) :
    Consistent rc (recoverChunks rc fuel) ↔
      ∀ bg, ComesTo rc fuel bg → Sound rc fuel bg := by
  have hRests : Rests rc fuel rc.block_groups rc.start
      (recoverChunks rc fuel) :=
    recoverLoop_rests fuel [] rc.block_groups []
      (List.append_nil rc.block_groups).symm rfl
      (behind_start rc)
  constructor
  · intro hConsistent bg hComes hCounted
    rcases hComes.turn with ⟨hTrap, hPlaced⟩
    have hNot := hTrap.resolve_right hConsistent.divides
    rw [Ne, judge_trap_iff, not_and] at hNot
    have hCause := not_or.mp (hNot hCounted)
    refine
      { length := hCause.1
        index := fun hMeta hOrdered hSome => by
          by_contra hDivides
          exact hCause.2 ⟨hMeta, hOrdered, hSome, hDivides⟩
        lengths := fun hRebuilds => ?_ }
    rcases judge_rebuilds hCounted hCause.1 hRebuilds with
      ⟨ret, chunk, hJudge, hRet⟩
    have hFits := (hConsistent.fits chunk
      (hPlaced ret chunk hJudge hRet)).lengths
    have hChunk := judge_chunk hJudge
    rw [hChunk.type_flags, hChunk.length, hChunk.offset] at hFits
    exact hFits
  · intro hSound
    have hOut := hRests.sound hSound fun _ hIn => by cases hIn
    rcases hRests.behind with
      ⟨front, hBehind, hPrefix, hWhole⟩
    exact
      { divides := hOut.1
        fits := hOut.2
        listed := fun hNone => by
          rw [← hWhole hNone]
          exact hBehind.listed
        once := hBehind.once
          (rc.apart.sublist hPrefix.sublist) }

/- A group of 8 MiB of some flags, and nothing else but these. -/
def oneGroup
    (flags : Nat)
    (orphans : List DeviceExtentRecord)
    (hOnce : orphans.Nodup) : RecoverControl where
  block_groups := [⟨1073741824, 8388608, flags⟩]
  no_chunk_orphans := orphans
  chunk := .leaf
  color := ExtentCaches.unturned
  eb_cache := .leaf
  devices := [1, 2]
  apart := List.pairwise_singleton _ _
  once := hOnce

/- Two copies of the data, and the second is half as long. -/
def halfCopy : RecoverControl :=
  oneGroup 17
    [⟨1, 1048576, 1073741824, 8388608⟩,
      ⟨2, 1048576, 1073741824, 4194304⟩] (by decide)

/- Data with parity, and one device extent. -/
def oneOfRaid5 : RecoverControl :=
  oneGroup 129 [⟨1, 1048576, 1073741824, 8388608⟩]
    (by decide)

/- A chunk of wrong lengths is good, and a division traps. -/
theorem recoverChunks_not_consistent :
    ¬ Consistent halfCopy (recoverChunks halfCopy 0) ∧
      ¬ Consistent oneOfRaid5 (recoverChunks oneOfRaid5 0) := by
  constructor
  · intro hConsistent
    have hGood : ∃ chunk,
        (recoverChunks halfCopy 0).2.kept = [chunk] ∧
          chunk.type_flags = 17 ∧ chunk.length = 8388608 ∧
          chunk.offset = 1073741824 :=
      ⟨_, rfl, rfl, rfl, rfl⟩
    rcases hGood with ⟨chunk, hKept, hFlags, hLength, hOffset⟩
    have hFits := (hConsistent.fits chunk (by
      rw [hKept]
      exact List.mem_singleton_self chunk)).lengths
    rw [hFlags, hLength, hOffset] at hFits
    have hHalf := hFits ⟨2, 1048576, 1073741824, 4194304⟩
      (by decide)
    exact absurd hHalf (by decide)
  · intro hConsistent
    exact hConsistent.divides rfl

end OrphanChunks

end BtrfsProgs
