import BtrfsProgs.ExtentCaches.Objects
import BtrfsProgs.Lib.OneToOne

/-
  `check_chunks`, from `cmds-check.c`: whether the chunks, the
  block groups and the device extents fit together.

  Main declarations:
    * `calcStripeLength`
    * `checkChunkRefs` and `checkChunks`
    * `checkChunks_zero_iff`
-/

----------
-- Records
----------

namespace BtrfsProgs

namespace Check

namespace ChunkRecords

open ExtentCaches

structure Stripe where
  devid : Nat
  offset : Nat
deriving DecidableEq

/-
  `struct chunk_record`, with its stripes, as many as a `u16`
  can count.
-/
structure ChunkRecord where
  offset : Nat
  length : Nat
  type_flags : Nat
  sub_stripes : Nat
  stripes : List Stripe
  few : stripes.length < 2 ^ 16
deriving DecidableEq

def ChunkRecord.num_stripes
    (chunk : ChunkRecord) : Nat :=
  chunk.stripes.length

structure BlockGroupRecord where
  objectid : Nat
  offset : Nat
  flags : Nat
deriving DecidableEq

structure DeviceExtentRecord where
  objectid : Nat
  offset : Nat
  chunk_offset : Nat
  length : Nat
deriving DecidableEq

/- The cache entries that are embedded in the records. -/
def BlockGroupRecord.cache
    (rec : BlockGroupRecord) : ExtentCaches.CacheExtent :=
  ⟨0, rec.objectid, rec.offset⟩

def DeviceExtentRecord.cache
    (rec : DeviceExtentRecord) : ExtentCaches.CacheExtent :=
  ⟨rec.objectid, rec.offset, rec.length⟩

/-
  `struct block_group_tree`, with the record that each entry
  is in: the ranges are disjoint, and no two are the same.
-/
structure BlockGroupTree where
  tree : SearchTree ExtentCaches.CacheExtent
  record : ExtentCaches.CacheExtent → BlockGroupRecord
  block_groups : List BlockGroupRecord
  embedded : ∀ e ∈ tree.toList, (record e).cache = e
  listed : block_groups.Perm (tree.toList.map record)
  disjoint : Disjoint tree
  nodup : tree.toList.Nodup

/- Two entries at one place of one device. -/
def SamePlace
    (a b : ExtentCaches.CacheExtent) : Prop :=
  a.objectid = b.objectid ∧ a.start = b.start

/-
  `struct device_extent_tree`: the ranges of each device are
  disjoint, and start at different places.
-/
structure DeviceExtentTree where
  tree : SearchTree ExtentCaches.CacheExtent
  record : ExtentCaches.CacheExtent → DeviceExtentRecord
  no_chunk_orphans : List DeviceExtentRecord
  embedded : ∀ e ∈ tree.toList, (record e).cache = e
  listed : no_chunk_orphans.Perm (tree.toList.map record)
  apart : Apart tree
  places : tree.toList.Pairwise fun a b => ¬ SamePlace a b

----------
-- Stripe Lengths
----------

/- The bits `BTRFS_BLOCK_GROUP_…` of the profiles. -/
def RAID0 : Nat := 3

def RAID1 : Nat := 4

def DUP : Nat := 5

def RAID10 : Nat := 6

def RAID5 : Nat := 7

def RAID6 : Nat := 8

/- A division of two `u64`, which traps for 0. -/
def divide
    (a b : Nat) : Option Nat :=
  if b = 0 then none else some (a / b)

/- A difference of two `int`, as a `u64`. -/
def less
    (a b : Nat) : Nat :=
  (a + 2 ^ 64 - b) % 2 ^ 64

/- `calc_stripe_length` -/
def calcStripeLength
    (type length num_stripes : Nat) : Option Nat :=
  if type.testBit RAID0 then divide length num_stripes
  else if type.testBit RAID10 then
    divide (length * 2 % 2 ^ 64) num_stripes
  else if type.testBit RAID5 then
    divide length (less num_stripes 1)
  else if type.testBit RAID6 then
    divide length (less num_stripes 2)
  else some length

/- How often a length on a device counts for the chunk. -/
def chunkFactor
    (type num_stripes sub_stripes : Nat) : Option Nat :=
  if type.testBit RAID1 ∨ type.testBit DUP then some 1
  else if type.testBit RAID10 then
    divide num_stripes sub_stripes
  else if type.testBit RAID5 then some (less num_stripes 1)
  else if type.testBit RAID6 then some (less num_stripes 2)
  else some num_stripes

----------
-- The Check
----------

/- The records that no chunk has been found for. -/
structure Lists where
  block_groups : List BlockGroupRecord
  no_chunk_orphans : List DeviceExtentRecord

/- The block group that is found for a chunk, if it fits. -/
def groupOf
    (groups : BlockGroupTree)
    (chunk : ChunkRecord) : Option BlockGroupRecord :=
  match
    ExtentCaches.lookupCacheExtent groups.tree chunk.offset chunk.length
  with
  | none => none
  | some item =>
      let group := groups.record item.node
      if chunk.length ≠ group.offset ∨
          chunk.offset ≠ group.objectid ∨
          chunk.type_flags ≠ group.flags then none
      else some group

/- The device extent that is found for a stripe, if it fits. -/
def extentOf
    (extents : DeviceExtentTree)
    (chunk : ChunkRecord)
    (length : Nat)
    (stripe : Stripe) : Option DeviceExtentRecord :=
  match
    lookupCacheExtent2 extents.tree stripe.devid stripe.offset
      length
  with
  | none => none
  | some item =>
      let extent := extents.record item.node
      if extent.objectid ≠ stripe.devid ∨
          extent.offset ≠ stripe.offset ∨
          extent.chunk_offset ≠ chunk.offset ∨
          extent.length ≠ length then none
      else some extent

/- `check_chunk_refs`, up to the loop. -/
def checkBlockGroup
    (groups : BlockGroupTree)
    (chunk : ChunkRecord)
    (lists : Lists) : Int × Lists :=
  match groupOf groups chunk with
  | none => (-1, lists)
  | some rec =>
      (0, { lists with
        block_groups := lists.block_groups.erase rec })

/- A turn of the loop. -/
def checkStripe
    (extents : DeviceExtentTree)
    (chunk : ChunkRecord)
    (length : Nat)
    (s : Int × Lists)
    (stripe : Stripe) : Int × Lists :=
  match extentOf extents chunk length stripe with
  | none => (-1, s.2)
  | some rec =>
      (s.1, { s.2 with
        no_chunk_orphans := s.2.no_chunk_orphans.erase rec })

/- `check_chunk_refs`; none is a division by zero. -/
def checkChunkRefs
    (groups : BlockGroupTree)
    (extents : DeviceExtentTree)
    (chunk : ChunkRecord)
    (lists : Lists) : Option (Int × Lists) :=
  let s := checkBlockGroup groups chunk lists
  match
    calcStripeLength chunk.type_flags chunk.length
      chunk.num_stripes
  with
  | none => none
  | some length =>
      some (chunk.stripes.foldl
        (checkStripe extents chunk length) s)

/- The loop over the chunks. -/
def checkEach
    (groups : BlockGroupTree)
    (extents : DeviceExtentTree) :
    List ChunkRecord → Int × Lists → Option (Int × Lists)
  | [], s => some s
  | chunk :: rest, (ret, lists) =>
      match checkChunkRefs groups extents chunk lists with
      | none => none
      | some (err, lists) =>
          checkEach groups extents rest
            (if err ≠ 0 then err else ret, lists)

/- A list that is not empty is an error of its own. -/
def checkLeft
    {α : Type}
    (left : List α)
    (ret : Int) : Int :=
  if left ≠ [] ∧ ret = 0 then 1 else ret

/-
  `check_chunks`, with the chunks in the order of their
  cache.
-/
def checkChunks
    (chunks : List ChunkRecord)
    (groups : BlockGroupTree)
    (extents : DeviceExtentTree) : Option Int :=
  match
    checkEach groups extents chunks
      (0, ⟨groups.block_groups, extents.no_chunk_orphans⟩)
  with
  | none => none
  | some (ret, lists) =>
      some (checkLeft lists.no_chunk_orphans
        (checkLeft lists.block_groups ret))

----------
-- What Is Found
----------

/- Equal start, length and flags. -/
structure SameGroup
    (chunk : ChunkRecord)
    (group : BlockGroupRecord) : Prop where
  start : group.objectid = chunk.offset
  length : group.offset = chunk.length
  flags : group.flags = chunk.type_flags

/- A stripe, with its chunk. -/
abbrev ChunkStripe : Type := ChunkRecord × Stripe

def stripesOf
    (chunks : List ChunkRecord) : List ChunkStripe :=
  chunks.flatMap fun chunk => chunk.stripes.map (chunk, ·)

/- Equal device, offset and chunk offset. -/
structure At
    (x : ChunkStripe)
    (extent : DeviceExtentRecord) : Prop where
  device : extent.objectid = x.2.devid
  offset : extent.offset = x.2.offset
  chunk : extent.chunk_offset = x.1.offset

variable {groups : BlockGroupTree}
variable {extents : DeviceExtentTree}
variable {chunk : ChunkRecord}

theorem mem_stripesOf
    {chunks : List ChunkRecord}
    {x : ChunkStripe} :
    x ∈ stripesOf chunks ↔
      x.1 ∈ chunks ∧ x.2 ∈ x.1.stripes := by
  unfold stripesOf
  rw [List.mem_flatMap]
  constructor
  · intro hMem
    rcases hMem with ⟨chunk, hChunk, hStripe⟩
    rcases List.mem_map.mp hStripe with ⟨stripe, hIn, rfl⟩
    exact ⟨hChunk, hIn⟩
  · intro hBoth
    exact ⟨x.1, hBoth.1, List.mem_map.mpr ⟨x.2, hBoth.2, rfl⟩⟩

theorem BlockGroupTree.mem_block_groups
    {group : BlockGroupRecord} :
    group ∈ groups.block_groups ↔
      group.cache ∈ groups.tree.toList ∧
        groups.record group.cache = group := by
  rw [groups.listed.mem_iff, List.mem_map]
  constructor
  · intro hMem
    rcases hMem with ⟨e, he, rfl⟩
    rw [groups.embedded e he]
    exact ⟨he, rfl⟩
  · intro hBoth
    exact ⟨group.cache, hBoth.1, hBoth.2⟩

theorem DeviceExtentTree.mem_no_chunk_orphans
    {extent : DeviceExtentRecord} :
    extent ∈ extents.no_chunk_orphans ↔
      extent.cache ∈ extents.tree.toList ∧
        extents.record extent.cache = extent := by
  rw [extents.listed.mem_iff, List.mem_map]
  constructor
  · intro hMem
    rcases hMem with ⟨e, he, rfl⟩
    rw [extents.embedded e he]
    exact ⟨he, rfl⟩
  · intro hBoth
    exact ⟨extent.cache, hBoth.1, hBoth.2⟩

/- A chunk finds its block group, unless it is empty. -/
theorem groupOf_iff
    {group : BlockGroupRecord} :
    groupOf groups chunk = some group ↔
      group ∈ groups.block_groups ∧ SameGroup chunk group ∧
        0 < chunk.length := by
  unfold groupOf
  rw [BlockGroupTree.mem_block_groups]
  constructor
  · intro hFound
    cases hLookup : ExtentCaches.lookupCacheExtent groups.tree chunk.offset
        chunk.length with
    | none =>
        rw [hLookup] at hFound
        cases hFound
    | some item =>
        rw [hLookup] at hFound
        dsimp only at hFound
        by_cases hOther :
            chunk.length ≠ (groups.record item.node).offset ∨
            chunk.offset ≠ (groups.record item.node).objectid ∨
            chunk.type_flags ≠ (groups.record item.node).flags
        · rw [if_pos hOther] at hFound
          cases hFound
        · rw [if_neg hOther] at hFound
          cases hFound
          have hMem := lookupCacheExtent_mem hLookup
          have hCache := groups.embedded _ hMem
          have hStart : item.node.start = chunk.offset := by
            rw [← hCache]
            dsimp only [BlockGroupRecord.cache]
            omega
          rw [← hStart] at hLookup
          have hPos := lookupCacheExtent_pos groups.disjoint
            hLookup
          rw [hCache]
          exact ⟨⟨hMem, rfl⟩,
            ⟨by omega, by omega, by omega⟩, hPos⟩
  · intro hBoth
    rcases hBoth with ⟨⟨hMem, hRecord⟩, hSame, hPos⟩
    rcases lookupCacheExtent_self groups.disjoint hMem
        (by rw [← hSame.length] at hPos; exact hPos) with
      ⟨item, hLookup, hNode⟩
    have hThere : ExtentCaches.lookupCacheExtent groups.tree chunk.offset
        chunk.length = some item := by
      rw [← hSame.start, ← hSame.length]
      exact hLookup
    rw [hThere]
    dsimp only
    rw [hNode, hRecord, if_neg]
    have hStart := hSame.start
    have hLength := hSame.length
    have hFlags := hSame.flags
    omega

/- A stripe finds its device extent, unless that is empty. -/
theorem extentOf_iff
    {length : Nat}
    {stripe : Stripe}
    {extent : DeviceExtentRecord} :
    extentOf extents chunk length stripe = some extent ↔
      extent ∈ extents.no_chunk_orphans ∧
        At (chunk, stripe) extent ∧ extent.length = length ∧
        0 < length := by
  unfold extentOf
  rw [DeviceExtentTree.mem_no_chunk_orphans]
  constructor
  · intro hFound
    cases hLookup : lookupCacheExtent2 extents.tree
        stripe.devid stripe.offset length with
    | none =>
        rw [hLookup] at hFound
        cases hFound
    | some item =>
        rw [hLookup] at hFound
        dsimp only at hFound
        by_cases hOther :
            (extents.record item.node).objectid ≠
                stripe.devid ∨
            (extents.record item.node).offset ≠
                stripe.offset ∨
            (extents.record item.node).chunk_offset ≠
                chunk.offset ∨
            (extents.record item.node).length ≠ length
        · rw [if_pos hOther] at hFound
          cases hFound
        · rw [if_neg hOther] at hFound
          cases hFound
          have hMem := lookupCacheExtent2_mem hLookup
          have hCache := extents.embedded _ hMem
          have hDevice : (extents.record item.node).objectid =
              stripe.devid := by omega
          have hOffset : (extents.record item.node).offset =
              stripe.offset := by omega
          have hChunk : (extents.record item.node).chunk_offset =
              chunk.offset := by omega
          have hStart : item.node.start = stripe.offset := by
            rw [← hCache]
            exact hOffset
          rw [← hStart] at hLookup
          have hPos := lookupCacheExtent2_pos extents.apart
            hLookup
          rw [hCache]
          exact ⟨⟨hMem, rfl⟩, ⟨hDevice, hOffset, hChunk⟩,
            by omega, hPos⟩
  · intro hBoth
    rcases hBoth with ⟨⟨hMem, hRecord⟩, hAt, rfl, hPos⟩
    rcases lookupCacheExtent2_self extents.apart hMem hPos with
      ⟨item, hLookup, hNode⟩
    have hThere : lookupCacheExtent2 extents.tree stripe.devid
        stripe.offset extent.length = some item := by
      have hDevice : extent.objectid = stripe.devid := hAt.device
      have hOffset : extent.offset = stripe.offset := hAt.offset
      rw [← hDevice, ← hOffset]
      exact hLookup
    rw [hThere]
    dsimp only
    rw [hNode, hRecord, if_neg]
    have hDevice : extent.objectid = stripe.devid := hAt.device
    have hOffset : extent.offset = stripe.offset := hAt.offset
    have hChunk : extent.chunk_offset = chunk.offset := hAt.chunk
    omega

----------
-- Runs
----------

/- The length that is looked for on the devices. -/
def ChunkRecord.stripeLength
    (chunk : ChunkRecord) : Option Nat :=
  calcStripeLength chunk.type_flags chunk.length
    chunk.num_stripes

/- What is found for a stripe. -/
def foundFor
    (extents : DeviceExtentTree)
    (x : ChunkStripe) : Option DeviceExtentRecord :=
  x.1.stripeLength.bind fun length =>
    extentOf extents x.1 length x.2

/- A turn without an error, for a stripe. -/
theorem checkStripe_run
    (extents : DeviceExtentTree)
    (chunk : ChunkRecord)
    (length : Nat)
    (stripes : List Stripe)
    (s : Int × Lists) :
    let r := stripes.foldl (checkStripe extents chunk length) s
    r.2 =
        ⟨s.2.block_groups, s.2.no_chunk_orphans.diff
          (stripes.filterMap
            (extentOf extents chunk length))⟩ ∧
      (r.1 = 0 ↔ s.1 = 0 ∧ ∀ stripe ∈ stripes,
        (extentOf extents chunk length stripe).isSome) := by
  induction stripes generalizing s with
  | nil => simp
  | cons stripe rest ih =>
      have hRest := ih (checkStripe extents chunk length s
        stripe)
      rw [List.foldl_cons]
      refine ⟨hRest.1.trans ?_, hRest.2.trans ?_⟩
      · unfold checkStripe
        cases hFound : extentOf extents chunk length stripe with
        | none => rw [List.filterMap_cons_none hFound]
        | some extent =>
            rw [List.filterMap_cons_some hFound,
              List.diff_cons]
      · unfold checkStripe
        rw [List.forall_mem_cons]
        cases hFound : extentOf extents chunk length stripe with
        | none => simp
        | some extent => simp

theorem checkChunkRefs_run
    (groups : BlockGroupTree)
    (extents : DeviceExtentTree)
    {length : Nat}
    (hLength : chunk.stripeLength = some length)
    (lists : Lists) :
    ∃ err,
      checkChunkRefs groups extents chunk lists =
          some (err,
            ⟨lists.block_groups.diff
                (groupOf groups chunk).toList,
              lists.no_chunk_orphans.diff
                (chunk.stripes.filterMap
                  (extentOf extents chunk length))⟩) ∧
        (err = 0 ↔ (groupOf groups chunk).isSome ∧
          ∀ stripe ∈ chunk.stripes,
            (extentOf extents chunk length stripe).isSome) := by
  have hRun := checkStripe_run extents chunk length
    chunk.stripes (checkBlockGroup groups chunk lists)
  have hGroup : checkBlockGroup groups chunk lists =
      (if (groupOf groups chunk).isSome then 0 else -1,
        { lists with
          block_groups := lists.block_groups.diff
            (groupOf groups chunk).toList }) := by
    unfold checkBlockGroup
    cases groupOf groups chunk with
    | none => rfl
    | some group =>
        rw [Option.toList_some, List.diff_cons, List.diff_nil]
        rfl
  rw [hGroup] at hRun
  unfold checkChunkRefs
  dsimp only
  rw [show calcStripeLength chunk.type_flags chunk.length
    chunk.num_stripes = some length from hLength]
  rw [hGroup]
  refine ⟨_, congrArg some (Prod.ext rfl hRun.1),
    hRun.2.trans ?_⟩
  cases groupOf groups chunk with
  | none => simp
  | some group => simp

theorem filterMap_foundFor
    {length : Nat}
    (hLength : chunk.stripeLength = some length) :
    (chunk.stripes.map (chunk, ·)).filterMap
        (foundFor extents) =
      chunk.stripes.filterMap
        (extentOf extents chunk length) := by
  rw [List.filterMap_map]
  congr 1
  funext stripe
  unfold foundFor
  rw [Function.comp_apply, hLength]
  rfl

/- The lists without what has been found, and the verdict. -/
theorem checkEach_run
    (groups : BlockGroupTree)
    (extents : DeviceExtentTree)
    (chunks : List ChunkRecord)
    (hLengths : ∀ chunk ∈ chunks, chunk.stripeLength.isSome)
    (ret : Int)
    (lists : Lists) :
    ∃ ret',
      checkEach groups extents chunks (ret, lists) =
          some (ret',
            ⟨lists.block_groups.diff
                (chunks.filterMap (groupOf groups)),
              lists.no_chunk_orphans.diff
                ((stripesOf chunks).filterMap
                  (foundFor extents))⟩) ∧
        (ret' = 0 ↔ ret = 0 ∧
          (∀ chunk ∈ chunks, (groupOf groups chunk).isSome) ∧
          ∀ x ∈ stripesOf chunks,
            (foundFor extents x).isSome) := by
  induction chunks generalizing ret lists with
  | nil => exact ⟨ret, rfl, by simp [stripesOf]⟩
  | cons chunk rest ih =>
      rcases Option.isSome_iff_exists.mp
        (hLengths chunk List.mem_cons_self) with
        ⟨length, hLength⟩
      rcases checkChunkRefs_run groups extents hLength lists
        with ⟨err, hRefs, hErr⟩
      rcases ih
          (fun c hC => hLengths c (List.mem_cons_of_mem _ hC))
          (if err ≠ 0 then err else ret) _ with
        ⟨ret', hRun, hRet⟩
      refine ⟨ret', ?_, hRet.trans ?_⟩
      · unfold checkEach
        rw [hRefs]
        dsimp only
        rw [hRun]
        unfold stripesOf
        rw [List.flatMap_cons, List.filterMap_append,
          filterMap_foundFor hLength, List.diff_append]
        cases hGroup : groupOf groups chunk with
        | none =>
            rw [List.filterMap_cons_none hGroup]
            rfl
        | some group =>
            rw [List.filterMap_cons_some hGroup, List.diff_cons,
              Option.toList_some, List.diff_cons,
              List.diff_nil]
      · have hHere : (∀ x ∈ chunk.stripes.map (chunk, ·),
            (foundFor extents x).isSome) ↔
            ∀ stripe ∈ chunk.stripes,
              (extentOf extents chunk length stripe).isSome := by
          rw [List.forall_mem_map]
          unfold foundFor
          simp only [hLength, Option.bind_some]
        have hStripes : (∀ x ∈ stripesOf (chunk :: rest),
            (foundFor extents x).isSome) ↔
            (∀ stripe ∈ chunk.stripes,
              (extentOf extents chunk length stripe).isSome) ∧
            ∀ x ∈ stripesOf rest,
              (foundFor extents x).isSome := by
          unfold stripesOf
          rw [List.flatMap_cons, List.forall_mem_append, hHere]
        have hFirst : (if err ≠ 0 then err else ret) = 0 ↔
            ret = 0 ∧ err = 0 := by
          by_cases hZero : err = 0
          · simp [hZero]
          · simp [hZero]
        rw [hFirst, hErr, hStripes, List.forall_mem_cons]
        tauto

/- A division by zero ends the run. -/
theorem checkEach_none
    (groups : BlockGroupTree)
    (extents : DeviceExtentTree)
    (chunks : List ChunkRecord)
    (hTrap : ∃ chunk ∈ chunks, chunk.stripeLength = none)
    (s : Int × Lists) :
    checkEach groups extents chunks s = none := by
  induction chunks generalizing s with
  | nil =>
      rcases hTrap with ⟨chunk, hChunk, _⟩
      cases hChunk
  | cons chunk rest ih =>
      rcases s with ⟨ret, lists⟩
      unfold checkEach
      cases hRefs : checkChunkRefs groups extents chunk lists with
      | none => rfl
      | some s =>
          apply ih
          rcases hTrap with ⟨c, hC, hNone⟩
          rcases List.mem_cons.mp hC with rfl | hC
          · unfold checkChunkRefs at hRefs
            dsimp only at hRefs
            rw [show calcStripeLength c.type_flags c.length
              c.num_stripes = none from hNone] at hRefs
            cases hRefs
          · exact ⟨c, hC, hNone⟩

----------
-- The Verdict
----------

theorem checkLeft_zero
    {α : Type}
    {left : List α}
    {ret : Int} :
    checkLeft left ret = 0 ↔ ret = 0 ∧ left = [] := by
  unfold checkLeft
  by_cases hNone : left = []
  · simp [hNone]
  · by_cases hRet : ret = 0
    · simp [hNone, hRet]
    · simp [hRet]

theorem BlockGroupTree.nodup_block_groups
    (groups : BlockGroupTree) :
    groups.block_groups.Nodup := by
  rw [groups.listed.nodup_iff]
  refine groups.nodup.map_on ?_
  intro a hA b hB hSame
  rw [← groups.embedded a hA, ← groups.embedded b hB, hSame]

theorem DeviceExtentTree.nodup_no_chunk_orphans
    (extents : DeviceExtentTree) :
    extents.no_chunk_orphans.Nodup := by
  rw [extents.listed.nodup_iff]
  have hNodup : extents.tree.toList.Nodup := by
    refine extents.places.imp ?_
    intro a b hOther hSame
    rw [hSame] at hOther
    exact hOther ⟨rfl, rfl⟩
  refine hNodup.map_on ?_
  intro a hA b hB hSame
  rw [← extents.embedded a hA, ← extents.embedded b hB, hSame]

theorem diff_eq_nil
    {α : Type}
    [DecidableEq α]
    {xs ys : List α}
    (hNodup : xs.Nodup) :
    xs.diff ys = [] ↔ ∀ x ∈ xs, x ∈ ys := by
  rw [List.eq_nil_iff_forall_not_mem]
  apply forall_congr'
  intro x
  rw [hNodup.mem_sdiff_iff]
  tauto

/- 0 is returned where all that is looked for is found. -/
theorem checkChunks_zero_iff
    (chunks : List ChunkRecord)
    (groups : BlockGroupTree)
    (extents : DeviceExtentTree) :
    checkChunks chunks groups extents = some 0 ↔
      (∀ chunk ∈ chunks, chunk.stripeLength.isSome) ∧
        (∀ chunk ∈ chunks, (groupOf groups chunk).isSome) ∧
        (∀ x ∈ stripesOf chunks,
          (foundFor extents x).isSome) ∧
        (∀ group ∈ groups.block_groups, ∃ chunk ∈ chunks,
          groupOf groups chunk = some group) ∧
        ∀ extent ∈ extents.no_chunk_orphans,
          ∃ x ∈ stripesOf chunks,
            foundFor extents x = some extent := by
  by_cases hLengths :
      ∀ chunk ∈ chunks, chunk.stripeLength.isSome
  · rcases checkEach_run groups extents chunks hLengths 0
        ⟨groups.block_groups, extents.no_chunk_orphans⟩ with
      ⟨ret, hRun, hRet⟩
    unfold checkChunks
    rw [hRun]
    dsimp only
    rw [Option.some.injEq, checkLeft_zero, checkLeft_zero, hRet,
      diff_eq_nil groups.nodup_block_groups,
      diff_eq_nil extents.nodup_no_chunk_orphans]
    simp only [List.mem_filterMap]
    tauto
  · refine iff_of_false ?_ (fun h => hLengths h.1)
    push Not at hLengths
    rcases hLengths with ⟨chunk, hChunk, hNone⟩
    have hTrap := checkEach_none groups extents chunks
      ⟨chunk, hChunk, by simpa using hNone⟩
      (0, ⟨groups.block_groups, extents.no_chunk_orphans⟩)
    unfold checkChunks
    rw [hTrap]
    intro hSome
    cases hSome

end ChunkRecords

end Check

end BtrfsProgs
