import BtrfsProgs.Check.ChunkRecords

/-
  What `check_chunks` decides: whether the chunks correspond
  one to one to the block groups, and their stripes to the
  device extents.

  Stripes may share an extent without an error, and the length
  that is looked for is not always the one that the allocator
  gives to a stripe.

  Main declarations:
    * `Records` and `Correspond`
    * `InPlace`, `AsChecked` and `AsAllocated`
    * `ChunkRecord.Regular`
    * `checkChunks_decides_iff`
-/

----------
-- Correspondence
----------

namespace BtrfsProgs

namespace Check

namespace ChunkRecords

open ExtentCaches

/- The records of a file system; no two chunks overlap. -/
structure Records where
  chunks : List ChunkRecord
  groups : BlockGroupTree
  extents : DeviceExtentTree
  disjoint : chunks.Pairwise fun a b =>
    a.offset < b.offset ∧ a.offset + a.length ≤ b.offset

/-
  The length on each device that the formula of the allocator
  gives a chunk for, by a product that is not cut off.
-/
def Implied
    (chunk : ChunkRecord)
    (length : Nat) : Prop :=
  ∃ factor,
    chunkFactor chunk.type_flags chunk.num_stripes
        chunk.sub_stripes = some factor ∧
      length * factor = chunk.length

/- The extent of a stripe. -/
structure StripeExtent
    (x : ChunkStripe)
    (extent : DeviceExtentRecord) : Prop extends
    At x extent where
  length : Implied x.1 extent.length

/- Groups and device extents match the chunks. -/
structure Correspond
    (r : Records) : Prop where
  groups : OneToOne SameGroup r.chunks r.groups.block_groups
  extents : OneToOne StripeExtent (stripesOf r.chunks)
    r.extents.no_chunk_orphans

/- It ends without a trap, and 0 is for a correspondence. -/
def Decides
    (r : Records) : Prop :=
  checkChunks r.chunks r.groups r.extents ≠ none ∧
    (checkChunks r.chunks r.groups r.extents = some 0 ↔
      Correspond r)

----------
-- The Condition
----------

/- The number of stripes is not one that divides by zero. -/
def ChunkRecord.Divides
    (chunk : ChunkRecord) : Prop :=
  if chunk.type_flags.testBit RAID0 ∨
      chunk.type_flags.testBit RAID10 then
    chunk.num_stripes ≠ 0
  else if chunk.type_flags.testBit RAID5 then
    chunk.num_stripes ≠ 1
  else if chunk.type_flags.testBit RAID6 then
    chunk.num_stripes ≠ 2
  else True

/-
  The block groups correspond, and there is an extent at the
  place of every stripe and a stripe at that of every extent,
  of any lengths.
-/
structure InPlace
    (r : Records) : Prop where
  groups : OneToOne SameGroup r.chunks r.groups.block_groups
  stripes : ∀ x ∈ stripesOf r.chunks,
    ∃ extent ∈ r.extents.no_chunk_orphans, At x extent
  extents : ∀ extent ∈ r.extents.no_chunk_orphans,
    ∃ x ∈ stripesOf r.chunks, At x extent

/- The lengths are those of `calc_stripe_length`, and not 0. -/
structure AsChecked
    (r : Records) : Prop where
  chunks : ∀ chunk ∈ r.chunks, 0 < chunk.length
  extents : ∀ x ∈ stripesOf r.chunks,
    ∀ extent ∈ r.extents.no_chunk_orphans, At x extent →
      x.1.stripeLength = some extent.length ∧
        0 < extent.length

/-
  The lengths are those of the allocator, and no two stripes
  of a chunk are at one place.
-/
structure AsAllocated
    (r : Records) : Prop where
  stripes : ∀ chunk ∈ r.chunks, chunk.stripes.Nodup
  extents : ∀ x ∈ stripesOf r.chunks,
    ∀ extent ∈ r.extents.no_chunk_orphans, At x extent →
      Implied x.1 extent.length

/-
  A chunk that is not empty, with its stripes at different
  places, and for which both formulas agree: the length of
  `calc_stripe_length`, as often as the allocator counts it,
  makes up the chunk.
-/
structure ChunkRecord.Regular
    (chunk : ChunkRecord) : Prop where
  filled : 0 < chunk.length
  places : chunk.stripes.Nodup
  agrees :
    chunk.stripes ≠ [] →
      ∃ length, chunk.stripeLength = some length ∧
        Implied chunk length

theorem divide_isSome
    {a b : Nat} :
    (divide a b).isSome ↔ b ≠ 0 := by
  unfold divide
  by_cases hZero : b = 0
  · simp [hZero]
  · simp [hZero]

theorem less_eq_zero
    {a b : Nat}
    (hA : a < 2 ^ 64)
    (hB : b < 2 ^ 64) :
    less a b = 0 ↔ a = b := by
  unfold less
  omega

theorem ChunkRecord.divides_iff
    (chunk : ChunkRecord) :
    chunk.Divides ↔ chunk.stripeLength.isSome := by
  have hFew : chunk.num_stripes < 2 ^ 64 := by
    have hBound := chunk.few
    unfold ChunkRecord.num_stripes
    omega
  unfold ChunkRecord.Divides ChunkRecord.stripeLength
    calcStripeLength
  by_cases hFirst : chunk.type_flags.testBit RAID0 = true
  · rw [if_pos (Or.inl hFirst), if_pos hFirst, divide_isSome]
  by_cases hTenth : chunk.type_flags.testBit RAID10 = true
  · rw [if_pos (Or.inr hTenth), if_neg hFirst, if_pos hTenth,
      divide_isSome]
  rw [if_neg (not_or_intro hFirst hTenth), if_neg hFirst,
    if_neg hTenth]
  by_cases hFifth : chunk.type_flags.testBit RAID5 = true
  · rw [if_pos hFifth, if_pos hFifth, divide_isSome, ne_eq,
      ne_eq, less_eq_zero hFew (by decide)]
  rw [if_neg hFifth, if_neg hFifth]
  by_cases hSixth : chunk.type_flags.testBit RAID6 = true
  · rw [if_pos hSixth, if_pos hSixth, divide_isSome, ne_eq,
      ne_eq, less_eq_zero hFew (by decide)]
  rw [if_neg hSixth, if_neg hSixth]
  exact iff_of_true trivial rfl

----------
-- Places
----------

variable {r : Records}

/- A chunk is known by its offset. -/
theorem Records.chunk_eq
    {a b : ChunkRecord}
    (hA : a ∈ r.chunks)
    (hB : b ∈ r.chunks)
    (hSame : a.offset = b.offset) :
    a = b := by
  by_contra hOther
  have hOrder := either_before r.disjoint hA hB hOther
  omega

theorem Records.nodup_chunks
    (r : Records) :
    r.chunks.Nodup := by
  refine r.disjoint.imp ?_
  intro a b hBefore hSame
  rw [hSame] at hBefore
  exact Nat.lt_irrefl _ hBefore.1

/- A device extent is known by its place. -/
theorem DeviceExtentTree.extent_eq
    {extents : DeviceExtentTree}
    {a b : DeviceExtentRecord}
    (hA : a ∈ extents.no_chunk_orphans)
    (hB : b ∈ extents.no_chunk_orphans)
    (hDevice : a.objectid = b.objectid)
    (hOffset : a.offset = b.offset) :
    a = b := by
  rcases DeviceExtentTree.mem_no_chunk_orphans.mp hA with
    ⟨hEntryA, hRecordA⟩
  rcases DeviceExtentTree.mem_no_chunk_orphans.mp hB with
    ⟨hEntryB, hRecordB⟩
  have hCache : a.cache = b.cache := by
    by_contra hOther
    rcases either_before extents.places hEntryA hEntryB hOther
      with hNot | hNot
    · exact hNot ⟨hDevice, hOffset⟩
    · exact hNot ⟨hDevice.symm, hOffset.symm⟩
  rw [← hRecordA, ← hRecordB, hCache]

variable {x : ChunkStripe}

theorem At.extent_eq
    {a b : DeviceExtentRecord}
    (hA : a ∈ r.extents.no_chunk_orphans)
    (hB : b ∈ r.extents.no_chunk_orphans)
    (hAtA : At x a)
    (hAtB : At x b) :
    a = b :=
  DeviceExtentTree.extent_eq hA hB
    (hAtA.device.trans hAtB.device.symm)
    (hAtA.offset.trans hAtB.offset.symm)

theorem At.stripe_eq
    {x y : ChunkStripe}
    {extent : DeviceExtentRecord}
    (hX : x ∈ stripesOf r.chunks)
    (hY : y ∈ stripesOf r.chunks)
    (hAtX : At x extent)
    (hAtY : At y extent) :
    x = y := by
  have hChunk := r.chunk_eq (mem_stripesOf.mp hX).1
    (mem_stripesOf.mp hY).1
    (hAtX.chunk.symm.trans hAtY.chunk)
  have hDevice := hAtX.device.symm.trans hAtY.device
  have hOffset := hAtX.offset.symm.trans hAtY.offset
  rcases x with ⟨c, ⟨devid, offset⟩⟩
  rcases y with ⟨c', ⟨devid', offset'⟩⟩
  dsimp only at hChunk hDevice hOffset
  rw [hChunk, hDevice, hOffset]

theorem SameGroup.group_eq
    {chunk : ChunkRecord}
    {a b : BlockGroupRecord}
    (hA : SameGroup chunk a)
    (hB : SameGroup chunk b) :
    a = b := by
  have hStart := hA.start.trans hB.start.symm
  have hLength := hA.length.trans hB.length.symm
  have hFlags := hA.flags.trans hB.flags.symm
  rcases a with ⟨objectid, offset, flags⟩
  rcases b with ⟨objectid', offset', flags'⟩
  dsimp only at hStart hLength hFlags
  rw [hStart, hLength, hFlags]

----------
-- Stripes and Extents
----------

/- The place of a stripe, and that of an extent. -/
def placeOf
    (x : ChunkStripe) : Nat × Nat × Nat :=
  (x.2.devid, x.2.offset, x.1.offset)

def extentPlace
    (extent : DeviceExtentRecord) : Nat × Nat × Nat :=
  (extent.objectid, extent.offset, extent.chunk_offset)

theorem At.place_eq
    {extent : DeviceExtentRecord}
    (hAt : At x extent) :
    placeOf x = extentPlace extent := by
  unfold placeOf extentPlace
  rw [hAt.device, hAt.offset, hAt.chunk]

theorem nodup_extentPlace
    (extents : DeviceExtentTree) :
    (extents.no_chunk_orphans.map extentPlace).Nodup := by
  refine extents.nodup_no_chunk_orphans.map_on ?_
  intro a hA b hB hSame
  unfold extentPlace at hSame
  rw [Prod.mk.injEq, Prod.mk.injEq] at hSame
  exact DeviceExtentTree.extent_eq hA hB hSame.1 hSame.2.1

/- A correspondence leaves no two stripes at one place. -/
theorem nodup_of_oneToOne
    (hOne : OneToOne StripeExtent (stripesOf r.chunks)
      r.extents.no_chunk_orphans) :
    ∀ chunk ∈ r.chunks, chunk.stripes.Nodup := by
  intro chunk hChunk
  have hPerm := hOne.map_perm
    (f := placeOf) (g := extentPlace)
    (fun x extent hPair => hPair.toAt.place_eq)
  have hNodup := hPerm.nodup_iff.mpr
    (nodup_extentPlace r.extents)
  have hSub : (chunk.stripes.map (chunk, ·)).Sublist
      (stripesOf r.chunks) :=
    List.sublist_flatten_of_mem (List.mem_map_of_mem hChunk)
  have hHere := hNodup.sublist (hSub.map placeOf)
  rw [List.map_map] at hHere
  exact hHere.of_map

theorem nodup_stripesOf
    (hStripes : ∀ chunk ∈ r.chunks, chunk.stripes.Nodup) :
    (stripesOf r.chunks).Nodup := by
  unfold stripesOf
  rw [List.nodup_flatMap]
  refine ⟨?_, r.nodup_chunks.imp ?_⟩
  · intro chunk hChunk
    exact (hStripes chunk hChunk).map
      (fun a b hSame => (Prod.mk.inj hSame).2)
  · intro a b hOther x hA hB
    rcases List.mem_map.mp hA with ⟨s, _, rfl⟩
    rcases List.mem_map.mp hB with ⟨t, _, hSame⟩
    exact hOther (Prod.mk.inj hSame).1.symm

/- What corresponds, place by place. -/
theorem correspond_iff :
    Correspond r ↔ InPlace r ∧ AsAllocated r := by
  constructor
  · intro hCorrespond
    have hOne := hCorrespond.extents
    refine ⟨⟨hCorrespond.groups, ?_, ?_⟩,
      nodup_of_oneToOne hOne, ?_⟩
    · intro x hX
      rcases hOne.left x hX with ⟨extent, hExtent, hPair⟩
      exact ⟨extent, hExtent, hPair.toAt⟩
    · intro extent hExtent
      rcases hOne.right extent hExtent with ⟨x, hX, hPair⟩
      exact ⟨x, hX, hPair.toAt⟩
    · intro x hX extent hExtent hAt
      rcases hOne.left x hX with ⟨other, hOther, hPair⟩
      rw [hAt.extent_eq hExtent hOther hPair.toAt]
      exact hPair.length
  · intro hBoth
    rcases hBoth with ⟨hPlace, hAlloc⟩
    refine ⟨hPlace.groups, OneToOne.of_unique
      (nodup_stripesOf hAlloc.stripes)
      r.extents.nodup_no_chunk_orphans ?_ ?_ ?_ ?_⟩
    · intro x _ a hA b hB hPairA hPairB
      exact hPairA.toAt.extent_eq hA hB hPairB.toAt
    · intro x hX y hY extent _ hPairX hPairY
      exact hPairX.toAt.stripe_eq hX hY hPairY.toAt
    · intro x hX
      rcases hPlace.stripes x hX with ⟨extent, hExtent, hAt⟩
      exact ⟨extent, hExtent, hAt,
        hAlloc.extents x hX extent hExtent hAt⟩
    · intro extent hExtent
      rcases hPlace.extents extent hExtent with ⟨x, hX, hAt⟩
      exact ⟨x, hX, hAt,
        hAlloc.extents x hX extent hExtent hAt⟩

----------
-- What Is Decided
----------

theorem foundFor_iff
    {extent : DeviceExtentRecord} :
    foundFor r.extents x = some extent ↔
      extent ∈ r.extents.no_chunk_orphans ∧ At x extent ∧
        x.1.stripeLength = some extent.length ∧
        0 < extent.length := by
  unfold foundFor
  rw [Option.bind_eq_some_iff]
  constructor
  · intro hFound
    rcases hFound with ⟨length, hLength, hExtent⟩
    rcases extentOf_iff.mp hExtent with
      ⟨hMem, hAt, rfl, hPos⟩
    exact ⟨hMem, hAt, hLength, hPos⟩
  · intro hBoth
    rcases hBoth with ⟨hMem, hAt, hLength, hPos⟩
    exact ⟨extent.length, hLength,
      extentOf_iff.mpr ⟨hMem, hAt, rfl, hPos⟩⟩

/- 0 is returned for what is in place and of its lengths. -/
theorem checkChunks_zero_iff_inPlace :
    checkChunks r.chunks r.groups r.extents = some 0 ↔
      (∀ chunk ∈ r.chunks, chunk.Divides) ∧ InPlace r ∧
        AsChecked r := by
  rw [checkChunks_zero_iff]
  simp only [ChunkRecord.divides_iff]
  refine and_congr_right fun hLengths => ?_
  constructor
  · intro hFound
    rcases hFound with ⟨hGroups, hStripes, hTo, hExtents⟩
    have hGroup : ∀ chunk ∈ r.chunks,
        ∃ group ∈ r.groups.block_groups,
          SameGroup chunk group ∧ 0 < chunk.length := by
      intro chunk hChunk
      rcases Option.isSome_iff_exists.mp
        (hGroups chunk hChunk) with ⟨group, hGroup⟩
      exact ⟨group, groupOf_iff.mp hGroup⟩
    have hStripe : ∀ x ∈ stripesOf r.chunks, ∃ extent,
        foundFor r.extents x = some extent :=
      fun x hX => Option.isSome_iff_exists.mp (hStripes x hX)
    refine ⟨⟨OneToOne.of_unique r.nodup_chunks
      r.groups.nodup_block_groups ?_ ?_ ?_ ?_, ?_, ?_⟩,
      ?_, ?_⟩
    · intro _ _ a _ b _ hA hB
      exact hA.group_eq hB
    · intro a hA b hB group _ hSameA hSameB
      exact r.chunk_eq hA hB
        (hSameA.start.symm.trans hSameB.start)
    · intro chunk hChunk
      rcases hGroup chunk hChunk with ⟨group, hMem, hSame, _⟩
      exact ⟨group, hMem, hSame⟩
    · intro group hMem
      rcases hTo group hMem with ⟨chunk, hChunk, hFound⟩
      exact ⟨chunk, hChunk, (groupOf_iff.mp hFound).2.1⟩
    · intro x hX
      rcases hStripe x hX with ⟨extent, hFound⟩
      rcases foundFor_iff.mp hFound with ⟨hMem, hAt, _⟩
      exact ⟨extent, hMem, hAt⟩
    · intro extent hMem
      rcases hExtents extent hMem with ⟨x, hX, hFound⟩
      exact ⟨x, hX, (foundFor_iff.mp hFound).2.1⟩
    · intro chunk hChunk
      rcases hGroup chunk hChunk with ⟨group, _, _, hPos⟩
      exact hPos
    · intro x hX extent hMem hAt
      rcases hStripe x hX with ⟨other, hFound⟩
      rcases foundFor_iff.mp hFound with
        ⟨hOther, hAtOther, hLength⟩
      rw [hAt.extent_eq hMem hOther hAtOther]
      exact hLength
  · intro hBoth
    rcases hBoth with ⟨hPlace, hChecked⟩
    refine ⟨?_, ?_, ?_, ?_⟩
    · intro chunk hChunk
      rcases hPlace.groups.left chunk hChunk with
        ⟨group, hMem, hSame⟩
      exact Option.isSome_iff_exists.mpr ⟨group,
        groupOf_iff.mpr ⟨hMem, hSame,
          hChecked.chunks chunk hChunk⟩⟩
    · intro x hX
      rcases hPlace.stripes x hX with ⟨extent, hMem, hAt⟩
      exact Option.isSome_iff_exists.mpr ⟨extent,
        foundFor_iff.mpr ⟨hMem, hAt,
          hChecked.extents x hX extent hMem hAt⟩⟩
    · intro group hMem
      rcases hPlace.groups.right group hMem with
        ⟨chunk, hChunk, hSame⟩
      exact ⟨chunk, hChunk, groupOf_iff.mpr ⟨hMem, hSame,
        hChecked.chunks chunk hChunk⟩⟩
    · intro extent hMem
      rcases hPlace.extents extent hMem with ⟨x, hX, hAt⟩
      exact ⟨x, hX, foundFor_iff.mpr ⟨hMem, hAt,
        hChecked.extents x hX extent hMem hAt⟩⟩

/- Two lengths that make up a chunk are the same. -/
theorem Implied.length_eq
    {chunk : ChunkRecord}
    {a b : Nat}
    (hA : Implied chunk a)
    (hB : Implied chunk b)
    (hSome : 0 < chunk.length) :
    0 < a ∧ a = b := by
  rcases hA with ⟨factor, hFactor, hWholeA⟩
  rcases hB with ⟨other, hOther, hWholeB⟩
  rw [hFactor] at hOther
  rw [← Option.some.inj hOther] at hWholeB
  have hPos : 0 < a * factor := by
    rw [hWholeA]
    exact hSome
  exact ⟨Nat.pos_of_mul_pos_right hPos,
    Nat.eq_of_mul_eq_mul_right (Nat.pos_of_mul_pos_left hPos)
      (hWholeA.trans hWholeB.symm)⟩

/- What is right for both has regular chunks only. -/
theorem regular_of_both
    (hPlace : InPlace r)
    (hChecked : AsChecked r)
    (hAlloc : AsAllocated r) :
    ∀ chunk ∈ r.chunks, chunk.Regular := by
  intro chunk hChunk
  refine ⟨hChecked.chunks chunk hChunk,
    hAlloc.stripes chunk hChunk, fun hStripes => ?_⟩
  rcases List.exists_mem_of_ne_nil _ hStripes with
    ⟨stripe, hStripe⟩
  have hX : (chunk, stripe) ∈ stripesOf r.chunks :=
    mem_stripesOf.mpr ⟨hChunk, hStripe⟩
  rcases hPlace.stripes _ hX with ⟨extent, hExtent, hAt⟩
  exact ⟨extent.length,
    (hChecked.extents _ hX extent hExtent hAt).1,
    hAlloc.extents _ hX extent hExtent hAt⟩

/- The formula of a stripe of a regular chunk. -/
theorem ChunkRecord.Regular.stripe
    (hRegular : x.1.Regular)
    (hX : x ∈ stripesOf r.chunks) :
    ∃ length, x.1.stripeLength = some length ∧
      Implied x.1 length :=
  hRegular.agrees
    (List.ne_nil_of_mem (mem_stripesOf.mp hX).2)

/- For regular chunks there is no difference. -/
theorem asAllocated_of_regular
    (hChecked : AsChecked r)
    (hRegular : ∀ chunk ∈ r.chunks, chunk.Regular) :
    AsAllocated r := by
  constructor
  · exact fun chunk hChunk => (hRegular chunk hChunk).places
  · intro x hX extent hExtent hAt
    have hChunk := (mem_stripesOf.mp hX).1
    rcases (hRegular x.1 hChunk).stripe hX with
      ⟨length, hLength, hImplied⟩
    have hHere := hChecked.extents x hX extent hExtent hAt
    rw [← Option.some.inj (hLength.symm.trans hHere.1)]
    exact hImplied

theorem asChecked_of_regular
    (hAlloc : AsAllocated r)
    (hRegular : ∀ chunk ∈ r.chunks, chunk.Regular) :
    AsChecked r := by
  constructor
  · exact fun chunk hChunk => (hRegular chunk hChunk).filled
  · intro x hX extent hExtent hAt
    have hChunk := (mem_stripesOf.mp hX).1
    rcases (hRegular x.1 hChunk).stripe hX with
      ⟨length, hLength, hImplied⟩
    rcases (hAlloc.extents x hX extent hExtent hAt).length_eq
        hImplied (hRegular x.1 hChunk).filled with ⟨hPos, hSame⟩
    exact ⟨hLength.trans (congrArg some hSame.symm), hPos⟩

theorem checkChunks_ne_none_iff :
    checkChunks r.chunks r.groups r.extents ≠ none ↔
      ∀ chunk ∈ r.chunks, chunk.Divides := by
  simp only [ChunkRecord.divides_iff]
  constructor
  · intro hSome chunk hChunk
    by_contra hNone
    have hTrap := checkEach_none r.groups r.extents r.chunks
      ⟨chunk, hChunk, by simpa using hNone⟩
      (0, ⟨r.groups.block_groups,
        r.extents.no_chunk_orphans⟩)
    unfold checkChunks at hSome
    rw [hTrap] at hSome
    exact hSome rfl
  · intro hLengths
    rcases checkEach_run r.groups r.extents r.chunks hLengths 0
        ⟨r.groups.block_groups,
          r.extents.no_chunk_orphans⟩ with
      ⟨ret, hRun, _⟩
    unfold checkChunks
    rw [hRun]
    exact Option.some_ne_none _

/-
  It decides the correspondence just where nothing is divided
  by zero, and all chunks are regular or the records fit by
  neither formula.
-/
theorem checkChunks_decides_iff
    (r : Records) :
    Decides r ↔
      (∀ chunk ∈ r.chunks, chunk.Divides) ∧
        ((∀ chunk ∈ r.chunks, chunk.Regular) ∨ ¬ InPlace r ∨
          ¬ AsChecked r ∧ ¬ AsAllocated r) := by
  unfold Decides
  rw [checkChunks_ne_none_iff, checkChunks_zero_iff_inPlace,
    correspond_iff]
  refine and_congr_right fun hDivides => ?_
  rw [and_iff_right hDivides]
  by_cases hRegular : ∀ chunk ∈ r.chunks, chunk.Regular
  · refine iff_of_true (and_congr_right fun _ => ?_)
      (.inl hRegular)
    exact ⟨fun h => asAllocated_of_regular h hRegular,
      fun h => asChecked_of_regular h hRegular⟩
  rw [or_iff_right hRegular]
  by_cases hPlace : InPlace r
  swap
  · exact iff_of_true (by simp only [hPlace, false_and])
      (.inl hPlace)
  simp only [hPlace, true_and, not_true_eq_false, false_or]
  constructor
  · intro hSame
    refine ⟨fun hChecked => ?_, fun hAlloc => ?_⟩
    · exact hRegular (regular_of_both hPlace hChecked
        (hSame.mp hChecked))
    · exact hRegular (regular_of_both hPlace
        (hSame.mpr hAlloc) hAlloc)
  · rintro ⟨hChecked, hAlloc⟩
    exact iff_of_false hChecked hAlloc

/-
  A chunk of two mirrors at one place of one device, with its
  block group and the only device extent.
-/
def sharedExtent : Records where
  chunks := [
    { offset := 1048576
      length := 65536
      type_flags := 17
      sub_stripes := 0
      stripes := [⟨1, 1048576⟩, ⟨1, 1048576⟩]
      few := by decide }]
  groups :=
    { tree := .node .leaf ⟨0, 1048576, 65536⟩ .leaf
      record := fun e => ⟨e.start, e.size, 17⟩
      block_groups := [⟨1048576, 65536, 17⟩]
      embedded := by simp [SearchTree.toList,
        BlockGroupRecord.cache]
      listed := List.Perm.refl _
      disjoint := ⟨by simp [SearchTree.toList, Bounded],
        by simp [SearchTree.toList]⟩
      nodup := by simp [SearchTree.toList] }
  extents :=
    { tree := .node .leaf ⟨1, 1048576, 65536⟩ .leaf
      record := fun e => ⟨e.objectid, e.start, 1048576, e.size⟩
      no_chunk_orphans := [⟨1, 1048576, 1048576, 65536⟩]
      embedded := by simp [SearchTree.toList,
        DeviceExtentRecord.cache]
      listed := List.Perm.refl _
      apart := ⟨by simp [SearchTree.toList, Bounded],
        by simp [SearchTree.toList]⟩
      places := by simp [SearchTree.toList] }
  disjoint := List.pairwise_singleton _ _

/- 0 is returned, and two stripes share one extent. -/
theorem sharedExtent_not_decided :
    ¬ Decides sharedExtent := by
  intro hDecides
  have hZero : checkChunks sharedExtent.chunks
      sharedExtent.groups sharedExtent.extents = some 0 := by
    decide
  have hOne := (hDecides.2.mp hZero).extents
  have hNodup := nodup_of_oneToOne hOne _ List.mem_cons_self
  exact absurd hNodup (by decide)

end ChunkRecords

end Check

end BtrfsProgs
