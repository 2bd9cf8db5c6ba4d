import BtrfsProgs.Recover.Rebuild

/-
  When the recovered order of the stripes is right.

  Main declarations:
    * `BlocksOf`, `visitedGroups` and `LeftInPlace`
    * `rebuildFrom_spec` and `rebuildOrdered_spec`
    * `rebuildOrdered_right_iff`
-/

----------
-- The Blocks That Are Met
----------

namespace BtrfsProgs

namespace Recover

open Volumes

/-
  The blocks that were found: those of the chunk at all their
  places, and blocks of other chunks.
-/
def BlocksOf
    (chunk : Chunk)
    (ebCache : SearchTree ExtentRecord) : Prop :=
  ∀ er ∈ ebCache.toList, Recorded chunk er ∨
    er.start + er.size ≤ chunk.start ∨
      chunk.start + chunk.size ≤ er.start

/- The groups of the blocks that the lookups meet. -/
def visitedGroups
    (chunk : Chunk)
    (order : List Nat)
    (ebCache : SearchTree ExtentRecord) : List Nat :=
  (visited ebCache (recordOf chunk order)).map fun er =>
    groupOf chunk er.start

/-
  The extents that are left give each index of a block's group
  an extent that the block is in.
-/
def LeftInPlace
    (chunk : Chunk)
    (order gs : List Nat)
    (er : ExtentRecord) : Prop :=
  ∀ idx, idx / dataCopies chunk = groupOf chunk er.start →
    inDeviceExtent er (extentOf chunk
      ((remaining chunk gs order).getD
        (rank chunk gs idx) 0)) = true

section Blocks

variable {chunk : Chunk} {order gs : List Nat}
variable {ebCache : SearchTree ExtentRecord}

theorem lookup_recorded
    (hBlocks : BlocksOf chunk ebCache)
    {start size : Nat}
    {er : ExtentRecord}
    (hFound : lookup ebCache start size = some er)
    (hLow : chunk.start ≤ start)
    (hHigh : start + size = chunk.start + chunk.size) :
    Recorded chunk er ∧ start < er.start + er.size := by
  obtain ⟨hMem, hEq⟩ := SearchTree.search_some hFound
  have hRange : start < er.start + er.size ∧
      er.start < start + size := by
    unfold compRange at hEq
    split at hEq
    · cases hEq
    · split at hEq
      · cases hEq
      · omega
  rcases hBlocks er hMem with hRecorded | hOutside
  · exact ⟨hRecorded, hRange.1⟩
  · omega

/- A block that reaches behind a stripe begins there. -/
theorem Recorded.start_ge
    {er : ExtentRecord}
    (hRecorded : Recorded chunk er)
    {nr : Nat}
    (hBehind :
      nr * chunk.stripeLen + chunk.start <
        er.start + er.size) :
    nr * chunk.stripeLen + chunk.start ≤ er.start := by
  have hLow := hRecorded.low
  have hIn := hRecorded.inStripe
  have hDivMod := Nat.div_add_mod' (er.start - chunk.start)
    chunk.stripeLen
  have hNr : nr <
      (er.start - chunk.start) / chunk.stripeLen + 1 := by
    apply Nat.lt_of_mul_lt_mul_right (a := chunk.stripeLen)
    rw [Nat.succ_mul]
    omega
  have hMul := Nat.mul_le_mul_right chunk.stripeLen
    (Nat.le_of_lt_succ hNr)
  omega

/- The loop goes to later blocks of the chunk. -/
theorem nextRecord_later
    (hBlocks : BlocksOf chunk ebCache)
    {er next : ExtentRecord}
    (hRecorded : Recorded chunk er)
    (hNext :
      nextRecord ebCache (recordOf chunk order) er =
        some next) :
    Recorded chunk next ∧ er.start < next.start := by
  unfold nextRecord nextStripeLogicalOffset recordOf at hNext
  dsimp only at hNext
  split at hNext
  · cases hNext
  · rename_i hEnd
    have hLow := hRecorded.low
    have hPos := chunk.stripeLen_pos
    have hDivMod := Nat.div_add_mod' (er.start - chunk.start)
      chunk.stripeLen
    have hMod := Nat.mod_lt (er.start - chunk.start) hPos
    rw [← Nat.succ_mul] at hNext hEnd
    obtain ⟨hIs, hBehind⟩ := lookup_recorded hBlocks hNext
      (by omega) (by omega)
    have hStart := hIs.start_ge hBehind
    rw [Nat.succ_mul] at hStart
    exact ⟨hIs, by omega⟩

theorem picked_congr
    {gs' : List Nat}
    (hSame : ∀ g, g ∈ gs ↔ g ∈ gs') :
    picked chunk order gs = picked chunk order gs' := by
  unfold picked
  rw [pick_congr hSame]

/- The loop over the blocks ends with the groups it met. -/
theorem rebuildFrom_spec
    (hRaid : OrderedRaid chunk.type)
    (hInt : chunk.size < 2 ^ 31 * chunk.stripeLen)
    (hOrder : order.Perm (List.range chunk.numStripes))
    (hDev : ∀ s ∈ chunk.stripes, s.dev ≠ 0)
    (hBlocks : BlocksOf chunk ebCache)
    (devices gs : List Nat)
    {n : Nat}
    {er : ExtentRecord}
    (hRecorded : Recorded chunk er)
    (hFuel : chunk.start + chunk.size ≤ er.start + n) :
    Gives
      (rebuildFrom ebCache devices (recordOf chunk order)
        (n + 1) er
        ((remaining chunk gs order).map (extentOf chunk))
        ((List.range chunk.numStripes).map
          (slot chunk order gs)))
      (picked chunk order
        ((visitedFrom ebCache (recordOf chunk order) n er).map
          (fun er => groupOf chunk er.start) ++ gs)) := by
  induction n generalizing er gs with
  | zero =>
      have hHigh := hRecorded.high
      have hPos := hRecorded.size_pos
      omega
  | succ n ih =>
      unfold rebuildFrom
      rw [examine_spec hRaid hInt hOrder hDev hRecorded]
      unfold visitedFrom
      cases hNext :
          nextRecord ebCache (recordOf chunk order) er with
      | none =>
          exact finish_spec devices hOrder hDev
      | some next =>
          obtain ⟨hIs, hLater⟩ := nextRecord_later hBlocks
            hRecorded hNext
          have hGives := ih (groupOf chunk er.start :: gs) hIs
            (by omega)
          have hSame : ∀ g,
              g ∈ (visitedFrom ebCache
                  (recordOf chunk order) n next).map
                    (fun er => groupOf chunk er.start) ++
                  groupOf chunk er.start :: gs ↔
                g ∈ (er :: visitedFrom ebCache
                  (recordOf chunk order) n next).map
                    (fun er => groupOf chunk er.start) ++
                  gs := by
            intro g
            simp only [List.mem_append, List.mem_cons,
              List.map_cons]
            tauto
          rw [picked_congr hSame] at hGives
          exact hGives

theorem rebuildOrdered_spec
    (hRaid : OrderedRaid chunk.type)
    (hInt : chunk.size < 2 ^ 31 * chunk.stripeLen)
    (hOrder : order.Perm (List.range chunk.numStripes))
    (hDev : ∀ s ∈ chunk.stripes, s.dev ≠ 0)
    (hBlocks : BlocksOf chunk ebCache)
    (devices : List Nat) :
    Gives
      (rebuildOrdered ebCache devices (recordOf chunk order))
      (picked chunk order
        (visitedGroups chunk order ebCache)) := by
  unfold rebuildOrdered visitedGroups visited
  cases hFound : lookup ebCache (recordOf chunk order).offset
      (recordOf chunk order).length with
  | none =>
      exact rebuildUnordered_spec devices hOrder
        (Nat.zero_add chunk.numStripes)
  | some er =>
      have hIs := (lookup_recorded hBlocks hFound
        (Nat.le_refl _) rfl).1
      have hLow := hIs.low
      have hGives := rebuildFrom_spec hRaid hInt hOrder hDev
        hBlocks devices [] hIs (n := chunk.size) (by omega)
      have hAll : remaining chunk [] order = order := by
        simp [remaining]
      have hEmpty : (List.range chunk.numStripes).map
          (slot chunk order []) =
            List.replicate chunk.numStripes ⟨0, 0⟩ := by
        rw [List.eq_replicate_iff]
        simp [slot]
      rw [hAll, hEmpty, List.append_nil] at hGives
      exact hGives

end Blocks

----------
-- The Rebuilt Chunk
----------

/- The mapping of a chunk with other stripes. -/
def withStripes
    (chunk : Chunk)
    (stripes : List BioStripe) : MapLookup :=
  { chunk.toMapLookup with stripes := stripes }

/- A block is read from a place where it was recorded. -/
def FoundAt
    (map : MapLookup)
    (er : ExtentRecord) : Prop :=
  ∀ mirror, mirror = 0 ∨ DataMirror map mirror →
    ∃ length s, ReadsAt [map] er.start mirror length s ∧
      s ∈ er.mirrors

/- A chunk with its stripes in another order. -/
def reordered
    (chunk : Chunk)
    {stripes : List BioStripe}
    (hPerm : stripes.Perm chunk.stripes) : Chunk where
  toMapLookup := withStripes chunk stripes
  calcSize := chunk.calcSize
  stripeLen_pos := chunk.stripeLen_pos
  stripeLen_dvd := chunk.stripeLen_dvd
  size_eq := chunk.size_eq
  stripesOk := chunk.stripesOk
  stripes_length :=
    hPerm.length_eq.trans chunk.stripes_length
  start_bound := chunk.start_bound
  physical_bound := fun s hs =>
    chunk.physical_bound s (hPerm.mem_iff.mp hs)
  disjoint :=
    (hPerm.pairwise_iff fun hApart hDev =>
      (hApart hDev.symm).symm).mpr chunk.disjoint

section Order

variable {chunk : Chunk} {order gs : List Nat}
variable {er : ExtentRecord}

/- The stripes of a chunk, by their numbers. -/
theorem map_stripeOf
    (chunk : Chunk) :
    (List.range chunk.numStripes).map (stripeOf chunk) =
      chunk.stripes := by
  rw [← chunk.stripes_length]
  apply List.ext_getElem
  · simp
  · intro i hi hi'
    simp [stripeOf, hi']

/- Each device extent goes to exactly one index. -/
theorem picked_perm
    (gs : List Nat)
    (hOrder : order.Perm (List.range chunk.numStripes)) :
    (picked chunk order gs).Perm chunk.stripes := by
  have hPerm := (pick_perm gs hOrder).map
    (stripeOf chunk)
  rw [List.map_map, map_stripeOf] at hPerm
  exact hPerm

/- A read without a mirror is one of the first mirror. -/
theorem mapBlockIn_zero
    {map : MapLookup}
    (hRaid : OrderedRaid map.type)
    (offset : Nat) :
    mapBlockIn map .READ offset 0 false =
      mapBlockIn map .READ offset 1 false := by
  unfold mapBlockIn stripePlan
  rcases hRaid with hType | hType | hType | hType <;>
    simp [hType]

/- The reads of a block, by the places of its address. -/
theorem foundAt_iff
    (chunk : Chunk)
    (er : ExtentRecord)
    (hRaid : OrderedRaid chunk.type)
    (hHolds : chunk.Holds er.start) :
    FoundAt chunk.toMapLookup er ↔
      ∀ mirror, DataMirror chunk.toMapLookup mirror →
        chunk.mirrorAt (er.start - chunk.start) mirror ∈
          er.mirrors := by
  have hOrdered : RangeTree.Ordered [chunk.toMapLookup] := by
    refine ⟨?_, List.pairwise_singleton _ _⟩
    intro map hMap
    rw [List.mem_singleton.mp hMap]
    exact Nat.lt_of_le_of_lt hHolds.1 hHolds.2
  have hIn : chunk.toMapLookup ∈ [chunk.toMapLookup] :=
    List.mem_singleton_self _
  have hFirst : DataMirror chunk.toMapLookup 1 :=
    (dataMirror_iff hRaid).mpr
      ⟨Nat.le_refl 1, dataCopies_pos chunk⟩
  have hZero : ∀ length s,
      ReadsAt [chunk.toMapLookup] er.start 0 length s ↔
        ReadsAt [chunk.toMapLookup] er.start 1 length s := by
    intro length s
    unfold ReadsAt
    rw [mapBlock_eq hOrdered hIn hHolds,
      mapBlock_eq hOrdered hIn hHolds, mapBlockIn_zero hRaid]
  constructor
  · intro hFound mirror hMirror
    obtain ⟨length, s, hReads, hs⟩ :=
      hFound mirror (Or.inr hMirror)
    rw [readsAt_iff hOrdered hIn hHolds hMirror.1
      hMirror.2.1] at hReads
    rw [← hReads.2]
    exact hs
  · rintro hPlaces mirror (rfl | hMirror)
    · refine ⟨_, _, (hZero _ _).mpr
        ((readsAt_iff hOrdered hIn hHolds hFirst.1
          hFirst.2.1).mpr ⟨rfl, rfl⟩), hPlaces 1 hFirst⟩
    · exact ⟨_, _, (readsAt_iff hOrdered hIn hHolds hMirror.1
        hMirror.2.1).mpr ⟨rfl, rfl⟩, hPlaces mirror hMirror⟩

theorem Recorded.holds
    (hRecorded : Recorded chunk er) :
    chunk.Holds er.start := by
  have hPos := hRecorded.size_pos
  have hHigh := hRecorded.high
  exact ⟨hRecorded.low, by omega⟩

/- The places of an address in the rebuilt chunk. -/
theorem mirrorAt_picked
    (hRaid : OrderedRaid chunk.type)
    (hOrder : order.Perm (List.range chunk.numStripes))
    {mirror : Nat}
    (hMirror : DataMirror chunk.toMapLookup mirror)
    (logical : Nat) :
    (reordered chunk (picked_perm gs hOrder)).mirrorAt
          (logical - chunk.start) mirror =
      stripeAt chunk.toMapLookup
        (pick chunk order gs
          (firstIndex chunk logical + (mirror - 1)))
        (depthOf chunk.toMapLookup
          (logical - chunk.start)) := by
  have hBounds := (dataMirror_iff hRaid).mp hMirror
  have hFits := group_fits hRaid logical
  have hLt : firstIndex chunk logical + (mirror - 1) <
      chunk.numStripes := by
    omega
  have hStripe : (picked chunk order gs).getD
      (firstIndex chunk logical + (mirror - 1)) ⟨0, 0⟩ =
        stripeOf chunk (pick chunk order gs
          (firstIndex chunk logical + (mirror - 1))) := by
    unfold picked
    rw [List.getD_eq_getElem _ _ (by simpa using hLt)]
    simp
  rw [← place_mirror hMirror] at hStripe ⊢
  have hAt : (reordered chunk
      (picked_perm gs hOrder)).mirrorAt
        (logical - chunk.start) mirror =
      stripeAt (withStripes chunk (picked chunk order gs))
        (place chunk.toMapLookup
          (rowOf chunk.toMapLookup (logical - chunk.start))
          (colOf chunk.toMapLookup (logical - chunk.start))
          mirror)
        (depthOf chunk.toMapLookup
          (logical - chunk.start)) := rfl
  rw [hAt]
  unfold stripeAt withStripes
  dsimp only
  rw [hStripe]
  rfl

/- Reads go where the stripes of the group are. -/
theorem foundAt_picked_iff
    (hRaid : OrderedRaid chunk.type)
    (hOrder : order.Perm (List.range chunk.numStripes))
    (hRecorded : Recorded chunk er) :
    FoundAt (withStripes chunk (picked chunk order gs)) er ↔
      ∀ idx, idx / dataCopies chunk = groupOf chunk er.start →
        pick chunk order gs idx / dataCopies chunk =
          groupOf chunk er.start := by
  have hFits := group_fits hRaid er.start
  -- a place is one of the block if its stripe is of the group
  have hPlace : ∀ idx,
      idx / dataCopies chunk = groupOf chunk er.start →
      (stripeAt chunk.toMapLookup (pick chunk order gs idx)
          (depthOf chunk.toMapLookup
            (er.start - chunk.start)) ∈ er.mirrors ↔
        pick chunk order gs idx / dataCopies chunk =
          groupOf chunk er.start) := by
    intro idx hGroup
    have hBounds := (div_eq_group_iff er.start).mp hGroup
    have hPick : pick chunk order gs idx <
        chunk.numStripes :=
      pick_lt hOrder (by omega)
    rw [hRecorded.mem_mirrors hRaid]
    constructor
    · rintro ⟨j, hj, hSame⟩
      have hjBounds := (div_eq_group_iff er.start).mp hj
      have hDepth := hRecorded.depth_lt
      have hEq := (chunk.stripeAt_inj hPick (by omega) hDepth
        hDepth hSame).1
      rw [hEq]
      exact hj
    · intro hPicked
      exact ⟨_, hPicked, rfl⟩
  have hIff := foundAt_iff
    (reordered chunk (picked_perm gs hOrder)) er hRaid
    hRecorded.holds
  refine hIff.trans ?_
  constructor
  · intro hAll idx hGroup
    have hBounds := (div_eq_group_iff er.start).mp hGroup
    have hMirror : DataMirror chunk.toMapLookup
        (idx - firstIndex chunk er.start + 1) := by
      rw [dataMirror_iff hRaid]
      omega
    have hIn := hAll _ hMirror
    have hIdx : firstIndex chunk er.start +
        (idx - firstIndex chunk er.start + 1 - 1) = idx := by
      omega
    rw [show (reordered chunk
      (picked_perm gs hOrder)).start = chunk.start from rfl,
      mirrorAt_picked hRaid hOrder hMirror, hIdx] at hIn
    exact (hPlace idx hGroup).mp hIn
  · intro hAll mirror hMirror
    have hBounds := (dataMirror_iff hRaid).mp hMirror
    have hGroup : (firstIndex chunk er.start +
        (mirror - 1)) / dataCopies chunk =
          groupOf chunk er.start := by
      rw [div_eq_group_iff]
      omega
    rw [show (reordered chunk
      (picked_perm gs hOrder)).start = chunk.start from rfl,
      mirrorAt_picked hRaid hOrder hMirror]
    exact (hPlace _ hGroup).mpr (hAll _ hGroup)

/- When a block is found, by what the loop met. -/
theorem foundAt_picked_iff_left
    (hRaid : OrderedRaid chunk.type)
    (hOrder : order.Perm (List.range chunk.numStripes))
    (hRecorded : Recorded chunk er) :
    FoundAt (withStripes chunk (picked chunk order gs)) er ↔
      groupOf chunk er.start ∈ gs ∨
        LeftInPlace chunk order gs er := by
  have hFits := group_fits hRaid er.start
  have hLt : ∀ idx,
      idx / dataCopies chunk = groupOf chunk er.start →
        idx < chunk.numStripes := by
    intro idx hGroup
    have hBounds := (div_eq_group_iff er.start).mp hGroup
    omega
  rw [foundAt_picked_iff hRaid hOrder hRecorded]
  by_cases hIn : groupOf chunk er.start ∈ gs
  · refine ⟨fun _ => Or.inl hIn, ?_⟩
    intro _ idx hGroup
    rw [(pick_group gs hOrder (hLt idx hGroup)).1
      (hGroup ▸ hIn)]
    exact hGroup
  · have hPick : ∀ idx,
        idx / dataCopies chunk = groupOf chunk er.start →
        (pick chunk order gs idx / dataCopies chunk =
            groupOf chunk er.start ↔
          inDeviceExtent er (extentOf chunk
            ((remaining chunk gs order).getD
              (rank chunk gs idx) 0)) = true) := by
      intro idx hGroup
      have hNot : idx / dataCopies chunk ∉ gs := by
        rw [hGroup]
        exact hIn
      rw [← inDeviceExtent_iff hRaid hRecorded
        (pick_lt hOrder (hLt idx hGroup))]
      unfold pick
      rw [if_neg hNot]
    constructor
    · intro hAll
      exact Or.inr fun idx hGroup =>
        (hPick idx hGroup).mp (hAll idx hGroup)
    · rintro (hMem | hLeft) idx hGroup
      · exact absurd hMem hIn
      · exact (hPick idx hGroup).mpr (hLeft idx hGroup)

end Order

----------
-- The Recovered Order
----------

/-
  The rebuilding ends, writes nothing outside of the stripes,
  and gives each device extent to one index.  The blocks are
  then found exactly if those of the groups that the lookups
  have passed over are by chance on the extents that their
  indexes get.
-/
theorem rebuildOrdered_right_iff
    (chunk : Chunk)
    (hRaid : OrderedRaid chunk.type)
    (hInt : chunk.size < 2 ^ 31 * chunk.stripeLen)
    (hDev : ∀ s ∈ chunk.stripes, s.dev ≠ 0)
    (order : List Nat)
    (hOrder : order.Perm (List.range chunk.numStripes))
    (ebCache : SearchTree ExtentRecord)
    (hBlocks : BlocksOf chunk ebCache)
    (devices : List Nat) :
    rebuildOrdered ebCache devices (recordOf chunk order) ≠
        .outside ∧
    rebuildOrdered ebCache devices (recordOf chunk order) ≠
        .running ∧
    ∀ stripes,
      rebuildOrdered ebCache devices (recordOf chunk order) =
          .done stripes →
        stripes.Perm chunk.stripes ∧
        ((∀ er ∈ ebCache.toList, Recorded chunk er →
            FoundAt (withStripes chunk stripes) er) ↔
          ∀ er ∈ ebCache.toList, Recorded chunk er →
            groupOf chunk er.start ∈
                visitedGroups chunk order ebCache ∨
              LeftInPlace chunk order
                (visitedGroups chunk order ebCache) er) := by
  obtain ⟨hInside, hEnds, hDone⟩ := rebuildOrdered_spec hRaid
    hInt hOrder hDev hBlocks devices
  refine ⟨hInside, hEnds, ?_⟩
  intro stripes hStripes
  rw [hDone stripes hStripes]
  refine ⟨picked_perm _ hOrder, ?_⟩
  constructor
  · intro hAll er hMem hRecorded
    exact (foundAt_picked_iff_left hRaid hOrder hRecorded).mp
      (hAll er hMem hRecorded)
  · intro hAll er hMem hRecorded
    exact (foundAt_picked_iff_left hRaid hOrder hRecorded).mpr
      (hAll er hMem hRecorded)

/- A block at all places where its data are. -/
def blockAt
    (chunk : Chunk)
    (logical size : Nat) : ExtentRecord :=
  ⟨logical, size, (List.range (dataCopies chunk)).map fun i =>
    chunk.mirrorAt (logical - chunk.start) (i + 1)⟩

theorem blockAt_recorded
    {chunk : Chunk}
    (hRaid : OrderedRaid chunk.type)
    {logical size : Nat}
    (hLow : chunk.start ≤ logical)
    (hPos : 0 < size)
    (hIn :
      (logical - chunk.start) % chunk.stripeLen + size ≤
        chunk.stripeLen)
    (hHigh : logical + size ≤ chunk.start + chunk.size) :
    Recorded chunk (blockAt chunk logical size) := by
  refine ⟨hLow, hPos, hIn, hHigh, ?_⟩
  intro m
  unfold blockAt
  rw [List.mem_map]
  constructor
  · rintro ⟨i, hi, rfl⟩
    have hLt := List.mem_range.mp hi
    exact ⟨i + 1, (dataMirror_iff hRaid).mpr (by omega), rfl⟩
  · rintro ⟨mirror, hMirror, rfl⟩
    have hBounds := (dataMirror_iff hRaid).mp hMirror
    refine ⟨mirror - 1, List.mem_range.mpr (by omega), ?_⟩
    rw [Nat.sub_add_cancel hBounds.1]

/- A RAID0 chunk whose first stripe is on the second device. -/
def raid0Example : Chunk where
  start := 1048576
  size := 262144
  type := .raid0
  stripeLen := 65536
  numStripes := 4
  subStripes := 0
  stripes := [⟨2, 0⟩, ⟨1, 0⟩, ⟨3, 0⟩, ⟨4, 0⟩]
  calcSize := 65536
  stripeLen_pos := Volumes.raid10Example.stripeLen_pos
  stripeLen_dvd := ⟨1, rfl⟩
  size_eq := Volumes.raid10Example.size_eq
  stripesOk := by decide
  stripes_length := rfl
  start_bound := Volumes.raid10Example.start_bound
  physical_bound := by decide
  disjoint := by decide

/- The block at the begin of one of its stripes. -/
def raid0Block
    (i : Nat) : ExtentRecord :=
  blockAt raid0Example (1048576 + i * 65536) 16384

theorem raid0Block_recorded
    {i : Nat}
    (hi : i < 4) :
    Recorded raid0Example (raid0Block i) := by
  have hStart : raid0Example.start = 1048576 := rfl
  have hLen : raid0Example.stripeLen = 65536 := rfl
  have hSize : raid0Example.size = 262144 := rfl
  apply blockAt_recorded (Or.inl rfl)
  · omega
  · omega
  · rw [hStart, hLen]
    omega
  · omega

/- Blocks of the first two stripes only. -/
def twoBlocks : SearchTree ExtentRecord :=
  .node .leaf (raid0Block 0)
    (.node .leaf (raid0Block 1) .leaf)

theorem rebuildOrdered_right_two_blocks :
    rebuildOrdered twoBlocks [1, 2, 3, 4]
        (recordOf raid0Example [1, 0, 2, 3]) =
      .done raid0Example.stripes ∧
    ∀ er ∈ twoBlocks.toList, Recorded raid0Example er →
      FoundAt (withStripes raid0Example
        raid0Example.stripes) er := by
  have hDone : rebuildOrdered twoBlocks [1, 2, 3, 4]
      (recordOf raid0Example [1, 0, 2, 3]) =
        .done raid0Example.stripes := by
    decide
  have hBlocks : BlocksOf raid0Example twoBlocks := by
    intro er hMem
    have hIs : er = raid0Block 0 ∨ er = raid0Block 1 := by
      simpa [twoBlocks, SearchTree.toList] using hMem
    rcases hIs with rfl | rfl
    · exact Or.inl (raid0Block_recorded (by decide))
    · exact Or.inl (raid0Block_recorded (by decide))
  refine ⟨hDone, ((rebuildOrdered_right_iff raid0Example
    (Or.inl rfl) (by decide) (by decide) [1, 0, 2, 3]
    (by decide) twoBlocks hBlocks [1, 2, 3, 4]).2.2 _
      hDone).2.mpr ?_⟩
  intro er hMem _
  left
  have hIs : er = raid0Block 0 ∨ er = raid0Block 1 := by
    simpa [twoBlocks, SearchTree.toList] using hMem
  rcases hIs with rfl | rfl
  · decide
  · decide

/-
  The tree after blocks of all four stripes were inserted, the
  last one first.  The lookups begin at its root.
-/
def fourBlocks : SearchTree ExtentRecord :=
  .node
    (.node (.node .leaf (raid0Block 0) .leaf) (raid0Block 1)
      .leaf)
    (raid0Block 2)
    (.node .leaf (raid0Block 3) .leaf)

theorem rebuildOrdered_root_first_wrong :
    BlocksOf raid0Example fourBlocks ∧
    raid0Block 0 ∈ fourBlocks.toList ∧
    Recorded raid0Example (raid0Block 0) ∧
    rebuildOrdered fourBlocks [1, 2, 3, 4]
        (recordOf raid0Example [1, 0, 2, 3]) =
      .done [⟨1, 0⟩, ⟨2, 0⟩, ⟨3, 0⟩, ⟨4, 0⟩] ∧
    ¬ FoundAt (withStripes raid0Example
        [⟨1, 0⟩, ⟨2, 0⟩, ⟨3, 0⟩, ⟨4, 0⟩])
      (raid0Block 0) := by
  have hList : fourBlocks.toList =
      (List.range 4).map raid0Block := rfl
  refine ⟨?_, ?_, raid0Block_recorded (by decide), by decide,
    ?_⟩
  · intro er hMem
    rw [hList] at hMem
    obtain ⟨i, hi, rfl⟩ := List.mem_map.mp hMem
    exact Or.inl (raid0Block_recorded (List.mem_range.mp hi))
  · rw [hList]
    exact List.mem_map.mpr ⟨0, by decide, rfl⟩
  · intro hFound
    obtain ⟨length, s, ⟨r, hMap, _, hStripes⟩, hs⟩ :=
      hFound 0 (Or.inl rfl)
    have hGoes : mapBlock [withStripes raid0Example
        [⟨1, 0⟩, ⟨2, 0⟩, ⟨3, 0⟩, ⟨4, 0⟩]] .READ 1048576 0
          false =
        .ok ⟨65536, .raid0, [⟨1, 0⟩], none⟩ := by
      rfl
    rw [show (raid0Block 0).start = 1048576 from rfl, hGoes]
      at hMap
    cases hMap
    cases hStripes
    exact absurd hs (by decide)

end Recover

end BtrfsProgs
