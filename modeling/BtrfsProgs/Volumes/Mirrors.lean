import BtrfsProgs.Volumes.Placement

/-
  Reading and writing the mirrors of a chunk.

  `mapBlock` is followed down to the device extents of the
  chunk it finds; from there soundness and injectivity are
  facts about rows, columns and places.

  Main declarations:
    * `mapBlockIn_read` and `mapBlockIn_write`
    * `ReadsAt`
    * `mapBlock_sound_injective`
-/

----------
-- Finding the Chunk
----------

namespace BtrfsProgs

namespace Volumes

open RangeTree

/- The logical addresses of a chunk. -/
def Chunk.Holds
    (chunk : Chunk)
    (logical : Nat) : Prop :=
  chunk.start ≤ logical ∧
    logical < chunk.start + chunk.size

instance
    (chunk : Chunk)
    (logical : Nat) :
    Decidable (chunk.Holds logical) := by
  unfold Chunk.Holds
  infer_instance

variable {mapTree : List MapLookup}

/- The search stops at the chunk that holds the address. -/
theorem search_holds
    (hOrdered : Ordered mapTree)
    {chunk : Chunk}
    (hChunk : chunk.toMapLookup ∈ mapTree)
    {logical : Nat}
    (hHolds : chunk.Holds logical) :
    ∃ c : Cursor MapLookup,
      search mapTree logical = some c ∧
        c.node = chunk.toMapLookup :=
  search_of_mem hOrdered hChunk hHolds.1 hHolds.2

/- `mapBlock` works inside the chunk of the address. -/
theorem mapBlock_eq
    (hOrdered : Ordered mapTree)
    {chunk : Chunk}
    (hChunk : chunk.toMapLookup ∈ mapTree)
    {logical : Nat}
    (hHolds : chunk.Holds logical)
    (rw : Rw)
    (mirrorNum : Nat)
    (raidMapRet : Bool) :
    mapBlock mapTree rw logical mirrorNum raidMapRet =
      mapBlockIn chunk.toMapLookup rw
        (logical - chunk.start) mirrorNum raidMapRet := by
  rcases search_holds hOrdered hChunk hHolds with
    ⟨c, hSearch, hNode⟩
  rcases hHolds with ⟨hLow, hHigh⟩
  unfold mapBlock
  rw [hSearch]
  simp only [hNode]
  rw [if_neg (by omega)]

theorem numCopies_eq
    (hOrdered : Ordered mapTree)
    {chunk : Chunk}
    (hChunk : chunk.toMapLookup ∈ mapTree)
    {logical : Nat}
    (hHolds : chunk.Holds logical) :
    numCopies mapTree logical =
      some (copies chunk.toMapLookup) := by
  rcases search_holds hOrdered hChunk hHolds with
    ⟨c, hSearch, hNode⟩
  rcases hHolds with ⟨hLow, hHigh⟩
  unfold numCopies
  rw [hSearch]
  simp only [hNode]
  rw [if_neg (by omega)]
  rfl

----------
-- Following a Request
----------

namespace Chunk

variable (chunk : Chunk)

/- The device byte that one mirror of an offset names. -/
def mirrorAt
    (offset mirror : Nat) : BioStripe :=
  stripeAt chunk.toMapLookup
    (place chunk.toMapLookup (rowOf chunk.toMapLookup offset)
      (colOf chunk.toMapLookup offset) mirror)
    (depthOf chunk.toMapLookup offset)

/- Without a raid map, a request is filled from its plan. -/
theorem mapBlockIn_plan
    {rw : Rw}
    {mirrorNum : Nat}
    {raidMapRet : Bool}
    (hNoMap :
      ¬ (chunk.type.isRaid56 ∧ (rw = .WRITE ∨ 1 < mirrorNum) ∧
        raidMapRet))
    (offset : Nat) :
    mapBlockIn chunk.toMapLookup rw offset mirrorNum
        raidMapRet =
      let plan :=
        stripePlan chunk.toMapLookup rw mirrorNum
          (offset / chunk.stripeLen)
          (offset % chunk.stripeLen)
          (lengthOf chunk.toMapLookup offset)
      match fillStripes chunk.toMapLookup plan with
      | .error e => .error e
      | .ok stripes =>
          .ok ⟨plan.length, chunk.type, stripes, none⟩ := by
  unfold mapBlockIn
  simp only [if_neg hNoMap, sub_div_mul_eq_mod]
  rfl

/- A mirror's device extent, whatever the offset. -/
theorem mirror_place_lt
    (offset : Nat)
    {mirror : Nat}
    (hMirror : 1 ≤ mirror)
    (hCopies : mirror ≤ copies chunk.toMapLookup) :
    place chunk.toMapLookup (rowOf chunk.toMapLookup offset)
        (colOf chunk.toMapLookup offset) mirror <
      chunk.numStripes :=
  chunk.place_lt (chunk.colOf_lt offset) hMirror hCopies

theorem mapBlockIn_read
    {mirror : Nat}
    (hMirror : 1 ≤ mirror)
    (hCopies : mirror ≤ copies chunk.toMapLookup)
    (offset : Nat) :
    mapBlockIn chunk.toMapLookup .READ offset mirror false =
      .ok ⟨lengthOf chunk.toMapLookup offset, chunk.type,
        [chunk.mirrorAt offset mirror], none⟩ := by
  have hIndex :=
    chunk.mirror_place_lt offset hMirror hCopies
  unfold rowOf colOf at hIndex
  rw [chunk.mapBlockIn_plan (by simp)]
  simp only [stripePlan_read chunk.toMapLookup hMirror]
  rw [chunk.fillStripes_eq hIndex (by simp only; omega)]
  rfl

theorem copies_pos
    (hPlain : chunk.type.isRaid56 = false) :
    0 < copies chunk.toMapLookup := by
  have hStripes := chunk.stripesOk
  cases hType : chunk.type <;>
    simp_all [Profile.StripesOk, copies, Profile.isRaid56] <;>
    omega

theorem mapBlockIn_write
    (hPlain : chunk.type.isRaid56 = false)
    (offset mirror : Nat)
    (raidMapRet : Bool) :
    mapBlockIn chunk.toMapLookup .WRITE offset mirror
        raidMapRet =
      .ok ⟨lengthOf chunk.toMapLookup offset, chunk.type,
        (List.range (copies chunk.toMapLookup)).map fun i =>
          chunk.mirrorAt offset (i + 1), none⟩ := by
  have hPos := chunk.copies_pos hPlain
  have hFirst := chunk.mirror_place_lt offset le_rfl hPos
  have hLast := chunk.mirror_place_lt offset hPos le_rfl
  rw [place_eq_add hPlain le_rfl] at hLast
  unfold rowOf colOf at hFirst hLast
  rw [chunk.mapBlockIn_plan (by simp [hPlain])]
  simp only [stripePlan_write hPlain]
  rw [chunk.fillStripes_eq hFirst
    (by simp only; omega)]
  simp only [Except.ok.injEq, MapResult.mk.injEq, true_and,
    and_true]
  apply List.map_congr_left
  intro i hi
  have hCopy := List.mem_range.mp hi
  unfold mirrorAt depthOf rowOf colOf
  rw [place_eq_add hPlain hCopy]
  rfl

/- A mirror's byte and the bytes after it are in range. -/
theorem mirrorAt_inside
    {offset mirror : Nat}
    (hOffset : offset < chunk.size)
    (hMirror : 1 ≤ mirror)
    (hCopies : mirror ≤ copies chunk.toMapLookup) :
    ∃ extent ∈ chunk.stripes,
      extent.dev = (chunk.mirrorAt offset mirror).dev ∧
      extent.physical ≤
        (chunk.mirrorAt offset mirror).physical ∧
      (chunk.mirrorAt offset mirror).physical +
          lengthOf chunk.toMapLookup offset ≤
        extent.physical + chunk.calcSize := by
  have hIndex :=
    chunk.mirror_place_lt offset hMirror hCopies
  have hFits := chunk.depth_fits hOffset
  refine ⟨_, chunk.stripes_getD hIndex, rfl, ?_, ?_⟩
  · exact Nat.le_add_right _ _
  · unfold mirrorAt stripeAt
    simp only
    omega

theorem depthOf_lt
    {offset : Nat}
    (hOffset : offset < chunk.size) :
    depthOf chunk.toMapLookup offset < chunk.calcSize := by
  have hFits := chunk.depth_fits hOffset
  have hPos := chunk.lengthOf_pos hOffset
  omega

/- Equal depths are in one row, at one place in it. -/
theorem depthOf_inj
    {offset offset' : Nat}
    (hDepth :
      depthOf chunk.toMapLookup offset =
        depthOf chunk.toMapLookup offset') :
    rowOf chunk.toMapLookup offset =
        rowOf chunk.toMapLookup offset' ∧
      offset % chunk.stripeLen =
        offset' % chunk.stripeLen := by
  have hInner := chunk.mod_stripeLen_lt offset
  have hInner' := chunk.mod_stripeLen_lt offset'
  have hDiv := congrArg (· / chunk.stripeLen) hDepth
  have hMod := congrArg (· % chunk.stripeLen) hDepth
  simp only [depthOf, Nat.add_mul_div_right _ _
    chunk.stripeLen_pos, Nat.add_mul_mod_self_right,
    Nat.div_eq_of_lt hInner, Nat.div_eq_of_lt hInner',
    Nat.mod_mod, Nat.zero_add] at hDiv hMod
  exact ⟨hDiv, hMod⟩

/- Place and depth determine the byte and the mirror. -/
theorem place_depth_inj
    {offset offset' mirror mirror' : Nat}
    (hMirror : DataMirror chunk.toMapLookup mirror)
    (hMirror' : DataMirror chunk.toMapLookup mirror')
    (hPlace :
      place chunk.toMapLookup
          (rowOf chunk.toMapLookup offset)
          (colOf chunk.toMapLookup offset) mirror =
        place chunk.toMapLookup
          (rowOf chunk.toMapLookup offset')
          (colOf chunk.toMapLookup offset') mirror')
    (hDepth :
      depthOf chunk.toMapLookup offset =
        depthOf chunk.toMapLookup offset') :
    offset = offset' ∧ mirror = mirror' := by
  rcases chunk.depthOf_inj hDepth with ⟨hRow, hInner⟩
  rw [hRow] at hPlace
  rcases chunk.place_inj (chunk.colOf_lt offset)
      (chunk.colOf_lt offset') hMirror hMirror' hPlace with
    ⟨hCol, hEq⟩
  refine ⟨?_, hEq⟩
  rw [offset_eq chunk.toMapLookup offset,
    offset_eq chunk.toMapLookup offset', hRow, hCol, hInner]

/- Different bytes of a data mirror are stored apart. -/
theorem mirrorAt_offset_inj
    {offset offset' mirror : Nat}
    (hOffset : offset < chunk.size)
    (hOffset' : offset' < chunk.size)
    (hMirror : DataMirror chunk.toMapLookup mirror)
    (hEq :
      chunk.mirrorAt offset mirror =
        chunk.mirrorAt offset' mirror) :
    offset = offset' := by
  rcases chunk.stripeAt_inj
      (chunk.mirror_place_lt offset hMirror.1 hMirror.2.1)
      (chunk.mirror_place_lt offset' hMirror.1 hMirror.2.1)
      (chunk.depthOf_lt hOffset) (chunk.depthOf_lt hOffset')
      hEq with ⟨hPlace, hDepth⟩
  exact (chunk.place_depth_inj hMirror hMirror hPlace
    hDepth).1

/- Different mirrors of a byte are stored apart. -/
theorem mirrorAt_mirror_inj
    {offset mirror mirror' : Nat}
    (hOffset : offset < chunk.size)
    (hMirror : 1 ≤ mirror)
    (hCopies : mirror ≤ copies chunk.toMapLookup)
    (hMirror' : 1 ≤ mirror')
    (hCopies' : mirror' ≤ copies chunk.toMapLookup)
    (hEq :
      chunk.mirrorAt offset mirror =
        chunk.mirrorAt offset mirror') :
    mirror = mirror' := by
  rcases chunk.stripeAt_inj
      (chunk.mirror_place_lt offset hMirror hCopies)
      (chunk.mirror_place_lt offset hMirror' hCopies')
      (chunk.depthOf_lt hOffset) (chunk.depthOf_lt hOffset)
      hEq with ⟨hPlace, _⟩
  exact chunk.place_mirror_inj (chunk.colOf_lt offset)
    hMirror hCopies hMirror' hCopies' hPlace

end Chunk

----------
-- Soundness and Injectivity
----------

/- A read of one mirror is sent to one device byte. -/
def ReadsAt
    (mapTree : List MapLookup)
    (logical mirror length : Nat)
    (s : BioStripe) : Prop :=
  ∃ r, mapBlock mapTree .READ logical mirror false = .ok r ∧
    r.length = length ∧ r.stripes = [s]

/- Reads follow the placement of the chunk. -/
theorem readsAt_iff
    (hOrdered : Ordered mapTree)
    {chunk : Chunk}
    (hChunk : chunk.toMapLookup ∈ mapTree)
    {logical mirror length : Nat}
    (hHolds : chunk.Holds logical)
    (hMirror : 1 ≤ mirror)
    (hCopies : mirror ≤ copies chunk.toMapLookup)
    {s : BioStripe} :
    ReadsAt mapTree logical mirror length s ↔
      length =
          lengthOf chunk.toMapLookup
            (logical - chunk.start) ∧
        s = chunk.mirrorAt (logical - chunk.start) mirror := by
  unfold ReadsAt
  rw [mapBlock_eq hOrdered hChunk hHolds,
    chunk.mapBlockIn_read hMirror hCopies]
  constructor
  · intro hReads
    rcases hReads with ⟨r, hOk, hLength, hStripes⟩
    cases hOk
    exact ⟨hLength.symm, (List.singleton_inj.mp hStripes).symm⟩
  · intro hEq
    exact ⟨_, rfl, hEq.1.symm, congrArg (fun t => [t]) hEq.2.symm⟩

theorem Chunk.Holds.offset_lt
    {chunk : Chunk}
    {logical : Nat}
    (hHolds : chunk.Holds logical) :
    logical - chunk.start < chunk.size := by
  rcases hHolds with ⟨hLow, hHigh⟩
  omega

/-
  Every mirror of every address of a chunk is read from
  inside a device extent of that chunk; no device byte serves
  two addresses of a data mirror or two mirrors of an
  address; and a write to a profile without parity goes to
  exactly the bytes that the mirrors are read from.
-/
theorem mapBlock_sound_injective
    {mapTree : List MapLookup}
    (hOrdered : Ordered mapTree)
    (chunk : Chunk)
    (hChunk : chunk.toMapLookup ∈ mapTree) :
    (∀ logical, chunk.Holds logical →
      numCopies mapTree logical =
        some (copies chunk.toMapLookup)) ∧
    (∀ logical mirror, chunk.Holds logical →
      1 ≤ mirror → mirror ≤ copies chunk.toMapLookup →
      ∃ length s, ReadsAt mapTree logical mirror length s ∧
        0 < length ∧
        ∃ extent ∈ chunk.stripes, extent.dev = s.dev ∧
          extent.physical ≤ s.physical ∧
          s.physical + length ≤
            extent.physical + chunk.calcSize) ∧
    (∀ logical logical' mirror length length' s,
      chunk.Holds logical → chunk.Holds logical' →
      DataMirror chunk.toMapLookup mirror →
      ReadsAt mapTree logical mirror length s →
      ReadsAt mapTree logical' mirror length' s →
      logical = logical') ∧
    (∀ logical mirror mirror' length length' s,
      chunk.Holds logical →
      1 ≤ mirror → mirror ≤ copies chunk.toMapLookup →
      1 ≤ mirror' → mirror' ≤ copies chunk.toMapLookup →
      ReadsAt mapTree logical mirror length s →
      ReadsAt mapTree logical mirror' length' s →
      mirror = mirror') ∧
    (chunk.type.isRaid56 = false →
      ∀ logical mirror raidMapRet, chunk.Holds logical →
      ∃ r, mapBlock mapTree .WRITE logical mirror raidMapRet =
          .ok r ∧
        ∀ s, s ∈ r.stripes ↔
          ∃ mirror' length, 1 ≤ mirror' ∧
            mirror' ≤ copies chunk.toMapLookup ∧
            ReadsAt mapTree logical mirror' length s) := by
  refine ⟨?_, ?_, ?_, ?_, ?_⟩
  · intro logical hHolds
    exact numCopies_eq hOrdered hChunk hHolds
  · intro logical mirror hHolds hMirror hCopies
    refine ⟨_, _, (readsAt_iff hOrdered hChunk hHolds hMirror
      hCopies).mpr ⟨rfl, rfl⟩, ?_, ?_⟩
    · exact chunk.lengthOf_pos hHolds.offset_lt
    · exact chunk.mirrorAt_inside hHolds.offset_lt hMirror
        hCopies
  · intro logical logical' mirror length length' s hHolds
      hHolds' hMirror hReads hReads'
    have hAt := ((readsAt_iff hOrdered hChunk hHolds
      hMirror.1 hMirror.2.1).mp hReads).2
    have hAt' := ((readsAt_iff hOrdered hChunk hHolds'
      hMirror.1 hMirror.2.1).mp hReads').2
    have hOffset := chunk.mirrorAt_offset_inj
      hHolds.offset_lt hHolds'.offset_lt hMirror
      (hAt.symm.trans hAt')
    have hLow := hHolds.1
    have hLow' := hHolds'.1
    omega
  · intro logical mirror mirror' length length' s hHolds
      hMirror hCopies hMirror' hCopies' hReads hReads'
    have hAt := ((readsAt_iff hOrdered hChunk hHolds
      hMirror hCopies).mp hReads).2
    have hAt' := ((readsAt_iff hOrdered hChunk hHolds
      hMirror' hCopies').mp hReads').2
    exact chunk.mirrorAt_mirror_inj hHolds.offset_lt hMirror
      hCopies hMirror' hCopies' (hAt.symm.trans hAt')
  · intro hPlain logical mirror raidMapRet hHolds
    rw [mapBlock_eq hOrdered hChunk hHolds,
      chunk.mapBlockIn_write hPlain]
    refine ⟨_, rfl, ?_⟩
    intro s
    simp only [List.mem_map, List.mem_range]
    constructor
    · intro hMem
      rcases hMem with ⟨i, hCopy, hAt⟩
      exact ⟨i + 1, _, Nat.le_add_left 1 i, hCopy,
        (readsAt_iff hOrdered hChunk hHolds
          (Nat.le_add_left 1 i) hCopy).mpr ⟨rfl, hAt.symm⟩⟩
    · intro hRead
      rcases hRead with ⟨m, length, hMirror, hCopies, hReads⟩
      have hAt := ((readsAt_iff hOrdered hChunk hHolds
        hMirror hCopies).mp hReads).2
      refine ⟨m - 1, by omega, ?_⟩
      rw [hAt, Nat.sub_add_cancel hMirror]

/- A RAID10 chunk of two groups of two mirrors. -/
def raid10Example : Chunk where
  start := 1048576
  size := 262144
  type := .raid10
  stripeLen := 65536
  numStripes := 4
  subStripes := 2
  stripes := [⟨1, 0⟩, ⟨2, 0⟩, ⟨3, 65536⟩, ⟨3, 196608⟩]
  calcSize := 131072
  stripeLen_pos := by decide
  stripeLen_dvd := ⟨2, rfl⟩
  size_eq := rfl
  stripesOk := by decide
  stripes_length := rfl
  start_bound := by decide
  physical_bound := by decide
  disjoint := by decide

theorem mapBlock_sound_injective_raid10 :
    ∃ length s, ReadsAt [raid10Example.toMapLookup]
        1179648 2 length s ∧ 0 < length ∧
      ∃ extent ∈ raid10Example.stripes, extent.dev = s.dev ∧
        extent.physical ≤ s.physical ∧
        s.physical + length ≤
          extent.physical + raid10Example.calcSize :=
  (mapBlock_sound_injective
    (show Ordered [raid10Example.toMapLookup] from
      ⟨by decide, by decide⟩)
    raid10Example (by decide)).2.1 1179648 2
    (by decide) (by decide) (by decide)

/- A SINGLE chunk with a second stripe, each of 64 KiB. -/
def twoSingle : MapLookup where
  start := 1048576
  size := chunkBytesByType .single 65536 2 1
  type := .single
  stripeLen := 65536
  numStripes := 2
  subStripes := 1
  stripes := [⟨1, 0⟩, ⟨2, 0⟩]

/-
  The length of a SINGLE chunk is not cut at the stripe: of
  two stripes, the first is read past its device extent.
-/
theorem mapBlock_single_passes_extent :
    65536 % twoSingle.stripeLen = 0 ∧
      twoSingle.numStripes % twoSingle.subStripes = 0 ∧
      numCopies [twoSingle] 1048576 = some 1 ∧
      ReadsAt [twoSingle] 1048576 1 131072 ⟨1, 0⟩ ∧
      ∀ extent ∈ twoSingle.stripes,
        ¬ (extent.dev = 1 ∧ extent.physical ≤ 0 ∧
          0 + 131072 ≤ extent.physical + 65536) := by
  refine ⟨rfl, rfl, by decide, ?_, by decide⟩
  exact ⟨⟨131072, .single, [⟨1, 0⟩], none⟩, by decide, rfl,
    rfl⟩

end Volumes

end BtrfsProgs
