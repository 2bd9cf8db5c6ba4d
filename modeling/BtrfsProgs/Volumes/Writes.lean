import BtrfsProgs.Volumes.Layout

/-
  What a write changes, seen through the chunks.

  `Layout.Writes` says that exactly one logical range has
  changed, on every data mirror.  A write to a chunk without
  parity is such a change.

  Main declarations:
    * `Layout.Writes`
    * `Layout.covers_iff`
    * `Layout.writes_plain`
-/

----------
-- Changes of a Logical Range
----------

namespace BtrfsProgs

namespace Volumes

namespace Layout

variable {layout : Layout}

/-
  Every data mirror of the range from `start` on holds
  `data`, and every other byte is what it was.
-/
def Writes
    (layout : Layout)
    (disk disk' : Disk)
    (start : Nat)
    (data : List UInt8) : Prop :=
  ∀ chunk ∈ layout.chunks, ∀ logical mirror,
    chunk.Holds logical →
    DataMirror chunk.toMapLookup mirror →
      chunk.byteAt disk' (logical - chunk.start) mirror =
        if start ≤ logical ∧
            logical < start + data.length then
          data.getD (logical - start) 0
        else
          chunk.byteAt disk (logical - chunk.start) mirror

/- The run of bytes from a byte of a device extent on. -/
def runAt
    (s : BioStripe)
    (data : List UInt8) : ByteStore.Run UInt8 :=
  ⟨s.dev, s.physical, data⟩

/- A run inside a device extent covers only bytes of it. -/
theorem covers_iff
    {c d : Chunk}
    (hc : c ∈ layout.chunks)
    (hd : d ∈ layout.chunks)
    {index index' depth depth' : Nat}
    {data : List UInt8}
    (hIndex : index < c.numStripes)
    (hIndex' : index' < d.numStripes)
    (hFits : depth + data.length ≤ c.calcSize)
    (hDepth' : depth' < d.calcSize) :
    (runAt (stripeAt c.toMapLookup index depth) data).Covers
        (stripeAt d.toMapLookup index' depth').dev
        (stripeAt d.toMapLookup index' depth').physical ↔
      c = d ∧ index = index' ∧ depth ≤ depth' ∧
        depth' < depth + data.length := by
  constructor
  · intro hCovers
    rcases hCovers with ⟨hDev, hLow, hHigh⟩
    simp only [runAt, stripeAt] at hDev hLow hHigh
    -- the covered byte, counted from the start of the run
    have hByte :
        ∃ k < data.length,
          stripeAt c.toMapLookup index (depth + k) =
            stripeAt d.toMapLookup index' depth' := by
      refine ⟨(d.stripes.getD index' ⟨0, 0⟩).physical +
        depth' - ((c.stripes.getD index ⟨0, 0⟩).physical +
          depth), by omega, ?_⟩
      simp only [stripeAt, BioStripe.mk.injEq]
      exact ⟨hDev, by omega⟩
    rcases hByte with ⟨k, hk, hEq⟩
    rcases stripeAt_inj hc hd hIndex hIndex' (by omega)
        hDepth' hEq with ⟨hSame, hPlace, hDepth⟩
    exact ⟨hSame, hPlace, by omega, by omega⟩
  · intro hSame
    rcases hSame with ⟨rfl, rfl, hLow, hHigh⟩
    refine ⟨rfl, ?_, ?_⟩
    · exact Nat.add_le_add_left hLow _
    · simp only [runAt, stripeAt]
      omega

----------
-- Chunks without Parity
----------

/- The runs that a write to a chunk without parity stores. -/
def plainRuns
    (chunk : Chunk)
    (offset : Nat)
    (data : List UInt8) : List (ByteStore.Run UInt8) :=
  (List.range (copies chunk.toMapLookup)).map fun i =>
    runAt (chunk.mirrorAt offset (i + 1)) data

/- A run of a mirror covers the bytes of that mirror only. -/
theorem covers_mirror_iff
    {c d : Chunk}
    (hc : c ∈ layout.chunks)
    (hd : d ∈ layout.chunks)
    {offset offset' mirror mirror' : Nat}
    {data : List UInt8}
    (hOffset : offset < c.size)
    (hOffset' : offset' < d.size)
    (hLen : data.length ≤ lengthOf c.toMapLookup offset)
    (hMirror : DataMirror c.toMapLookup mirror)
    (hMirror' : DataMirror d.toMapLookup mirror') :
    (runAt (c.mirrorAt offset mirror) data).Covers
        (d.mirrorAt offset' mirror').dev
        (d.mirrorAt offset' mirror').physical ↔
      c = d ∧ mirror = mirror' ∧ offset ≤ offset' ∧
        offset' < offset + data.length := by
  have hDepth := c.depth_fits hOffset
  unfold Chunk.mirrorAt
  rw [covers_iff hc hd
    (c.mirror_place_lt offset hMirror.1 hMirror.2.1)
    (d.mirror_place_lt offset' hMirror'.1 hMirror'.2.1)
    (by omega) (d.depthOf_lt hOffset')]
  constructor
  · intro hCovers
    rcases hCovers with ⟨rfl, hPlace, hLow, hHigh⟩
    have hk :
        depthOf c.toMapLookup offset' -
            depthOf c.toMapLookup offset <
          lengthOf c.toMapLookup offset := by
      omega
    rw [← c.place_add hk] at hPlace
    have hSum := c.depthOf_add hk
    rcases c.place_depth_inj hMirror hMirror' hPlace
        (by omega) with ⟨hOff, hEq⟩
    exact ⟨rfl, hEq, by omega, by omega⟩
  · intro hSame
    rcases hSame with ⟨rfl, rfl, hLow, hHigh⟩
    have hk :
        offset' - offset < lengthOf c.toMapLookup offset := by
      omega
    have hSum := c.depthOf_add hk
    have hPlace := c.place_add hk mirror
    rw [Nat.add_sub_cancel' hLow] at hSum hPlace
    exact ⟨rfl, hPlace.symm, by omega, by omega⟩

theorem dataMirror_succ
    {chunk : Chunk}
    (hPlain : chunk.type.isRaid56 = false)
    {i : Nat}
    (hi : i < copies chunk.toMapLookup) :
    DataMirror chunk.toMapLookup (i + 1) := by
  refine ⟨Nat.le_add_left 1 i, hi, ?_⟩
  intro hParity
  rw [hPlain] at hParity
  cases hParity

/- A write without parity changes its range. -/
theorem writes_plain
    (disk : Disk)
    {chunk : Chunk}
    (hChunk : chunk ∈ layout.chunks)
    (hPlain : chunk.type.isRaid56 = false)
    {start : Nat}
    (hHolds : chunk.Holds start)
    {data : List UInt8}
    (hLen :
      data.length ≤ lengthOf chunk.toMapLookup
        (start - chunk.start)) :
    layout.Writes disk
      (ByteStore.writeAll disk
        (plainRuns chunk (start - chunk.start) data))
      start data := by
  intro d hd logical mirror hAt hMirror
  have hLow := hHolds.1
  have hLow' := hAt.1
  -- which bytes the run of a mirror covers
  have hCovers :
      ∀ i < copies chunk.toMapLookup,
        (runAt (chunk.mirrorAt (start - chunk.start) (i + 1))
            data).Covers
          (d.mirrorAt (logical - d.start) mirror).dev
          (d.mirrorAt (logical - d.start) mirror).physical ↔
        chunk = d ∧ i + 1 = mirror ∧
          start - chunk.start ≤ logical - d.start ∧
          logical - d.start <
            start - chunk.start + data.length := by
    intro i hi
    exact covers_mirror_iff hChunk hd hHolds.offset_lt
      hAt.offset_lt hLen (dataMirror_succ hPlain hi) hMirror
  unfold Chunk.byteAt
  split
  case isTrue hIn =>
    have hk : logical - start <
        lengthOf chunk.toMapLookup (start - chunk.start) := by
      omega
    have hInside := holds_add hHolds hk
    rw [Nat.add_sub_cancel' hIn.1] at hInside
    have hSame := holds_unique hChunk hd hInside hAt
    subst hSame
    have hOffset :
        logical - chunk.start =
          start - chunk.start + (logical - start) := by
      omega
    have hIndex : logical - start < data.length := by
      omega
    apply ByteStore.writeAll_eq
    · intro run hRun hCover
      rcases List.mem_map.mp hRun with ⟨i, hi, rfl⟩
      have hi := List.mem_range.mp hi
      rcases (hCovers i hi).mp hCover with ⟨_, rfl, _, _⟩
      rw [hOffset, chunk.mirrorAt_add hk]
      simp only [runAt, Nat.add_sub_cancel_left]
      rw [List.getD_eq_getElem _ _ hIndex,
        List.getElem?_eq_getElem hIndex]
    · left
      have hLast : mirror - 1 < copies chunk.toMapLookup := by
        have hOne := hMirror.1
        have hCopies := hMirror.2.1
        omega
      refine ⟨_, List.mem_map.mpr ⟨mirror - 1,
        List.mem_range.mpr hLast, rfl⟩, ?_⟩
      apply (hCovers _ hLast).mpr
      exact ⟨rfl, Nat.sub_add_cancel hMirror.1, by omega,
        by omega⟩
  case isFalse hOut =>
    apply ByteStore.writeAll_of_not_covers
    intro run hRun hCover
    rcases List.mem_map.mp hRun with ⟨i, hi, rfl⟩
    have hi := List.mem_range.mp hi
    rcases (hCovers i hi).mp hCover with ⟨rfl, _, _, _⟩
    omega

end Layout

end Volumes

end BtrfsProgs
