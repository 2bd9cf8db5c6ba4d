import BtrfsProgs.Volumes.ParityWrite

/-
  Writing a logical range and reading it back.

  `write_data_to_disk` cuts its range into pieces.  A piece in
  a chunk with parity may run past the end of its full
  stripe, and then the bytes past it are lost.  This does not
  happen exactly when every full-stripe end inside the range
  is also the end of a piece and every piece finds its full
  stripe.

  Main declarations:
    * `Layout.Aligned`
    * `Layout.writeLoop_spec`
    * `writeDataToDisk_roundTrips_iff`
-/

----------
-- Full-Stripe Ends
----------

namespace BtrfsProgs

namespace Volumes

namespace Layout

variable {layout : Layout}

/-
  Every full-stripe end of the chunk that lies inside the
  range is a whole number of pieces away from where the range
  enters the chunk.
-/
def EndsIn
    (layout : Layout)
    (chunk : Chunk)
    (offset bytes : Nat) : Prop :=
  ∀ n,
    n * (nrDataStripes chunk.toMapLookup *
        chunk.stripeLen) ≤ chunk.size →
    max offset chunk.start <
      chunk.start +
        n * (nrDataStripes chunk.toMapLookup *
          chunk.stripeLen) →
    chunk.start +
        n * (nrDataStripes chunk.toMapLookup *
          chunk.stripeLen) < offset + bytes →
    min chunk.stripeLen layout.leafsize ∣
      chunk.start +
          n * (nrDataStripes chunk.toMapLookup *
            chunk.stripeLen) -
        max offset chunk.start

/-
  Where a piece starts in the chunk, its full stripe is
  found.  A chunk whose full stripe has a length of an `int`
  needs none of it.
-/
def FindsIn
    (layout : Layout)
    (chunk : Chunk)
    (offset bytes : Nat) : Prop :=
  ∀ k,
    max offset chunk.start +
        k * min chunk.stripeLen layout.leafsize <
      min (offset + bytes) (chunk.start + chunk.size) →
    chunk.FindsRow
      (max offset chunk.start +
          k * min chunk.stripeLen layout.leafsize -
        chunk.start)

/- No full-stripe end of a chunk with parity is crossed. -/
def Aligned
    (layout : Layout)
    (offset bytes : Nat) : Prop :=
  ∀ chunk ∈ layout.chunks, chunk.type.isRaid56 = true →
    layout.EndsIn chunk offset bytes ∧
      layout.FindsIn chunk offset bytes

/-
  A chunk with parity that meets the range is written whole
  stripe by whole stripe: of one column, no longer than a
  piece, and no stripe in part.
-/
def WholeStripes
    (layout : Layout)
    (offset bytes : Nat) : Prop :=
  ∀ chunk ∈ layout.chunks, chunk.type.isRaid56 = true →
    max offset chunk.start <
      min (offset + bytes) (chunk.start + chunk.size) →
    nrDataStripes chunk.toMapLookup = 1 ∧
      chunk.stripeLen ≤ layout.leafsize ∧
      chunk.stripeLen ∣
        max offset chunk.start - chunk.start ∧
      chunk.stripeLen ∣
        min (offset + bytes) (chunk.start + chunk.size) -
          chunk.start

theorem FindsIn.of_fullFits
    {chunk : Chunk}
    (hFits : chunk.FullFits)
    (hParity : chunk.type.isRaid56 = true)
    (offset bytes : Nat) :
    layout.FindsIn chunk offset bytes := by
  intro k _
  exact hFits.findsRow hParity _

/- A piece of one chunk is no concern of another chunk. -/
theorem alignedIn_other_iff
    {c d : Chunk}
    (hc : c ∈ layout.chunks)
    (hd : d ∈ layout.chunks)
    (hNe : c ≠ d)
    {offset bytes len : Nat}
    (hLow : c.start ≤ offset)
    (hHigh : offset + len ≤ c.start + c.size)
    (hLen : len ≤ bytes) :
    (layout.EndsIn d offset bytes ∧
        layout.FindsIn d offset bytes) ↔
      layout.EndsIn d (offset + len) (bytes - len) ∧
        layout.FindsIn d (offset + len) (bytes - len) := by
  have hSides := before_or_after hc hd hNe
  have hEnd : offset + len + (bytes - len) = offset + bytes := by
    omega
  unfold EndsIn FindsIn
  rw [hEnd]
  rcases hSides with hAfter | hBefore
  · rw [Nat.max_eq_right (by omega),
      Nat.max_eq_right (by omega)]
  · -- the whole of `d` is behind the range
    constructor
    · intro _
      exact ⟨fun n hn hPast => by omega, fun k hk => by omega⟩
    · intro _
      exact ⟨fun n hn hPast => by omega, fun k hk => by omega⟩

variable {c : Chunk}

theorem aligned_plain_iff
    (hc : c ∈ layout.chunks)
    (hPlain : c.type.isRaid56 = false)
    {offset bytes len : Nat}
    (hLow : c.start ≤ offset)
    (hHigh : offset + len ≤ c.start + c.size)
    (hLen : len ≤ bytes) :
    layout.Aligned offset bytes ↔
      layout.Aligned (offset + len) (bytes - len) := by
  unfold Aligned
  apply forall₃_congr
  intro d hd hParity
  apply alignedIn_other_iff hc hd _ hLow hHigh hLen
  intro hSame
  rw [hSame, hParity] at hPlain
  cases hPlain

/- Past an offset, the next full-stripe end is its own. -/
theorem fullStripeEnd_le_of_lt
    {chunk : Chunk}
    {offset n : Nat}
    (hPast :
      offset < n * (width chunk.toMapLookup *
        chunk.stripeLen)) :
    chunk.fullStripeEnd offset ≤
      n * (width chunk.toMapLookup * chunk.stripeLen) := by
  have hRow := ((chunk.rowOf_eq_iff offset _).mp rfl).1
  unfold Chunk.fullStripeEnd
  apply Nat.mul_le_mul_right
  exact Nat.lt_of_mul_lt_mul_right
    (Nat.lt_of_le_of_lt hRow hPast)

/-
  In the chunk of the piece, this piece and the later ones
  stop at the full-stripe end.
-/
theorem endsIn_piece_iff
    (hParity : c.type.isRaid56 = true)
    {offset bytes len : Nat}
    (hHolds : c.Holds offset)
    (hLen :
      len = min (min c.stripeLen bytes) layout.leafsize) :
    layout.EndsIn c offset bytes ↔
      offset - c.start + len ≤
          c.fullStripeEnd (offset - c.start) ∧
        layout.EndsIn c (offset + len) (bytes - len) := by
  have hLow := hHolds.1
  have hNext := c.lt_fullStripeEnd (offset - c.start)
  have hEnd := c.fullStripeEnd_le hHolds.offset_lt
  unfold EndsIn
  unfold Chunk.fullStripeEnd at hNext hEnd ⊢
  rw [nrDataStripes_eq_width hParity,
    Nat.max_eq_left hLow,
    Nat.max_eq_left (Nat.le_add_right_of_le hLow)]
  constructor
  · intro hAligned
    constructor
    · by_contra hPast
      have hDvd := hAligned _ hEnd (by omega) (by omega)
      have hSmall := Nat.le_of_dvd (by omega) hDvd
      omega
    · intro n hn hPast hBound
      have hDvd := hAligned n hn (by omega) (by omega)
      have hFull : len = min c.stripeLen layout.leafsize := by
        omega
      rw [← hFull] at hDvd ⊢
      have hSub := Nat.dvd_sub hDvd (Nat.dvd_refl len)
      rwa [Nat.sub_sub] at hSub
  · intro hRest n hn hPast hBound
    rcases hRest with ⟨hInside, hAligned⟩
    have hOwn := fullStripeEnd_le_of_lt
      (show offset - c.start <
        n * (width c.toMapLookup * c.stripeLen) by omega)
    unfold Chunk.fullStripeEnd at hOwn
    have hFull : len = min c.stripeLen layout.leafsize := by
      omega
    rw [← hFull]
    by_cases hHere :
        c.start + n * (width c.toMapLookup * c.stripeLen) =
          offset + len
    · rw [hHere, Nat.add_sub_cancel_left]
    · have hDvd := hAligned n hn (by omega) (by omega)
      rw [← hFull] at hDvd
      have hAdd := Nat.dvd_add hDvd (Nat.dvd_refl len)
      have hSum :
          c.start + n * (width c.toMapLookup * c.stripeLen) -
              (offset + len) + len =
            c.start +
                n * (width c.toMapLookup * c.stripeLen) -
              offset := by
        omega
      rwa [hSum] at hAdd

/- This piece and the later ones find their full stripes. -/
theorem findsIn_piece_iff
    {offset bytes len : Nat}
    (hHolds : c.Holds offset)
    (hPos : 0 < bytes)
    (hLen :
      len = min (min c.stripeLen bytes) layout.leafsize) :
    layout.FindsIn c offset bytes ↔
      c.FindsRow (offset - c.start) ∧
        layout.FindsIn c (offset + len) (bytes - len) := by
  have hLow := hHolds.1
  have hHigh := hHolds.2
  have hEnd : offset + len + (bytes - len) = offset + bytes := by
    omega
  unfold FindsIn
  rw [hEnd, Nat.max_eq_left hLow,
    Nat.max_eq_left (Nat.le_add_right_of_le hLow)]
  -- unless the range ends in it, a piece is a whole one
  have hNext : ∀ k,
      offset + len < offset + bytes →
        offset + len + k * min c.stripeLen layout.leafsize =
          offset +
            (k + 1) * min c.stripeLen layout.leafsize := by
    intro k hMore
    have hFull : len = min c.stripeLen layout.leafsize := by
      omega
    rw [Nat.succ_mul]
    omega
  constructor
  · intro hAll
    have hFirst := hAll 0 (by omega)
    rw [Nat.zero_mul, Nat.add_zero] at hFirst
    refine ⟨hFirst, ?_⟩
    intro k hk
    have hMore : offset + len < offset + bytes := by
      omega
    rw [hNext k hMore] at hk ⊢
    exact hAll (k + 1) hk
  · intro hRest k hk
    rcases hRest with ⟨hFirst, hLater⟩
    cases k with
    | zero => rwa [Nat.zero_mul, Nat.add_zero]
    | succ k =>
        have hWhole :
            min c.stripeLen layout.leafsize ≤
              (k + 1) * min c.stripeLen layout.leafsize :=
          Nat.le_mul_of_pos_left _ (Nat.succ_pos k)
        have hShort := Nat.lt_of_le_of_lt
          (Nat.add_le_add_left hWhole offset) hk
        have hMore : offset + len < offset + bytes := by
          omega
        rw [← hNext k hMore] at hk ⊢
        exact hLater k hk

/-
  In the chunk of the piece, alignment says that the piece
  ends in the full stripe that is mapped.
-/
theorem aligned_parity_iff
    (hc : c ∈ layout.chunks)
    (hParity : c.type.isRaid56 = true)
    {offset bytes len : Nat}
    (hHolds : c.Holds offset)
    (hPos : 0 < bytes)
    (hLen :
      len = min (min c.stripeLen bytes) layout.leafsize) :
    layout.Aligned offset bytes ↔
      (offset - c.start + len ≤
          c.fullStripeEnd (offset - c.start) ∧
        c.FindsRow (offset - c.start)) ∧
        layout.Aligned (offset + len) (bytes - len) := by
  have hEnds := endsIn_piece_iff hParity hHolds hLen
  have hFinds := findsIn_piece_iff hHolds hPos hLen
  have hEnd := c.fullStripeEnd_le hHolds.offset_lt
  have hLow := hHolds.1
  constructor
  · intro hAligned
    rcases hAligned c hc hParity with ⟨hAllEnds, hAllFinds⟩
    rcases hEnds.mp hAllEnds with ⟨hInside, hLaterEnds⟩
    rcases hFinds.mp hAllFinds with ⟨hRow, hLaterFinds⟩
    refine ⟨⟨hInside, hRow⟩, ?_⟩
    intro d hd hd'
    by_cases hSame : c = d
    · subst hSame
      exact ⟨hLaterEnds, hLaterFinds⟩
    · exact (alignedIn_other_iff hc hd hSame hLow (by omega)
        (by omega)).mp (hAligned d hd hd')
  · intro hRest d hd hd'
    rcases hRest with ⟨⟨hInside, hRow⟩, hAligned⟩
    by_cases hSame : c = d
    · subst hSame
      rcases hAligned c hc hParity with
        ⟨hLaterEnds, hLaterFinds⟩
      exact ⟨hEnds.mpr ⟨hInside, hLaterEnds⟩,
        hFinds.mpr ⟨hRow, hLaterFinds⟩⟩
    · exact (alignedIn_other_iff hc hd hSame hLow (by omega)
        (by omega)).mpr (hAligned d hd hd')

/- The piece ends in the full stripe that is mapped. -/
theorem le_mapped_end_iff
    (hParity : c.type.isRaid56 = true)
    (hFull : 0 < fullStripeLen c.toMapLookup)
    {offset len : Nat}
    (hPos : 0 < len) :
    offset + len ≤
        c.fullStripeEnd
          (fullStripeStart c.toMapLookup offset) ↔
      offset + len ≤ c.fullStripeEnd offset ∧
        c.FindsRow offset := by
  have hRow := c.rowOf_fullStripeStart_iff hParity offset
  have hBefore : rowOf c.toMapLookup
        (fullStripeStart c.toMapLookup offset) ≤
      rowOf c.toMapLookup offset := by
    rw [c.rowOf_eq_div, c.rowOf_eq_div]
    exact Nat.div_le_div_right (c.fullStripeStart_le offset)
  have hOwn := ((c.rowOf_eq_iff offset _).mp rfl).1
  unfold Chunk.FindsRow
  rw [← hRow]
  unfold Chunk.fullStripeEnd
  rcases Nat.lt_or_eq_of_le hBefore with hLess | hSame
  · -- another full stripe ends before the offset
    have hMul := Nat.mul_le_mul_right
      (width c.toMapLookup * c.stripeLen)
      (Nat.succ_le_of_lt hLess)
    rw [Nat.succ_eq_add_one] at hMul
    constructor
    · omega
    · intro hBoth
      exact absurd hBoth.2.2 (Nat.ne_of_lt hLess)
  · rw [hSame]
    exact ⟨fun h => ⟨h, hFull, rfl⟩, fun h => h.1⟩

----------
-- Whole Stripes
----------

/- What is left of the range is whole stripes too. -/
theorem WholeStripes.drop
    (hc : c ∈ layout.chunks)
    {offset bytes len : Nat}
    (hWhole : layout.WholeStripes offset bytes)
    (hLow : c.start ≤ offset)
    (hHigh : offset + len ≤ c.start + c.size)
    (hLen : len ≤ bytes)
    (hOwn :
      c.type.isRaid56 = true → len = c.stripeLen ∧
        offset < c.start + c.size ∧ 0 < bytes) :
    layout.WholeStripes (offset + len) (bytes - len) := by
  have hEnd : offset + len + (bytes - len) = offset + bytes := by
    omega
  intro d hd hParity hMeets
  rw [hEnd] at hMeets ⊢
  rcases hWhole d hd hParity (by omega) with
    ⟨hOne, hLeaf, hStart, hStop⟩
  refine ⟨hOne, hLeaf, ?_, hStop⟩
  by_cases hSame : c = d
  · subst hSame
    rcases hOwn hParity with ⟨hStripe, _, _⟩
    rw [Nat.max_eq_left hLow] at hStart
    rw [Nat.max_eq_left (by omega),
      Nat.sub_add_comm hLow, hStripe]
    exact Nat.dvd_add hStart (Nat.dvd_refl _)
  · rcases before_or_after hc hd hSame with hAfter | hBefore
    · rw [Nat.max_eq_right (by omega)] at hStart ⊢
      exact hStart
    · omega

/- A piece is the one data stripe of its full stripe. -/
theorem WholeStripes.piece
    (hc : c ∈ layout.chunks)
    (hParity : c.type.isRaid56 = true)
    {offset bytes len : Nat}
    (hWhole : layout.WholeStripes offset bytes)
    (hHolds : c.Holds offset)
    (hPos : 0 < bytes)
    (hLen :
      len = min (min c.stripeLen bytes) layout.leafsize) :
    len = c.stripeLen ∧
      nrDataStripes c.toMapLookup = 1 ∧
      c.stripeLen ∣ offset - c.start := by
  have hLow := hHolds.1
  have hHigh := hHolds.2
  rcases hWhole c hc hParity (by omega) with
    ⟨hOne, hLeaf, hStart, hStop⟩
  rw [Nat.max_eq_left hLow] at hStart
  refine ⟨?_, hOne, hStart⟩
  -- a whole stripe at least is left of the range
  have hLeft := Nat.le_of_dvd (by omega)
    (Nat.dvd_sub hStop hStart)
  omega

/- A whole stripe needs no old bytes. -/
theorem WholeStripes.readsRight
    (hParity : c.type.isRaid56 = true)
    {offset : Nat}
    {data : List UInt8}
    (hLow : c.start ≤ offset)
    (hOne : nrDataStripes c.toMapLookup = 1)
    (hStart : c.stripeLen ∣ offset - c.start)
    (hLen : data.length = c.stripeLen) :
    layout.ReadsRight c (offset - c.start)
      ⟨offset, data⟩ := by
  right
  intro i hi
  have hFirst :
      c.stripeStart (rowOf c.toMapLookup (offset - c.start))
          i = offset := by
    unfold Chunk.stripeStart
    rw [c.rowOf_eq_div, ← nrDataStripes_eq_width hParity,
      hOne, Nat.one_mul, Nat.mul_one,
      show i = 0 by omega, Nat.add_zero,
      Nat.div_mul_cancel hStart]
    omega
  unfold ExtentBuffer.CoversAll
  rw [hFirst, hLen]
  exact ⟨le_rfl, le_rfl⟩

----------
-- One Piece
----------

/-
  One turn of the write loop stores `keep` of the `len` bytes
  it consumes; alignment says that it stores them all.
-/
structure Piece
    (layout : Layout)
    (disk disk' : Disk)
    (buf : List UInt8)
    (offset len keep : Nat) : Prop where
  pos : 0 < len
  len_le : len ≤ buf.length
  keep_le : keep ≤ len
  aligned_iff :
    layout.Aligned offset buf.length ↔
      keep = len ∧
        layout.Aligned (offset + len) (buf.length - len)
  writes : layout.Writes disk disk' offset (buf.take keep)
  whole :
    layout.WholeStripes offset buf.length →
      layout.Aligned offset buf.length →
        layout.WholeStripes (offset + len)
          (buf.length - len)

theorem writeLoop_plain
    (disk : Disk)
    (mirror fuel : Nat)
    {b : UInt8}
    {bs : List UInt8}
    {chunk : Chunk}
    (hChunk : chunk ∈ layout.chunks)
    (hPlain : chunk.type.isRaid56 = false)
    {offset : Nat}
    (hHolds : chunk.Holds offset) :
    ∃ len disk',
      Piece layout disk disk' (b :: bs) offset len len ∧
        writeLoop layout.info mirror (fuel + 1) disk (b :: bs)
            offset =
          writeLoop layout.info mirror fuel disk'
            ((b :: bs).drop len) (offset + len) := by
  have hPos := chunk.lengthOf_pos hHolds.offset_lt
  have hFits := lengthOf_le chunk (offset - chunk.start)
  have hLow := hHolds.1
  have hHigh := hHolds.2
  generalize hLen :
    min (lengthOf chunk.toMapLookup (offset - chunk.start))
      (b :: bs).length = len
  refine ⟨len,
    ByteStore.writeAll disk
      (plainRuns chunk (offset - chunk.start)
        ((b :: bs).take len)),
    ⟨?_, by omega, le_rfl, ?_, ?_, ?_⟩, ?_⟩
  · rw [List.length_cons] at hLen
    omega
  · simp only [true_and]
    exact aligned_plain_iff hChunk hPlain hLow (by omega)
      (by omega)
  · apply writes_plain disk hChunk hPlain hHolds
    rw [List.length_take]
    omega
  · intro hWhole _
    apply hWhole.drop hChunk hLow (by omega) (by omega)
    intro hParity
    rw [hParity] at hPlain
    cases hPlain
  · rw [writeLoop, mapBlock_eq mappingTree_ordered
      (mem_mappingTree hChunk) hHolds,
      chunk.mapBlockIn_write hPlain]
    simp only [hLen, List.map_map]
    rfl

/- Without a length of a full stripe the process dies. -/
theorem writeLoop_noLen
    (disk : Disk)
    (mirror fuel : Nat)
    {b : UInt8}
    {bs : List UInt8}
    {chunk : Chunk}
    (hChunk : chunk ∈ layout.chunks)
    (hParity : chunk.type.isRaid56 = true)
    {offset : Nat}
    (hHolds : chunk.Holds offset)
    (hLen : fullStripeLen chunk.toMapLookup = 0) :
    writeLoop layout.info mirror (fuel + 1) disk (b :: bs)
        offset = .error .bug := by
  rw [writeLoop, mapBlock_eq mappingTree_ordered
    (mem_mappingTree hChunk) hHolds,
    chunk.mapBlockIn_noLen hParity (Or.inl rfl) hLen]
  rfl

/- The mode in which the stripes are taken from their chunk. -/
def ModeOk
    (layout : Layout)
    (offset bytes : Nat) : Prop :=
  layout.onRestoring = false ∨
    (layout.WholeStripes offset bytes ∧
      layout.Aligned offset bytes)

theorem writeLoop_parity
    (disk : Disk)
    (mirror fuel : Nat)
    {b : UInt8}
    {bs : List UInt8}
    {chunk : Chunk}
    (hChunk : chunk ∈ layout.chunks)
    (hParity : chunk.type.isRaid56 = true)
    {offset : Nat}
    (hHolds : chunk.Holds offset)
    (hFull : 0 < fullStripeLen chunk.toMapLookup)
    (hMode : layout.ModeOk offset (b :: bs).length) :
    ∃ len keep disk',
      Piece layout disk disk' (b :: bs) offset len keep ∧
        writeLoop layout.info mirror (fuel + 1) disk (b :: bs)
            offset =
          writeLoop layout.info mirror fuel disk'
            ((b :: bs).drop len) (offset + len) := by
  have hStripe := chunk.stripeLen_pos
  have hLeaf := layout.leafsize_pos
  have hPos : 0 < (b :: bs).length := Nat.succ_pos _
  have hLow := hHolds.1
  generalize hLen :
    min (min chunk.stripeLen (b :: bs).length)
      layout.leafsize = len
  have hTake : ((b :: bs).take len).length = len := by
    rw [List.length_take]
    omega
  have hReads :
      layout.ReadsRight chunk
        (fullStripeStart chunk.toMapLookup
          (offset - chunk.start))
        ⟨offset, (b :: bs).take len⟩ := by
    rcases hMode with hNormal | ⟨hWhole, hAligned⟩
    · exact Or.inl hNormal
    · rcases hWhole.piece hChunk hParity hHolds hPos
          hLen.symm with ⟨hSame, hOne, hStart⟩
      have hRow := ((aligned_parity_iff hChunk hParity hHolds
        hPos hLen.symm).mp hAligned).1.2.2
      have hMapped :=
        (chunk.rowOf_fullStripeStart_iff hParity _).mpr hRow
      unfold ReadsRight
      rw [hMapped]
      exact WholeStripes.readsRight hParity hLow hOne hStart
        (hTake.trans hSame)
  have hAligned := aligned_parity_iff hChunk hParity hHolds
    hPos hLen.symm
  rw [← le_mapped_end_iff hParity hFull (by omega)]
    at hAligned
  have hEnd := chunk.fullStripeEnd_le hHolds.offset_lt
  rcases writes_parity disk hChunk hParity hHolds
      (chunk.fullStripeStart_le _) hReads with
    ⟨disk', hOk, hWrites⟩
  refine ⟨len,
    min (chunk.fullStripeEnd (fullStripeStart
        chunk.toMapLookup (offset - chunk.start)) -
      (offset - chunk.start)) len,
    disk', ⟨by omega, by omega, Nat.min_le_right _ _, ?_, ?_,
      ?_⟩, ?_⟩
  · rw [hAligned]
    apply and_congr_left
    intro _
    omega
  · rwa [List.take_take] at hWrites
  · intro hWhole hAll
    have hInside := (hAligned.mp hAll).1
    have hOwn := (le_mapped_end_iff hParity hFull
      (by omega)).mp hInside
    apply hWhole.drop hChunk hLow (by omega) (by omega)
    intro _
    exact ⟨(hWhole.piece hChunk hParity hHolds hPos
      hLen.symm).1, hHolds.2, hPos⟩
  · rw [writeLoop, mapBlock_eq mappingTree_ordered
      (mem_mappingTree hChunk) hHolds,
      chunk.mapBlockIn_start hParity (Or.inl rfl) hFull
        hHolds.offset_lt]
    have hInfo : layout.info.leafsize = layout.leafsize := rfl
    simp only [hInfo, hLen, hOk]

----------
-- The Write Loop
----------

/- No data mirror of an address has changed. -/
def Untouched
    (layout : Layout)
    (disk disk' : Disk)
    (logical : Nat) : Prop :=
  ∀ chunk ∈ layout.chunks, chunk.Holds logical →
    ∀ mirror, DataMirror chunk.toMapLookup mirror →
      chunk.byteAt disk' (logical - chunk.start) mirror =
        chunk.byteAt disk (logical - chunk.start) mirror

variable {disk disk' disk'' : Disk}

theorem Untouched.trans
    {logical : Nat}
    (hFirst : layout.Untouched disk disk' logical)
    (hSecond : layout.Untouched disk' disk'' logical) :
    layout.Untouched disk disk'' logical := by
  intro chunk hChunk hHolds mirror hMirror
  rw [hSecond chunk hChunk hHolds mirror hMirror,
    hFirst chunk hChunk hHolds mirror hMirror]

theorem Writes.untouched
    {disk disk' : Disk}
    {start : Nat}
    {data : List UInt8}
    (hWrites : layout.Writes disk disk' start data)
    {logical : Nat}
    (hOutside :
      logical < start ∨ start + data.length ≤ logical) :
    layout.Untouched disk disk' logical := by
  intro chunk hChunk hHolds mirror hMirror
  rw [hWrites chunk hChunk logical mirror hHolds hMirror,
    if_neg (by omega)]

/- Two writes side by side are one write. -/
theorem Writes.append
    {start : Nat}
    {data rest : List UInt8}
    (hFirst : layout.Writes disk disk' start data)
    (hSecond :
      layout.Writes disk' disk'' (start + data.length) rest) :
    layout.Writes disk disk'' start (data ++ rest) := by
  intro chunk hChunk logical mirror hHolds hMirror
  rw [hSecond chunk hChunk logical mirror hHolds hMirror,
    hFirst chunk hChunk logical mirror hHolds hMirror,
    List.length_append]
  by_cases hLow : start ≤ logical
  · by_cases hData : logical < start + data.length
    · rw [if_neg (by omega), if_pos ⟨hLow, hData⟩,
        if_pos (by omega), List.getD_append _ _ _ _ (by omega)]
    · by_cases hRest :
          logical < start + data.length + rest.length
      · rw [if_pos (by omega), if_pos (by omega),
          List.getD_append_right _ _ _ _ (by omega),
          Nat.sub_sub]
      · rw [if_neg (by omega), if_neg (by omega),
          if_neg (by omega)]
  · rw [if_neg (by omega), if_neg (by omega),
      if_neg (by omega)]

theorem Piece.modeOk
    {disk disk' : Disk}
    {buf : List UInt8}
    {offset len keep : Nat}
    (hPiece : Piece layout disk disk' buf offset len keep)
    (hMode : layout.ModeOk offset buf.length) :
    layout.ModeOk (offset + len) (buf.length - len) := by
  rcases hMode with hNormal | ⟨hWhole, hAligned⟩
  · exact Or.inl hNormal
  · exact Or.inr ⟨hPiece.whole hWhole hAligned,
      (hPiece.aligned_iff.mp hAligned).2⟩

/-
  Either kind of chunk takes one piece at a time, unless its
  full stripe has no length.
-/
theorem writeLoop_piece
    (disk : Disk)
    (mirror fuel : Nat)
    {b : UInt8}
    {bs : List UInt8}
    {offset : Nat}
    (hMapped : layout.Mapped offset (b :: bs).length)
    (hMode : layout.ModeOk offset (b :: bs).length) :
    (∃ len keep disk',
      Piece layout disk disk' (b :: bs) offset len keep ∧
        writeLoop layout.info mirror (fuel + 1) disk (b :: bs)
            offset =
          writeLoop layout.info mirror fuel disk'
            ((b :: bs).drop len) (offset + len)) ∨
    (¬ layout.Aligned offset (b :: bs).length ∧
      writeLoop layout.info mirror (fuel + 1) disk (b :: bs)
        offset = .error .bug) := by
  have hPos : 0 < (b :: bs).length := Nat.succ_pos _
  rcases hMapped.head hPos with ⟨chunk, hChunk, hHolds⟩
  cases hType : chunk.type.isRaid56 with
  | false =>
      rcases writeLoop_plain disk mirror fuel hChunk hType
          hHolds with ⟨len, disk', hPiece⟩
      exact Or.inl ⟨len, len, disk', hPiece⟩
  | true =>
      rcases Nat.eq_zero_or_pos
          (fullStripeLen chunk.toMapLookup) with hLen | hLen
      · right
        refine ⟨?_, writeLoop_noLen disk mirror fuel hChunk
          hType hHolds hLen⟩
        intro hAligned
        have hFinds := ((aligned_parity_iff hChunk hType
          hHolds hPos rfl).mp hAligned).1.2.1
        omega
      · exact Or.inl (writeLoop_parity disk mirror fuel
          hChunk hType hHolds hLen hMode)

/-
  The outcome of writing a range: it is written when it is
  aligned, a byte of it is lost when not, and nothing else is
  touched.
-/
structure Outcome
    (layout : Layout)
    (disk disk' : Disk)
    (buf : List UInt8)
    (offset : Nat) : Prop where
  writes :
    layout.Aligned offset buf.length →
      layout.Writes disk disk' offset buf
  loses :
    ¬ layout.Aligned offset buf.length →
      ∃ logical, offset ≤ logical ∧
        logical < offset + buf.length ∧
        layout.Untouched disk disk' logical
  frame :
    ∀ logical,
      logical < offset ∨ offset + buf.length ≤ logical →
        layout.Untouched disk disk' logical

theorem Outcome.nil
    (layout : Layout)
    (disk : Disk)
    (offset : Nat) :
    Outcome layout disk disk [] offset where
  writes := by
    intro _ chunk _ logical mirror _ _
    rw [if_neg]
    simp only [List.length_nil]
    omega
  loses := by
    intro hNot
    exfalso
    apply hNot
    intro chunk _ _
    refine ⟨?_, ?_⟩
    · intro n _ hPast hBound
      simp only [List.length_nil] at hBound
      omega
    · intro k hBound
      simp only [List.length_nil] at hBound
      omega
  frame := by
    intro logical _ chunk _ _ mirror _
    rfl

/- A piece and what follows it make up the range. -/
theorem Piece.outcome
    {buf : List UInt8}
    {offset len keep : Nat}
    (hPiece : Piece layout disk disk' buf offset len keep)
    (hRest :
      Outcome layout disk' disk'' (buf.drop len)
        (offset + len)) :
    Outcome layout disk disk'' buf offset := by
  rcases hPiece with
    ⟨hPos, hLen, hKeep, hAligned, hWrites, _⟩
  rcases hRest with ⟨hOn, hOff, hFrame⟩
  have hTake : (buf.take keep).length = keep := by
    rw [List.length_take]
    omega
  rw [List.length_drop] at hOn hOff hFrame
  refine ⟨?_, ?_, ?_⟩
  · intro hAll
    rcases hAligned.mp hAll with ⟨rfl, hTail⟩
    have hTail := hOn hTail
    have hBoth := hWrites.append (by rwa [hTake])
    rwa [List.take_append_drop] at hBoth
  · intro hNot
    by_cases hWhole : keep = len
    · -- the byte is lost by a later piece
      rcases hOff fun hTail =>
          hNot (hAligned.mpr ⟨hWhole, hTail⟩) with
        ⟨logical, hLow, hHigh, hLost⟩
      refine ⟨logical, by omega, by omega, ?_⟩
      exact (hWrites.untouched (by omega)).trans hLost
    · -- this piece loses the byte after those it keeps
      refine ⟨offset + keep, by omega, by omega, ?_⟩
      exact (hWrites.untouched (by omega)).trans
        (hFrame _ (by omega))
  · intro logical hOutside
    exact (hWrites.untouched (by omega)).trans
      (hFrame logical (by omega))

theorem writeLoop_spec
    (disk : Disk)
    (mirror : Nat)
    {fuel offset : Nat}
    {buf : List UInt8}
    (hFuel : buf.length ≤ fuel)
    (hMapped : layout.Mapped offset buf.length)
    (hMode : layout.ModeOk offset buf.length) :
    (∃ disk',
      writeLoop layout.info mirror fuel disk buf offset =
          .ok disk' ∧
        Outcome layout disk disk' buf offset) ∨
    (¬ layout.Aligned offset buf.length ∧
      writeLoop layout.info mirror fuel disk buf offset =
        .error .bug) := by
  induction fuel generalizing disk offset buf with
  | zero =>
      have hNil := List.eq_nil_of_length_eq_zero
        (Nat.le_zero.mp hFuel)
      subst hNil
      exact Or.inl ⟨disk, by simp [writeLoop],
        Outcome.nil layout disk offset⟩
  | succ fuel ih =>
      cases buf with
      | nil =>
          exact Or.inl ⟨disk, by simp [writeLoop],
            Outcome.nil layout disk offset⟩
      | cons b bs =>
          rcases writeLoop_piece disk mirror fuel hMapped
              hMode with
            ⟨len, keep, disk₁, hPiece, hStep⟩ | hDies
          · have hPos := hPiece.pos
            have hDrop :
                ((b :: bs).drop len).length =
                  (b :: bs).length - len :=
              List.length_drop
            have hLeft :
                ((b :: bs).drop len).length ≤ fuel := by
              omega
            rw [hStep]
            rcases ih disk₁ hLeft
                (by rw [hDrop]; exact hMapped.drop len)
                (by rw [hDrop]; exact hPiece.modeOk hMode) with
              ⟨disk', hOk, hRest⟩ | ⟨hNot, hDies⟩
            · exact Or.inl ⟨disk', hOk,
                hPiece.outcome hRest⟩
            · right
              refine ⟨?_, hDies⟩
              intro hAligned
              rw [hDrop] at hNot
              exact hNot (hPiece.aligned_iff.mp hAligned).2
          · exact Or.inr hDies

end Layout

----------
-- Round Trips
----------

/-
  Whatever the disk and the buffer, writing the buffer to the
  range succeeds, every plain mirror then reads it back, and
  every byte outside the range reads as before.
-/
def Layout.RoundTrips
    (layout : Layout)
    (offset bytes : Nat) : Prop :=
  ∀ (disk : Disk) (buf : List UInt8), buf.length = bytes →
    ∃ disk',
      writeDataToDisk layout.info disk buf offset 0 =
          .ok disk' ∧
        (∀ mirror, layout.PlainMirrorOn offset bytes mirror →
          readDataFromDisk layout.info disk' offset bytes
            mirror = .ok buf) ∧
        (∀ logical mirror,
          logical < offset ∨ offset + bytes ≤ logical →
          layout.Mapped logical 1 →
          layout.PlainMirrorOn logical 1 mirror →
            readDataFromDisk layout.info disk' logical 1
                mirror =
              readDataFromDisk layout.info disk logical 1
                mirror)

namespace Layout

variable {layout : Layout}

/- A read is determined by the bytes it should return. -/
theorem readDataFromDisk_eq
    {disk : Disk}
    {offset bytes mirror : Nat}
    (hMapped : layout.Mapped offset bytes)
    (hPlain : layout.PlainMirrorOn offset bytes mirror)
    {out : List UInt8}
    (hLength : out.length = bytes)
    (hReturns : layout.Returns disk offset mirror out) :
    readDataFromDisk layout.info disk offset bytes mirror =
      .ok out := by
  rcases readLoop_spec disk le_rfl hMapped hPlain with
    ⟨out', hOk, hLength', hReturns'⟩
  have hSame : out' = out := by
    apply List.ext_getElem?
    intro i
    by_cases hi : i < bytes
    · rcases hMapped i hi with ⟨chunk, hChunk, hHolds⟩
      rw [hReturns' i (by omega) chunk hChunk hHolds,
        hReturns i (by omega) chunk hChunk hHolds]
    · rw [List.getElem?_eq_none (by omega),
        List.getElem?_eq_none (by omega)]
  rw [← hSame]
  exact hOk

theorem roundTrips_of_aligned
    {offset bytes : Nat}
    (hMapped : layout.Mapped offset bytes)
    (hAligned : layout.Aligned offset bytes)
    (hMode :
      layout.onRestoring = false ∨
        layout.WholeStripes offset bytes) :
    layout.RoundTrips offset bytes := by
  intro disk buf hBytes
  subst hBytes
  rcases writeLoop_spec disk 0 le_rfl hMapped
      (hMode.imp_right fun hWhole => ⟨hWhole, hAligned⟩) with
    ⟨disk', hOk, hOutcome⟩ | ⟨hNot, _⟩
  swap
  · exact absurd hAligned hNot
  refine ⟨disk', hOk, ?_, ?_⟩
  · intro mirror hPlain
    apply readDataFromDisk_eq hMapped hPlain rfl
    intro i hi chunk hChunk hHolds
    have hData := chunk.pickMirror_data
      (hPlain chunk hChunk i hi hHolds)
      (offset + i - chunk.start)
    rw [hOutcome.writes hAligned chunk hChunk _ _ hHolds
      hData, if_pos (by omega), Nat.add_sub_cancel_left,
      List.getD_eq_getElem _ _ hi,
      List.getElem?_eq_getElem hi]
  · intro logical mirror hOutside hAt hPlain
    rcases readLoop_spec disk le_rfl hAt hPlain with
      ⟨out, hRead, hLength, hReturns⟩
    have hBefore :
        readDataFromDisk layout.info disk logical 1 mirror =
          .ok out :=
      hRead
    rw [hBefore]
    apply readDataFromDisk_eq hAt hPlain hLength
    intro i hi chunk hChunk hHolds
    have hData := chunk.pickMirror_data
      (hPlain chunk hChunk i (by omega) hHolds)
      (logical + i - chunk.start)
    rw [hReturns i hi chunk hChunk hHolds,
      hOutcome.frame (logical + i) (by omega) chunk hChunk
        hHolds _ hData]

theorem aligned_of_roundTrips
    {offset bytes : Nat}
    (hMapped : layout.Mapped offset bytes)
    (hNormal : layout.onRestoring = false)
    (hTrips : layout.RoundTrips offset bytes) :
    layout.Aligned offset bytes := by
  by_contra hNot
  -- ones written over zeros: a lost byte still reads zero
  generalize hBuf : List.replicate bytes (1 : UInt8) = buf
  have hBytes : buf.length = bytes := by
    rw [← hBuf, List.length_replicate]
  subst hBytes
  rcases hTrips (fun _ _ => 0) buf rfl with
    ⟨disk', hOk, hRead, _⟩
  rcases writeLoop_spec (fun _ _ => 0) 0 le_rfl hMapped
      (Or.inl hNormal) with ⟨disk'', hOk', hOutcome⟩ | hDies
  swap
  · have hError := hOk.symm.trans hDies.2
    cases hError
  have hDisk : disk' = disk'' :=
    Except.ok.inj (hOk.symm.trans hOk')
  subst hDisk
  rcases hOutcome.loses hNot with
    ⟨logical, hLow, hHigh, hLost⟩
  have hZero : layout.PlainMirrorOn offset buf.length 0 := by
    intro chunk _ i _ _
    exact ⟨Nat.zero_le _, fun _ => Nat.zero_le _⟩
  rcases readLoop_spec disk' le_rfl hMapped hZero with
    ⟨out, hOut, _, hReturns⟩
  have hSame : out = buf :=
    Except.ok.inj (hOut.symm.trans (hRead 0 hZero))
  subst hSame
  have hIndex : logical - offset < out.length := by
    omega
  rcases hMapped _ hIndex with ⟨chunk, hChunk, hHolds⟩
  have hByte := hReturns _ hIndex chunk hChunk hHolds
  rw [Nat.add_sub_cancel' hLow] at hByte hHolds
  rw [hLost chunk hChunk hHolds _ (chunk.pickMirror_data
    (hZero chunk hChunk _ hIndex
      (by rwa [Nat.add_sub_cancel' hLow])) _)] at hByte
  rw [← hBuf, List.getElem?_replicate, if_pos hIndex]
    at hByte
  have hOne : (1 : UInt8) = 0 := Option.some.inj hByte
  exact absurd hOne (by decide)

end Layout

/-
  A range round-trips when no full-stripe end inside it is
  crossed by a piece and every piece finds its full stripe;
  while restoring a metadump the chunks with parity must be
  written by whole stripes.  Outside a restore the condition
  is exact.
-/
theorem writeDataToDisk_roundTrips_iff
    (layout : Layout)
    {offset bytes : Nat}
    (hMapped : layout.Mapped offset bytes) :
    (layout.Aligned offset bytes ∧
        (layout.onRestoring = false ∨
          layout.WholeStripes offset bytes) →
      layout.RoundTrips offset bytes) ∧
    (layout.onRestoring = false →
      (layout.RoundTrips offset bytes ↔
        layout.Aligned offset bytes)) := by
  constructor
  · intro hCondition
    exact Layout.roundTrips_of_aligned hMapped hCondition.1
      hCondition.2
  · intro hNormal
    constructor
    · exact Layout.aligned_of_roundTrips hMapped hNormal
    · intro hAligned
      exact Layout.roundTrips_of_aligned hMapped hAligned
        (Or.inl hNormal)

/- A RAID5 chunk of three devices and two full stripes. -/
def raid5Example : Chunk where
  start := 1048576
  size := 262144
  type := .raid5
  stripeLen := 65536
  numStripes := 3
  subStripes := 1
  stripes := [⟨1, 1048576⟩, ⟨2, 1048576⟩, ⟨3, 1048576⟩]
  calcSize := 131072
  stripeLen_pos := raid10Example.stripeLen_pos
  stripeLen_dvd := raid10Example.stripeLen_dvd
  size_eq := raid10Example.size_eq
  stripesOk := wideExample.stripesOk
  stripes_length := rfl
  start_bound := raid10Example.start_bound
  physical_bound := by decide
  disjoint := by decide

/- A filesystem with that chunk alone. -/
def raid5Layout : Layout where
  chunks := [raid5Example]
  leafsize := 16384
  onRestoring := false
  ordered := ⟨by decide, by decide⟩
  apart := by decide
  leafsize_pos := node_pos

theorem raid5Layout_mapped
    {offset bytes : Nat}
    (hLow : 1048576 ≤ offset)
    (hHigh : offset + bytes ≤ 1310720) :
    raid5Layout.Mapped offset bytes := by
  intro i hi
  refine ⟨raid5Example, List.mem_singleton_self _, ?_⟩
  unfold Chunk.Holds
  simp only [raid5Example]
  omega

/- A write inside one full stripe round-trips. -/
theorem writeDataToDisk_roundTrips_raid5 :
    raid5Layout.RoundTrips 1050000 70000 := by
  have hMapped : raid5Layout.Mapped 1050000 70000 :=
    raid5Layout_mapped (by decide) (by decide)
  apply (writeDataToDisk_roundTrips_iff raid5Layout
    hMapped).1
  refine ⟨?_, Or.inl rfl⟩
  intro chunk hChunk hParity
  obtain rfl := List.mem_singleton.mp hChunk
  refine ⟨?_, Layout.FindsIn.of_fullFits (by decide) hParity
    _ _⟩
  intro n _ hPast hBound
  simp only [raid5Example, nrDataStripes, nrParityStripes]
    at hPast hBound
  omega

/-
  200 bytes around the end of the first full stripe: the
  first piece takes them all and the last 100 are lost.
-/
theorem writeDataToDisk_not_roundTrips :
    raid5Layout.Mapped 1179548 200 ∧
      ¬ raid5Layout.RoundTrips 1179548 200 := by
  have hMapped : raid5Layout.Mapped 1179548 200 :=
    raid5Layout_mapped (by decide) (by decide)
  refine ⟨hMapped, ?_⟩
  intro hTrips
  have hAligned :=
    Layout.aligned_of_roundTrips hMapped rfl hTrips
  have hDvd := (hAligned raid5Example
    (List.mem_singleton_self _) rfl).1 1 (by decide)
    (by decide) (by decide)
  revert hDvd
  decide

end Volumes

end BtrfsProgs
