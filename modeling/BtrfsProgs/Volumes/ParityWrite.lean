import BtrfsProgs.Volumes.Parity
import BtrfsProgs.Volumes.Writes

/-
  What a write to a chunk with parity changes.

  Every data stripe of the full stripe is rebuilt from the
  devices with the written bytes laid over it, so the bytes
  of the buffer past the end of the full stripe are stored
  nowhere.

  Main declarations:
    * `overlay`
    * `splitEbForRaid56_spec`
    * `Layout.writes_parity`
-/

----------
-- Rebuilding a Stripe
----------

namespace BtrfsProgs

namespace Volumes

theorem memcpy_get
    {dst src : List UInt8}
    {off : Nat}
    (hFits : off + src.length ≤ dst.length)
    (j : Nat) :
    (memcpy dst off src)[j]? =
      if off ≤ j ∧ j < off + src.length then
        src[j - off]?
      else
        dst[j]? := by
  unfold memcpy
  by_cases hBefore : j < off
  · rw [if_neg (by omega), List.append_assoc,
      List.getElem?_append_left
        (by rw [List.length_take]; omega),
      List.getElem?_take_of_lt hBefore]
  · by_cases hInside : j < off + src.length
    · rw [if_pos (by omega), List.getElem?_append_left
        (by rw [List.length_append, List.length_take]; omega),
        List.getElem?_append_right
          (by rw [List.length_take]; omega),
        List.length_take, Nat.min_eq_left (by omega)]
    · rw [if_neg (by omega), List.getElem?_append_right
        (by rw [List.length_append, List.length_take]; omega),
        List.length_append, List.length_take,
        Nat.min_eq_left (by omega), List.getElem?_drop]
      congr 1
      omega

theorem memcpy_length
    {dst src : List UInt8}
    {off : Nat}
    (hFits : off + src.length ≤ dst.length) :
    (memcpy dst off src).length = dst.length := by
  unfold memcpy
  simp only [List.length_append, List.length_take,
    List.length_drop]
  omega

/- The byte at an address once a buffer is laid over it. -/
def overlay
    (eb : ExtentBuffer)
    (old : Nat → UInt8)
    (logical : Nat) : UInt8 :=
  if eb.start ≤ logical ∧
      logical < eb.start + eb.data.length then
    eb.data.getD (logical - eb.start) 0
  else
    old logical

/- The bytes of the range from `start` on. -/
def ListsBytes
    (byte : Nat → UInt8)
    (start len : Nat)
    (out : List UInt8) : Prop :=
  out.length = len ∧
    ∀ j < len, out[j]? = some (byte (start + j))

theorem ite_lt_sub
    (a b : Nat) :
    (if a < b then b - a else 0) = b - a := by
  split <;> omega

/- `rmwEb` lays the buffer over what it has read. -/
theorem rmwEb_spec
    {info : FsInfo}
    {disk : Disk}
    {start len : Nat}
    (origEb : ExtentBuffer)
    {old : Nat → UInt8}
    {data : List UInt8}
    (hRead : readWholeEb info disk start len 0 = .ok data)
    (hData : ListsBytes old start len data) :
    ∃ out, rmwEb info disk start len origEb = .ok out ∧
      ListsBytes (overlay origEb old) start len out := by
  rcases hData with ⟨hLength, hBytes⟩
  unfold rmwEb
  rw [hRead]
  simp only
  split
  case isTrue hApart =>
    refine ⟨data, rfl, hLength, ?_⟩
    intro j hj
    rw [hBytes j hj, overlay, if_neg (by omega)]
  case isFalse hMeet =>
    refine ⟨_, rfl, ?_⟩
    rw [ite_lt_sub, ite_lt_sub]
    generalize hOrigOff : start - origEb.start = origOff
    generalize hDestOff : origEb.start - start = destOff
    have hSrc :
        ((origEb.data.drop origOff).take
          (min (min len (origEb.data.length - origOff))
            (len - destOff))).length =
          min (origEb.data.length - origOff)
            (len - destOff) := by
      rw [List.length_take, List.length_drop]
      omega
    refine ⟨?_, ?_⟩
    · rw [memcpy_length (by rw [hSrc]; omega), hLength]
    · intro j hj
      rw [memcpy_get (by rw [hSrc]; omega), hSrc, overlay]
      by_cases hIn :
          origEb.start ≤ start + j ∧
            start + j < origEb.start + origEb.data.length
      · rw [if_pos hIn, if_pos (by omega),
          List.getElem?_take_of_lt (by omega),
          List.getElem?_drop,
          List.getD_eq_getElem _ _ (by omega),
          List.getElem?_eq_getElem (by omega)]
        congr 2
        omega
      · rw [if_neg hIn, if_neg (by omega), hBytes j hj]

/- The buffer holds all of the bytes of the range. -/
def ExtentBuffer.CoversAll
    (eb : ExtentBuffer)
    (start len : Nat) : Prop :=
  eb.start ≤ start ∧
    start + len ≤ eb.start + eb.data.length

/- Both ways of filling a stripe lay the buffer over it. -/
theorem splitEbForRaid56_spec
    {info : FsInfo}
    {disk : Disk}
    (origEb : ExtentBuffer)
    {old : Nat → UInt8}
    {stripeLen : Nat}
    {starts : List Nat}
    (hRead :
      ∀ start ∈ starts, start < RAID5_P_STRIPE ∧
        (origEb.CoversAll start stripeLen ∨
          ∃ data,
            readWholeEb info disk start stripeLen 0 =
                .ok data ∧
              ListsBytes old start stripeLen data))
    {parity : List Nat}
    (hParity : ∀ start ∈ parity, RAID5_P_STRIPE ≤ start) :
    ∃ ebs,
      splitEbForRaid56 info disk origEb stripeLen
          (starts ++ parity) = .ok ebs ∧
        List.Forall₂
          (fun start eb =>
            ListsBytes (overlay origEb old) start stripeLen eb)
          starts ebs := by
  induction starts with
  | nil =>
      refine ⟨[], ?_, List.Forall₂.nil⟩
      cases parity with
      | nil => rfl
      | cons p rest =>
          have hp := hParity p List.mem_cons_self
          simp [splitEbForRaid56, hp]
  | cons start rest ih =>
      rcases ih fun s hs =>
        hRead s (List.mem_cons_of_mem _ hs) with
        ⟨ebs, hSplit, hEbs⟩
      rcases hRead start List.mem_cons_self with
        ⟨hData, hSource⟩
      rw [List.cons_append, splitEbForRaid56,
        if_neg (by omega)]
      simp only [hSplit]
      by_cases hPart :
          start < origEb.start ∨
            origEb.start + origEb.data.length <
              start + stripeLen
      · rcases hSource with hAll | ⟨data, hOk, hBytes⟩
        · have hLow := hAll.1
          have hHigh := hAll.2
          omega
        · rcases rmwEb_spec origEb hOk hBytes with
            ⟨out, hRmw, hOut⟩
          rw [if_pos hPart]
          simp only [hRmw]
          exact ⟨_, rfl, List.Forall₂.cons hOut hEbs⟩
      · rw [if_neg hPart]
        refine ⟨_, rfl, List.Forall₂.cons ⟨?_, ?_⟩ hEbs⟩
        · rw [List.length_take, List.length_drop]
          omega
        · intro j hj
          rw [List.getElem?_take_of_lt hj,
            List.getElem?_drop, overlay, if_pos (by omega),
            List.getD_eq_getElem _ _ (by omega),
            List.getElem?_eq_getElem (by omega)]
          congr 2
          omega

----------
-- The Full Stripe
----------

namespace Chunk

variable (chunk : Chunk)

/- The offset at which the full stripe of an offset ends. -/
def fullStripeEnd
    (offset : Nat) : Nat :=
  (rowOf chunk.toMapLookup offset + 1) *
    (width chunk.toMapLookup * chunk.stripeLen)

/- A row is an interval of offsets. -/
theorem rowOf_eq_iff
    (offset row : Nat) :
    rowOf chunk.toMapLookup offset = row ↔
      row * (width chunk.toMapLookup * chunk.stripeLen) ≤
          offset ∧
        offset < (row + 1) *
          (width chunk.toMapLookup * chunk.stripeLen) := by
  rw [chunk.rowOf_eq_div,
    Nat.div_eq_iff chunk.fullStripeLen_pos, Nat.succ_mul]
  have hPos := chunk.fullStripeLen_pos
  omega

theorem lt_fullStripeEnd
    (offset : Nat) :
    offset < chunk.fullStripeEnd offset :=
  ((chunk.rowOf_eq_iff offset _).mp rfl).2

theorem fullStripeEnd_le
    {offset : Nat}
    (hOffset : offset < chunk.size) :
    chunk.fullStripeEnd offset ≤ chunk.size := by
  have hFits := chunk.row_fits hOffset
  unfold fullStripeEnd
  rw [chunk.size_eq_width,
    Nat.mul_comm (width chunk.toMapLookup), ← Nat.mul_assoc]
  exact Nat.mul_le_mul_right _ hFits

/- The first address of data stripe `i` of a full stripe. -/
def stripeStart
    (row i : Nat) : Nat :=
  chunk.start +
    (row * nrDataStripes chunk.toMapLookup + i) *
      chunk.stripeLen

/- A data stripe lies inside its full stripe. -/
theorem stripeStart_fits
    (hParity : chunk.type.isRaid56 = true)
    (offset : Nat)
    {i : Nat}
    (hi : i < nrDataStripes chunk.toMapLookup) :
    chunk.stripeStart (rowOf chunk.toMapLookup offset) i +
        chunk.stripeLen ≤
      chunk.start + chunk.fullStripeEnd offset := by
  unfold stripeStart fullStripeEnd
  rw [nrDataStripes_eq_width hParity] at hi ⊢
  have hMul :
      (rowOf chunk.toMapLookup offset *
          width chunk.toMapLookup + i + 1) *
          chunk.stripeLen ≤
        (rowOf chunk.toMapLookup offset + 1) *
          width chunk.toMapLookup * chunk.stripeLen := by
    apply Nat.mul_le_mul_right
    rw [Nat.succ_mul]
    omega
  rw [Nat.succ_mul, Nat.mul_assoc (_ + 1)] at hMul
  omega

end Chunk

namespace Layout

variable {layout : Layout}

/- Outside a restore, a stripe is read from its chunk. -/
theorem readWholeEb_spec
    (disk : Disk)
    (hNormal : layout.onRestoring = false)
    {chunk : Chunk}
    (hChunk : chunk ∈ layout.chunks)
    (hParity : chunk.type.isRaid56 = true)
    {start len : Nat}
    (hLow : chunk.start ≤ start)
    (hHigh : start + len ≤ chunk.start + chunk.size) :
    ∃ data,
      readWholeEb layout.info disk start len 0 = .ok data ∧
        ListsBytes
          (fun logical =>
            chunk.byteAt disk (logical - chunk.start) 1)
          start len data := by
  have hHolds : ∀ i < len, chunk.Holds (start + i) := by
    intro i hi
    exact ⟨by omega, by omega⟩
  have hMapped : layout.Mapped start len := by
    intro i hi
    exact ⟨chunk, hChunk, hHolds i hi⟩
  have hPlain : layout.PlainMirrorOn start len 0 := by
    intro d hd i hi hAt
    exact ⟨Nat.zero_le _, fun _ => Nat.zero_le _⟩
  have hPick : ∀ offset, chunk.pickMirror offset 0 = 1 := by
    intro offset
    unfold Chunk.pickMirror
    rw [if_pos rfl, if_neg]
    intro hType
    rw [hType] at hParity
    cases hParity
  rcases readLoop_spec disk le_rfl hMapped hPlain with
    ⟨out, hOk, hLength, hReturns⟩
  refine ⟨out, ?_, hLength, ?_⟩
  · unfold readWholeEb
    rw [if_neg (by simp [info, hNormal])]
    exact hOk
  · intro j hj
    have hAt := hReturns j (by omega) chunk hChunk (hHolds j hj)
    rw [hPick] at hAt
    exact hAt

theorem parityLabels_ge
    (type : Profile) :
    ∀ label ∈ parityLabels type, RAID5_P_STRIPE ≤ label := by
  unfold parityLabels
  split <;> decide

/-
  Of the full stripe of an offset no stripe is read from
  where it is not.
-/
def ReadsRight
    (layout : Layout)
    (chunk : Chunk)
    (offset : Nat)
    (eb : ExtentBuffer) : Prop :=
  layout.onRestoring = false ∨
    ∀ i < nrDataStripes chunk.toMapLookup,
      eb.CoversAll
        (chunk.stripeStart (rowOf chunk.toMapLookup offset) i)
        chunk.stripeLen

/- The stripes that a write to an offset stores. -/
theorem splitEb_spec
    (disk : Disk)
    {chunk : Chunk}
    (hChunk : chunk ∈ layout.chunks)
    (hParity : chunk.type.isRaid56 = true)
    {offset : Nat}
    (hOffset : offset < chunk.size)
    {eb : ExtentBuffer}
    (hReads : layout.ReadsRight chunk offset eb) :
    ∃ ebs,
      splitEbForRaid56 layout.info disk eb chunk.stripeLen
          ((List.range chunk.numStripes).map
            (raidLabel chunk.toMapLookup
              (rowOf chunk.toMapLookup offset))) =
        .ok ebs ∧
      List.Forall₂
        (fun i out =>
          ListsBytes
            (overlay eb fun logical =>
              chunk.byteAt disk (logical - chunk.start) 1)
            (chunk.stripeStart
              (rowOf chunk.toMapLookup offset) i)
            chunk.stripeLen out)
        (List.range (nrDataStripes chunk.toMapLookup))
        ebs := by
  have hEnd := chunk.fullStripeEnd_le hOffset
  have hBound := chunk.start_bound
  have hPos := chunk.stripeLen_pos
  rw [chunk.raidLabels_eq hParity]
  have hRead :
      ∀ start ∈
        (List.range (nrDataStripes chunk.toMapLookup)).map
          (chunk.stripeStart (rowOf chunk.toMapLookup offset)),
        start < RAID5_P_STRIPE ∧
        (eb.CoversAll start chunk.stripeLen ∨
          ∃ data,
            readWholeEb layout.info disk start chunk.stripeLen
                0 = .ok data ∧
              ListsBytes
                (fun logical =>
                  chunk.byteAt disk (logical - chunk.start) 1)
                start chunk.stripeLen data) := by
    intro start hStart
    rcases List.mem_map.mp hStart with ⟨i, hi, rfl⟩
    have hFits := chunk.stripeStart_fits hParity offset
      (List.mem_range.mp hi)
    refine ⟨by omega, ?_⟩
    rcases hReads with hNormal | hCovers
    · right
      apply readWholeEb_spec disk hNormal hChunk hParity
      · exact Nat.le_add_right _ _
      · omega
    · exact Or.inl (hCovers i (List.mem_range.mp hi))
  rcases splitEbForRaid56_spec eb hRead
      (parityLabels_ge chunk.type) with ⟨ebs, hOk, hEbs⟩
  exact ⟨ebs, hOk, List.forall₂_map_left_iff.mp hEbs⟩

----------
-- Storing the Full Stripe
----------

/- A depth lies in one row only. -/
theorem row_unique
    {row row' inner len : Nat}
    (hInner : inner < len)
    (hLow : row' * len ≤ inner + row * len)
    (hHigh : inner + row * len < row' * len + len) :
    row = row' := by
  have hLess : row * len < (row' + 1) * len := by
    rw [Nat.succ_mul]
    omega
  have hMore : row' * len < (row + 1) * len := by
    rw [Nat.succ_mul]
    omega
  have hUp := Nat.lt_of_mul_lt_mul_right hLess
  have hDown := Nat.lt_of_mul_lt_mul_right hMore
  omega

/-
  A stripe of a full stripe covers the bytes of one column of
  that row.
-/
theorem covers_full_iff
    {c d : Chunk}
    (hc : c ∈ layout.chunks)
    (hd : d ∈ layout.chunks)
    (hParity : c.type.isRaid56 = true)
    {offset offset' mirror k : Nat}
    (hOffset : offset < c.size)
    (hOffset' : offset' < d.size)
    (hMirror : DataMirror d.toMapLookup mirror)
    (hk : k < c.numStripes)
    {data : List UInt8}
    (hLen : data.length = c.stripeLen) :
    (runAt (c.fullStripeAt offset k) data).Covers
        (d.mirrorAt offset' mirror).dev
        (d.mirrorAt offset' mirror).physical ↔
      c = d ∧ rowOf c.toMapLookup offset' =
          rowOf c.toMapLookup offset ∧
        k = colOf c.toMapLookup offset' := by
  have hFits := c.row_fits hOffset
  rw [Nat.succ_mul] at hFits
  unfold Chunk.fullStripeAt Chunk.mirrorAt
  rw [covers_iff hc hd (c.raidIndex_lt _ k)
    (d.mirror_place_lt offset' hMirror.1 hMirror.2.1)
    (by omega) (d.depthOf_lt hOffset')]
  constructor
  · intro hCovers
    rcases hCovers with ⟨rfl, hIndex, hLow, hHigh⟩
    have hRow :
        rowOf c.toMapLookup offset' =
          rowOf c.toMapLookup offset := by
      have hInner := c.mod_stripeLen_lt offset'
      unfold depthOf at hLow hHigh
      exact row_unique hInner (by omega) (by omega)
    refine ⟨rfl, hRow, ?_⟩
    rw [c.place_eq_raidIndex hParity, hRow] at hIndex
    have hCol := c.raidIndex_inj hk
      (c.mirrorStripe_lt hParity offset' hMirror.2.1) hIndex
    rw [hCol, mirrorStripe, if_neg]
    have hOne := hMirror.2.2 hParity
    omega
  · intro hSame
    rcases hSame with ⟨rfl, hRow, rfl⟩
    have hOne := hMirror.2.2 hParity
    have hInner := c.mod_stripeLen_lt offset'
    refine ⟨rfl, ?_, ?_, ?_⟩
    · rw [c.place_eq_raidIndex hParity, hRow, mirrorStripe,
        if_neg (by omega)]
    · unfold depthOf
      rw [hRow]
      omega
    · unfold depthOf
      rw [hRow]
      omega

theorem parityEbs_length
    {stripeLen : Nat}
    {raidMap : List Nat}
    {ebs : List (List UInt8)} :
    ∀ eb ∈ parityEbs stripeLen raidMap ebs,
      eb.length = stripeLen := by
  intro eb hEb
  unfold parityEbs raid6GenSyndrome at hEb
  split at hEb <;> simp at hEb
  · rcases hEb with rfl | rfl <;> simp
  · subst hEb
    simp

/- Where a column's byte is in the address space. -/
theorem logical_eq_stripeStart
    {chunk : Chunk}
    (hParity : chunk.type.isRaid56 = true)
    {logical : Nat}
    (hLow : chunk.start ≤ logical) :
    logical =
      chunk.stripeStart
          (rowOf chunk.toMapLookup (logical - chunk.start))
          (colOf chunk.toMapLookup (logical - chunk.start)) +
        (logical - chunk.start) % chunk.stripeLen := by
  have hSplit :=
    offset_eq chunk.toMapLookup (logical - chunk.start)
  unfold Chunk.stripeStart
  rw [nrDataStripes_eq_width hParity]
  omega

/- The runs that store the stripes of a full stripe. -/
def fullRuns
    (chunk : Chunk)
    (offset : Nat)
    (ebs : List (List UInt8)) :
    List (ByteStore.Run UInt8) :=
  (((List.range chunk.numStripes).map
    (chunk.fullStripeAt offset)).zip ebs).map
      fun p => runAt p.1 p.2

theorem mem_fullRuns_iff
    {chunk : Chunk}
    {offset : Nat}
    {ebs : List (List UInt8)}
    {run : ByteStore.Run UInt8} :
    run ∈ fullRuns chunk offset ebs ↔
      ∃ k out, k < chunk.numStripes ∧ ebs[k]? = some out ∧
        run = runAt (chunk.fullStripeAt offset k) out := by
  unfold fullRuns
  rw [List.mem_map]
  simp only [List.mem_iff_getElem?, List.getElem?_zip_eq_some]
  constructor
  · intro hRun
    rcases hRun with ⟨p, ⟨k, hStripe, hEb⟩, rfl⟩
    rw [List.getElem?_map, Option.map_eq_some_iff] at hStripe
    rcases hStripe with ⟨j, hj, hAt⟩
    rcases List.getElem?_eq_some_iff.mp hj with ⟨hk, rfl⟩
    rw [List.length_range] at hk
    rw [List.getElem_range] at hAt
    exact ⟨k, p.2, hk, hEb, by rw [hAt]⟩
  · intro hRun
    rcases hRun with ⟨k, out, hk, hEb, rfl⟩
    refine ⟨(chunk.fullStripeAt offset k, out),
      ⟨k, ?_, hEb⟩, rfl⟩
    rw [List.getElem?_map, List.getElem?_range hk,
      Option.map_some]

/- Storing a full stripe changes its row, column by column. -/
theorem byteAt_fullRuns
    (disk : Disk)
    {c d : Chunk}
    (hc : c ∈ layout.chunks)
    (hd : d ∈ layout.chunks)
    (hParity : c.type.isRaid56 = true)
    {offset offset' mirror : Nat}
    (hOffset : offset < c.size)
    (hOffset' : offset' < d.size)
    (hMirror : DataMirror d.toMapLookup mirror)
    {ebs : List (List UInt8)}
    (hLen : ∀ eb ∈ ebs, eb.length = c.stripeLen)
    {value : UInt8}
    (hValue :
      (c = d ∧ rowOf c.toMapLookup offset' =
          rowOf c.toMapLookup offset ∧
        ∃ out, ebs[colOf c.toMapLookup offset']? = some out ∧
          out[offset' % c.stripeLen]? = some value) ∨
      (¬ (c = d ∧ rowOf c.toMapLookup offset' =
          rowOf c.toMapLookup offset) ∧
        value = d.byteAt disk offset' mirror)) :
    d.byteAt (ByteStore.writeAll disk
      (fullRuns c offset ebs)) offset' mirror = value := by
  have hCovers :
      ∀ k out, k < c.numStripes → ebs[k]? = some out →
        ((runAt (c.fullStripeAt offset k) out).Covers
            (d.mirrorAt offset' mirror).dev
            (d.mirrorAt offset' mirror).physical ↔
          c = d ∧ rowOf c.toMapLookup offset' =
              rowOf c.toMapLookup offset ∧
            k = colOf c.toMapLookup offset') := by
    intro k out hk hOut
    exact covers_full_iff hc hd hParity hOffset hOffset'
      hMirror hk (hLen out (List.mem_of_getElem? hOut))
  unfold Chunk.byteAt
  rcases hValue with ⟨rfl, hRow, out, hCol, hByte⟩ | hOther
  · have hOne := hMirror.2.2 hParity
    -- the column's run starts `inner` bytes before the byte
    have hIndex :
        (c.mirrorAt offset' mirror).physical -
            (c.fullStripeAt offset
              (colOf c.toMapLookup offset')).physical =
          offset' % c.stripeLen := by
      unfold Chunk.mirrorAt Chunk.fullStripeAt
      rw [c.place_eq_raidIndex hParity, hRow, mirrorStripe,
        if_neg (by omega)]
      simp only [stripeAt, depthOf, hRow]
      omega
    apply ByteStore.writeAll_eq
    · intro run hRun hCover
      rcases mem_fullRuns_iff.mp hRun with
        ⟨k, eb, hk, hEb, rfl⟩
      rcases (hCovers k eb hk hEb).mp hCover with ⟨_, _, rfl⟩
      rw [hCol] at hEb
      obtain rfl := Option.some.inj hEb
      simp only [runAt]
      rw [hIndex, hByte]
    · left
      have hk : colOf c.toMapLookup offset' < c.numStripes := by
        have hLt := c.mirrorStripe_lt hParity offset'
          hMirror.2.1
        rwa [mirrorStripe, if_neg (by omega)] at hLt
      exact ⟨_, mem_fullRuns_iff.mpr ⟨_, out, hk, hCol, rfl⟩,
        (hCovers _ out hk hCol).mpr ⟨rfl, hRow, rfl⟩⟩
  · rw [hOther.2]
    apply ByteStore.writeAll_of_not_covers
    intro run hRun hCover
    rcases mem_fullRuns_iff.mp hRun with ⟨k, eb, hk, hEb, rfl⟩
    rcases (hCovers k eb hk hEb).mp hCover with
      ⟨hSame, hRow, _⟩
    exact hOther.1 ⟨hSame, hRow⟩

theorem forall₂_range_get
    {R : Nat → List UInt8 → Prop}
    {n : Nat}
    {l : List (List UInt8)}
    (hAll : List.Forall₂ R (List.range n) l)
    {k : Nat}
    (hk : k < n) :
    ∃ out, l[k]? = some out ∧ R k out := by
  rcases List.forall₂_iff_get.mp hAll with ⟨hLength, hGet⟩
  rw [List.length_range] at hLength
  have hAt := hGet k (by rwa [List.length_range]) (by omega)
  rw [List.get_eq_getElem, List.getElem_range] at hAt
  exact ⟨_, List.getElem?_eq_getElem (by omega), hAt⟩

/- Before a bound, a buffer and its cut overlay alike. -/
theorem overlay_eq_take
    {start n logical : Nat}
    (data : List UInt8)
    (old : Nat → UInt8)
    (hBound : logical < start + n) :
    overlay ⟨start, data⟩ old logical =
      if start ≤ logical ∧
          logical < start + (data.take n).length then
        (data.take n).getD (logical - start) 0
      else
        old logical := by
  unfold overlay
  simp only [List.length_take]
  by_cases hIn :
      start ≤ logical ∧ logical < start + data.length
  · rw [if_pos hIn, if_pos (by omega),
      List.getD_eq_getElem _ _ (by omega),
      List.getD_eq_getElem _ _
        (by rw [List.length_take]; omega),
      List.getElem_take]
  · rw [if_neg hIn, if_neg (by omega)]

/-
  A write with parity that is given the full stripe of an
  offset changes its range up to the end of that stripe.
-/
theorem writes_parity
    (disk : Disk)
    {chunk : Chunk}
    (hChunk : chunk ∈ layout.chunks)
    (hParity : chunk.type.isRaid56 = true)
    {start offset : Nat}
    (hHolds : chunk.Holds start)
    (hBefore : offset ≤ start - chunk.start)
    {data : List UInt8}
    (hReads : layout.ReadsRight chunk offset ⟨start, data⟩) :
    ∃ disk',
      writeRaid56WithParity layout.info disk ⟨start, data⟩
          ((List.range chunk.numStripes).map
            (chunk.fullStripeAt offset))
          chunk.stripeLen
          ((List.range chunk.numStripes).map
            (raidLabel chunk.toMapLookup
              (rowOf chunk.toMapLookup offset))) =
            .ok disk' ∧
        layout.Writes disk disk' start
          (data.take (chunk.fullStripeEnd offset -
            (start - chunk.start))) := by
  have hOffset : offset < chunk.size :=
    Nat.lt_of_le_of_lt hBefore hHolds.offset_lt
  have hLow := hHolds.1
  rcases splitEb_spec disk hChunk hParity hOffset hReads with
    ⟨ebs, hOk, hEbs⟩
  unfold writeRaid56WithParity
  simp only [hOk]
  refine ⟨_, rfl, ?_⟩
  intro d hd logical mirror hAt hMirror
  apply byteAt_fullRuns disk hChunk hd hParity hOffset
    hAt.offset_lt hMirror
  · intro eb hEb
    rcases List.mem_append.mp hEb with hEb | hEb
    · rcases List.mem_iff_getElem?.mp hEb with ⟨k, hk⟩
      have hNd := hEbs.length_eq
      rw [List.length_range] at hNd
      have hBound : k < ebs.length :=
        (List.getElem?_eq_some_iff.mp hk).1
      rcases forall₂_range_get hEbs (hNd ▸ hBound) with
        ⟨out, hOut, hBytes⟩
      rw [hk] at hOut
      obtain rfl := Option.some.inj hOut
      exact hBytes.1
    · exact parityEbs_length eb hEb
  · by_cases hRow :
        chunk = d ∧
          rowOf chunk.toMapLookup (logical - d.start) =
            rowOf chunk.toMapLookup offset
    · left
      rcases hRow with ⟨rfl, hRow⟩
      have hCol := chunk.colOf_lt (logical - chunk.start)
      rw [← nrDataStripes_eq_width hParity] at hCol
      rcases forall₂_range_get hEbs hCol with
        ⟨out, hOut, hBytes⟩
      refine ⟨rfl, hRow, out, ?_, ?_⟩
      · rw [List.getElem?_append_left
          (List.getElem?_eq_some_iff.mp hOut).1, hOut]
      · have hEnd :=
          ((chunk.rowOf_eq_iff _ _).mp hRow).2
        have hLast := hAt.1
        have hOne := hMirror.2.2 hParity
        rw [hBytes.2 _
          (chunk.mod_stripeLen_lt (logical - chunk.start)),
          ← hRow, ← logical_eq_stripeStart hParity hAt.1,
          overlay_eq_take data _ (n :=
            chunk.fullStripeEnd offset -
              (start - chunk.start))
            (by unfold Chunk.fullStripeEnd; omega), hOne]
    · right
      refine ⟨hRow, if_neg ?_⟩
      intro hIn
      rw [List.length_take] at hIn
      have hEnd := chunk.fullStripeEnd_le hOffset
      have hInside : chunk.Holds logical :=
        ⟨by omega, by omega⟩
      have hSame := holds_unique hChunk hd hInside hAt
      subst hSame
      apply hRow
      refine ⟨rfl, (chunk.rowOf_eq_iff _ _).mpr ?_⟩
      have hRows := (chunk.rowOf_eq_iff offset _).mp rfl
      unfold Chunk.fullStripeEnd at hIn
      omega

end Layout

end Volumes

end BtrfsProgs
