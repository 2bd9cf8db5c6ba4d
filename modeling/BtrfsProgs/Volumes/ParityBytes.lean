import BtrfsProgs.Volumes.ParityWrite
import BtrfsProgs.Volumes.Syndrome

/-
  What a full stripe holds after a write with parity.

  Main declarations:
    * `Chunk.stripeByte`
    * `Layout.stripeByte_write`
    * `writeRaid56WithParity_keeps_parity`
-/

----------
-- Bytes of a Full Stripe
----------

namespace BtrfsProgs

namespace Volumes

namespace Chunk

variable (chunk : Chunk)

/- Byte `j` of stripe `k` of the full stripe of an offset. -/
def stripeByte
    (disk : Disk)
    (offset k j : Nat) : UInt8 :=
  disk (chunk.fullStripeAt offset k).dev
    ((chunk.fullStripeAt offset k).physical + j)

/- All bytes of a stripe. -/
def storedStripe
    (disk : Disk)
    (offset k : Nat) : List UInt8 :=
  (List.range chunk.stripeLen).map
    (chunk.stripeByte disk offset k)

/- The row and the column of a byte of a data stripe. -/
theorem data_place
    {i j : Nat}
    (row : Nat)
    (hi : i < width chunk.toMapLookup)
    (hj : j < chunk.stripeLen) :
    rowOf chunk.toMapLookup
          ((row * width chunk.toMapLookup + i) *
            chunk.stripeLen + j) = row ∧
      colOf chunk.toMapLookup
          ((row * width chunk.toMapLookup + i) *
            chunk.stripeLen + j) = i ∧
      ((row * width chunk.toMapLookup + i) *
            chunk.stripeLen + j) % chunk.stripeLen = j := by
  have hDiv : ((row * width chunk.toMapLookup + i) *
      chunk.stripeLen + j) / chunk.stripeLen =
        row * width chunk.toMapLookup + i := by
    rw [Nat.add_comm, Nat.add_mul_div_right _ _
      chunk.stripeLen_pos, Nat.div_eq_of_lt hj, Nat.zero_add]
  refine ⟨?_, ?_, ?_⟩
  · unfold rowOf
    rw [hDiv, Nat.add_comm, Nat.add_mul_div_right _ _
      chunk.width_pos, Nat.div_eq_of_lt hi, Nat.zero_add]
  · unfold colOf
    rw [hDiv, Nat.add_comm, Nat.add_mul_mod_self_right,
      Nat.mod_eq_of_lt hi]
  · rw [Nat.add_comm, Nat.add_mul_mod_self_right,
      Nat.mod_eq_of_lt hj]

/- A data stripe holds the bytes that are read for it. -/
theorem byteAt_stripeStart
    {i j : Nat}
    (disk : Disk)
    (offset : Nat)
    (hParity : chunk.type.isRaid56 = true)
    (hi : i < nrDataStripes chunk.toMapLookup)
    (hj : j < chunk.stripeLen) :
    chunk.byteAt disk
        (chunk.stripeStart (rowOf chunk.toMapLookup offset) i +
          j - chunk.start) 1 =
      chunk.stripeByte disk offset i j := by
  have hOffset :
      chunk.stripeStart (rowOf chunk.toMapLookup offset) i +
          j - chunk.start =
        (rowOf chunk.toMapLookup offset *
            width chunk.toMapLookup + i) *
          chunk.stripeLen + j := by
    unfold stripeStart
    rw [nrDataStripes_eq_width hParity]
    omega
  rw [nrDataStripes_eq_width hParity] at hi
  obtain ⟨hRow, hCol, hInner⟩ :=
    chunk.data_place (rowOf chunk.toMapLookup offset) hi hj
  unfold byteAt stripeByte
  rw [hOffset]
  unfold mirrorAt fullStripeAt
  rw [chunk.place_eq_raidIndex hParity, hRow, mirrorStripe,
    if_neg (by omega), hCol]
  simp only [stripeAt, depthOf, hRow, hInner]
  congr 1
  omega

end Chunk

----------
-- Storing a Full Stripe
----------

namespace Layout

variable {layout : Layout}

/- Every stripe of a full stripe gets its own bytes. -/
theorem stripeByte_fullRuns
    {chunk : Chunk}
    {offset k j : Nat}
    {ebs : List (List UInt8)}
    {out : List UInt8}
    (disk : Disk)
    (hChunk : chunk ∈ layout.chunks)
    (hOffset : offset < chunk.size)
    (hLen : ∀ eb ∈ ebs, eb.length = chunk.stripeLen)
    (hk : k < chunk.numStripes)
    (hj : j < chunk.stripeLen)
    (hOut : ebs[k]? = some out) :
    chunk.stripeByte
        (ByteStore.writeAll disk (fullRuns chunk offset ebs))
        offset k j =
      out.getD j 0 := by
  have hFits := chunk.row_fits hOffset
  rw [Nat.succ_mul] at hFits
  set row := rowOf chunk.toMapLookup offset with hRow
  have hAddr : (chunk.fullStripeAt offset k).physical + j =
      (stripeAt chunk.toMapLookup
        (raidIndex chunk.toMapLookup row k)
        (row * chunk.stripeLen + j)).physical := by
    simp only [Chunk.fullStripeAt, stripeAt, ← hRow]
    omega
  have hCovers : ∀ k' out', k' < chunk.numStripes →
      ebs[k']? = some out' →
        ((runAt (chunk.fullStripeAt offset k') out').Covers
            (chunk.fullStripeAt offset k).dev
            ((chunk.fullStripeAt offset k).physical + j) ↔
          k' = k) := by
    intro k' out' hk' hOut'
    have hOutLen := hLen out' (List.mem_of_getElem? hOut')
    have hIff := covers_iff hChunk hChunk
      (chunk.raidIndex_lt row k') (chunk.raidIndex_lt row k)
      (show row * chunk.stripeLen + out'.length ≤
        chunk.calcSize by omega)
      (show row * chunk.stripeLen + j < chunk.calcSize by
        omega)
    rw [hAddr]
    refine hIff.trans ⟨?_, ?_⟩
    · rintro ⟨_, hIndex, _⟩
      exact chunk.raidIndex_inj hk' hk hIndex
    · rintro rfl
      exact ⟨rfl, rfl, by omega, by omega⟩
  unfold Chunk.stripeByte
  apply ByteStore.writeAll_eq
  · intro run hRun hCover
    rcases mem_fullRuns_iff.mp hRun with
      ⟨k', out', hk', hOut', rfl⟩
    obtain rfl := (hCovers k' out' hk' hOut').mp hCover
    rw [hOut] at hOut'
    obtain rfl := Option.some.inj hOut'
    have hOutLen := hLen out (List.mem_of_getElem? hOut)
    simp only [runAt, Nat.add_sub_cancel_left]
    rw [List.getD_eq_getElem _ _ (by omega),
      List.getElem?_eq_getElem (by omega)]
  · left
    exact ⟨_, mem_fullRuns_iff.mpr ⟨k, out, hk, hOut, rfl⟩,
      (hCovers k out hk hOut).mpr rfl⟩

/- The stripes of a raid map have a Q stripe on RAID6. -/
theorem mem_raidLabels_iff
    {chunk : Chunk}
    {offset : Nat}
    (hParity : chunk.type.isRaid56 = true)
    (hOffset : offset < chunk.size) :
    RAID6_Q_STRIPE ∈
        (List.range chunk.numStripes).map
          (raidLabel chunk.toMapLookup
            (rowOf chunk.toMapLookup offset)) ↔
      chunk.type = .raid6 := by
  have hFits := chunk.fullStripe_fits hParity hOffset
  have hBound := chunk.start_bound
  rw [chunk.raidLabels_eq hParity, List.mem_append]
  constructor
  · rintro (hData | hLabel)
    · rw [List.mem_map] at hData
      rcases hData with ⟨i, hi, hEq⟩
      have hStart := chunk.stripeStart_fits hParity offset
        (List.mem_range.mp hi)
      have hEnd := chunk.fullStripeEnd_le hOffset
      unfold Chunk.stripeStart at hStart
      unfold RAID6_Q_STRIPE at hEq
      unfold RAID5_P_STRIPE at hBound
      omega
    · unfold parityLabels at hLabel
      split at hLabel
      · assumption
      · rw [List.mem_singleton] at hLabel
        exact absurd hLabel (by decide)
  · intro hType
    right
    unfold parityLabels
    rw [if_pos hType]
    decide

/-
  A write with parity stores the stripes with the buffer laid
  over them, and the parity of these.
-/
theorem stripeByte_write
    (disk : Disk)
    (hNormal : layout.onRestoring = false)
    {chunk : Chunk}
    (hChunk : chunk ∈ layout.chunks)
    (hParity : chunk.type.isRaid56 = true)
    {offset : Nat}
    (hOffset : offset < chunk.size)
    (eb : ExtentBuffer) :
    ∃ disk' ebs,
      writeRaid56WithParity layout.info disk eb
          ((List.range chunk.numStripes).map
            (chunk.fullStripeAt offset))
          chunk.stripeLen
          ((List.range chunk.numStripes).map
            (raidLabel chunk.toMapLookup
              (rowOf chunk.toMapLookup offset))) = .ok disk' ∧
      ebs.length = nrDataStripes chunk.toMapLookup ∧
      (∀ out ∈ ebs, out.length = chunk.stripeLen) ∧
      (∀ i < nrDataStripes chunk.toMapLookup,
        ∀ j < chunk.stripeLen,
          (ebs.getD i []).getD j 0 =
            overlay eb
              (fun _ => chunk.stripeByte disk offset i j)
              (chunk.stripeStart
                (rowOf chunk.toMapLookup offset) i + j)) ∧
      (∀ i < nrDataStripes chunk.toMapLookup,
        ∀ j < chunk.stripeLen,
          chunk.stripeByte disk' offset i j =
            (ebs.getD i []).getD j 0) ∧
      (∀ j < chunk.stripeLen,
        chunk.stripeByte disk' offset
            (nrDataStripes chunk.toMapLookup) j =
          xorByte ebs j) ∧
      (chunk.type = .raid6 → ∀ j < chunk.stripeLen,
        chunk.stripeByte disk' offset
            (nrDataStripes chunk.toMapLookup + 1) j =
          syndromeByte ebs j) := by
  obtain ⟨ebs, hSplit, hEbs⟩ :=
    splitEb_spec disk hChunk hParity hOffset
      (show layout.ReadsRight chunk offset eb from
        Or.inl hNormal)
  have hCount := hEbs.length_eq
  rw [List.length_range] at hCount
  have hTotal := chunk.data_add_parity hParity
  have hAt : ∀ i < nrDataStripes chunk.toMapLookup,
      ∃ out, ebs[i]? = some out ∧ ebs.getD i [] = out ∧
        ListsBytes
          (overlay eb fun logical =>
            chunk.byteAt disk (logical - chunk.start) 1)
          (chunk.stripeStart
            (rowOf chunk.toMapLookup offset) i)
          chunk.stripeLen out := by
    intro i hi
    obtain ⟨out, hOut, hBytes⟩ := forall₂_range_get hEbs hi
    refine ⟨out, hOut, ?_, hBytes⟩
    rw [List.getD_eq_getElem?_getD, hOut, Option.getD_some]
  have hDataLen : ∀ out ∈ ebs,
      out.length = chunk.stripeLen := by
    intro out hMem
    obtain ⟨i, hi⟩ := List.mem_iff_getElem?.mp hMem
    have hLt := (List.getElem?_eq_some_iff.mp hi).1
    obtain ⟨out', hOut', _, hBytes⟩ := hAt i (by omega)
    rw [hi] at hOut'
    cases hOut'
    exact hBytes.1
  set labels := (List.range chunk.numStripes).map
    (raidLabel chunk.toMapLookup
      (rowOf chunk.toMapLookup offset)) with hLabels
  set parity := parityEbs chunk.stripeLen labels ebs
    with hParityEbs
  have hLen : ∀ out ∈ ebs ++ parity,
      out.length = chunk.stripeLen := by
    intro out hMem
    rcases List.mem_append.mp hMem with hMem | hMem
    · exact hDataLen out hMem
    · exact parityEbs_length out hMem
  refine ⟨ByteStore.writeAll disk
      (fullRuns chunk offset (ebs ++ parity)), ebs, ?_,
    hCount.symm, hDataLen, ?_, ?_, ?_, ?_⟩
  · unfold writeRaid56WithParity
    rw [hSplit]
    rfl
  · intro i hi j hj
    obtain ⟨out, hOut, hGetD, hBytes⟩ := hAt i hi
    have hByte := hBytes.2 j hj
    rw [hGetD, List.getD_eq_getElem?_getD, hByte,
      Option.getD_some]
    unfold overlay
    dsimp only
    rw [chunk.byteAt_stripeStart disk offset hParity hi hj]
  · intro i hi j hj
    obtain ⟨out, hOut, hGetD, _⟩ := hAt i hi
    rw [hGetD]
    apply stripeByte_fullRuns disk hChunk hOffset hLen
      (by omega) hj
    rw [List.getElem?_append_left (by omega), hOut]
  · intro j hj
    have hPos : 0 < nrParityStripes chunk.toMapLookup := by
      cases hType : chunk.type <;>
        simp only [hType, Profile.isRaid56,
          Bool.false_eq_true] at hParity <;>
        simp [nrParityStripes, hType]
    have hP : (ebs ++ parity)[nrDataStripes
        chunk.toMapLookup]? =
          some ((List.range chunk.stripeLen).map
            (xorByte ebs)) := by
      rw [List.getElem?_append_right (by omega), ← hCount,
        Nat.sub_self, hParityEbs]
      unfold parityEbs raid6GenSyndrome
      split
      · rfl
      · rfl
    have hWritten := stripeByte_fullRuns disk hChunk hOffset
      hLen (by omega) hj hP
    simpa [hj] using hWritten
  · intro hType j hj
    have hTwo : nrParityStripes chunk.toMapLookup = 2 := by
      simp [nrParityStripes, hType]
    have hQ : (ebs ++ parity)[nrDataStripes
        chunk.toMapLookup + 1]? =
          some ((List.range chunk.stripeLen).map
            (syndromeByte ebs)) := by
      rw [List.getElem?_append_right (by omega), ← hCount,
        Nat.add_sub_cancel_left, hParityEbs]
      unfold parityEbs
      rw [if_pos ((mem_raidLabels_iff hParity hOffset).mpr
        hType)]
      rfl
    have hWritten := stripeByte_fullRuns disk hChunk hOffset
      hLen (by omega) hj hQ
    simpa [hj] using hWritten

end Layout

----------
-- Parity
----------

/-
  A buffer inside one full stripe, whose stripes and raid map
  are given, is written with its parity: the data stripes
  hold their old bytes with the buffer laid over them, P is
  their exclusive or, Q on RAID6 is the sum of stripe `i`
  times the `i`-th power of the root, and each data stripe is
  the exclusive or of P and the others.  `mapBlock` gives
  these stripes and this raid map where the length of a full
  stripe, a product of `int`s, finds the full stripe.
-/
theorem writeRaid56WithParity_keeps_parity
    (layout : Layout)
    (disk : Disk)
    {chunk : Chunk}
    (eb : ExtentBuffer)
    (hNormal : layout.onRestoring = false)
    (hChunk : chunk ∈ layout.chunks)
    (hParity : chunk.type.isRaid56 = true)
    (hHolds : chunk.Holds eb.start)
    (hInside :
      eb.start + eb.data.length ≤
        chunk.start +
          chunk.fullStripeEnd (eb.start - chunk.start)) :
    let offset := eb.start - chunk.start
    let row := rowOf chunk.toMapLookup offset
    let data := nrDataStripes chunk.toMapLookup
    let stripes := (List.range chunk.numStripes).map
      (chunk.fullStripeAt offset)
    let raidMap := (List.range chunk.numStripes).map
      (raidLabel chunk.toMapLookup row)
    (chunk.FindsRow offset →
      mapBlock layout.info.mappingTree .WRITE eb.start 0
          true =
        .ok ⟨chunk.stripeLen, chunk.type, stripes,
          some raidMap⟩) ∧
    ∃ disk',
      writeRaid56WithParity layout.info disk eb stripes
          chunk.stripeLen raidMap = .ok disk' ∧
      -- every byte of the buffer is in one data stripe
      (∀ b < eb.data.length, ∃ i < data,
        ∃ j < chunk.stripeLen,
          eb.start + b = chunk.stripeStart row i + j) ∧
      (∀ i < data, ∀ j < chunk.stripeLen,
        chunk.stripeByte disk' offset i j =
          overlay eb
            (fun _ => chunk.stripeByte disk offset i j)
            (chunk.stripeStart row i + j)) ∧
      (∀ j < chunk.stripeLen,
        chunk.stripeByte disk' offset data j =
          xorSum (fun i => chunk.stripeByte disk' offset i j)
            (List.range data)) ∧
      (chunk.type = .raid6 → ∀ j < chunk.stripeLen,
        ByteField.element
            (chunk.stripeByte disk' offset (data + 1) j) =
          ∑ i ∈ Finset.range data,
            AdjoinRoot.root ByteField.modulus ^ i *
              ByteField.element
                (chunk.stripeByte disk' offset i j)) ∧
      (∀ i < data, ∀ j < chunk.stripeLen,
        chunk.stripeByte disk' offset i j =
          chunk.stripeByte disk' offset data j ^^^
            xorSum
              (fun k => chunk.stripeByte disk' offset k j)
              ((List.range data).filter (· ≠ i))) ∧
      -- the loops on words store the same
      (NSIZE ∣ chunk.stripeLen →
        xorStripes chunk.stripeLen
            ((List.range data).map
              (chunk.storedStripe disk' offset)) =
          chunk.storedStripe disk' offset data ∧
        (chunk.type = .raid6 →
          genSyndrome chunk.stripeLen
              ((List.range data).map
                (chunk.storedStripe disk' offset)) =
            [chunk.storedStripe disk' offset data,
              chunk.storedStripe disk' offset
                (data + 1)])) := by
  intro offset row data stripes raidMap
  have hOffset : offset < chunk.size := hHolds.offset_lt
  have hLow := hHolds.1
  obtain ⟨disk', ebs, hWrite, hCount, hLen, hOverlay, hData,
      hP, hQ⟩ :=
    Layout.stripeByte_write disk hNormal hChunk hParity
      hOffset eb
  have hMap : chunk.FindsRow offset →
      mapBlock layout.info.mappingTree .WRITE eb.start 0
          true =
        .ok ⟨chunk.stripeLen, chunk.type, stripes,
          some raidMap⟩ := by
    intro hFinds
    rw [mapBlock_eq Layout.mappingTree_ordered
      (Layout.mem_mappingTree hChunk) hHolds]
    exact chunk.mapBlockIn_raidMap hParity (Or.inl rfl)
      hOffset hFinds
  -- P is computed from the stripes that were stored
  have hXor : ∀ j < chunk.stripeLen,
      chunk.stripeByte disk' offset data j =
        xorSum (fun i => chunk.stripeByte disk' offset i j)
          (List.range data) := by
    intro j hj
    rw [hP j hj, xorByte_eq_xorSum, hCount]
    unfold xorSum
    apply List.foldr_ext
    intro i hi w
    dsimp only
    rw [hData i (List.mem_range.mp hi) j hj]
  -- the buffers are the data stripes that were stored
  have hEbs : ebs = (List.range data).map
      (chunk.storedStripe disk' offset) := by
    apply List.ext_getElem
    · rw [List.length_map, List.length_range, hCount]
    · intro i hi _
      have hBuffer := hLen _ (List.getElem_mem hi)
      rw [List.getElem_map, List.getElem_range]
      apply List.ext_getElem
      · rw [hBuffer, Chunk.storedStripe, List.length_map,
          List.length_range]
      · intro j hj _
        have hByte := hData i (by omega) j (by omega)
        rw [List.getD_eq_getElem _ _ hi,
          List.getD_eq_getElem _ _ hj] at hByte
        rw [← hByte]
        simp [Chunk.storedStripe]
  have hStored : ∀ {k f},
      (∀ j < chunk.stripeLen,
        chunk.stripeByte disk' offset k j = f j) →
      (List.range chunk.stripeLen).map f =
        chunk.storedStripe disk' offset k := by
    intro k f hBytes
    apply List.map_congr_left
    intro j hj
    exact (hBytes j (List.mem_range.mp hj)).symm
  have hSome : ebs ≠ [] := by
    have hWidth := chunk.width_pos
    rw [← nrDataStripes_eq_width hParity, ← hCount] at hWidth
    exact List.ne_nil_of_length_pos hWidth
  refine ⟨hMap, disk', hWrite, ?_, ?_, hXor, ?_, ?_, ?_⟩
  · intro b hb
    have hRows := (chunk.rowOf_eq_iff offset row).mp rfl
    set o := eb.start + b - chunk.start with ho
    have hRow : rowOf chunk.toMapLookup o = row := by
      rw [chunk.rowOf_eq_iff]
      unfold Chunk.fullStripeEnd at hInside
      change eb.start + eb.data.length ≤ chunk.start +
        (row + 1) * _ at hInside
      omega
    have hCol := chunk.colOf_lt o
    have hSplit := offset_eq chunk.toMapLookup o
    refine ⟨colOf chunk.toMapLookup o, ?_,
      o % chunk.stripeLen, chunk.mod_stripeLen_lt o, ?_⟩
    · change _ < nrDataStripes chunk.toMapLookup
      rwa [nrDataStripes_eq_width hParity]
    · unfold Chunk.stripeStart
      rw [nrDataStripes_eq_width hParity, ← hRow]
      omega
  · intro i hi j hj
    rw [hData i hi j hj]
    exact hOverlay i hi j hj
  · intro hType j hj
    rw [hQ hType j hj, element_syndromeByte, hCount]
    apply Finset.sum_congr rfl
    intro i hi
    rw [hData i (Finset.mem_range.mp hi) j hj]
  · intro i hi j hj
    rw [hXor j hj]
    exact xorSum_recover (f := fun i =>
      chunk.stripeByte disk' offset i j) List.nodup_range
      (List.mem_range.mpr hi)
  · intro hWords
    rw [← hEbs]
    refine ⟨?_, ?_⟩
    · rw [xorStripes_eq hWords hLen]
      exact hStored hP
    · intro hType
      rw [genSyndrome_eq hWords hSome hLen, raid6GenSyndrome,
        hStored hP, hStored (hQ hType)]

/- A filesystem with a RAID6 chunk alone. -/
def raid6Layout : Layout where
  chunks := [raid6Example]
  leafsize := 16384
  onRestoring := false
  ordered := ⟨by decide, by decide⟩
  apart := by decide
  leafsize_pos := node_pos

/- Three bytes around the end of the first data stripe. -/
theorem raid6_keeps_parity :
    ∃ disk',
      writeRaid56WithParity raid6Layout.info (fun _ _ => 7)
          ⟨1114111, [1, 2, 3]⟩
          ((List.range 4).map (raid6Example.fullStripeAt 65535))
          65536
          ((List.range 4).map
            (raidLabel raid6Example.toMapLookup 0)) =
        .ok disk' := by
  rcases writeRaid56WithParity_keeps_parity raid6Layout
    (fun _ _ => 7) ⟨1114111, [1, 2, 3]⟩ rfl
    (List.mem_singleton_self raid6Example) rfl (by decide)
    (by decide) with ⟨_, disk', hWrite, _⟩
  exact ⟨disk', hWrite⟩

end Volumes

end BtrfsProgs
