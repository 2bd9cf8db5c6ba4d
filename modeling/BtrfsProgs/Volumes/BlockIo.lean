import BtrfsProgs.Volumes.RoundTrip

/-
  Writing a tree block and reading it back, from `disk-io.c`.

  `write_and_map_eb` maps the first byte of the block only and
  stores the whole block behind it.  `read_whole_eb` maps the
  block piece by piece.

  Main declarations:
    * `writeAndMapEb`
    * `Chunk.Straight` and `Chunk.WithinStripe`
    * `Layout.writes_straight`
    * `writeAndMapEb_keeps_iff`
-/

----------
-- Writing a Block
----------

namespace BtrfsProgs

namespace Volumes

/-
  `write_and_map_eb`.  A mapping that fails leaves no `multi`
  to go through.
-/
def writeAndMapEb
    (info : FsInfo)
    (disk : Disk)
    (eb : ExtentBuffer) : Except Stop Disk :=
  match mapBlock info.mappingTree .WRITE eb.start 0 true with
  | .error _ => .error .bug
  | .ok r =>
      match r.raidMap with
      | some raidMap =>
          match writeRaid56WithParity info disk eb r.stripes
              r.length raidMap with
          | .error _ => .error .bug
          | .ok disk => .ok disk
      | none =>
          .ok (ByteStore.writeAll disk
            (r.stripes.map fun s =>
              ⟨s.dev, s.physical, eb.data⟩))

/-
  Whatever the devices and the block hold, the block is read
  from every mirror as it was written, and no other byte of
  the chunk has changed.
-/
def Layout.KeepsBlock
    (layout : Layout)
    (chunk : Chunk)
    (start len : Nat) : Prop :=
  ∀ (disk : Disk) (data : List UInt8), data.length = len →
    ∃ disk',
      writeAndMapEb layout.info disk ⟨start, data⟩ =
          .ok disk' ∧
        (∀ mirror, chunk.PlainMirror mirror →
          readWholeEb layout.info disk' start len mirror =
            .ok data) ∧
        (∀ logical mirror,
          chunk.Holds logical →
          DataMirror chunk.toMapLookup mirror →
          logical < start ∨ start + len ≤ logical →
            chunk.byteAt disk' (logical - chunk.start)
                mirror =
              chunk.byteAt disk (logical - chunk.start)
                mirror)

----------
-- Blocks in One Stretch
----------

/- The device byte that is `k` bytes behind another. -/
def BioStripe.behind
    (s : BioStripe)
    (k : Nat) : BioStripe :=
  ⟨s.dev, s.physical + k⟩

namespace Chunk

variable (chunk : Chunk)

/-
  Every byte of the block is stored as far behind its first
  byte as it is behind it in the block, on some mirror.
-/
def Straight
    (offset len : Nat) : Prop :=
  ∀ k < len, ∀ mirror, DataMirror chunk.toMapLookup mirror →
    ∃ mirror', DataMirror chunk.toMapLookup mirror' ∧
      chunk.mirrorAt (offset + k) mirror =
        (chunk.mirrorAt offset mirror').behind k

/-
  The block is stored where it is looked for; with parity,
  its full stripe must be found from a product of `int`s.
-/
def StoresBlock
    (offset len : Nat) : Prop :=
  if chunk.type.isRaid56 then
    offset + len ≤ chunk.fullStripeEnd offset ∧
      chunk.FindsRow offset
  else chunk.Straight offset len

/-
  The block crosses no end of a stripe, or of a full stripe
  of a chunk with parity, if its bytes then go on elsewhere.
-/
def WithinStripe
    (offset len : Nat) : Prop :=
  if chunk.type.isRaid56 then
    offset + len ≤ chunk.fullStripeEnd offset ∧
      chunk.FindsRow offset
  else
    width chunk.toMapLookup = 1 ∨
      offset % chunk.stripeLen + len ≤ chunk.stripeLen

/- Striped data is spread over different devices. -/
def Spread : Prop :=
  chunk.type = .raid0 ∨ chunk.type = .raid10 →
    chunk.stripes.Pairwise fun s t => s.dev ≠ t.dev

variable {chunk}

/- Each mirror goes on as one of the mirrors. -/
theorem Straight.back
    {offset len k mirror' : Nat}
    (hStraight : chunk.Straight offset len)
    (hPlain : chunk.type.isRaid56 = false)
    (hEnd : offset + len ≤ chunk.size)
    (hk : k < len)
    (hMirror : DataMirror chunk.toMapLookup mirror') :
    ∃ mirror, DataMirror chunk.toMapLookup mirror ∧
      chunk.mirrorAt (offset + k) mirror =
        (chunk.mirrorAt offset mirror').behind k := by
  have hData : ∀ m ∈ Finset.Icc 1 (copies chunk.toMapLookup),
      DataMirror chunk.toMapLookup m := by
    intro m hMem
    rcases Finset.mem_Icc.mp hMem with ⟨hOne, hCopies⟩
    refine ⟨hOne, hCopies, ?_⟩
    intro hParity
    rw [hPlain] at hParity
    cases hParity
  have hNext : ∀ m ∈ Finset.Icc 1 (copies chunk.toMapLookup),
      ∃ m' ∈ Finset.Icc 1 (copies chunk.toMapLookup),
        chunk.mirrorAt (offset + k) m =
          (chunk.mirrorAt offset m').behind k := by
    intro m hMem
    rcases hStraight k hk m (hData m hMem) with
      ⟨m', hMirror', hAt⟩
    exact ⟨m', Finset.mem_Icc.mpr ⟨hMirror'.1, hMirror'.2.1⟩,
      hAt⟩
  choose! next hIn hAt using hNext
  -- the mirrors of a byte are apart, so each one is met
  have hInj : Set.InjOn next
      (Finset.Icc 1 (copies chunk.toMapLookup)) := by
    intro a hA b hB hEq
    have hSame : chunk.mirrorAt (offset + k) a =
        chunk.mirrorAt (offset + k) b := by
      rw [hAt a hA, hAt b hB, hEq]
    have hMirrorA := hData a hA
    have hMirrorB := hData b hB
    exact chunk.mirrorAt_mirror_inj (by omega) hMirrorA.1
      hMirrorA.2.1 hMirrorB.1 hMirrorB.2.1 hSame
  have hOnto := Finset.surjOn_of_injOn_of_card_le next hIn hInj
    le_rfl
  rcases hOnto (Finset.mem_coe.mpr (Finset.mem_Icc.mpr
    ⟨hMirror.1, hMirror.2.1⟩)) with ⟨m, hMem, rfl⟩
  exact ⟨m, hData m hMem, hAt m hMem⟩

end Chunk

namespace Layout

variable {layout : Layout}

/- A device byte is one byte of one mirror of one chunk. -/
theorem mirrorAt_inj
    {c d : Chunk}
    (hc : c ∈ layout.chunks)
    (hd : d ∈ layout.chunks)
    {offset offset' mirror mirror' : Nat}
    (hOffset : offset < c.size)
    (hOffset' : offset' < d.size)
    (hMirror : DataMirror c.toMapLookup mirror)
    (hMirror' : DataMirror d.toMapLookup mirror')
    (hEq : c.mirrorAt offset mirror =
      d.mirrorAt offset' mirror') :
    c = d ∧ offset = offset' ∧ mirror = mirror' := by
  rcases stripeAt_inj hc hd
      (c.mirror_place_lt offset hMirror.1 hMirror.2.1)
      (d.mirror_place_lt offset' hMirror'.1 hMirror'.2.1)
      (c.depthOf_lt hOffset) (d.depthOf_lt hOffset') hEq with
    ⟨rfl, hPlace, hDepth⟩
  exact ⟨rfl, c.place_depth_inj hMirror hMirror' hPlace
    hDepth⟩

/- A run covers the bytes behind its first. -/
theorem covers_behind_iff
    (s t : BioStripe)
    (data : List UInt8) :
    (runAt s data).Covers t.dev t.physical ↔
      ∃ k < data.length, t = s.behind k := by
  constructor
  · intro hCovers
    rcases hCovers with ⟨hDev, hLow, hHigh⟩
    simp only [runAt] at hDev hLow hHigh
    refine ⟨t.physical - s.physical, by omega, ?_⟩
    unfold BioStripe.behind
    rw [hDev, Nat.add_sub_cancel' hLow]
  · intro hBehind
    rcases hBehind with ⟨k, hk, rfl⟩
    refine ⟨rfl, Nat.le_add_right _ _, ?_⟩
    exact Nat.add_lt_add_left hk _

/- A block that goes straight on changes its range only. -/
theorem writes_straight
    (disk : Disk)
    {chunk : Chunk}
    (hChunk : chunk ∈ layout.chunks)
    (hPlain : chunk.type.isRaid56 = false)
    {start : Nat}
    {data : List UInt8}
    (hLow : chunk.start ≤ start)
    (hHigh : start + data.length ≤ chunk.start + chunk.size)
    (hStraight :
      chunk.Straight (start - chunk.start) data.length) :
    layout.Writes disk
      (ByteStore.writeAll disk
        (plainRuns chunk (start - chunk.start) data))
      start data := by
  intro d hd logical mirror hAt hMirror
  have hLow' := hAt.1
  -- a run that covers the byte has it at its own number
  have hCovered : ∀ i k, i < copies chunk.toMapLookup →
      k < data.length →
      d.mirrorAt (logical - d.start) mirror =
        (chunk.mirrorAt (start - chunk.start) (i + 1)).behind
          k →
      logical = start + k := by
    intro i k hi hk hEq
    rcases hStraight.back hPlain (by omega) hk
      (dataMirror_succ hPlain hi) with ⟨m, hm, hBack⟩
    rcases mirrorAt_inj hChunk hd (by omega) hAt.offset_lt hm
      hMirror (hBack.trans hEq.symm) with ⟨rfl, hOffset, _⟩
    omega
  unfold Chunk.byteAt
  split_ifs with hIn
  · have hk : logical - start < data.length := by omega
    have hInside : chunk.Holds logical := ⟨by omega, by omega⟩
    have hSame := holds_unique hChunk hd hInside hAt
    subst hSame
    apply ByteStore.writeAll_eq
    · intro run hRun hCover
      rcases List.mem_map.mp hRun with ⟨i, hi, rfl⟩
      rcases (covers_behind_iff _ _ _).mp hCover with
        ⟨k, hLt, hEq⟩
      have hLogical :=
        hCovered i k (List.mem_range.mp hi) hLt hEq
      have hNumber : logical - start = k := by omega
      rw [hEq, hNumber]
      simp only [runAt, BioStripe.behind,
        Nat.add_sub_cancel_left]
      rw [List.getD_eq_getElem _ _ hLt,
        List.getElem?_eq_getElem hLt]
    · left
      rcases hStraight _ hk mirror hMirror with
        ⟨m, hm, hStored⟩
      have hOffset : start - chunk.start + (logical - start) =
          logical - chunk.start := by
        omega
      have hLast : m - 1 < copies chunk.toMapLookup := by
        have hOne := hm.1
        have hCopies := hm.2.1
        omega
      rw [hOffset, ← Nat.sub_add_cancel hm.1] at hStored
      exact ⟨_, List.mem_map.mpr ⟨m - 1,
        List.mem_range.mpr hLast, rfl⟩,
        (covers_behind_iff _ _ _).mpr ⟨_, hk, hStored⟩⟩
  · apply ByteStore.writeAll_of_not_covers
    intro run hRun hCover
    rcases List.mem_map.mp hRun with ⟨i, hi, rfl⟩
    rcases (covers_behind_iff _ _ _).mp hCover with
      ⟨k, hk, hEq⟩
    have hLogical := hCovered i k (List.mem_range.mp hi) hk hEq
    omega

----------
-- What the Functions Do
----------

section Block

variable {chunk : Chunk}
variable {start : Nat}

theorem writeAndMapEb_plain
    (disk : Disk)
    (data : List UInt8)
    (hChunk : chunk ∈ layout.chunks)
    (hPlain : chunk.type.isRaid56 = false)
    (hHolds : chunk.Holds start) :
    writeAndMapEb layout.info disk ⟨start, data⟩ =
      .ok (ByteStore.writeAll disk
        (plainRuns chunk (start - chunk.start) data)) := by
  unfold writeAndMapEb
  dsimp only
  rw [mapBlock_eq mappingTree_ordered
    (mem_mappingTree hChunk) hHolds,
    chunk.mapBlockIn_write hPlain]
  simp only [List.map_map]
  rfl

/- Without a length of a full stripe nothing is mapped. -/
theorem writeAndMapEb_noLen
    (disk : Disk)
    (data : List UInt8)
    (hChunk : chunk ∈ layout.chunks)
    (hParity : chunk.type.isRaid56 = true)
    (hHolds : chunk.Holds start)
    (hLen : fullStripeLen chunk.toMapLookup = 0) :
    writeAndMapEb layout.info disk ⟨start, data⟩ =
      .error .bug := by
  unfold writeAndMapEb
  dsimp only
  rw [mapBlock_eq mappingTree_ordered
    (mem_mappingTree hChunk) hHolds,
    chunk.mapBlockIn_noLen hParity (Or.inl rfl) hLen]

/- With parity, the block is cut off at its full stripe. -/
theorem writeAndMapEb_parity
    (disk : Disk)
    (data : List UInt8)
    (hNormal : layout.onRestoring = false)
    (hChunk : chunk ∈ layout.chunks)
    (hParity : chunk.type.isRaid56 = true)
    (hHolds : chunk.Holds start)
    (hFull : 0 < fullStripeLen chunk.toMapLookup) :
    ∃ disk',
      writeAndMapEb layout.info disk ⟨start, data⟩ =
          .ok disk' ∧
        layout.Writes disk disk' start
          (data.take (chunk.fullStripeEnd
            (fullStripeStart chunk.toMapLookup
              (start - chunk.start)) -
              (start - chunk.start))) := by
  have hReads : layout.ReadsRight chunk
      (fullStripeStart chunk.toMapLookup
        (start - chunk.start)) ⟨start, data⟩ :=
    Or.inl hNormal
  rcases writes_parity disk hChunk hParity hHolds
      (chunk.fullStripeStart_le _) hReads with
    ⟨disk', hOk, hWrites⟩
  refine ⟨disk', ?_, hWrites⟩
  unfold writeAndMapEb
  dsimp only
  rw [mapBlock_eq mappingTree_ordered
    (mem_mappingTree hChunk) hHolds,
    chunk.mapBlockIn_start hParity (Or.inl rfl) hFull
      hHolds.offset_lt]
  simp only [hOk]

theorem holds_of_inside
    {len : Nat}
    (hLow : chunk.start ≤ start)
    (hHigh : start + len ≤ chunk.start + chunk.size)
    (i : Nat)
    (hi : i < len) :
    chunk.Holds (start + i) :=
  ⟨by omega, by omega⟩

/- A block of the chunk is read piece by piece. -/
theorem readWholeEb_eq
    {disk : Disk}
    {mirror : Nat}
    (hNormal : layout.onRestoring = false)
    (hChunk : chunk ∈ layout.chunks)
    (out : List UInt8)
    (hLow : chunk.start ≤ start)
    (hHigh : start + out.length ≤ chunk.start + chunk.size)
    (hPlain : chunk.PlainMirror mirror) :
    readWholeEb layout.info disk start out.length mirror =
        .ok out ↔
      ∀ i < out.length, out[i]? = some (chunk.byteAt disk
        (start + i - chunk.start)
        (chunk.pickMirror (start + i - chunk.start)
          mirror)) := by
  have hHolds := holds_of_inside hLow hHigh
  have hMapped : layout.Mapped start out.length := by
    intro i hi
    exact ⟨chunk, hChunk, hHolds i hi⟩
  have hMirrors :
      layout.PlainMirrorOn start out.length mirror := by
    intro d hd i hi hAt
    have hSame := holds_unique hChunk hd (hHolds i hi) hAt
    rw [← hSame]
    exact hPlain
  have hRead : readWholeEb layout.info disk start out.length
      mirror = readDataFromDisk layout.info disk start
        out.length mirror := by
    unfold readWholeEb
    rw [if_neg (by simp [info, hNormal])]
    rfl
  rw [hRead]
  constructor
  · intro hOk i hi
    rcases readLoop_spec disk le_rfl hMapped hMirrors with
      ⟨out', hOk', _, hReturns⟩
    have hSame : out' = out :=
      Except.ok.inj (hOk'.symm.trans hOk)
    rw [hSame] at hReturns
    exact hReturns i hi chunk hChunk (hHolds i hi)
  · intro hBytes
    apply readDataFromDisk_eq hMapped hMirrors rfl
    intro i hi d hd hAt
    have hSame := holds_unique hChunk hd (hHolds i hi) hAt
    rw [← hSame]
    exact hBytes i hi

/- Where a range has been written, the block is kept. -/
theorem keeps_of_writes
    {disk disk' : Disk}
    {data : List UInt8}
    (hNormal : layout.onRestoring = false)
    (hChunk : chunk ∈ layout.chunks)
    (hLow : chunk.start ≤ start)
    (hHigh : start + data.length ≤ chunk.start + chunk.size)
    (hWrites : layout.Writes disk disk' start data) :
    (∀ mirror, chunk.PlainMirror mirror →
      readWholeEb layout.info disk' start data.length mirror =
        .ok data) ∧
      ∀ logical mirror,
        chunk.Holds logical →
        DataMirror chunk.toMapLookup mirror →
        logical < start ∨ start + data.length ≤ logical →
          chunk.byteAt disk' (logical - chunk.start) mirror =
            chunk.byteAt disk (logical - chunk.start)
              mirror := by
  constructor
  · intro mirror hPlain
    rw [readWholeEb_eq hNormal hChunk data hLow hHigh hPlain]
    intro i hi
    have hHolds := holds_of_inside hLow hHigh i hi
    have hData := chunk.pickMirror_data hPlain
      (start + i - chunk.start)
    rw [hWrites chunk hChunk _ _ hHolds hData,
      if_pos (by omega), Nat.add_sub_cancel_left,
      List.getD_eq_getElem _ _ hi, List.getElem?_eq_getElem hi]
  · intro logical mirror hHolds hMirror hOutside
    rw [hWrites chunk hChunk _ _ hHolds hMirror,
      if_neg (by omega)]

/- A block that is stored where it is looked for is kept. -/
theorem keepsBlock_of_stores
    {len : Nat}
    (hNormal : layout.onRestoring = false)
    (hChunk : chunk ∈ layout.chunks)
    (hLow : chunk.start ≤ start)
    (hHigh : start + len ≤ chunk.start + chunk.size)
    (hLen : 0 < len)
    (hStores : chunk.StoresBlock (start - chunk.start) len) :
    layout.KeepsBlock chunk start len := by
  intro disk data hLength
  subst hLength
  have hHolds : chunk.Holds start := ⟨hLow, by omega⟩
  unfold Chunk.StoresBlock at hStores
  split_ifs at hStores with hParity
  · have hFull := hStores.2.1
    have hMapped := (le_mapped_end_iff hParity hFull
      hLen).mpr hStores
    rcases writeAndMapEb_parity disk data hNormal hChunk
      hParity hHolds hFull with ⟨disk', hOk, hWrites⟩
    rw [List.take_of_length_le (by omega)] at hWrites
    exact ⟨disk', hOk,
      keeps_of_writes hNormal hChunk hLow hHigh hWrites⟩
  · have hPlain := Bool.eq_false_of_not_eq_true hParity
    have hWrites := writes_straight disk hChunk hPlain hLow
      hHigh hStores
    exact ⟨_, writeAndMapEb_plain disk data hChunk hPlain hHolds,
      keeps_of_writes hNormal hChunk hLow hHigh hWrites⟩

/- The byte of the block that a mirror of the chunk has. -/
theorem KeepsBlock.byteAt
    {len mirror k : Nat}
    {disk disk' : Disk}
    {data : List UInt8}
    (hNormal : layout.onRestoring = false)
    (hChunk : chunk ∈ layout.chunks)
    (hLow : chunk.start ≤ start)
    (hHigh : start + len ≤ chunk.start + chunk.size)
    (hMirror : DataMirror chunk.toMapLookup mirror)
    (hk : k < len)
    (hKeeps : layout.KeepsBlock chunk start len)
    (hData : data.length = len)
    (hOk : writeAndMapEb layout.info disk ⟨start, data⟩ =
      .ok disk') :
    data[k]? = some (chunk.byteAt disk'
      (start - chunk.start + k) mirror) := by
  subst hData
  rcases hKeeps disk data rfl with ⟨out, hWritten, hRead, _⟩
  cases hOk.symm.trans hWritten
  have hPlain : chunk.PlainMirror mirror := by
    refine ⟨hMirror.2.1, ?_⟩
    intro hParity
    exact (hMirror.2.2 hParity).le
  have hBytes := (readWholeEb_eq hNormal hChunk data hLow hHigh
    hPlain).mp (hRead mirror hPlain) k hk
  have hPick : chunk.pickMirror (start + k - chunk.start)
      mirror = mirror := by
    unfold Chunk.pickMirror
    rw [if_neg (Nat.ne_of_gt hMirror.1)]
  have hOffset : start + k - chunk.start =
      start - chunk.start + k := by
    omega
  rw [hPick, hOffset] at hBytes
  exact hBytes

/- A block that is kept is stored where it is looked for. -/
theorem stores_of_keepsBlock
    {len : Nat}
    (hNormal : layout.onRestoring = false)
    (hChunk : chunk ∈ layout.chunks)
    (hLow : chunk.start ≤ start)
    (hHigh : start + len ≤ chunk.start + chunk.size)
    (hLen : 0 < len)
    (hKeeps : layout.KeepsBlock chunk start len) :
    chunk.StoresBlock (start - chunk.start) len := by
  have hHolds : chunk.Holds start := ⟨hLow, by omega⟩
  unfold Chunk.StoresBlock
  split_ifs with hParity
  · have hBytes :
        (List.replicate len (1 : UInt8)).length = len :=
      List.length_replicate
    have hFull : 0 < fullStripeLen chunk.toMapLookup := by
      by_contra hNone
      have hDies := writeAndMapEb_noLen (fun _ _ => 0)
        (List.replicate len 1) hChunk hParity hHolds
        (Nat.eq_zero_of_not_pos hNone)
      rcases hKeeps (fun _ _ => 0) _ hBytes with
        ⟨disk', hOk, _⟩
      have hError := hOk.symm.trans hDies
      cases hError
    rw [← le_mapped_end_iff hParity hFull hLen]
    by_contra hNot
    -- ones over zeros: what is cut off still reads zero
    have hOne : DataMirror chunk.toMapLookup 1 :=
      ⟨le_rfl, chunk.one_le_copies, fun _ => rfl⟩
    rcases writeAndMapEb_parity (fun _ _ => 0)
      (List.replicate len 1) hNormal hChunk hParity hHolds
      hFull with ⟨disk', hOk, hWrites⟩
    generalize hKept :
      chunk.fullStripeEnd (fullStripeStart chunk.toMapLookup
        (start - chunk.start)) - (start - chunk.start) = kept
      at hWrites
    have hByte := KeepsBlock.byteAt (k := kept) hNormal hChunk
      hLow hHigh hOne (by omega) hKeeps hBytes hOk
    have hAt : chunk.Holds (start + kept) :=
      ⟨by omega, by omega⟩
    have hLost := hWrites chunk hChunk _ 1 hAt hOne
    rw [if_neg (by
      rw [List.length_take]
      omega)] at hLost
    have hOffset : start + kept - chunk.start =
        start - chunk.start + kept := by
      omega
    rw [hOffset] at hLost
    rw [hLost, List.getElem?_replicate, if_pos (by omega)]
      at hByte
    exact absurd (Option.some.inj hByte)
      (show ¬(1 : UInt8) = 0 by decide)
  · intro k hk mirror hMirror
    by_contra hNone
    -- a one in one place, over zeros
    have hPlain := Bool.eq_false_of_not_eq_true hParity
    have hOk := writeAndMapEb_plain (fun _ _ => 0)
      ((List.replicate len 0).set k 1) hChunk hPlain hHolds
    have hLength :
        ((List.replicate len (0 : UInt8)).set k 1).length =
          len := by
      simp
    have hByte := KeepsBlock.byteAt hNormal hChunk hLow hHigh
      hMirror hk hKeeps hLength hOk
    have hZero : chunk.byteAt (ByteStore.writeAll
        (fun _ _ => 0) (plainRuns chunk (start - chunk.start)
          ((List.replicate len 0).set k 1)))
        (start - chunk.start + k) mirror = 0 := by
      apply ByteStore.writeAll_eq
      · intro run hRun hCover
        rcases List.mem_map.mp hRun with ⟨i, hi, rfl⟩
        rcases (covers_behind_iff _ _ _).mp hCover with
          ⟨j, hj, hEq⟩
        rw [hLength] at hj
        have hOther : k ≠ j := by
          intro hSame
          rw [← hSame] at hEq
          exact hNone ⟨i + 1, dataMirror_succ hPlain
            (List.mem_range.mp hi), hEq⟩
        rw [hEq]
        simp only [runAt, BioStripe.behind,
          Nat.add_sub_cancel_left]
        rw [List.getElem?_set_ne hOther,
          List.getElem?_replicate, if_pos hj]
      · exact Or.inr rfl
    rw [hZero, List.getElem?_set_self (by simpa using hk)]
      at hByte
    exact absurd (Option.some.inj hByte)
      (show ¬(1 : UInt8) = 0 by decide)

end Block

end Layout

----------
-- Blocks That Cross a Stripe
----------

namespace Chunk

variable {chunk : Chunk}
variable {offset len : Nat}

/- Without parity, the rows of a chunk are placed alike. -/
theorem place_row
    (hPlain : chunk.type.isRaid56 = false)
    (row row' col mirror : Nat) :
    place chunk.toMapLookup row col mirror =
      place chunk.toMapLookup row' col mirror := by
  unfold place
  cases hType : chunk.type with
  | raid5
  | raid6 =>
      rw [hType] at hPlain
      cases hPlain
  | single => rfl
  | dup => rfl
  | raid0 => rfl
  | raid1 => rfl
  | raid10 => rfl

/- With one column, a mirror is stored in one piece. -/
theorem mirrorAt_of_width
    (hPlain : chunk.type.isRaid56 = false)
    (hWidth : width chunk.toMapLookup = 1)
    (offset k mirror : Nat) :
    chunk.mirrorAt (offset + k) mirror =
      (chunk.mirrorAt offset mirror).behind k := by
  have hDepth : ∀ at', depthOf chunk.toMapLookup at' = at' := by
    intro at'
    unfold depthOf rowOf
    rw [hWidth, Nat.div_one, Nat.mod_add_div']
  have hCol : ∀ at', colOf chunk.toMapLookup at' = 0 := by
    intro at'
    unfold colOf
    rw [hWidth, Nat.mod_one]
  unfold mirrorAt
  rw [hDepth, hDepth, hCol, hCol, place_row hPlain _
    (rowOf chunk.toMapLookup offset)]
  unfold stripeAt BioStripe.behind
  simp only [Nat.add_assoc]

theorem straight_of_within
    (hPlain : chunk.type.isRaid56 = false)
    (hEnd : offset + len ≤ chunk.size)
    (hWithin : width chunk.toMapLookup = 1 ∨
      offset % chunk.stripeLen + len ≤ chunk.stripeLen) :
    chunk.Straight offset len := by
  intro k hk mirror hMirror
  refine ⟨mirror, hMirror, ?_⟩
  rcases hWithin with hWidth | hInside
  · exact mirrorAt_of_width hPlain hWidth offset k mirror
  · have hLength : k < lengthOf chunk.toMapLookup offset := by
      unfold lengthOf
      split_ifs
      · omega
      · omega
    exact chunk.mirrorAt_add hLength mirror

/- On different devices, a device tells the stripe. -/
theorem index_of_dev
    {index index' depth depth' : Nat}
    (hSpread : chunk.stripes.Pairwise fun s t => s.dev ≠ t.dev)
    (hIndex : index < chunk.numStripes)
    (hIndex' : index' < chunk.numStripes)
    (hDev : (stripeAt chunk.toMapLookup index depth).dev =
      (stripeAt chunk.toMapLookup index' depth').dev) :
    index = index' := by
  have hLength := chunk.stripes_length
  have hApart := List.pairwise_iff_getElem.mp hSpread
  simp only [stripeAt,
    List.getD_eq_getElem _ _ (hLength ▸ hIndex),
    List.getD_eq_getElem _ _ (hLength ▸ hIndex')] at hDev
  rcases Nat.lt_trichotomy index index' with hLess | hSame | hMore
  · exact absurd hDev
      (hApart index index' (by omega) (by omega) hLess)
  · exact hSame
  · exact absurd hDev.symm
      (hApart index' index (by omega) (by omega) hMore)

/- The first byte behind a stripe is in another column. -/
theorem colOf_next
    (hWidth : width chunk.toMapLookup ≠ 1)
    (hk : len = chunk.stripeLen - offset % chunk.stripeLen) :
    colOf chunk.toMapLookup (offset + len) ≠
      colOf chunk.toMapLookup offset := by
  have hPos := chunk.width_pos
  have hInner := chunk.mod_stripeLen_lt offset
  have hSplit := Nat.div_add_mod offset chunk.stripeLen
  have hNext : offset + len =
      chunk.stripeLen * (offset / chunk.stripeLen + 1) := by
    rw [Nat.mul_succ]
    omega
  have hDiv : (offset + len) / chunk.stripeLen =
      offset / chunk.stripeLen + 1 := by
    rw [hNext, Nat.mul_div_cancel_left _ chunk.stripeLen_pos]
  unfold colOf
  rw [hDiv]
  generalize offset / chunk.stripeLen = n
  generalize width chunk.toMapLookup = w at *
  intro hSame
  have hDvd : w ∣ n + 1 - n :=
    (Nat.modEq_iff_dvd' (Nat.le_succ n)).mp hSame.symm
  rw [Nat.add_sub_cancel_left] at hDvd
  exact hWidth (Nat.dvd_one.mp hDvd)

/-
  A block that goes straight on crosses no stripe, if the
  columns are on different devices.
-/
theorem within_of_straight
    (hPlain : chunk.type.isRaid56 = false)
    (hSpread : chunk.Spread)
    (hStraight : chunk.Straight offset len) :
    width chunk.toMapLookup = 1 ∨
      offset % chunk.stripeLen + len ≤ chunk.stripeLen := by
  by_contra hNot
  rcases not_or.mp hNot with ⟨hWidth, hCross⟩
  have hDevs : chunk.stripes.Pairwise
      fun s t => s.dev ≠ t.dev := by
    apply hSpread
    cases hType : chunk.type with
    | raid0 => exact Or.inl rfl
    | raid10 => exact Or.inr rfl
    | single => exact absurd (chunk.width_of_single hType) hWidth
    | dup
    | raid1 => exact absurd (by simp [width, hType]) hWidth
    | raid5
    | raid6 =>
        rw [hType] at hPlain
        cases hPlain
  have hInner := chunk.mod_stripeLen_lt offset
  have hOne : DataMirror chunk.toMapLookup 1 :=
    ⟨le_rfl, chunk.one_le_copies, fun _ => rfl⟩
  rcases hStraight (chunk.stripeLen - offset % chunk.stripeLen)
    (by omega) 1 hOne with ⟨mirror', hMirror', hAt⟩
  have hDev : (chunk.mirrorAt (offset + (chunk.stripeLen -
      offset % chunk.stripeLen)) 1).dev =
        (chunk.mirrorAt offset mirror').dev := by
    rw [hAt]
    rfl
  have hPlace := index_of_dev hDevs
    (chunk.mirror_place_lt _ hOne.1 hOne.2.1)
    (chunk.mirror_place_lt offset hMirror'.1 hMirror'.2.1)
    hDev
  rw [place_row hPlain _ (rowOf chunk.toMapLookup offset)]
    at hPlace
  exact colOf_next hWidth rfl
    (chunk.place_inj (chunk.colOf_lt _) (chunk.colOf_lt offset)
      hOne hMirror' hPlace).1

theorem storesBlock_iff_within
    (hEnd : offset + len ≤ chunk.size)
    (hSpread : chunk.Spread) :
    chunk.StoresBlock offset len ↔
      chunk.WithinStripe offset len := by
  unfold StoresBlock WithinStripe
  split_ifs with hParity
  · exact Iff.rfl
  · have hPlain := Bool.eq_false_of_not_eq_true hParity
    exact ⟨within_of_straight hPlain hSpread,
      straight_of_within hPlain hEnd⟩

theorem storesBlock_of_within
    (hEnd : offset + len ≤ chunk.size)
    (hWithin : chunk.WithinStripe offset len) :
    chunk.StoresBlock offset len := by
  unfold StoresBlock
  unfold WithinStripe at hWithin
  split_ifs at hWithin ⊢ with hParity
  · exact hWithin
  · exact straight_of_within
      (Bool.eq_false_of_not_eq_true hParity) hEnd hWithin

end Chunk

/-
  A tree block of a chunk is kept exactly when its bytes go on
  in the devices as they do from its first byte.  It is kept
  if it crosses no end of a stripe (of a full stripe that is
  found, with parity), and only then where striped data is spread over
  different devices.
-/
theorem writeAndMapEb_keeps_iff
    (layout : Layout)
    (hNormal : layout.onRestoring = false)
    (chunk : Chunk)
    (hChunk : chunk ∈ layout.chunks)
    (start len : Nat)
    (hLow : chunk.start ≤ start)
    (hHigh : start + len ≤ chunk.start + chunk.size)
    (hLen : 0 < len) :
    (layout.KeepsBlock chunk start len ↔
        chunk.StoresBlock (start - chunk.start) len) ∧
      (chunk.WithinStripe (start - chunk.start) len →
        layout.KeepsBlock chunk start len) ∧
      (chunk.Spread →
        (layout.KeepsBlock chunk start len ↔
          chunk.WithinStripe (start - chunk.start) len)) := by
  have hEnd : start - chunk.start + len ≤ chunk.size := by
    omega
  have hExact : layout.KeepsBlock chunk start len ↔
      chunk.StoresBlock (start - chunk.start) len :=
    ⟨Layout.stores_of_keepsBlock hNormal hChunk hLow hHigh hLen,
      Layout.keepsBlock_of_stores hNormal hChunk hLow hHigh
        hLen⟩
  refine ⟨hExact, ?_, ?_⟩
  · intro hWithin
    exact hExact.mpr (Chunk.storesBlock_of_within hEnd hWithin)
  · intro hSpread
    exact hExact.trans
      (Chunk.storesBlock_iff_within hEnd hSpread)

/- A RAID0 chunk of two devices. -/
def raid0Example : Chunk where
  start := 1048576
  size := 262144
  type := .raid0
  stripeLen := 65536
  numStripes := 2
  subStripes := 1
  stripes := [⟨1, 1048576⟩, ⟨2, 1048576⟩]
  calcSize := 131072
  stripeLen_pos := raid10Example.stripeLen_pos
  stripeLen_dvd := raid10Example.stripeLen_dvd
  size_eq := raid10Example.size_eq
  stripesOk := by decide
  stripes_length := rfl
  start_bound := raid10Example.start_bound
  physical_bound := by decide
  disjoint := by decide

/- A filesystem with that chunk alone. -/
def raid0Layout : Layout where
  chunks := [raid0Example]
  leafsize := 16384
  onRestoring := false
  ordered := ⟨by decide, by decide⟩
  apart := by decide
  leafsize_pos := node_pos

/- A block inside the first stripe is kept. -/
theorem writeAndMapEb_keeps_raid0 :
    raid0Layout.KeepsBlock raid0Example 1064960 16384 :=
  (writeAndMapEb_keeps_iff raid0Layout rfl raid0Example
    (List.mem_singleton_self _) 1064960 16384 (by decide)
    (by decide) (by decide)).2.1 (Or.inr (by decide))

/-
  A block from 4096 bytes before the end of the first stripe
  on is not: the writer stores its rest behind that stripe,
  and the reader looks for it on the other device.
-/
theorem crossingBlock_not_kept :
    ¬raid0Layout.KeepsBlock raid0Example 1110016 16384 := by
  intro hKeeps
  have hStores := Layout.stores_of_keepsBlock rfl
    (List.mem_singleton_self _) (by decide) (by decide)
    (by decide) hKeeps
  have hStraight : raid0Example.Straight 61440 16384 := hStores
  have hWithin := Chunk.within_of_straight rfl
    (fun _ => by decide) hStraight
  revert hWithin
  decide

end Volumes

end BtrfsProgs
