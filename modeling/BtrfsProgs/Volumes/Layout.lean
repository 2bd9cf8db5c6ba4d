import BtrfsProgs.Volumes.DataIo
import BtrfsProgs.Volumes.Mirrors

/-
  A filesystem's chunks together, and reading from them.

  A `Layout` keeps chunks apart both in the logical address
  space and on the devices, so a device byte belongs to at
  most one byte of one chunk.  Reading a logical range is
  reading its bytes one by one.

  Main declarations:
    * `Layout` and `Layout.stripeAt_inj`
    * `Chunk.byteAt` and `Chunk.mirrorAt_add`
    * `Layout.readLoop_spec`
-/

----------
-- Chunks Side by Side
----------

namespace BtrfsProgs

namespace Volumes

open RangeTree

/- No device extent of one chunk meets one of the other. -/
def Chunk.Apart
    (c d : Chunk) : Prop :=
  ∀ s ∈ c.stripes, ∀ t ∈ d.stripes, s.dev = t.dev →
    s.physical + c.calcSize ≤ t.physical ∨
      t.physical + d.calcSize ≤ s.physical

instance
    (c d : Chunk) :
    Decidable (c.Apart d) := by
  unfold Chunk.Apart
  infer_instance

/- The chunks of an open filesystem. -/
structure Layout where
  chunks : List Chunk
  leafsize : Nat
  onRestoring : Bool
  ordered : Ordered (chunks.map Chunk.toMapLookup)
  apart : chunks.Pairwise Chunk.Apart
  leafsize_pos : 0 < leafsize

namespace Layout

variable (layout : Layout)

/- The `fs_info` of the filesystem. -/
def info : FsInfo :=
  ⟨layout.chunks.map Chunk.toMapLookup, layout.leafsize,
    layout.onRestoring⟩

variable {layout}

theorem mem_mappingTree
    {chunk : Chunk}
    (hChunk : chunk ∈ layout.chunks) :
    chunk.toMapLookup ∈ layout.info.mappingTree :=
  List.mem_map_of_mem hChunk

theorem mappingTree_ordered :
    Ordered layout.info.mappingTree :=
  layout.ordered

variable {c d : Chunk}

/- Two chunks follow each other in the address space. -/
theorem before_or_after
    (hc : c ∈ layout.chunks)
    (hd : d ∈ layout.chunks)
    (hNe : c ≠ d) :
    c.start + c.size ≤ d.start ∨
      d.start + d.size ≤ c.start := by
  have hSorted := List.pairwise_map.mp layout.ordered.sorted
  have hEither :
      layout.chunks.Pairwise fun a b =>
        a.start + a.size ≤ b.start ∨
          b.start + b.size ≤ a.start :=
    hSorted.imp fun h => Or.inl h
  have : Std.Symm fun a b : Chunk =>
      a.start + a.size ≤ b.start ∨
        b.start + b.size ≤ a.start :=
    ⟨fun _ _ h => h.symm⟩
  exact hEither.forall hc hd hNe

/- An address is in at most one chunk. -/
theorem holds_unique
    (hc : c ∈ layout.chunks)
    (hd : d ∈ layout.chunks)
    {logical : Nat}
    (hHolds : c.Holds logical)
    (hHolds' : d.Holds logical) :
    c = d := by
  by_contra hNe
  have hSides := before_or_after hc hd hNe
  unfold Chunk.Holds at hHolds hHolds'
  omega

theorem apart_of_ne
    (hc : c ∈ layout.chunks)
    (hd : d ∈ layout.chunks)
    (hNe : c ≠ d) :
    c.Apart d := by
  have : Std.Symm Chunk.Apart := by
    refine ⟨fun a b h s hs t ht hDev => ?_⟩
    exact (h t ht s hs hDev.symm).symm
  exact layout.apart.forall hc hd hNe

/- A device byte is in at most one device extent. -/
theorem stripeAt_inj
    (hc : c ∈ layout.chunks)
    (hd : d ∈ layout.chunks)
    {index index' depth depth' : Nat}
    (hIndex : index < c.numStripes)
    (hIndex' : index' < d.numStripes)
    (hDepth : depth < c.calcSize)
    (hDepth' : depth' < d.calcSize)
    (hEq :
      stripeAt c.toMapLookup index depth =
        stripeAt d.toMapLookup index' depth') :
    c = d ∧ index = index' ∧ depth = depth' := by
  by_cases hSame : c = d
  · subst hSame
    exact ⟨rfl, c.stripeAt_inj hIndex hIndex' hDepth hDepth'
      hEq⟩
  · have hApart := apart_of_ne hc hd hSame _
      (c.stripes_getD hIndex) _ (d.stripes_getD hIndex')
    simp only [stripeAt, BioStripe.mk.injEq] at hEq
    have hFar := hApart hEq.1
    omega

end Layout

----------
-- Bytes of a Mirror
----------

namespace Chunk

variable (chunk : Chunk)

/- The byte that one mirror holds for an offset. -/
def byteAt
    (disk : Disk)
    (offset mirror : Nat) : UInt8 :=
  disk (chunk.mirrorAt offset mirror).dev
    (chunk.mirrorAt offset mirror).physical

theorem width_of_single
    (hType : chunk.type = .single) :
    width chunk.toMapLookup = 1 := by
  have hStripes := chunk.stripesOk
  simp only [Profile.StripesOk, hType] at hStripes
  simp only [width, hType, hStripes]

/- Bytes of one stripe share its number. -/
theorem div_add_of_lt
    {offset k len : Nat}
    (hk : offset % len + k < len) :
    (offset + k) / len = offset / len ∧
      (offset + k) % len = offset % len + k := by
  have hSplit := Nat.div_add_mod offset len
  have hSum :
      offset + k = offset % len + k + len * (offset / len) := by
    omega
  constructor
  · rw [hSum, Nat.add_mul_div_left _ _ (by omega),
      Nat.div_eq_of_lt hk, Nat.zero_add]
  · rw [hSum, Nat.add_mul_mod_self_left,
      Nat.mod_eq_of_lt hk]

/- A SINGLE chunk is stored in one piece. -/
theorem depthOf_single
    (hType : chunk.type = .single)
    (offset : Nat) :
    colOf chunk.toMapLookup offset = 0 ∧
      depthOf chunk.toMapLookup offset = offset := by
  have hOne := chunk.width_of_single hType
  unfold depthOf rowOf colOf
  rw [hOne, Nat.mod_one, Nat.div_one, Nat.mod_add_div']
  exact ⟨rfl, rfl⟩

variable {offset k : Nat}

/- The bytes of one request are at growing depths. -/
theorem depthOf_add
    (hk : k < lengthOf chunk.toMapLookup offset) :
    depthOf chunk.toMapLookup (offset + k) =
      depthOf chunk.toMapLookup offset + k := by
  by_cases hType : chunk.type = .single
  · rw [(chunk.depthOf_single hType _).2,
      (chunk.depthOf_single hType _).2]
  · simp only [lengthOf, hType, if_false] at hk
    rcases div_add_of_lt
        (show offset % chunk.stripeLen + k < chunk.stripeLen
          by omega) with ⟨hDiv, hMod⟩
    simp only [depthOf, rowOf, hDiv, hMod]
    omega

/- The bytes of one request are in one device extent. -/
theorem place_add
    (hk : k < lengthOf chunk.toMapLookup offset)
    (mirror : Nat) :
    place chunk.toMapLookup
        (rowOf chunk.toMapLookup (offset + k))
        (colOf chunk.toMapLookup (offset + k)) mirror =
      place chunk.toMapLookup
        (rowOf chunk.toMapLookup offset)
        (colOf chunk.toMapLookup offset) mirror := by
  by_cases hType : chunk.type = .single
  · simp only [place, hType, (chunk.depthOf_single hType _).1]
  · simp only [lengthOf, hType, if_false] at hk
    rcases div_add_of_lt
        (show offset % chunk.stripeLen + k < chunk.stripeLen
          by omega) with ⟨hDiv, _⟩
    simp only [rowOf, colOf, hDiv]

theorem mirrorAt_add
    (hk : k < lengthOf chunk.toMapLookup offset)
    (mirror : Nat) :
    chunk.mirrorAt (offset + k) mirror =
      ⟨(chunk.mirrorAt offset mirror).dev,
        (chunk.mirrorAt offset mirror).physical + k⟩ := by
  unfold mirrorAt
  rw [chunk.place_add hk, chunk.depthOf_add hk]
  simp only [stripeAt, Nat.add_assoc]

/- The mirror that a read of mirror 0 takes. -/
def pickMirror
    (offset mirror : Nat) : Nat :=
  if mirror = 0 then
    if chunk.type = .raid1 then
      offset / chunk.stripeLen % chunk.numStripes + 1
    else
      1
  else
    mirror

/- Mirrors whose reads return the data. -/
def PlainMirror
    (mirror : Nat) : Prop :=
  mirror ≤ copies chunk.toMapLookup ∧
    (chunk.type.isRaid56 = true → mirror ≤ 1)

theorem one_le_copies :
    1 ≤ copies chunk.toMapLookup := by
  have hStripes := chunk.stripesOk
  cases hType : chunk.type <;>
    simp only [Profile.StripesOk, hType] at hStripes <;>
    simp only [copies, hType] <;> omega

theorem pickMirror_data
    {mirror : Nat}
    (hPlain : chunk.PlainMirror mirror)
    (offset : Nat) :
    DataMirror chunk.toMapLookup
      (chunk.pickMirror offset mirror) := by
  rcases hPlain with ⟨hCopies, hParity⟩
  have hOne := chunk.one_le_copies
  unfold pickMirror
  split
  · split
    case isTrue hType =>
      have hLt := Nat.mod_lt (offset / chunk.stripeLen)
        chunk.numStripes_pos
      refine ⟨by omega, ?_, ?_⟩
      · simp only [copies, hType]
        omega
      · simp [hType, Profile.isRaid56]
    case isFalse => exact ⟨le_rfl, hOne, fun _ => rfl⟩
  · refine ⟨by omega, hCopies, ?_⟩
    intro hType
    have hLe := hParity hType
    omega

/- A read of mirror 0 is a read of the mirror it takes. -/
theorem mapBlockIn_pickMirror
    (offset mirror : Nat) :
    mapBlockIn chunk.toMapLookup .READ offset mirror false =
      mapBlockIn chunk.toMapLookup .READ offset
        (chunk.pickMirror offset mirror) false := by
  unfold pickMirror
  split
  case isTrue hZero =>
    subst hZero
    rw [chunk.mapBlockIn_plan (by simp),
      chunk.mapBlockIn_plan (by simp)]
    cases hType : chunk.type <;> simp [stripePlan, hType]
  case isFalse => rfl

theorem mapBlockIn_plain
    {mirror : Nat}
    (hPlain : chunk.PlainMirror mirror)
    (offset : Nat) :
    mapBlockIn chunk.toMapLookup .READ offset mirror false =
      .ok ⟨lengthOf chunk.toMapLookup offset, chunk.type,
        [chunk.mirrorAt offset
          (chunk.pickMirror offset mirror)], none⟩ := by
  have hData := chunk.pickMirror_data hPlain offset
  rw [chunk.mapBlockIn_pickMirror,
    chunk.mapBlockIn_read hData.1 hData.2.1]

/- All bytes of one request are read from one mirror. -/
theorem pickMirror_add
    (hk : k < lengthOf chunk.toMapLookup offset)
    (mirror : Nat) :
    chunk.pickMirror (offset + k) mirror =
      chunk.pickMirror offset mirror := by
  unfold pickMirror
  split
  · split
    case isTrue hType =>
      simp only [lengthOf, hType, reduceCtorEq, if_false]
        at hk
      rw [(div_add_of_lt
        (show offset % chunk.stripeLen + k < chunk.stripeLen
          by omega)).1]
    case isFalse => rfl
  · rfl

end Chunk

----------
-- Reading a Range
----------

namespace Layout

variable (layout : Layout)

/- Every address of a range is in a chunk. -/
def Mapped
    (offset bytes : Nat) : Prop :=
  ∀ i < bytes, ∃ chunk ∈ layout.chunks,
    chunk.Holds (offset + i)

/- The mirror is plain in every chunk the range meets. -/
def PlainMirrorOn
    (offset bytes mirror : Nat) : Prop :=
  ∀ chunk ∈ layout.chunks, ∀ i < bytes,
    chunk.Holds (offset + i) → chunk.PlainMirror mirror

/- The bytes that a read of a range should return. -/
def Returns
    (disk : Disk)
    (offset mirror : Nat)
    (out : List UInt8) : Prop :=
  ∀ i < out.length, ∀ chunk ∈ layout.chunks,
    chunk.Holds (offset + i) →
      out[i]? = some (chunk.byteAt disk
        (offset + i - chunk.start)
        (chunk.pickMirror (offset + i - chunk.start) mirror))

variable {layout}

theorem Mapped.drop
    {offset bytes : Nat}
    (hMapped : layout.Mapped offset bytes)
    (n : Nat) :
    layout.Mapped (offset + n) (bytes - n) := by
  intro i hi
  have hAt := hMapped (n + i) (by omega)
  rwa [← Nat.add_assoc] at hAt

theorem PlainMirrorOn.drop
    {offset bytes mirror : Nat}
    (hPlain : layout.PlainMirrorOn offset bytes mirror)
    (n : Nat) :
    layout.PlainMirrorOn (offset + n) (bytes - n) mirror := by
  intro chunk hChunk i hi hHolds
  rw [Nat.add_assoc] at hHolds
  exact hPlain chunk hChunk (n + i) (by omega) hHolds

/- The address that opens a non-empty mapped range. -/
theorem Mapped.head
    {offset bytes : Nat}
    (hMapped : layout.Mapped offset bytes)
    (hPos : 0 < bytes) :
    ∃ chunk ∈ layout.chunks, chunk.Holds offset :=
  hMapped 0 hPos

theorem lengthOf_le
    (chunk : Chunk)
    (offset : Nat) :
    lengthOf chunk.toMapLookup offset ≤
      chunk.size - offset := by
  unfold lengthOf
  split <;> omega

/- A request stays in the chunk it starts in. -/
theorem holds_add
    {chunk : Chunk}
    {logical k : Nat}
    (hHolds : chunk.Holds logical)
    (hk :
      k < lengthOf chunk.toMapLookup
        (logical - chunk.start)) :
    chunk.Holds (logical + k) := by
  have hLe :=
    lengthOf_le chunk (logical - chunk.start)
  unfold Chunk.Holds at hHolds ⊢
  omega

/- One request returns the bytes of its range. -/
theorem returns_request
    (disk : Disk)
    {chunk : Chunk}
    (hChunk : chunk ∈ layout.chunks)
    {offset : Nat}
    (hHolds : chunk.Holds offset)
    (mirror : Nat)
    {len : Nat}
    (hLen :
      len ≤ lengthOf chunk.toMapLookup
        (offset - chunk.start)) :
    layout.Returns disk offset mirror
      (ByteStore.read disk
        (chunk.mirrorAt (offset - chunk.start)
          (chunk.pickMirror (offset - chunk.start)
            mirror)).dev
        (chunk.mirrorAt (offset - chunk.start)
          (chunk.pickMirror (offset - chunk.start)
            mirror)).physical len) := by
  intro i hi d hd hAt
  rw [ByteStore.read_length] at hi
  have hk : i < lengthOf chunk.toMapLookup
      (offset - chunk.start) := by
    omega
  have hSame := holds_unique hChunk hd (holds_add hHolds hk) hAt
  subst hSame
  have hShift :
      offset + i - chunk.start = offset - chunk.start + i := by
    have hLow := hHolds.1
    omega
  rw [ByteStore.read_get _ _ _ hi, hShift,
    chunk.pickMirror_add hk, Chunk.byteAt,
    chunk.mirrorAt_add hk]

theorem Returns.append
    {disk : Disk}
    {offset mirror : Nat}
    {out rest : List UInt8}
    (hOut : layout.Returns disk offset mirror out)
    (hRest :
      layout.Returns disk (offset + out.length) mirror rest) :
    layout.Returns disk offset mirror (out ++ rest) := by
  intro i hi chunk hChunk hHolds
  rw [List.length_append] at hi
  by_cases hFirst : i < out.length
  · rw [List.getElem?_append_left hFirst]
    exact hOut i hFirst chunk hChunk hHolds
  · have hShift :
        offset + out.length + (i - out.length) =
          offset + i := by
      omega
    have hAt := hRest (i - out.length) (by omega) chunk hChunk
      (by rwa [hShift])
    rw [hShift] at hAt
    rw [List.getElem?_append_right (by omega), hAt]

/- The read loop returns the range, byte by byte. -/
theorem readLoop_spec
    (disk : Disk)
    {fuel offset bytesLeft mirror : Nat}
    (hFuel : bytesLeft ≤ fuel)
    (hMapped : layout.Mapped offset bytesLeft)
    (hPlain : layout.PlainMirrorOn offset bytesLeft mirror) :
    ∃ out,
      readLoop layout.info.mappingTree disk mirror fuel offset
          bytesLeft = .ok out ∧
        out.length = bytesLeft ∧
        layout.Returns disk offset mirror out := by
  induction fuel generalizing offset bytesLeft with
  | zero =>
      have hZero : bytesLeft = 0 := by omega
      subst hZero
      exact ⟨[], by simp [readLoop], rfl, by
        intro i hi
        simp at hi⟩
  | succ fuel ih =>
      cases bytesLeft with
      | zero =>
          exact ⟨[], by simp [readLoop], rfl, by
            intro i hi
            simp at hi⟩
      | succ left =>
          rcases hMapped.head (by omega) with
            ⟨chunk, hChunk, hHolds⟩
          have hMirror :=
            hPlain chunk hChunk 0 (by omega) hHolds
          have hPos :=
            chunk.lengthOf_pos hHolds.offset_lt
          have hLen :
              min (left + 1) (lengthOf chunk.toMapLookup
                (offset - chunk.start)) ≤
              lengthOf chunk.toMapLookup
                (offset - chunk.start) :=
            Nat.min_le_right _ _
          rcases ih
              (by omega)
              (hMapped.drop
                (min (left + 1) (lengthOf chunk.toMapLookup
                  (offset - chunk.start))))
              (hPlain.drop _) with
            ⟨rest, hRest, hLength, hReturns⟩
          have hFirst := returns_request disk hChunk hHolds
            mirror hLen
          refine ⟨_, ?_, ?_, hFirst.append
            (by rwa [ByteStore.read_length])⟩
          · unfold readLoop
            rw [mapBlock_eq mappingTree_ordered
              (mem_mappingTree hChunk) hHolds,
              chunk.mapBlockIn_plain hMirror]
            simp only [hRest]
          · rw [List.length_append, ByteStore.read_length,
              hLength]
            omega

end Layout

end Volumes

end BtrfsProgs
