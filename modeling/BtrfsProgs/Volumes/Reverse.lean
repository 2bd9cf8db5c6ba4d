import BtrfsProgs.Volumes.ParityWrite
import BtrfsProgs.Volumes.Rmap

/-
  The reverse mapping against the forward mapping.

  A stripe of the chunk that holds a physical address stands
  for one stripe length of logical addresses, and these are
  the addresses that the forward mapping sends to that stripe
  length of the device extent.

  Main declarations:
    * `mem_rmapBlockIn_iff`
    * `WritesData`
    * `rmapBlock_inverts_mapBlock`
-/

----------
-- The Collected Addresses
----------

namespace BtrfsProgs

namespace Volumes

open RangeTree

/- A stripe that the loop of `btrfs_rmap_block` looks at. -/
def Looks
    (map : MapLookup)
    (physical devid : Nat)
    (stripe : BioStripe) : Prop :=
  (devid = 0 ∨ stripe.dev = devid) ∧
    stripe.physical ≤ physical ∧
    physical < stripe.physical + rmapLength map

/- One turn of the loop. -/
def rmapTurn
    (map : MapLookup)
    (physical devid : Nat)
    (buf : List Nat)
    (entry : BioStripe × Nat) : List Nat :=
  if devid ≠ 0 ∧ entry.1.dev ≠ devid then
    buf
  else if physical < entry.1.physical ∨
      entry.1.physical + rmapLength map ≤ physical then
    buf
  else
    let bytenr := rmapStripe map physical entry.2 entry.1
    if bytenr ∈ buf then buf else buf ++ [bytenr]

section Loop

variable {map : MapLookup} {physical devid : Nat}
variable {buf : List Nat}
variable {entry : BioStripe × Nat}

theorem rmapTurn_looks
    (hLooks : Looks map physical devid entry.1) :
    rmapTurn map physical devid buf entry =
      if rmapStripe map physical entry.2 entry.1 ∈ buf then
        buf
      else
        buf ++ [rmapStripe map physical entry.2 entry.1] := by
  rcases hLooks with ⟨hDev, hLow, hHigh⟩
  unfold rmapTurn
  rw [if_neg (by rcases hDev with h | h <;> simp [h]),
    if_neg (by omega)]

theorem rmapTurn_not_looks
    (hLooks : ¬ Looks map physical devid entry.1) :
    rmapTurn map physical devid buf entry = buf := by
  unfold rmapTurn
  by_cases hDev : devid ≠ 0 ∧ entry.1.dev ≠ devid
  · rw [if_pos hDev]
  · rw [if_neg hDev, if_pos]
    by_contra hIn
    apply hLooks
    refine ⟨?_, by omega, by omega⟩
    by_contra hNot
    rw [not_or] at hNot
    exact hDev hNot

/- A turn adds the address of a stripe that it looks at. -/
theorem mem_rmapTurn_iff
    {b : Nat} :
    b ∈ rmapTurn map physical devid buf entry ↔
      b ∈ buf ∨
        Looks map physical devid entry.1 ∧
          b = rmapStripe map physical entry.2 entry.1 := by
  by_cases hLooks : Looks map physical devid entry.1
  · rw [rmapTurn_looks hLooks]
    split
    case isTrue hMem =>
      constructor
      · exact Or.inl
      · rintro (hOld | ⟨_, rfl⟩)
        · exact hOld
        · exact hMem
    case isFalse =>
      rw [List.mem_append, List.mem_singleton]
      simp [hLooks]
  · rw [rmapTurn_not_looks hLooks]
    simp [hLooks]

theorem nodup_rmapTurn
    (entry : BioStripe × Nat)
    (hNodup : buf.Nodup) :
    (rmapTurn map physical devid buf entry).Nodup := by
  by_cases hLooks : Looks map physical devid entry.1
  · rw [rmapTurn_looks hLooks]
    split
    case isTrue => exact hNodup
    case isFalse hMem =>
      rw [List.nodup_append]
      refine ⟨hNodup, List.nodup_singleton _, ?_⟩
      intro a ha b hb hEq
      rw [List.mem_singleton.mp hb] at hEq
      exact hMem (hEq ▸ ha)
  · rw [rmapTurn_not_looks hLooks]
    exact hNodup

theorem mem_turns_iff
    {entries : List (BioStripe × Nat)}
    {b : Nat} :
    b ∈ entries.foldl (rmapTurn map physical devid) buf ↔
      b ∈ buf ∨
        ∃ entry ∈ entries,
          Looks map physical devid entry.1 ∧
            b = rmapStripe map physical entry.2 entry.1 := by
  induction entries generalizing buf with
  | nil => simp
  | cons entry entries ih =>
      rw [List.foldl_cons, ih, mem_rmapTurn_iff]
      simp only [List.mem_cons, exists_eq_or_imp, or_assoc]

theorem nodup_turns
    {entries : List (BioStripe × Nat)}
    (hNodup : buf.Nodup) :
    (entries.foldl
      (rmapTurn map physical devid) buf).Nodup := by
  induction entries generalizing buf with
  | nil => exact hNodup
  | cons entry entries ih =>
      exact ih (nodup_rmapTurn entry hNodup)

theorem rmapBlockIn_eq_turns :
    rmapBlockIn map physical devid =
      map.stripes.zipIdx.foldl
        (rmapTurn map physical devid) [] :=
  rfl

theorem nodup_rmapBlockIn :
    (rmapBlockIn map physical devid).Nodup := by
  rw [rmapBlockIn_eq_turns]
  exact nodup_turns List.nodup_nil

/- The addresses of all stripes that the loop looks at. -/
theorem mem_rmapBlockIn_iff
    {b : Nat} :
    b ∈ rmapBlockIn map physical devid ↔
      ∃ i stripe, map.stripes[i]? = some stripe ∧
        Looks map physical devid stripe ∧
          b = rmapStripe map physical i stripe := by
  rw [rmapBlockIn_eq_turns, mem_turns_iff]
  simp only [List.not_mem_nil, false_or, Prod.exists,
    List.mem_zipIdx_iff_getElem?]
  constructor
  · rintro ⟨stripe, i, hAt, hLooks, hb⟩
    exact ⟨i, stripe, hAt, hLooks, hb⟩
  · rintro ⟨i, stripe, hAt, hLooks, hb⟩
    exact ⟨stripe, i, hAt, hLooks, hb⟩

end Loop

----------
-- Stripes of a Chunk
----------

/- The number that a row of a stripe gets. -/
def rmapNr
    (map : MapLookup)
    (row i : Nat) : Nat :=
  match map.type with
  | .raid10 => (row * map.numStripes + i) / map.subStripes
  | .raid0 => row * map.numStripes + i
  | _ => row

theorem rmapStripe_eq
    (map : MapLookup)
    (physical i : Nat)
    (stripe : BioStripe) :
    rmapStripe map physical i stripe =
      (map.start +
        rmapNr map
          ((physical - stripe.physical) / map.stripeLen) i *
          rmapLen map) % 2 ^ 64 := by
  unfold rmapStripe rmapNr
  cases map.type <;> rfl

namespace Chunk

variable (chunk : Chunk)

/- The loop sees all of a device extent, and no more. -/
theorem rmapLength_eq :
    rmapLength chunk.toMapLookup = chunk.calcSize := by
  have hSize := chunk.size_eq_width
  have hWidth := chunk.width_pos
  have hStripes := chunk.stripesOk
  cases hType : chunk.type <;>
    simp only [width, hType] at hSize hWidth <;>
    simp only [Profile.StripesOk, hType] at hStripes <;>
    simp only [rmapLength, hType, nrDataStripes,
      nrParityStripes, hSize]
  case single => rw [hStripes, Nat.mul_one]
  case dup => rw [Nat.mul_one]
  case raid1 => rw [Nat.mul_one]
  all_goals exact Nat.mul_div_cancel _ hWidth

/- The number of a data mirror's stripe, without parity. -/
theorem rmapNr_place
    {row col mirror : Nat}
    (hPlain : chunk.type.isRaid56 = false)
    (hCol : col < width chunk.toMapLookup)
    (hMirror : 1 ≤ mirror)
    (hCopies : mirror ≤ copies chunk.toMapLookup) :
    rmapNr chunk.toMapLookup row
        (place chunk.toMapLookup row col mirror) =
      row * width chunk.toMapLookup + col := by
  have hStripes := chunk.stripesOk
  cases hType : chunk.type <;>
    simp only [Profile.StripesOk, hType] at hStripes <;>
    simp only [width, hType] at hCol <;>
    simp only [copies, hType] at hCopies <;>
    simp only [hType, Profile.isRaid56,
      Bool.true_eq_false] at hPlain <;>
    simp only [rmapNr, place, width, hType]
  case single =>
    rw [hStripes] at hCol ⊢
    omega
  case dup => omega
  case raid1 => omega
  case raid10 =>
    rcases hStripes with ⟨_, hSub, hDvd⟩
    rcases hDvd with ⟨groups, hGroups⟩
    rw [hGroups, Nat.mul_div_cancel_left _ hSub]
    have hSplit :
        row * (chunk.subStripes * groups) +
            (col * chunk.subStripes + (mirror - 1)) =
          (mirror - 1) +
            chunk.subStripes * (row * groups + col) := by
      rw [Nat.mul_add, Nat.mul_left_comm row,
        Nat.mul_comm col]
      omega
    rw [hSplit, Nat.add_mul_div_left _ _ hSub,
      Nat.div_eq_of_lt (by omega), Nat.zero_add]

/- Without parity every stripe of a row is a data mirror. -/
theorem exists_place
    {index : Nat}
    (hPlain : chunk.type.isRaid56 = false)
    (hIndex : index < chunk.numStripes)
    (row : Nat) :
    ∃ col mirror, col < width chunk.toMapLookup ∧
      1 ≤ mirror ∧ mirror ≤ copies chunk.toMapLookup ∧
      place chunk.toMapLookup row col mirror = index := by
  have hStripes := chunk.stripesOk
  cases hType : chunk.type <;>
    simp only [Profile.StripesOk, hType] at hStripes <;>
    simp only [hType, Profile.isRaid56,
      Bool.true_eq_false] at hPlain <;>
    simp only [place, width, copies, hType]
  case single => exact ⟨index, 1, hIndex, le_rfl, le_rfl, rfl⟩
  case raid0 => exact ⟨index, 1, hIndex, le_rfl, le_rfl, rfl⟩
  case dup =>
    exact ⟨0, index + 1, Nat.one_pos, by omega, hIndex, rfl⟩
  case raid1 =>
    exact ⟨0, index + 1, Nat.one_pos, by omega, hIndex, rfl⟩
  case raid10 =>
    rcases hStripes with ⟨_, hSub, hDvd⟩
    have hRest := Nat.mod_lt index hSub
    refine ⟨index / chunk.subStripes,
      index % chunk.subStripes + 1, ?_, by omega, hRest, ?_⟩
    · apply Nat.div_lt_of_lt_mul
      rw [Nat.mul_div_cancel' hDvd]
      exact hIndex
    · rw [Nat.add_sub_cancel]
      exact Nat.div_add_mod' index chunk.subStripes

/- Without parity the length is that of a stripe. -/
theorem rmapLen_plain
    (hPlain : chunk.type.isRaid56 = false) :
    rmapLen chunk.toMapLookup = chunk.stripeLen := by
  unfold rmapLen
  rw [hPlain]
  rfl

/- With parity it is that of a full stripe. -/
theorem rmapLen_parity
    (hFits : chunk.FullFits)
    (hParity : chunk.type.isRaid56 = true) :
    rmapLen chunk.toMapLookup =
      width chunk.toMapLookup * chunk.stripeLen := by
  have hInt := hFits hParity
  unfold rmapLen
  rw [if_pos hParity,
    intMul_eq (by rwa [Nat.mul_comm]), Nat.mul_comm,
    nrDataStripes_eq_width hParity]

theorem rmapLen_pos
    (hFits : chunk.FullFits) :
    0 < rmapLen chunk.toMapLookup := by
  cases hParity : chunk.type.isRaid56 with
  | true =>
      rw [chunk.rmapLen_parity hFits hParity]
      exact chunk.fullStripeLen_pos
  | false =>
      rw [chunk.rmapLen_plain hParity]
      exact chunk.stripeLen_pos

theorem rmapNr_parity
    (hParity : chunk.type.isRaid56 = true)
    (row i : Nat) :
    rmapNr chunk.toMapLookup row i = row := by
  cases hType : chunk.type <;>
    simp only [hType, Profile.isRaid56,
      Bool.false_eq_true] at hParity <;>
    simp only [rmapNr, hType]

/- A row that begins in the device extents is in the chunk. -/
theorem number_lt_size
    {row col depth : Nat}
    (hDepth : depth < chunk.calcSize)
    (hRow : depth / chunk.stripeLen = row)
    (hCol : col < width chunk.toMapLookup) :
    (row * width chunk.toMapLookup + col) *
        chunk.stripeLen < chunk.size := by
  rcases chunk.stripeLen_dvd with ⟨rows, hRows⟩
  have hRowLt : row < rows := by
    rw [← hRow]
    apply Nat.div_lt_of_lt_mul
    rw [← hRows]
    exact hDepth
  have hStep :
      (row * width chunk.toMapLookup + col) + 1 ≤
        rows * width chunk.toMapLookup := by
    have hMul := Nat.mul_le_mul_right
      (width chunk.toMapLookup) hRowLt
    rw [Nat.succ_mul] at hMul
    omega
  have hAll := Nat.mul_le_mul_right chunk.stripeLen hStep
  have hSize : chunk.size =
      rows * width chunk.toMapLookup * chunk.stripeLen := by
    rw [chunk.size_eq_width, hRows, Nat.mul_right_comm,
      Nat.mul_comm, Nat.mul_left_comm, Nat.mul_comm]
  rw [hSize]
  rw [Nat.succ_mul] at hAll
  have hPos := chunk.stripeLen_pos
  omega

/- An address of the chunk is one of a `u64`. -/
theorem rmapNr_fits
    (hFits : chunk.FullFits)
    {index depth : Nat}
    (hIndex : index < chunk.numStripes)
    (hDepth : depth < chunk.calcSize) :
    chunk.start +
        rmapNr chunk.toMapLookup (depth / chunk.stripeLen)
            index * rmapLen chunk.toMapLookup < 2 ^ 64 := by
  have hBound := chunk.start_bound
  have hLast : RAID5_P_STRIPE < 2 ^ 64 := by
    decide
  cases hParity : chunk.type.isRaid56 with
  | true =>
      have hRow := chunk.number_lt_size hDepth rfl
        chunk.width_pos
      rw [Nat.add_zero, Nat.mul_assoc] at hRow
      rw [chunk.rmapNr_parity hParity,
        chunk.rmapLen_parity hFits hParity]
      omega
  | false =>
      rcases chunk.exists_place hParity hIndex
          (depth / chunk.stripeLen) with
        ⟨col, mirror, hCol, hMirror, hCopies, rfl⟩
      have hRow := chunk.number_lt_size hDepth rfl hCol
      rw [chunk.rmapNr_place hParity hCol hMirror hCopies,
        chunk.rmapLen_plain hParity]
      omega

/- A byte of a device extent gives one of the addresses. -/
theorem mem_rmapBlockIn
    (hFits : chunk.FullFits)
    {index depth : Nat}
    (hIndex : index < chunk.numStripes)
    (hDepth : depth < chunk.calcSize) :
    chunk.start +
        rmapNr chunk.toMapLookup (depth / chunk.stripeLen)
            index * rmapLen chunk.toMapLookup ∈
      rmapBlockIn chunk.toMapLookup
        (stripeAt chunk.toMapLookup index depth).physical
        (stripeAt chunk.toMapLookup index depth).dev := by
  have hLength := chunk.stripes_length
  rw [mem_rmapBlockIn_iff]
  refine ⟨index, chunk.stripes.getD index ⟨0, 0⟩, ?_, ?_, ?_⟩
  · rw [List.getD_eq_getElem _ _ (by omega)]
    exact List.getElem?_eq_getElem (by omega)
  · refine ⟨Or.inr rfl, Nat.le_add_right _ _, ?_⟩
    rw [chunk.rmapLength_eq]
    exact Nat.add_lt_add_left hDepth _
  · have hBound := chunk.rmapNr_fits hFits hIndex hDepth
    rw [rmapStripe_eq]
    simp only [stripeAt]
    rw [Nat.add_sub_cancel_left, Nat.mod_eq_of_lt hBound]

/- The row of a depth. -/
theorem depthOf_div
    (offset : Nat) :
    depthOf chunk.toMapLookup offset / chunk.stripeLen =
      rowOf chunk.toMapLookup offset := by
  unfold depthOf
  rw [Nat.add_mul_div_right _ _ chunk.stripeLen_pos,
    Nat.div_eq_of_lt (chunk.mod_stripeLen_lt offset),
    Nat.zero_add]

/- The addresses that a list of addresses must cover. -/
def Covers
    (buf : List Nat)
    (logical : Nat) : Prop :=
  ∃ b ∈ buf,
    (∃ k, b = chunk.start + k * rmapLen chunk.toMapLookup) ∧
      b ≤ logical ∧
      logical < b + rmapLen chunk.toMapLookup

/-
  The reverse mapping of a byte of a device extent gives the
  stripe that holds a logical address.
-/
def Stands
    (logical index depth : Nat) : Prop :=
  index < chunk.numStripes ∧
    depth < chunk.calcSize ∧
    chunk.start +
        rmapNr chunk.toMapLookup (depth / chunk.stripeLen)
            index * rmapLen chunk.toMapLookup ≤ logical ∧
    logical <
      chunk.start +
        rmapNr chunk.toMapLookup (depth / chunk.stripeLen)
            index * rmapLen chunk.toMapLookup +
        rmapLen chunk.toMapLookup

theorem covers_of_stands
    (hFits : chunk.FullFits)
    {logical index depth : Nat}
    (hStands : chunk.Stands logical index depth) :
    chunk.Covers
      (rmapBlockIn chunk.toMapLookup
        (stripeAt chunk.toMapLookup index depth).physical
        (stripeAt chunk.toMapLookup index depth).dev)
      logical := by
  rcases hStands with ⟨hIndex, hDepth, hLow, hHigh⟩
  exact ⟨_, chunk.mem_rmapBlockIn hFits hIndex hDepth, ⟨_, rfl⟩,
    hLow, hHigh⟩

/- A mirror of an address stands for it. -/
theorem stands_mirror
    {logical mirror : Nat}
    (hPlain : chunk.type.isRaid56 = false)
    (hHolds : chunk.Holds logical)
    (hMirror : 1 ≤ mirror)
    (hCopies : mirror ≤ copies chunk.toMapLookup) :
    chunk.Stands logical
      (place chunk.toMapLookup
        (rowOf chunk.toMapLookup (logical - chunk.start))
        (colOf chunk.toMapLookup (logical - chunk.start))
        mirror)
      (depthOf chunk.toMapLookup (logical - chunk.start)) := by
  have hOffset := hHolds.offset_lt
  have hSplit :=
    offset_eq chunk.toMapLookup (logical - chunk.start)
  have hInner :=
    chunk.mod_stripeLen_lt (logical - chunk.start)
  have hLen := chunk.rmapLen_plain hPlain
  refine ⟨chunk.mirror_place_lt (logical - chunk.start) hMirror
    hCopies, chunk.depthOf_lt hOffset, ?_⟩
  have hLow := hHolds.1
  rw [chunk.depthOf_div, chunk.rmapNr_place hPlain
    (chunk.colOf_lt _) hMirror hCopies, hLen]
  omega

/- With parity, all of a row stands for its addresses. -/
theorem stands_row
    (hFits : chunk.FullFits)
    {logical index depth : Nat}
    (hParity : chunk.type.isRaid56 = true)
    (hHolds : chunk.Holds logical)
    (hIndex : index < chunk.numStripes)
    (hDepth : depth < chunk.calcSize)
    (hRow :
      depth / chunk.stripeLen =
        rowOf chunk.toMapLookup (logical - chunk.start)) :
    chunk.Stands logical index depth := by
  have hRows :=
    (chunk.rowOf_eq_iff (logical - chunk.start) _).mp rfl
  have hLen := chunk.rmapLen_parity hFits hParity
  refine ⟨hIndex, hDepth, ?_⟩
  have hLow := hHolds.1
  rw [chunk.rmapNr_parity hParity, hRow, hLen]
  rw [Nat.succ_mul] at hRows
  omega

/- An address at the start of a stripe of the chunk. -/
theorem place_of_number
    {col : Nat}
    (row : Nat)
    (hCol : col < width chunk.toMapLookup) :
    rowOf chunk.toMapLookup
          ((row * width chunk.toMapLookup + col) *
            chunk.stripeLen) = row ∧
      colOf chunk.toMapLookup
          ((row * width chunk.toMapLookup + col) *
            chunk.stripeLen) = col ∧
      depthOf chunk.toMapLookup
          ((row * width chunk.toMapLookup + col) *
            chunk.stripeLen) = row * chunk.stripeLen := by
  have hRow : rowOf chunk.toMapLookup
      ((row * width chunk.toMapLookup + col) *
        chunk.stripeLen) = row := by
    unfold rowOf
    rw [Nat.mul_div_cancel _ chunk.stripeLen_pos,
      Nat.add_comm, Nat.add_mul_div_right _ _ chunk.width_pos,
      Nat.div_eq_of_lt hCol, Nat.zero_add]
  refine ⟨hRow, ?_, ?_⟩
  · unfold colOf
    rw [Nat.mul_div_cancel _ chunk.stripeLen_pos,
      Nat.add_comm, Nat.add_mul_mod_self_right,
      Nat.mod_eq_of_lt hCol]
  · unfold depthOf
    rw [hRow, Nat.mul_mod_left, Nat.zero_add]

/- Without parity, a collected address is written there. -/
theorem mirror_of_mem
    {physical devid b : Nat}
    (hPlain : chunk.type.isRaid56 = false)
    (hMem : b ∈ rmapBlockIn chunk.toMapLookup physical devid) :
    chunk.Holds b ∧
      ∃ mirror, 1 ≤ mirror ∧
        mirror ≤ copies chunk.toMapLookup ∧
        (devid = 0 ∨
          (chunk.mirrorAt (b - chunk.start) mirror).dev =
            devid) ∧
        (chunk.mirrorAt (b - chunk.start) mirror).physical ≤
          physical ∧
        physical <
          (chunk.mirrorAt (b - chunk.start) mirror).physical +
            chunk.stripeLen := by
  obtain ⟨i, stripe, hAt, ⟨hDev, hLow, hHigh⟩, hb⟩ :=
    mem_rmapBlockIn_iff.mp hMem
  have hLength := chunk.stripes_length
  have hIndex : i < chunk.numStripes := by
    have hLt := (List.getElem?_eq_some_iff.mp hAt).1
    omega
  rw [chunk.rmapLength_eq] at hHigh
  set row := (physical - stripe.physical) / chunk.stripeLen
    with hRow
  obtain ⟨col, mirror, hCol, hMirror, hCopies, hPlace⟩ :=
    chunk.exists_place hPlain hIndex row
  have hLen := chunk.rmapLen_plain hPlain
  have hBound := chunk.rmapNr_fits
    (FullFits.of_plain hPlain)
    hIndex
    (show physical - stripe.physical < chunk.calcSize by omega)
  rw [rmapStripe_eq, Nat.mod_eq_of_lt hBound, ← hRow] at hb
  have hOffset : b - chunk.start =
      (row * width chunk.toMapLookup + col) *
        chunk.stripeLen := by
    rw [hb, ← hPlace,
      chunk.rmapNr_place hPlain hCol hMirror hCopies, hLen]
    exact Nat.add_sub_cancel_left _ _
  have hStart : chunk.start ≤ b := by
    rw [hb]
    exact Nat.le_add_right _ _
  have hSize := chunk.number_lt_size
    (show physical - stripe.physical < chunk.calcSize by omega)
    hRow.symm hCol
  rw [← hOffset] at hSize
  refine ⟨⟨hStart, by omega⟩, mirror, hMirror, hCopies, ?_⟩
  have hMirrorAt : chunk.mirrorAt (b - chunk.start) mirror =
      ⟨stripe.dev, stripe.physical + row * chunk.stripeLen⟩ := by
    obtain ⟨hR, hC, hD⟩ :=
      chunk.place_of_number row hCol
    have hStripe : chunk.stripes.getD i ⟨0, 0⟩ = stripe := by
      rw [List.getD_eq_getElem?_getD, hAt]
      rfl
    unfold mirrorAt
    rw [hOffset, hR, hC, hD, hPlace]
    unfold stripeAt
    rw [hStripe]
  rw [hMirrorAt]
  refine ⟨hDev, ?_, ?_⟩
  · have hDiv := Nat.div_mul_le_self
      (physical - stripe.physical) chunk.stripeLen
    rw [← hRow] at hDiv
    dsimp only
    omega
  · have hDiv := Nat.lt_div_mul_add
      (a := physical - stripe.physical) chunk.stripeLen_pos
    rw [← hRow] at hDiv
    dsimp only
    omega

end Chunk

----------
-- Both Mappings
----------

/- A stripe of a write that is not parity. -/
def WritesData
    (r : MapResult)
    (s : BioStripe) : Prop :=
  match r.raidMap with
  | none => s ∈ r.stripes
  | some raidMap =>
      ∃ label, (label, s) ∈ raidMap.zip r.stripes ∧
        label < RAID5_P_STRIPE

namespace Chunk

variable (chunk : Chunk)

/- A write without a raid map names one data stripe. -/
theorem mapBlockIn_write_parity
    (hParity : chunk.type.isRaid56 = true)
    (offset : Nat) :
    mapBlockIn chunk.toMapLookup .WRITE offset 0 false =
      .ok ⟨lengthOf chunk.toMapLookup offset, chunk.type,
        [chunk.mirrorAt offset 1], none⟩ := by
  have hRead := chunk.mapBlockIn_read le_rfl
    (by
      rw [chunk.copies_eq_parity hParity]
      omega) offset
  rw [← hRead, chunk.mapBlockIn_plan (by simp),
    chunk.mapBlockIn_plan (by simp)]
  have hPlan : ∀ stripeNr stripeOffset length,
      stripePlan chunk.toMapLookup .WRITE 0 stripeNr
          stripeOffset length =
        stripePlan chunk.toMapLookup .READ 1 stripeNr
          stripeOffset length := by
    intro stripeNr stripeOffset length
    cases hType : chunk.type <;>
      simp only [hType, Profile.isRaid56,
        Bool.false_eq_true] at hParity <;>
      simp [stripePlan, hType]
  simp only [hPlan]

theorem covers_writesData
    (hFits : chunk.FullFits)
    {logical : Nat}
    (raidMapRet : Bool)
    (hHolds : chunk.Holds logical) :
    ∃ r,
      mapBlockIn chunk.toMapLookup .WRITE
          (logical - chunk.start) 0 raidMapRet = .ok r ∧
        ∀ s, WritesData r s →
          chunk.Covers
            (rmapBlockIn chunk.toMapLookup s.physical s.dev)
            logical := by
  have hOffset := hHolds.offset_lt
  cases hParity : chunk.type.isRaid56 with
  | false =>
      refine ⟨_, chunk.mapBlockIn_write hParity _ _ _, ?_⟩
      intro s hs
      simp only [WritesData, List.mem_map,
        List.mem_range] at hs
      rcases hs with ⟨i, hi, rfl⟩
      exact chunk.covers_of_stands (FullFits.of_plain hParity)
        (chunk.stands_mirror hParity hHolds
          (Nat.le_add_left 1 i) hi)
  | true =>
      cases raidMapRet with
      | false =>
          refine ⟨_, chunk.mapBlockIn_write_parity hParity _,
            ?_⟩
          intro s hs
          simp only [WritesData, List.mem_singleton] at hs
          subst hs
          apply chunk.covers_of_stands hFits
          apply chunk.stands_row hFits hParity hHolds
          · apply chunk.mirror_place_lt _ le_rfl
            rw [chunk.copies_eq_parity hParity]
            omega
          · exact chunk.depthOf_lt hOffset
          · exact chunk.depthOf_div _
      | true =>
          refine ⟨_, chunk.mapBlockIn_raidMap hParity
            (Or.inl rfl) hOffset (hFits.findsRow hParity _),
            ?_⟩
          intro s hs
          rcases hs with ⟨label, hZip, _⟩
          have hs := (List.of_mem_zip hZip).2
          simp only [List.mem_map, List.mem_range] at hs
          rcases hs with ⟨k, _, rfl⟩
          have hRow := chunk.row_fits hOffset
          have hPos := chunk.stripeLen_pos
          rw [Nat.succ_mul] at hRow
          apply chunk.covers_of_stands hFits
          apply chunk.stands_row hFits hParity hHolds
          · exact chunk.raidIndex_lt _ k
          · omega
          · exact Nat.mul_div_cancel _ hPos

end Chunk

theorem rmapBlock_eq
    {mapTree : List MapLookup}
    {chunk : Chunk}
    (hOrdered : Ordered mapTree)
    (hChunk : chunk.toMapLookup ∈ mapTree)
    (physical devid : Nat) :
    rmapBlock mapTree chunk.start physical devid =
      some (rmapBlockIn chunk.toMapLookup physical devid,
        rmapLen chunk.toMapLookup) := by
  have hSome : chunk.start < chunk.start + chunk.size :=
    hOrdered.nonempty _ hChunk
  obtain ⟨c, hSearch, hNode⟩ :=
    search_holds hOrdered hChunk ⟨le_rfl, hSome⟩
  unfold rmapBlock
  rw [hSearch]
  dsimp only
  rw [hNode]

/-
  From every data stripe that a write of an address goes to,
  the reverse mapping comes back to a stripe that holds the
  address; and without parity, every address that the reverse
  mapping gives is written to the stripe length of the device
  that was asked for.  With stripes of 64 KiB, as
  `btrfs_alloc_chunk` makes them, a full stripe has a length
  of an `int`.
-/
theorem rmapBlock_inverts_mapBlock
    {mapTree : List MapLookup}
    (hOrdered : Ordered mapTree)
    (chunk : Chunk)
    (hChunk : chunk.toMapLookup ∈ mapTree)
    (hFits : chunk.FullFits) :
    (∀ logical raidMapRet, chunk.Holds logical →
      ∃ r,
        mapBlock mapTree .WRITE logical 0 raidMapRet = .ok r ∧
          ∀ s, WritesData r s →
            ∃ buf len,
              rmapBlock mapTree chunk.start s.physical s.dev =
                  some (buf, len) ∧
                buf.Nodup ∧
                ∃ b ∈ buf,
                  (∃ k, b = chunk.start + k * len) ∧
                    b ≤ logical ∧ logical < b + len) ∧
    (chunk.type.isRaid56 = false →
      ∀ physical devid raidMapRet,
        ∃ buf len,
          rmapBlock mapTree chunk.start physical devid =
              some (buf, len) ∧
            buf.Nodup ∧
            ∀ b ∈ buf, chunk.Holds b ∧
              ∃ r,
                mapBlock mapTree .WRITE b 0 raidMapRet =
                    .ok r ∧
                  ∃ s ∈ r.stripes,
                    (devid = 0 ∨ s.dev = devid) ∧
                      s.physical ≤ physical ∧
                      physical <
                        s.physical + chunk.stripeLen) := by
  refine ⟨?_, ?_⟩
  · intro logical raidMapRet hHolds
    rw [mapBlock_eq hOrdered hChunk hHolds]
    obtain ⟨r, hMap, hCovers⟩ :=
      chunk.covers_writesData hFits raidMapRet hHolds
    refine ⟨r, hMap, ?_⟩
    intro s hs
    exact ⟨_, _, rmapBlock_eq hOrdered hChunk _ _,
      nodup_rmapBlockIn, hCovers s hs⟩
  · intro hPlain physical devid raidMapRet
    refine ⟨_, _, rmapBlock_eq hOrdered hChunk _ _,
      nodup_rmapBlockIn, ?_⟩
    intro b hb
    obtain ⟨hHolds, mirror, hMirror, hCopies, hAt⟩ :=
      chunk.mirror_of_mem hPlain hb
    refine ⟨hHolds, ?_⟩
    rw [mapBlock_eq hOrdered hChunk hHolds,
      chunk.mapBlockIn_write hPlain]
    refine ⟨_, rfl, chunk.mirrorAt (b - chunk.start) mirror,
      ?_, hAt⟩
    simp only [List.mem_map, List.mem_range]
    exact ⟨mirror - 1, by omega, by
      rw [Nat.sub_add_cancel hMirror]⟩

theorem rmapBlock_inverts_raid10 :
    ∃ r,
      mapBlock [raid10Example.toMapLookup] .WRITE 1179648 0
          true = .ok r ∧
        ∀ s, WritesData r s →
          ∃ buf len,
            rmapBlock [raid10Example.toMapLookup]
                raid10Example.start s.physical s.dev =
                some (buf, len) ∧
              buf.Nodup ∧
              ∃ b ∈ buf,
                (∃ k, b = raid10Example.start + k * len) ∧
                  b ≤ 1179648 ∧ 1179648 < b + len :=
  (rmapBlock_inverts_mapBlock
    (show Ordered [raid10Example.toMapLookup] from
      ⟨by decide, by decide⟩)
    raid10Example (by decide) (by decide)).1 1179648 true
    (by decide)

end Volumes

end BtrfsProgs
