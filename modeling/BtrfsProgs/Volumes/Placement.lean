import BtrfsProgs.Volumes.Map

/-
  Where the bytes of a chunk live.

  A chunk is cut into rows of `width` stripes.  A mirror of
  the stripe in column `col` of row `row` is on the device
  extent `place`, `row` stripe lengths into it.

  Main declarations:
    * `place` and `stripePlan_read`
    * `stripePlan_write`
    * `stripeAt_inj`
-/

----------
-- Rows and Columns
----------

namespace BtrfsProgs

namespace Volumes

open RangeTree

/- The stripes of data in one row of a chunk. -/
def width
    (map : MapLookup) : Nat :=
  match map.type with
  | .raid1 => 1
  | .dup => 1
  | .raid10 => map.numStripes / map.subStripes
  | .raid5 => map.numStripes - 1
  | .raid6 => map.numStripes - 2
  | .single => map.numStripes
  | .raid0 => map.numStripes

/- The number of mirrors a reader may ask for. -/
def copies
    (map : MapLookup) : Nat :=
  match map.type with
  | .dup => map.numStripes
  | .raid1 => map.numStripes
  | .raid10 => map.subStripes
  | .raid5 => 2
  | .raid6 => 3
  | .single => 1
  | .raid0 => 1

/- The device extent of one mirror of one stripe. -/
def place
    (map : MapLookup)
    (row col mirror : Nat) : Nat :=
  match map.type with
  | .raid1 => mirror - 1
  | .dup => mirror - 1
  | .raid10 => col * map.subStripes + (mirror - 1)
  | .raid5 | .raid6 =>
      (row + if 1 < mirror then
        nrDataStripes map + mirror - 2 else col) %
          map.numStripes
  | .single => col
  | .raid0 => col

/- The mirrors that hold the data itself, not parity. -/
def DataMirror
    (map : MapLookup)
    (mirror : Nat) : Prop :=
  1 ≤ mirror ∧ mirror ≤ copies map ∧
    (map.type.isRaid56 = true → mirror = 1)

variable {map : MapLookup}

theorem nrDataStripes_eq_width
    (hParity : map.type.isRaid56 = true) :
    nrDataStripes map = width map := by
  cases hType : map.type <;>
    simp_all [nrDataStripes, nrParityStripes, width,
      Profile.isRaid56]

/- A read request names one place. -/
theorem stripePlan_read
    (map : MapLookup)
    {mirror : Nat}
    (hMirror : 1 ≤ mirror)
    (stripeNr stripeOffset length : Nat) :
    stripePlan map .READ mirror stripeNr stripeOffset length =
      ⟨1, place map (stripeNr / width map)
          (stripeNr % width map) mirror,
        stripeNr / width map, stripeOffset, length⟩ := by
  have hNonzero : mirror ≠ 0 := by omega
  cases hType : map.type <;>
    simp [stripePlan, place, width, hType, hNonzero,
      nrDataStripes, nrParityStripes]

/- A write request names every place a read may name. -/
theorem stripePlan_write
    (hPlain : map.type.isRaid56 = false)
    (mirror stripeNr stripeOffset length : Nat) :
    stripePlan map .WRITE mirror stripeNr stripeOffset
        length =
      ⟨copies map, place map (stripeNr / width map)
          (stripeNr % width map) 1,
        stripeNr / width map, stripeOffset, length⟩ := by
  cases hType : map.type <;>
    simp_all [stripePlan, place, width, copies,
      Profile.isRaid56]

/- Mirrors of a stripe are on consecutive device extents. -/
theorem place_eq_add
    (hPlain : map.type.isRaid56 = false)
    {mirror : Nat}
    (hCopies : mirror ≤ copies map)
    (row col : Nat) :
    place map row col mirror =
      place map row col 1 + (mirror - 1) := by
  cases hType : map.type <;>
    simp_all [place, copies, Profile.isRaid56]

/- Rotating a row does not bring two columns together. -/
theorem rotate_inj
    {n row col col' : Nat}
    (hCol : col < n)
    (hCol' : col' < n)
    (hRotate : (row + col) % n = (row + col') % n) :
    col = col' := by
  have hMod : col ≡ col' [MOD n] :=
    Nat.ModEq.add_left_cancel' row hRotate
  exact hMod.eq_of_lt_of_lt hCol hCol'

namespace Chunk

variable (chunk : Chunk)

theorem numStripes_pos :
    0 < chunk.numStripes := by
  have hStripes := chunk.stripesOk
  cases hType : chunk.type <;>
    simp [Profile.StripesOk, hType] at hStripes <;> omega

theorem width_pos :
    0 < width chunk.toMapLookup := by
  have hStripes := chunk.stripesOk
  cases hType : chunk.type <;>
    simp only [Profile.StripesOk, hType] at hStripes <;>
    simp only [width, hType]
  case raid10 =>
      rcases hStripes with ⟨hPos, hSub, hDvd⟩
      exact Nat.div_pos (Nat.le_of_dvd hPos hDvd) hSub
  all_goals omega

theorem size_eq_width :
    chunk.size = chunk.calcSize * width chunk.toMapLookup := by
  rw [chunk.size_eq]
  cases hType : chunk.type <;>
    simp [chunkBytesByType, width, hType]

/- A place is one of the chunk's device extents. -/
theorem place_lt
    {row col mirror : Nat}
    (hCol : col < width chunk.toMapLookup)
    (hMirror : 1 ≤ mirror)
    (hCopies : mirror ≤ copies chunk.toMapLookup) :
    place chunk.toMapLookup row col mirror <
      chunk.numStripes := by
  have hPos := chunk.numStripes_pos
  have hStripes := chunk.stripesOk
  cases hType : chunk.type <;>
    simp only [Profile.StripesOk, hType] at hStripes <;>
    simp only [width, copies, hType] at hCol hCopies <;>
    simp only [place, hType]
  case raid5 => exact Nat.mod_lt _ hPos
  case raid6 => exact Nat.mod_lt _ hPos
  case raid10 =>
      rcases hStripes with ⟨_, _, hDvd⟩
      have hGroup :
          (col + 1) * chunk.subStripes ≤
            chunk.numStripes / chunk.subStripes *
              chunk.subStripes :=
        Nat.mul_le_mul_right _ hCol
      rw [Nat.div_mul_cancel hDvd, Nat.succ_mul] at hGroup
      omega
  all_goals omega

/- Within a row, the data mirrors of columns are apart. -/
theorem place_inj
    {row col col' mirror mirror' : Nat}
    (hCol : col < width chunk.toMapLookup)
    (hCol' : col' < width chunk.toMapLookup)
    (hMirror : DataMirror chunk.toMapLookup mirror)
    (hMirror' : DataMirror chunk.toMapLookup mirror')
    (hPlace :
      place chunk.toMapLookup row col mirror =
        place chunk.toMapLookup row col' mirror') :
    col = col' ∧ mirror = mirror' := by
  have hStripes := chunk.stripesOk
  rcases hMirror with ⟨hOne, hCopies, hData⟩
  rcases hMirror' with ⟨hOne', hCopies', hData'⟩
  cases hType : chunk.type <;>
    simp only [Profile.StripesOk, hType] at hStripes <;>
    simp only [width, place, hType] at hCol hCol' hPlace <;>
    simp only [copies, hType] at hCopies hCopies' <;>
    simp only [Profile.isRaid56, hType, forall_const]
      at hData hData'
  case raid10 =>
      have hDiv := congrArg (· / chunk.subStripes) hPlace
      simp only [Nat.add_comm (_ * _),
        Nat.add_mul_div_right _ _ hStripes.2.1,
        Nat.div_eq_of_lt (show mirror - 1 < chunk.subStripes
          by omega),
        Nat.div_eq_of_lt (show mirror' - 1 < chunk.subStripes
          by omega), Nat.zero_add] at hDiv
      subst hDiv
      exact ⟨rfl, by omega⟩
  case raid5 =>
      subst hData hData'
      simp only [lt_irrefl, if_false] at hPlace
      exact ⟨rotate_inj (by omega) (by omega) hPlace, rfl⟩
  case raid6 =>
      subst hData hData'
      simp only [lt_irrefl, if_false] at hPlace
      exact ⟨rotate_inj (by omega) (by omega) hPlace, rfl⟩
  all_goals omega

/- Mirrors of one stripe are apart. -/
theorem place_mirror_inj
    {row col mirror mirror' : Nat}
    (hCol : col < width chunk.toMapLookup)
    (hMirror : 1 ≤ mirror)
    (hCopies : mirror ≤ copies chunk.toMapLookup)
    (hMirror' : 1 ≤ mirror')
    (hCopies' : mirror' ≤ copies chunk.toMapLookup)
    (hPlace :
      place chunk.toMapLookup row col mirror =
        place chunk.toMapLookup row col mirror') :
    mirror = mirror' := by
  have hStripes := chunk.stripesOk
  cases hType : chunk.type <;>
    simp only [Profile.StripesOk, hType] at hStripes <;>
    simp only [width, place, copies, hType, nrDataStripes,
      nrParityStripes] at hCol hCopies hCopies' hPlace
  case raid5 =>
      have hEq := rotate_inj
        (by split <;> omega) (by split <;> omega) hPlace
      split at hEq <;> split at hEq <;> omega
  case raid6 =>
      have hEq := rotate_inj
        (by split <;> omega) (by split <;> omega) hPlace
      split at hEq <;> split at hEq <;> omega
  all_goals omega

end Chunk

----------
-- Bytes of Device Extents
----------

/- Byte `depth` of the device extent number `index`. -/
def stripeAt
    (map : MapLookup)
    (index depth : Nat) : BioStripe :=
  let s := map.stripes.getD index ⟨0, 0⟩
  ⟨s.dev, s.physical + depth⟩

/- The row of a chunk that holds an offset. -/
def rowOf
    (map : MapLookup)
    (offset : Nat) : Nat :=
  offset / map.stripeLen / width map

/- The column of a chunk that holds an offset. -/
def colOf
    (map : MapLookup)
    (offset : Nat) : Nat :=
  offset / map.stripeLen % width map

/- How deep in its device extents an offset is stored. -/
def depthOf
    (map : MapLookup)
    (offset : Nat) : Nat :=
  offset % map.stripeLen + rowOf map offset * map.stripeLen

/- The bytes from an offset on that one request covers. -/
def lengthOf
    (map : MapLookup)
    (offset : Nat) : Nat :=
  if map.type = .single then
    map.size - offset
  else
    min (map.size - offset)
      (map.stripeLen - offset % map.stripeLen)

/- Row, column and place in the stripe make up the offset. -/
theorem offset_eq
    (map : MapLookup)
    (offset : Nat) :
    offset =
      (rowOf map offset * width map + colOf map offset) *
        map.stripeLen + offset % map.stripeLen := by
  unfold rowOf colOf
  rw [Nat.div_add_mod', Nat.div_add_mod']

theorem sub_div_mul_eq_mod
    (offset len : Nat) :
    offset - offset / len * len = offset % len := by
  have hSplit := Nat.div_add_mod' offset len
  omega

namespace Chunk

variable (chunk : Chunk)

theorem colOf_lt
    (offset : Nat) :
    colOf chunk.toMapLookup offset <
      width chunk.toMapLookup :=
  Nat.mod_lt _ chunk.width_pos

theorem mod_stripeLen_lt
    (offset : Nat) :
    offset % chunk.stripeLen < chunk.stripeLen :=
  Nat.mod_lt _ chunk.stripeLen_pos

variable {offset : Nat}

/- A row of the chunk fits in its device extents. -/
theorem row_fits
    (hOffset : offset < chunk.size) :
    (rowOf chunk.toMapLookup offset + 1) * chunk.stripeLen ≤
      chunk.calcSize := by
  rcases chunk.stripeLen_dvd with ⟨rows, hRows⟩
  have hSize := chunk.size_eq_width
  have hStripe :
      offset / chunk.stripeLen <
        rows * width chunk.toMapLookup := by
    apply Nat.div_lt_of_lt_mul
    rw [← Nat.mul_assoc, ← hRows, ← hSize]
    exact hOffset
  have hRow : rowOf chunk.toMapLookup offset < rows := by
    apply Nat.div_lt_of_lt_mul
    rw [Nat.mul_comm]
    exact hStripe
  calc (rowOf chunk.toMapLookup offset + 1) * chunk.stripeLen
      ≤ rows * chunk.stripeLen :=
        Nat.mul_le_mul_right _ hRow
    _ = chunk.calcSize := by rw [hRows, Nat.mul_comm]

theorem lengthOf_pos
    (hOffset : offset < chunk.size) :
    0 < lengthOf chunk.toMapLookup offset := by
  have hInner := chunk.mod_stripeLen_lt offset
  unfold lengthOf
  split <;> omega

/- The bytes of one request stay in the device extent. -/
theorem depth_fits
    (hOffset : offset < chunk.size) :
    depthOf chunk.toMapLookup offset +
        lengthOf chunk.toMapLookup offset ≤
      chunk.calcSize := by
  have hRow := chunk.row_fits hOffset
  have hInner := chunk.mod_stripeLen_lt offset
  rw [Nat.succ_mul] at hRow
  unfold lengthOf
  split
  case isTrue hType =>
    -- a SINGLE chunk has one stripe, so one column
    have hOne : width chunk.toMapLookup = 1 := by
      have hStripes := chunk.stripesOk
      simp only [Profile.StripesOk, hType] at hStripes
      simp only [width, hType, hStripes]
    have hSize := chunk.size_eq_width
    have hSplit := offset_eq chunk.toMapLookup offset
    have hCol := chunk.colOf_lt offset
    rw [hOne, Nat.lt_one_iff] at hCol
    rw [hOne, hCol, Nat.mul_one, Nat.add_zero] at hSplit
    unfold depthOf
    rw [hSize, hOne] at hOffset ⊢
    omega
  case isFalse hType =>
    unfold depthOf
    omega

theorem stripes_getD
    {index : Nat}
    (hIndex : index < chunk.numStripes) :
    chunk.stripes.getD index ⟨0, 0⟩ ∈ chunk.stripes := by
  have hLength := chunk.stripes_length
  rw [List.getD_eq_getElem _ _ (by omega)]
  exact List.getElem_mem _

/- No byte is in two device extents of a chunk. -/
theorem stripeAt_inj
    {index index' depth depth' : Nat}
    (hIndex : index < chunk.numStripes)
    (hIndex' : index' < chunk.numStripes)
    (hDepth : depth < chunk.calcSize)
    (hDepth' : depth' < chunk.calcSize)
    (hEq :
      stripeAt chunk.toMapLookup index depth =
        stripeAt chunk.toMapLookup index' depth') :
    index = index' ∧ depth = depth' := by
  have hLength := chunk.stripes_length
  have hApart := List.pairwise_iff_getElem.mp chunk.disjoint
  simp only [stripeAt, BioStripe.mk.injEq,
    List.getD_eq_getElem _ _ (hLength ▸ hIndex),
    List.getD_eq_getElem _ _ (hLength ▸ hIndex')] at hEq
  rcases hEq with ⟨hDev, hPhysical⟩
  rcases Nat.lt_trichotomy index index' with h | h | h
  · have hFar := hApart index index' (by omega) (by omega) h
      hDev
    omega
  · subst h
    exact ⟨rfl, Nat.add_left_cancel hPhysical⟩
  · have hFar := hApart index' index (by omega) (by omega) h
      hDev.symm
    omega

/- The filled stripes are consecutive device extents. -/
theorem fillStripes_eq
    {plan : StripePlan}
    (hIndex : plan.stripeIndex < chunk.numStripes)
    (hFits :
      plan.stripeIndex + plan.numStripes ≤
        chunk.numStripes) :
    fillStripes chunk.toMapLookup plan =
      .ok ((List.range plan.numStripes).map fun i =>
        stripeAt chunk.toMapLookup (plan.stripeIndex + i)
          (plan.stripeOffset +
            plan.stripeNr * chunk.stripeLen)) := by
  have hLength := chunk.stripes_length
  have hTaken :
      ((chunk.stripes.drop plan.stripeIndex).take
        plan.numStripes).length = plan.numStripes := by
    simp only [List.length_take, List.length_drop]
    omega
  unfold fillStripes
  rw [if_neg (by omega)]
  simp only [hTaken, if_true]
  congr 1
  apply List.ext_getElem
  · simp only [List.length_map, hTaken, List.length_range]
  · intro i hLeft hRight
    simp only [List.length_map, List.length_range] at hRight
    simp only [List.getElem_map, List.getElem_take,
      List.getElem_drop, List.getElem_range, stripeAt,
      List.getD_eq_getElem _ _
        (show plan.stripeIndex + i < chunk.stripes.length by
          omega),
      Nat.add_assoc]

end Chunk

end Volumes

end BtrfsProgs
