import BtrfsProgs.Recover.StripeOrder

/-
  The device extents that a tree block of a chunk is on.

  Main declarations:
    * `dataCopies` and `groupOf`
    * `Recorded`
    * `calcStripeIndex_record`
    * `inDeviceExtent_iff`
-/

----------
-- Chunks and Their Records
----------

namespace BtrfsProgs

namespace Recover

open Volumes

/- The profiles whose stripes have an order. -/
def OrderedRaid
    (type : Profile) : Prop :=
  type = .raid0 ∨ type = .raid10 ∨ type = .raid5 ∨
    type = .raid6

/- The stripe with a number. -/
def stripeOf
    (chunk : Chunk)
    (i : Nat) : BioStripe :=
  chunk.stripes.getD i ⟨0, 0⟩

/- The device extent of a stripe. -/
def extentOf
    (chunk : Chunk)
    (i : Nat) : DevExtent :=
  ⟨(stripeOf chunk i).dev, (stripeOf chunk i).physical,
    chunk.calcSize⟩

/- What is known of a chunk, its extents in some order. -/
def recordOf
    (chunk : Chunk)
    (order : List Nat) : ChunkRecord where
  offset := chunk.start
  length := chunk.size
  stripeLen := chunk.stripeLen
  type := chunk.type
  numStripes := chunk.numStripes
  subStripes := chunk.subStripes
  dextents := order.map (extentOf chunk)

/- The number of device extents with one block's bytes. -/
def dataCopies
    (chunk : Chunk) : Nat :=
  if chunk.type = .raid10 then chunk.subStripes else 1

/- The first stripe index of an address. -/
def firstIndex
    (chunk : Chunk)
    (logical : Nat) : Nat :=
  place chunk.toMapLookup
    (rowOf chunk.toMapLookup (logical - chunk.start))
    (colOf chunk.toMapLookup (logical - chunk.start)) 1

/- The group of stripes with the same bytes as an address. -/
def groupOf
    (chunk : Chunk)
    (logical : Nat) : Nat :=
  firstIndex chunk logical / dataCopies chunk

/-
  A block of a chunk that is recorded at all places where its
  data are.
-/
structure Recorded
    (chunk : Chunk)
    (er : ExtentRecord) : Prop where
  low : chunk.start ≤ er.start
  size_pos : 0 < er.size
  inStripe :
    (er.start - chunk.start) % chunk.stripeLen + er.size ≤
      chunk.stripeLen
  high : er.start + er.size ≤ chunk.start + chunk.size
  mirrors :
    ∀ m, m ∈ er.mirrors ↔
      ∃ mirror, DataMirror chunk.toMapLookup mirror ∧
        m = chunk.mirrorAt (er.start - chunk.start) mirror

section Groups

variable {chunk : Chunk}

theorem dataCopies_pos
    (chunk : Chunk) :
    0 < dataCopies chunk := by
  have hStripes := chunk.stripesOk
  unfold dataCopies
  split
  · rename_i hType
    simp only [Profile.StripesOk, hType] at hStripes
    exact hStripes.2.1
  · exact Nat.one_pos

theorem dataCopies_dvd
    (chunk : Chunk) :
    dataCopies chunk ∣ chunk.numStripes := by
  have hStripes := chunk.stripesOk
  unfold dataCopies
  split
  · rename_i hType
    simp only [Profile.StripesOk, hType] at hStripes
    exact hStripes.2.2
  · exact one_dvd _

theorem dataMirror_iff
    (hRaid : OrderedRaid chunk.type)
    {mirror : Nat} :
    DataMirror chunk.toMapLookup mirror ↔
      1 ≤ mirror ∧ mirror ≤ dataCopies chunk := by
  unfold DataMirror copies dataCopies
  rcases hRaid with hType | hType | hType | hType <;>
    simp only [hType, Profile.isRaid56] <;> simp <;> omega

/- The mirrors of an address are on a group of stripes. -/
theorem place_mirror
    {logical mirror : Nat}
    (hMirror : DataMirror chunk.toMapLookup mirror) :
    place chunk.toMapLookup
        (rowOf chunk.toMapLookup (logical - chunk.start))
        (colOf chunk.toMapLookup (logical - chunk.start))
        mirror =
      firstIndex chunk logical + (mirror - 1) := by
  by_cases hParity : chunk.type.isRaid56 = true
  · rw [hMirror.2.2 hParity]
    rfl
  · exact place_eq_add (by simpa using hParity)
      hMirror.2.1 _ _

theorem firstIndex_mod
    (logical : Nat) :
    firstIndex chunk logical % dataCopies chunk = 0 := by
  unfold dataCopies
  by_cases hType : chunk.type = .raid10
  · rw [if_pos hType]
    simp [firstIndex, place, hType]
  · rw [if_neg hType]
    exact Nat.mod_one _

theorem firstIndex_eq
    (logical : Nat) :
    firstIndex chunk logical =
      groupOf chunk logical * dataCopies chunk := by
  unfold groupOf
  rw [Nat.div_mul_cancel
    (Nat.dvd_of_mod_eq_zero (firstIndex_mod logical))]

theorem group_fits
    (hRaid : OrderedRaid chunk.type)
    (logical : Nat) :
    firstIndex chunk logical + dataCopies chunk ≤
      chunk.numStripes := by
  have hPos := dataCopies_pos chunk
  have hLast : DataMirror chunk.toMapLookup
      (dataCopies chunk) :=
    (dataMirror_iff hRaid).mpr ⟨hPos, Nat.le_refl _⟩
  have hLt := chunk.mirror_place_lt (logical - chunk.start)
    hLast.1 hLast.2.1
  rw [place_mirror hLast] at hLt
  omega

theorem toInt_of_lt
    {n : Nat}
    (hLt : n < 2 ^ 31) :
    toInt n = (n : Int) := by
  unfold toInt
  apply Int.bmod_eq_of_le <;> omega

/- The formula of the recovery is that of the mapping. -/
theorem calcStripeIndex_record
    (order : List Nat)
    (hRaid : OrderedRaid chunk.type)
    (hInt : chunk.size < 2 ^ 31 * chunk.stripeLen)
    {logical : Nat}
    (hLow : chunk.start ≤ logical)
    (hHigh : logical < chunk.start + chunk.size) :
    calcStripeIndex (recordOf chunk order) logical =
      some ((firstIndex chunk logical : Nat) : Int) := by
  have hStripes := chunk.stripesOk
  have hNr : (logical - chunk.start) / chunk.stripeLen <
      2 ^ 31 := by
    apply Nat.div_lt_of_lt_mul
    rw [Nat.mul_comm]
    omega
  unfold calcStripeIndex firstIndex place rowOf colOf width
    recordOf
  dsimp only
  rw [toInt_of_lt hNr]
  generalize (logical - chunk.start) / chunk.stripeLen = nr
  rcases hRaid with hType | hType | hType | hType <;>
    simp only [hType, Profile.StripesOk] at hStripes ⊢
  · rw [← Int.ofNat_tmod]
  · rw [← Int.ofNat_tmod, ← Int.natCast_mul, Nat.add_zero]
  · have hData : (chunk.numStripes : Int) - 1 =
        ((chunk.numStripes - 1 : Nat) : Int) := by
      omega
    rw [hData, ← Int.ofNat_tmod, ← Int.ofNat_tdiv,
      ← Int.natCast_add, ← Int.ofNat_tmod, if_neg (by omega),
      Nat.add_comm]
  · have hData : (chunk.numStripes : Int) - 2 =
        ((chunk.numStripes - 2 : Nat) : Int) := by
      omega
    rw [hData, ← Int.ofNat_tmod, ← Int.ofNat_tdiv,
      ← Int.natCast_add, ← Int.ofNat_tmod, if_neg (by omega),
      Nat.add_comm]

/- The stripes of a group follow each other. -/
theorem div_eq_group_iff
    {i : Nat}
    (logical : Nat) :
    i / dataCopies chunk = groupOf chunk logical ↔
      firstIndex chunk logical ≤ i ∧
        i < firstIndex chunk logical + dataCopies chunk := by
  have hPos := dataCopies_pos chunk
  rw [firstIndex_eq, Nat.div_eq_iff hPos]
  have hSucc : (groupOf chunk logical + 1) *
      dataCopies chunk = groupOf chunk logical *
        dataCopies chunk + dataCopies chunk :=
    Nat.succ_mul _ _
  omega

section Record

variable {er : ExtentRecord}

theorem Recorded.offset_lt
    (hRecorded : Recorded chunk er) :
    er.start - chunk.start < chunk.size := by
  have hPos := hRecorded.size_pos
  have hHigh := hRecorded.high
  have hLow := hRecorded.low
  omega

theorem Recorded.depth_lt
    (hRecorded : Recorded chunk er) :
    depthOf chunk.toMapLookup (er.start - chunk.start) <
      chunk.calcSize := by
  have hFits := chunk.depth_fits hRecorded.offset_lt
  have hPos := chunk.lengthOf_pos hRecorded.offset_lt
  omega

/- The places of a block, by the stripes they are on. -/
theorem Recorded.mem_mirrors
    (hRaid : OrderedRaid chunk.type)
    (hRecorded : Recorded chunk er)
    {m : BioStripe} :
    m ∈ er.mirrors ↔
      ∃ i, i / dataCopies chunk = groupOf chunk er.start ∧
        m = stripeAt chunk.toMapLookup i
          (depthOf chunk.toMapLookup
            (er.start - chunk.start)) := by
  rw [hRecorded.mirrors]
  constructor
  · rintro ⟨mirror, hMirror, rfl⟩
    refine ⟨firstIndex chunk er.start + (mirror - 1), ?_, ?_⟩
    · have hBounds := (dataMirror_iff hRaid).mp hMirror
      rw [div_eq_group_iff]
      omega
    · unfold Chunk.mirrorAt
      rw [place_mirror hMirror]
  · rintro ⟨i, hGroup, rfl⟩
    rw [div_eq_group_iff] at hGroup
    have hMirror : DataMirror chunk.toMapLookup
        (i - firstIndex chunk er.start + 1) := by
      rw [dataMirror_iff hRaid]
      omega
    refine ⟨_, hMirror, ?_⟩
    unfold Chunk.mirrorAt
    rw [place_mirror hMirror]
    congr 1
    omega

/- A block is in a device extent if this is of its group. -/
theorem inDeviceExtent_iff
    (hRaid : OrderedRaid chunk.type)
    (hRecorded : Recorded chunk er)
    {i : Nat}
    (hi : i < chunk.numStripes) :
    inDeviceExtent er (extentOf chunk i) = true ↔
      i / dataCopies chunk = groupOf chunk er.start := by
  have hDepth := hRecorded.depth_lt
  unfold inDeviceExtent extentOf
  rw [List.any_eq_true]
  constructor
  · rintro ⟨m, hm, hIn⟩
    rw [decide_eq_true_eq] at hIn
    obtain ⟨hDev, hLow, hHigh⟩ := hIn
    dsimp only at hDev hLow hHigh
    obtain ⟨j, hGroup, rfl⟩ :=
      (hRecorded.mem_mirrors hRaid).mp hm
    have hj : j < chunk.numStripes := by
      have hFits := group_fits hRaid er.start
      have hBounds := (div_eq_group_iff er.start).mp hGroup
      omega
    have hSame : stripeAt chunk.toMapLookup i
        ((stripeAt chunk.toMapLookup j
          (depthOf chunk.toMapLookup
            (er.start - chunk.start))).physical -
              (stripeOf chunk i).physical) =
        stripeAt chunk.toMapLookup j
          (depthOf chunk.toMapLookup
            (er.start - chunk.start)) := by
      unfold stripeAt at hDev hLow ⊢
      unfold stripeOf at hDev hLow ⊢
      dsimp only at hDev hLow ⊢
      rw [hDev]
      congr 1
      omega
    have hEq := (chunk.stripeAt_inj hi hj (by omega) hDepth
      hSame).1
    rw [hEq]
    exact hGroup
  · intro hGroup
    refine ⟨_, (hRecorded.mem_mirrors hRaid).mpr
      ⟨i, hGroup, rfl⟩, ?_⟩
    rw [decide_eq_true_eq]
    unfold stripeAt stripeOf
    dsimp only
    exact ⟨rfl, by omega, by omega⟩

end Record

end Groups

end Recover

end BtrfsProgs
