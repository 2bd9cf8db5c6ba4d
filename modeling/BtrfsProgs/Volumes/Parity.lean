import BtrfsProgs.Volumes.Mirrors

/-
  The two answers of `mapBlock` for a chunk with parity.

  With a raid map, every stripe of the full stripe comes
  back, sorted by logical address with parity last.  Without
  one, a single stripe comes back, found by rotation.

  Main declarations:
    * `raidLabel` and `fillRaidMap_eq`
    * `Chunk.mapBlockIn_raidMap`
    * `raid56_paths_agree_iff`
-/

----------
-- Filling the Raid Map
----------

namespace BtrfsProgs

namespace Volumes

open RangeTree

/- Store `value i` at place `index i`, for each `i < m`. -/
def storeAll
    (index value : Nat → Nat)
    (m : Nat)
    (l : List Nat) : List Nat :=
  (List.range m).foldl
    (fun acc i => acc.set (index i) (value i)) l

theorem storeAll_succ
    (index value : Nat → Nat)
    (m : Nat)
    (l : List Nat) :
    storeAll index value (m + 1) l =
      (storeAll index value m l).set (index m) (value m) := by
  simp [storeAll, List.range_succ]

theorem storeAll_length
    (index value : Nat → Nat)
    (m : Nat)
    (l : List Nat) :
    (storeAll index value m l).length = l.length := by
  induction m with
  | zero => rfl
  | succ m ih => rw [storeAll_succ, List.length_set, ih]

/- Distinct places keep what was stored there. -/
theorem storeAll_get
    {index value : Nat → Nat}
    {m : Nat}
    {l : List Nat}
    (hBound : ∀ i < m, index i < l.length)
    (hInj :
      ∀ i < m, ∀ j < m, index i = index j → i = j)
    {k : Nat}
    (hk : k < m) :
    (storeAll index value m l)[index k]? =
      some (value k) := by
  induction m with
  | zero => omega
  | succ m ih =>
      rw [storeAll_succ]
      by_cases hLast : k = m
      · subst hLast
        apply List.getElem?_set_self
        rw [storeAll_length]
        exact hBound k hk
      · have hOther : index m ≠ index k := by
          intro hEq
          exact hLast
            (hInj m (by omega) k hk hEq).symm
        rw [List.getElem?_set_ne hOther]
        apply ih
        · intro i hi
          exact hBound i (by omega)
        · intro i hi j hj
          exact hInj i (by omega) j (by omega)
        · omega

/-
  What the raid map says of the `k`-th stripe of full stripe
  `row`: a logical address, or which parity it is.
-/
def raidLabel
    (map : MapLookup)
    (row k : Nat) : Nat :=
  if k < nrDataStripes map then
    map.start + (row * nrDataStripes map + k) * map.stripeLen
  else if k = nrDataStripes map then
    RAID5_P_STRIPE
  else
    RAID6_Q_STRIPE

/- Where the stripe `k` of full stripe `row` is in a row. -/
def raidIndex
    (map : MapLookup)
    (row k : Nat) : Nat :=
  (k + row % map.numStripes) % map.numStripes

/- Data, P and Q are filled in as by one loop. -/
theorem fillRaidMap_eq
    {map : MapLookup}
    (hParity : map.type.isRaid56 = true)
    (row : Nat) :
    fillRaidMap map row =
      storeAll (raidIndex map row) (raidLabel map row)
        (nrDataStripes map + nrParityStripes map)
        (List.replicate map.numStripes 0) := by
  have hData :
      ∀ l, (List.range (nrDataStripes map)).foldl
        (fun raidMap i =>
          raidMap.set
            ((i + row % map.numStripes) % map.numStripes)
            (map.start + (row * nrDataStripes map + i) *
              map.stripeLen)) l =
        storeAll (raidIndex map row) (raidLabel map row)
          (nrDataStripes map) l := by
    intro l
    apply List.foldl_ext
    intro acc i hi
    rw [raidLabel, if_pos (List.mem_range.mp hi)]
    rfl
  have hP :
      raidLabel map row (nrDataStripes map) =
        RAID5_P_STRIPE := by
    simp [raidLabel]
  have hQ :
      raidLabel map row (nrDataStripes map + 1) =
        RAID6_Q_STRIPE := by
    simp [raidLabel]
  unfold fillRaidMap
  simp only [hData]
  cases hType : map.type <;>
    simp only [hType, Profile.isRaid56,
      Bool.false_eq_true] at hParity
  case raid5 =>
    have hOne : nrParityStripes map = 1 := by
      simp only [nrParityStripes, hType]
    rw [if_neg (by simp), hOne, storeAll_succ, hP]
    rfl
  case raid6 =>
    have hTwo : nrParityStripes map = 1 + 1 := by
      simp only [nrParityStripes, hType]
    rw [if_pos rfl, hTwo, ← Nat.add_assoc, storeAll_succ,
      storeAll_succ, hP, hQ, raidIndex, raidIndex,
      Nat.add_right_comm]

namespace Chunk

variable (chunk : Chunk)

theorem data_add_parity
    (hParity : chunk.type.isRaid56 = true) :
    nrDataStripes chunk.toMapLookup +
        nrParityStripes chunk.toMapLookup =
      chunk.numStripes := by
  have hStripes := chunk.stripesOk
  cases hType : chunk.type <;>
    simp only [hType, Profile.isRaid56,
      Bool.false_eq_true] at hParity <;>
    simp only [Profile.StripesOk, hType] at hStripes <;>
    simp only [nrDataStripes, nrParityStripes, hType] <;>
    omega

theorem raidIndex_lt
    (row k : Nat) :
    raidIndex chunk.toMapLookup row k < chunk.numStripes :=
  Nat.mod_lt _ chunk.numStripes_pos

/- The raid map and the read path rotate alike. -/
theorem raidIndex_eq
    (row k : Nat) :
    raidIndex chunk.toMapLookup row k =
      (row + k) % chunk.numStripes := by
  unfold raidIndex
  rw [Nat.add_mod_mod, Nat.add_comm]

theorem raidIndex_inj
    {row k k' : Nat}
    (hk : k < chunk.numStripes)
    (hk' : k' < chunk.numStripes)
    (hEq :
      raidIndex chunk.toMapLookup row k =
        raidIndex chunk.toMapLookup row k') :
    k = k' := by
  rw [chunk.raidIndex_eq, chunk.raidIndex_eq] at hEq
  exact rotate_inj hk hk' hEq

theorem fillRaidMap_length
    (hParity : chunk.type.isRaid56 = true)
    (row : Nat) :
    (fillRaidMap chunk.toMapLookup row).length =
      chunk.numStripes := by
  rw [fillRaidMap_eq hParity, storeAll_length,
    List.length_replicate]

theorem fillRaidMap_get
    (hParity : chunk.type.isRaid56 = true)
    (row : Nat)
    {k : Nat}
    (hk : k < chunk.numStripes) :
    (fillRaidMap chunk.toMapLookup row)[raidIndex
        chunk.toMapLookup row k]? =
      some (raidLabel chunk.toMapLookup row k) := by
  rw [fillRaidMap_eq hParity, chunk.data_add_parity hParity]
  apply storeAll_get
  · intro i hi
    rw [List.length_replicate]
    exact chunk.raidIndex_lt row i
  · intro i hi j hj hEq
    exact chunk.raidIndex_inj hi hj hEq
  · exact hk

----------
-- Sorting the Stripes
----------

/- Rotated, the indices of a row are the indices of a row. -/
theorem raidIndex_perm
    (row : Nat) :
    ((List.range chunk.numStripes).map
        (raidIndex chunk.toMapLookup row)).Perm
      (List.range chunk.numStripes) := by
  have hNodup :
      ((List.range chunk.numStripes).map
        (raidIndex chunk.toMapLookup row)).Nodup := by
    apply List.Nodup.map_on _ List.nodup_range
    intro i hi j hj hEq
    exact chunk.raidIndex_inj (List.mem_range.mp hi)
      (List.mem_range.mp hj) hEq
  have hSubset :
      (List.range chunk.numStripes).map
          (raidIndex chunk.toMapLookup row) ⊆
        List.range chunk.numStripes := by
    intro j hj
    rcases List.mem_map.mp hj with ⟨i, _, rfl⟩
    exact List.mem_range.mpr (chunk.raidIndex_lt row i)
  apply (hNodup.subperm hSubset).perm_of_length_le
  simp only [List.length_map, le_refl]

/- Labels ascend, data first and then P and Q. -/
theorem raidLabel_lt
    {row k k' : Nat}
    (hRow :
      (row + 1) * nrDataStripes chunk.toMapLookup *
        chunk.stripeLen ≤ chunk.size)
    (hLess : k < k')
    (hk' : k' < nrDataStripes chunk.toMapLookup + 2) :
    raidLabel chunk.toMapLookup row k <
      raidLabel chunk.toMapLookup row k' := by
  have hPQ : RAID5_P_STRIPE < RAID6_Q_STRIPE := by decide
  have hBound := chunk.start_bound
  have hPos := chunk.stripeLen_pos
  unfold raidLabel
  by_cases hk : k < nrDataStripes chunk.toMapLookup
  · rw [if_pos hk]
    have hStep :
        (row * nrDataStripes chunk.toMapLookup + k + 1) *
            chunk.stripeLen ≤
          (row + 1) * nrDataStripes chunk.toMapLookup *
            chunk.stripeLen := by
      apply Nat.mul_le_mul_right
      rw [Nat.succ_mul]
      omega
    rw [Nat.succ_mul] at hStep
    by_cases hNext : k' < nrDataStripes chunk.toMapLookup
    · rw [if_pos hNext]
      have hMul :
          (row * nrDataStripes chunk.toMapLookup + k) *
              chunk.stripeLen <
            (row * nrDataStripes chunk.toMapLookup + k') *
              chunk.stripeLen := by
        apply Nat.mul_lt_mul_of_pos_right _ hPos
        omega
      omega
    · rw [if_neg hNext]
      split <;> omega
  · rw [if_neg hk, if_pos (by omega), if_neg (by omega),
      if_neg (by omega)]
    exact hPQ

/- Before sorting, stripe `j` is labelled by its place. -/
theorem zip_raidMap
    (hParity : chunk.type.isRaid56 = true)
    (row depth : Nat) :
    (fillRaidMap chunk.toMapLookup row).zip
        ((List.range chunk.numStripes).map fun j =>
          stripeAt chunk.toMapLookup j depth) =
      (List.range chunk.numStripes).map fun j =>
        ((fillRaidMap chunk.toMapLookup row).getD j 0,
          stripeAt chunk.toMapLookup j depth) := by
  have hLength := chunk.fillRaidMap_length hParity row
  apply List.ext_getElem
  · simp [hLength]
  · intro j hLeft hRight
    have hj : j < (fillRaidMap chunk.toMapLookup row).length := by
      simp only [List.length_zip] at hLeft
      omega
    simp only [List.getElem_zip, List.getElem_map,
      List.getElem_range, List.getD_eq_getElem _ _ hj]

/- Sorting puts the stripes in the order of the labels. -/
theorem sortParityStripes_eq
    (hParity : chunk.type.isRaid56 = true)
    {row : Nat}
    (hRow :
      (row + 1) * nrDataStripes chunk.toMapLookup *
        chunk.stripeLen ≤ chunk.size)
    (depth : Nat) :
    sortParityStripes (fillRaidMap chunk.toMapLookup row)
        ((List.range chunk.numStripes).map fun j =>
          stripeAt chunk.toMapLookup j depth) =
      some
        ((List.range chunk.numStripes).map
            (raidLabel chunk.toMapLookup row),
          (List.range chunk.numStripes).map fun k =>
            stripeAt chunk.toMapLookup
              (raidIndex chunk.toMapLookup row k) depth) := by
  have hCount := chunk.data_add_parity hParity
  have hTwo : nrParityStripes chunk.toMapLookup ≤ 2 := by
    unfold nrParityStripes
    split <;> omega
  have hPerm :
      ((List.range chunk.numStripes).map fun k =>
        (raidLabel chunk.toMapLookup row k,
          stripeAt chunk.toMapLookup
            (raidIndex chunk.toMapLookup row k) depth)).Perm
        ((fillRaidMap chunk.toMapLookup row).zip
          ((List.range chunk.numStripes).map fun j =>
            stripeAt chunk.toMapLookup j depth)) := by
    rw [chunk.zip_raidMap hParity]
    refine List.Perm.trans ?_
      ((chunk.raidIndex_perm row).map _)
    rw [List.map_map]
    apply List.Perm.of_eq
    apply List.map_congr_left
    intro k hk
    have hGet := chunk.fillRaidMap_get hParity row
      (List.mem_range.mp hk)
    simp only [Function.comp_apply, List.getD, hGet,
      Option.getD_some]
  have hStrict :
      ((List.range chunk.numStripes).map fun k =>
        (raidLabel chunk.toMapLookup row k,
          stripeAt chunk.toMapLookup
            (raidIndex chunk.toMapLookup row k) depth)).Pairwise
        fun a b => a.1 < b.1 := by
    apply List.pairwise_map.mpr
    apply List.Pairwise.imp_of_mem _ List.pairwise_lt_range
    intro k k' _ hk' hLess
    have hLast := List.mem_range.mp hk'
    exact chunk.raidLabel_lt hRow hLess (by omega)
  have hSort := BubbleSort.sort_eq hPerm hStrict
  rw [List.length_zip, List.length_map, List.length_range,
    chunk.fillRaidMap_length hParity, Nat.min_self] at hSort
  unfold sortParityStripes
  rw [chunk.fillRaidMap_length hParity, hSort,
    Option.map_some, List.unzip_eq_map, List.map_map,
    List.map_map]
  rfl

----------
-- The Request with a Raid Map
----------

theorem fullStripeNr_eq
    (hParity : chunk.type.isRaid56 = true)
    (offset : Nat) :
    fullStripeNr chunk.toMapLookup offset =
      rowOf chunk.toMapLookup
        (fullStripeStart chunk.toMapLookup offset) := by
  unfold fullStripeNr rowOf
  rw [nrDataStripes_eq_width hParity]

theorem fullStripeStart_le
    (offset : Nat) :
    fullStripeStart chunk.toMapLookup offset ≤ offset :=
  Nat.div_mul_le_self _ _

/-
  The product of `int`s is such that the full stripe of an
  offset is found.
-/
def FindsRow
    (offset : Nat) : Prop :=
  0 < fullStripeLen chunk.toMapLookup ∧
    offset % fullStripeLen chunk.toMapLookup ≤
      offset % (nrDataStripes chunk.toMapLookup *
        chunk.stripeLen)

instance
    (offset : Nat) : Decidable (chunk.FindsRow offset) :=
  inferInstanceAs (Decidable (_ ∧ _))

/- A full stripe, if there is one, has a length of an `int`. -/
def FullFits : Prop :=
  chunk.type.isRaid56 = true →
    nrDataStripes chunk.toMapLookup * chunk.stripeLen < 2 ^ 31

variable {chunk} in
theorem FullFits.of_plain
    (hPlain : chunk.type.isRaid56 = false) :
    chunk.FullFits := by
  intro hParity
  rw [hPlain] at hParity
  cases hParity

instance : Decidable chunk.FullFits :=
  inferInstanceAs (Decidable (_ → _))

theorem rowOf_eq_div
    (offset : Nat) :
    rowOf chunk.toMapLookup offset =
      offset / (width chunk.toMapLookup * chunk.stripeLen) := by
  unfold rowOf
  rw [Nat.div_div_eq_div_mul, Nat.mul_comm]

theorem fullStripeLen_pos :
    0 < width chunk.toMapLookup * chunk.stripeLen :=
  Nat.mul_pos chunk.width_pos chunk.stripeLen_pos

/- Rounding down by `w` and by `len` ends in one place. -/
theorem sub_mod_div_eq_iff
    {n w len : Nat}
    (hLen : 0 < len) :
    (n - n % w) / len = n / len ↔ n % w ≤ n % len := by
  have hSplit := Nat.div_add_mod' n len
  have hLess := Nat.mod_lt n hLen
  have hMod := Nat.mod_le n w
  rw [Nat.div_eq_iff hLen]
  omega

/- The row that is mapped is the row of the offset. -/
theorem rowOf_fullStripeStart_iff
    (hParity : chunk.type.isRaid56 = true)
    (offset : Nat) :
    rowOf chunk.toMapLookup
          (fullStripeStart chunk.toMapLookup offset) =
        rowOf chunk.toMapLookup offset ↔
      offset % fullStripeLen chunk.toMapLookup ≤
        offset % (nrDataStripes chunk.toMapLookup *
          chunk.stripeLen) := by
  have hStart : fullStripeStart chunk.toMapLookup offset =
      offset - offset % fullStripeLen chunk.toMapLookup :=
    Nat.div_mul_self_eq_mod_sub_self
  rw [chunk.rowOf_eq_div, chunk.rowOf_eq_div, hStart,
    nrDataStripes_eq_width hParity,
    sub_mod_div_eq_iff chunk.fullStripeLen_pos]

theorem intMul_eq
    {a b : Nat}
    (hFits : a * b < 2 ^ 31) :
    intMul a b = a * b := by
  unfold intMul
  rw [Nat.mod_eq_of_lt (by omega)]
  exact if_pos hFits

variable {chunk} in
theorem FullFits.findsRow
    (hFits : chunk.FullFits)
    (hParity : chunk.type.isRaid56 = true)
    (offset : Nat) :
    chunk.FindsRow offset := by
  have hLen : fullStripeLen chunk.toMapLookup =
      nrDataStripes chunk.toMapLookup * chunk.stripeLen :=
    intMul_eq (hFits hParity)
  refine ⟨?_, by rw [hLen]⟩
  rw [hLen, nrDataStripes_eq_width hParity]
  exact chunk.fullStripeLen_pos

/- The full stripe of an offset ends inside the chunk. -/
theorem fullStripe_fits
    (hParity : chunk.type.isRaid56 = true)
    {offset : Nat}
    (hOffset : offset < chunk.size) :
    (rowOf chunk.toMapLookup offset + 1) *
        nrDataStripes chunk.toMapLookup * chunk.stripeLen ≤
      chunk.size := by
  have hRow := chunk.row_fits hOffset
  rw [nrDataStripes_eq_width hParity, chunk.size_eq_width,
    Nat.mul_right_comm]
  exact Nat.mul_le_mul_right _ hRow

/- The stripe `k` of the full stripe that holds an offset. -/
def fullStripeAt
    (offset k : Nat) : BioStripe :=
  stripeAt chunk.toMapLookup
    (raidIndex chunk.toMapLookup
      (rowOf chunk.toMapLookup offset) k)
    (rowOf chunk.toMapLookup offset * chunk.stripeLen)

theorem mapBlockIn_noLen
    (hParity : chunk.type.isRaid56 = true)
    {rw : Rw}
    {mirrorNum : Nat}
    (hFull : rw = .WRITE ∨ 1 < mirrorNum)
    (hLen : fullStripeLen chunk.toMapLookup = 0)
    (offset : Nat) :
    mapBlockIn chunk.toMapLookup rw offset mirrorNum true =
      .error .bug := by
  unfold mapBlockIn
  dsimp only
  rw [if_pos ⟨hParity, hFull, rfl⟩, if_pos hLen]

/- All of the full stripe at `fullStripeStart` is mapped. -/
theorem mapBlockIn_start
    (hParity : chunk.type.isRaid56 = true)
    {rw : Rw}
    {mirrorNum : Nat}
    (hFull : rw = .WRITE ∨ 1 < mirrorNum)
    (hLen : 0 < fullStripeLen chunk.toMapLookup)
    {offset : Nat}
    (hOffset : offset < chunk.size) :
    mapBlockIn chunk.toMapLookup rw offset mirrorNum true =
      .ok ⟨chunk.stripeLen, chunk.type,
        (List.range chunk.numStripes).map
          (chunk.fullStripeAt
            (fullStripeStart chunk.toMapLookup offset)),
        some ((List.range chunk.numStripes).map
          (raidLabel chunk.toMapLookup
            (rowOf chunk.toMapLookup
              (fullStripeStart chunk.toMapLookup
                offset))))⟩ := by
  have hFits := chunk.fullStripe_fits hParity
    (Nat.lt_of_le_of_lt (chunk.fullStripeStart_le offset)
      hOffset)
  unfold mapBlockIn
  simp only [chunk.fullStripeNr_eq hParity]
  rw [if_pos ⟨hParity, hFull, trivial⟩,
    if_neg (Nat.ne_of_gt hLen),
    chunk.fillStripes_eq chunk.numStripes_pos
      (by simp only; omega)]
  simp only [Nat.zero_add]
  rw [chunk.sortParityStripes_eq hParity hFits]
  rfl

theorem mapBlockIn_raidMap
    (hParity : chunk.type.isRaid56 = true)
    {rw : Rw}
    {mirrorNum : Nat}
    (hFull : rw = .WRITE ∨ 1 < mirrorNum)
    {offset : Nat}
    (hOffset : offset < chunk.size)
    (hFinds : chunk.FindsRow offset) :
    mapBlockIn chunk.toMapLookup rw offset mirrorNum true =
      .ok ⟨chunk.stripeLen, chunk.type,
        (List.range chunk.numStripes).map
          (chunk.fullStripeAt offset),
        some ((List.range chunk.numStripes).map
          (raidLabel chunk.toMapLookup
            (rowOf chunk.toMapLookup offset)))⟩ := by
  have hRow := (chunk.rowOf_fullStripeStart_iff hParity
    offset).mpr hFinds.2
  rw [chunk.mapBlockIn_start hParity hFull hFinds.1 hOffset]
  unfold fullStripeAt
  rw [hRow]

end Chunk

----------
-- Agreement
----------

/- The parity labels of a raid map. -/
def parityLabels
    (type : Profile) : List Nat :=
  if type = .raid6 then
    [RAID5_P_STRIPE, RAID6_Q_STRIPE]
  else
    [RAID5_P_STRIPE]

namespace Chunk

variable (chunk : Chunk)

theorem raidLabels_eq
    (hParity : chunk.type.isRaid56 = true)
    (row : Nat) :
    (List.range chunk.numStripes).map
        (raidLabel chunk.toMapLookup row) =
      (List.range (nrDataStripes chunk.toMapLookup)).map
          (fun i =>
            chunk.start +
              (row * nrDataStripes chunk.toMapLookup + i) *
                chunk.stripeLen) ++
        parityLabels chunk.type := by
  rw [← chunk.data_add_parity hParity, List.range_add,
    List.map_append, List.map_map]
  congr 1
  · apply List.map_congr_left
    intro i hi
    rw [raidLabel, if_pos (List.mem_range.mp hi)]
  · cases hType : chunk.type <;>
      simp only [hType, Profile.isRaid56,
        Bool.false_eq_true] at hParity <;>
      simp [nrParityStripes, hType, parityLabels, raidLabel,
        List.range_succ]

end Chunk

/-
  A read of one mirror goes to a stripe of the full stripe,
  `inner` bytes past its start.
-/
def ReadsStripe
    (mapTree : List MapLookup)
    (logical mirror inner : Nat)
    (stripe : BioStripe) : Prop :=
  ∃ length, ReadsAt mapTree logical mirror length
    ⟨stripe.dev, stripe.physical + inner⟩

/- The stripe of the full stripe that a mirror names. -/
def mirrorStripe
    (map : MapLookup)
    (offset mirror : Nat) : Nat :=
  if 1 < mirror then
    nrDataStripes map + mirror - 2
  else
    colOf map offset

theorem Chunk.place_eq_raidIndex
    (chunk : Chunk)
    (hParity : chunk.type.isRaid56 = true)
    (offset mirror : Nat) :
    place chunk.toMapLookup (rowOf chunk.toMapLookup offset)
        (colOf chunk.toMapLookup offset) mirror =
      raidIndex chunk.toMapLookup
        (rowOf chunk.toMapLookup offset)
        (mirrorStripe chunk.toMapLookup offset mirror) := by
  rw [chunk.raidIndex_eq]
  cases hType : chunk.type <;>
    simp only [hType, Profile.isRaid56,
      Bool.false_eq_true] at hParity <;>
    simp only [place, hType, mirrorStripe]

theorem Chunk.copies_eq_parity
    (chunk : Chunk)
    (hParity : chunk.type.isRaid56 = true) :
    copies chunk.toMapLookup =
      nrParityStripes chunk.toMapLookup + 1 := by
  cases hType : chunk.type <;>
    simp only [hType, Profile.isRaid56,
      Bool.false_eq_true] at hParity <;>
    simp only [copies, nrParityStripes, hType]

theorem Chunk.mirrorStripe_lt
    (chunk : Chunk)
    (hParity : chunk.type.isRaid56 = true)
    (offset : Nat)
    {mirror : Nat}
    (hCopies : mirror ≤ copies chunk.toMapLookup) :
    mirrorStripe chunk.toMapLookup offset mirror <
      chunk.numStripes := by
  have hCount := chunk.data_add_parity hParity
  have hCol := chunk.colOf_lt offset
  rw [← nrDataStripes_eq_width hParity] at hCol
  rw [chunk.copies_eq_parity hParity] at hCopies
  unfold mirrorStripe
  split <;> omega

/- The full stripe holds what the read path reads. -/
theorem readsStripe_mirror
    {mapTree : List MapLookup}
    (hOrdered : Ordered mapTree)
    {chunk : Chunk}
    (hChunk : chunk.toMapLookup ∈ mapTree)
    (hParity : chunk.type.isRaid56 = true)
    {logical mirror : Nat}
    (hHolds : chunk.Holds logical)
    (hMirror : 1 ≤ mirror)
    (hCopies : mirror ≤ copies chunk.toMapLookup) :
    ReadsStripe mapTree logical mirror
      ((logical - chunk.start) % chunk.stripeLen)
      (chunk.fullStripeAt (logical - chunk.start)
        (mirrorStripe chunk.toMapLookup
          (logical - chunk.start) mirror)) := by
  have hPlace := chunk.place_eq_raidIndex hParity
    (logical - chunk.start) mirror
  refine ⟨_, (readsAt_iff hOrdered hChunk hHolds hMirror
    hCopies).mpr ⟨rfl, ?_⟩⟩
  unfold Chunk.mirrorAt
  rw [hPlace]
  simp only [Chunk.fullStripeAt, stripeAt, depthOf,
    BioStripe.mk.injEq, true_and]
  omega

/-
  With a raid map, the labels are the data stripes of the
  full stripe of the address in ascending order, then P, then
  Q on RAID6; and the stripes labelled with the address of
  the data stripe, with P and with Q are those that the read
  path names for mirrors 1, 2 and 3.
-/
def PathsAgree
    (mapTree : List MapLookup)
    (chunk : Chunk)
    (rw : Rw)
    (logical mirrorNum : Nat) : Prop :=
  let nrData := nrDataStripes chunk.toMapLookup
  let offset := logical - chunk.start
  let fullStripe := offset / (nrData * chunk.stripeLen)
  let inner := offset % chunk.stripeLen
  let labels :=
    (List.range nrData).map (fun i =>
      chunk.start +
        (fullStripe * nrData + i) * chunk.stripeLen) ++
      parityLabels chunk.type
  ∃ r, mapBlock mapTree rw logical mirrorNum true = .ok r ∧
    r.raidMap = some labels ∧
    r.stripes.length = labels.length ∧
    (∃ (i : Nat) (stripe : BioStripe), labels[i]? = some (logical - inner) ∧
      r.stripes[i]? = some stripe ∧
      ReadsStripe mapTree logical 1 inner stripe) ∧
    (∃ (i : Nat) (stripe : BioStripe), labels[i]? = some RAID5_P_STRIPE ∧
      r.stripes[i]? = some stripe ∧
      ReadsStripe mapTree logical 2 inner stripe) ∧
    (chunk.type = .raid6 →
      ∃ (i : Nat) (stripe : BioStripe), labels[i]? = some RAID6_Q_STRIPE ∧
        r.stripes[i]? = some stripe ∧
        ReadsStripe mapTree logical 3 inner stripe)

/- The number of the full stripe, by one division. -/
theorem Chunk.rowOf_eq_fullStripe
    (chunk : Chunk)
    (hParity : chunk.type.isRaid56 = true)
    (offset : Nat) :
    offset /
        (nrDataStripes chunk.toMapLookup * chunk.stripeLen) =
      rowOf chunk.toMapLookup offset := by
  rw [chunk.rowOf_eq_div, nrDataStripes_eq_width hParity]

theorem Chunk.pathsAgree_of_findsRow
    {mapTree : List MapLookup}
    (hOrdered : Ordered mapTree)
    (chunk : Chunk)
    (hChunk : chunk.toMapLookup ∈ mapTree)
    (hParity : chunk.type.isRaid56 = true)
    {logical : Nat}
    (hHolds : chunk.Holds logical)
    {rw : Rw}
    {mirrorNum : Nat}
    (hFull : rw = .WRITE ∨ 1 < mirrorNum)
    (hFinds : chunk.FindsRow (logical - chunk.start)) :
    PathsAgree mapTree chunk rw logical mirrorNum := by
  unfold PathsAgree
  intro nrData offset fullStripe inner labels
  have hCount := chunk.data_add_parity hParity
  have hWidth := nrDataStripes_eq_width hParity
  have hRow : fullStripe = rowOf chunk.toMapLookup offset :=
    chunk.rowOf_eq_fullStripe hParity offset
  have hLabels :
      labels = (List.range chunk.numStripes).map
        (raidLabel chunk.toMapLookup
          (rowOf chunk.toMapLookup offset)) := by
    rw [chunk.raidLabels_eq hParity, ← hRow]
  -- the label and the stripe that a mirror finds
  have hStripe :
      ∀ mirror, 1 ≤ mirror →
        mirror ≤ copies chunk.toMapLookup →
        ∃ (i : Nat) (stripe : BioStripe),
          labels[i]? = some (raidLabel chunk.toMapLookup
            (rowOf chunk.toMapLookup offset)
            (mirrorStripe chunk.toMapLookup offset mirror)) ∧
          ((List.range chunk.numStripes).map
            (chunk.fullStripeAt offset))[i]? = some stripe ∧
          ReadsStripe mapTree logical mirror inner stripe := by
    intro mirror hMirror hCopies
    have hIndex :=
      chunk.mirrorStripe_lt hParity offset hCopies
    refine ⟨mirrorStripe chunk.toMapLookup offset mirror, _,
      ?_, ?_, readsStripe_mirror hOrdered hChunk
      hParity hHolds hMirror hCopies⟩
    · rw [hLabels, List.getElem?_map,
        List.getElem?_range hIndex, Option.map_some]
    · rw [List.getElem?_map, List.getElem?_range hIndex,
        Option.map_some]
  have hTwo : 2 ≤ copies chunk.toMapLookup := by
    cases hType : chunk.type <;>
      simp only [hType, Profile.isRaid56,
        Bool.false_eq_true] at hParity <;>
      simp only [copies, hType] <;> omega
  have hSplit := offset_eq chunk.toMapLookup offset
  have hCol := chunk.colOf_lt offset
  rw [← hWidth] at hSplit hCol
  have hLow := hHolds.1
  rw [mapBlock_eq hOrdered hChunk hHolds,
    chunk.mapBlockIn_raidMap hParity hFull hHolds.offset_lt
      hFinds]
  refine ⟨_, rfl, by rw [hLabels], by simp [hLabels], ?_, ?_, ?_⟩
  · have hData : logical - inner =
        raidLabel chunk.toMapLookup
          (rowOf chunk.toMapLookup offset)
          (mirrorStripe chunk.toMapLookup offset 1) := by
      simp only [mirrorStripe, lt_irrefl, if_false, raidLabel,
        if_pos hCol]
      omega
    rw [hData]
    exact hStripe 1 le_rfl (by omega)
  · have hP : RAID5_P_STRIPE =
        raidLabel chunk.toMapLookup
          (rowOf chunk.toMapLookup offset)
          (mirrorStripe chunk.toMapLookup offset 2) := by
      simp [mirrorStripe, raidLabel]
    rw [hP]
    exact hStripe 2 (by omega) hTwo
  · intro hType
    have hQ : RAID6_Q_STRIPE =
        raidLabel chunk.toMapLookup
          (rowOf chunk.toMapLookup offset)
          (mirrorStripe chunk.toMapLookup offset 3) := by
      simp [mirrorStripe, raidLabel]
    rw [hQ]
    exact hStripe 3 (by omega) (by simp [copies, hType])

/- Raid maps of two rows are the same only for one row. -/
theorem Chunk.raidLabels_inj
    (chunk : Chunk)
    (hParity : chunk.type.isRaid56 = true)
    {row row' : Nat}
    (hEq :
      (List.range chunk.numStripes).map
          (raidLabel chunk.toMapLookup row) =
        (List.range chunk.numStripes).map
          (raidLabel chunk.toMapLookup row')) :
    row = row' := by
  have hWidth := nrDataStripes_eq_width hParity
  have hData : 0 < nrDataStripes chunk.toMapLookup := by
    rw [hWidth]
    exact chunk.width_pos
  have hFirst := List.map_inj_left.mp hEq 0
    (List.mem_range.mpr chunk.numStripes_pos)
  unfold raidLabel at hFirst
  rw [if_pos hData, if_pos hData, Nat.add_zero,
    Nat.add_zero] at hFirst
  have hMul := Nat.eq_of_mul_eq_mul_right
    chunk.stripeLen_pos (Nat.add_left_cancel hFirst)
  exact Nat.eq_of_mul_eq_mul_right hData hMul

/-
  The paths agree if and only if the length of a full stripe,
  a product of two `int`s, finds the full stripe.
-/
theorem raid56_paths_agree_iff
    {mapTree : List MapLookup}
    (hOrdered : Ordered mapTree)
    (chunk : Chunk)
    (hChunk : chunk.toMapLookup ∈ mapTree)
    (hParity : chunk.type.isRaid56 = true)
    {logical : Nat}
    (hHolds : chunk.Holds logical)
    {rw : Rw}
    {mirrorNum : Nat}
    (hFull : rw = .WRITE ∨ 1 < mirrorNum) :
    PathsAgree mapTree chunk rw logical mirrorNum ↔
      chunk.FindsRow (logical - chunk.start) := by
  constructor
  · rintro ⟨r, hMap, hLabels, _⟩
    rw [mapBlock_eq hOrdered hChunk hHolds] at hMap
    rcases Nat.eq_zero_or_pos
        (fullStripeLen chunk.toMapLookup) with hLen | hLen
    · rw [chunk.mapBlockIn_noLen hParity hFull hLen] at hMap
      cases hMap
    · rw [chunk.mapBlockIn_start hParity hFull hLen
        hHolds.offset_lt] at hMap
      cases hMap
      rw [chunk.rowOf_eq_fullStripe hParity,
        ← chunk.raidLabels_eq hParity] at hLabels
      have hRow := chunk.raidLabels_inj hParity
        (Option.some.inj hLabels)
      exact ⟨hLen, (chunk.rowOf_fullStripeStart_iff hParity
        _).mp hRow⟩
  · exact chunk.pathsAgree_of_findsRow hOrdered hChunk
      hParity hHolds hFull

/- A RAID6 chunk of four devices, two of them data. -/
def raid6Example : Chunk where
  start := 1048576
  size := 262144
  type := .raid6
  stripeLen := 65536
  numStripes := 4
  subStripes := 1
  stripes := [⟨1, 0⟩, ⟨2, 0⟩, ⟨3, 65536⟩, ⟨4, 0⟩]
  calcSize := 131072
  stripeLen_pos := raid10Example.stripeLen_pos
  stripeLen_dvd := raid10Example.stripeLen_dvd
  size_eq := raid10Example.size_eq
  stripesOk := by decide
  stripes_length := rfl
  start_bound := raid10Example.start_bound
  physical_bound := by decide
  disjoint := by decide

theorem raid56_paths_agree_raid6 :
    PathsAgree [raid6Example.toMapLookup] raid6Example .WRITE
      1179658 0 :=
  (raid56_paths_agree_iff
    (show Ordered [raid6Example.toMapLookup] from
      ⟨by decide, by decide⟩)
    raid6Example (by decide) rfl
    (show raid6Example.Holds 1179658 by decide)
    (Or.inl rfl)).mpr (by decide)

/- A RAID5 chunk of three devices with stripes of 1 GiB. -/
def wideExample : Chunk where
  start := 1048576
  size := 4294967296
  type := .raid5
  stripeLen := 1073741824
  numStripes := 3
  subStripes := 1
  stripes := [⟨1, 0⟩, ⟨2, 0⟩, ⟨3, 0⟩]
  calcSize := 2147483648
  stripeLen_pos := by decide
  stripeLen_dvd := ⟨2, rfl⟩
  size_eq := rfl
  stripesOk := by decide
  stripes_length := rfl
  start_bound := by decide
  physical_bound := by decide
  disjoint := by decide

/-
  A full stripe of 2 GiB: as an `int` its length is negative,
  and a write to the second one is given the first.
-/
theorem raid56_paths_differ_wide :
    ¬ PathsAgree [wideExample.toMapLookup] wideExample .WRITE
      2148532224 0 := by
  rintro ⟨r, hMap, hLabels, _⟩
  have hFirst :
      mapBlock [wideExample.toMapLookup] .WRITE 2148532224 0
        true = .ok ⟨1073741824, .raid5,
          [⟨1, 0⟩, ⟨2, 0⟩, ⟨3, 0⟩],
          some [1048576, 1074790400, RAID5_P_STRIPE]⟩ := by
    decide
  rw [hFirst] at hMap
  cases hMap
  exact absurd hLabels (by decide)

end Volumes

end BtrfsProgs
