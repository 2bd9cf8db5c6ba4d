import BtrfsProgs.Recover.Groups

/-
  The stripes that the recovery gives to a chunk.

  Main declarations:
    * `pick` and `pick_perm`
    * `examine_spec` and `fillRest_spec`
    * `rebuildUnordered_spec`
-/

----------
-- Choices
----------

namespace BtrfsProgs

namespace Recover

open Volumes

section Choices

variable (chunk : Chunk) (order : List Nat) (gs : List Nat)

/- The stripes of a group in the order of the list. -/
def members
    (g : Nat) : List Nat :=
  order.filter fun i => decide (i / dataCopies chunk = g)

/- The stripes that are in no group of a list. -/
def remaining
    (l : List Nat) : List Nat :=
  l.filter fun i => decide (i / dataCopies chunk ∉ gs)

/- How many indexes before one are in no group. -/
def rank
    (idx : Nat) : Nat :=
  (remaining chunk gs (List.range idx)).length

/- The stripe that an index gets. -/
def pick
    (idx : Nat) : Nat :=
  if idx / dataCopies chunk ∈ gs then
    (members chunk order (idx / dataCopies chunk)).getD
      (idx % dataCopies chunk) 0
  else
    (remaining chunk gs order).getD (rank chunk gs idx) 0

/- An index before the last loop. -/
def slot
    (idx : Nat) : BioStripe :=
  if idx / dataCopies chunk ∈ gs then
    stripeOf chunk (pick chunk order gs idx)
  else ⟨0, 0⟩

end Choices

section Lists

variable {chunk : Chunk} {order gs : List Nat}

theorem rank_succ
    (idx : Nat) :
    rank chunk gs (idx + 1) =
      rank chunk gs idx +
        if idx / dataCopies chunk ∈ gs then 0 else 1 := by
  unfold rank remaining
  rw [List.range_succ, List.filter_append, List.length_append]
  congr 1
  by_cases hIn : idx / dataCopies chunk ∈ gs
  · simp [hIn]
  · simp [hIn]

theorem rank_mono
    {idx idx' : Nat}
    (hLe : idx ≤ idx') :
    rank chunk gs idx ≤ rank chunk gs idx' := by
  induction idx' with
  | zero =>
      rw [Nat.le_zero.mp hLe]
  | succ n ih =>
      rcases Nat.lt_or_eq_of_le hLe with hLt | hEq
      · have hBefore := ih (Nat.le_of_lt_succ hLt)
        rw [rank_succ]
        omega
      · rw [hEq]

/- The order has as many stripes left as there are indexes. -/
theorem length_remaining
    (hOrder : order.Perm (List.range chunk.numStripes)) :
    (remaining chunk gs order).length =
      rank chunk gs chunk.numStripes :=
  (hOrder.filter _).length_eq

theorem rank_lt
    (hOrder : order.Perm (List.range chunk.numStripes))
    {idx : Nat}
    (hIdx : idx < chunk.numStripes)
    (hNot : idx / dataCopies chunk ∉ gs) :
    rank chunk gs idx <
      (remaining chunk gs order).length := by
  have hSucc : rank chunk gs (idx + 1) =
      rank chunk gs idx + 1 := by
    rw [rank_succ, if_neg hNot]
  have hMono : rank chunk gs (idx + 1) ≤
      rank chunk gs chunk.numStripes :=
    rank_mono hIdx
  rw [length_remaining hOrder]
  omega

/- The numbers of a run, in a range. -/
theorem length_filter_between
    (n lo k : Nat) :
    ((List.range n).filter fun i =>
        decide (lo ≤ i ∧ i < lo + k)).length =
      min n (lo + k) - min n lo := by
  induction n with
  | zero => simp
  | succ n ih =>
      rw [List.range_succ, List.filter_append,
        List.length_append, ih]
      by_cases hIn : lo ≤ n ∧ n < lo + k
      · simp [hIn]
        omega
      · simp [hIn]
        omega

theorem filter_range_group
    {n g : Nat}
    (hFits : (g + 1) * dataCopies chunk ≤ n) :
    ((List.range n).filter fun i =>
        decide (i / dataCopies chunk = g)).length =
      dataCopies chunk := by
  have hPos := dataCopies_pos chunk
  rw [Nat.succ_mul] at hFits
  have hIn : (fun i => decide (i / dataCopies chunk = g)) =
      fun i => decide (g * dataCopies chunk ≤ i ∧
        i < g * dataCopies chunk + dataCopies chunk) := by
    funext i
    rw [decide_eq_decide, Nat.div_eq_iff hPos]
    omega
  rw [hIn, length_filter_between]
  omega

theorem length_members
    (hOrder : order.Perm (List.range chunk.numStripes))
    {g : Nat}
    (hFits : (g + 1) * dataCopies chunk ≤ chunk.numStripes) :
    (members chunk order g).length = dataCopies chunk := by
  rw [← filter_range_group hFits]
  exact (hOrder.filter _).length_eq

/- The group of an index fits in the array. -/
theorem index_group_fits
    {idx : Nat}
    (hIdx : idx < chunk.numStripes) :
    (idx / dataCopies chunk + 1) * dataCopies chunk ≤
      chunk.numStripes := by
  have hPos := dataCopies_pos chunk
  obtain ⟨k, hk⟩ := dataCopies_dvd chunk
  have hLt : idx / dataCopies chunk < k := by
    rw [Nat.div_lt_iff_lt_mul hPos, Nat.mul_comm, ← hk]
    exact hIdx
  rw [hk, Nat.mul_comm (dataCopies chunk) k]
  exact Nat.mul_le_mul_right _ hLt

theorem getD_mem_of_lt
    {l : List Nat}
    {k : Nat}
    (hk : k < l.length) :
    l.getD k 0 ∈ l := by
  rw [List.getD_eq_getElem _ _ hk]
  exact List.getElem_mem hk

theorem getD_inj
    {l : List Nat}
    {j k : Nat}
    (hNodup : l.Nodup)
    (hj : j < l.length)
    (hk : k < l.length)
    (hEq : l.getD j 0 = l.getD k 0) :
    j = k := by
  rw [List.getD_eq_getElem _ _ hj,
    List.getD_eq_getElem _ _ hk] at hEq
  exact (List.Nodup.getElem_inj_iff hNodup).mp hEq

/- An index of a group gets a stripe of this group. -/
theorem pick_mem
    (hOrder : order.Perm (List.range chunk.numStripes))
    {idx : Nat}
    (hIdx : idx < chunk.numStripes)
    (hIn : idx / dataCopies chunk ∈ gs) :
    pick chunk order gs idx ∈
      members chunk order (idx / dataCopies chunk) := by
  unfold pick
  rw [if_pos hIn]
  apply getD_mem_of_lt
  rw [length_members hOrder (index_group_fits hIdx)]
  exact Nat.mod_lt _ (dataCopies_pos chunk)

/- Another index gets one of the stripes that are left. -/
theorem pick_left
    (hOrder : order.Perm (List.range chunk.numStripes))
    {idx : Nat}
    (hIdx : idx < chunk.numStripes)
    (hNot : idx / dataCopies chunk ∉ gs) :
    pick chunk order gs idx ∈ remaining chunk gs order := by
  unfold pick
  rw [if_neg hNot]
  exact getD_mem_of_lt (rank_lt hOrder hIdx hNot)

theorem pick_lt
    (hOrder : order.Perm (List.range chunk.numStripes))
    {idx : Nat}
    (hIdx : idx < chunk.numStripes) :
    pick chunk order gs idx < chunk.numStripes := by
  have hIn : pick chunk order gs idx ∈ order := by
    by_cases hGroup : idx / dataCopies chunk ∈ gs
    · exact List.mem_of_mem_filter
        (pick_mem hOrder hIdx hGroup)
    · exact List.mem_of_mem_filter
        (pick_left hOrder hIdx hGroup)
  exact List.mem_range.mp (hOrder.mem_iff.mp hIn)

/- A stripe goes to a visited group exactly if it is of one. -/
theorem pick_group
    (gs : List Nat)
    (hOrder : order.Perm (List.range chunk.numStripes))
    {idx : Nat}
    (hIdx : idx < chunk.numStripes) :
    (idx / dataCopies chunk ∈ gs →
        pick chunk order gs idx / dataCopies chunk =
          idx / dataCopies chunk) ∧
      (idx / dataCopies chunk ∉ gs →
        pick chunk order gs idx / dataCopies chunk ∉ gs) := by
  constructor
  · intro hIn
    have hMem := pick_mem hOrder hIdx hIn
    exact of_decide_eq_true (List.mem_filter.mp hMem).2
  · intro hNot
    have hMem := pick_left hOrder hIdx hNot
    exact of_decide_eq_true (List.mem_filter.mp hMem).2

theorem pick_inj
    (hOrder : order.Perm (List.range chunk.numStripes))
    {idx idx' : Nat}
    (hIdx : idx < chunk.numStripes)
    (hIdx' : idx' < chunk.numStripes)
    (hEq :
      pick chunk order gs idx = pick chunk order gs idx') :
    idx = idx' := by
  have hPos := dataCopies_pos chunk
  have hNodup : order.Nodup :=
    hOrder.nodup_iff.mpr List.nodup_range
  obtain ⟨hSame, hAway⟩ := pick_group gs hOrder hIdx
  obtain ⟨hSame', hAway'⟩ := pick_group gs hOrder hIdx'
  by_cases hIn : idx / dataCopies chunk ∈ gs
  · by_cases hIn' : idx' / dataCopies chunk ∈ gs
    · have hGroup : idx / dataCopies chunk =
          idx' / dataCopies chunk := by
        rw [← hSame hIn, ← hSame' hIn', hEq]
      unfold pick at hEq
      rw [if_pos hIn, if_pos hIn', ← hGroup] at hEq
      have hLength := length_members hOrder
        (index_group_fits hIdx)
      have hMod := getD_inj (hNodup.filter _)
        (by
          rw [← members, hLength]
          exact Nat.mod_lt idx hPos)
        (by
          rw [← members, hLength]
          exact Nat.mod_lt idx' hPos) hEq
      rw [← Nat.div_add_mod idx (dataCopies chunk), hGroup,
        hMod, Nat.div_add_mod]
    · have hBad := hAway' hIn'
      rw [← hEq, hSame hIn] at hBad
      exact absurd hIn hBad
  · by_cases hIn' : idx' / dataCopies chunk ∈ gs
    · have hBad := hAway hIn
      rw [hEq, hSame' hIn'] at hBad
      exact absurd hIn' hBad
    · unfold pick at hEq
      rw [if_neg hIn, if_neg hIn'] at hEq
      have hRank := getD_inj (hNodup.filter _)
        (rank_lt hOrder hIdx hIn)
        (rank_lt hOrder hIdx' hIn') hEq
      -- the ranks of indexes without a group go up
      have hUp : ∀ j k, j < k → j / dataCopies chunk ∉ gs →
          rank chunk gs j < rank chunk gs k := by
        intro j k hLt hNot
        have hMono : rank chunk gs (j + 1) ≤
            rank chunk gs k := rank_mono hLt
        rw [rank_succ, if_neg hNot] at hMono
        omega
      rcases Nat.lt_trichotomy idx idx' with hLt | hEq | hGt
      · have hLess := hUp idx idx' hLt hIn
        omega
      · exact hEq
      · have hLess := hUp idx' idx hGt hIn'
        omega

/- Every stripe is picked for one index. -/
theorem pick_perm
    (gs : List Nat)
    (hOrder : order.Perm (List.range chunk.numStripes)) :
    ((List.range chunk.numStripes).map
        (pick chunk order gs)).Perm
      (List.range chunk.numStripes) := by
  have hNodup : ((List.range chunk.numStripes).map
      (pick chunk order gs)).Nodup := by
    apply List.Nodup.map_on _ List.nodup_range
    intro idx hIdx idx' hIdx' hEq
    exact pick_inj hOrder (List.mem_range.mp hIdx)
      (List.mem_range.mp hIdx') hEq
  have hSub : (List.range chunk.numStripes).map
      (pick chunk order gs) ⊆
        List.range chunk.numStripes := by
    intro i hi
    obtain ⟨idx, hIdx, rfl⟩ := List.mem_map.mp hi
    exact List.mem_range.mpr
      (pick_lt hOrder (List.mem_range.mp hIdx))
  apply (List.subperm_of_subset hNodup hSub).perm_of_length_le
  simp

/- The picks depend on which groups there are only. -/
theorem remaining_congr
    {gs' : List Nat}
    (hSame : ∀ g, g ∈ gs ↔ g ∈ gs')
    (l : List Nat) :
    remaining chunk gs l = remaining chunk gs' l := by
  unfold remaining
  simp only [hSame]

theorem pick_congr
    {gs' : List Nat}
    (hSame : ∀ g, g ∈ gs ↔ g ∈ gs') :
    pick chunk order gs = pick chunk order gs' := by
  funext idx
  unfold pick rank
  simp only [hSame, remaining_congr hSame]

theorem slot_congr
    {gs' : List Nat}
    (hSame : ∀ g, g ∈ gs ↔ g ∈ gs') :
    slot chunk order gs = slot chunk order gs' := by
  funext idx
  unfold slot
  simp only [hSame, pick_congr hSame]

end Lists

----------
-- One Block
----------

theorem set_map_range
    (n a : Nat)
    (f : Nat → BioStripe)
    (v : BioStripe) :
    ((List.range n).map f).set a v =
      (List.range n).map fun k => if k = a then v else f k := by
  apply List.ext_getElem
  · simp
  · intro k hk hk'
    rw [List.getElem_set]
    simp only [List.getElem_map, List.getElem_range]
    by_cases hEq : a = k
    · rw [if_pos hEq, if_pos hEq.symm]
    · rw [if_neg hEq, if_neg (Ne.symm hEq)]

section Block

variable {chunk : Chunk} {order gs : List Nat}
variable {er : ExtentRecord}

/-
  The extents of a block's group go to the indexes from the
  first on, and the others stay in the list.
-/
theorem takeExtents_spec
    (hRaid : OrderedRaid chunk.type)
    (hRecorded : Recorded chunk er)
    {l : List Nat}
    (hList : ∀ i ∈ l, i < chunk.numStripes)
    {a : Nat}
    {f : Nat → BioStripe}
    (hFits :
      a + (members chunk l (groupOf chunk er.start)).length ≤
        chunk.numStripes) :
    takeExtents er (l.map (extentOf chunk)) a
        ((List.range chunk.numStripes).map f) =
      some ((remaining chunk [groupOf chunk er.start] l).map
          (extentOf chunk),
        (List.range chunk.numStripes).map fun k =>
          if a ≤ k ∧ k < a + (members chunk l
              (groupOf chunk er.start)).length then
            stripeOf chunk ((members chunk l
              (groupOf chunk er.start)).getD (k - a) 0)
          else f k) := by
  induction l generalizing a f with
  | nil =>
      simp [takeExtents, members, remaining]
  | cons i l ih =>
      have hIn := inDeviceExtent_iff hRaid hRecorded
        (hList i List.mem_cons_self)
      have hTail : ∀ j ∈ l, j < chunk.numStripes :=
        fun j hj => hList j (List.mem_cons_of_mem i hj)
      rw [List.map_cons, takeExtents]
      by_cases hGroup :
          i / dataCopies chunk = groupOf chunk er.start
      · have hMembers : members chunk (i :: l)
            (groupOf chunk er.start) =
              i :: members chunk l (groupOf chunk er.start) :=
          List.filter_cons_of_pos (decide_eq_true hGroup)
        have hLeft : remaining chunk
            [groupOf chunk er.start] (i :: l) =
              remaining chunk [groupOf chunk er.start] l :=
          List.filter_cons_of_neg (by simp [hGroup])
        rw [hMembers, List.length_cons] at hFits
        rw [if_pos (hIn.mpr hGroup), List.length_map,
          List.length_range, if_pos (by omega), set_map_range,
          ih hTail (by omega), hMembers, hLeft]
        congr 2
        apply List.map_congr_left
        intro k hk
        rw [List.length_cons]
        by_cases hFirst : k = a
        · subst hFirst
          rw [if_neg (by omega), if_pos rfl,
            if_pos (by omega), Nat.sub_self]
          rfl
        · rw [if_neg hFirst]
          by_cases hLater : a + 1 ≤ k ∧ k < a + 1 +
              (members chunk l
                (groupOf chunk er.start)).length
          · rw [if_pos hLater, if_pos (by omega)]
            obtain ⟨d, rfl⟩ := Nat.exists_eq_add_of_le hLater.1
            rw [show a + 1 + d - (a + 1) = d by omega,
              show a + 1 + d - a = d + 1 by omega]
            rfl
          · rw [if_neg hLater, if_neg (by omega)]
      · have hMembers : members chunk (i :: l)
            (groupOf chunk er.start) =
              members chunk l (groupOf chunk er.start) :=
          List.filter_cons_of_neg (by simp [hGroup])
        have hLeft : remaining chunk
            [groupOf chunk er.start] (i :: l) =
              i :: remaining chunk
                [groupOf chunk er.start] l :=
          List.filter_cons_of_pos (by simp [hGroup])
        rw [hMembers] at hFits
        rw [if_neg (fun h => hGroup (hIn.mp h)),
          ih hTail hFits, hMembers, hLeft]
        rfl

/- The stripes of a group are left until it is visited. -/
theorem members_remaining
    {g : Nat}
    (hNot : g ∉ gs) :
    members chunk (remaining chunk gs order) g =
      members chunk order g := by
  unfold members remaining
  rw [List.filter_filter]
  apply List.filter_congr
  intro i hi
  by_cases hGroup : i / dataCopies chunk = g
  · simp [hGroup, hNot]
  · simp [hGroup]

theorem remaining_cons
    (g : Nat) :
    remaining chunk [g] (remaining chunk gs order) =
      remaining chunk (g :: gs) order := by
  unfold remaining
  rw [List.filter_filter]
  apply List.filter_congr
  intro i hi
  simp

theorem stripeOf_dev
    (hDev : ∀ s ∈ chunk.stripes, s.dev ≠ 0)
    {i : Nat}
    (hi : i < chunk.numStripes) :
    (stripeOf chunk i).dev ≠ 0 :=
  hDev _ (chunk.stripes_getD hi)

theorem slot_dev
    (hOrder : order.Perm (List.range chunk.numStripes))
    (hDev : ∀ s ∈ chunk.stripes, s.dev ≠ 0)
    {idx : Nat}
    (hIdx : idx < chunk.numStripes)
    (hIn : idx / dataCopies chunk ∈ gs) :
    (slot chunk order gs idx).dev ≠ 0 := by
  unfold slot
  rw [if_pos hIn]
  exact stripeOf_dev hDev (pick_lt hOrder hIdx)

/- A new group changes the slots of its own indexes. -/
theorem slot_cons
    {g first : Nat}
    (hFirst : first = g * dataCopies chunk)
    (k : Nat) :
    slot chunk order (g :: gs) k =
      if k / dataCopies chunk = g then
        stripeOf chunk
          ((members chunk order g).getD (k - first) 0)
      else slot chunk order gs k := by
  unfold slot pick
  by_cases hGroup : k / dataCopies chunk = g
  · have hMod : k - first = k % dataCopies chunk := by
      have hDivMod := Nat.div_add_mod k (dataCopies chunk)
      rw [hGroup, Nat.mul_comm, ← hFirst] at hDivMod
      omega
    rw [if_pos hGroup, hGroup, if_pos List.mem_cons_self,
      if_pos List.mem_cons_self, hMod]
  · rw [if_neg hGroup]
    by_cases hIn : k / dataCopies chunk ∈ gs
    · rw [if_pos (List.mem_cons_of_mem _ hIn), if_pos hIn,
        if_pos (List.mem_cons_of_mem _ hIn), if_pos hIn]
    · rw [if_neg (by simp [hGroup, hIn]), if_neg hIn]

/- One block brings its group into the stripes. -/
theorem examine_spec
    (hRaid : OrderedRaid chunk.type)
    (hInt : chunk.size < 2 ^ 31 * chunk.stripeLen)
    (hOrder : order.Perm (List.range chunk.numStripes))
    (hDev : ∀ s ∈ chunk.stripes, s.dev ≠ 0)
    (hRecorded : Recorded chunk er) :
    examine (recordOf chunk order) er
        ((remaining chunk gs order).map (extentOf chunk))
        ((List.range chunk.numStripes).map
          (slot chunk order gs)) =
      .ok ((remaining chunk (groupOf chunk er.start :: gs)
            order).map (extentOf chunk),
        (List.range chunk.numStripes).map
          (slot chunk order
            (groupOf chunk er.start :: gs))) := by
  have hFits := group_fits hRaid er.start
  have hEq : firstIndex chunk er.start =
      groupOf chunk er.start * dataCopies chunk :=
    firstIndex_eq er.start
  have hHigh := hRecorded.high
  have hSize := hRecorded.size_pos
  have hPos := dataCopies_pos chunk
  have hStripe : ((List.range chunk.numStripes).map
      (slot chunk order gs))[firstIndex chunk er.start]? =
        some (slot chunk order gs
          (firstIndex chunk er.start)) := by
    rw [List.getElem?_map,
      List.getElem?_range (by omega)]
    rfl
  unfold examine
  rw [calcStripeIndex_record order hRaid hInt hRecorded.low
    (by omega)]
  simp only [hStripe]
  by_cases hIn : groupOf chunk er.start ∈ gs
  · have hSame : ∀ g, g ∈ gs ↔
        g ∈ groupOf chunk er.start :: gs := by
      intro g
      rw [List.mem_cons]
      constructor
      · exact Or.inr
      · rintro (rfl | hg)
        · exact hIn
        · exact hg
    rw [if_pos (slot_dev hOrder hDev (by omega) hIn),
      remaining_congr hSame, slot_congr hSame]
  · have hZero : slot chunk order gs
        (firstIndex chunk er.start) = ⟨0, 0⟩ :=
      if_neg hIn
    have hLength : (members chunk order
        (groupOf chunk er.start)).length =
          dataCopies chunk := by
      apply length_members hOrder
      rw [Nat.succ_mul, ← hEq]
      exact hFits
    have hList : ∀ i ∈ remaining chunk gs order,
        i < chunk.numStripes := fun i hi =>
      List.mem_range.mp
        (hOrder.mem_iff.mp (List.mem_of_mem_filter hi))
    rw [hZero, if_neg (by simp),
      takeExtents_spec hRaid hRecorded hList
        (by rw [members_remaining hIn, hLength]; exact hFits),
      members_remaining hIn, remaining_cons, hLength]
    dsimp only
    congr 2
    apply List.map_congr_left
    intro k hk
    rw [slot_cons hEq k]
    exact if_congr (div_eq_group_iff er.start).symm rfl rfl

end Block

----------
-- The Remaining Stripes
----------

/- A result that, if it is one, is the right one. -/
def Gives
    (res : Rebuilt)
    (stripes : List BioStripe) : Prop :=
  res ≠ .outside ∧ res ≠ .running ∧
    ∀ found, res = .done found → found = stripes

section Rest

variable {chunk : Chunk} {order gs : List Nat}

/- The stripes of the rebuilt chunk. -/
def picked
    (chunk : Chunk)
    (order gs : List Nat) : List BioStripe :=
  (List.range chunk.numStripes).map fun idx =>
    stripeOf chunk (pick chunk order gs idx)

/- The stripes in the middle of the last loop. -/
def partly
    (chunk : Chunk)
    (order gs : List Nat)
    (a : Nat) : List BioStripe :=
  (List.range chunk.numStripes).map fun idx =>
    if idx < a then stripeOf chunk (pick chunk order gs idx)
    else slot chunk order gs idx

theorem partly_zero :
    partly chunk order gs 0 =
      (List.range chunk.numStripes).map
        (slot chunk order gs) := by
  apply List.map_congr_left
  intro idx hIdx
  rw [if_neg (Nat.not_lt_zero idx)]

theorem partly_last :
    partly chunk order gs chunk.numStripes =
      picked chunk order gs := by
  apply List.map_congr_left
  intro idx hIdx
  rw [if_pos (List.mem_range.mp hIdx)]

theorem partly_getD
    {a : Nat}
    (ha : a < chunk.numStripes) :
    (partly chunk order gs a).getD a ⟨0, 0⟩ =
      slot chunk order gs a := by
  unfold partly
  rw [List.getD_eq_getElem _ _ (by simpa using ha)]
  simp

/- An index of a visited group has its stripe already. -/
theorem partly_succ_of_mem
    {a : Nat}
    (hIn : a / dataCopies chunk ∈ gs) :
    partly chunk order gs (a + 1) =
      partly chunk order gs a := by
  apply List.map_congr_left
  intro idx hIdx
  by_cases hEq : idx = a
  · subst hEq
    rw [if_pos (Nat.lt_succ_self idx), if_neg (by omega),
      slot, if_pos hIn]
  · exact if_congr (by omega) rfl rfl

theorem partly_set
    (a : Nat) :
    (partly chunk order gs a).set a
        (stripeOf chunk (pick chunk order gs a)) =
      partly chunk order gs (a + 1) := by
  unfold partly
  rw [set_map_range]
  apply List.map_congr_left
  intro idx hIdx
  by_cases hEq : idx = a
  · subst hEq
    rw [if_pos rfl, if_pos (Nat.lt_succ_self idx)]
  · rw [if_neg hEq]
    exact if_congr (by omega) rfl rfl

/- The next extent that is left is the pick of its index. -/
theorem drop_rank
    (hOrder : order.Perm (List.range chunk.numStripes))
    {a : Nat}
    (ha : a < chunk.numStripes)
    (hNot : a / dataCopies chunk ∉ gs) :
    (remaining chunk gs order).drop (rank chunk gs a) =
      pick chunk order gs a ::
        (remaining chunk gs order).drop
          (rank chunk gs (a + 1)) := by
  have hLt := rank_lt hOrder ha hNot
  rw [rank_succ, if_neg hNot, List.drop_eq_getElem_cons hLt,
    pick, if_neg hNot, List.getD_eq_getElem _ _ hLt]

/- The loop over the indexes that have no stripe. -/
theorem fillRest_spec
    (gs devices : List Nat)
    (hOrder : order.Perm (List.range chunk.numStripes))
    (hDev : ∀ s ∈ chunk.stripes, s.dev ≠ 0)
    {n a : Nat}
    (hEnd : a + n = chunk.numStripes) :
    Gives
      (fillRest devices n a
        (((remaining chunk gs order).drop
          (rank chunk gs a)).map (extentOf chunk))
        (partly chunk order gs a))
      (picked chunk order gs) := by
  induction n generalizing a with
  | zero =>
      rw [Nat.add_zero] at hEnd
      refine ⟨by simp [fillRest], by simp [fillRest], ?_⟩
      intro found hDone
      rw [fillRest, Rebuilt.done.injEq] at hDone
      rw [← hDone, hEnd, partly_last]
  | succ n ih =>
      have ha : a < chunk.numStripes := by
        omega
      unfold fillRest
      rw [partly_getD ha]
      by_cases hIn : a / dataCopies chunk ∈ gs
      · rw [if_pos (slot_dev hOrder hDev ha hIn),
          ← partly_succ_of_mem hIn]
        have hRank : rank chunk gs (a + 1) =
            rank chunk gs a := by
          rw [rank_succ, if_pos hIn, Nat.add_zero]
        rw [← hRank]
        exact ih (by omega)
      · rw [slot, if_neg hIn, if_neg (by simp),
          drop_rank hOrder ha hIn, List.map_cons]
        dsimp only
        split
        · simp [Gives]
        · have hStripe : (extentOf chunk
              (pick chunk order gs a)).stripe =
                stripeOf chunk (pick chunk order gs a) := rfl
          rw [hStripe, partly_set]
          exact ih (by omega)
        · simp [Gives]

/- What follows the last block. -/
theorem finish_spec
    (devices : List Nat)
    (hOrder : order.Perm (List.range chunk.numStripes))
    (hDev : ∀ s ∈ chunk.stripes, s.dev ≠ 0) :
    Gives
      (finish devices (recordOf chunk order)
        ((remaining chunk gs order).map (extentOf chunk))
        ((List.range chunk.numStripes).map
          (slot chunk order gs)))
      (picked chunk order gs) := by
  unfold finish
  split
  · rename_i hNone
    rw [List.map_eq_nil_iff] at hNone
    refine ⟨by simp, by simp, ?_⟩
    intro found hDone
    cases hDone
    apply List.map_congr_left
    intro idx hIdx
    unfold slot
    rw [if_pos]
    by_contra hNot
    have hLt := rank_lt hOrder (List.mem_range.mp hIdx) hNot
    rw [hNone] at hLt
    exact Nat.not_lt_zero _ hLt
  · split
    · simp [Gives]
    · have hFill := fillRest_spec gs devices hOrder hDev
        (Nat.zero_add chunk.numStripes)
      rw [partly_zero] at hFill
      exact hFill

/- Without a block the extents keep their order. -/
theorem pick_nil
    (idx : Nat) :
    pick chunk order [] idx = order.getD idx 0 := by
  simp [pick, remaining, rank]

theorem rebuildUnordered_spec
    (devices : List Nat)
    (hOrder : order.Perm (List.range chunk.numStripes))
    {n a : Nat}
    (hEnd : a + n = chunk.numStripes) :
    Gives
      (rebuildUnordered devices n
        ((order.drop a).map (extentOf chunk))
        ((List.range a).map fun idx =>
          stripeOf chunk (pick chunk order [] idx)))
      (picked chunk order []) := by
  induction n generalizing a with
  | zero =>
      rw [Nat.add_zero] at hEnd
      refine ⟨by simp [rebuildUnordered],
        by simp [rebuildUnordered], ?_⟩
      intro found hDone
      rw [rebuildUnordered, Rebuilt.done.injEq] at hDone
      rw [← hDone, hEnd, picked]
  | succ n ih =>
      have ha : a < order.length := by
        rw [hOrder.length_eq, List.length_range]
        omega
      unfold rebuildUnordered
      rw [List.drop_eq_getElem_cons ha, List.map_cons]
      dsimp only
      split
      · simp [Gives]
      · have hStripe : (extentOf chunk order[a]).stripe =
            stripeOf chunk (pick chunk order [] a) := by
          rw [pick_nil, List.getD_eq_getElem _ _ ha]
          rfl
        have hNext := ih (a := a + 1) (by omega)
        rw [List.range_succ, List.map_append] at hNext
        rw [hStripe]
        exact hNext
      · simp [Gives]

end Rest

end Recover

end BtrfsProgs
