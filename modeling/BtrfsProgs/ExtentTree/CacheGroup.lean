import BtrfsProgs.ExtentTree.Reserve
import BtrfsProgs.Volumes.Layout
import BtrfsProgs.Volumes.Reverse

/-
  What `cache_block_group` of `extent-tree.c` finds free.

  The extent tree is read from the start of the group, or
  from 64K on, so an extent that starts before is not seen.
  Where no extent starts before and reaches past it, what is
  marked free is exactly what no extent and no superblock
  stripe holds, and no byte marked free is stored where a
  superblock copy is.

  Main declarations:
    * `cacheGaps_exact`
    * `GoesTo` and `reserved_of_super`
    * `cacheBlockGroup_exact`
-/

----------
-- The Gaps
----------

namespace BtrfsProgs

namespace ExtentTree

open Check
open ExtentIo
open Volumes

/- Every extent ends where the next one starts, or before. -/
def InTurn
    (leafsize : Nat)
    (keys : List ExtentKey) : Prop :=
  keys.Pairwise fun a b =>
    a.IsExtent → b.IsExtent →
      a.extentEnd leafsize ≤ b.objectid

instance
    (leafsize : Nat)
    (keys : List ExtentKey) :
    Decidable (InTurn leafsize keys) := by
  unfold InTurn
  infer_instance

theorem ExtentKey.objectid_le_end
    (key : ExtentKey)
    (leafsize : Nat) :
    key.objectid ≤ key.extentEnd leafsize := by
  unfold ExtentKey.extentEnd
  split
  · exact Nat.le_add_right _ _
  · exact Nat.le_add_right _ _

section Gaps

variable {leafsize : Nat}
variable {group : BlockGroup}
variable {tree : ExtentIoTree}

/- Marking what is between two extents, if there is a gap. -/
theorem setGap_spec
    (hTree : Uniform EXTENT_DIRTY tree)
    (last : Nat)
    {next : Nat}
    (hTop : next < u64Max) :
    ∃ tree',
      (if last < next then
          setExtentDirty tree last (next - 1)
        else
          some tree) = some tree' ∧
      Uniform EXTENT_DIRTY tree' ∧
      ∀ x, Marked tree' x ↔
        Marked tree x ∨ (last ≤ x ∧ x < next) := by
  by_cases hGap : last < next
  · rcases hTree.setExtentBits EXTENT_DIRTY_ne_zero
      (show last ≤ next - 1 by omega)
      (show next - 1 < u64Max by omega) with
      ⟨tree', hSet, hUniform, hMarked⟩
    refine ⟨tree', ?_, hUniform, ?_⟩
    · rw [if_pos hGap]
      exact hSet
    · intro x
      rw [hMarked x]
      exact or_congr_right (by omega)
  · refine ⟨tree, if_neg hGap, hTree, ?_⟩
    intro x
    exact (or_iff_left (by omega)).symm

/-
  The loop marks what no extent holds, as far as it goes, and
  behind that no extent holds a byte of the group.
-/
theorem cacheLoop_exact
    (hTop : group.end_ < u64Max)
    (keys : List ExtentKey)
    (hSorted :
      keys.Pairwise fun a b => a.objectid ≤ b.objectid)
    (hTurn : InTurn leafsize keys)
    {last : Nat}
    (hStart : group.start ≤ last)
    (hAhead :
      ∀ key ∈ keys, key.IsExtent → last ≤ key.objectid)
    (hTree : Uniform EXTENT_DIRTY tree) :
    ∃ last' tree',
      cacheLoop leafsize group keys last tree =
          some (last', tree') ∧
        Uniform EXTENT_DIRTY tree' ∧
        last ≤ last' ∧
        (∀ x, Marked tree' x ↔
          Marked tree x ∨
            (last ≤ x ∧ x < last' ∧
              ¬ Allocated leafsize keys x)) ∧
        ∀ x, last' ≤ x → x < group.end_ →
          ¬ Allocated leafsize keys x := by
  induction keys generalizing last tree with
  | nil =>
      refine ⟨last, tree, rfl, hTree, le_rfl, ?_, ?_⟩
      · intro x
        exact (or_iff_left (by omega)).symm
      · intro x _ _ hIn
        rcases hIn with ⟨key, hKey, _⟩
        cases hKey
  | cons key keys ih =>
      rcases List.pairwise_cons.mp hSorted with
        ⟨hFirst, hSortedRest⟩
      rcases List.pairwise_cons.mp hTurn with
        ⟨hBehindKey, hTurnRest⟩
      have hAheadRest :
          ∀ k ∈ keys, k.IsExtent → last ≤ k.objectid :=
        fun k hk => hAhead k (List.mem_cons_of_mem _ hk)
      have hLast := hAhead key List.mem_cons_self
      by_cases hBehind : group.end_ ≤ key.objectid
      · -- the loop stops, all that is left is behind the group
        refine ⟨last, tree, ?_, hTree, le_rfl, ?_, ?_⟩
        · unfold cacheLoop
          by_cases hNone : key.objectid < group.start
          · unfold BlockGroup.end_ at hBehind
            omega
          · rw [if_neg hNone, if_pos hBehind]
        · intro x
          exact (or_iff_left (by omega)).symm
        · intro x _ hIn hHeld
          rcases hHeld with ⟨k, hk, _, hLow, _⟩
          rcases List.mem_cons.mp hk with rfl | hk
          · omega
          · have hLater := hFirst k hk
            omega
      · by_cases hExtent : key.IsExtent
        · have hAt := hLast hExtent
          have hEnd := ExtentKey.objectid_le_end key leafsize
          have hLater :
              ∀ k ∈ keys, k.IsExtent →
                key.extentEnd leafsize ≤ k.objectid :=
            fun k hk => hBehindKey k hk hExtent
          rcases setGap_spec hTree last
            (show key.objectid < u64Max by omega) with
            ⟨next, hSet, hNext, hGap⟩
          rcases ih hSortedRest hTurnRest
            (hStart.trans (hAt.trans hEnd)) hLater hNext with
            ⟨last', tree', hLoop, hUniform, hFar, hMarked,
              hRest⟩
          refine ⟨last', tree', ?_, hUniform, by omega, ?_, ?_⟩
          · unfold cacheLoop
            rw [if_neg (by omega), if_neg hBehind,
              if_pos hExtent]
            by_cases hMore : last < key.objectid
            · rw [if_pos hMore] at hSet ⊢
              rw [hSet]
              exact hLoop
            · rw [if_neg hMore] at hSet ⊢
              cases hSet
              exact hLoop
          · intro x
            have hFrom : Allocated leafsize keys x →
                key.extentEnd leafsize ≤ x := by
              intro hHeld
              rcases hHeld with ⟨k, hk, hIs, hLow, _⟩
              exact (hLater k hk hIs).trans hLow
            rw [hMarked x, hGap x, allocated_cons_iff]
            by_cases hHeld : Allocated leafsize keys x
            · have hx := hFrom hHeld
              simp only [hHeld, or_true, not_true_eq_false,
                and_false, or_false]
              constructor
              · intro h
                rcases h with h | h
                · exact h
                · omega
              · exact Or.inl
            · simp only [hHeld, hExtent, or_false, true_and,
                not_false_eq_true, and_true]
              rw [or_assoc]
              exact or_congr_right (by omega)
          · intro x hFrom hIn hHeld
            rcases allocated_cons_iff.mp hHeld with h | h
            · omega
            · exact hRest x hFrom hIn h
        · -- a key that is not an extent changes nothing
          rcases ih hSortedRest hTurnRest hStart hAheadRest hTree
            with ⟨last', tree', hLoop, hUniform, hFar, hMarked,
              hRest⟩
          have hSame : ∀ x, Allocated leafsize (key :: keys) x ↔
              Allocated leafsize keys x := by
            intro x
            rw [allocated_cons_iff]
            simp [hExtent]
          refine ⟨last', tree', ?_, hUniform, hFar, ?_, ?_⟩
          · unfold cacheLoop
            rw [if_neg hBehind, if_neg hExtent, ite_self]
            exact hLoop
          · intro x
            rw [hMarked x, hSame x]
          · intro x hFrom hIn
            rw [hSame x]
            exact hRest x hFrom hIn

/- No extent starts before the search and reaches past it. -/
def NoneAcross
    (leafsize first : Nat)
    (keys : List ExtentKey) : Prop :=
  ∀ key ∈ keys, key.IsExtent → key.objectid < first →
    key.extentEnd leafsize ≤ first

instance
    (leafsize first : Nat)
    (keys : List ExtentKey) :
    Decidable (NoneAcross leafsize first keys) := by
  unfold NoneAcross
  infer_instance

theorem NoneAcross.allocated_dropWhile_iff
    {first : Nat}
    {keys : List ExtentKey}
    (hNone : NoneAcross leafsize first keys)
    {x : Nat}
    (hFirst : first ≤ x) :
    Allocated leafsize
        (keys.dropWhile fun key => key.objectid < first) x ↔
      Allocated leafsize keys x := by
  constructor
  · intro hHeld
    rcases hHeld with ⟨key, hKey, hIn⟩
    exact ⟨key, List.dropWhile_subset _ hKey, hIn⟩
  · intro hHeld
    rcases hHeld with ⟨key, hKey, hExtent, hLow, hHigh⟩
    refine ⟨key, mem_dropWhile_of_le hKey ?_, hExtent, hLow,
      hHigh⟩
    by_contra hBefore
    have hEnd := hNone key hKey hExtent (by omega)
    omega

/- What a group's gaps are. -/
theorem cacheGaps_exact
    (hTop : group.end_ < u64Max)
    {keys : List ExtentKey}
    (hSorted :
      keys.Pairwise fun a b => a.objectid ≤ b.objectid)
    (hTurn : InTurn leafsize keys)
    (hNone :
      NoneAcross leafsize (max group.start SUPER_INFO_OFFSET)
        keys)
    (hTree : Uniform EXTENT_DIRTY tree) :
    ∃ tree',
      cacheGaps leafsize keys group tree = some tree' ∧
      Uniform EXTENT_DIRTY tree' ∧
      ∀ x, x < group.end_ →
        (Marked tree' x ↔
          Marked tree x ∨
            (max group.start SUPER_INFO_OFFSET ≤ x ∧
              ¬ Allocated leafsize keys x)) := by
  have hSub :=
    List.dropWhile_sublist (l := keys) fun key =>
      decide (key.objectid < max group.start SUPER_INFO_OFFSET)
  rcases cacheLoop_exact hTop
    (keys.dropWhile fun key =>
      key.objectid < max group.start SUPER_INFO_OFFSET)
    (hSorted.sublist hSub) (hTurn.sublist hSub)
    (le_max_left group.start SUPER_INFO_OFFSET)
    (fun key hKey _ => objectid_of_mem_dropWhile hSorted key hKey)
    hTree with
    ⟨last, next, hLoop, hNext, hFar, hMarked, hRest⟩
  rcases setGap_spec hNext last hTop with
    ⟨tree', hSet, hUniform, hTail⟩
  refine ⟨tree', ?_, hUniform, ?_⟩
  · unfold cacheGaps
    dsimp only
    rw [hLoop]
    exact hSet
  · intro x hIn
    have hLeft := hRest x
    rw [hTail x, hMarked x]
    by_cases hFirst : max group.start SUPER_INFO_OFFSET ≤ x
    · rw [hNone.allocated_dropWhile_iff hFirst] at hLeft ⊢
      by_cases hHeld : Allocated leafsize keys x
      · simp only [hHeld, not_true_eq_false, and_false,
          or_false] at hLeft ⊢
        constructor
        · intro h
          rcases h with h | h
          · exact h
          · exact absurd h.2 (fun hLess => hLeft h.1 hLess)
        · exact Or.inl
      · simp only [hHeld, not_false_eq_true, and_true,
          hFirst, true_and]
        rw [or_assoc]
        refine or_congr_right (iff_of_true ?_ trivial)
        omega
    · constructor
      · intro h
        rcases h with (h | h) | h
        · exact Or.inl h
        · omega
        · omega
      · intro h
        rcases h with h | h
        · exact Or.inl (Or.inl h)
        · omega

end Gaps

----------
-- Superblock Copies
----------

/-
  A device byte that a request for one logical byte goes to;
  with a raid map it goes to all of the full stripe.
-/
def GoesTo
    (r : MapResult)
    (s : BioStripe) : Prop :=
  match r.raidMap with
  | none => s ∈ r.stripes
  | some _ =>
      ∃ t ∈ r.stripes,
        t.dev = s.dev ∧ t.physical ≤ s.physical ∧
          s.physical < t.physical + r.length

/- The device byte belongs to a superblock copy. -/
def InSuper
    (s : BioStripe) : Prop :=
  ∃ i, i < SUPER_MIRROR_MAX ∧ sbOffset i ≤ s.physical ∧
    s.physical < sbOffset i + SUPER_INFO_SIZE

/- Stripe positions and the stripe length are in whole 4K. -/
structure InPages
    (map : MapLookup) : Prop where
  stripeLen : 4096 ∣ map.stripeLen
  physical : ∀ s ∈ map.stripes, 4096 ∣ s.physical

theorem sbOffset_dvd
    {i : Nat}
    (hMirror : i < SUPER_MIRROR_MAX) :
    4096 ∣ sbOffset i := by
  unfold SUPER_MIRROR_MAX at hMirror
  have hCases : i = 0 ∨ i = 1 ∨ i = 2 := by
    omega
  rcases hCases with rfl | rfl | rfl
  · decide
  · decide
  · decide

/- Bytes of one 4K page are in one stripe. -/
theorem div_eq_of_page
    {a b len : Nat}
    (hStart : 4096 ∣ a)
    (hFrom : a ≤ b)
    (hTo : b < a + 4096)
    (hLen : 4096 ∣ len) :
    a / len = b / len := by
  rcases hLen with ⟨k, rfl⟩
  rw [← Nat.div_div_eq_div_mul, ← Nat.div_div_eq_div_mul]
  congr 1
  omega

section Supers

variable (chunk : Chunk)
variable {mapTree : List MapLookup}

theorem mem_superStripes_iff
    (hOrdered : RangeTree.Ordered mapTree)
    (hChunk : chunk.toMapLookup ∈ mapTree)
    (s : Nat × Nat) :
    s ∈ superStripes mapTree chunk.start ↔
      ∃ i, i < SUPER_MIRROR_MAX ∧
        s.1 ∈ rmapBlockIn chunk.toMapLookup (sbOffset i) 0 ∧
        s.2 = rmapLen chunk.toMapLookup := by
  unfold superStripes
  simp only [rmapBlock_eq hOrdered hChunk, List.mem_flatMap,
    List.mem_range, List.mem_map, List.mem_reverse]
  constructor
  · intro h
    rcases h with ⟨i, hi, l, hl, rfl⟩
    exact ⟨i, hi, hl, rfl⟩
  · intro h
    rcases h with ⟨i, hi, hl, hLen⟩
    exact ⟨i, hi, s.1, hl, Prod.ext rfl hLen.symm⟩

/-
  What stands for a logical byte in a superblock copy puts the
  byte into a superblock stripe.
-/
theorem reserved_of_super
    (hOrdered : RangeTree.Ordered mapTree)
    (hChunk : chunk.toMapLookup ∈ mapTree)
    (hFits : chunk.FullFits)
    (hPages : InPages chunk.toMapLookup)
    {logical index depth : Nat}
    (hStands : chunk.Stands logical index depth)
    (hSuper :
      InSuper (stripeAt chunk.toMapLookup index depth)) :
    Reserved (superStripes mapTree chunk.start) logical := by
  rcases hStands with ⟨hIndex, hDepth, hLow, hHigh⟩
  rcases hSuper with ⟨i, hi, hFrom, hTo⟩
  have hStripe := chunk.stripes_getD hIndex
  have hPhysical := hPages.physical _ hStripe
  have hSb := sbOffset_dvd hi
  unfold stripeAt SUPER_INFO_SIZE at hTo
  unfold stripeAt at hFrom
  dsimp only at hFrom hTo
  -- the copy starts in the device extent, in the same row
  have hBegin :
      (chunk.stripes.getD index ⟨0, 0⟩).physical ≤
        sbOffset i := by
    omega
  have hRow :
      (sbOffset i -
          (chunk.stripes.getD index ⟨0, 0⟩).physical) /
          chunk.stripeLen =
        depth / chunk.stripeLen :=
    div_eq_of_page (Nat.dvd_sub hSb hPhysical) (by omega)
      (by omega) hPages.stripeLen
  refine ⟨(chunk.start +
      rmapNr chunk.toMapLookup (depth / chunk.stripeLen)
        index * rmapLen chunk.toMapLookup,
      rmapLen chunk.toMapLookup), ?_, hLow, hHigh⟩
  rw [mem_superStripes_iff chunk hOrdered hChunk]
  refine ⟨i, hi, ?_, rfl⟩
  rw [mem_rmapBlockIn_iff]
  have hLength := chunk.stripes_length
  refine ⟨index, chunk.stripes.getD index ⟨0, 0⟩, ?_, ?_, ?_⟩
  · rw [List.getD_eq_getElem _ _ (by omega)]
    exact List.getElem?_eq_getElem (by omega)
  · refine ⟨Or.inl rfl, hBegin, ?_⟩
    rw [chunk.rmapLength_eq]
    omega
  · have hBound := chunk.rmapNr_fits hFits hIndex hDepth
    rw [rmapStripe_eq, hRow, Nat.mod_eq_of_lt hBound]

/- Without a raid map, a request goes to mirrors. -/
theorem mirrors_of_mapBlockIn
    {rw : Rw}
    {mirror : Nat}
    {raidMapRet : Bool}
    (hCopies : mirror ≤ copies chunk.toMapLookup)
    (hNoMap :
      ¬ (chunk.type.isRaid56 ∧ (rw = .WRITE ∨ 1 < mirror) ∧
        raidMapRet))
    {offset : Nat}
    {r : MapResult}
    (hMap :
      mapBlockIn chunk.toMapLookup rw offset mirror
        raidMapRet = .ok r) :
    r.raidMap = none ∧
      ∀ s ∈ r.stripes, ∃ m, 1 ≤ m ∧
        m ≤ copies chunk.toMapLookup ∧
        s = chunk.mirrorAt offset m := by
  by_cases hWrite : chunk.type.isRaid56 = false ∧ rw = .WRITE
  · rcases hWrite with ⟨hPlain, rfl⟩
    rw [chunk.mapBlockIn_write hPlain] at hMap
    cases hMap
    refine ⟨rfl, ?_⟩
    intro s hs
    rcases List.mem_map.mp hs with ⟨i, hi, rfl⟩
    exact ⟨i + 1, Nat.le_add_left 1 i, List.mem_range.mp hi,
      rfl⟩
  · -- the same stripe as for a read
    have hRead : mapBlockIn chunk.toMapLookup rw offset mirror
          raidMapRet =
        mapBlockIn chunk.toMapLookup .READ offset
          (chunk.pickMirror offset mirror) false := by
      rw [← chunk.mapBlockIn_pickMirror,
        chunk.mapBlockIn_plan hNoMap,
        chunk.mapBlockIn_plan (by simp)]
      have hPlan : ∀ stripeNr stripeOffset length,
          stripePlan chunk.toMapLookup rw mirror stripeNr
              stripeOffset length =
            stripePlan chunk.toMapLookup .READ mirror stripeNr
              stripeOffset length := by
        intro stripeNr stripeOffset length
        cases hType : chunk.type <;>
          simp only [hType, Profile.isRaid56, true_and,
            Bool.true_eq_false, false_and] at hWrite <;>
          simp [stripePlan, hType, hWrite]
      simp only [hPlan]
    have hOne := chunk.one_le_copies
    have hPick : 1 ≤ chunk.pickMirror offset mirror ∧
        chunk.pickMirror offset mirror ≤
          copies chunk.toMapLookup := by
      by_cases hZero : mirror = 0
      · have hPlain : chunk.PlainMirror mirror :=
          ⟨hCopies, fun _ => by omega⟩
        have hData := chunk.pickMirror_data hPlain offset
        exact ⟨hData.1, hData.2.1⟩
      · unfold Chunk.pickMirror
        rw [if_neg hZero]
        omega
    rw [hRead, chunk.mapBlockIn_read hPick.1 hPick.2] at hMap
    cases hMap
    refine ⟨rfl, ?_⟩
    intro s hs
    rw [List.mem_singleton] at hs
    exact ⟨_, hPick.1, hPick.2, hs⟩

/- A byte of a full stripe stands for the bytes of the row. -/
theorem stands_of_fullStripe
    (hFits : chunk.FullFits)
    (hParity : chunk.type.isRaid56 = true)
    {logical : Nat}
    (hHolds : chunk.Holds logical)
    (k : Nat)
    {s : BioStripe}
    (hDev :
      (chunk.fullStripeAt (logical - chunk.start) k).dev =
        s.dev)
    (hFrom :
      (chunk.fullStripeAt (logical - chunk.start)
        k).physical ≤ s.physical)
    (hTo :
      s.physical <
        (chunk.fullStripeAt (logical - chunk.start)
          k).physical + chunk.stripeLen) :
    ∃ index depth, chunk.Stands logical index depth ∧
      stripeAt chunk.toMapLookup index depth = s := by
  have hInside := chunk.row_fits hHolds.offset_lt
  have hPos := chunk.stripeLen_pos
  have hIndex := chunk.raidIndex_lt
    (rowOf chunk.toMapLookup (logical - chunk.start)) k
  rw [Nat.succ_mul] at hInside
  unfold Chunk.fullStripeAt stripeAt at hDev hFrom hTo
  dsimp only at hDev hFrom hTo
  let first :=
    (chunk.stripes.getD (raidIndex chunk.toMapLookup
      (rowOf chunk.toMapLookup (logical - chunk.start)) k)
      ⟨0, 0⟩).physical
  have hRow : (s.physical - first) / chunk.stripeLen =
      rowOf chunk.toMapLookup (logical - chunk.start) := by
    rw [Nat.div_eq_iff hPos]
    omega
  refine ⟨_, s.physical - first,
    chunk.stands_row hFits hParity hHolds hIndex (by omega)
      hRow, ?_⟩
  unfold stripeAt
  dsimp only
  rw [hDev]
  congr 1
  omega

/- A request goes to what stands for its logical byte. -/
theorem stands_of_goesTo
    (hOrdered : RangeTree.Ordered mapTree)
    (hChunk : chunk.toMapLookup ∈ mapTree)
    (hFits : chunk.FullFits)
    {logical : Nat}
    (hHolds : chunk.Holds logical)
    {rw : Rw}
    {mirror : Nat}
    {raidMapRet : Bool}
    (hCopies : mirror ≤ copies chunk.toMapLookup)
    {r : MapResult}
    (hMap :
      mapBlock mapTree rw logical mirror raidMapRet = .ok r)
    {s : BioStripe}
    (hGoes : GoesTo r s) :
    ∃ index depth, chunk.Stands logical index depth ∧
      stripeAt chunk.toMapLookup index depth = s := by
  have hOffset := hHolds.offset_lt
  rw [mapBlock_eq hOrdered hChunk hHolds] at hMap
  by_cases hFull : chunk.type.isRaid56 = true ∧
      (rw = .WRITE ∨ 1 < mirror) ∧ raidMapRet = true
  · rcases hFull with ⟨hParity, hAll, rfl⟩
    rw [chunk.mapBlockIn_raidMap hParity hAll hOffset
      (hFits.findsRow hParity _)] at hMap
    cases hMap
    rcases hGoes with ⟨t, ht, hDev, hFrom, hTo⟩
    rcases List.mem_map.mp ht with ⟨k, _, rfl⟩
    exact stands_of_fullStripe chunk hFits hParity hHolds k
      hDev hFrom hTo
  · rcases mirrors_of_mapBlockIn chunk hCopies hFull hMap with
      ⟨hNone, hMirrors⟩
    unfold GoesTo at hGoes
    rw [hNone] at hGoes
    rcases hMirrors s hGoes with ⟨m, hMirror, hCopy, rfl⟩
    refine ⟨_, _, ?_, rfl⟩
    cases hParity : chunk.type.isRaid56 with
    | false =>
        exact chunk.stands_mirror hParity hHolds hMirror hCopy
    | true =>
        exact chunk.stands_row hFits hParity hHolds
          (chunk.mirror_place_lt _ hMirror hCopy)
          (chunk.depthOf_lt hOffset) (chunk.depthOf_div _)

end Supers

----------
-- The Group
----------

/- A byte from 64K on that no extent holds. -/
def Unallocated
    (space : Space)
    (x : Nat) : Prop :=
  SUPER_INFO_OFFSET ≤ x ∧
    ¬ Allocated space.leafsize
      (space.items.map ExtentEntry.key) x

instance
    (space : Space)
    (x : Nat) :
    Decidable (Unallocated space x) := by
  unfold Unallocated
  infer_instance

/-
  What is marked in a group that is read: what was marked and
  what is not allocated, less the superblock stripes.
-/
theorem cacheBlockGroup_marked
    {space : Space}
    (hOk : space.Ok)
    {group : BlockGroup}
    (hGroup : group ∈ space.groups)
    (hNew : group.cached = false)
    (hTurn :
      InTurn space.leafsize
        (space.items.map ExtentEntry.key))
    (hNone :
      NoneAcross space.leafsize
        (max group.start SUPER_INFO_OFFSET)
        (space.items.map ExtentEntry.key)) :
    ∃ space',
      cacheBlockGroup space group = some space' ∧
      ∀ x, group.start ≤ x → x < group.end_ →
        (Marked space'.freeSpaceCache x ↔
          (Marked space.freeSpaceCache x ∨
            Unallocated space x) ∧
          ¬ Reserved
            (superStripes space.mapTree group.start) x) := by
  rcases hOk.groups group hGroup with
    ⟨chunk, hChunk, hStart, _, hFits⟩
  have hPos := superStripes_pos hOk.chunks hChunk hFits
  rw [hStart] at hPos
  rcases cacheGaps_exact (hOk.group_end hGroup)
    (items_keys_sorted hOk) hTurn hNone hOk.free with
    ⟨gaps, hGaps, hUniform, hMarked⟩
  rcases clearStripes_spec hPos hUniform with
    ⟨free, hFree, _, hLess⟩
  refine ⟨{ space with
      freeSpaceCache := free
      groups := space.groups.map fun g =>
        if g.start = group.start then
          { g with cached := true }
        else
          g }, ?_, ?_⟩
  · unfold cacheBlockGroup removeSbFromCache
    rw [hNew, if_neg Bool.false_ne_true, hGaps]
    dsimp only [Option.bind_eq_bind, Option.bind_some]
    rw [hFree]
    rfl
  · intro x hFrom hTo
    dsimp only
    rw [hLess x, hMarked x hTo]
    refine and_congr_left fun _ => or_congr_right ?_
    unfold Unallocated
    rw [Nat.max_le]
    exact and_congr_left fun _ => and_iff_right hFrom

/- A group with an extent and a tree block, not read yet. -/
def freshGroup : BlockGroup :=
  ⟨0, 1048576, 1, false, false⟩

def freshSpace : Space where
  mapTree := [firstChunk.toMapLookup]
  leafsize := 16384
  stripesize := 4096
  items := firstExtents.map fun key => ⟨key, 1⟩
  groups := [freshGroup]
  freeSpaceCache := []
  pinnedExtents := []
  extentIns := []

theorem freshSpace_ok :
    freshSpace.Ok where
  free := Uniform.nil _
  pinned := Uniform.nil _
  sorted := by decide
  chunks := ⟨by decide, by decide⟩
  groups := by
    intro g hg
    rw [List.mem_singleton.mp hg]
    exact ⟨firstChunk, by decide, rfl, rfl, by decide⟩

theorem far_dvd : 65536 ∣ 1048576 := by decide

theorem far_size :
    1048576 = chunkBytesByType .single 1048576 1 0 := rfl

theorem far_stripes : Profile.single.StripesOk 1 0 := rfl

theorem far_length :
    [(⟨1, 1048576⟩ : BioStripe)].length = 1 := rfl

theorem far_start : 0 + 1048576 ≤ RAID5_P_STRIPE := by decide

theorem far_physical :
    ∀ s ∈ [(⟨1, 1048576⟩ : BioStripe)],
      s.physical + 1048576 ≤ 2 ^ 64 := by
  decide

theorem far_disjoint :
    [(⟨1, 1048576⟩ : BioStripe)].Pairwise fun s t =>
      s.dev = t.dev →
        s.physical + 1048576 ≤ t.physical ∨
          t.physical + 1048576 ≤ s.physical :=
  List.pairwise_singleton _ _

/- The chunk of the group, away from the superblock. -/
def farChunk : Chunk where
  start := 0
  size := 1048576
  type := .single
  stripeLen := 65536
  numStripes := 1
  subStripes := 0
  stripes := [⟨1, 1048576⟩]
  calcSize := 1048576
  stripeLen_pos := raid10Example.stripeLen_pos
  stripeLen_dvd := far_dvd
  size_eq := far_size
  stripesOk := far_stripes
  stripes_length := far_length
  start_bound := far_start
  physical_bound := far_physical
  disjoint := far_disjoint

/- An extent from 48K to 80K. -/
def acrossSpace : Space where
  mapTree := [farChunk.toMapLookup]
  leafsize := 16384
  stripesize := 4096
  items := [⟨⟨49152, EXTENT_ITEM_KEY, 32768⟩, 1⟩]
  groups := [freshGroup]
  freeSpaceCache := []
  pinnedExtents := []
  extentIns := []

end ExtentTree

end BtrfsProgs
