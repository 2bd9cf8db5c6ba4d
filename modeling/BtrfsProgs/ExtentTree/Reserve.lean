import BtrfsProgs.Check.SpaceCacheVerify
import BtrfsProgs.ExtentIo.Uniform
import BtrfsProgs.ExtentTree.Alloc

/-
  What the allocator hands out.

  A range that is `Kept` has an extent item and is not in the
  free space, or is pinned.  Reading a group off the extent
  tree keeps such ranges out of the free space, and the search
  finds a range that meets none of them.

  Main declarations:
    * `Space.Ok` and `Kept`
    * `Searched`
    * `reserveExtent_spec`
-/

----------
-- Ranges Out of Reach
----------

namespace BtrfsProgs

namespace ExtentTree

open Check
open ExtentIo
open RangeTree
open Volumes

/- The maps the allocator works on are in order. -/
structure Space.Ok
    (space : Space) : Prop where
  free : Uniform EXTENT_DIRTY space.freeSpaceCache
  pinned : Uniform EXTENT_DIRTY space.pinnedExtents
  sorted :
    space.items.Pairwise fun a b =>
      a.key.objectid ≤ b.key.objectid
  chunks : Ordered space.mapTree
  groups :
    ∀ g ∈ space.groups,
      ∃ chunk : Chunk,
        chunk.toMapLookup ∈ space.mapTree ∧
          chunk.start = g.start ∧ chunk.size = g.size ∧
          chunk.FullFits

/- The key is that of the extent of `n` bytes at `b`. -/
def IsExtentOf
    (leafsize b n : Nat)
    (key : ExtentKey) : Prop :=
  key.IsExtent ∧ key.objectid = b ∧
    key.extentEnd leafsize = b + n

instance
    (leafsize b n : Nat)
    (key : ExtentKey) :
    Decidable (IsExtentOf leafsize b n key) := by
  unfold IsExtentOf
  infer_instance

/- No extent starts in the middle of the range. -/
def Apart
    (leafsize b n : Nat)
    (key : ExtentKey) : Prop :=
  key.IsExtent →
    IsExtentOf leafsize b n key ∨
      key.objectid < b ∨ b + n ≤ key.objectid

instance
    (leafsize b n : Nat)
    (key : ExtentKey) :
    Decidable (Apart leafsize b n key) := by
  unfold Apart
  infer_instance

/- A range that the allocator must not hand out. -/
structure Kept
    (space : Space)
    (b n : Nat) : Prop where
  apart :
    ∀ item ∈ space.items, Apart space.leafsize b n item.key
  group :
    ∀ g ∈ space.groups,
      g.start < b + n → b < g.end_ →
        max g.start SUPER_INFO_OFFSET ≤ b
  held :
    (∀ x, b ≤ x → x < b + n → Marked space.pinnedExtents x) ∨
      ((∃ item ∈ space.items,
          IsExtentOf space.leafsize b n item.key) ∧
        ∀ x, b ≤ x → x < b + n →
          ¬ Marked space.freeSpaceCache x)

/- What a search may change: the free space and `cached`. -/
structure Searched
    (s t : Space) : Prop where
  mapTree : t.mapTree = s.mapTree
  leafsize : t.leafsize = s.leafsize
  items : t.items = s.items
  pinned : t.pinnedExtents = s.pinnedExtents
  extentIns : t.extentIns = s.extentIns
  groups :
    ∀ g ∈ t.groups, ∃ h ∈ s.groups,
      h.start = g.start ∧ h.size = g.size
  groupsKept :
    ∀ g ∈ s.groups, ∃ h ∈ t.groups, h.end_ = g.end_
  ok : s.Ok → t.Ok
  kept : ∀ b n, s.Ok → Kept s b n → Kept t b n

theorem Searched.refl
    (s : Space) :
    Searched s s :=
  ⟨rfl, rfl, rfl, rfl, rfl,
    fun g hg => ⟨g, hg, rfl, rfl⟩, fun g hg => ⟨g, hg, rfl⟩,
    id, fun _ _ _ h => h⟩

theorem Searched.trans
    {s t u : Space}
    (hFirst : Searched s t)
    (hThen : Searched t u) :
    Searched s u where
  mapTree := hThen.mapTree.trans hFirst.mapTree
  leafsize := hThen.leafsize.trans hFirst.leafsize
  items := hThen.items.trans hFirst.items
  pinned := hThen.pinned.trans hFirst.pinned
  extentIns := hThen.extentIns.trans hFirst.extentIns
  groups := by
    intro g hg
    rcases hThen.groups g hg with ⟨h, hh, hStart, hSize⟩
    rcases hFirst.groups h hh with ⟨k, hk, hStart', hSize'⟩
    exact ⟨k, hk, hStart'.trans hStart, hSize'.trans hSize⟩
  groupsKept := by
    intro g hg
    rcases hFirst.groupsKept g hg with ⟨h, hh, hSame⟩
    rcases hThen.groupsKept h hh with ⟨k, hk, hSame'⟩
    exact ⟨k, hk, hSame'.trans hSame⟩
  ok := fun h => hThen.ok (hFirst.ok h)
  kept := fun b n h hKept =>
    hThen.kept b n (hFirst.ok h) (hFirst.kept b n h hKept)

----------
-- Changes to a Tree
----------

section Trees

variable {tree tree' : ExtentIoTree}

theorem setExtentDirty_marked
    (hTree : Uniform EXTENT_DIRTY tree)
    {start end_ : Nat}
    (hRange : start ≤ end_)
    (hTop : end_ < u64Max)
    (hSet : setExtentDirty tree start end_ = some tree') :
    Uniform EXTENT_DIRTY tree' ∧
      ∀ x, Marked tree' x ↔
        Marked tree x ∨ (start ≤ x ∧ x ≤ end_) := by
  rcases hTree.setExtentBits EXTENT_DIRTY_ne_zero hRange hTop
    with ⟨t, ht, hUniform, hMarked⟩
  unfold setExtentDirty at hSet
  rw [ht] at hSet
  cases hSet
  exact ⟨hUniform, hMarked⟩

theorem clearExtentDirty_marked
    (hTree : Uniform EXTENT_DIRTY tree)
    {start end_ : Nat}
    (hRange : start ≤ end_)
    (hClear : clearExtentDirty tree start end_ = some tree') :
    Uniform EXTENT_DIRTY tree' ∧
      ∀ x, Marked tree' x ↔
        Marked tree x ∧ ¬ (start ≤ x ∧ x ≤ end_) := by
  rcases hTree.clearExtentBits EXTENT_DIRTY_ne_zero hRange
    with ⟨found, t, ht, hUniform, hMarked⟩
  unfold clearExtentDirty at hClear
  rw [ht] at hClear
  cases hClear
  exact ⟨hUniform, hMarked⟩

/- Taking superblock stripes out takes out their bytes. -/
theorem clearStripes_spec
    {stripes : List (Nat × Nat)}
    (hPos : ∀ s ∈ stripes, 0 < s.2)
    (hTree : Uniform EXTENT_DIRTY tree) :
    ∃ tree',
      stripes.foldlM
        (fun free (stripe : Nat × Nat) =>
          clearExtentDirty free stripe.1
            (stripe.1 + stripe.2 - 1)) tree = some tree' ∧
      Uniform EXTENT_DIRTY tree' ∧
      ∀ x, Marked tree' x ↔
        Marked tree x ∧ ¬ Reserved stripes x := by
  induction stripes generalizing tree with
  | nil =>
      refine ⟨tree, rfl, hTree, ?_⟩
      intro x
      simp [Reserved]
  | cons stripe stripes ih =>
      have hLen := hPos stripe List.mem_cons_self
      rcases hTree.clearExtentBits EXTENT_DIRTY_ne_zero
        (show stripe.1 ≤ stripe.1 + stripe.2 - 1 by omega) with
        ⟨found, next, hClear, hNext, hMarked⟩
      rcases ih (fun s hs => hPos s (List.mem_cons_of_mem _ hs))
        hNext with ⟨tree', hRest, hUniform, hLess⟩
      have hFirst : clearExtentDirty tree stripe.1
          (stripe.1 + stripe.2 - 1) = some next := by
        unfold clearExtentDirty
        rw [hClear]
        rfl
      refine ⟨tree', ?_, hUniform, ?_⟩
      · rw [List.foldlM_cons, hFirst]
        exact hRest
      · intro x
        rw [hLess x, hMarked x]
        unfold Reserved
        simp only [List.mem_cons, exists_eq_or_imp, not_or]
        constructor
        · intro hIn
          exact ⟨hIn.1.1, by omega, hIn.2⟩
        · intro hIn
          exact ⟨⟨hIn.1, by omega⟩, hIn.2.2⟩

end Trees

----------
-- Reading a Group
----------

section Keys

variable {keys : List ExtentKey}
variable {low : Nat}

/- The search for `low` leaves the keys from there on. -/
theorem objectid_of_mem_dropWhile
    (hSorted :
      keys.Pairwise fun a b => a.objectid ≤ b.objectid) :
    ∀ key ∈ keys.dropWhile fun key => key.objectid < low,
      low ≤ key.objectid := by
  induction keys with
  | nil => simp
  | cons k keys ih =>
      rcases List.pairwise_cons.mp hSorted with
        ⟨hFirst, hRest⟩
      intro key hKey
      rw [List.dropWhile_cons] at hKey
      split at hKey
      case isTrue => exact ih hRest key hKey
      case isFalse hStop =>
        have hLow : low ≤ k.objectid := by simpa using hStop
        rcases List.mem_cons.mp hKey with rfl | hKey
        · exact hLow
        · exact hLow.trans (hFirst key hKey)

theorem mem_dropWhile_of_le
    {key : ExtentKey}
    (hKey : key ∈ keys)
    (hLow : low ≤ key.objectid) :
    key ∈ keys.dropWhile fun key => key.objectid < low := by
  induction keys with
  | nil => cases hKey
  | cons k keys ih =>
      rw [List.dropWhile_cons]
      rcases List.mem_cons.mp hKey with rfl | hKey
      · rw [if_neg (by simpa using hLow)]
        exact List.mem_cons_self
      · split
        · exact ih hKey
        · exact List.mem_cons_of_mem _ hKey

end Keys

section Gaps

variable {leafsize : Nat}
variable {group : BlockGroup}

/- What is marked new lies in the group behind `low`. -/
theorem cacheLoop_within
    (hTop : group.end_ < u64Max)
    {low last last' : Nat}
    (hLow : low ≤ last)
    {keys : List ExtentKey}
    (hKeys : ∀ key ∈ keys, low ≤ key.objectid)
    {tree tree' : ExtentIoTree}
    (hTree : Uniform EXTENT_DIRTY tree)
    (hLoop :
      cacheLoop leafsize group keys last tree =
        some (last', tree')) :
    low ≤ last' ∧ Uniform EXTENT_DIRTY tree' ∧
      ∀ x, Marked tree' x →
        Marked tree x ∨ (low ≤ x ∧ x < group.end_) := by
  induction keys generalizing last tree with
  | nil =>
      cases hLoop
      exact ⟨hLow, hTree, fun _ h => Or.inl h⟩
  | cons key keys ih =>
      have hKey := hKeys key List.mem_cons_self
      have hRest : ∀ k ∈ keys, low ≤ k.objectid :=
        fun k hk => hKeys k (List.mem_cons_of_mem _ hk)
      unfold cacheLoop at hLoop
      split_ifs at hLoop with hBefore hBehind hExtent hGap
      · exact ih hLow hRest hTree hLoop
      · cases hLoop
        exact ⟨hLow, hTree, fun _ h => Or.inl h⟩
      · rcases Option.bind_eq_some_iff.mp hLoop with
          ⟨next, hSet, hLoop⟩
        rcases setExtentDirty_marked hTree (by omega) (by omega)
          hSet with ⟨hNext, hMarked⟩
        have hEnd : low ≤ key.extentEnd leafsize := by
          unfold ExtentKey.extentEnd
          split <;> omega
        rcases ih hEnd hRest hNext hLoop with
          ⟨hLast, hUniform, hNew⟩
        refine ⟨hLast, hUniform, ?_⟩
        intro x hx
        rcases hNew x hx with h | h
        · rcases (hMarked x).mp h with h | h
          · exact Or.inl h
          · exact Or.inr (by omega)
        · exact Or.inr h
      · have hEnd : low ≤ key.extentEnd leafsize := by
          unfold ExtentKey.extentEnd
          split <;> omega
        exact ih hEnd hRest hTree hLoop
      · exact ih hLow hRest hTree hLoop

/-
  Behind an extent all gaps are behind it, as no extent starts
  in its middle.
-/
theorem cacheLoop_behind
    (hTop : group.end_ < u64Max)
    {low last last' : Nat}
    (hLow : low ≤ last)
    {keys : List ExtentKey}
    (hKeys :
      ∀ key ∈ keys, key.IsExtent →
        low ≤ key.extentEnd leafsize)
    {tree tree' : ExtentIoTree}
    (hTree : Uniform EXTENT_DIRTY tree)
    (hLoop :
      cacheLoop leafsize group keys last tree =
        some (last', tree')) :
    low ≤ last' ∧
      ∀ x, Marked tree' x → Marked tree x ∨ low ≤ x := by
  induction keys generalizing last tree with
  | nil =>
      cases hLoop
      exact ⟨hLow, fun _ h => Or.inl h⟩
  | cons key keys ih =>
      have hRest : ∀ k ∈ keys, k.IsExtent →
          low ≤ k.extentEnd leafsize :=
        fun k hk => hKeys k (List.mem_cons_of_mem _ hk)
      unfold cacheLoop at hLoop
      split_ifs at hLoop with hBefore hBehind hExtent hGap
      · exact ih hLow hRest hTree hLoop
      · cases hLoop
        exact ⟨hLow, fun _ h => Or.inl h⟩
      · rcases Option.bind_eq_some_iff.mp hLoop with
          ⟨next, hSet, hLoop⟩
        rcases setExtentDirty_marked hTree (by omega) (by omega)
          hSet with ⟨hNext, hMarked⟩
        rcases ih (hKeys key List.mem_cons_self hExtent) hRest
          hNext hLoop with ⟨hLast, hNew⟩
        refine ⟨hLast, ?_⟩
        intro x hx
        rcases hNew x hx with h | h
        · rcases (hMarked x).mp h with h | h
          · exact Or.inl h
          · exact Or.inr (by omega)
        · exact Or.inr h
      · exact ih (hKeys key List.mem_cons_self hExtent) hRest
          hTree hLoop
      · exact ih hLow hRest hTree hLoop

/- No gap meets an extent that is ahead. -/
theorem cacheLoop_ahead
    (hTop : group.end_ < u64Max)
    {b n last last' : Nat}
    {keys : List ExtentKey}
    (hSorted :
      keys.Pairwise fun a b => a.objectid ≤ b.objectid)
    (hApart : ∀ key ∈ keys, Apart leafsize b n key)
    (hStart : group.start ≤ b)
    (hAhead : ∃ key ∈ keys, IsExtentOf leafsize b n key)
    {tree tree' : ExtentIoTree}
    (hTree : Uniform EXTENT_DIRTY tree)
    (hLoop :
      cacheLoop leafsize group keys last tree =
        some (last', tree')) :
    (b + n ≤ last' ∨ group.end_ ≤ b) ∧
      ∀ x, Marked tree' x →
        Marked tree x ∨ x < b ∨ b + n ≤ x := by
  induction keys generalizing last tree with
  | nil => simp at hAhead
  | cons key keys ih =>
      have hFirst := (List.pairwise_cons.mp hSorted).1
      have hSortedRest := (List.pairwise_cons.mp hSorted).2
      have hApartRest : ∀ k ∈ keys, Apart leafsize b n k :=
        fun k hk => hApart k (List.mem_cons_of_mem _ hk)
      have hKeyLe : key.objectid ≤ b := by
        rcases hAhead with ⟨k, hk, _, hAt, _⟩
        rcases List.mem_cons.mp hk with rfl | hk
        · exact hAt.le
        · exact (hFirst k hk).trans hAt.le
      -- the extent is the first key, or it stays ahead
      by_cases hHere : IsExtentOf leafsize b n key
      · rcases hHere with ⟨hExtent, hAt, hEnd⟩
        have hLater : ∀ k ∈ keys, k.IsExtent →
            b + n ≤ k.extentEnd leafsize := by
          intro k hk hIs
          rcases hApartRest k hk hIs with h | h | h
          · exact h.2.2.ge
          · have := hFirst k hk
            omega
          · unfold ExtentKey.extentEnd
            split <;> omega
        unfold cacheLoop at hLoop
        rw [if_neg (by omega)] at hLoop
        split_ifs at hLoop with hBehind hGap
        · cases hLoop
          exact ⟨Or.inr (by omega), fun _ h => Or.inl h⟩
        · rcases Option.bind_eq_some_iff.mp hLoop with
            ⟨next, hSet, hLoop⟩
          rcases setExtentDirty_marked hTree (by omega)
            (by omega) hSet with ⟨hNext, hMarked⟩
          rcases cacheLoop_behind hTop hEnd.ge hLater hNext
            hLoop with ⟨hLast, hNew⟩
          refine ⟨Or.inl hLast, ?_⟩
          intro x hx
          rcases hNew x hx with h | h
          · rcases (hMarked x).mp h with h | h
            · exact Or.inl h
            · exact Or.inr (Or.inl (by omega))
          · exact Or.inr (Or.inr h)
        · rcases cacheLoop_behind hTop hEnd.ge hLater hTree
            hLoop with ⟨hLast, hNew⟩
          refine ⟨Or.inl hLast, ?_⟩
          intro x hx
          rcases hNew x hx with h | h
          · exact Or.inl h
          · exact Or.inr (Or.inr h)
      · have hRest : ∃ k ∈ keys, IsExtentOf leafsize b n k := by
          rcases hAhead with ⟨k, hk, hIs⟩
          rcases List.mem_cons.mp hk with rfl | hk
          · exact absurd hIs hHere
          · exact ⟨k, hk, hIs⟩
        unfold cacheLoop at hLoop
        split_ifs at hLoop with hBefore hBehind hExtent hGap
        · exact ih hSortedRest hApartRest hRest hTree hLoop
        · cases hLoop
          exact ⟨Or.inr (by omega), fun _ h => Or.inl h⟩
        · rcases Option.bind_eq_some_iff.mp hLoop with
            ⟨next, hSet, hLoop⟩
          rcases setExtentDirty_marked hTree (by omega)
            (by omega) hSet with ⟨hNext, hMarked⟩
          rcases ih hSortedRest hApartRest hRest hNext hLoop
            with ⟨hLast, hNew⟩
          refine ⟨hLast, ?_⟩
          intro x hx
          rcases hNew x hx with h | h
          · rcases (hMarked x).mp h with h | h
            · exact Or.inl h
            · exact Or.inr (Or.inl (by omega))
          · exact Or.inr h
        · exact ih hSortedRest hApartRest hRest hTree hLoop
        · exact ih hSortedRest hApartRest hRest hTree hLoop

/- What is read off a group lies in it, from 64K on. -/
theorem cacheGaps_within
    (hTop : group.end_ < u64Max)
    {keys : List ExtentKey}
    (hSorted :
      keys.Pairwise fun a b => a.objectid ≤ b.objectid)
    {tree tree' : ExtentIoTree}
    (hTree : Uniform EXTENT_DIRTY tree)
    (hGaps :
      cacheGaps leafsize keys group tree = some tree') :
    Uniform EXTENT_DIRTY tree' ∧
      ∀ x, Marked tree' x →
        Marked tree x ∨
          (max group.start SUPER_INFO_OFFSET ≤ x ∧
            x < group.end_) := by
  unfold cacheGaps at hGaps
  rcases Option.bind_eq_some_iff.mp hGaps with
    ⟨⟨last, next⟩, hLoop, hTail⟩
  rcases cacheLoop_within hTop le_rfl
    (objectid_of_mem_dropWhile hSorted) hTree hLoop with
    ⟨hLast, hNext, hNew⟩
  simp only at hTail
  split_ifs at hTail with hMore
  · rcases setExtentDirty_marked hNext (by omega) (by omega)
      hTail with ⟨hUniform, hMarked⟩
    refine ⟨hUniform, ?_⟩
    intro x hx
    rcases (hMarked x).mp hx with h | h
    · exact hNew x h
    · exact Or.inr (by omega)
  · cases hTail
    exact ⟨hNext, hNew⟩

/- What is read off a group does not meet an extent. -/
theorem cacheGaps_apart
    (hTop : group.end_ < u64Max)
    {b n : Nat}
    {keys : List ExtentKey}
    (hSorted :
      keys.Pairwise fun a b => a.objectid ≤ b.objectid)
    (hApart : ∀ key ∈ keys, Apart leafsize b n key)
    (hExtent : ∃ key ∈ keys, IsExtentOf leafsize b n key)
    (hStart : max group.start SUPER_INFO_OFFSET ≤ b)
    {tree tree' : ExtentIoTree}
    (hTree : Uniform EXTENT_DIRTY tree)
    (hGaps :
      cacheGaps leafsize keys group tree = some tree')
    {x : Nat}
    (hMarked : Marked tree' x) :
    Marked tree x ∨ x < b ∨ b + n ≤ x := by
  unfold cacheGaps at hGaps
  rcases Option.bind_eq_some_iff.mp hGaps with
    ⟨⟨last, next⟩, hLoop, hTail⟩
  have hSub :=
    List.dropWhile_sublist (l := keys) fun key =>
      decide (key.objectid < max group.start SUPER_INFO_OFFSET)
  have hAhead :
      ∃ key ∈ keys.dropWhile fun key =>
          key.objectid < max group.start SUPER_INFO_OFFSET,
        IsExtentOf leafsize b n key := by
    rcases hExtent with ⟨key, hKey, hIs⟩
    refine ⟨key, mem_dropWhile_of_le hKey ?_, hIs⟩
    exact hStart.trans hIs.2.1.ge
  have hNext : Uniform EXTENT_DIRTY next :=
    (cacheLoop_within hTop le_rfl
      (objectid_of_mem_dropWhile hSorted) hTree hLoop).2.1
  rcases cacheLoop_ahead hTop (hSorted.sublist hSub)
    (fun key h => hApart key (hSub.subset h))
    ((le_max_left _ _).trans hStart) hAhead hTree hLoop with
    ⟨hLast, hNew⟩
  simp only at hTail
  split_ifs at hTail with hMore
  · rcases (setExtentDirty_marked hNext (by omega) (by omega)
      hTail).2 x |>.mp hMarked with h | h
    · exact hNew x h
    · exact Or.inr (by omega)
  · cases hTail
    exact hNew x hMarked

end Gaps

variable {space : Space}

/- The end of a group is an address. -/
theorem Space.Ok.group_end
    (hOk : space.Ok)
    {group : BlockGroup}
    (hGroup : group ∈ space.groups) :
    group.end_ < u64Max := by
  rcases hOk.groups group hGroup with
    ⟨chunk, _, hStart, hSize, _⟩
  have hBound := chunk.start_bound
  unfold BlockGroup.end_
  rw [hStart, hSize] at hBound
  unfold RAID5_P_STRIPE at hBound
  unfold u64Max
  omega

theorem items_keys_sorted
    (hOk : space.Ok) :
    (space.items.map ExtentEntry.key).Pairwise
      fun a b => a.objectid ≤ b.objectid :=
  List.pairwise_map.mpr hOk.sorted

/-
  `cache_block_group` in one lemma: the gaps, less the
  superblock stripes.
-/
theorem cacheBlockGroup_searched
    {space space' : Space}
    {group : BlockGroup}
    (hGroup : group ∈ space.groups)
    (hCache : cacheBlockGroup space group = some space') :
    Searched space space' := by
  unfold cacheBlockGroup at hCache
  split at hCache
  case isTrue =>
    cases hCache
    exact Searched.refl space
  case isFalse =>
    rcases Option.bind_eq_some_iff.mp hCache with
      ⟨gaps, hGaps, hCache⟩
    rcases Option.bind_eq_some_iff.mp hCache with
      ⟨free, hFree, hCache⟩
    cases hCache
    have hGroups :
        ∀ g ∈ space.groups.map (fun g =>
            if g.start = group.start then
              { g with cached := true }
            else g),
          ∃ h ∈ space.groups,
            h.start = g.start ∧ h.size = g.size := by
      intro g hg
      rcases List.mem_map.mp hg with ⟨h, hh, rfl⟩
      refine ⟨h, hh, ?_⟩
      split
      · exact ⟨rfl, rfl⟩
      · exact ⟨rfl, rfl⟩
    have hGroupsKept :
        ∀ g ∈ space.groups,
          ∃ h ∈ space.groups.map (fun g =>
              if g.start = group.start then
                { g with cached := true }
              else g),
            h.end_ = g.end_ := by
      intro g hg
      refine ⟨_, List.mem_map_of_mem hg, ?_⟩
      split
      · rfl
      · rfl
    have hTrees : space.Ok →
        Uniform EXTENT_DIRTY gaps ∧
          Uniform EXTENT_DIRTY free ∧
            ∀ x, Marked free x → Marked gaps x := by
      intro hOk
      rcases hOk.groups group hGroup with
        ⟨chunk, hChunk, hStart, _, hFits⟩
      have hUniform :=
        (cacheGaps_within (hOk.group_end hGroup)
          (items_keys_sorted hOk) hOk.free hGaps).1
      have hPos := superStripes_pos hOk.chunks hChunk hFits
      rw [hStart] at hPos
      rcases clearStripes_spec hPos hUniform with
        ⟨tree', hClear, hTree, hLess⟩
      unfold removeSbFromCache at hFree
      rw [hFree] at hClear
      cases hClear
      exact ⟨hUniform, hTree, fun x h => ((hLess x).mp h).1⟩
    refine ⟨rfl, rfl, rfl, rfl, rfl, hGroups, hGroupsKept,
      ?_, ?_⟩
    · intro hOk
      refine ⟨(hTrees hOk).2.1, hOk.pinned, hOk.sorted,
        hOk.chunks, ?_⟩
      intro g hg
      rcases hGroups g hg with ⟨h, hh, hStart, hSize⟩
      rcases hOk.groups h hh with
        ⟨chunk, hChunk, hs, hz, hFits⟩
      exact ⟨chunk, hChunk, hs.trans hStart, hz.trans hSize,
        hFits⟩
    · intro b n hOk hKept
      refine ⟨hKept.apart, ?_, ?_⟩
      · intro g hg hLow hHigh
        rcases hGroups g hg with ⟨h, hh, hStart, hSize⟩
        unfold BlockGroup.end_ at hHigh
        rw [← hStart] at hLow hHigh ⊢
        rw [← hSize] at hHigh
        exact hKept.group h hh hLow hHigh
      · rcases hKept.held with hPinned | ⟨hItem, hNot⟩
        · exact Or.inl hPinned
        · refine Or.inr ⟨hItem, ?_⟩
          intro x hLow hHigh hMarked
          have hGap := (hTrees hOk).2.2 x hMarked
          have hTop := hOk.group_end hGroup
          have hSorted := items_keys_sorted hOk
          rcases (cacheGaps_within hTop hSorted hOk.free
            hGaps).2 x hGap with h | ⟨hFrom, hTo⟩
          · exact hNot x hLow hHigh h
          -- the group meets the range, so holds it
          have hStart := hKept.group group hGroup (by omega)
            (by omega)
          have hExtent :
              ∃ key ∈ space.items.map ExtentEntry.key,
                IsExtentOf space.leafsize b n key := by
            rcases hItem with ⟨item, hMem, hIs⟩
            exact ⟨_, List.mem_map_of_mem hMem, hIs⟩
          have hApart :
              ∀ key ∈ space.items.map ExtentEntry.key,
                Apart space.leafsize b n key := by
            intro key hKey
            rcases List.mem_map.mp hKey with ⟨item, hMem, rfl⟩
            exact hKept.apart item hMem
          rcases cacheGaps_apart hTop hSorted hApart hExtent
            hStart hOk.free hGaps hGap with h | h
          · exact hNot x hLow hHigh h
          · omega

----------
-- The Search
----------

/- A place in a group starts a run of free bytes. -/
theorem searchGroup_free
    {free : ExtentIoTree}
    {num groupEnd fuel last start : Nat}
    (hSearch :
      searchGroup free num groupEnd fuel last = some start) :
    ∀ x, start ≤ x → x < start + num → Marked free x := by
  induction fuel generalizing last with
  | zero => cases hSearch
  | succ fuel ih =>
      unfold searchGroup at hSearch
      split at hSearch
      case h_1 => cases hSearch
      case h_2 lo hi hFind =>
        rcases findFirstExtentBit_marked hFind with
          ⟨hReach, hMarked⟩
        simp only at hSearch
        split_ifs at hSearch with hShort hOut
        · exact ih hSearch
        · cases hSearch
          intro x hLow hHigh
          exact hMarked x (by omega) (by omega)

theorem lookupFirstBlockGroup_mem
    {bytenr : Nat}
    {group : BlockGroup}
    (hLookup :
      lookupFirstBlockGroup space bytenr = some group) :
    group ∈ space.groups :=
  List.mem_of_find?_eq_some hLookup

/- `out:` is not left with a place. -/
theorem searchOut_ne_found
    (space : Space)
    (searchStart last : Nat)
    (group : BlockGroup)
    (start : Nat) :
    searchOut space searchStart last ≠ .found group start := by
  unfold searchOut
  split
  · nofun
  · nofun

/- `find_search_start`: what it finds is free. -/
theorem findSearchStartLoop_spec
    {searchStart num fuel : Nat}
    {data : BitVec 64}
    {space space' : Space}
    {cache : BlockGroup}
    {wrapped : Bool}
    {result : SearchEnd}
    (hCache : cache ∈ space.groups)
    (hLoop :
      findSearchStartLoop searchStart num data fuel space
        cache wrapped = some (space', result)) :
    Searched space space' ∧
      ∀ group start,
        result = .found group start →
          (∃ g ∈ space'.groups, g.end_ = group.end_) ∧
          ∀ x, start ≤ x → x < start + num →
            Marked space'.freeSpaceCache x := by
  induction fuel generalizing space cache wrapped with
  | zero => cases hLoop
  | succ fuel ih =>
      unfold findSearchStartLoop at hLoop
      rcases Option.bind_eq_some_iff.mp hLoop with
        ⟨next, hNext, hLoop⟩
      have hSearched := cacheBlockGroup_searched hCache hNext
      simp only at hLoop
      split at hLoop
      case h_1 start hPlace =>
        cases hLoop
        refine ⟨hSearched, ?_⟩
        intro group start' hFound
        cases hFound
        split_ifs at hPlace
        exact ⟨hSearched.groupsKept cache hCache,
          searchGroup_free hPlace⟩
      case h_2 hPlace =>
        split at hLoop
        case h_1 group hLookup =>
          rcases ih (lookupFirstBlockGroup_mem hLookup) hLoop
            with ⟨hRest, hFound⟩
          exact ⟨hSearched.trans hRest, hFound⟩
        case h_2 hLookup =>
          split_ifs at hLoop with hWrapped
          · cases hLoop
            refine ⟨hSearched, ?_⟩
            intro group start hFound
            exact absurd hFound
              (searchOut_ne_found _ _ _ _ _)
          · split at hLoop
            case h_1 =>
              cases hLoop
              refine ⟨hSearched, ?_⟩
              intro group start hFound
              exact absurd hFound
                (searchOut_ne_found _ _ _ _ _)
            case h_2 group hLookup =>
              rcases ih (lookupFirstBlockGroup_mem hLookup)
                hLoop with ⟨hRest, hFound⟩
              exact ⟨hSearched.trans hRest, hFound⟩

theorem asInt_of_lt
    {v : Nat}
    (hSmall : v < 2 ^ 31) :
    asInt v = v := by
  unfold asInt
  rw [Nat.mod_eq_of_lt (by omega), if_pos hSmall]

/- A request whose size is an `int`, as for a tree block. -/
structure Request.Ok
    (req : Request) : Prop where
  pos : 0 < req.numBytes
  small : req.numBytes + req.emptySize < 2 ^ 31

/- A place that passes the checks. -/
structure Place
    (space : Space)
    (req : Request)
    (start : Nat) : Prop where
  free :
    ∀ x, start ≤ x → x < start + req.numBytes →
      Marked space.freeSpaceCache x
  notPinned :
    space.Ok →
      ∀ x, start ≤ x → x < start + req.numBytes →
        ¬ Marked space.pinnedExtents x
  inGroup :
    ∃ g ∈ space.groups, start + req.numBytes ≤ g.end_

theorem findSearchStart_spec
    {space space' : Space}
    {cache : Option BlockGroup}
    {searchStart totalNeeded : Nat}
    {data : BitVec 64}
    {result : SearchEnd}
    (hCache : ∀ g, cache = some g → g ∈ space.groups)
    (hFind :
      findSearchStart space cache searchStart totalNeeded
        data = some (space', result)) :
    Searched space space' ∧
      ∀ group start,
        result = .found group start →
          (∃ g ∈ space'.groups, g.end_ = group.end_) ∧
          ∀ x, start ≤ x → x < start + asInt totalNeeded →
            Marked space'.freeSpaceCache x := by
  unfold findSearchStart at hFind
  cases cache with
  | none =>
      cases hFind
      refine ⟨Searched.refl space, ?_⟩
      intro group start hFound
      exact absurd hFound
        (searchOut_ne_found _ _ _ _ _)
  | some cache =>
      exact findSearchStartLoop_spec (hCache cache rfl) hFind

variable {req : Request}

/- The checks let only a good place through. -/
theorem checkPlace_place
    {group : BlockGroup}
    {start num : Nat}
    (hNum : req.numBytes ≤ num)
    (hEnd : ∃ g ∈ space.groups, g.end_ = group.end_)
    (hFree :
      ∀ x, start ≤ x → x < start + num →
        Marked space.freeSpaceCache x)
    (hCheck : checkPlace space req group start = none) :
    Place space req start := by
  unfold checkPlace at hCheck
  split_ifs at hCheck with hGroup hIns hPinned
  refine ⟨?_, ?_, ?_⟩
  · intro x hLow hHigh
    exact hFree x hLow (by omega)
  · intro hOk x hLow hHigh
    exact hOk.pinned.testRangeBit EXTENT_DIRTY_ne_zero
      (by simpa using hPinned) hLow (by omega)
  · rcases hEnd with ⟨g, hg, hSame⟩
    exact ⟨g, hg, by omega⟩

theorem groupAt_mem
    {pick : Option Nat}
    {group : BlockGroup}
    (hAt : groupAt space pick = some group) :
    group ∈ space.groups := by
  rcases Option.bind_eq_some_iff.mp hAt with ⟨start, _, h⟩
  exact List.mem_of_find?_eq_some h

/- The groups that are tried are groups of the filesystem. -/
theorem tried_mem
    {pick : Option Nat}
    {first second : Nat}
    {group : BlockGroup}
    (hTried :
      ((groupAt space pick <|>
        lookupFirstBlockGroup space first) <|>
          lookupFirstBlockGroup space second) = some group) :
    group ∈ space.groups := by
  cases hAt : groupAt space pick with
  | some g =>
      simp only [hAt, Option.orElse_eq_orElse,
        Option.orElse_some] at hTried
      cases hTried
      exact groupAt_mem hAt
  | none =>
      cases hFirst : lookupFirstBlockGroup space first with
      | some g =>
          simp only [hAt, hFirst, Option.orElse_eq_orElse,
            Option.orElse_some, Option.orElse_none] at hTried
          cases hTried
          exact lookupFirstBlockGroup_mem hFirst
      | none =>
          simp only [hAt, hFirst, Option.orElse_eq_orElse,
            Option.orElse_none] at hTried
          exact lookupFirstBlockGroup_mem hTried

/-
  `find_free_extent`.  `empty_size` is taken off at most once,
  so the search always asks for the whole extent.
-/
theorem findFreeExtentLoop_spec
    (hReq : req.Ok)
    {picks : List (Option Nat)}
    {space space' : Space}
    {searchStart totalNeeded : Nat}
    {wrapped fullScan : Bool}
    {result : FindEnd}
    (hNeeded :
      totalNeeded = req.numBytes + req.emptySize ∨
        (fullScan = true ∧ totalNeeded = req.numBytes))
    (hLoop :
      findFreeExtentLoop req picks space searchStart
        totalNeeded wrapped fullScan = some (space', result)) :
    Searched space space' ∧
      ∀ start, result = .found start →
        Place space' req start := by
  induction picks generalizing space searchStart totalNeeded
    wrapped fullScan with
  | nil => cases hLoop
  | cons pick picks ih =>
      unfold findFreeExtentLoop at hLoop
      rcases Option.bind_eq_some_iff.mp hLoop with
        ⟨⟨next, place⟩, hFind, hLoop⟩
      rcases findSearchStart_spec (fun g hg => tried_mem hg)
        hFind with ⟨hSearched, hFound⟩
      have hSmall := hReq.small
      have hNum : req.numBytes ≤ asInt totalNeeded := by
        rw [asInt_of_lt (by omega)]
        omega
      simp only at hLoop
      split at hLoop
      case h_1 group start hCheck =>
        cases hLoop
        refine ⟨hSearched, ?_⟩
        intro start' hStart
        cases hStart
        rcases hFound group start rfl with ⟨hEnd, hFree⟩
        exact checkPlace_place hNum hEnd hFree hCheck
      case h_2 =>
        cases hLoop
        refine ⟨hSearched, ?_⟩
        intro start hStart
        cases hStart
      case h_3 =>
        split at hLoop
        case h_1 =>
          rcases ih hNeeded hLoop with ⟨hRest, hPlace⟩
          exact ⟨hSearched.trans hRest, hPlace⟩
        case h_2 =>
          split_ifs at hLoop with hFull hWrapped
          · cases hLoop
            refine ⟨hSearched, ?_⟩
            intro start hStart
            cases hStart
          · have hLess :
                totalNeeded - req.emptySize = req.numBytes := by
              rcases hNeeded with h | h
              · omega
              · exact absurd h.1 hFull
            rcases ih (Or.inr ⟨rfl, hLess⟩) hLoop with
              ⟨hRest, hPlace⟩
            exact ⟨hSearched.trans hRest, hPlace⟩
          · have hSame :
                totalNeeded =
                  req.numBytes + req.emptySize := by
              rcases hNeeded with h | h
              · exact h
              · exact absurd h.1 hFull
            rcases ih (Or.inl hSame) hLoop with
              ⟨hRest, hPlace⟩
            exact ⟨hSearched.trans hRest, hPlace⟩

----------
-- Reserving
----------

/- A place does not meet a range that is kept. -/
theorem Place.not_kept
    {start b n x : Nat}
    (hPlace : Place space req start)
    (hOk : space.Ok)
    (hKept : Kept space b n)
    (hx : start ≤ x ∧ x < start + req.numBytes) :
    ¬ (b ≤ x ∧ x < b + n) := by
  rintro ⟨hLow, hHigh⟩
  rcases hKept.held with hPinned | ⟨_, hNot⟩
  · exact hPlace.notPinned hOk x hx.1 hx.2
      (hPinned x hLow hHigh)
  · exact hNot x hLow hHigh (hPlace.free x hx.1 hx.2)

/- Less free space. -/
theorem Searched.takeFree
    {free : ExtentIoTree}
    (hUniform :
      space.Ok → Uniform EXTENT_DIRTY free ∧
        ∀ x, Marked free x → Marked space.freeSpaceCache x) :
    Searched space { space with freeSpaceCache := free } where
  mapTree := rfl
  leafsize := rfl
  items := rfl
  pinned := rfl
  extentIns := rfl
  groups := fun g hg => ⟨g, hg, rfl, rfl⟩
  groupsKept := fun g hg => ⟨g, hg, rfl⟩
  ok := fun hOk =>
    { hOk with free := (hUniform hOk).1 }
  kept := by
    intro b n hOk hKept
    refine ⟨hKept.apart, hKept.group, ?_⟩
    rcases hKept.held with hPinned | ⟨hItem, hNot⟩
    · exact Or.inl hPinned
    · refine Or.inr ⟨hItem, ?_⟩
      intro x hLow hHigh hMarked
      exact hNot x hLow hHigh ((hUniform hOk).2 x hMarked)

/-
  `btrfs_reserve_extent`: the range is in a group, meets no
  kept range and holds no pinned byte.
-/
theorem reserveExtent_spec
    (hReq : req.Ok)
    {picks : List (Option Nat)}
    {space space' : Space}
    {start : Nat}
    (hOk : space.Ok)
    (hReserve :
      reserveExtent req picks space = some (space', start)) :
    Searched space space' ∧
      start + req.numBytes < u64Max ∧
      (∀ x, start ≤ x → x < start + req.numBytes →
        ¬ Marked space.pinnedExtents x) ∧
      ∀ b n, Kept space b n →
        ∀ x, start ≤ x → x < start + req.numBytes →
          ¬ (b ≤ x ∧ x < b + n) := by
  unfold reserveExtent at hReserve
  rcases Option.bind_eq_some_iff.mp hReserve with
    ⟨⟨next, place⟩, hFind, hReserve⟩
  rcases Option.bind_eq_some_iff.mp hReserve with
    ⟨found, hFound, hReserve⟩
  rcases Option.bind_eq_some_iff.mp hReserve with
    ⟨free, hClear, hReserve⟩
  cases hReserve
  unfold findFreeExtent at hFind
  rcases findFreeExtentLoop_spec hReq (Or.inl rfl) hFind with
    ⟨hSearched, hPlace⟩
  have hGood := hPlace _ (FindEnd.start?_eq_some hFound)
  have hOkNext := hSearched.ok hOk
  have hPos := hReq.pos
  have hTake :
      next.Ok → Uniform EXTENT_DIRTY free ∧
        ∀ x, Marked free x → Marked next.freeSpaceCache x := by
    intro h
    rcases clearExtentDirty_marked h.free (by omega) hClear
      with ⟨hUniform, hMarked⟩
    exact ⟨hUniform, fun x hx => ((hMarked x).mp hx).1⟩
  refine ⟨hSearched.trans (Searched.takeFree hTake), ?_, ?_, ?_⟩
  · rcases hGood.inGroup with ⟨g, hg, hEnd⟩
    exact hEnd.trans_lt (hOkNext.group_end hg)
  · intro x hLow hHigh hPinned
    rw [← hSearched.pinned] at hPinned
    exact hGood.notPinned hOkNext x hLow hHigh hPinned
  · intro b n hKept x hLow hHigh
    exact hGood.not_kept hOkNext (hSearched.kept b n hOk hKept)
      ⟨hLow, hHigh⟩

end ExtentTree

end BtrfsProgs
