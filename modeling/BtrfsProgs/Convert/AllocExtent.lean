import BtrfsProgs.Convert.Coalesce
import BtrfsProgs.ExtentIo.Search
import BtrfsProgs.Lib.Loop

/-
  `custom_alloc_extent`, from `btrfs-convert.c`.

  Main declarations:
    * `Layout` and `Space`
    * `allocTurn` and `customAllocExtent`
    * `Ready`, `Usable` and `Given`
    * `customAllocExtent_right`
-/

----------
-- The Search
----------

namespace BtrfsProgs

namespace Convert

open ExtentIo

/- The block groups of a device, which they tile. -/
structure Layout where
  groups : List BlockGroup
  system : BlockGroup → Bool
  tiles : Tiles 0 groups

/- The byte is one of the group. -/
def BlockGroup.Has
    (g : BlockGroup)
    (x : Nat) : Prop :=
  g.start ≤ x ∧ x < g.start + g.length

instance
    (g : BlockGroup)
    (x : Nat) :
    Decidable (g.Has x) := by
  unfold BlockGroup.Has
  infer_instance

/- `btrfs_lookup_block_group`. -/
def Layout.lookupBlockGroup
    (layout : Layout)
    (bytenr : Nat) : Option BlockGroup :=
  layout.groups.find? fun g => g.Has bytenr

/- `free_space_cache` and `pinned_extents`. -/
structure Space where
  free : ExtentIoTree
  pinned : ExtentIoTree

/- What a call comes to. -/
inductive Allocated where
  | extent (start : Nat) (free : ExtentIoTree)
  | noSpace
  | bug

/-
  One turn of the loop of `custom_alloc_extent`, with `last`
  and whether the search has wrapped.
-/
def allocTurn
    (layout : Layout)
    (space : Space)
    (numBytes : Nat) :
    Nat × Bool → (Nat × Bool) ⊕ Allocated
  | (last, wrapped) =>
      match findFirstExtentBit space.free last EXTENT_DIRTY
        with
      | none =>
          if wrapped then .inr .noSpace else .inl (0, true)
      | some (lo, hi) =>
          let start := max last lo
          let last := hi + 1
          if last - start < numBytes then .inl (last, wrapped)
          else
            let last := start + numBytes
            if testRangeBit space.pinned start (last - 1)
                EXTENT_DIRTY false then .inl (last, wrapped)
            else
              match layout.lookupBlockGroup start with
              | none => .inr .bug
              | some cache =>
                  let cacheEnd := cache.start + cache.length
                  if layout.system cache ∨ cacheEnd < last then
                    .inl (cacheEnd, wrapped)
                  else
                    match clearExtentDirty space.free start
                        (start + numBytes - 1) with
                    | none => .inr .bug
                    | some free => .inr (.extent start free)

/- `custom_alloc_extent`, for some turns. -/
def customAllocExtent
    (layout : Layout)
    (space : Space)
    (numBytes hintByte : Nat)
    (fuel : Nat) : Option Allocated :=
  Loop.run (allocTurn layout space numBytes) fuel
    (hintByte, false)

----------
-- Groups
----------

theorem Layout.lookup_some
    {layout : Layout}
    {x : Nat}
    {g : BlockGroup}
    (hFound : layout.lookupBlockGroup x = some g) :
    g ∈ layout.groups ∧ g.Has x := by
  unfold Layout.lookupBlockGroup at hFound
  have hHas := List.find?_some hFound
  exact ⟨List.mem_of_find?_eq_some hFound,
    of_decide_eq_true hHas⟩

theorem Layout.lookup_none
    {layout : Layout}
    {x : Nat}
    (hNone : layout.lookupBlockGroup x = none) :
    ∀ g ∈ layout.groups, ¬ g.Has x := by
  intro g hG hHas
  have hNot := List.find?_eq_none.mp hNone g hG
  exact hNot (decide_eq_true hHas)

/- A byte is in one group only. -/
theorem Layout.group_unique
    (layout : Layout)
    {g h : BlockGroup}
    {x : Nat}
    (hG : g ∈ layout.groups)
    (hH : h ∈ layout.groups)
    (hInG : g.Has x)
    (hInH : h.Has x) :
    g = h := by
  unfold BlockGroup.Has at hInG hInH
  rcases tiles_apart layout.tiles hG hH with
    hSame | hBefore | hBehind
  · exact hSame
  · omega
  · omega

----------
-- What Is Handed Out
----------

/-
  Both trees are well formed, and the free bytes are in block
  groups, the first byte of the device not among them.
-/
structure Ready
    (layout : Layout)
    (space : Space) : Prop where
  free : Uniform EXTENT_DIRTY space.free
  pinned : Uniform EXTENT_DIRTY space.pinned
  pos : ∀ x, Marked space.free x → 0 < x
  inGroup :
    ∀ x, Marked space.free x → ∃ g ∈ layout.groups, g.Has x

/- The bytes of a range. -/
def InRange
    (start numBytes x : Nat) : Prop :=
  start ≤ x ∧ x < start + numBytes

/-
  A range that a call may hand out: free bytes of one state,
  none of them pinned, in a group that is not SYSTEM.
-/
structure Usable
    (layout : Layout)
    (space : Space)
    (numBytes start : Nat) : Prop where
  state :
    ∃ s ∈ space.free, s.start ≤ start ∧ start ≤ s.end_ ∧
      start + numBytes ≤ s.end_ + 1
  unpinned :
    ∀ x, InRange start numBytes x → ¬ Marked space.pinned x
  group :
    ∃ g ∈ layout.groups, layout.system g = false ∧
      g.Has start ∧ start + numBytes ≤ g.start + g.length

/- Such a range, and what is free without it. -/
structure Given
    (layout : Layout)
    (space : Space)
    (numBytes start : Nat)
    (free : ExtentIoTree) : Prop where
  usable : Usable layout space numBytes start
  uniform : Uniform EXTENT_DIRTY free
  marks :
    ∀ x, Marked free x ↔
      Marked space.free x ∧ ¬ InRange start numBytes x

/- No byte is free and pinned. -/
def Apart
    (space : Space) : Prop :=
  ∀ x, Marked space.free x → ¬ Marked space.pinned x

/- What each result says. -/
def Allocated.Right
    (layout : Layout)
    (space : Space)
    (numBytes : Nat) : Allocated → Prop
  | .extent start free =>
      Given layout space numBytes start free
  | .noSpace =>
      Apart space → ∀ start,
        ¬ Usable layout space numBytes start
  | .bug => False

section Turn

variable {layout : Layout}
variable {space : Space}
variable {numBytes last : Nat}
variable {wrapped : Bool}

/- After a wrap no usable range is behind the cursor. -/
def Passed
    (layout : Layout)
    (space : Space)
    (numBytes : Nat)
    (a : Nat × Bool) : Prop :=
  a.2 = true → Apart space → ∀ q,
    Usable layout space numBytes q → a.1 ≤ q

/- How much is left of a search. -/
def allocRank
    (a : Nat × Bool) : Nat :=
  (if a.2 then 0 else u64Max + 2) + (u64Max + 1 - a.1)

/- To clear a range, also an empty one. -/
theorem clearRange
    {start : Nat}
    (hReady : Ready layout space)
    (numBytes : Nat)
    (hStart : 0 < start) :
    ∃ free,
      clearExtentDirty space.free start
          (start + numBytes - 1) = some free ∧
        Uniform EXTENT_DIRTY free ∧
        ∀ x, Marked free x ↔
          Marked space.free x ∧ ¬ InRange start numBytes x := by
  unfold clearExtentDirty InRange
  by_cases hNone : numBytes = 0
  · rcases hReady.free.clear_none EXTENT_DIRTY_ne_zero hStart
      with ⟨found, free, hClear, hUniform, hMarks⟩
    refine ⟨free, ?_, hUniform, ?_⟩
    · rw [hNone, Nat.add_zero, hClear]
      rfl
    · intro x
      rw [hMarks x]
      constructor
      · exact fun hMarked => ⟨hMarked, by omega⟩
      · exact fun hBoth => hBoth.1
  · have hRange : start ≤ start + numBytes - 1 := by omega
    rcases hReady.free.clearExtentBits EXTENT_DIRTY_ne_zero
        hRange with ⟨found, free, hClear, hUniform, hMarks⟩
    refine ⟨free, ?_, hUniform, ?_⟩
    · rw [hClear]
      rfl
    · intro x
      rw [hMarks x]
      have hSame : (start ≤ x ∧ x ≤ start + numBytes - 1) ↔
          (start ≤ x ∧ x < start + numBytes) := by omega
      rw [hSame]

/- The state that is found, for a usable range ahead of it. -/
theorem Usable.behind
    {q lo hi : Nat}
    (hReady : Ready layout space)
    (hFind :
      findFirstExtentBit space.free last EXTENT_DIRTY =
        some (lo, hi))
    (hUsable : Usable layout space numBytes q)
    (hLast : last ≤ q) :
    max last lo ≤ q ∧
      (hi + 1 ≤ q ∨ q + numBytes ≤ hi + 1) := by
  rcases hReady.free.find_some EXTENT_DIRTY_ne_zero hFind with
    ⟨s, hS, hLo, hHi, hReach, hNonempty, hTop, hFirst⟩
  rcases hUsable.state with ⟨t, hT, hLow, hHigh, hFits⟩
  rcases hFirst t hT with hBefore | hSame | hBehind
  · omega
  · rw [hSame] at hLow hHigh hFits
    omega
  · omega

/- What is found of a state is free, and in a group. -/
theorem Ready.found
    {lo hi : Nat}
    (hReady : Ready layout space)
    (hFind :
      findFirstExtentBit space.free last EXTENT_DIRTY =
        some (lo, hi)) :
    last ≤ hi ∧ lo ≤ hi ∧ hi < u64Max ∧
      ∃ s ∈ space.free, s.start = lo ∧ s.end_ = hi := by
  rcases hReady.free.find_some EXTENT_DIRTY_ne_zero hFind with
    ⟨s, hS, hLo, hHi, hReach, hNonempty, hTop, _⟩
  exact ⟨hReach, hNonempty, hTop, s, hS, hLo, hHi⟩

/- A turn that goes on. -/
theorem allocTurn_on
    {a b : Nat × Bool}
    (hReady : Ready layout space)
    (hPassed : Passed layout space numBytes a)
    (hTurn : allocTurn layout space numBytes a = .inl b) :
    Passed layout space numBytes b ∧
      allocRank b < allocRank a := by
  rcases a with ⟨last, wrapped⟩
  unfold allocTurn at hTurn
  dsimp only at hTurn
  cases hFind : findFirstExtentBit space.free last EXTENT_DIRTY
    with
  | none =>
      rw [hFind] at hTurn
      dsimp only at hTurn
      cases wrapped with
      | true => cases hTurn
      | false =>
          cases hTurn
          refine ⟨fun _ _ q _ => Nat.zero_le q, ?_⟩
          unfold allocRank
          rw [if_pos rfl, if_neg Bool.false_ne_true]
          omega
  | some range =>
      rcases range with ⟨lo, hi⟩
      rw [hFind] at hTurn
      dsimp only at hTurn
      rcases hReady.found hFind with
        ⟨hLast, hNonempty, hTop, s, hS, hLo, hHi⟩
      have hFree : ∀ x, max last lo ≤ x → x ≤ hi →
          Marked space.free x := by
        intro x hLow hHigh
        exact ⟨s, hS, by omega, by omega⟩
      have hPos := hReady.pos (max last lo)
        (hFree _ (Nat.le_refl _) (by omega))
      -- the cursor only ever moves on
      have hRank : ∀ next, last < next →
          allocRank (next, wrapped) <
            allocRank (last, wrapped) := by
        intro next hNext
        unfold allocRank
        dsimp only
        omega
      by_cases hSmall : hi + 1 - max last lo < numBytes
      · rw [if_pos hSmall] at hTurn
        cases hTurn
        refine ⟨?_, hRank _ (by omega)⟩
        intro hWrapped hApart q hUsable
        have hAhead := hPassed hWrapped hApart q hUsable
        rcases hUsable.behind hReady hFind hAhead with
          ⟨hStart, hBehind | hFits⟩
        · exact hBehind
        · omega
      · rw [if_neg hSmall] at hTurn
        by_cases hPinned : testRangeBit space.pinned
            (max last lo) (max last lo + numBytes - 1)
            EXTENT_DIRTY false = true
        · rw [if_pos hPinned] at hTurn
          cases hTurn
          rcases hReady.pinned.testRangeBit_marked hPinned with
            ⟨x, hLow, hHigh, hMarked⟩
          refine ⟨?_, hRank _ (by omega)⟩
          intro _ hApart
          exact absurd hMarked
            (hApart x (hFree x hLow (by omega)))
        · rw [if_neg hPinned] at hTurn
          cases hLookup : layout.lookupBlockGroup
              (max last lo) with
          | none =>
              rw [hLookup] at hTurn
              cases hTurn
          | some g =>
              rw [hLookup] at hTurn
              dsimp only at hTurn
              rcases Layout.lookup_some hLookup with
                ⟨hG, hHas⟩
              by_cases hReject : layout.system g = true ∨
                  g.start + g.length < max last lo + numBytes
              · rw [if_pos hReject] at hTurn
                cases hTurn
                have hEnd := hHas.2
                refine ⟨?_, hRank _ (by omega)⟩
                intro hWrapped hApart q hUsable
                have hAhead := hPassed hWrapped hApart q hUsable
                have hStart :=
                  (hUsable.behind hReady hFind hAhead).1
                refine Nat.le_of_not_lt fun hInside => ?_
                rcases hUsable.group with
                  ⟨h, hH, hSystem, hHasQ, hFits⟩
                have hSame := layout.group_unique hG hH
                  ⟨Nat.le_trans hHas.1 hStart, hInside⟩ hHasQ
                subst hSame
                rcases hReject with hSys | hCross
                · rw [hSystem] at hSys
                  cases hSys
                · omega
              · rw [if_neg hReject] at hTurn
                rcases clearRange hReady numBytes hPos with ⟨free, hClear, _⟩
                rw [hClear] at hTurn
                cases hTurn

/- A turn that ends the search. -/
theorem allocTurn_end
    {a : Nat × Bool}
    {result : Allocated}
    (hReady : Ready layout space)
    (hPassed : Passed layout space numBytes a)
    (hTurn :
      allocTurn layout space numBytes a = .inr result) :
    result.Right layout space numBytes := by
  rcases a with ⟨last, wrapped⟩
  unfold allocTurn at hTurn
  dsimp only at hTurn
  cases hFind : findFirstExtentBit space.free last EXTENT_DIRTY
    with
  | none =>
      rw [hFind] at hTurn
      dsimp only at hTurn
      cases wrapped with
      | false => cases hTurn
      | true =>
          cases hTurn
          intro hApart q hUsable
          have hAhead := hPassed rfl hApart q hUsable
          rcases hUsable.state with ⟨t, hT, _, hHigh, _⟩
          have hBefore := hReady.free.find_none
            EXTENT_DIRTY_ne_zero hFind t hT
          omega
  | some range =>
      rcases range with ⟨lo, hi⟩
      rw [hFind] at hTurn
      dsimp only at hTurn
      rcases hReady.found hFind with
        ⟨hLast, hNonempty, hTop, s, hS, hLo, hHi⟩
      have hMarked : Marked space.free (max last lo) :=
        ⟨s, hS, by omega, by omega⟩
      have hPos := hReady.pos _ hMarked
      by_cases hSmall : hi + 1 - max last lo < numBytes
      · rw [if_pos hSmall] at hTurn
        cases hTurn
      · rw [if_neg hSmall] at hTurn
        by_cases hPinned : testRangeBit space.pinned
            (max last lo) (max last lo + numBytes - 1)
            EXTENT_DIRTY false = true
        · rw [if_pos hPinned] at hTurn
          cases hTurn
        · rw [if_neg hPinned] at hTurn
          rw [Bool.not_eq_true] at hPinned
          cases hLookup : layout.lookupBlockGroup
              (max last lo) with
          | none =>
              rcases hReady.inGroup _ hMarked with
                ⟨g, hG, hHas⟩
              exact absurd hHas
                (Layout.lookup_none hLookup g hG)
          | some g =>
              rw [hLookup] at hTurn
              dsimp only at hTurn
              rcases Layout.lookup_some hLookup with
                ⟨hG, hHas⟩
              by_cases hReject : layout.system g = true ∨
                  g.start + g.length < max last lo + numBytes
              · rw [if_pos hReject] at hTurn
                cases hTurn
              · rw [if_neg hReject] at hTurn
                rcases clearRange hReady numBytes hPos with
                  ⟨free, hClear, hUniform, hMarks⟩
                rw [hClear] at hTurn
                cases hTurn
                refine ⟨⟨⟨s, hS, by omega, by omega,
                  by omega⟩, ?_, g, hG, ?_, hHas, ?_⟩,
                  hUniform, hMarks⟩
                · intro x hIn
                  unfold InRange at hIn
                  exact hReady.pinned.testRangeBit
                    EXTENT_DIRTY_ne_zero hPinned hIn.1
                    (by omega)
                · exact Bool.eq_false_iff.mpr
                    fun hSys => hReject (.inl hSys)
                · exact Nat.le_of_not_lt
                    fun hCross => hReject (.inr hCross)

/- Every call returns, and what it returns is right. -/
theorem customAllocExtent_right
    (hReady : Ready layout space)
    (numBytes hintByte : Nat) :
    ∃ fuel result,
      customAllocExtent layout space numBytes hintByte fuel =
          some result ∧
        result.Right layout space numBytes := by
  have hOn : ∀ a b, Passed layout space numBytes a →
      allocTurn layout space numBytes a = .inl b →
        Passed layout space numBytes b ∧
          allocRank b < allocRank a ∧
          ∀ w : Allocated, w.Right layout space numBytes →
            w.Right layout space numBytes := by
    intro a b hPassed hTurn
    rcases allocTurn_on hReady hPassed hTurn with
      ⟨hKeeps, hLess⟩
    exact ⟨hKeeps, hLess, fun _ hRight => hRight⟩
  have hStart : Passed layout space numBytes
      (hintByte, false) :=
    fun hWrapped => Bool.noConfusion hWrapped
  exact Loop.ends_of_rank
    (R := fun _ => Allocated.Right layout space numBytes)
    allocRank
    hOn (fun _ _ => allocTurn_end hReady) hStart

end Turn

end Convert

end BtrfsProgs
