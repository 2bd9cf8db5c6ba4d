import BtrfsProgs.ExtentIo.Uniform

/-
  What `clear_extent_bits`, `find_first_extent_bit` and
  `test_range_bit` do to and tell about each byte, for states
  with any bits.

  Main declarations:
    * `StateTree` and `HasBit`
    * `findFirstExtentBit_least`
    * `testRangeBit_filled` and `testRangeBit_some`
    * `clear_and_queries_exact`
-/

----------
-- Bytes with Bits
----------

namespace BtrfsProgs

namespace ExtentIo

open RangeTree

/- Disjoint states that all have a bit. -/
structure StateTree
    (tree : ExtentIoTree) : Prop where
  wellFormed : WellFormed tree
  nonzero : States (fun v => v ≠ 0) tree

/- The byte has one of the bits. -/
def HasBit
    (tree : ExtentIoTree)
    (bits : BitVec 64)
    (x : Nat) : Prop :=
  bitsAt tree x &&& bits ≠ 0

/- One of the states on the byte has one of the bits. -/
def Shows
    (bits : BitVec 64)
    (l : List ExtentState)
    (x : Nat) : Prop :=
  ∃ s ∈ l, s.start ≤ x ∧ x ≤ s.end_ ∧ s.state &&& bits ≠ 0

variable {bits : BitVec 64} {tree : ExtentIoTree}

theorem hasBit_iff
    (hWf : WellFormed tree)
    (x : Nat) :
    HasBit tree bits x ↔ Shows bits tree x := by
  constructor
  · intro hHas
    by_contra hNot
    by_cases hOn : ∃ s ∈ tree, s.start ≤ x ∧ x ≤ s.end_
    · rcases hOn with ⟨s, hs, hLow, hHigh⟩
      apply hNot
      refine ⟨s, hs, hLow, hHigh, ?_⟩
      rw [← bitsAt_of_mem hWf hs hLow hHigh]
      exact hHas
    · apply hHas
      have hZero : bitsAt tree x = 0 := by
        apply bitsAt_eq_zero
        intro s hs
        by_contra hIn
        exact hOn ⟨s, hs, by omega, by omega⟩
      rw [hZero]
      exact BitVec.zero_and
  · rintro ⟨s, hs, hLow, hHigh, hBits⟩
    unfold HasBit
    rw [bitsAt_of_mem hWf hs hLow hHigh]
    exact hBits

theorem shows_cons
    {s : ExtentState}
    {l : List ExtentState}
    {x : Nat} :
    Shows bits (s :: l) x ↔
      (s.start ≤ x ∧ x ≤ s.end_ ∧ s.state &&& bits ≠ 0) ∨
        Shows bits l x := by
  unfold Shows
  rw [List.exists_mem_cons_iff]

/- Nothing is found before the first state of a list. -/
theorem not_shows_of_before
    {s : ExtentState}
    {l : List ExtentState}
    {x : Nat}
    (hOrdered : Ordered (s :: l))
    (hBefore : x ≤ s.end_) :
    ¬ Shows bits l x := by
  rintro ⟨t, ht, hLow, -⟩
  have hNext : s.end_ + 1 ≤ t.start :=
    (Ordered.cons_iff.mp hOrdered).2.2 t ht
  omega

/-
  Where a search for the start of a range stops, with what
  can be seen from there on.
-/
theorem shows_from
    {c : Cursor ExtentState}
    {start x : Nat}
    (hSearch : search tree start = some c)
    (hStart : start ≤ x) :
    Shows bits tree x ↔
      Shows bits (c.node :: c.after) x := by
  rcases search_spec hSearch with ⟨hSame, hBefore, _⟩
  constructor
  · rintro ⟨s, hs, hLow, hHigh, hBits⟩
    rw [hSame] at hs
    rcases List.mem_append.mp hs with hs | hs
    · have hEnd : s.end_ + 1 ≤ start := hBefore s hs
      omega
    · exact ⟨s, hs, hLow, hHigh, hBits⟩
  · rintro ⟨s, hs, hIn⟩
    refine ⟨s, ?_, hIn⟩
    rw [hSame]
    exact List.mem_append_right _ hs

/- All states from there on reach the start. -/
theorem reaches_from
    {c : Cursor ExtentState}
    {start : Nat}
    (hWf : WellFormed tree)
    (hSearch : search tree start = some c) :
    Ordered (c.node :: c.after) ∧
      ∀ s ∈ c.node :: c.after, start ≤ s.end_ := by
  rcases search_spec hSearch with ⟨hSame, _, hReach⟩
  have hNode : start ≤ c.node.end_ :=
    Nat.lt_succ_iff.mp hReach
  have hOrdered : Ordered (c.node :: c.after) := by
    have hAll := hWf.ordered
    rw [hSame] at hAll
    exact (Ordered.append_iff.mp hAll).2.1
  refine ⟨hOrdered, ?_⟩
  intro s hs
  rcases List.mem_cons.mp hs with rfl | hLater
  · exact hNode
  · have hNext : c.node.end_ + 1 ≤ s.start :=
      (Ordered.cons_iff.mp hOrdered).2.2 s hLater
    have hSome : s.start < s.end_ + 1 :=
      hOrdered.nonempty s hs
    omega

----------
-- The First Byte
----------

/- The state of the first byte that has one of the bits. -/
def FirstAt
    (tree : ExtentIoTree)
    (start : Nat)
    (bits : BitVec 64)
    (lo hi : Nat) : Prop :=
  ∃ s ∈ tree, s.start = lo ∧ s.end_ = hi ∧
    ∃ y, start ≤ y ∧ lo ≤ y ∧ y ≤ hi ∧
      HasBit tree bits y ∧
      ∀ x, start ≤ x → HasBit tree bits x → y ≤ x

/-
  `find_first_extent_bit` returns 1 where no byte from the
  start on has one of the bits.
-/
theorem findFirstExtentBit_none
    {start : Nat}
    (hWf : WellFormed tree)
    (hFind : findFirstExtentBit tree start bits = none) :
    ∀ x, start ≤ x → ¬ HasBit tree bits x := by
  intro x hx
  rw [hasBit_iff hWf]
  unfold findFirstExtentBit at hFind
  cases hSearch : search tree start with
  | none =>
      rintro ⟨s, hs, hLow, hHigh, -⟩
      have hEnd : s.end_ + 1 ≤ start :=
        search_eq_none hSearch s hs
      omega
  | some c =>
      rw [hSearch] at hFind
      dsimp only at hFind
      rw [Option.map_eq_none_iff, List.find?_eq_none] at hFind
      rw [shows_from hSearch hx]
      rintro ⟨s, hs, hLow, hHigh, hBits⟩
      apply hFind s hs
      rw [Bool.and_eq_true, decide_eq_true_eq, bne_iff_ne]
      exact ⟨by omega, hBits⟩

theorem findFirstExtentBit_least
    {start lo hi : Nat}
    (hWf : WellFormed tree)
    (hFind :
      findFirstExtentBit tree start bits = some (lo, hi)) :
    FirstAt tree start bits lo hi := by
  unfold findFirstExtentBit at hFind
  cases hSearch : search tree start with
  | none =>
      rw [hSearch] at hFind
      cases hFind
  | some c =>
      rw [hSearch] at hFind
      obtain ⟨s, hSome, hSame⟩ :=
        Option.map_eq_some_iff.mp hFind
      cases hSame
      obtain ⟨hHas, passed, later, hParts, hPassed⟩ :=
        List.find?_eq_some_iff_append.mp hSome
      rw [Bool.and_eq_true, decide_eq_true_eq, bne_iff_ne]
        at hHas
      have hOrdered := (reaches_from hWf hSearch).1
      rw [hParts] at hOrdered
      have hHere := (Ordered.append_iff.mp hOrdered).2.1
      have hNode : s.start < s.end_ + 1 :=
        hHere.nonempty s List.mem_cons_self
      have hMem : s ∈ tree := by
        rw [(search_spec hSearch).1]
        exact List.mem_append_right _
          (List.mem_of_find?_eq_some hSome)
      refine ⟨s, hMem, rfl, rfl, max start s.start,
        Nat.le_max_left _ _, Nat.le_max_right _ _,
        by omega, ?_, ?_⟩
      · rw [hasBit_iff hWf]
        exact ⟨s, hMem, Nat.le_max_right _ _, by omega,
          hHas.2⟩
      · intro x hx hOther
        rw [hasBit_iff hWf, shows_from hSearch hx, hParts]
          at hOther
        rcases hOther with ⟨t, ht, hLow, hHigh, hBits⟩
        rcases List.mem_append.mp ht with ht | ht
        · -- a state that was passed has none of the bits
          have hNot := hPassed t ht
          rw [Bool.not_eq_true', Bool.and_eq_false_iff]
            at hNot
          rcases hNot with hNot | hNot
          · rw [decide_eq_false_iff_not] at hNot
            omega
          · rw [bne_eq_false_iff_eq] at hNot
            exact absurd hNot hBits
        · rcases List.mem_cons.mp ht with rfl | ht
          · omega
          · have hNext : s.end_ + 1 ≤ t.start :=
              (Ordered.cons_iff.mp hHere).2.2 t ht
            omega

----------
-- Testing a Range
----------

section Test

variable {l : List ExtentState} {start end_ : Nat}

/- Whether the test is for every byte. -/
theorem testRangeLoop_filled
    (bitset : Bool)
    (hOrdered : Ordered l)
    (hReach : ∀ s ∈ l, start ≤ s.end_)
    (hRange : start ≤ end_) :
    testRangeLoop end_ bits true l start bitset = true ↔
      ∀ x, start ≤ x → x ≤ end_ → Shows bits l x := by
  induction l generalizing start bitset with
  | nil =>
      constructor
      · intro hTest
        cases hTest
      · intro hAll
        obtain ⟨s, hs, -⟩ := hAll start (Nat.le_refl _) hRange
        cases hs
  | cons s rest ih =>
      have hRest := (Ordered.cons_iff.mp hOrdered).2
      have hEnd := hReach s List.mem_cons_self
      unfold testRangeLoop
      rw [if_neg (by omega)]
      by_cases hGap : start < s.start
      · -- nothing is on the first byte
        rw [if_pos ⟨rfl, hGap⟩]
        refine iff_of_false Bool.false_ne_true ?_
        intro hAll
        rcases shows_cons.mp (hAll start (Nat.le_refl _) hRange) with
          hOn | hOn
        · omega
        · exact not_shows_of_before hOrdered hEnd hOn
      rw [if_neg (by simp [hGap]), if_neg (by omega)]
      by_cases hBits : s.state &&& bits = 0
      · rw [if_neg (by simp [hBits]), if_pos rfl]
        refine iff_of_false Bool.false_ne_true ?_
        intro hAll
        rcases shows_cons.mp (hAll start (Nat.le_refl _) hRange) with
          hOn | hOn
        · exact hOn.2.2 hBits
        · exact not_shows_of_before hOrdered hEnd hOn
      rw [if_pos hBits, if_neg (by simp)]
      by_cases hLast : end_ < s.end_ + 1
      · rw [if_pos hLast]
        refine iff_of_true rfl ?_
        intro x hLow hHigh
        exact shows_cons.mpr
          (.inl ⟨by omega, by omega, hBits⟩)
      rw [if_neg hLast]
      have hLater : ∀ t ∈ rest, s.end_ + 1 ≤ t.end_ := by
        intro t ht
        have hNext : s.end_ + 1 ≤ t.start := hRest.2 t ht
        have hSome : t.start < t.end_ + 1 :=
          hRest.1.nonempty t ht
        omega
      rw [ih true hRest.1 hLater (by omega)]
      constructor
      · intro hAll x hLow hHigh
        rw [shows_cons]
        by_cases hIn : x ≤ s.end_
        · exact .inl ⟨by omega, hIn, hBits⟩
        · exact .inr (hAll x (by omega) hHigh)
      · intro hAll x hLow hHigh
        rcases shows_cons.mp (hAll x (by omega) hHigh) with
          hOn | hOn
        · omega
        · exact hOn

/- Whether the test is for any byte. -/
theorem testRangeLoop_some
    (hOrdered : Ordered l)
    (hReach : ∀ s ∈ l, start ≤ s.end_)
    (hRange : start ≤ end_) :
    testRangeLoop end_ bits false l start false = true ↔
      ∃ x, start ≤ x ∧ x ≤ end_ ∧ Shows bits l x := by
  induction l generalizing start with
  | nil =>
      refine iff_of_false Bool.false_ne_true ?_
      rintro ⟨x, -, -, s, hs, -⟩
      cases hs
  | cons s rest ih =>
      have hHere := Ordered.cons_iff.mp hOrdered
      have hNode : s.start < s.end_ + 1 := hHere.1
      have hEnd := hReach s List.mem_cons_self
      unfold testRangeLoop
      rw [if_neg (by omega), if_neg (by simp)]
      by_cases hPast : end_ < s.start
      · rw [if_pos hPast]
        refine iff_of_false Bool.false_ne_true ?_
        rintro ⟨x, hLow, hHigh, hOn⟩
        rcases shows_cons.mp hOn with hOn | hOn
        · omega
        · exact not_shows_of_before hOrdered (by omega) hOn
      rw [if_neg hPast]
      by_cases hBits : s.state &&& bits = 0
      · rw [if_neg (by simp [hBits]), if_neg (by simp)]
        by_cases hLast : end_ < s.end_ + 1
        · rw [if_pos hLast]
          refine iff_of_false Bool.false_ne_true ?_
          rintro ⟨x, hLow, hHigh, hOn⟩
          rcases shows_cons.mp hOn with hOn | hOn
          · exact hOn.2.2 hBits
          · exact not_shows_of_before hOrdered (by omega) hOn
        rw [if_neg hLast]
        have hLater : ∀ t ∈ rest, s.end_ + 1 ≤ t.end_ := by
          intro t ht
          have hNext : s.end_ + 1 ≤ t.start :=
            hHere.2.2 t ht
          have hSome : t.start < t.end_ + 1 :=
            hHere.2.1.nonempty t ht
          omega
        rw [ih hHere.2.1 hLater (by omega)]
        constructor
        · rintro ⟨x, hLow, hHigh, hOn⟩
          exact ⟨x, by omega, hHigh,
            shows_cons.mpr (.inr hOn)⟩
        · rintro ⟨x, hLow, hHigh, hOn⟩
          rcases shows_cons.mp hOn with hOn | hOn
          · exact absurd hBits hOn.2.2
          · refine ⟨x, ?_, hHigh, hOn⟩
            by_contra hNot
            exact not_shows_of_before hOrdered (by omega) hOn
      · rw [if_pos hBits, if_pos rfl]
        refine iff_of_true rfl ?_
        exact ⟨max start s.start, Nat.le_max_left _ _,
          by omega, shows_cons.mpr
            (.inl ⟨Nat.le_max_right _ _, by omega, hBits⟩)⟩

theorem testRangeBit_filled
    (hWf : WellFormed tree)
    (hRange : start ≤ end_) :
    testRangeBit tree start end_ bits true = true ↔
      ∀ x, start ≤ x → x ≤ end_ → HasBit tree bits x := by
  unfold testRangeBit
  cases hSearch : search tree start with
  | none =>
      refine iff_of_false Bool.false_ne_true ?_
      intro hAll
      have hFirst := hAll start (Nat.le_refl _) hRange
      rw [hasBit_iff hWf] at hFirst
      rcases hFirst with ⟨s, hs, -, hHigh, -⟩
      have hEnd : s.end_ + 1 ≤ start :=
        search_eq_none hSearch s hs
      omega
  | some c =>
      have hFrom := reaches_from hWf hSearch
      dsimp only
      rw [testRangeLoop_filled false hFrom.1 hFrom.2 hRange]
      constructor
      · intro hAll x hLow hHigh
        rw [hasBit_iff hWf, shows_from hSearch hLow]
        exact hAll x hLow hHigh
      · intro hAll x hLow hHigh
        rw [← shows_from hSearch hLow, ← hasBit_iff hWf]
        exact hAll x hLow hHigh

theorem testRangeBit_some
    (hWf : WellFormed tree)
    (hRange : start ≤ end_) :
    testRangeBit tree start end_ bits false = true ↔
      ∃ x, start ≤ x ∧ x ≤ end_ ∧ HasBit tree bits x := by
  unfold testRangeBit
  cases hSearch : search tree start with
  | none =>
      refine iff_of_false Bool.false_ne_true ?_
      rintro ⟨x, hLow, -, hHas⟩
      rw [hasBit_iff hWf] at hHas
      rcases hHas with ⟨s, hs, -, hHigh, -⟩
      have hEnd : s.end_ + 1 ≤ start :=
        search_eq_none hSearch s hs
      omega
  | some c =>
      have hFrom := reaches_from hWf hSearch
      dsimp only
      rw [testRangeLoop_some hFrom.1 hFrom.2 hRange]
      constructor
      · rintro ⟨x, hLow, hHigh, hOn⟩
        rw [← shows_from hSearch hLow, ← hasBit_iff hWf]
          at hOn
        exact ⟨x, hLow, hHigh, hOn⟩
      · rintro ⟨x, hLow, hHigh, hHas⟩
        rw [hasBit_iff hWf, shows_from hSearch hLow] at hHas
        exact ⟨x, hLow, hHigh, hHas⟩

end Test

----------
-- Every Byte
----------

/- Clearing leaves no state without bits behind. -/
theorem StateTree.clearExtentBits
    {tree' : ExtentIoTree}
    {start end_ : Nat}
    {found : BitVec 32}
    (hTree : StateTree tree)
    (hWf : WellFormed tree')
    (hClear :
      ExtentIo.clearExtentBits tree start end_ bits =
        some (found, tree')) :
    StateTree tree' := by
  refine ⟨hWf, ?_⟩
  apply clearExtentBitsLoop_states (P := fun v => v ≠ 0) ?_
    hTree.nonzero hClear
  intro v _
  by_cases hZero : v &&& ~~~bits = 0
  · exact .inl hZero
  · exact .inr hZero

/-
  `clear_extent_bits` returns and takes the bits from the
  bytes of its range only, and the queries tell the bytes.
-/
theorem clear_and_queries_exact
    {start end_ : Nat}
    (bits : BitVec 64)
    (hTree : StateTree tree)
    (hRange : start ≤ end_) :
    (∃ found tree',
      clearExtentBits tree start end_ bits =
          some (found, tree') ∧
        StateTree tree' ∧
        ∀ x, bitsAt tree' x =
          if start ≤ x ∧ x ≤ end_ then
            bitsAt tree x &&& ~~~bits
          else bitsAt tree x) ∧
    (match findFirstExtentBit tree start bits with
      | some (lo, hi) => FirstAt tree start bits lo hi
      | none => ∀ x, start ≤ x → ¬ HasBit tree bits x) ∧
    (testRangeBit tree start end_ bits true = true ↔
      ∀ x, start ≤ x → x ≤ end_ → HasBit tree bits x) ∧
    (testRangeBit tree start end_ bits false = true ↔
      ∃ x, start ≤ x ∧ x ≤ end_ ∧ HasBit tree bits x) := by
  have hWf := hTree.wellFormed
  refine ⟨?_, ?_, testRangeBit_filled hWf hRange,
    testRangeBit_some hWf hRange⟩
  · obtain ⟨found, tree', hClear, hWf', hOn⟩ :=
      clearExtentBits_spec bits hWf hRange
    refine ⟨found, tree', hClear,
      hTree.clearExtentBits hWf' hClear, ?_⟩
    intro x
    rw [hOn x]
    simp only [Nat.lt_succ_iff]
  · cases hFind : findFirstExtentBit tree start bits with
    | none => exact findFirstExtentBit_none hWf hFind
    | some found =>
        rcases found with ⟨lo, hi⟩
        exact findFirstExtentBit_least hWf hFind

/- Two states with a byte between them that has no bits. -/
def twoStates : ExtentIoTree :=
  [⟨0, 3, 1, 0⟩, ⟨5, 8, 3, 0⟩]

theorem twoStates_stateTree :
    StateTree twoStates where
  wellFormed := by
    refine ⟨⟨?_, ?_⟩, ?_⟩
    · intro s hs
      simp only [twoStates, List.mem_cons, List.not_mem_nil,
        or_false] at hs
      rcases hs with rfl | rfl <;> decide
    · simp [twoStates, Ranged.hi, Ranged.lo]
    · intro s hs
      simp only [twoStates, List.mem_cons, List.not_mem_nil,
        or_false] at hs
      rcases hs with rfl | rfl <;> decide
  nonzero := by
    intro s hs
    simp only [twoStates, List.mem_cons, List.not_mem_nil,
      or_false] at hs
    rcases hs with rfl | rfl <;> decide

theorem clear_and_queries_exact_twoStates :
    testRangeBit twoStates 2 6 1 true = false ∧
      ¬ ∀ x, 2 ≤ x → x ≤ 6 → HasBit twoStates 1 x := by
  have hTest : testRangeBit twoStates 2 6 1 true = false := by
    decide
  refine ⟨hTest, ?_⟩
  intro hAll
  have hRange : 2 ≤ 6 := by decide
  have hExact :=
    clear_and_queries_exact 1 twoStates_stateTree hRange
  rw [hExact.2.2.1.mpr hAll] at hTest
  cases hTest

end ExtentIo

end BtrfsProgs
