import BtrfsProgs.ExtentIo.Uniform

/-
  What a look at a tree of like states tells, and what a range
  without bytes does to it.

  Main declarations:
    * `Uniform.find_none` and `Uniform.find_some`
    * `Uniform.testRangeBit_marked`
    * `Uniform.clear_none`
-/

----------
-- Looking
----------

namespace BtrfsProgs

namespace ExtentIo

open RangeTree

variable {bits : BitVec 64}
variable {tree : ExtentIoTree}

/- A state of the tree is as good as the first one. -/
theorem Uniform.find_eq
    (hTree : Uniform bits tree)
    (hBits : bits ≠ 0)
    (start : Nat) :
    findFirstExtentBit tree start bits =
      (search tree start).map
        fun c => (c.node.start, c.node.end_) := by
  unfold findFirstExtentBit
  cases hSearch : search tree start with
  | none => rfl
  | some c =>
      rcases search_spec hSearch with ⟨hSame, _, hReach⟩
      have hMem : c.node ∈ tree := by
        rw [hSame]
        exact List.mem_append_right _ List.mem_cons_self
      have hState : c.node.state = bits :=
        hTree.states c.node hMem
      have hEnd : start ≤ c.node.end_ :=
        Nat.lt_succ_iff.mp hReach
      have hHas : (decide (start ≤ c.node.end_) &&
          (c.node.state &&& bits != 0)) = true := by
        rw [hState, BitVec.and_self, decide_eq_true hEnd,
          Bool.true_and, bne_iff_ne]
        exact hBits
      have hFirst :
          (c.node :: c.after).find? (fun s =>
            start ≤ s.end_ && s.state &&& bits != 0) =
          some c.node := List.find?_cons_of_pos hHas
      dsimp only
      rw [hFirst]
      rfl

theorem Uniform.find_none
    (hTree : Uniform bits tree)
    (hBits : bits ≠ 0)
    {start : Nat}
    (hFind : findFirstExtentBit tree start bits = none) :
    ∀ s ∈ tree, s.end_ < start := by
  rw [hTree.find_eq hBits, Option.map_eq_none_iff] at hFind
  exact search_eq_none hFind

/- The first state that ends there or behind. -/
theorem Uniform.find_some
    (hTree : Uniform bits tree)
    (hBits : bits ≠ 0)
    {start lo hi : Nat}
    (hFind :
      findFirstExtentBit tree start bits = some (lo, hi)) :
    ∃ s ∈ tree, s.start = lo ∧ s.end_ = hi ∧ start ≤ hi ∧
      lo ≤ hi ∧ hi < u64Max ∧
        ∀ t ∈ tree, t.end_ < start ∨ t = s ∨ hi < t.start := by
  rw [hTree.find_eq hBits] at hFind
  rcases Option.map_eq_some_iff.mp hFind with
    ⟨c, hSearch, hSame⟩
  cases hSame
  rcases search_spec hSearch with ⟨hTree', hBefore, hReach⟩
  have hWf := hTree.wellFormed
  rw [hTree'] at hWf ⊢
  rcases wellFormed_cursor_iff.mp hWf with
    ⟨_, _, hNode, hTop, _, hAbove, _⟩
  refine ⟨c.node,
    List.mem_append_right _ List.mem_cons_self, rfl, rfl,
    Nat.lt_succ_iff.mp hReach, hNode, hTop, ?_⟩
  intro t hT
  rcases List.mem_append.mp hT with hLow | hHere
  · exact .inl (hBefore t hLow)
  · rcases List.mem_cons.mp hHere with hSame | hHigh
    · exact .inr (.inl hSame)
    · exact .inr (.inr (hAbove t hHigh))

/- The loop of `test_range_bit` comes to a marked byte. -/
theorem testRangeLoop_marked
    {end_ start : Nat}
    {l : List ExtentState}
    (hOrdered : Ordered l)
    (hReach : ∀ s ∈ l, start ≤ s.end_)
    (hTest :
      testRangeLoop end_ bits false l start false = true) :
    ∃ x, start ≤ x ∧ x ≤ end_ ∧
      ∃ s ∈ l, s.start ≤ x ∧ x ≤ s.end_ := by
  cases l with
  | nil => cases hTest
  | cons s rest =>
      have hNode : s.start < s.end_ + 1 :=
        (Ordered.cons_iff.mp hOrdered).1
      have hEnd := hReach s List.mem_cons_self
      unfold testRangeLoop at hTest
      by_cases hPast : end_ < start
      · rw [if_pos hPast] at hTest
        cases hTest
      · rw [if_neg hPast,
          if_neg fun h => Bool.false_ne_true h.1] at hTest
        by_cases hAfter : end_ < s.start
        · rw [if_pos hAfter] at hTest
          cases hTest
        · exact ⟨max start s.start, Nat.le_max_left _ _,
            by omega, s, List.mem_cons_self,
            Nat.le_max_right _ _, by omega⟩

/- A range that passes the test has a marked byte. -/
theorem Uniform.testRangeBit_marked
    (hTree : Uniform bits tree)
    {start end_ : Nat}
    (hTest :
      ExtentIo.testRangeBit tree start end_ bits false =
        true) :
    ∃ x, start ≤ x ∧ x ≤ end_ ∧ Marked tree x := by
  unfold ExtentIo.testRangeBit at hTest
  split at hTest
  case h_1 => cases hTest
  case h_2 c hSearch =>
    rcases search_spec hSearch with ⟨hSame, _, hReach⟩
    have hWf := hTree.wellFormed
    rw [hSame] at hWf
    rcases wellFormed_cursor_iff.mp hWf with
      ⟨_, _, _, _, _, hAbove, _⟩
    have hRest : Ordered (c.node :: c.after) :=
      (Ordered.append_iff.mp hWf.ordered).2.1
    have hReaches : ∀ t ∈ c.node :: c.after,
        start ≤ t.end_ := by
      intro t hT
      rcases List.mem_cons.mp hT with hHere | hLater
      · rw [hHere]
        exact Nat.lt_succ_iff.mp hReach
      · have hNext := hAbove t hLater
        have hNonempty : t.start < t.end_ + 1 :=
          hRest.nonempty t hT
        change start < c.node.end_ + 1 at hReach
        omega
    rcases testRangeLoop_marked hRest hReaches hTest with
      ⟨x, hLow, hHigh, s, hS, hIn⟩
    refine ⟨x, hLow, hHigh, s, ?_, hIn⟩
    rw [hSame]
    exact List.mem_append_right _ hS

----------
-- No Bytes
----------

/- To clear no bytes at all may split a state. -/
theorem Uniform.clear_none
    (hTree : Uniform bits tree)
    (hBits : bits ≠ 0)
    {start : Nat}
    (hStart : 0 < start) :
    ∃ found tree',
      ExtentIo.clearExtentBits tree start (start - 1) bits =
        some (found, tree') ∧
      Uniform bits tree' ∧
      ∀ x, Marked tree' x ↔ Marked tree x := by
  have hFuel : 2 * (start - 1 + 1 - start) + 1 = 0 + 1 := by
    omega
  unfold ExtentIo.clearExtentBits
  rw [hFuel]
  unfold clearExtentBitsLoop clearExtentBitsPass
  cases hSearch : search tree start with
  | none => exact ⟨_, tree, rfl, hTree, fun _ => Iff.rfl⟩
  | some c =>
      rcases search_spec hSearch with ⟨hSame, _, hReach⟩
      change start < c.node.end_ + 1 at hReach
      dsimp only
      by_cases hPast : start - 1 < c.node.start
      · rw [if_pos hPast]
        exact ⟨_, tree, rfl, hTree, fun _ => Iff.rfl⟩
      · rw [if_neg hPast, if_pos (by omega)]
        have hWf := hTree.wellFormed
        have hStates := hTree.states
        rw [hSame] at hWf hStates
        rcases splitState_spec c start hWf (by omega)
            (by omega) with
          ⟨prealloc, orig, hSplit, hFused, hAt⟩
        have hAdjacent := hFused.adjacent
        have hNodeEnd := hFused.end_
        have hNext : (splitState c start).bind Cursor.next =
            some ⟨c.before ++ [prealloc], orig, c.after⟩ := by
          rw [hSplit]
          rfl
        have hStates' := split_next_states hStates hNext
        rw [hNext]
        dsimp only
        rw [if_neg (by omega)]
        dsimp only
        rw [if_pos (by omega)]
        refine ⟨_, _, rfl, ?_⟩
        have hTree' : (Cursor.tree
            ⟨c.before ++ [prealloc], orig, c.after⟩ :
              ExtentIoTree) =
            c.before ++ prealloc :: orig :: c.after := by
          unfold Cursor.tree
          dsimp only
          rw [List.append_assoc]
          rfl
        rw [hTree'] at hStates' ⊢
        have hUniform : Uniform bits
            (c.before ++ prealloc :: orig :: c.after) :=
          ⟨hFused.wellFormed_iff.mp hWf, hStates'⟩
        refine ⟨hUniform, ?_⟩
        intro x
        have hBitsAt : bitsAt c.tree x = bitsAt
            (c.before ++ prealloc :: orig :: c.after) x :=
          hFused.bitsAt_tree c.before c.after x
        rw [hUniform.marked_iff hBits, hTree.marked_iff hBits,
          hSame, hBitsAt]

end ExtentIo

end BtrfsProgs
