import BtrfsProgs.ExtentIo.Pointwise

/-
  `clear_extent_bits` is exact: it always returns, and it
  removes the bits from the bytes of its range and from no
  others.

  Main declarations:
    * `clearExtentBitsPass_spec`
    * `clearExtentBitsLoop_spec`
    * `clearExtentBits_spec`
-/

----------
-- One Pass
----------

namespace BtrfsProgs

namespace ExtentIo

open RangeTree

/- `tree'` is `tree` with `bits` removed on `[lo, hi)`. -/
abbrev ClearOn
    (tree tree' : ExtentIoTree)
    (lo hi : Nat)
    (bits : BitVec 64) : Prop :=
  MappedOn (fun v => v &&& ~~~bits) tree tree' lo hi

/- Clearing where there are no bits changes nothing. -/
theorem ClearOn.refl_of_zero
    {tree : ExtentIoTree}
    {lo hi : Nat}
    {bits : BitVec 64}
    (hZero : ∀ x, lo ≤ x → x < hi → bitsAt tree x = 0) :
    ClearOn tree tree lo hi bits := by
  intro x
  by_cases hx : lo ≤ x ∧ x < hi
  · rw [if_pos hx, hZero x hx.1 hx.2]
    simp
  · rw [if_neg hx]

/- Clearing one state's bits, then removing or merging it. -/
theorem clearStateBit_spec
    (c : Cursor ExtentState)
    (bits : BitVec 64)
    (hWf : WellFormed c.tree) :
    WellFormed (clearStateBit c bits).2 ∧
      ClearOn c.tree (clearStateBit c bits).2
        c.node.start (c.node.end_ + 1) bits := by
  let node : ExtentState :=
    { c.node with state := c.node.state &&& ~~~bits }
  have hNodeWf :
      WellFormed (c.before ++ node :: c.after) :=
    hWf.replace rfl rfl
  -- the tree with the state updated in place is exact
  have hPlain : ClearOn c.tree
      (c.before ++ node :: c.after)
      c.node.start (c.node.end_ + 1) bits := by
    intro x
    by_cases hx :
        c.node.start ≤ x ∧ x < c.node.end_ + 1
    · rcases bitsAt_of_mem_node hWf (x := x) hx.1
          (by omega) with
        ⟨hBelow, hAbove⟩
      have hOld : c.node.bitsAt x = c.node.state := by
        unfold ExtentState.bitsAt
        rw [if_pos (by omega)]
      have hNew : node.bitsAt x =
          c.node.state &&& ~~~bits := by
        unfold ExtentState.bitsAt
        rw [if_pos ⟨hx.1, by
          change x ≤ c.node.end_
          omega⟩]
      rw [if_pos hx]
      simp [Cursor.tree, hBelow, hAbove, hOld, hNew]
    · have hOld : c.node.bitsAt x = 0 := by
        unfold ExtentState.bitsAt
        rw [if_neg (by omega)]
      have hNew : node.bitsAt x = 0 := by
        unfold ExtentState.bitsAt
        rw [if_neg (by
          change ¬ (c.node.start ≤ x ∧ x ≤ c.node.end_)
          omega)]
      rw [if_neg hx]
      simp [Cursor.tree, hOld, hNew]
  unfold clearStateBit
  by_cases hZero : c.node.state &&& ~~~bits = 0
  · simp only [hZero, if_pos]
    refine ⟨hWf.remove, ?_⟩
    intro x
    rw [← hPlain x]
    have hNew : node.bitsAt x = 0 := by
      unfold ExtentState.bitsAt
      have hState : node.state = 0 := hZero
      rw [hState]
      split <;> rfl
    simp [hNew]
  · simp only [hZero, if_false]
    rcases mergeState_spec ⟨c.before, node, c.after⟩
        hNodeWf with
      ⟨hMergeWf, hMergeBits, -⟩
    refine ⟨hMergeWf, ?_⟩
    intro x
    rw [← hPlain x]
    exact hMergeBits x

/-
  A pass that goes on has cleared up to the new `start`, and
  it either moved or removed the state that was cut.
-/
structure ClearGoesOn
    (tree tree' : ExtentIoTree)
    (start start' end_ : Nat)
    (bits : BitVec 64) : Prop where
  wellFormed : WellFormed tree'
  clear : ClearOn tree tree' start start' bits
  start_le : start ≤ start'
  le_end : start' ≤ end_ + 1
  progress : start < start' ∨ (Cut tree start ∧ ¬ Cut tree' start)

/-
  Widen a cleared range to the left over bytes that have no
  bits.
-/
theorem ClearOn.widen
    {tree tree' : ExtentIoTree}
    {lo mid hi : Nat}
    {bits : BitVec 64}
    (hClear : ClearOn tree tree' mid hi bits)
    (hLow : lo ≤ mid)
    (hHigh : mid ≤ hi)
    (hZero : ∀ x, lo ≤ x → x < mid → bitsAt tree x = 0) :
    ClearOn tree tree' lo hi bits :=
  (ClearOn.refl_of_zero hZero).trans hClear hLow hHigh

/- What one pass of `clear_extent_bits` does. -/
theorem clearExtentBitsPass_spec
    {tree : ExtentIoTree}
    {start end_ : Nat}
    (bits : BitVec 64)
    (hWf : WellFormed tree)
    (hRange : start ≤ end_) :
    match clearExtentBitsPass tree start end_ bits with
    | .bug => False
    | .out _ tree' =>
        WellFormed tree' ∧
          ClearOn tree tree' start (end_ + 1) bits
    | .searchAgain _ tree' start' =>
        ClearGoesOn tree tree' start start' end_ bits := by
  unfold clearExtentBitsPass
  cases hSearch : search tree start with
  | none =>
      have hBefore : ∀ a ∈ tree, a.end_ < start :=
        search_eq_none hSearch
      refine ⟨hWf, ClearOn.refl_of_zero ?_⟩
      intro x hLow hHigh
      apply bitsAt_eq_zero
      intro s hs
      have := hBefore s hs
      omega
  | some c =>
      rcases search_spec hSearch with
        ⟨rfl, hBefore, hReach⟩
      change ∀ a ∈ c.before, a.end_ + 1 ≤ start at hBefore
      change start < c.node.end_ + 1 at hReach
      rcases wellFormed_cursor_iff.mp hWf with
        ⟨-, -, hNode, hNodeTop, hBelow, hAbove, -⟩
      -- nothing lies between `start` and the found state
      have hGap : ∀ x, start ≤ x → x < c.node.start →
          bitsAt c.tree x = 0 := by
        intro x hLow hHigh
        apply bitsAt_eq_zero
        intro s hs
        rcases List.mem_append.mp hs with h | h
        · have := hBefore s h
          omega
        · rcases List.mem_cons.mp h with rfl | h
          · omega
          · have := hAbove s h
            omega
      simp only
      by_cases hPast : end_ < c.node.start
      · rw [if_pos hPast]
        refine ⟨hWf, ClearOn.refl_of_zero ?_⟩
        intro x hLow hHigh
        exact hGap x hLow (by omega)
      · rw [if_neg hPast]
        by_cases hCut : c.node.start < start
        · rw [if_pos hCut]
          rcases splitState_spec c start hWf hCut (by omega) with
            ⟨prealloc, orig, hSplit, hFused, hAt⟩
          have hAdjacent := hFused.adjacent
          have hRight := hFused.right
          have hNodeStart := hFused.start
          have hNodeEnd := hFused.end_
          have hSplitTree : ∀ x,
              bitsAt (c.before ++ prealloc :: orig :: c.after)
                x = bitsAt c.tree x :=
            fun x =>
              (hFused.bitsAt_tree c.before c.after x).symm
          have hSplitWf : WellFormed
              (c.before ++ prealloc :: orig :: c.after) :=
            hFused.wellFormed_iff.mp hWf
          let d : Cursor ExtentState :=
            ⟨c.before ++ [prealloc], orig, c.after⟩
          have hTree : d.tree =
              c.before ++ prealloc :: orig :: c.after := by
            simp [d, Cursor.tree]
          simp only [hSplit, Option.bind_some, Cursor.next]
          by_cases hEnd : orig.end_ ≤ end_
          · rw [if_pos hEnd, if_neg (by omega)]
            rcases clearStateBit_spec d bits
                (by rw [hTree]; exact hSplitWf) with
              ⟨hNewWf, hClear⟩
            refine
              { wellFormed := hNewWf
                clear := ?_
                start_le := by omega
                le_end := by omega
                progress := Or.inl (by omega) }
            intro x
            rw [hClear x, hTree, hSplitTree x]
            have hStart : d.node.start = start := by
              change orig.start = start
              omega
            have hStop : d.node.end_ = c.node.end_ :=
              hNodeEnd.symm
            rw [hStart, hStop]
          · rw [if_neg hEnd]
            have hOrigStart : orig.start = start := by omega
            change ClearGoesOn c.tree d.tree start
              orig.start end_ bits
            rw [hTree, hOrigStart]
            refine
              { wellFormed := hSplitWf
                clear := ?_
                start_le := Nat.le_refl start
                le_end := by omega
                progress := Or.inr ⟨?_, ?_⟩ }
            · intro x
              rw [if_neg (by omega), hSplitTree x]
            · exact ⟨c.node, by simp [Cursor.tree], hCut,
                by omega⟩
            · rintro ⟨s, hs, hLow, hHigh⟩
              rcases List.mem_append.mp hs with h | h
              · have := hBelow s h
                omega
              · rcases List.mem_cons.mp h with rfl | h
                · omega
                · rcases List.mem_cons.mp h with rfl | h
                  · omega
                  · have := hAbove s h
                    omega
        · rw [if_neg hCut]
          by_cases hAcross : end_ < c.node.end_
          · rw [if_pos hAcross]
            rcases splitState_spec c (end_ + 1) hWf
                (by omega) (by omega) with
              ⟨prealloc, orig, hSplit, hFused, hAt⟩
            have hNodeStart := hFused.start
            have hSplitTree : ∀ x,
                bitsAt
                  (c.before ++ prealloc :: orig :: c.after)
                  x = bitsAt c.tree x :=
              fun x =>
                (hFused.bitsAt_tree c.before c.after x).symm
            have hSplitWf : WellFormed
                (c.before ++ prealloc :: orig :: c.after) :=
              hFused.wellFormed_iff.mp hWf
            simp only [hSplit]
            rcases clearStateBit_spec
                ⟨c.before, prealloc, orig :: c.after⟩ bits
                hSplitWf with
              ⟨hNewWf, hClear⟩
            refine ⟨hNewWf, ?_⟩
            have hClear' : ClearOn c.tree
                (clearStateBit ⟨c.before, prealloc,
                  orig :: c.after⟩ bits).2
                c.node.start (end_ + 1) bits := by
              intro x
              rw [hClear x]
              simp only [Cursor.tree]
              rw [hSplitTree x, ← hNodeStart, hAt]
              rfl
            exact hClear'.widen (by omega) (by omega) hGap
          · rw [if_neg hAcross, if_neg (by omega)]
            rcases clearStateBit_spec c bits hWf with
              ⟨hNewWf, hClear⟩
            exact
              { wellFormed := hNewWf
                clear := hClear.widen (by omega) (by omega)
                  hGap
                start_le := by omega
                le_end := by omega
                progress := Or.inl (by omega) }

----------
-- The Whole Loop
----------

/-
  The loop ends without a `BUG` and clears the whole range,
  by induction on the passes left.
-/
theorem clearExtentBitsLoop_spec
    {end_ : Nat}
    (bits : BitVec 64)
    (fuel : Nat)
    {set : BitVec 32}
    {tree : ExtentIoTree}
    {start : Nat}
    (hWf : WellFormed tree)
    (hRange : start ≤ end_)
    (hFuel : 2 * (end_ + 1 - start) ≤ fuel)
    (hCutFuel : Cut tree start →
      2 * (end_ + 1 - start) < fuel) :
    ∃ set' tree',
      clearExtentBitsLoop end_ bits fuel set tree start =
        some (set', tree') ∧
      WellFormed tree' ∧
      ClearOn tree tree' start (end_ + 1) bits := by
  induction fuel generalizing set tree start with
  | zero => omega
  | succ fuel ih =>
      have hPass := clearExtentBitsPass_spec bits hWf hRange
      unfold clearExtentBitsLoop
      cases hResult :
          clearExtentBitsPass tree start end_ bits with
      | bug =>
          rw [hResult] at hPass
          exact hPass.elim
      | out found tree' =>
          rw [hResult] at hPass
          exact ⟨set ||| found, tree', rfl, hPass⟩
      | searchAgain found tree' start' =>
          rw [hResult] at hPass
          simp only
          have hLe := hPass.start_le
          have hStop := hPass.le_end
          by_cases hDone : end_ < start'
          · rw [if_pos hDone]
            refine ⟨_, tree', rfl, hPass.wellFormed, ?_⟩
            have hLast : start' = end_ + 1 := by omega
            rw [← hLast]
            exact hPass.clear
          · rw [if_neg hDone]
            have hMore : start' ≤ end_ := by omega
            have hFuels := fuel_left hLe hMore hFuel hCutFuel
              hPass.progress
            rcases @ih (set ||| found) tree' start'
                hPass.wellFormed hMore hFuels.1 hFuels.2 with
              ⟨set', final, hLoop, hFinalWf, hClear⟩
            exact ⟨set', final, hLoop, hFinalWf,
              hPass.clear.trans hClear hLe (by omega)⟩

/- `clear_extent_bits` always returns and is exact. -/
theorem clearExtentBits_spec
    {tree : ExtentIoTree}
    {start end_ : Nat}
    (bits : BitVec 64)
    (hWf : WellFormed tree)
    (hRange : start ≤ end_) :
    ∃ set' tree',
      clearExtentBits tree start end_ bits =
        some (set', tree') ∧
      WellFormed tree' ∧
      ClearOn tree tree' start (end_ + 1) bits :=
  clearExtentBitsLoop_spec bits _ hWf hRange
    (by omega) (fun _ => by omega)

end ExtentIo

end BtrfsProgs
