import BtrfsProgs.ExtentIo.Pointwise

/-
  `set_extent_bits`, pass by pass and as a whole.

  The last branch of a pass, for a range that ends inside a
  state, gives the bits to the half behind the range.  Every
  other branch is exact, so the call is exact precisely when
  no state that reaches past `end` lacks one of the bits.

  Main declarations:
    * `setExtentBitsPass_spec`
    * `setExtentBitsLoop_spec`
    * `setExtentBits_spec`
-/

----------
-- One Pass
----------

namespace BtrfsProgs

namespace ExtentIo

open RangeTree

/- `tree'` is `tree` with `bits` set on `[lo, hi)`. -/
abbrev SetOn
    (tree tree' : ExtentIoTree)
    (lo hi : Nat)
    (bits : BitVec 64) : Prop :=
  MappedOn (fun v => v ||| bits) tree tree' lo hi

/- Setting bits on a state and merging it is exact. -/
theorem setStateAndMerge_spec
    (c : Cursor ExtentState)
    (bits : BitVec 64)
    (hWf : WellFormed c.tree) :
    WellFormed (setStateAndMerge c bits) ∧
      SetOn c.tree (setStateAndMerge c bits)
        c.node.start (c.node.end_ + 1) bits ∧
      ∀ x v, x + 1 ≠ c.node.start →
        x < c.node.start ∨ c.node.end_ < x →
        (Spans (setStateAndMerge c bits) x v ↔
          Spans c.tree x v) := by
  let node : ExtentState :=
    { c.node with state := c.node.state ||| bits }
  have hNodeWf :
      WellFormed (c.before ++ node :: c.after) :=
    hWf.replace rfl rfl
  have hRange : c.node.start ≤ c.node.end_ :=
    (wellFormed_cursor_iff.mp hWf).2.2.1
  rcases mergeState_spec ⟨c.before, node, c.after⟩
      hNodeWf with
    ⟨hMergeWf, hMergeBits, hMergeSpans⟩
  refine ⟨hMergeWf, ?_, ?_⟩
  · intro x
    change bitsAt (mergeState ⟨c.before, node, c.after⟩) x = _
    rw [hMergeBits x]
    simp only [Cursor.tree, bitsAt_append, bitsAt_cons]
    by_cases hx :
        c.node.start ≤ x ∧ x < c.node.end_ + 1
    · have hOld : c.node.bitsAt x = c.node.state := by
        unfold ExtentState.bitsAt
        rw [if_pos (by omega)]
      have hNew : node.bitsAt x =
          c.node.state ||| bits := by
        unfold ExtentState.bitsAt
        rw [if_pos ⟨hx.1, by
          change x ≤ c.node.end_
          omega⟩]
      rw [if_pos hx, hOld, hNew]
      ac_rfl
    · have hOld : c.node.bitsAt x = 0 := by
        unfold ExtentState.bitsAt
        rw [if_neg (by omega)]
      have hNew : node.bitsAt x = 0 := by
        unfold ExtentState.bitsAt
        rw [if_neg (by
          change ¬ (c.node.start ≤ x ∧ x ≤ c.node.end_)
          omega)]
      rw [if_neg hx, hOld, hNew]
  · intro x v hStart hOutside
    change Spans (mergeState ⟨c.before, node, c.after⟩) x v ↔ _
    rw [hMergeSpans x v hStart (by
      change x ≠ c.node.end_
      omega)]
    have hOld : ¬ (c.node.start ≤ x ∧ x < c.node.end_ ∧
        c.node.state = v) := by
      rintro ⟨hLow, hHigh, -⟩
      omega
    have hNew : ¬ (node.start ≤ x ∧ x < node.end_ ∧
        node.state = v) := by
      rintro ⟨hLow, hHigh, -⟩
      change c.node.start ≤ x at hLow
      change x < c.node.end_ at hHigh
      omega
    simp only [Cursor.tree]
    rw [spans_append, spans_append, spans_cons, spans_cons]
    simp [hOld, hNew]

/-
  A pass over `[start, end]` that goes on has set the bits
  up to the new `start`, and it either moved or removed the
  state that was cut.  States across `end` are untouched.
-/
structure PassGoesOn
    (tree tree' : ExtentIoTree)
    (start start' end_ : Nat)
    (bits : BitVec 64) : Prop where
  wellFormed : WellFormed tree'
  set : SetOn tree tree' start start' bits
  start_le : start ≤ start'
  le_end : start' ≤ end_ + 1
  progress : start < start' ∨ (Cut tree start ∧ ¬ Cut tree' start)
  spans : start' ≤ end_ → ∀ v,
    (Spans tree' end_ v ↔ Spans tree end_ v)
  finished : end_ < start' → ∀ v, ¬ Spans tree end_ v

/-
  A pass that stops has either set the bits on the whole
  rest of the range, or found a state across `end` and set
  them behind it.
-/
inductive PassStops
    (tree tree' : ExtentIoTree)
    (start end_ : Nat)
    (bits : BitVec 64) : Prop where
  | exact
      (wellFormed : WellFormed tree')
      (set : SetOn tree tree' start (end_ + 1) bits)
      (unspanned : ∀ v, ¬ Spans tree end_ v)
  | behind
      (v : BitVec 64)
      (stop : Nat)
      (wellFormed : WellFormed tree')
      (set : SetOn tree tree' (end_ + 1) stop bits)
      (reaches : end_ + 1 < stop)
      (spans : ∀ w, Spans tree end_ w ↔ w = v)
      (value : ∀ x, start ≤ x → x < stop →
        bitsAt tree x = v)

/- The state an `Ordered` tree keeps across a byte is one. -/
theorem spans_cursor_iff
    {before after : ExtentIoTree}
    {s : ExtentState}
    (hWf : WellFormed (before ++ s :: after))
    {x : Nat}
    (hLow : s.start ≤ x)
    (hHigh : x ≤ s.end_)
    (v : BitVec 64) :
    Spans (before ++ s :: after) x v ↔
      x < s.end_ ∧ s.state = v := by
  rcases wellFormed_cursor_iff.mp hWf with
    ⟨-, -, -, -, hBelow, hAbove, -⟩
  constructor
  · rintro ⟨t, ht, hStart, hEnd, hState⟩
    rcases List.mem_append.mp ht with h | h
    · have := hBelow t h
      omega
    · rcases List.mem_cons.mp h with rfl | h
      · exact ⟨hEnd, hState⟩
      · have := hAbove t h
        omega
  · rintro ⟨hEnd, hState⟩
    exact ⟨s, by simp, hLow, hEnd, hState⟩

/- A byte before every state from `c` on is not spanned. -/
theorem not_spans_of_before
    (before after : ExtentIoTree)
    {x : Nat}
    (hBefore : ∀ a ∈ before, a.end_ ≤ x)
    (hAfter : ∀ b ∈ after, x < b.start)
    (v : BitVec 64) :
    ¬ Spans (before ++ after) x v := by
  rintro ⟨s, hs, hLow, hHigh, -⟩
  rcases List.mem_append.mp hs with h | h
  · have := hBefore s h
    omega
  · have := hAfter s h
    omega

/-
  The branch for a state that lies in the range and begins
  at `start`.
-/
theorem passGoesOn_of_inside
    (c : Cursor ExtentState)
    {start end_ : Nat}
    (bits : BitVec 64)
    (hWf : WellFormed c.tree)
    (hStart : c.node.start = start)
    (hEnd : c.node.end_ ≤ end_) :
    PassGoesOn c.tree (setStateAndMerge c bits) start
      (c.node.end_ + 1) end_ bits := by
  rcases setStateAndMerge_spec c bits hWf with
    ⟨hNewWf, hSet, hSpans⟩
  have hRange : c.node.start ≤ c.node.end_ :=
    (wellFormed_cursor_iff.mp hWf).2.2.1
  refine
    { wellFormed := hNewWf
      set := by rw [← hStart]; exact hSet
      start_le := by omega
      le_end := by omega
      progress := Or.inl (by omega)
      spans := ?_
      finished := ?_ }
  · intro hMore v
    exact hSpans end_ v (by omega) (Or.inr (by omega))
  · intro hDone v hSpan
    have hLast : end_ = c.node.end_ := by omega
    have hAt := (spans_cursor_iff hWf
      (x := end_) (by omega) (by omega) v).mp hSpan
    omega

/-
  The branch for a state that begins before `start` and ends
  inside the range: split it, then treat the second half.
-/
theorem passGoesOn_of_split_inside
    (c : Cursor ExtentState)
    {prealloc orig : ExtentState}
    {start end_ : Nat}
    (bits : BitVec 64)
    (hWf : WellFormed c.tree)
    (hFused : Fused prealloc orig c.node)
    (hStart : orig.start = start)
    (hEnd : orig.end_ ≤ end_) :
    PassGoesOn c.tree
      (setStateAndMerge
        ⟨c.before ++ [prealloc], orig, c.after⟩ bits)
      start (orig.end_ + 1) end_ bits := by
  have hTree :
      (⟨c.before ++ [prealloc], orig, c.after⟩ :
        Cursor ExtentState).tree =
      c.before ++ prealloc :: orig :: c.after := by
    simp [Cursor.tree]
  have hSplitWf :
      WellFormed (c.before ++ prealloc :: orig :: c.after) :=
    hFused.wellFormed_iff.mp hWf
  have hPass := passGoesOn_of_inside
    ⟨c.before ++ [prealloc], orig, c.after⟩ bits
    (by rw [hTree]; exact hSplitWf) hStart hEnd
  have hAdjacent := hFused.adjacent
  have hRight := hFused.right
  have hSpans : ∀ v, Spans c.tree end_ v ↔
      Spans (c.before ++ prealloc :: orig :: c.after)
        end_ v :=
    fun v => hFused.spans_iff (by omega)
  rw [hTree] at hPass
  refine
    { wellFormed := hPass.wellFormed
      set := ?_
      start_le := hPass.start_le
      le_end := hPass.le_end
      progress := Or.inl (by omega)
      spans := ?_
      finished := ?_ }
  · intro x
    rw [hPass.set x,
      ← hFused.bitsAt_tree c.before c.after x]
    rfl
  · intro hMore v
    rw [hPass.spans hMore v, hSpans v]
  · intro hDone v
    rw [hSpans v]
    exact hPass.finished hDone v

/-
  The branch for a state that begins before `start` and ends
  behind the range: only split it.
-/
theorem passGoesOn_of_split_across
    (c : Cursor ExtentState)
    {prealloc orig : ExtentState}
    {start end_ : Nat}
    (bits : BitVec 64)
    (hWf : WellFormed c.tree)
    (hFused : Fused prealloc orig c.node)
    (hStart : orig.start = start)
    (hRange : start ≤ end_) :
    PassGoesOn c.tree
      (c.before ++ prealloc :: orig :: c.after)
      start start end_ bits := by
  have hSplitWf :
      WellFormed (c.before ++ prealloc :: orig :: c.after) :=
    hFused.wellFormed_iff.mp hWf
  have hAdjacent := hFused.adjacent
  have hLeft := hFused.left
  have hRight := hFused.right
  have hNodeStart := hFused.start
  have hNodeEnd := hFused.end_
  refine
    { wellFormed := hSplitWf
      set := ?_
      start_le := Nat.le_refl start
      le_end := by omega
      progress := Or.inr ⟨?_, ?_⟩
      spans := ?_
      finished := by omega }
  · intro x
    rw [if_neg (by omega),
      ← hFused.bitsAt_tree c.before c.after x]
    rfl
  · refine ⟨c.node, by simp [Cursor.tree], ?_, ?_⟩
    · omega
    · omega
  · rcases wellFormed_cursor_iff.mp hWf with
      ⟨-, -, -, -, hBelow, hAbove, -⟩
    rintro ⟨s, hs, hLow, hHigh⟩
    rcases List.mem_append.mp hs with h | h
    · have := hBelow s h
      omega
    · rcases List.mem_cons.mp h with rfl | h
      · omega
      · rcases List.mem_cons.mp h with rfl | h
        · omega
        · have := hAbove s h
          omega
  · intro hMore v
    exact (hFused.spans_iff (by omega)).symm

/-
  The last branch: the range ends inside a state that begins
  at `start`.
-/
theorem passStops_of_across
    (c : Cursor ExtentState)
    {prealloc orig : ExtentState}
    {start end_ : Nat}
    (bits : BitVec 64)
    (hWf : WellFormed c.tree)
    (hFused : Fused prealloc orig c.node)
    (hStart : c.node.start = start)
    (hRange : start ≤ end_)
    (hSplit : prealloc.end_ = end_) :
    PassStops c.tree
      (mergeState ⟨c.before, prealloc,
        { orig with state := orig.state ||| bits } ::
          c.after⟩)
      start end_ bits := by
  let behind : ExtentState :=
    { orig with state := orig.state ||| bits }
  have hAdjacent := hFused.adjacent
  have hRight := hFused.right
  have hNodeEnd := hFused.end_
  have hSplitWf :
      WellFormed (c.before ++ prealloc :: orig :: c.after) :=
    hFused.wellFormed_iff.mp hWf
  have hBehindWf :
      WellFormed
        (c.before ++ prealloc :: behind :: c.after) := by
    have hMoved :
        WellFormed ((c.before ++ [prealloc]) ++
          orig :: c.after) := by
      simpa using hSplitWf
    have hNew := hMoved.replace (t := behind) rfl rfl
    simpa using hNew
  rcases mergeState_spec
      ⟨c.before, prealloc, behind :: c.after⟩ hBehindWf with
    ⟨hMergeWf, hMergeBits, -⟩
  refine PassStops.behind c.node.state (orig.end_ + 1)
    hMergeWf ?_ (by omega) ?_ ?_
  · intro x
    rw [hMergeBits x]
    simp only [Cursor.tree, bitsAt_append, bitsAt_cons,
      hFused.bitsAt_eq x]
    by_cases hx : end_ + 1 ≤ x ∧ x < orig.end_ + 1
    · have hOld : orig.bitsAt x = orig.state := by
        unfold ExtentState.bitsAt
        rw [if_pos (by omega)]
      have hNew : behind.bitsAt x =
          orig.state ||| bits := by
        unfold ExtentState.bitsAt
        rw [if_pos (by
          change orig.start ≤ x ∧ x ≤ orig.end_
          omega)]
      rw [if_pos hx, hOld, hNew]
      ac_rfl
    · have hOld : orig.bitsAt x = 0 := by
        unfold ExtentState.bitsAt
        rw [if_neg (by omega)]
      have hNew : behind.bitsAt x = 0 := by
        unfold ExtentState.bitsAt
        rw [if_neg (by
          change ¬ (orig.start ≤ x ∧ x ≤ orig.end_)
          omega)]
      rw [if_neg hx, hOld, hNew]
      simp
  · intro w
    have hAt := spans_cursor_iff hWf (x := end_)
      (by omega) (by omega) w
    change Spans c.tree end_ w ↔ _ at hAt
    rw [hAt]
    constructor
    · rintro ⟨-, hState⟩
      exact hState.symm
    · intro hState
      exact ⟨by omega, hState.symm⟩
  · intro x hLow hHigh
    rcases bitsAt_of_mem_node hWf (x := x)
        (by omega) (by omega) with
      ⟨hBelow, hAbove⟩
    have hAt : c.node.bitsAt x = c.node.state := by
      unfold ExtentState.bitsAt
      rw [if_pos (by omega)]
    simp [Cursor.tree, hBelow, hAbove, hAt]

/- What one pass of `set_extent_bits` does. -/
theorem setExtentBitsPass_spec
    {tree : ExtentIoTree}
    {start end_ : Nat}
    (bits : BitVec 64)
    (hWf : WellFormed tree)
    (hRange : start ≤ end_)
    (hTop : end_ < u64Max) :
    match setExtentBitsPass tree start end_ bits with
    | .bug => False
    | .out tree' => PassStops tree tree' start end_ bits
    | .searchAgain tree' start' =>
        PassGoesOn tree tree' start start' end_ bits := by
  unfold setExtentBitsPass
  cases hSearch : search tree start with
  | none =>
      have hBefore : ∀ a ∈ tree, a.end_ < start :=
        search_eq_none hSearch
      rcases insertState_spec tree [] bits
          (by simpa using hWf) hRange hTop
          hBefore (by simp) with
        ⟨tree', hInsert, hNewWf, hBits, -⟩
      simp only [List.append_nil] at hInsert hBits
      simp only [hInsert]
      refine PassStops.exact hNewWf hBits ?_
      intro v
      have := not_spans_of_before tree [] (x := end_)
        (fun a ha => by have := hBefore a ha; omega)
        (by simp) v
      simpa using this
  | some c =>
      rcases search_spec hSearch with
        ⟨rfl, hBefore, hReach⟩
      change ∀ a ∈ c.before, a.end_ + 1 ≤ start at hBefore
      change start < c.node.end_ + 1 at hReach
      rcases wellFormed_cursor_iff.mp hWf with
        ⟨-, -, hNode, hNodeTop, hBelow, hAbove, -⟩
      simp only
      by_cases hInside :
          c.node.start = start ∧ c.node.end_ ≤ end_
      · rw [if_pos hInside, if_neg (by omega)]
        exact passGoesOn_of_inside c bits hWf hInside.1
          hInside.2
      · rw [if_neg hInside]
        by_cases hCut : c.node.start < start
        · rw [if_pos hCut]
          rcases splitState_spec c start hWf hCut (by omega) with
            ⟨prealloc, orig, hSplit, hFused, hAt⟩
          have hAdjacent := hFused.adjacent
          have hNodeEnd := hFused.end_
          have hStart : orig.start = start := by omega
          simp only [hSplit, Option.bind_some, Cursor.next]
          by_cases hEnd : orig.end_ ≤ end_
          · rw [if_pos hEnd, if_neg (by omega), hNodeEnd]
            exact passGoesOn_of_split_inside c bits hWf
              hFused hStart hEnd
          · rw [if_neg hEnd]
            have hPass := passGoesOn_of_split_across c bits
              hWf hFused hStart hRange
            simpa [Cursor.tree, hStart] using hPass
        · rw [if_neg hCut]
          by_cases hHole : start < c.node.start
          · -- the hole reaches `end` or the found state
            rw [if_pos hHole]
            generalize hThis :
              (if end_ < c.node.start then end_
                else c.node.start - 1) = thisEnd
            have hThisEnd : thisEnd < c.node.start ∧
                thisEnd ≤ end_ ∧ start ≤ thisEnd := by
              rw [← hThis]
              split <;> omega
            have hAfterHole :
                ∀ b ∈ c.node :: c.after,
                  thisEnd < b.start := by
              intro b hb
              rcases List.mem_cons.mp hb with rfl | h
              · exact hThisEnd.1
              · have := hAbove b h
                omega
            rcases insertState_spec c.before
                (c.node :: c.after) bits hWf hThisEnd.2.2 (by omega)
                hBefore hAfterHole with
              ⟨tree', hInsert, hNewWf, hBits, hSpans⟩
            change insertState c.tree start thisEnd bits = _
              at hInsert
            simp only [hInsert]
            refine
              { wellFormed := hNewWf
                set := hBits
                start_le := by omega
                le_end := by omega
                progress := Or.inl (by omega)
                spans := ?_
                finished := ?_ }
            · intro hMore v
              exact hSpans end_ v (by omega)
                (Or.inr (by omega))
            · intro hDone v
              apply not_spans_of_before
              · intro a ha
                have := hBefore a ha
                omega
              · intro b hb
                have := hAfterHole b hb
                omega
          · rw [if_neg hHole]
            rcases splitState_spec c (end_ + 1) hWf
                (by omega) (by omega) with
              ⟨prealloc, orig, hSplit, hFused, hAt⟩
            simp only [hSplit]
            exact passStops_of_across c bits hWf hFused
              (by omega) hRange (by omega)

----------
-- The Whole Loop
----------

/-
  What a finished loop has done.  In the first case no state
  reaches past `end`.  In the second the state with bits `v`
  does: its bytes from `mid` to `end` were left alone, and
  its bytes behind `end` got the bits instead.
-/
inductive SetOutcome
    (tree tree' : ExtentIoTree)
    (start end_ : Nat)
    (bits : BitVec 64) : Prop where
  | exact
      (set : SetOn tree tree' start (end_ + 1) bits)
      (unspanned : ∀ v, ¬ Spans tree end_ v)
  | behind
      (v : BitVec 64)
      (mid stop : Nat)
      (low : start ≤ mid)
      (high : mid ≤ end_)
      (reaches : end_ + 1 < stop)
      (set : ∀ x, bitsAt tree' x =
        if start ≤ x ∧ x < mid ∨ end_ < x ∧ x < stop then
          bitsAt tree x ||| bits
        else bitsAt tree x)
      (spans : ∀ w, Spans tree end_ w ↔ w = v)
      (value : ∀ x, mid ≤ x → x < stop →
        bitsAt tree x = v)

/- A pass that goes on can be put in front of an outcome. -/
theorem PassGoesOn.outcome
    {tree mid tree' : ExtentIoTree}
    {start start' end_ : Nat}
    {bits : BitVec 64}
    (hPass : PassGoesOn tree mid start start' end_ bits)
    (hMore : start' ≤ end_)
    (hOutcome : SetOutcome mid tree' start' end_ bits) :
    SetOutcome tree tree' start end_ bits := by
  have hLe := hPass.start_le
  cases hOutcome with
  | exact hSet hUnspanned =>
      refine SetOutcome.exact
        (hPass.set.trans hSet hLe (by omega)) ?_
      intro v
      rw [← hPass.spans hMore v]
      exact hUnspanned v
  | behind v cut stop hLow hHigh hReaches hSet hSpans
      hValue =>
      refine SetOutcome.behind v cut stop (by omega) hHigh
        hReaches ?_ ?_ ?_
      · intro x
        rw [hSet x, hPass.set x]
        by_cases hx :
            start' ≤ x ∧ x < cut ∨ end_ < x ∧ x < stop
        · rw [if_pos hx, if_neg (by omega),
            if_pos (by omega)]
        · rw [if_neg hx]
          by_cases hy : start ≤ x ∧ x < start'
          · rw [if_pos hy, if_pos (by omega)]
          · rw [if_neg hy, if_neg (by omega)]
      · intro w
        rw [← hPass.spans hMore w]
        exact hSpans w
      · intro x hx hStop
        have hOld := hPass.set x
        rw [if_neg (by omega)] at hOld
        rw [← hOld]
        exact hValue x hx hStop

/-
  The loop ends without a `BUG` in a well-formed tree, by
  induction on the passes left.
-/
theorem setExtentBitsLoop_spec
    {end_ : Nat}
    (bits : BitVec 64)
    (hTop : end_ < u64Max)
    (fuel : Nat)
    {tree : ExtentIoTree}
    {start : Nat}
    (hWf : WellFormed tree)
    (hRange : start ≤ end_)
    (hFuel : 2 * (end_ + 1 - start) ≤ fuel)
    (hCutFuel : Cut tree start →
      2 * (end_ + 1 - start) < fuel) :
    ∃ tree',
      setExtentBitsLoop end_ bits fuel tree start =
        some tree' ∧
      WellFormed tree' ∧
      SetOutcome tree tree' start end_ bits := by
  induction fuel generalizing tree start with
  | zero => omega
  | succ fuel ih =>
      have hPass := setExtentBitsPass_spec bits hWf hRange
        hTop
      unfold setExtentBitsLoop
      cases hResult :
          setExtentBitsPass tree start end_ bits with
      | bug =>
          rw [hResult] at hPass
          exact hPass.elim
      | out tree' =>
          rw [hResult] at hPass
          refine ⟨tree', rfl, ?_⟩
          cases hPass with
          | exact hNewWf hSet hUnspanned =>
              exact ⟨hNewWf,
                SetOutcome.exact hSet hUnspanned⟩
          | behind v stop hNewWf hSet hReaches hSpans
              hValue =>
              refine ⟨hNewWf, SetOutcome.behind v start stop
                (Nat.le_refl start) hRange hReaches ?_ hSpans
                hValue⟩
              intro x
              rw [hSet x]
              by_cases hx : end_ + 1 ≤ x ∧ x < stop
              · rw [if_pos hx, if_pos (by omega)]
              · rw [if_neg hx, if_neg (by omega)]
      | searchAgain tree' start' =>
          rw [hResult] at hPass
          simp only
          by_cases hDone : end_ < start'
          · rw [if_pos hDone]
            refine ⟨tree', rfl, hPass.wellFormed,
              SetOutcome.exact ?_ (hPass.finished hDone)⟩
            have hLast : start' = end_ + 1 := by
              have := hPass.le_end
              omega
            rw [← hLast]
            exact hPass.set
          · rw [if_neg hDone]
            have hMore : start' ≤ end_ := by omega
            have hLe := hPass.start_le
            have hFuels := fuel_left hLe hMore hFuel hCutFuel
              hPass.progress
            rcases ih hPass.wellFormed hMore hFuels.1
                hFuels.2 with
              ⟨final, hLoop, hFinalWf, hOutcome⟩
            exact ⟨final, hLoop, hFinalWf,
              hPass.outcome hMore hOutcome⟩

/- `set_extent_bits` always returns a well-formed tree. -/
theorem setExtentBits_spec
    {tree : ExtentIoTree}
    {start end_ : Nat}
    (bits : BitVec 64)
    (hWf : WellFormed tree)
    (hRange : start ≤ end_)
    (hTop : end_ < u64Max) :
    ∃ tree',
      setExtentBits tree start end_ bits = some tree' ∧
      WellFormed tree' ∧
      SetOutcome tree tree' start end_ bits :=
  setExtentBitsLoop_spec bits hTop _ hWf hRange
    (by omega) (fun _ => by omega)

end ExtentIo

end BtrfsProgs
