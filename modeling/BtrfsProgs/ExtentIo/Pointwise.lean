import BtrfsProgs.ExtentIo.Tree

/-
  The meaning of a state tree, byte by byte, and what the
  primitives of `extent_io.c` do to it.

  `bitsAt tree x` is the bit set of byte `x`.  Merging and
  splitting replace two adjacent states by one, or one by
  two, and both are instances of `Fused`.

  Main declarations:
    * `bitsAt` and `WellFormed`
    * `mergeState_spec`
    * `insertState_spec`
    * `splitState_spec`
-/

----------
-- The Bits of a Byte
----------

namespace BtrfsProgs

namespace ExtentIo

open RangeTree

/- The bits one state gives to byte `x`. -/
def ExtentState.bitsAt
    (s : ExtentState)
    (x : Nat) : BitVec 64 :=
  if s.start ≤ x ∧ x ≤ s.end_ then s.state else 0

/- The bit set of byte `x`: the bits of every state on it. -/
def bitsAt : ExtentIoTree → Nat → BitVec 64
  | [], _ => 0
  | s :: rest, x => s.bitsAt x ||| bitsAt rest x

@[simp] theorem bitsAt_nil
    (x : Nat) :
    bitsAt [] x = 0 := rfl

@[simp] theorem bitsAt_cons
    (s : ExtentState)
    (rest : ExtentIoTree)
    (x : Nat) :
    bitsAt (s :: rest) x = s.bitsAt x ||| bitsAt rest x :=
  rfl

@[simp] theorem bitsAt_append
    (before after : ExtentIoTree)
    (x : Nat) :
    bitsAt (before ++ after) x =
      bitsAt before x ||| bitsAt after x := by
  induction before with
  | nil => simp
  | cons s rest ih => simp [ih, BitVec.or_assoc]

/- A byte on no state has no bits. -/
theorem bitsAt_eq_zero
    {tree : ExtentIoTree}
    {x : Nat}
    (hOff : ∀ s ∈ tree, x < s.start ∨ s.end_ < x) :
    bitsAt tree x = 0 := by
  induction tree with
  | nil => rfl
  | cons s rest ih =>
      have hHead := hOff s List.mem_cons_self
      have hTail := ih fun t ht =>
        hOff t (List.mem_cons_of_mem _ ht)
      have hState : s.bitsAt x = 0 := by
        unfold ExtentState.bitsAt
        rw [if_neg (by omega)]
      simp [hState, hTail]

/-
  The invariant of every tree the code builds: non-empty,
  disjoint, ascending ranges below the last `u64`.
-/
structure WellFormed
    (tree : ExtentIoTree) : Prop where
  ordered : Ordered tree
  bound : ∀ s ∈ tree, s.end_ < u64Max

variable {before after : ExtentIoTree}

/- The parts of a well-formed tree around one state. -/
theorem wellFormed_cursor_iff
    {s : ExtentState} :
    WellFormed (before ++ s :: after) ↔
      WellFormed before ∧ WellFormed after ∧
        s.start ≤ s.end_ ∧ s.end_ < u64Max ∧
        (∀ a ∈ before, a.end_ < s.start) ∧
        (∀ b ∈ after, s.end_ < b.start) ∧
        (∀ a ∈ before, ∀ b ∈ after, a.end_ < b.start) := by
  constructor
  · rintro ⟨hOrdered, hBound⟩
    rcases Ordered.cursor_iff.mp hOrdered with
      ⟨hBefore, hAfter, hNode, hLow, hHigh, hCross⟩
    refine ⟨⟨hBefore, ?_⟩, ⟨hAfter, ?_⟩,
      Nat.lt_succ_iff.mp hNode, hBound s (by simp),
      hLow, hHigh, hCross⟩
    · intro a ha
      exact hBound a (by simp [ha])
    · intro b hb
      exact hBound b (by simp [hb])
  · rintro ⟨hBefore, hAfter, hNode, hTop, hLow, hHigh,
      hCross⟩
    refine ⟨Ordered.cursor_iff.mpr
      ⟨hBefore.ordered, hAfter.ordered,
        Nat.lt_succ_iff.mpr hNode, hLow, hHigh, hCross⟩,
      ?_⟩
    intro t ht
    rcases List.mem_append.mp ht with h | h
    · exact hBefore.bound t h
    · rcases List.mem_cons.mp h with rfl | h
      · exact hTop
      · exact hAfter.bound t h

/- Only the extent of a state matters to well-formedness. -/
theorem WellFormed.replace
    {s t : ExtentState}
    (hWf : WellFormed (before ++ s :: after))
    (hStart : t.start = s.start)
    (hEnd : t.end_ = s.end_) :
    WellFormed (before ++ t :: after) := by
  rw [wellFormed_cursor_iff] at hWf ⊢
  simpa only [hStart, hEnd] using hWf

/- Removing a state keeps the rest well-formed. -/
theorem WellFormed.remove
    {s : ExtentState}
    (hWf : WellFormed (before ++ s :: after)) :
    WellFormed (before ++ after) := by
  rcases wellFormed_cursor_iff.mp hWf with
    ⟨hBefore, hAfter, -, -, -, -, hCross⟩
  refine ⟨Ordered.append_iff.mpr
    ⟨hBefore.ordered, hAfter.ordered, hCross⟩, ?_⟩
  intro t ht
  rcases List.mem_append.mp ht with h | h
  · exact hBefore.bound t h
  · exact hAfter.bound t h

/- In a well-formed tree other states leave `s` its bytes. -/
theorem bitsAt_of_mem_node
    {s : ExtentState}
    (hWf : WellFormed (before ++ s :: after))
    {x : Nat}
    (hLow : s.start ≤ x)
    (hHigh : x ≤ s.end_) :
    bitsAt before x = 0 ∧ bitsAt after x = 0 := by
  rcases wellFormed_cursor_iff.mp hWf with
    ⟨-, -, -, -, hBelow, hAbove, -⟩
  constructor
  · apply bitsAt_eq_zero
    intro a ha
    have := hBelow a ha
    omega
  · apply bitsAt_eq_zero
    intro b hb
    have := hAbove b hb
    omega

/-
  `tree'` has `f` applied to the bits of every byte in
  `[lo, hi)` and agrees with `tree` elsewhere.
-/
def MappedOn
    (f : BitVec 64 → BitVec 64)
    (tree tree' : ExtentIoTree)
    (lo hi : Nat) : Prop :=
  ∀ x, bitsAt tree' x =
    if lo ≤ x ∧ x < hi then f (bitsAt tree x)
    else bitsAt tree x

theorem MappedOn.trans
    {f : BitVec 64 → BitVec 64}
    {tree tree' tree'' : ExtentIoTree}
    {lo mid hi : Nat}
    (hFirst : MappedOn f tree tree' lo mid)
    (hSecond : MappedOn f tree' tree'' mid hi)
    (hLow : lo ≤ mid)
    (hHigh : mid ≤ hi) :
    MappedOn f tree tree'' lo hi := by
  intro x
  rw [hSecond x, hFirst x]
  by_cases hMid : x < mid
  · by_cases hLo : lo ≤ x
    · rw [if_neg (by omega), if_pos ⟨hLo, hMid⟩,
        if_pos ⟨hLo, by omega⟩]
    · rw [if_neg (by omega), if_neg (by omega),
        if_neg (by omega)]
  · by_cases hHi : x < hi
    · rw [if_pos ⟨by omega, hHi⟩, if_neg (by omega),
        if_pos ⟨by omega, hHi⟩]
    · rw [if_neg (by omega), if_neg (by omega),
        if_neg (by omega)]

----------
-- States That Reach Across a Byte
----------

/-
  Some state with bits `v` holds both byte `x` and byte
  `x + 1`.
-/
def Spans
    (tree : ExtentIoTree)
    (x : Nat)
    (v : BitVec 64) : Prop :=
  ∃ s ∈ tree, s.start ≤ x ∧ x < s.end_ ∧ s.state = v

theorem spans_append
    {x : Nat}
    {v : BitVec 64} :
    Spans (before ++ after) x v ↔
      Spans before x v ∨ Spans after x v := by
  simp [Spans, or_and_right, exists_or]

theorem spans_cons
    {s : ExtentState}
    {rest : ExtentIoTree}
    {x : Nat}
    {v : BitVec 64} :
    Spans (s :: rest) x v ↔
      (s.start ≤ x ∧ x < s.end_ ∧ s.state = v) ∨
        Spans rest x v := by
  simp [Spans]

/- Some state begins before `start` and reaches it. -/
def Cut
    (tree : ExtentIoTree)
    (start : Nat) : Prop :=
  ∃ s ∈ tree, s.start < start ∧ start ≤ s.end_

/- A pass moves on, or the cut state is gone. -/
theorem fuel_left
    {tree tree' : ExtentIoTree}
    {start start' end_ fuel : Nat}
    (hLe : start ≤ start')
    (hMore : start' ≤ end_)
    (hFuel : 2 * (end_ + 1 - start) ≤ fuel + 1)
    (hCutFuel : Cut tree start →
      2 * (end_ + 1 - start) < fuel + 1)
    (hProgress : start < start' ∨
      (Cut tree start ∧ ¬ Cut tree' start)) :
    2 * (end_ + 1 - start') ≤ fuel ∧
      (Cut tree' start' → 2 * (end_ + 1 - start') < fuel) := by
  rcases Nat.lt_or_eq_of_le hLe with hMoved | rfl
  · exact ⟨by omega, fun _ => by omega⟩
  · rcases hProgress with h | ⟨hCut, hGone⟩
    · omega
    · have := hCutFuel hCut
      exact ⟨by omega, fun hStill => absurd hStill hGone⟩

----------
-- Fusing Adjacent States
----------

/-
  `s` covers the adjacent states `a` and `b`, and all three
  have the same bits.
-/
structure Fused
    (a b s : ExtentState) : Prop where
  left : a.start ≤ a.end_
  right : b.start ≤ b.end_
  adjacent : a.end_ + 1 = b.start
  start : s.start = a.start
  end_ : s.end_ = b.end_
  stateLeft : a.state = s.state
  stateRight : b.state = s.state

namespace Fused

variable {a b s : ExtentState}

theorem bitsAt_eq
    (hFused : Fused a b s)
    (x : Nat) :
    s.bitsAt x = a.bitsAt x ||| b.bitsAt x := by
  have hLeft := hFused.left
  have hRight := hFused.right
  have hAdjacent := hFused.adjacent
  unfold ExtentState.bitsAt
  rw [hFused.start, hFused.end_, hFused.stateLeft,
    hFused.stateRight]
  by_cases hA : a.start ≤ x ∧ x ≤ a.end_
  · rw [if_pos (by omega), if_pos hA, if_neg (by omega)]
    simp
  · by_cases hB : b.start ≤ x ∧ x ≤ b.end_
    · rw [if_pos (by omega), if_neg hA, if_pos hB]
      simp
    · rw [if_neg (by omega), if_neg hA, if_neg hB]
      simp

theorem bitsAt_tree
    (hFused : Fused a b s)
    (before after : ExtentIoTree)
    (x : Nat) :
    bitsAt (before ++ s :: after) x =
      bitsAt (before ++ a :: b :: after) x := by
  simp [hFused.bitsAt_eq x, BitVec.or_assoc]

theorem wellFormed_iff
    (hFused : Fused a b s)
    {before after : ExtentIoTree} :
    WellFormed (before ++ s :: after) ↔
      WellFormed (before ++ a :: b :: after) := by
  have hLeft := hFused.left
  have hRight := hFused.right
  have hAdjacent := hFused.adjacent
  have hInner : WellFormed (b :: after) ↔
      WellFormed after ∧ b.end_ < u64Max ∧
        ∀ c ∈ after, b.end_ < c.start := by
    have hCursor :
        WellFormed ([] ++ b :: after) ↔ _ :=
      wellFormed_cursor_iff
    rw [List.nil_append] at hCursor
    rw [hCursor]
    constructor
    · rintro ⟨-, hAfter, -, hTop, -, hAbove, -⟩
      exact ⟨hAfter, hTop, hAbove⟩
    · rintro ⟨hAfter, hTop, hAbove⟩
      exact ⟨⟨Ordered.nil, by simp⟩, hAfter, hRight, hTop,
        by simp, hAbove, by simp⟩
  rw [wellFormed_cursor_iff, wellFormed_cursor_iff, hInner,
    hFused.start, hFused.end_]
  constructor
  · rintro ⟨hBefore, hAfter, -, hTop, hLow, hHigh, hCross⟩
    refine ⟨hBefore, ⟨hAfter, hTop, hHigh⟩, hLeft,
      by omega, hLow, ?_, ?_⟩
    · intro c hc
      rcases List.mem_cons.mp hc with rfl | h
      · omega
      · have := hHigh c h
        omega
    · intro c hc d hd
      rcases List.mem_cons.mp hd with rfl | h
      · have := hLow c hc
        omega
      · exact hCross c hc d h
  · rintro ⟨hBefore, ⟨hAfter, hTop, hHigh⟩, -, -, hLow, -,
      hCross⟩
    refine ⟨hBefore, hAfter, by omega, hTop, hLow, hHigh, ?_⟩
    intro c hc d hd
    exact hCross c hc d (List.mem_cons_of_mem _ hd)

/- Fusing only changes who spans the inner boundary. -/
theorem spans_iff
    (hFused : Fused a b s)
    {before after : ExtentIoTree}
    {x : Nat}
    {v : BitVec 64}
    (hBoundary : x ≠ a.end_) :
    Spans (before ++ s :: after) x v ↔
      Spans (before ++ a :: b :: after) x v := by
  have hLeft := hFused.left
  have hRight := hFused.right
  have hAdjacent := hFused.adjacent
  rw [spans_append, spans_append, spans_cons, spans_cons,
    spans_cons, hFused.start, hFused.end_, hFused.stateLeft,
    hFused.stateRight]
  constructor
  · rintro (h | ⟨hLow, hHigh, hState⟩ | h)
    · exact Or.inl h
    · rcases Nat.lt_or_gt_of_ne hBoundary with hLt | hGt
      · exact Or.inr (Or.inl ⟨hLow, hLt, hState⟩)
      · exact Or.inr (Or.inr (Or.inl
          ⟨by omega, hHigh, hState⟩))
    · exact Or.inr (Or.inr (Or.inr h))
  · rintro (h | ⟨hLow, hHigh, hState⟩ |
      ⟨hLow, hHigh, hState⟩ | h)
    · exact Or.inl h
    · exact Or.inr (Or.inl ⟨hLow, by omega, hState⟩)
    · exact Or.inr (Or.inl ⟨by omega, hHigh, hState⟩)
    · exact Or.inr (Or.inr h)

end Fused

----------
-- Merging
----------

/-
  Either nothing is merged, or the predecessor and the state
  become one.
-/
theorem mergePrev_cases
    (c : Cursor ExtentState)
    (hWf : WellFormed c.tree) :
    mergePrev c = c ∨
      ∃ before other s,
        c.before = before ++ [other] ∧
        Fused other c.node s ∧
        mergePrev c = ⟨before, s, c.after⟩ := by
  rcases c with ⟨before, node, after⟩
  rcases List.eq_nil_or_concat before with rfl | ⟨init, other, rfl⟩
  · left
    rfl
  · simp only [List.concat_eq_append] at hWf ⊢
    unfold mergePrev
    simp only [List.getLast?_append, List.getLast?_singleton,
      Option.some_or, List.dropLast_concat]
    split
    · rename_i hMerge
      right
      refine ⟨init, other, _, rfl, ?_, rfl⟩
      rcases wellFormed_cursor_iff.mp hWf with
        ⟨hBefore, -, hNode, -, -, -, -⟩
      have hOther : other.start ≤ other.end_ :=
        (wellFormed_cursor_iff.mp hBefore).2.2.1
      exact
        { left := hOther
          right := hNode
          adjacent := hMerge.1
          start := rfl
          end_ := rfl
          stateLeft := hMerge.2
          stateRight := rfl }
    · left
      rfl

/-
  Either nothing is merged, or the state and its successor
  become one.
-/
theorem mergeNext_cases
    (c : Cursor ExtentState)
    (hWf : WellFormed c.tree) :
    mergeNext c = c.tree ∨
      ∃ other rest s,
        c.after = other :: rest ∧
        Fused c.node other s ∧
        mergeNext c = c.before ++ s :: rest := by
  rcases c with ⟨before, node, after⟩
  cases after with
  | nil => exact Or.inl rfl
  | cons other rest =>
      unfold mergeNext
      simp only
      split
      · rename_i hMerge
        right
        refine ⟨other, rest, _, rfl, ?_, rfl⟩
        rcases wellFormed_cursor_iff.mp hWf with
          ⟨-, hAfter, hNode, -, -, -, -⟩
        have hOther : other.start ≤ other.end_ :=
          Nat.lt_succ_iff.mp (hAfter.ordered.nonempty other
            List.mem_cons_self)
        exact
          { left := hNode
            right := hOther
            adjacent := hMerge.1.symm
            start := rfl
            end_ := rfl
            stateLeft := hMerge.2.symm
            stateRight := rfl }
      · exact Or.inl rfl

/-
  What `mergePrev` keeps: the tree stays well-formed, no
  byte changes its bits, and only the boundary in front of
  the state may get spanned.
-/
theorem mergePrev_spec
    (c : Cursor ExtentState)
    (hWf : WellFormed c.tree) :
    WellFormed (mergePrev c).tree ∧
      (mergePrev c).node.end_ = c.node.end_ ∧
      (∀ x, bitsAt (mergePrev c).tree x =
        bitsAt c.tree x) ∧
      ∀ x v, x + 1 ≠ c.node.start →
        (Spans (mergePrev c).tree x v ↔
          Spans c.tree x v) := by
  rcases mergePrev_cases c hWf with hSame | hMerge
  · rw [hSame]
    exact ⟨hWf, rfl, fun _ => rfl, fun _ _ _ => Iff.rfl⟩
  · rcases hMerge with ⟨before, other, s, hBefore, hFused,
      hMerge⟩
    have hTree : c.tree =
        before ++ other :: c.node :: c.after := by
      simp [Cursor.tree, hBefore]
    rw [hMerge, hTree]
    refine ⟨?_, hFused.end_, ?_, ?_⟩
    · rw [Cursor.tree, hFused.wellFormed_iff, ← hTree]
      exact hWf
    · intro x
      exact hFused.bitsAt_tree before c.after x
    · intro x v hx
      have hAdjacent := hFused.adjacent
      exact hFused.spans_iff (by omega)

/- The same for `mergeNext`, at the boundary behind. -/
theorem mergeNext_spec
    (c : Cursor ExtentState)
    (hWf : WellFormed c.tree) :
    WellFormed (mergeNext c) ∧
      (∀ x, bitsAt (mergeNext c) x = bitsAt c.tree x) ∧
      ∀ x v, x ≠ c.node.end_ →
        (Spans (mergeNext c) x v ↔ Spans c.tree x v) := by
  rcases mergeNext_cases c hWf with hSame | hMerge
  · rw [hSame]
    exact ⟨hWf, fun _ => rfl, fun _ _ _ => Iff.rfl⟩
  · rcases hMerge with ⟨other, rest, s, hAfter, hFused,
      hMerge⟩
    have hTree : c.tree =
        c.before ++ c.node :: other :: rest := by
      simp [Cursor.tree, hAfter]
    rw [hMerge, hTree]
    refine ⟨?_, ?_, ?_⟩
    · rw [hFused.wellFormed_iff, ← hTree]
      exact hWf
    · intro x
      exact hFused.bitsAt_tree c.before rest x
    · intro x v hx
      exact hFused.spans_iff hx

theorem mergeState_spec
    (c : Cursor ExtentState)
    (hWf : WellFormed c.tree) :
    WellFormed (mergeState c) ∧
      (∀ x, bitsAt (mergeState c) x = bitsAt c.tree x) ∧
      ∀ x v, x + 1 ≠ c.node.start → x ≠ c.node.end_ →
        (Spans (mergeState c) x v ↔ Spans c.tree x v) := by
  unfold mergeState
  split
  · exact ⟨hWf, fun _ => rfl, fun _ _ _ _ => Iff.rfl⟩
  · rcases mergePrev_spec c hWf with
      ⟨hPrevWf, hPrevEnd, hPrevBits, hPrevSpans⟩
    rcases mergeNext_spec (mergePrev c) hPrevWf with
      ⟨hNextWf, hNextBits, hNextSpans⟩
    refine ⟨hNextWf, ?_, ?_⟩
    · intro x
      rw [hNextBits, hPrevBits]
    · intro x v hStart hEnd
      rw [hNextSpans x v (by rw [hPrevEnd]; exact hEnd),
        hPrevSpans x v hStart]

----------
-- Inserting and Splitting
----------

/- `insert_state` fills a hole between two parts. -/
theorem insertState_spec
    (before after : ExtentIoTree)
    {start end_ : Nat}
    (bits : BitVec 64)
    (hWf : WellFormed (before ++ after))
    (hRange : start ≤ end_)
    (hTop : end_ < u64Max)
    (hBefore : ∀ a ∈ before, a.end_ < start)
    (hAfter : ∀ b ∈ after, end_ < b.start) :
    ∃ tree',
      insertState (before ++ after) start end_ bits =
        some tree' ∧
      WellFormed tree' ∧
      (∀ x, bitsAt tree' x =
        if start ≤ x ∧ x < end_ + 1 then
          bitsAt (before ++ after) x ||| bits
        else bitsAt (before ++ after) x) ∧
      ∀ x v, x + 1 ≠ start → x < start ∨ end_ < x →
        (Spans tree' x v ↔ Spans (before ++ after) x v) := by
  let node : ExtentState := ⟨start, end_, bits, 0⟩
  have hInsert :
      insert (before ++ after) node =
        some ⟨before, node, after⟩ := by
    apply insert_append
    · exact hBefore
    · exact hAfter
    · intro b hb
      have hLow := hAfter b hb
      have hNode := hWf.ordered.nonempty b
        (List.mem_append_right _ hb)
      change start < b.end_ + 1
      change b.start < b.end_ + 1 at hNode
      omega
  have hNode : WellFormed (before ++ node :: after) := by
    rcases Ordered.append_iff.mp hWf.ordered with
      ⟨hLeft, hRight, hCross⟩
    apply wellFormed_cursor_iff.mpr
    refine ⟨⟨hLeft, ?_⟩, ⟨hRight, ?_⟩, hRange, hTop,
      hBefore, hAfter, hCross⟩
    · intro a ha
      exact hWf.bound a (List.mem_append_left _ ha)
    · intro b hb
      exact hWf.bound b (List.mem_append_right _ hb)
  rcases mergeState_spec ⟨before, node, after⟩ hNode with
    ⟨hMergeWf, hMergeBits, hMergeSpans⟩
  refine ⟨_, ?_, hMergeWf, ?_, ?_⟩
  · have hBits :
        ({ allocExtentState start end_ with
            state := (allocExtentState start end_).state |||
              bits } : ExtentState) = node := by
      simp [allocExtentState, node]
    unfold insertState
    rw [if_neg (by omega)]
    simp only [hBits, hInsert, Option.map_some]
  · intro x
    rw [hMergeBits]
    by_cases hx : start ≤ x ∧ x < end_ + 1
    · have hState : node.bitsAt x = bits := by
        unfold ExtentState.bitsAt
        rw [if_pos ⟨hx.1, by
          change x ≤ end_
          omega⟩]
      rw [if_pos hx]
      simp only [Cursor.tree, bitsAt_append, bitsAt_cons,
        hState]
      rw [BitVec.or_assoc, BitVec.or_comm bits]
    · have hState : node.bitsAt x = 0 := by
        unfold ExtentState.bitsAt
        rw [if_neg (by
          change ¬ (start ≤ x ∧ x ≤ end_)
          omega)]
      rw [if_neg hx]
      simp [Cursor.tree, hState]
  · intro x v hStart hOutside
    rw [hMergeSpans x v hStart (by
      change x ≠ end_
      omega)]
    simp only [Cursor.tree]
    rw [spans_append, spans_append, spans_cons]
    have hNot : ¬ (node.start ≤ x ∧ x < node.end_ ∧
        node.state = v) := by
      rintro ⟨hLow, hHigh, -⟩
      change start ≤ x at hLow
      change x < end_ at hHigh
      omega
    simp [hNot]

/-
  `split_state` cuts the state under the cursor in two and
  inserts the first half in front of it.
-/
theorem splitState_spec
    (c : Cursor ExtentState)
    (split : Nat)
    (hWf : WellFormed c.tree)
    (hLow : c.node.start < split)
    (hHigh : split ≤ c.node.end_) :
    ∃ prealloc orig,
      splitState c split =
        some ⟨c.before, prealloc, orig :: c.after⟩ ∧
      Fused prealloc orig c.node ∧
      prealloc.end_ + 1 = split := by
  let prealloc : ExtentState :=
    ⟨c.node.start, split - 1, c.node.state, 0⟩
  let orig : ExtentState := { c.node with start := split }
  rcases wellFormed_cursor_iff.mp hWf with
    ⟨-, hAfterWf, -, -, hBefore, hAfter, -⟩
  refine ⟨prealloc, orig, ?_, ?_, ?_⟩
  · change insert (c.before ++ orig :: c.after) prealloc = _
    apply insert_append
    · exact hBefore
    · intro b hb
      change split - 1 + 1 ≤ b.start
      rcases List.mem_cons.mp hb with rfl | h
      · change split - 1 + 1 ≤ split
        omega
      · have := hAfter b h
        omega
    · intro b hb
      change c.node.start < b.end_ + 1
      rcases List.mem_cons.mp hb with rfl | h
      · change c.node.start < c.node.end_ + 1
        omega
      · have hNode := hAfterWf.ordered.nonempty b h
        change b.start < b.end_ + 1 at hNode
        have := hAfter b h
        omega
  · exact
      { left := by
          change c.node.start ≤ split - 1
          omega
        right := hHigh
        adjacent := by
          change split - 1 + 1 = split
          omega
        start := rfl
        end_ := rfl
        stateLeft := rfl
        stateRight := rfl }
  · change split - 1 + 1 = split
    omega

end ExtentIo

end BtrfsProgs
