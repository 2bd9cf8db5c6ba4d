import BtrfsProgs.ExtentIo.Runs

/-
  Trees in which all states have the same bits, such as
  `free_space_cache` and `pinned_extents`.

  On these a tree is the set of its bytes: setting adds the
  bytes of the range, clearing takes them out, and looking at
  the tree reads the set.

  Main declarations:
    * `Uniform` and `Marked`
    * `Uniform.setExtentBits` and `Uniform.clearExtentBits`
    * `findFirstExtentBit_marked`
    * `Uniform.testRangeBit`
-/

----------
-- The Bits of States
----------

namespace BtrfsProgs

namespace ExtentIo

open RangeTree

/- Every state has bits with the property. -/
def States
    (P : BitVec 64 → Prop)
    (tree : ExtentIoTree) : Prop :=
  ∀ s ∈ tree, P s.state

section States

variable {P : BitVec 64 → Prop}

theorem states_cursor_iff
    {before after : ExtentIoTree}
    {s : ExtentState} :
    States P (before ++ s :: after) ↔
      States P before ∧ P s.state ∧ States P after := by
  unfold States
  constructor
  · intro hAll
    refine ⟨?_, ?_, ?_⟩
    · exact fun t ht => hAll t (List.mem_append_left _ ht)
    · exact hAll s
        (List.mem_append_right _ List.mem_cons_self)
    · exact fun t ht => hAll t
        (List.mem_append_right _ (List.mem_cons_of_mem _ ht))
  · rintro ⟨hBefore, hNode, hAfter⟩ t ht
    rcases List.mem_append.mp ht with h | h
    · exact hBefore t h
    · rcases List.mem_cons.mp h with rfl | h
      · exact hNode
      · exact hAfter t h

variable {c : Cursor ExtentState}

theorem mergePrev_states
    (hStates : States P c.tree) :
    States P (mergePrev c).tree := by
  rcases states_cursor_iff.mp hStates with
    ⟨hBefore, hNode, hAfter⟩
  unfold mergePrev
  split
  case h_1 => exact hStates
  case h_2 other _ =>
    split
    case isTrue =>
      refine states_cursor_iff.mpr ⟨?_, hNode, hAfter⟩
      exact fun t ht =>
        hBefore t ((List.dropLast_sublist _).subset ht)
    case isFalse => exact hStates

theorem mergeNext_states
    (hStates : States P c.tree) :
    States P (mergeNext c) := by
  rcases states_cursor_iff.mp hStates with
    ⟨hBefore, hNode, hAfter⟩
  unfold mergeNext
  split
  case h_1 => exact hStates
  case h_2 other rest hRest =>
    rw [hRest] at hAfter
    split
    case isTrue =>
      refine states_cursor_iff.mpr ⟨hBefore, ?_, ?_⟩
      · exact hAfter other List.mem_cons_self
      · exact fun t ht => hAfter t (List.mem_cons_of_mem _ ht)
    case isFalse => exact hStates

theorem mergeState_states
    (hStates : States P c.tree) :
    States P (mergeState c) := by
  unfold mergeState
  split
  case isTrue => exact hStates
  case isFalse => exact mergeNext_states (mergePrev_states hStates)

theorem insertState_states
    {tree tree' : ExtentIoTree}
    {start end_ : Nat}
    {bits : BitVec 64}
    (hBits : P bits)
    (hStates : States P tree)
    (hInsert : insertState tree start end_ bits = some tree') :
    States P tree' := by
  unfold insertState at hInsert
  split at hInsert
  case isTrue => cases hInsert
  case isFalse =>
    rcases Option.map_eq_some_iff.mp hInsert with
      ⟨c, hLink, rfl⟩
    apply mergeState_states
    intro s hs
    rcases (insert_mem_iff hLink s).mp hs with rfl | hOld
    · simpa [allocExtentState] using hBits
    · exact hStates s hOld

theorem splitState_states
    {c d : Cursor ExtentState}
    {split : Nat}
    (hStates : States P c.tree)
    (hSplit : splitState c split = some d) :
    States P d.tree := by
  rcases states_cursor_iff.mp hStates with
    ⟨hBefore, hNode, hAfter⟩
  intro s hs
  unfold splitState at hSplit
  rcases (insert_mem_iff hSplit s).mp hs with rfl | hOld
  · exact hNode
  · rcases List.mem_append.mp hOld with h | h
    · exact hBefore s h
    · rcases List.mem_cons.mp h with rfl | h
      · exact hNode
      · exact hAfter s h

theorem next_states
    {c d : Cursor ExtentState}
    (hStates : States P c.tree)
    (hNext : c.next = some d) :
    States P d.tree := by
  unfold Cursor.next at hNext
  split at hNext
  case h_1 => cases hNext
  case h_2 n rest hRest =>
    cases hNext
    have hSame : c.tree = (c.before ++ [c.node]) ++ n :: rest := by
      simp [Cursor.tree, hRest]
    rw [hSame] at hStates
    exact hStates

theorem split_next_states
    {c d : Cursor ExtentState}
    {split : Nat}
    (hStates : States P c.tree)
    (hNext : (splitState c split).bind Cursor.next = some d) :
    States P d.tree := by
  rcases Option.bind_eq_some_iff.mp hNext with
    ⟨e, hSplit, hNext⟩
  exact next_states (splitState_states hStates hSplit) hNext

theorem setStateAndMerge_states
    {bits : BitVec 64}
    (hOr : ∀ v, P v → P (v ||| bits))
    (hStates : States P c.tree) :
    States P (setStateAndMerge c bits) := by
  rcases states_cursor_iff.mp hStates with
    ⟨hBefore, hNode, hAfter⟩
  apply mergeState_states
  exact states_cursor_iff.mpr ⟨hBefore, hOr _ hNode, hAfter⟩

/- One pass of `set_extent_bits`. -/
theorem setExtentBitsPass_states
    (start end_ : Nat)
    {tree : ExtentIoTree}
    {bits : BitVec 64}
    (hBits : P bits)
    (hOr : ∀ v, P v → P (v ||| bits))
    (hStates : States P tree) :
    match setExtentBitsPass tree start end_ bits with
    | .bug => True
    | .out tree' => States P tree'
    | .searchAgain tree' _ => States P tree' := by
  unfold setExtentBitsPass
  cases hSearch : search tree start with
  | none =>
      simp only
      cases hInsert : insertState tree start end_ bits with
      | none => trivial
      | some tree' =>
          exact insertState_states hBits hStates hInsert
  | some c =>
      rw [(search_spec hSearch).1] at hStates
      simp only
      by_cases hInside :
          c.node.start = start ∧ c.node.end_ ≤ end_
      · rw [if_pos hInside]
        split_ifs
        · exact setStateAndMerge_states hOr hStates
        · exact setStateAndMerge_states hOr hStates
      rw [if_neg hInside]
      by_cases hBelow : c.node.start < start
      · rw [if_pos hBelow]
        cases hSplit :
            (splitState c start).bind Cursor.next with
        | none => trivial
        | some d =>
            have hd := split_next_states hStates hSplit
            simp only
            by_cases hEnd : d.node.end_ ≤ end_
            · rw [if_pos hEnd]
              split_ifs
              · exact setStateAndMerge_states hOr hd
              · exact setStateAndMerge_states hOr hd
            · rw [if_neg hEnd]
              exact hd
      rw [if_neg hBelow]
      by_cases hHole : start < c.node.start
      · rw [if_pos hHole]
        rw [← (search_spec hSearch).1] at hStates
        generalize (if end_ < c.node.start then end_
          else c.node.start - 1) = thisEnd
        cases hInsert :
            insertState tree start thisEnd bits with
        | none => trivial
        | some tree' =>
            exact insertState_states hBits hStates hInsert
      · rw [if_neg hHole]
        cases hSplit : splitState c (end_ + 1) with
        | none => trivial
        | some p =>
            have hp := splitState_states hStates hSplit
            rcases states_cursor_iff.mp hp with
              ⟨hBefore, hNode, hAfter⟩
            simp only
            cases hRest : p.after with
            | nil => trivial
            | cons orig rest =>
                rw [hRest] at hAfter
                apply mergeState_states
                refine states_cursor_iff.mpr
                  ⟨hBefore, hNode, ?_⟩
                intro s hs
                rcases List.mem_cons.mp hs with rfl | hs
                · exact hOr _ (hAfter orig List.mem_cons_self)
                · exact hAfter s (List.mem_cons_of_mem _ hs)

theorem setExtentBitsLoop_states
    {end_ fuel : Nat}
    {bits : BitVec 64}
    (hBits : P bits)
    (hOr : ∀ v, P v → P (v ||| bits))
    {tree tree' : ExtentIoTree}
    {start : Nat}
    (hStates : States P tree)
    (hLoop :
      setExtentBitsLoop end_ bits fuel tree start =
        some tree') :
    States P tree' := by
  induction fuel generalizing tree start with
  | zero => cases hLoop
  | succ fuel ih =>
      have hPass := setExtentBitsPass_states start end_ hBits
        hOr hStates
      unfold setExtentBitsLoop at hLoop
      split at hLoop
      case h_1 => cases hLoop
      case h_2 tree'' hOut =>
        cases hLoop
        rw [hOut] at hPass
        exact hPass
      case h_3 tree'' start' hAgain =>
        rw [hAgain] at hPass
        split at hLoop
        case isTrue =>
          cases hLoop
          exact hPass
        case isFalse => exact ih hPass hLoop

/- Clearing takes a state out when it has no bits left. -/
theorem clearStateBit_states
    {bits : BitVec 64}
    (hClear : ∀ v, P v → v &&& ~~~bits = 0 ∨ P (v &&& ~~~bits))
    (hStates : States P c.tree) :
    States P (clearStateBit c bits).2 := by
  rcases states_cursor_iff.mp hStates with
    ⟨hBefore, hNode, hAfter⟩
  unfold clearStateBit
  simp only
  split
  case isTrue =>
    intro s hs
    rcases List.mem_append.mp hs with h | h
    · exact hBefore s h
    · exact hAfter s h
  case isFalse hSome =>
    apply mergeState_states
    refine states_cursor_iff.mpr ⟨hBefore, ?_, hAfter⟩
    exact (hClear _ hNode).resolve_left hSome

/- One pass of `clear_extent_bits`. -/
theorem clearExtentBitsPass_states
    (start end_ : Nat)
    {tree : ExtentIoTree}
    {bits : BitVec 64}
    (hClear : ∀ v, P v → v &&& ~~~bits = 0 ∨ P (v &&& ~~~bits))
    (hStates : States P tree) :
    match clearExtentBitsPass tree start end_ bits with
    | .bug => True
    | .out _ tree' => States P tree'
    | .searchAgain _ tree' _ => States P tree' := by
  unfold clearExtentBitsPass
  cases hSearch : search tree start with
  | none => exact hStates
  | some c =>
      simp only
      by_cases hAfter : end_ < c.node.start
      · rw [if_pos hAfter]
        exact hStates
      rw [(search_spec hSearch).1] at hStates
      rw [if_neg hAfter]
      by_cases hBelow : c.node.start < start
      · rw [if_pos hBelow]
        cases hSplit :
            (splitState c start).bind Cursor.next with
        | none => trivial
        | some d =>
            have hd := split_next_states hStates hSplit
            simp only
            by_cases hEnd : d.node.end_ ≤ end_
            · rw [if_pos hEnd]
              split_ifs
              · exact clearStateBit_states hClear hd
              · exact clearStateBit_states hClear hd
            · rw [if_neg hEnd]
              exact hd
      rw [if_neg hBelow]
      by_cases hAcross : end_ < c.node.end_
      · rw [if_pos hAcross]
        cases hSplit : splitState c (end_ + 1) with
        | none => trivial
        | some p =>
            exact clearStateBit_states hClear
              (splitState_states hStates hSplit)
      · rw [if_neg hAcross]
        split_ifs
        · exact clearStateBit_states hClear hStates
        · exact clearStateBit_states hClear hStates

theorem clearExtentBitsLoop_states
    {end_ fuel : Nat}
    {bits : BitVec 64}
    (hClear : ∀ v, P v → v &&& ~~~bits = 0 ∨ P (v &&& ~~~bits))
    {tree tree' : ExtentIoTree}
    {start : Nat}
    {set set' : BitVec 32}
    (hStates : States P tree)
    (hLoop :
      clearExtentBitsLoop end_ bits fuel set tree start =
        some (set', tree')) :
    States P tree' := by
  induction fuel generalizing tree start set with
  | zero => cases hLoop
  | succ fuel ih =>
      have hPass := clearExtentBitsPass_states start end_
        hClear hStates
      unfold clearExtentBitsLoop at hLoop
      split at hLoop
      case h_1 => cases hLoop
      case h_2 found tree'' hOut =>
        cases hLoop
        rw [hOut] at hPass
        exact hPass
      case h_3 found tree'' start' hAgain =>
        rw [hAgain] at hPass
        split at hLoop
        case isTrue =>
          cases hLoop
          exact hPass
        case isFalse => exact ih hPass hLoop

end States

----------
-- Trees as Sets of Bytes
----------

/- A well-formed tree whose states all have these bits. -/
structure Uniform
    (bits : BitVec 64)
    (tree : ExtentIoTree) : Prop where
  wellFormed : WellFormed tree
  states : States (fun v => v = bits) tree

/- A state of the tree holds the byte. -/
def Marked
    (tree : ExtentIoTree)
    (x : Nat) : Prop :=
  ∃ s ∈ tree, s.start ≤ x ∧ x ≤ s.end_

instance
    (tree : ExtentIoTree)
    (x : Nat) :
    Decidable (Marked tree x) := by
  unfold Marked
  infer_instance

theorem Uniform.nil
    (bits : BitVec 64) :
    Uniform bits [] where
  wellFormed := ⟨RangeTree.Ordered.nil, by simp⟩
  states := by simp [States]

section Marked

variable {bits : BitVec 64}
variable {tree tree' : ExtentIoTree}

theorem bitsAt_of_mem
    (hWf : WellFormed tree)
    {s : ExtentState}
    (hs : s ∈ tree)
    {x : Nat}
    (hLow : s.start ≤ x)
    (hHigh : x ≤ s.end_) :
    bitsAt tree x = s.state := by
  rcases List.append_of_mem hs with ⟨before, after, rfl⟩
  rcases bitsAt_of_mem_node hWf hLow hHigh with
    ⟨hBefore, hAfter⟩
  rw [bitsAt_append, bitsAt_cons, hBefore, hAfter]
  unfold ExtentState.bitsAt
  rw [if_pos ⟨hLow, hHigh⟩]
  simp

theorem Uniform.bitsAt_eq
    (hTree : Uniform bits tree)
    (x : Nat) :
    bitsAt tree x = if Marked tree x then bits else 0 := by
  by_cases hMarked : Marked tree x
  · rw [if_pos hMarked]
    rcases hMarked with ⟨s, hs, hLow, hHigh⟩
    rw [bitsAt_of_mem hTree.wellFormed hs hLow hHigh]
    exact hTree.states s hs
  · rw [if_neg hMarked]
    apply bitsAt_eq_zero
    intro s hs
    by_contra hIn
    exact hMarked ⟨s, hs, by omega, by omega⟩

/- A byte is marked when it has the bits. -/
theorem Uniform.marked_iff
    (hTree : Uniform bits tree)
    (hBits : bits ≠ 0)
    (x : Nat) :
    Marked tree x ↔ bitsAt tree x = bits := by
  rw [hTree.bitsAt_eq]
  by_cases hMarked : Marked tree x
  · rw [if_pos hMarked]
    exact ⟨fun _ => rfl, fun _ => hMarked⟩
  · rw [if_neg hMarked]
    exact ⟨fun h => absurd h hMarked,
      fun h => absurd h.symm hBits⟩

/- Setting the bits adds the bytes of the range. -/
theorem Uniform.setExtentBits
    (hTree : Uniform bits tree)
    (hBits : bits ≠ 0)
    {start end_ : Nat}
    (hRange : start ≤ end_)
    (hTop : end_ < u64Max) :
    ∃ tree',
      ExtentIo.setExtentBits tree start end_ bits =
        some tree' ∧
      Uniform bits tree' ∧
      ∀ x, Marked tree' x ↔
        Marked tree x ∨ (start ≤ x ∧ x ≤ end_) := by
  rcases setExtentBits_spec bits hTree.wellFormed hRange
    hTop with ⟨tree', hSet, hWf, hOutcome⟩
  have hStates : States (fun v => v = bits) tree' := by
    apply setExtentBitsLoop_states (P := fun v => v = bits)
      rfl ?_ hTree.states hSet
    intro v hv
    simp [hv]
  have hTree' : Uniform bits tree' := ⟨hWf, hStates⟩
  refine ⟨tree', hSet, hTree', ?_⟩
  have hOn := (hOutcome.setOn_iff hRange).mpr (by
    rintro v ⟨s, hs, _, _, rfl⟩
    rw [hTree.states s hs]
    simp)
  intro x
  rw [hTree'.marked_iff hBits, hOn x,
    hTree.marked_iff hBits x]
  have hOld := hTree.bitsAt_eq x
  by_cases hIn : start ≤ x ∧ x < end_ + 1
  · rw [if_pos hIn]
    constructor
    · intro _
      exact Or.inr ⟨hIn.1, by omega⟩
    · intro _
      rw [hOld]
      split
      · simp
      · simp
  · rw [if_neg hIn]
    constructor
    · exact Or.inl
    · rintro (h | h)
      · exact h
      · omega

/- Clearing the bits takes out the bytes of the range. -/
theorem Uniform.clearExtentBits
    (hTree : Uniform bits tree)
    (hBits : bits ≠ 0)
    {start end_ : Nat}
    (hRange : start ≤ end_) :
    ∃ found tree',
      ExtentIo.clearExtentBits tree start end_ bits =
        some (found, tree') ∧
      Uniform bits tree' ∧
      ∀ x, Marked tree' x ↔
        Marked tree x ∧ ¬ (start ≤ x ∧ x ≤ end_) := by
  rcases clearExtentBits_spec bits hTree.wellFormed hRange
    with ⟨found, tree', hClear, hWf, hOn⟩
  have hStates : States (fun v => v = bits) tree' := by
    refine clearExtentBitsLoop_states ?_ hTree.states hClear
    intro v hv
    left
    simp [hv]
  have hTree' : Uniform bits tree' := ⟨hWf, hStates⟩
  refine ⟨found, tree', hClear, hTree', ?_⟩
  intro x
  rw [hTree'.marked_iff hBits, hOn x,
    hTree.marked_iff hBits x]
  have hOld := hTree.bitsAt_eq x
  by_cases hIn : start ≤ x ∧ x < end_ + 1
  · rw [if_pos hIn]
    constructor
    · intro hSome
      exfalso
      rw [hOld] at hSome
      split at hSome
      · simp at hSome
        exact hBits hSome.symm
      · simp at hSome
        exact hBits hSome.symm
    · rintro ⟨_, hNot⟩
      omega
  · rw [if_neg hIn]
    constructor
    · intro hSome
      exact ⟨hSome, by omega⟩
    · exact fun h => h.1

/- The range that is found is marked. -/
theorem findFirstExtentBit_marked
    {start lo hi : Nat}
    (hFind :
      findFirstExtentBit tree start bits = some (lo, hi)) :
    start ≤ hi ∧ ∀ x, lo ≤ x → x ≤ hi → Marked tree x := by
  unfold findFirstExtentBit at hFind
  split at hFind
  case h_1 => cases hFind
  case h_2 c hSearch =>
    rcases Option.map_eq_some_iff.mp hFind with
      ⟨s, hs, hSame⟩
    cases hSame
    have hMem : s ∈ tree := by
      rw [(search_spec hSearch).1]
      exact List.mem_append_right _ (List.mem_of_find?_eq_some hs)
    have hHas := List.find?_some hs
    simp only [Bool.and_eq_true, decide_eq_true_eq] at hHas
    refine ⟨hHas.1, ?_⟩
    intro x hLow hHigh
    exact ⟨s, hMem, hLow, hHigh⟩

/- The loop of `test_range_bit` finds a marked byte. -/
theorem testRangeLoop_unmarked
    {end_ start : Nat}
    (hBits : bits ≠ 0)
    {l : List ExtentState}
    (hOrdered : Ordered l)
    (hStates : States (fun v => v = bits) l)
    (hTest : testRangeLoop end_ bits false l start false = false)
    {s : ExtentState}
    (hs : s ∈ l)
    {x : Nat}
    (hLow : start ≤ x)
    (hHigh : x ≤ end_) :
    ¬ (s.start ≤ x ∧ x ≤ s.end_) := by
  cases l with
  | nil => cases hs
  | cons t rest =>
      have hState := hStates t List.mem_cons_self
      unfold testRangeLoop at hTest
      rw [if_neg (by omega), if_neg (by simp)] at hTest
      by_cases hAfter : end_ < t.start
      · rcases List.mem_cons.mp hs with rfl | hs
        · omega
        · have hNext : t.end_ + 1 ≤ s.start :=
            (Ordered.cons_iff.mp hOrdered).2.2 s hs
          have hNode : t.start < t.end_ + 1 :=
            (Ordered.cons_iff.mp hOrdered).1
          omega
      · have hHas : t.state &&& bits ≠ 0 := by
          rw [show t.state = bits from hState,
            BitVec.and_self]
          exact hBits
        rw [if_neg hAfter, if_pos hHas, if_pos rfl] at hTest
        cases hTest

/- A range that fails the test has no marked byte. -/
theorem Uniform.testRangeBit
    (hTree : Uniform bits tree)
    (hBits : bits ≠ 0)
    {start end_ : Nat}
    (hTest :
      ExtentIo.testRangeBit tree start end_ bits false = false)
    {x : Nat}
    (hLow : start ≤ x)
    (hHigh : x ≤ end_) :
    ¬ Marked tree x := by
  rintro ⟨s, hs, hIn⟩
  unfold ExtentIo.testRangeBit at hTest
  split at hTest
  case h_1 hSearch =>
    have hBefore : s.end_ + 1 ≤ start :=
      search_eq_none hSearch s hs
    omega
  case h_2 c hSearch =>
    rcases search_spec hSearch with ⟨hSame, hBefore, _⟩
    have hWf := hTree.wellFormed.ordered
    have hStates := hTree.states
    rw [hSame] at hs hWf hStates
    rcases List.mem_append.mp hs with h | h
    · have hEnd : s.end_ + 1 ≤ start := hBefore s h
      omega
    · have hRest : Ordered (c.node :: c.after) :=
        (Ordered.append_iff.mp hWf).2.1
      refine testRangeLoop_unmarked hBits hRest ?_ hTest h hLow
        hHigh hIn
      exact fun t ht => hStates t (List.mem_append_right _ ht)

theorem EXTENT_DIRTY_ne_zero :
    EXTENT_DIRTY ≠ 0 := by
  decide

end Marked

end ExtentIo

end BtrfsProgs
