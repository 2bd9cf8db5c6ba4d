import BtrfsProgs.Ctree.LeafWalk

/-
  Over all leaves with `btrfs_next_leaf` and
  `btrfs_prev_leaf`, from a path of `btrfs_search_slot`.

  Main declarations:
    * `genericBinSearch` and `searchSlot`
    * `InOrder`
    * `calls`
    * `leafIteration_exact`
-/

----------
-- The Search
----------

namespace BtrfsProgs

namespace Ctree

open Trail

/-
  `generic_bin_search`, over what `btrfs_comp_keys` says of an
  entry and the key.
-/
def genericBinSearch
    (comp : Nat → Int)
    (low high : Nat) : Int × Nat :=
  if low < high then
    let mid := (low + high) / 2
    let ret := comp mid
    if ret < 0 then genericBinSearch comp (mid + 1) high
    else if 0 < ret then genericBinSearch comp low mid
    else (0, mid)
  else (1, low)
termination_by high - low

/- The slot is one of an entry, or the one behind them. -/
theorem genericBinSearch_slot
    (comp : Nat → Int)
    (low high : Nat)
    (hLow : low ≤ high) :
    (genericBinSearch comp low high).2 ≤ high ∧
      ((genericBinSearch comp low high).1 = 0 →
        (genericBinSearch comp low high).2 < high) := by
  fun_induction genericBinSearch comp low high with
  | case1 low high hMore mid ret hLess ih =>
      exact ih (by omega)
  | case2 low high hMore mid ret hLess hGreater ih =>
      have hMid : low ≤ mid ∧ mid < high := by omega
      rcases ih hMid.1 with ⟨hSlot, hFound⟩
      exact ⟨hSlot.trans (Nat.le_of_lt hMid.2), fun hZero =>
        (hFound hZero).trans hMid.2⟩
  | case3 low high hMore mid ret hLess hGreater =>
      have hMid : mid < high := by omega
      exact ⟨Nat.le_of_lt hMid, fun _ => hMid⟩
  | case4 low high hEnd =>
      exact ⟨hLow, fun hZero => absurd hZero one_ne_zero⟩

section Search

variable {N : Type}
variable (T : Slots N)

/-
  `btrfs_search_slot` without a change of the tree, from a
  block of a level that is known.
-/
def searchSlot
    (comp : N → Nat → Int) :
    Nat → N → BtrfsPath N → Int × BtrfsPath N
  | 0, b, p =>
      let (ret, slot) := genericBinSearch (comp b) 0 (T.count b)
      (ret, p.put 0 b slot)
  | level + 1, b, p =>
      let (ret, slot) := genericBinSearch (comp b) 0 (T.count b)
      let slot := if ret ≠ 0 ∧ 0 < slot then slot - 1 else slot
      let p := p.put (level + 1) b slot
      match T.child b slot with
      | none => (-5, p)
      | some b => searchSlot comp level b p

/- A path that nothing has been put in. -/
def BtrfsPath.Released
    (path : BtrfsPath N) : Prop :=
  ∀ level, path.nodes level = none

variable {T}
variable {level top : Nat}
variable {n root leaf : N}
variable {path path' : BtrfsPath N}

/- A search goes down to a leaf. -/
theorem searchSlot_spec
    (comp : N → Nat → Int)
    (hSound : Sound T level n)
    (path : BtrfsPath N) :
    SameAbove level path (searchSlot T comp level n path).2 ∧
      (searchSlot T comp level n path).2.nodes level =
        some n ∧
      Chain T level (searchSlot T comp level n path).2 := by
  induction level generalizing n path with
  | zero =>
      refine ⟨sameAbove_put _ _ _ _, put_nodes .., ?_⟩
      intro k hK
      exact absurd hK (Nat.not_lt_zero k)
  | succ level ih =>
      rcases hSlot : genericBinSearch (comp n) 0 (T.count n)
        with ⟨ret, slot⟩
      have hBound := genericBinSearch_slot (comp n) 0
        (T.count n) (Nat.zero_le _)
      rw [hSlot] at hBound
      dsimp only at hBound
      have hIn :
          (if ret ≠ 0 ∧ 0 < slot then slot - 1 else slot) <
            T.count n := by
        have hSome := hSound.1
        by_cases hZero : ret = 0
        · rw [if_neg (fun h => h.1 hZero)]
          exact hBound.2 hZero
        · split <;> omega
      generalize hHere :
        (if ret ≠ 0 ∧ 0 < slot then slot - 1 else slot) = s
        at hIn
      rcases hSound.2 s hIn with ⟨m, hChild, hBelow⟩
      have hDown : searchSlot T comp (level + 1) n path =
          searchSlot T comp level m
            (path.put (level + 1) n s) := by
        rw [searchSlot, hSlot]
        dsimp only
        rw [hHere, hChild]
      rw [hDown]
      rcases ih hBelow (path.put (level + 1) n s) with
        ⟨hSame, hNode, hChain⟩
      rcases hSame (level + 1) (Nat.lt_add_one level) with
        ⟨hOld, hOldSlot⟩
      rw [put_nodes] at hOld
      rw [put_slots] at hOldSlot
      refine ⟨?_, hOld, ?_⟩
      · exact SameAbove.trans (sameAbove_put _ _ _ _)
          (fun k hK => hSame k (Nat.lt_of_succ_lt hK))
          (Nat.le_refl _)
      · refine hChain.succ hOld hNode ?_
        rw [hOldSlot]
        exact hChild

theorem searchSlot_onPath
    (comp : N → Nat → Int)
    (hSound : Sound T top root)
    (hPath : path.Released) :
    OnPath T top root (searchSlot T comp top root path).2 := by
  rcases searchSlot_spec comp hSound path with
    ⟨hSame, hNode, hChain⟩
  exact ⟨hNode, fun level hLevel =>
    (hSame level hLevel).1.trans (hPath level), hChain⟩

end Search

----------
-- The Two Sides
----------

section Mirror

variable {N : Type}
variable {T : Slots N}
variable {level top : Nat}
variable {n root leaf : N}
variable {path path' : BtrfsPath N}

theorem sideLeaves_right
    (level : Nat)
    (n : N) :
    sideLeaves T rightSide level n = leaves T level n := by
  induction level generalizing n with
  | zero => rfl
  | succ level ih =>
      unfold sideLeaves leaves
      apply List.flatMap_congr
      intro i _
      cases T.child n i with
      | none => rfl
      | some m => exact ih m

/- Some slots from the last to the first. -/
theorem slotLeaves_reverse
    (hBelow :
      ∀ m, sideLeaves T leftSide level m =
        (sideLeaves T rightSide level m).reverse)
    (slots : List Nat) :
    slotLeaves T leftSide level n slots.reverse =
      (slotLeaves T rightSide level n slots).reverse := by
  unfold slotLeaves
  rw [List.reverse_flatMap]
  apply List.flatMap_congr
  intro i _
  dsimp only [Function.comp]
  cases T.child n i with
  | none => rfl
  | some m => exact hBelow m

theorem sideLeaves_left
    (level : Nat)
    (n : N) :
    sideLeaves T leftSide level n =
      (sideLeaves T rightSide level n).reverse := by
  induction level generalizing n with
  | zero => rfl
  | succ level ih => exact slotLeaves_reverse ih _

/- What is ahead to the left is what is behind to the right. -/
theorem ahead_left
    (path : BtrfsPath N)
    (level : Nat) :
    ahead T leftSide path level =
      (behind T rightSide path level).reverse := by
  induction level with
  | zero => rfl
  | succ level ih =>
      rw [ahead, behind, List.reverse_append, ih]
      congr 1
      cases path.nodes (level + 1) with
      | none => rfl
      | some c =>
          exact slotLeaves_reverse (sideLeaves_left level) _

theorem behind_left
    (path : BtrfsPath N)
    (level : Nat) :
    behind T leftSide path level =
      (ahead T rightSide path level).reverse := by
  induction level with
  | zero => rfl
  | succ level ih =>
      rw [ahead, behind, List.reverse_append, ih]
      congr 1
      cases path.nodes (level + 1) with
      | none => rfl
      | some c =>
          exact slotLeaves_reverse (sideLeaves_left level) _

end Mirror

----------
-- Places in a Tree
----------

section Iteration

variable {N K : Type}
variable [LinearOrder K]
variable {T : Slots N}
variable {key : N → Nat → K}
variable {level top : Nat}
variable {n root leaf : N}
variable {path path' : BtrfsPath N}
variable {before after : List N}

/- A path to a leaf, and the leaves before and after it. -/
structure AtLeaf
    (T : Slots N)
    (top : Nat)
    (root : N)
    (path : BtrfsPath N)
    (before : List N)
    (leaf : N)
    (after : List N) : Prop where
  onPath : OnPath T top root path
  here : path.nodes 0 = some leaf
  behind : behind T rightSide path top = before
  ahead : ahead T rightSide path top = after

theorem OnPath.atLeaf
    (hPath : OnPath T top root path) :
    ∃ before leaf after,
      AtLeaf T top root path before leaf after ∧
        leaves T top root = before ++ leaf :: after := by
  rcases Chain.split rightSide hPath.child hPath.root with
    ⟨leaf, hLeaf, hLeaves⟩
  rw [sideLeaves_right] at hLeaves
  exact ⟨_, leaf, _, ⟨hPath, hLeaf, rfl, rfl⟩, hLeaves⟩

theorem nextLeaf_last
    (hTop : top < MAX_LEVEL)
    (hSound : Sound T top root)
    (hAt : AtLeaf T top root path before leaf []) :
    nextLeaf T path = (1, path) := by
  rcases walkLeaf_spec rightSide hTop hAt.onPath hSound with
    ⟨hNone, _⟩ | ⟨path', _, _, hSteps⟩
  · unfold nextLeaf
    rw [hNone]
  · rcases hSteps.ahead with ⟨next, _, hAhead⟩
    rw [hAt.ahead] at hAhead
    cases hAhead

theorem nextLeaf_step
    {next : N}
    (hTop : top < MAX_LEVEL)
    (hSound : Sound T top root)
    (hAt :
      AtLeaf T top root path before leaf (next :: after)) :
    ∃ path',
      nextLeaf T path = (0, path') ∧
        AtLeaf T top root path' (before ++ [leaf]) next
          after := by
  rcases walkLeaf_spec rightSide hTop hAt.onPath hSound with
    ⟨_, hNone⟩ | ⟨path', hMoved, hPath, hSteps⟩
  · rw [hAt.ahead] at hNone
    cases hNone
  · rcases hSteps.ahead with ⟨next', hNext, hAhead⟩
    rcases hSteps.behind with ⟨leaf', hLeaf, hBehind⟩
    rw [hAt.ahead, List.cons.injEq] at hAhead
    rcases hAhead with ⟨hSame, hAfter⟩
    rw [hAt.here, Option.some.injEq] at hLeaf
    rw [hAt.behind, ← hLeaf] at hBehind
    rw [← hSame] at hNext
    refine ⟨path', ?_, hPath, hNext, hBehind, hAfter.symm⟩
    unfold nextLeaf
    rw [hMoved]

theorem prevLeaf_first
    (hTop : top < MAX_LEVEL)
    (hSound : Sound T top root)
    (hAt : AtLeaf T top root path [] leaf after) :
    prevLeaf T path = .ok (1, path) := by
  rcases walkLeaf_spec leftSide hTop hAt.onPath hSound with
    ⟨hNone, _⟩ | ⟨path', _, _, hSteps⟩
  · unfold prevLeaf
    rw [hNone]
  · rcases hSteps.ahead with ⟨prev, _, hAhead⟩
    rw [ahead_left, hAt.behind] at hAhead
    cases hAhead

theorem prevLeaf_step
    {prev : N}
    (hTop : top < MAX_LEVEL)
    (hSound : Sound T top root)
    (hAt :
      AtLeaf T top root path (before ++ [prev]) leaf after) :
    ∃ path',
      prevLeaf T path = .ok (0, path') ∧
        AtLeaf T top root path' before prev
          (leaf :: after) := by
  rcases walkLeaf_spec leftSide hTop hAt.onPath hSound with
    ⟨_, hNone⟩ | ⟨path', hMoved, hPath, hSteps⟩
  · rw [ahead_left, hAt.behind, List.reverse_append] at hNone
    cases hNone
  · rcases hSteps.ahead with ⟨prev', hPrev, hAhead⟩
    rcases hSteps.behind with ⟨leaf', hLeaf, hBehind⟩
    rw [ahead_left, ahead_left, hAt.behind,
      List.reverse_append, List.reverse_singleton,
      List.singleton_append, List.cons.injEq,
      List.reverse_inj] at hAhead
    rcases hAhead with ⟨hSame, hBefore⟩
    rw [hAt.here, Option.some.injEq] at hLeaf
    rw [behind_left, behind_left, hAt.ahead, ← hLeaf,
      ← List.reverse_cons, List.reverse_inj] at hBehind
    rw [← hSame] at hPrev
    refine ⟨path', ?_, hPath, hPrev, hBefore.symm, hBehind⟩
    unfold prevLeaf
    rw [hMoved]

----------
-- Runs
----------

/-
  Some calls, one after the other on the same path: what each
  returns, and the leaf of the path then.
-/
def calls
    (step : BtrfsPath N → Except Stop (Int × BtrfsPath N)) :
    Nat → BtrfsPath N → Except Stop (List (Int × Option N))
  | 0, _ => .ok []
  | count + 1, path => do
      let (ret, path) ← step path
      let more ← calls step count path
      return (ret, path.nodes 0) :: more

theorem calls_succ
    {step : BtrfsPath N → Except Stop (Int × BtrfsPath N)}
    {ret : Int}
    {count : Nat}
    {more : List (Int × Option N)}
    (hStep : step path = .ok (ret, path'))
    (hMore : calls step count path' = .ok more) :
    calls step (count + 1) path =
      .ok ((ret, path'.nodes 0) :: more) := by
  rw [calls, hStep]
  change (calls step count path' >>= _) = _
  rw [hMore]
  rfl

/- A leaf that has been stepped to. -/
def visited
    (leaf : N) : Int × Option N :=
  (0, some leaf)

/- To the right until there is no leaf left. -/
theorem calls_next
    (hTop : top < MAX_LEVEL)
    (hSound : Sound T top root)
    (hAt : AtLeaf T top root path before leaf after) :
    calls (fun path => .ok (nextLeaf T path))
        (after.length + 1) path =
      .ok (after.map visited ++
        [(1, (leaf :: after).getLast?)]) := by
  induction after generalizing path before leaf with
  | nil =>
      have hLast := nextLeaf_last hTop hSound hAt
      rw [calls_succ (congrArg Except.ok hLast) rfl, hAt.here]
      rfl
  | cons next after ih =>
      rcases nextLeaf_step hTop hSound hAt with
        ⟨path', hNext, hAt'⟩
      rw [List.length_cons,
        calls_succ (congrArg Except.ok hNext) (ih hAt'),
        hAt'.here, List.getLast?_cons_cons]
      rfl

/- To the left. -/
theorem calls_prev
    (hTop : top < MAX_LEVEL)
    (hSound : Sound T top root)
    (hAt : AtLeaf T top root path before leaf after) :
    calls (prevLeaf T) (before.length + 1) path =
      .ok (before.reverse.map visited ++
        [(1, (before ++ [leaf]).head?)]) := by
  induction before using List.reverseRecOn
    generalizing path leaf after with
  | nil =>
      have hFirst := prevLeaf_first hTop hSound hAt
      rw [List.length_nil, calls_succ hFirst rfl, hAt.here]
      rfl
  | append_singleton before prev ih =>
      rcases prevLeaf_step hTop hSound hAt with
        ⟨path', hPrev, hAt'⟩
      rw [List.length_append, List.length_singleton,
        calls_succ hPrev (ih hAt'), hAt'.here,
        List.reverse_append, List.head?_append_of_ne_nil _
          (List.append_ne_nil_of_right_ne_nil _
            (List.cons_ne_nil _ _))]
      rfl

----------
-- The Order of the Leaves
----------

/- All keys of a leaf are before those of another. -/
def Before
    (T : Slots N)
    (key : N → Nat → K)
    (a b : N) : Prop :=
  ∀ i, i < T.count a → ∀ j, j < T.count b → key a i < key b j

/-
  The keys of each node go up, and those below a slot are
  from its key to that of the next one.
-/
def InOrder
    (T : Slots N)
    (key : N → Nat → K) : Nat → N → Prop
  | 0, _ => True
  | level + 1, n =>
      (∀ i j, i < j → j < T.count n → key n i ≤ key n j) ∧
        ∀ i m, T.child n i = some m →
          InOrder T key level m ∧
            ∀ leaf ∈ leaves T level m,
              ∀ k, k < T.count leaf →
                key n i ≤ key leaf k ∧
                  (i + 1 < T.count n →
                    key leaf k < key n (i + 1))

/- The leaves are in the order of their keys. -/
theorem leaves_before
    (hOrder : InOrder T key level n) :
    (leaves T level n).Pairwise (Before T key) := by
  induction level generalizing n with
  | zero => exact List.pairwise_singleton _ _
  | succ level ih =>
      unfold leaves
      rw [List.pairwise_flatMap]
      constructor
      · intro i _
        cases hChild : T.child n i with
        | none => exact List.Pairwise.nil
        | some m => exact ih (hOrder.2 i m hChild).1
      · refine List.pairwise_lt_range.imp ?_
        intro i j hLess a hA b hB
        cases hChild : T.child n i with
        | none =>
            rw [hChild] at hA
            cases hA
        | some m =>
            cases hChild' : T.child n j with
            | none =>
                rw [hChild'] at hB
                cases hB
            | some m' =>
                rw [hChild] at hA
                rw [hChild'] at hB
                intro k hK k' hK'
                have hIn := T.child_lt n j m' hChild'
                have hLow := ((hOrder.2 i m hChild).2 a hA k
                  hK).2 (by omega)
                have hHigh := ((hOrder.2 j m' hChild').2 b hB
                  k' hK').1
                have hKeys :
                    key n (i + 1) ≤ key n j := by
                  rcases Nat.lt_or_eq_of_le hLess with
                    hMore | hSame
                  · exact hOrder.1 (i + 1) j hMore hIn
                  · exact le_of_eq (congrArg (key n) hSame)
                exact hLow.trans_le (hKeys.trans hHigh)

----------
-- All Leaves to Either Side
----------

/-
  From a path all leaves after its own are visited in order,
  then all before it, and from the leaf on one side the way
  back is to the leaf itself.
-/
structure Iterates
    (T : Slots N)
    (top : Nat)
    (root : N)
    (path : BtrfsPath N)
    (before : List N)
    (leaf : N)
    (after : List N) : Prop where
  place : AtLeaf T top root path before leaf after
  next :
    calls (fun path => .ok (nextLeaf T path))
        (after.length + 1) path =
      .ok (after.map visited ++
        [(1, (leaf :: after).getLast?)])
  prev :
    calls (prevLeaf T) (before.length + 1) path =
      .ok (before.reverse.map visited ++
        [(1, (before ++ [leaf]).head?)])
  next_prev :
    ∀ path', nextLeaf T path = (0, path') →
      ∃ path'', prevLeaf T path' = .ok (0, path'') ∧
        AtLeaf T top root path'' before leaf after
  prev_next :
    ∀ path', prevLeaf T path = .ok (0, path') →
      ∃ path'', nextLeaf T path' = (0, path'') ∧
        AtLeaf T top root path'' before leaf after

theorem iterates_of_atLeaf
    (hTop : top < MAX_LEVEL)
    (hSound : Sound T top root)
    (hAt : AtLeaf T top root path before leaf after) :
    Iterates T top root path before leaf after where
  place := hAt
  next := calls_next hTop hSound hAt
  prev := calls_prev hTop hSound hAt
  next_prev := by
    intro path' hNext
    cases after with
    | nil =>
        rw [nextLeaf_last hTop hSound hAt] at hNext
        cases hNext
    | cons next after =>
        rcases nextLeaf_step hTop hSound hAt with
          ⟨moved, hMoved, hAt'⟩
        rw [hNext] at hMoved
        cases hMoved
        exact prevLeaf_step hTop hSound hAt'
  prev_next := by
    intro path' hPrev
    rcases List.eq_nil_or_concat before with
      hNone | ⟨before', prev, hSome⟩
    · rw [hNone] at hAt
      rw [prevLeaf_first hTop hSound hAt] at hPrev
      cases hPrev
    · rw [hSome, List.concat_eq_append] at hAt
      rcases prevLeaf_step hTop hSound hAt with
        ⟨moved, hMoved, hAt'⟩
      rw [hPrev] at hMoved
      cases hMoved
      rw [hSome, List.concat_eq_append]
      exact nextLeaf_step hTop hSound hAt'

/-
  In a tree that is well formed a search finds a path to a
  leaf, and from each such path the leaves to either side are
  gone through in the order of their keys.
-/
theorem leafIteration_exact
    (hTop : top < MAX_LEVEL)
    (hSound : Sound T top root)
    (hOrder : InOrder T key top root) :
    (∀ comp released,
        BtrfsPath.Released released →
          OnPath T top root
            (searchSlot T comp top root released).2) ∧
      (leaves T top root).Pairwise (Before T key) ∧
      ∀ path, OnPath T top root path →
        ∃ before leaf after,
          leaves T top root = before ++ leaf :: after ∧
            Iterates T top root path before leaf after := by
  refine ⟨?_, leaves_before hOrder, ?_⟩
  · intro comp released hReleased
    exact searchSlot_onPath comp hSound hReleased
  · intro path hPath
    rcases hPath.atLeaf with
      ⟨before, leaf, after, hAt, hLeaves⟩
    exact ⟨before, leaf, after, hLeaves,
      iterates_of_atLeaf hTop hSound hAt⟩

end Iteration

----------
-- A Tree of Two Levels
----------

/- Under each block the blocks it points to. -/
def sampleChildren : Nat → List Nat
  | 0 => [1, 2]
  | 1 => [3, 4]
  | 2 => [5]
  | _ => []

/- The leaves have one item each. -/
def sampleSlots : Slots Nat where
  count := fun n =>
    if n < 3 then (sampleChildren n).length else 1
  child := fun n i => (sampleChildren n)[i]?
  child_lt := by
    intro n i m hChild
    rcases List.getElem?_eq_some_iff.mp hChild with ⟨hIn, _⟩
    by_cases hNode : n < 3
    · rw [if_pos hNode]
      exact hIn
    · match n, hNode with
      | n + 3, _ => exact absurd hIn (Nat.not_lt_zero i)

/- The key of an item or of a pointer. -/
def sampleKey
    (n i : Nat) : Nat :=
  match n with
  | 0 => if i = 0 then 10 else 30
  | 1 => if i = 0 then 10 else 20
  | 2 => 30
  | 3 => 10
  | 4 => 20
  | _ => 30

theorem sampleSlots_sound : Sound sampleSlots 2 0 := by
  refine ⟨by decide, ?_⟩
  intro i hIn
  match i, hIn with
  | 0, _ =>
      refine ⟨1, rfl, by decide, ?_⟩
      intro j hBelow
      match j, hBelow with
      | 0, _ => exact ⟨3, rfl, trivial⟩
      | 1, _ => exact ⟨4, rfl, trivial⟩
  | 1, _ =>
      refine ⟨2, rfl, by decide, ?_⟩
      intro j hBelow
      match j, hBelow with
      | 0, _ => exact ⟨5, rfl, trivial⟩

theorem sampleSlots_inOrder :
    InOrder sampleSlots sampleKey 2 0 := by
  refine ⟨?_, ?_⟩
  · intro i j hLess hIn
    have hTwo : j < 2 := hIn
    have hFirst : i = 0 ∧ j = 1 := by omega
    rw [hFirst.1, hFirst.2]
    decide
  · intro i m hChild
    match i, hChild with
    | 0, hChild =>
        cases hChild
        refine ⟨⟨?_, ?_⟩, by decide⟩
        · intro i j hLess hIn
          have hTwo : j < 2 := hIn
          have hFirst : i = 0 ∧ j = 1 := by omega
          rw [hFirst.1, hFirst.2]
          decide
        · intro j l hBelow
          match j, hBelow with
          | 0, hBelow =>
              cases hBelow
              exact ⟨trivial, by decide⟩
          | 1, hBelow =>
              cases hBelow
              exact ⟨trivial, by decide⟩
    | 1, hChild =>
        cases hChild
        refine ⟨⟨?_, ?_⟩, by decide⟩
        · intro i j hLess hIn
          have hOne : j < 1 := hIn
          omega
        · intro j l hBelow
          match j, hBelow with
          | 0, hBelow =>
              cases hBelow
              exact ⟨trivial, by decide⟩

theorem leafIteration_sample :
    (∀ comp released,
        BtrfsPath.Released released →
          OnPath sampleSlots 2 0
            (searchSlot sampleSlots comp 2 0 released).2) ∧
      (leaves sampleSlots 2 0).Pairwise
        (Before sampleSlots sampleKey) ∧
      ∀ path, OnPath sampleSlots 2 0 path →
        ∃ before leaf after,
          leaves sampleSlots 2 0 = before ++ leaf :: after ∧
            Iterates sampleSlots 2 0 path before leaf after :=
  leafIteration_exact (by decide) sampleSlots_sound
    sampleSlots_inOrder

end Ctree

end BtrfsProgs
