import BtrfsProgs.Ctree.Path

/-
  `btrfs_next_leaf` and `btrfs_prev_leaf`, from `ctree.c`.

  The two go the same way to either side, so what is proved of
  a side holds for both.

  Main declarations:
    * `Side`, `rightSide` and `leftSide`
    * `walkLeaf`, `nextLeaf` and `prevLeaf`
    * `OnPath`, `behind` and `ahead`
    * `walkLeaf_spec`
-/

----------
-- Sides
----------

namespace BtrfsProgs

namespace Ctree

open Trail

/-
  A direction: of a slot and the number of slots, if there is
  none further on, the slots that are passed and those that
  are to come; the slot after a slot, and the first of some;
  and all of them in order.
-/
structure Side where
  done : Nat → Nat → Bool
  move : Nat → Nat
  pick : Nat → Nat
  order : Nat → List Nat
  past : Nat → Nat → List Nat
  rest : Nat → Nat → List Nat
  whole :
    ∀ {s c}, s < c → order c = past s c ++ s :: rest s c
  done_rest :
    ∀ {s c}, s < c → done s c = true → rest s c = []
  move_rest :
    ∀ {s c}, s < c → done s c = false →
      rest s c = move s :: rest (move s) c
  move_past :
    ∀ {s c}, s < c → done s c = false →
      past (move s) c = past s c ++ [s]
  move_lt : ∀ {s c}, s < c → done s c = false → move s < c
  pick_past : ∀ {c}, 0 < c → past (pick c) c = []
  pick_lt : ∀ {c}, 0 < c → pick c < c

/- To the right. -/
def rightSide : Side where
  done := fun s c => c ≤ s + 1
  move := fun s => s + 1
  pick := fun _ => 0
  order := List.range
  past := fun s _ => List.range s
  rest := fun s c => List.range' (s + 1) (c - (s + 1))
  whole := by
    intro s c hIn
    have hMore : c = s + (c - (s + 1) + 1) := by omega
    have hSplit := List.range'_append_1 (s := 0) (m := s)
      (n := c - (s + 1) + 1)
    rw [Nat.zero_add, ← hMore, List.range'_succ] at hSplit
    rw [List.range_eq_range', List.range_eq_range']
    exact hSplit.symm
  done_rest := by
    intro s c _ hDone
    rw [Nat.sub_eq_zero_of_le (of_decide_eq_true hDone)]
    rfl
  move_rest := by
    intro s c _ hDone
    have hLess := of_decide_eq_false hDone
    have hMore : c - (s + 1) = c - (s + 1 + 1) + 1 := by
      omega
    rw [hMore, List.range'_succ]
  move_past := by
    intro s c _ _
    exact List.range_succ
  move_lt := by
    intro s c _ hDone
    have hLess := of_decide_eq_false hDone
    omega
  pick_past := by
    intro c _
    rfl
  pick_lt := by
    intro c hSome
    exact hSome

/- To the left. -/
def leftSide : Side where
  done := fun s _ => s = 0
  move := fun s => s - 1
  pick := fun c => c - 1
  order := fun c => (List.range c).reverse
  past := fun s c => (rightSide.rest s c).reverse
  rest := fun s c => (rightSide.past s c).reverse
  whole := by
    intro s c hIn
    have hRight : List.range c =
        rightSide.past s c ++ s :: rightSide.rest s c :=
      rightSide.whole hIn
    rw [hRight, List.reverse_append, List.reverse_cons,
      List.append_assoc]
    rfl
  done_rest := by
    intro s c _ hDone
    rw [of_decide_eq_true hDone]
    rfl
  move_rest := by
    intro s c _ hDone
    obtain ⟨r, rfl⟩ : ∃ r, s = r + 1 :=
      Nat.exists_eq_succ_of_ne_zero (of_decide_eq_false hDone)
    have hPast := List.range_succ (n := r)
    unfold rightSide
    dsimp only
    rw [hPast, List.reverse_append]
    rfl
  move_past := by
    intro s c hIn hDone
    obtain ⟨r, rfl⟩ : ∃ r, s = r + 1 :=
      Nat.exists_eq_succ_of_ne_zero (of_decide_eq_false hDone)
    have hRest := rightSide.move_rest (s := r) (c := c)
      (by omega) (decide_eq_false (by omega))
    have hBack : r + 1 - 1 = r := rfl
    rw [hBack, hRest, List.reverse_cons]
    rfl
  move_lt := by
    intro s c hIn _
    omega
  pick_past := by
    intro c hSome
    have hLast : rightSide.rest (c - 1) c = [] :=
      rightSide.done_rest (by omega)
        (decide_eq_true (by omega))
    rw [hLast]
    rfl
  pick_lt := by
    intro c hSome
    omega

----------
-- The Functions
----------

/-
  What a walk to the side comes to: that there is no leaf, a
  path to one, or a block that cannot be read.
-/
inductive LeafStep (N : Type) where
  | none
  | moved (path : BtrfsPath N)
  | unread (path : BtrfsPath N)

section Walk

variable {N : Type}
variable (T : Slots N)
variable (side : Side)

/- A node and a slot of it. -/
def BtrfsPath.put
    (path : BtrfsPath N)
    (level : Nat)
    (n : N)
    (slot : Nat) : BtrfsPath N where
  nodes := Function.update path.nodes level (some n)
  slots := Function.update path.slots level slot

/- The second loop: down from a node that has been read. -/
def walkDown :
    Nat → N → BtrfsPath N → LeafStep N
  | 0, next, path =>
      .moved (path.put 0 next (side.pick (T.count next)))
  | level + 1, next, path =>
      let slot := side.pick (T.count next)
      let path := path.put (level + 1) next slot
      match T.child next slot with
      | none => .unread path
      | some n => walkDown level n path

/- The first loop, for the levels that are left. -/
def walkUp
    (path : BtrfsPath N) :
    Nat → Nat → LeafStep N
  | 0, _ => .none
  | left + 1, level =>
      match path.nodes level with
      | none => .none
      | some c =>
          let slot := path.slots level
          if side.done slot (T.count c) then
            walkUp path left (level + 1)
          else
            match T.child c (side.move slot) with
            | none => .unread path
            | some next =>
                walkDown T side (level - 1) next
                  (path.setSlot level (side.move slot))

/- Both of them. -/
def walkLeaf
    (path : BtrfsPath N) : LeafStep N :=
  walkUp T side path (MAX_LEVEL - 1) 1

/- `btrfs_next_leaf`. -/
def nextLeaf
    (path : BtrfsPath N) : Int × BtrfsPath N :=
  match walkLeaf T rightSide path with
  | .none => (1, path)
  | .moved path => (0, path)
  | .unread path => (-5, path)

/-
  `btrfs_prev_leaf`. It goes on with a node that could not be
  read.
-/
def prevLeaf
    (path : BtrfsPath N) : Except Stop (Int × BtrfsPath N) :=
  match walkLeaf T leftSide path with
  | .none => .ok (1, path)
  | .moved path => .ok (0, path)
  | .unread _ => .error .bug

----------
-- Paths in a Tree
----------

/- Every node but a leaf has children, and all can be read. -/
def Sound : Nat → N → Prop
  | 0, _ => True
  | level + 1, n =>
      0 < T.count n ∧
        ∀ i, i < T.count n →
          ∃ m, T.child n i = some m ∧ Sound level m

/- The path leads from the root to a leaf. -/
structure OnPath
    (top : Nat)
    (root : N)
    (path : BtrfsPath N) : Prop where
  root : path.nodes top = some root
  above : ∀ level, top < level → path.nodes level = none
  child :
    ∀ level, level < top →
      ∃ c m, path.nodes (level + 1) = some c ∧
        path.nodes level = some m ∧
        T.child c (path.slots (level + 1)) = some m

/- The leaves below a node, in the order of the side. -/
def sideLeaves : Nat → N → List N
  | 0, n => [n]
  | level + 1, n =>
      (side.order (T.count n)).flatMap fun i =>
        match T.child n i with
        | none => []
        | some m => sideLeaves level m

/- Those below some slots of a node. -/
def slotLeaves
    (level : Nat)
    (n : N)
    (slots : List Nat) : List N :=
  slots.flatMap fun i =>
    match T.child n i with
    | none => []
    | some m => sideLeaves T side level m

/- The leaves that a path has still to come to. -/
def ahead
    (path : BtrfsPath N) : Nat → List N
  | 0 => []
  | level + 1 =>
      ahead path level ++
        match path.nodes (level + 1) with
        | none => []
        | some c =>
            slotLeaves T side level c
              (side.rest (path.slots (level + 1)) (T.count c))

/- Those that it has passed. -/
def behind
    (path : BtrfsPath N) : Nat → List N
  | 0 => []
  | level + 1 =>
      (match path.nodes (level + 1) with
        | none => []
        | some c =>
            slotLeaves T side level c
              (side.past (path.slots (level + 1)) (T.count c)))
        ++ behind path level

variable {T side}
variable {level top : Nat}
variable {n root c m : N}
variable {path path' : BtrfsPath N}

theorem sideLeaves_succ
    (level : Nat)
    (n : N) :
    sideLeaves T side (level + 1) n =
      slotLeaves T side level n (side.order (T.count n)) :=
  rfl

theorem slotLeaves_append
    (xs ys : List Nat) :
    slotLeaves T side level n (xs ++ ys) =
      slotLeaves T side level n xs ++
        slotLeaves T side level n ys :=
  List.flatMap_append

theorem slotLeaves_cons
    {i : Nat}
    (slots : List Nat)
    (hChild : T.child n i = some m) :
    slotLeaves T side level n (i :: slots) =
      sideLeaves T side level m ++
        slotLeaves T side level n slots := by
  unfold slotLeaves
  rw [List.flatMap_cons, hChild]

theorem ahead_succ
    (hNode : path.nodes (level + 1) = some c) :
    ahead T side path (level + 1) =
      ahead T side path level ++
        slotLeaves T side level c
          (side.rest (path.slots (level + 1)) (T.count c)) := by
  rw [ahead, hNode]

theorem behind_succ
    (hNode : path.nodes (level + 1) = some c) :
    behind T side path (level + 1) =
      slotLeaves T side level c
          (side.past (path.slots (level + 1)) (T.count c)) ++
        behind T side path level := by
  rw [behind, hNode]

----------
-- Where a Path Is
----------

/- Below a level the path leads down to a leaf. -/
def Chain
    (T : Slots N)
    (level : Nat)
    (path : BtrfsPath N) : Prop :=
  ∀ k, k < level →
    ∃ c m, path.nodes (k + 1) = some c ∧
      path.nodes k = some m ∧
      T.child c (path.slots (k + 1)) = some m

theorem Sound.child
    {i : Nat}
    (hSound : Sound T (level + 1) n)
    (hChild : T.child n i = some m) :
    Sound T level m := by
  rcases hSound.2 i (T.child_lt n i m hChild) with
    ⟨m', hChild', hBelow⟩
  rw [hChild] at hChild'
  cases hChild'
  exact hBelow

/- The nodes of a path are sound. -/
theorem Chain.sound
    (hChain : Chain T top path)
    (hRoot : path.nodes top = some root)
    (hSound : Sound T top root)
    {k : Nat}
    (hLevel : k ≤ top)
    (hNode : path.nodes k = some n) :
    Sound T k n := by
  induction top generalizing root with
  | zero =>
      have hZero : k = 0 := by omega
      subst hZero
      trivial
  | succ top ih =>
      by_cases hTop : k = top + 1
      · subst hTop
        rw [hRoot] at hNode
        cases hNode
        exact hSound
      · rcases hChain top (Nat.lt_add_one top) with
          ⟨c, m, hC, hM, hChild⟩
        rw [hRoot] at hC
        cases hC
        exact ih
          (fun k hK => hChain k (Nat.lt_succ_of_lt hK)) hM
          (hSound.child hChild) (by omega)

/- A path splits the leaves below each of its nodes. -/
theorem Chain.split
    (side : Side)
    (hChain : Chain T level path)
    (hNode : path.nodes level = some n) :
    ∃ leaf, path.nodes 0 = some leaf ∧
      sideLeaves T side level n =
        behind T side path level ++
          leaf :: ahead T side path level := by
  induction level generalizing n with
  | zero => exact ⟨n, hNode, rfl⟩
  | succ level ih =>
      rcases hChain level (Nat.lt_add_one level) with
        ⟨c, m, hC, hM, hChild⟩
      rw [hNode] at hC
      cases hC
      rcases ih (fun k hK => hChain k (Nat.lt_succ_of_lt hK))
          hM with ⟨leaf, hLeaf, hBelow⟩
      refine ⟨leaf, hLeaf, ?_⟩
      have hIn := T.child_lt n _ m hChild
      rw [sideLeaves_succ, side.whole hIn, slotLeaves_append,
        slotLeaves_cons _ hChild, hBelow, behind_succ hNode,
        ahead_succ hNode]
      simp only [List.append_assoc, List.cons_append]

/- Nodes and slots above a level are the same. -/
def SameAbove
    (level : Nat)
    (path path' : BtrfsPath N) : Prop :=
  ∀ k, level < k →
    path'.nodes k = path.nodes k ∧
      path'.slots k = path.slots k

/-
  The path has come from one leaf to the next, as far as a
  level can tell.
-/
structure Steps
    (T : Slots N)
    (side : Side)
    (level : Nat)
    (path path' : BtrfsPath N) : Prop where
  ahead :
    ∃ leaf, path'.nodes 0 = some leaf ∧
      ahead T side path level =
        leaf :: ahead T side path' level
  behind :
    ∃ leaf, path.nodes 0 = some leaf ∧
      behind T side path' level =
        behind T side path level ++ [leaf]

/- What a level can tell, the levels above can. -/
theorem Steps.lift
    {more : Nat}
    (hSteps : Steps T side level path path')
    (hSame : SameAbove level path path') :
    Steps T side (level + more) path path' := by
  induction more with
  | zero => exact hSteps
  | succ more ih =>
      rcases hSame (level + more + 1) (by omega) with
        ⟨hNode, hSlot⟩
      rcases ih.ahead with ⟨next, hNext, hAhead⟩
      rcases ih.behind with ⟨leaf, hLeaf, hBehind⟩
      constructor
      · refine ⟨next, hNext, ?_⟩
        rw [← Nat.add_assoc, Ctree.ahead, Ctree.ahead, hAhead,
          hNode, hSlot]
        rfl
      · refine ⟨leaf, hLeaf, ?_⟩
        rw [← Nat.add_assoc, Ctree.behind, Ctree.behind,
          hBehind, hNode, hSlot, List.append_assoc]

----------
-- One Step
----------

theorem put_nodes
    (path : BtrfsPath N)
    (level : Nat)
    (n : N)
    (slot : Nat) :
    (path.put level n slot).nodes level = some n :=
  Function.update_self ..

theorem put_slots
    (path : BtrfsPath N)
    (level : Nat)
    (n : N)
    (slot : Nat) :
    (path.put level n slot).slots level = slot :=
  Function.update_self ..

theorem sameAbove_put
    (path : BtrfsPath N)
    (level : Nat)
    (n : N)
    (slot : Nat) :
    SameAbove level path (path.put level n slot) := by
  intro k hK
  exact ⟨Function.update_of_ne (Nat.ne_of_gt hK) _ _,
    Function.update_of_ne (Nat.ne_of_gt hK) _ _⟩

theorem SameAbove.trans
    {low : Nat}
    {path'' : BtrfsPath N}
    (hFirst : SameAbove level path path')
    (hSecond : SameAbove low path' path'')
    (hLow : low ≤ level) :
    SameAbove level path path'' := by
  intro k hK
  rcases hFirst k hK with ⟨hNode, hSlot⟩
  rcases hSecond k (Nat.lt_of_le_of_lt hLow hK) with
    ⟨hNode', hSlot'⟩
  exact ⟨hNode'.trans hNode, hSlot'.trans hSlot⟩

/- A child that has been stepped to, and the path below it. -/
theorem Chain.succ
    (hChain : Chain T level path)
    (hC : path.nodes (level + 1) = some c)
    (hM : path.nodes level = some m)
    (hChild :
      T.child c (path.slots (level + 1)) = some m) :
    Chain T (level + 1) path := by
  intro k hK
  rcases Nat.lt_succ_iff_lt_or_eq.mp hK with hBelow | hHere
  · exact hChain k hBelow
  · subst hHere
    exact ⟨c, m, hC, hM, hChild⟩

/- Down to the first leaf. -/
theorem walkDown_spec
    (side : Side)
    (hSound : Sound T level n)
    (path : BtrfsPath N) :
    ∃ path',
      walkDown T side level n path = .moved path' ∧
        SameAbove level path path' ∧
        path'.nodes level = some n ∧
        Chain T level path' ∧
        behind T side path' level = [] := by
  induction level generalizing n path with
  | zero =>
      refine ⟨_, rfl, sameAbove_put _ _ _ _, put_nodes ..,
        ?_, rfl⟩
      intro k hK
      exact absurd hK (Nat.not_lt_zero k)
  | succ level ih =>
      have hIn := side.pick_lt hSound.1
      rcases hSound.2 _ hIn with ⟨m, hChild, hBelow⟩
      rcases ih hBelow
          (path.put (level + 1) n
            (side.pick (T.count n))) with
        ⟨path', hDown, hSame, hNode, hChain, hBehind⟩
      rcases hSame (level + 1) (Nat.lt_add_one level) with
        ⟨hHere, hSlot⟩
      rw [put_nodes] at hHere
      rw [put_slots] at hSlot
      refine ⟨path', ?_, ?_, hHere, ?_, ?_⟩
      · unfold walkDown
        dsimp only
        rw [hChild]
        exact hDown
      · exact SameAbove.trans (sameAbove_put _ _ _ _)
          (fun k hK => hSame k (Nat.lt_of_succ_lt hK))
          (Nat.le_refl _)
      · exact hChain.succ hHere hNode (hSlot ▸ hChild)
      · rw [behind_succ hHere, hSlot, hBehind,
          side.pick_past hSound.1]
        rfl

/- A step from a child to the next one, in a path. -/
theorem steps_of_move
    {next : N}
    (hIn : path.slots (level + 1) < T.count c)
    (hMore :
      side.done (path.slots (level + 1)) (T.count c) = false)
    (hChain : Chain T (level + 1) path)
    (hC : path.nodes (level + 1) = some c)
    (hEnd : ahead T side path level = [])
    (hChild :
      T.child c (side.move (path.slots (level + 1))) =
        some next)
    (hC' : path'.nodes (level + 1) = some c)
    (hSlot' :
      path'.slots (level + 1) =
        side.move (path.slots (level + 1)))
    (hNode' : path'.nodes level = some next)
    (hChain' : Chain T level path')
    (hBehind' : behind T side path' level = []) :
    Steps T side (level + 1) path path' := by
  rcases hChain level (Nat.lt_add_one level) with
    ⟨c', m, hSame, hM, hOld⟩
  rw [hC] at hSame
  cases hSame
  have hBelow : Chain T level path := fun k hK =>
    hChain k (Nat.lt_succ_of_lt hK)
  rcases hBelow.split side hM with
    ⟨leaf, hLeaf, hOldLeaves⟩
  rcases hChain'.split side hNode' with
    ⟨leaf', hLeaf', hNewLeaves⟩
  rw [hEnd] at hOldLeaves
  rw [hBehind', List.nil_append] at hNewLeaves
  constructor
  · refine ⟨leaf', hLeaf', ?_⟩
    rw [ahead_succ hC, ahead_succ hC', hEnd, hSlot',
      side.move_rest hIn hMore, slotLeaves_cons _ hChild,
      hNewLeaves]
    rfl
  · refine ⟨leaf, hLeaf, ?_⟩
    rw [behind_succ hC, behind_succ hC', hBehind', hSlot',
      side.move_past hIn hMore, slotLeaves_append,
      slotLeaves_cons _ hOld, hOldLeaves]
    unfold slotLeaves
    simp only [List.flatMap_nil, List.append_nil,
      List.append_assoc]

/- Up to a level with one more slot, and down from there. -/
theorem walkUp_spec
    (hPath : OnPath T top root path)
    (hSound : Sound T top root)
    {left : Nat}
    (hLeft : top ≤ level + left)
    (hLevel : level ≤ top)
    (hEnd : ahead T side path level = []) :
    walkUp T side path left (level + 1) = .none ∧
        ahead T side path top = [] ∨
      ∃ path',
        walkUp T side path left (level + 1) = .moved path' ∧
          OnPath T top root path' ∧
          Steps T side top path path' := by
  induction left generalizing level with
  | zero =>
      have hTop : level = top := by omega
      rw [hTop] at hEnd
      exact .inl ⟨rfl, hEnd⟩
  | succ left ih =>
      unfold walkUp
      by_cases hTop : level = top
      · left
        rw [hPath.above (level + 1) (by omega)]
        rw [hTop] at hEnd
        exact ⟨rfl, hEnd⟩
      · have hBelow : level < top := by omega
        rcases hPath.child level hBelow with
          ⟨c, m, hC, hM, hOld⟩
        have hIn := T.child_lt c _ m hOld
        rw [hC]
        dsimp only
        cases hDone : side.done (path.slots (level + 1))
            (T.count c) with
        | true =>
            rw [if_pos rfl]
            refine ih (by omega) hBelow ?_
            rw [ahead_succ hC, hEnd, side.done_rest hIn hDone]
            rfl
        | false =>
            right
            have hC' := Chain.sound hPath.child hPath.root
              hSound hBelow hC
            rcases hC'.2 _ (side.move_lt hIn hDone) with
              ⟨next, hChild, hNext⟩
            rcases walkDown_spec side hNext
                (path.setSlot (level + 1)
                  (side.move (path.slots (level + 1)))) with
              ⟨path', hDown, hSame, hNode', hChain',
                hBehind'⟩
            have hAbove : SameAbove (level + 1) path path' := by
              intro k hK
              rcases hSame k (Nat.lt_of_succ_lt hK) with
                ⟨hNode, hSlot⟩
              refine ⟨hNode, hSlot.trans ?_⟩
              exact Function.update_of_ne
                (Nat.ne_of_gt hK) _ _
            rcases hSame (level + 1) (Nat.lt_add_one level)
              with ⟨hHere, hSlot⟩
            have hSlot' : path'.slots (level + 1) =
                side.move (path.slots (level + 1)) :=
              hSlot.trans (Function.update_self ..)
            have hNodeC : path'.nodes (level + 1) = some c :=
              hHere.trans hC
            refine ⟨path', ?_, ?_, ?_⟩
            · rw [if_neg Bool.false_ne_true, hChild]
              exact hDown
            · refine ⟨?_, ?_, ?_⟩
              · by_cases hRoot : level + 1 = top
                · rw [← hRoot, hNodeC, ← hC, hRoot]
                  exact hPath.root
                · rw [(hAbove top (by omega)).1]
                  exact hPath.root
              · intro k hK
                rw [(hAbove k (by omega)).1]
                exact hPath.above k hK
              · intro k hK
                rcases Nat.lt_trichotomy k level with
                  hLow | hMid | hHigh
                · exact hChain' k hLow
                · subst hMid
                  exact ⟨c, next, hNodeC, hNode',
                    hSlot' ▸ hChild⟩
                · rcases hPath.child k hK with
                    ⟨d, e, hD, hE, hDown'⟩
                  refine ⟨d, e, ?_, ?_, ?_⟩
                  · rw [(hAbove (k + 1) (by omega)).1]
                    exact hD
                  · by_cases hNext' : k = level + 1
                    · rw [hNext', hNodeC, ← hC, ← hNext']
                      exact hE
                    · rw [(hAbove k (by omega)).1]
                      exact hE
                  · rw [(hAbove (k + 1) (by omega)).2]
                    exact hDown'
            · have hSteps := steps_of_move hIn hDone
                (fun k hK => hPath.child k (by omega)) hC hEnd
                hChild hNodeC hSlot' hNode' hChain' hBehind'
              have hSum :
                  level + 1 + (top - (level + 1)) = top := by
                omega
              rw [← hSum]
              exact hSteps.lift hAbove

/- To the next leaf of the side, if there is one. -/
theorem walkLeaf_spec
    (side : Side)
    (hTop : top < MAX_LEVEL)
    (hPath : OnPath T top root path)
    (hSound : Sound T top root) :
    walkLeaf T side path = .none ∧
        ahead T side path top = [] ∨
      ∃ path',
        walkLeaf T side path = .moved path' ∧
          OnPath T top root path' ∧
          Steps T side top path path' :=
  walkUp_spec hPath hSound (by omega) (Nat.zero_le top) rfl

end Walk

end Ctree

end BtrfsProgs
