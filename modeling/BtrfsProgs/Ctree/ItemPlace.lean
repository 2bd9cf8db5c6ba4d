import BtrfsProgs.Ctree.LeafIteration
import BtrfsProgs.Key

/-
  Places among the items of a tree: what is before a path and
  what is from it on, and how `ctree.c` moves a path among
  them.

  Main declarations:
    * `StandsAt`
    * `StandsAt.back` and `StandsAt.forward`
    * `prevLeaf_at` and `nextLeaf_at`
-/

----------
-- Items of a Tree
----------

namespace BtrfsProgs

namespace Ctree

open Trail

section Items

variable {N α : Type}

/- The items of a leaf. -/
def itemsOf
    (T : Slots N)
    (item : N → Nat → α)
    (leaf : N) : List α :=
  (List.range (T.count leaf)).map (item leaf)

/- Those of all leaves. -/
def allItems
    (T : Slots N)
    (item : N → Nat → α)
    (top : Nat)
    (root : N) : List α :=
  (leaves T top root).flatMap (itemsOf T item)

/-
  The path is at a leaf with these items before its slot, and
  these from its slot on.
-/
structure StandsAt
    (T : Slots N)
    (item : N → Nat → α)
    (top : Nat)
    (root : N)
    (path : BtrfsPath N)
    (before after : List α) : Prop where
  onPath : OnPath T top root path
  place :
    ∃ leaf,
      path.nodes 0 = some leaf ∧
        path.slots 0 ≤ T.count leaf ∧
        before =
          (behind T rightSide path top).flatMap
              (itemsOf T item) ++
            (itemsOf T item leaf).take (path.slots 0) ∧
        after =
          (itemsOf T item leaf).drop (path.slots 0) ++
            (ahead T rightSide path top).flatMap
              (itemsOf T item)

variable {T : Slots N}
variable {item : N → Nat → α}
variable {top : Nat}
variable {root leaf : N}
variable {path path' : BtrfsPath N}
variable {before after : List α}

theorem itemsOf_length
    (leaf : N) :
    (itemsOf T item leaf).length = T.count leaf := by
  unfold itemsOf
  rw [List.length_map, List.length_range]

theorem mem_itemsOf
    {x : α} :
    x ∈ itemsOf T item leaf ↔
      ∃ i, i < T.count leaf ∧ item leaf i = x := by
  unfold itemsOf
  simp only [List.mem_map, List.mem_range]

variable {slot : Nat}
variable {x : α}

theorem mem_take_itemsOf
    (hX : x ∈ (itemsOf T item leaf).take slot) :
    ∃ i, i < slot ∧ i < T.count leaf ∧ item leaf i = x := by
  unfold itemsOf at hX
  rw [← List.map_take, List.take_range, List.mem_map] at hX
  obtain ⟨i, hI, rfl⟩ := hX
  rw [List.mem_range] at hI
  exact ⟨i, by omega, by omega, rfl⟩

theorem mem_drop_itemsOf
    (hX : x ∈ (itemsOf T item leaf).drop slot) :
    ∃ i, slot ≤ i ∧ i < T.count leaf ∧ item leaf i = x := by
  obtain ⟨i, hI, rfl⟩ := List.mem_drop_iff_getElem.mp hX
  rw [itemsOf_length] at hI
  refine ⟨slot + i, by omega, by omega, ?_⟩
  simp only [itemsOf, List.getElem_map, List.getElem_range]

theorem itemsOf_drop
    (hSlot : slot < T.count leaf) :
    (itemsOf T item leaf).drop slot =
      item leaf slot :: (itemsOf T item leaf).drop (slot + 1) := by
  have hLength : slot < (itemsOf T item leaf).length := by
    rw [itemsOf_length]
    exact hSlot
  rw [List.drop_eq_getElem_cons hLength]
  simp [itemsOf]

theorem itemsOf_take
    (hSlot : slot < T.count leaf) :
    (itemsOf T item leaf).take (slot + 1) =
      (itemsOf T item leaf).take slot ++ [item leaf slot] := by
  have hLength : slot < (itemsOf T item leaf).length := by
    rw [itemsOf_length]
    exact hSlot
  rw [List.take_succ_eq_append_getElem hLength]
  simp [itemsOf]

/- A path to a leaf stands somewhere. -/
theorem OnPath.standsAt
    (hPath : OnPath T top root path)
    (hHere : path.nodes 0 = some leaf)
    (hSlot : path.slots 0 ≤ T.count leaf) :
    ∃ before after,
      StandsAt T item top root path before after :=
  ⟨_, _, hPath, leaf, hHere, hSlot, rfl, rfl⟩

/- Before and after it are all items. -/
theorem StandsAt.items
    (hAt : StandsAt T item top root path before after) :
    allItems T item top root = before ++ after := by
  obtain ⟨leaf, hHere, hSlot, rfl, rfl⟩ := hAt.place
  rcases Chain.split rightSide hAt.onPath.child
      hAt.onPath.root with ⟨leaf', hLeaf, hLeaves⟩
  rw [hHere, Option.some.injEq] at hLeaf
  rw [sideLeaves_right, ← hLeaf] at hLeaves
  unfold allItems
  rw [hLeaves, List.flatMap_append, List.flatMap_cons]
  conv_lhs =>
    rw [← List.take_append_drop (path.slots 0)
      (itemsOf T item leaf)]
  simp only [List.append_assoc]

----------
-- Steps in a Leaf
----------

theorem setSlot_slot
    (path : BtrfsPath N)
    (slot : Nat) :
    (path.setSlot 0 slot).slots 0 = slot := by
  unfold BtrfsPath.setSlot
  dsimp only
  exact Function.update_self ..

theorem setSlot_above
    (path : BtrfsPath N)
    (slot level : Nat) :
    (path.setSlot 0 slot).slots (level + 1) =
      path.slots (level + 1) := by
  unfold BtrfsPath.setSlot
  dsimp only
  exact Function.update_of_ne (Nat.succ_ne_zero level) _ _

/- Only the slot in the leaf is another one. -/
theorem OnPath.setSlot
    (hPath : OnPath T top root path)
    (slot : Nat) :
    OnPath T top root (path.setSlot 0 slot) := by
  refine ⟨hPath.root, hPath.above, ?_⟩
  intro level hLevel
  rcases hPath.child level hLevel with ⟨c, m, hC, hM, hChild⟩
  refine ⟨c, m, hC, hM, ?_⟩
  rw [setSlot_above]
  exact hChild

theorem ahead_setSlot
    (side : Side)
    (path : BtrfsPath N)
    (level slot : Nat) :
    ahead T side (path.setSlot 0 slot) level =
      ahead T side path level := by
  induction level with
  | zero => rfl
  | succ level ih =>
      rw [ahead, ahead, ih, setSlot_above]
      rfl

theorem behind_setSlot
    (side : Side)
    (path : BtrfsPath N)
    (level slot : Nat) :
    behind T side (path.setSlot 0 slot) level =
      behind T side path level := by
  induction level with
  | zero => rfl
  | succ level ih =>
      rw [behind, behind, ih, setSlot_above]
      rfl

/- The item in the slot of the path. -/
theorem StandsAt.here
    (hAt : StandsAt T item top root path before after)
    (hHere : path.nodes 0 = some leaf)
    (hSlot : path.slots 0 < T.count leaf) :
    ∃ rest, after = item leaf (path.slots 0) :: rest := by
  obtain ⟨leaf', hLeaf, -, -, rfl⟩ := hAt.place
  rw [hHere, Option.some.injEq] at hLeaf
  subst hLeaf
  rw [itemsOf_drop hSlot]
  exact ⟨_, rfl⟩

/- One slot on. -/
theorem StandsAt.forward
    (hAt : StandsAt T item top root path before (x :: after))
    (hHere : path.nodes 0 = some leaf)
    (hSlot : path.slots 0 < T.count leaf) :
    StandsAt T item top root
      (path.setSlot 0 (path.slots 0 + 1)) (before ++ [x])
      after := by
  obtain ⟨leaf', hLeaf, -, rfl, hAfter⟩ := hAt.place
  rw [hHere, Option.some.injEq] at hLeaf
  subst hLeaf
  rw [itemsOf_drop hSlot, List.cons_append, List.cons.injEq]
    at hAfter
  obtain ⟨rfl, rfl⟩ := hAfter
  refine ⟨hAt.onPath.setSlot _, leaf, hHere, ?_, ?_, ?_⟩
  · rw [setSlot_slot]
    exact hSlot
  · rw [setSlot_slot, behind_setSlot, itemsOf_take hSlot,
      List.append_assoc]
  · rw [setSlot_slot, ahead_setSlot]

/- One slot back. -/
theorem StandsAt.back
    (hAt : StandsAt T item top root path before after)
    (hSlot : path.slots 0 ≠ 0) :
    ∃ before' leaf,
      path.nodes 0 = some leaf ∧
        path.slots 0 - 1 < T.count leaf ∧
        before =
          before' ++ [item leaf (path.slots 0 - 1)] ∧
        StandsAt T item top root
          (path.setSlot 0 (path.slots 0 - 1)) before'
          (item leaf (path.slots 0 - 1) :: after) := by
  obtain ⟨leaf, hHere, hBound, rfl, rfl⟩ := hAt.place
  obtain ⟨slot, hSucc⟩ := Nat.exists_eq_succ_of_ne_zero hSlot
  rw [hSucc] at hBound ⊢
  have hIn : slot < T.count leaf := hBound
  have hSub : slot.succ - 1 = slot := rfl
  rw [hSub]
  refine ⟨_, leaf, hHere, hIn, ?_,
    hAt.onPath.setSlot _, leaf, hHere, ?_, rfl, ?_⟩
  · rw [setSlot_slot, behind_setSlot, itemsOf_take hIn,
      List.append_assoc]
  · rw [setSlot_slot]
    exact Nat.le_of_lt hIn
  · rw [setSlot_slot, ahead_setSlot, itemsOf_drop hIn]
    rfl

----------
-- Steps between Leaves
----------

/- A leaf that is walked to is entered at its first slot. -/
theorem walkDown_slot
    {side : Side}
    {level : Nat}
    {n : N}
    (hMoved : walkDown T side level n path = .moved path') :
    ∃ leaf,
      path'.nodes 0 = some leaf ∧
        path'.slots 0 = side.pick (T.count leaf) := by
  induction level generalizing n path with
  | zero =>
      cases hMoved
      exact ⟨n, put_nodes .., put_slots ..⟩
  | succ level ih =>
      unfold walkDown at hMoved
      dsimp only at hMoved
      split at hMoved
      case h_1 => cases hMoved
      case h_2 m hChild => exact ih hMoved

theorem walkUp_slot
    {side : Side}
    {left level : Nat}
    (hMoved : walkUp T side path left level = .moved path') :
    ∃ leaf,
      path'.nodes 0 = some leaf ∧
        path'.slots 0 = side.pick (T.count leaf) := by
  induction left generalizing level with
  | zero => cases hMoved
  | succ left ih =>
      unfold walkUp at hMoved
      split at hMoved
      case h_1 => cases hMoved
      case h_2 c hC =>
        dsimp only at hMoved
        split at hMoved
        case isTrue => exact ih hMoved
        case isFalse =>
          split at hMoved
          case h_1 => cases hMoved
          case h_2 next hChild => exact walkDown_slot hMoved

/- Every leaf but an only one has items. -/
def Full
    (T : Slots N)
    (top : Nat)
    (root : N) : Prop :=
  0 < top → ∀ leaf ∈ leaves T top root, 0 < T.count leaf

theorem StandsAt.atLeaf
    (hAt : StandsAt T item top root path before after) :
    ∃ leaf,
      AtLeaf T top root path (behind T rightSide path top) leaf
          (ahead T rightSide path top) ∧
        leaves T top root =
          behind T rightSide path top ++
            leaf :: ahead T rightSide path top := by
  rcases hAt.onPath.atLeaf with
    ⟨bs, leaf, as, hLeaf, hLeaves⟩
  rw [hLeaf.behind, hLeaf.ahead]
  exact ⟨leaf, hLeaf, hLeaves⟩

/- With another leaf behind, the tree is more than a leaf. -/
theorem Full.behind
    {prev : N}
    (hFull : Full T top root)
    (hAt : StandsAt T item top root path before after)
    (hPrev : prev ∈ behind T rightSide path top) :
    0 < T.count prev := by
  rcases hAt.atLeaf with ⟨leaf, -, hLeaves⟩
  refine hFull ?_ prev ?_
  · by_contra hZero
    obtain rfl : top = 0 := by omega
    cases hPrev
  · rw [hLeaves]
    exact List.mem_append_left _ hPrev

theorem Full.ahead
    {next : N}
    (hFull : Full T top root)
    (hAt : StandsAt T item top root path before after)
    (hNext : next ∈ ahead T rightSide path top) :
    0 < T.count next := by
  rcases hAt.atLeaf with ⟨leaf, -, hLeaves⟩
  refine hFull ?_ next ?_
  · by_contra hZero
    obtain rfl : top = 0 := by omega
    cases hNext
  · rw [hLeaves]
    exact List.mem_append_right _ (List.mem_cons_of_mem _ hNext)

/- The path is in the slot of an item. -/
structure StandsOn
    (T : Slots N)
    (item : N → Nat → α)
    (top : Nat)
    (root : N)
    (path : BtrfsPath N)
    (before : List α)
    (leaf : N)
    (x : α)
    (after : List α) : Prop where
  stands : StandsAt T item top root path before (x :: after)
  here : path.nodes 0 = some leaf
  slot : path.slots 0 < T.count leaf
  item : item leaf (path.slots 0) = x

/- From the first slot of a leaf to the item before it. -/
theorem prevLeaf_at
    (hTop : top < MAX_LEVEL)
    (hSound : Sound T top root)
    (hFull : Full T top root)
    (hAt : StandsAt T item top root path before after)
    (hSlot : path.slots 0 = 0) :
    before = [] ∧ prevLeaf T path = .ok (1, path) ∨
      ∃ before' x path' leaf,
        before = before' ++ [x] ∧
          prevLeaf T path = .ok (0, path') ∧
          StandsOn T item top root path' before' leaf x
            after := by
  rcases hAt.atLeaf with ⟨leaf, hLeaf, hLeaves⟩
  obtain ⟨leaf', hHere, -, rfl, rfl⟩ := hAt.place
  rw [hLeaf.here, Option.some.injEq] at hHere
  subst hHere
  rcases List.eq_nil_or_concat (behind T rightSide path top)
    with hNone | ⟨bs, prev, hSome⟩
  · left
    rw [hNone] at hLeaf ⊢
    rw [hSlot]
    exact ⟨rfl, prevLeaf_first hTop hSound hLeaf⟩
  · right
    rw [List.concat_eq_append] at hSome
    have hCount := hFull.behind hAt (by
      rw [hSome]
      exact List.mem_append_right _ List.mem_cons_self)
    rw [hSome] at hLeaf
    rcases prevLeaf_step hTop hSound hLeaf with
      ⟨path', hPrev, hAt'⟩
    have hWalk : walkLeaf T leftSide path = .moved path' := by
      unfold prevLeaf at hPrev
      split at hPrev
      case h_1 => cases hPrev
      case h_2 moved hMoved =>
        cases hPrev
        exact hMoved
      case h_3 => cases hPrev
    obtain ⟨leaf'', hNode, hSlot'⟩ := walkUp_slot hWalk
    rw [hAt'.here, Option.some.injEq] at hNode
    subst hNode
    have hPick : path'.slots 0 = T.count prev - 1 := hSlot'
    have hIn : path'.slots 0 < T.count prev := by omega
    have hItems : itemsOf T item prev =
        (itemsOf T item prev).take (path'.slots 0) ++
          [item prev (path'.slots 0)] := by
      rw [← itemsOf_take hIn]
      symm
      apply List.take_of_length_le
      rw [itemsOf_length]
      omega
    have hLast : (itemsOf T item prev).drop
        (path'.slots 0 + 1) = [] := by
      apply List.drop_eq_nil_of_le
      rw [itemsOf_length]
      omega
    refine ⟨_, item prev (path'.slots 0), path', prev, ?_,
      hPrev, ⟨hAt'.onPath, prev, hAt'.here, Nat.le_of_lt hIn,
        rfl, ?_⟩, hAt'.here, hIn, rfl⟩
    · rw [hSome, hAt'.behind, hSlot, List.take_zero,
        List.append_nil, List.flatMap_append,
        List.flatMap_singleton]
      conv_lhs => rw [hItems]
      rw [List.append_assoc]
    · rw [itemsOf_drop hIn, hLast, hAt'.ahead, hSlot,
        List.drop_zero, List.flatMap_cons]
      rfl

/- From behind the last slot of a leaf to the next item. -/
theorem nextLeaf_at
    (hTop : top < MAX_LEVEL)
    (hSound : Sound T top root)
    (hFull : Full T top root)
    (hAt : StandsAt T item top root path before after)
    (hHere : path.nodes 0 = some leaf)
    (hSlot : T.count leaf ≤ path.slots 0) :
    after = [] ∧ nextLeaf T path = (1, path) ∨
      ∃ x rest path' leaf',
        after = x :: rest ∧
          nextLeaf T path = (0, path') ∧
          StandsOn T item top root path' before leaf' x
            rest := by
  rcases hAt.atLeaf with ⟨leaf', hLeaf, hLeaves⟩
  have hSame := hHere
  rw [hLeaf.here, Option.some.injEq] at hSame
  subst hSame
  obtain ⟨leaf'', hNode, -, rfl, rfl⟩ := hAt.place
  rw [hLeaf.here, Option.some.injEq] at hNode
  subst hNode
  have hEnd : (itemsOf T item leaf').drop (path.slots 0) =
      [] := by
    apply List.drop_eq_nil_of_le
    rw [itemsOf_length]
    exact hSlot
  have hWhole : (itemsOf T item leaf').take (path.slots 0) =
      itemsOf T item leaf' := by
    apply List.take_of_length_le
    rw [itemsOf_length]
    exact hSlot
  cases hAhead : ahead T rightSide path top with
  | nil =>
      left
      rw [hAhead] at hLeaf
      rw [hEnd]
      exact ⟨rfl, nextLeaf_last hTop hSound hLeaf⟩
  | cons next as =>
      right
      have hCount := hFull.ahead hAt (by
        rw [hAhead]
        exact List.mem_cons_self)
      rw [hAhead] at hLeaf
      rcases nextLeaf_step hTop hSound hLeaf with
        ⟨path', hNext, hAt'⟩
      have hWalk : walkLeaf T rightSide path =
          .moved path' := by
        unfold nextLeaf at hNext
        split at hNext
        case h_1 => cases hNext
        case h_2 moved hMoved =>
          cases hNext
          exact hMoved
        case h_3 => cases hNext
      obtain ⟨leaf'', hNode, hSlot'⟩ := walkUp_slot hWalk
      rw [hAt'.here, Option.some.injEq] at hNode
      subst hNode
      have hFirst : path'.slots 0 = 0 := hSlot'
      have hIn : path'.slots 0 < T.count next := by omega
      refine ⟨item next (path'.slots 0),
        (itemsOf T item next).drop (path'.slots 0 + 1) ++
          as.flatMap (itemsOf T item), path', next, ?_,
        hNext, ⟨hAt'.onPath, next, hAt'.here,
          Nat.le_of_lt hIn, ?_, ?_⟩, hAt'.here, hIn, rfl⟩
      · rw [hEnd, List.flatMap_cons, List.nil_append,
          ← List.cons_append, ← itemsOf_drop hIn, hFirst]
        rfl
      · rw [hWhole, hAt'.behind, hFirst, List.take_zero,
          List.append_nil, List.flatMap_append,
          List.flatMap_singleton]
      · rw [itemsOf_drop hIn, hAt'.ahead]
        rfl

----------
-- Steps of a Loop
----------

/-
  What the loops over items start with: on to the next leaf
  where the slot is behind the last one.
-/
def settle
    (T : Slots N)
    (path : BtrfsPath N) : Int × BtrfsPath N :=
  match path.nodes 0 with
  | none => (-5, path)
  | some leaf =>
      if T.count leaf ≤ path.slots 0 then nextLeaf T path
      else (0, path)

/- `path->slots[0]++`. -/
def BtrfsPath.advance
    (path : BtrfsPath N) : BtrfsPath N :=
  path.setSlot 0 (path.slots 0 + 1)

theorem settle_at
    (hTop : top < MAX_LEVEL)
    (hSound : Sound T top root)
    (hFull : Full T top root)
    (hAt : StandsAt T item top root path before after) :
    after = [] ∧ settle T path = (1, path) ∨
      ∃ x rest path' leaf,
        after = x :: rest ∧
          settle T path = (0, path') ∧
          StandsOn T item top root path' before leaf x
            rest := by
  obtain ⟨leaf, hHere, -, -, -⟩ := hAt.place
  unfold settle
  rw [hHere]
  dsimp only
  by_cases hSlot : T.count leaf ≤ path.slots 0
  · rw [if_pos hSlot]
    rcases nextLeaf_at hTop hSound hFull hAt hHere hSlot with
      hEnd | ⟨x, rest, path', leaf', hNext⟩
    · exact .inl hEnd
    · exact .inr ⟨x, rest, path', leaf', hNext⟩
  · rw [if_neg hSlot]
    have hIn := not_le.mp hSlot
    obtain ⟨rest, hAfter⟩ := hAt.here hHere hIn
    refine .inr ⟨_, rest, path, leaf, hAfter, rfl,
      ?_, hHere, hIn, rfl⟩
    rw [← hAfter]
    exact hAt

variable {β : Type}

/- The place seen by another part of the items. -/
theorem itemsOf_map
    {part : α → β}
    {key : N → Nat → β}
    (hPart : ∀ leaf i, part (item leaf i) = key leaf i)
    (leaf : N) :
    itemsOf T key leaf = (itemsOf T item leaf).map part := by
  unfold itemsOf
  rw [List.map_map]
  apply List.map_congr_left
  intro i _
  exact (hPart leaf i).symm

theorem StandsAt.map
    {part : α → β}
    {key : N → Nat → β}
    (hPart : ∀ leaf i, part (item leaf i) = key leaf i)
    (hAt : StandsAt T item top root path before after) :
    StandsAt T key top root path (before.map part)
      (after.map part) := by
  obtain ⟨leaf, hHere, hSlot, rfl, rfl⟩ := hAt.place
  have hItems : itemsOf T key =
      fun leaf => (itemsOf T item leaf).map part :=
    funext (itemsOf_map hPart)
  refine ⟨hAt.onPath, leaf, hHere, hSlot, ?_, ?_⟩
  · rw [hItems, List.map_append, List.map_flatMap,
      List.map_take]
  · rw [hItems, List.map_append, List.map_flatMap,
      List.map_drop]

theorem StandsAt.of_map
    {part : α → β}
    {key : N → Nat → β}
    {front behind : List β}
    (hPart : ∀ leaf i, part (item leaf i) = key leaf i)
    (hAt : StandsAt T key top root path front behind) :
    ∃ before after,
      StandsAt T item top root path before after ∧
        before.map part = front ∧ after.map part = behind := by
  obtain ⟨leaf, hHere, hSlot, hFront, hBehind⟩ := hAt.place
  rcases hAt.onPath.standsAt hHere hSlot with
    ⟨before, after, hStands⟩
  refine ⟨before, after, hStands, ?_, ?_⟩
  · obtain ⟨leaf', hHere', _, hBefore, _⟩ :=
      (hStands.map hPart).place
    rw [hHere, Option.some.injEq] at hHere'
    subst hHere'
    rw [hBefore, hFront]
  · obtain ⟨leaf', hHere', _, _, hAfter⟩ :=
      (hStands.map hPart).place
    rw [hHere, Option.some.injEq] at hHere'
    subst hHere'
    rw [hAfter, hBehind]

theorem StandsOn.advance
    (hOn : StandsOn T item top root path before leaf x after) :
    StandsAt T item top root path.advance (before ++ [x])
      after :=
  hOn.stands.forward hOn.here hOn.slot

end Items

end Ctree

end BtrfsProgs
