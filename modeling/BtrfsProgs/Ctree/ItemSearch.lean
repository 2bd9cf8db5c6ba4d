import BtrfsProgs.Ctree.ItemPlace

/-
  A search for a key, as a place among the items of a tree.

  Main declarations:
    * `compKeys`
    * `genericBinSearch_spec`
    * `ItemTree` and `FirstKeys`
    * `searchSlot_at` and `searchKey_before`
-/

----------
-- Searches in a Node
----------

namespace BtrfsProgs

namespace Ctree

open Trail

/- `btrfs_comp_keys`. -/
def compKeys
    (k1 k2 : Key) : Int :=
  if k1 < k2 then -1
  else if k2 < k1 then 1
  else 0

theorem compKeys_neg
    {k1 k2 : Key} :
    compKeys k1 k2 < 0 ↔ k1 < k2 := by
  unfold compKeys
  split
  case isTrue h => simp [h]
  case isFalse h =>
    split
    case isTrue => simp [h]
    case isFalse => simp [h]

theorem compKeys_pos
    {k1 k2 : Key} :
    0 < compKeys k1 k2 ↔ k2 < k1 := by
  unfold compKeys
  split
  case isTrue h => simp [h.le]
  case isFalse h =>
    split
    case isTrue h' => simp [h']
    case isFalse h' => simp [h']

theorem compKeys_zero
    {k1 k2 : Key} :
    compKeys k1 k2 = 0 ↔ k1 = k2 := by
  unfold compKeys
  split
  case isTrue h => simp [h.ne]
  case isFalse h =>
    split
    case isTrue h' => simp [h'.ne']
    case isFalse h' =>
      exact iff_of_true rfl
        (le_antisymm (not_lt.mp h') (not_lt.mp h))

/- The entries go up. -/
def Rising
    (comp : Nat → Int)
    (count : Nat) : Prop :=
  ∀ i j, i < j → j < count →
    (comp j < 0 → comp i < 0) ∧ (0 < comp i → 0 < comp j)

/-
  The entry that is equal to the key, or the first one above
  it.
-/
theorem genericBinSearch_spec
    {comp : Nat → Int}
    {count : Nat}
    (low high : Nat)
    (hRising : Rising comp count)
    (hLow : low ≤ high)
    (hHigh : high ≤ count)
    (hBelow : ∀ i, i < low → comp i < 0)
    (hAbove : ∀ i, high ≤ i → i < count → 0 < comp i) :
    let result := genericBinSearch comp low high
    result.1 = 0 ∧ result.2 < count ∧ comp result.2 = 0 ∨
      result.1 = 1 ∧ result.2 ≤ count ∧
        (∀ i, i < result.2 → comp i < 0) ∧
        ∀ i, result.2 ≤ i → i < count → 0 < comp i := by
  fun_induction genericBinSearch comp low high with
  | case1 low high hMore mid ret hLess ih =>
      have hMid : low ≤ mid ∧ mid < high := by omega
      refine ih (by omega) hHigh ?_ hAbove
      intro i hI
      rcases Nat.lt_succ_iff_lt_or_eq.mp hI with hI | rfl
      · exact (hRising i mid hI (by omega)).1 hLess
      · exact hLess
  | case2 low high hMore mid ret hLess hGreater ih =>
      have hMid : low ≤ mid ∧ mid < high := by omega
      refine ih hMid.1 (by omega) hBelow ?_
      intro i hI hIn
      rcases Nat.lt_or_eq_of_le hI with hI | rfl
      · exact (hRising mid i hI hIn).2 hGreater
      · exact hGreater
  | case3 low high hMore mid ret hLess hGreater =>
      have hMid : low ≤ mid ∧ mid < high := by omega
      refine .inl ⟨rfl, by omega, ?_⟩
      exact Int.le_antisymm (not_lt.mp hGreater)
        (not_lt.mp hLess)
  | case4 low high hEnd =>
      refine .inr ⟨rfl, by omega, hBelow, ?_⟩
      intro i hI hIn
      exact hAbove i (by omega) hIn

----------
-- Searches in a Tree
----------

section Search

variable {N α : Type}
variable {T : Slots N}
variable {key : N → Nat → Key}
variable {level top : Nat}
variable {n root : N}

/- A tree whose items are in the order of their keys. -/
structure ItemTree
    (T : Slots N)
    (key : N → Nat → Key)
    (top : Nat)
    (root : N) : Prop where
  top_lt : top < MAX_LEVEL
  sound : Sound T top root
  order : InOrder T key top root
  sorted :
    ∀ leaf ∈ leaves T top root, ∀ i j,
      i < j → j < T.count leaf → key leaf i < key leaf j
  full : Full T top root

/- `btrfs_init_path`: a path nothing has been put in. -/
def emptyPath : BtrfsPath N where
  nodes := fun _ => none
  slots := fun _ => 0

theorem emptyPath_released :
    (emptyPath : BtrfsPath N).Released :=
  fun _ => rfl

/- `btrfs_search_slot` for a key, in a tree that is read. -/
def searchKey
    (T : Slots N)
    (key : N → Nat → Key)
    (top : Nat)
    (root : N)
    (k : Key)
    (path : BtrfsPath N) : Int × BtrfsPath N :=
  searchSlot T (fun n i => compKeys (key n i) k) top root path

theorem rising_of_le
    {k : Key}
    (hKeys :
      ∀ i j, i < j → j < T.count n → key n i ≤ key n j) :
    Rising (fun i => compKeys (key n i) k) (T.count n) := by
  intro i j hLess hIn
  have hLe := hKeys i j hLess hIn
  rw [compKeys_neg, compKeys_neg, compKeys_pos, compKeys_pos]
  exact ⟨fun h => hLe.trans_lt h, fun h => h.trans_le hLe⟩

/- All keys of the leaf are below the key, or above it. -/
def LeafBelow
    (T : Slots N)
    (key : N → Nat → Key)
    (k : Key)
    (leaf : N) : Prop :=
  ∀ i, i < T.count leaf → key leaf i < k

/- Every key of the leaf is greater. -/
def LeafAbove
    (T : Slots N)
    (key : N → Nat → Key)
    (k : Key)
    (leaf : N) : Prop :=
  ∀ i, i < T.count leaf → k < key leaf i

theorem mem_slotLeaves
    {slots : List Nat}
    {leaf : N} :
    leaf ∈ slotLeaves T rightSide level n slots ↔
      ∃ i ∈ slots, ∃ m, T.child n i = some m ∧
        leaf ∈ leaves T level m := by
  unfold slotLeaves
  rw [List.mem_flatMap]
  apply exists_congr
  intro i
  apply and_congr_right
  intro _
  cases T.child n i with
  | none => simp
  | some m => simp [sideLeaves_right]

theorem mem_leaves_child
    {i : Nat}
    {m leaf : N}
    (hChild : T.child n i = some m)
    (hLeaf : leaf ∈ leaves T level m) :
    leaf ∈ leaves T (level + 1) n := by
  unfold leaves
  rw [List.mem_flatMap]
  refine ⟨i, List.mem_range.mpr (T.child_lt n i m hChild), ?_⟩
  rw [hChild]
  exact hLeaf

/- A node that is sound has a leaf below it. -/
theorem Sound.leaf
    (hSound : Sound T level n) :
    ∃ leaf, leaf ∈ leaves T level n := by
  induction level generalizing n with
  | zero => exact ⟨n, List.mem_singleton_self n⟩
  | succ level ih =>
      rcases hSound.2 0 hSound.1 with ⟨m, hChild, hBelow⟩
      rcases ih hBelow with ⟨leaf, hLeaf⟩
      exact ⟨leaf, mem_leaves_child hChild hLeaf⟩

/- The slot that a search goes down to is one of the node. -/
theorem slot_lt
    {comp : Nat → Int}
    {ret : Int}
    {slot : Nat}
    (hSome : 0 < T.count n)
    (hSlot :
      genericBinSearch comp 0 (T.count n) = (ret, slot)) :
    (if ret ≠ 0 ∧ 0 < slot then slot - 1 else slot) <
      T.count n := by
  have hBound := genericBinSearch_slot comp 0 (T.count n)
    (Nat.zero_le _)
  rw [hSlot] at hBound
  dsimp only at hBound
  by_cases hZero : ret = 0
  · rw [if_neg (fun h => h.1 hZero)]
    exact hBound.2 hZero
  · split <;> omega

/-
  The slot that a search goes down to: the leaves below those
  before it are below the key, and those below those after it
  are above it.
-/
theorem slot_parts
    {k : Key}
    (hSound : Sound T (level + 1) n)
    (hOrder : InOrder T key (level + 1) n)
    (hFull :
      ∀ leaf ∈ leaves T (level + 1) n, 0 < T.count leaf)
    {ret : Int}
    {slot : Nat}
    (hSlot :
      genericBinSearch (fun i => compKeys (key n i) k) 0
        (T.count n) = (ret, slot)) :
    let s := if ret ≠ 0 ∧ 0 < slot then slot - 1 else slot
    s < T.count n ∧
      (∀ i m, i < s → T.child n i = some m →
        ∀ leaf ∈ leaves T level m, LeafBelow T key k leaf) ∧
      ∀ i m, s < i → T.child n i = some m →
        ∀ leaf ∈ leaves T level m, LeafAbove T key k leaf := by
  have hSpec := genericBinSearch_spec 0 (T.count n)
    (rising_of_le (k := k) hOrder.1) (Nat.zero_le _)
    (Nat.le_refl _) (by omega) (by omega)
  rw [hSlot] at hSpec
  dsimp only at hSpec
  -- what is below an entry that is not above the key
  have hBelow : ∀ i m, T.child n i = some m →
      ∀ j, i < j → j < T.count n → key n j ≤ k →
      ∀ leaf ∈ leaves T level m, LeafBelow T key k leaf := by
    intro i m hChild j hLess hIn hKey leaf hLeaf l hL
    have hUpper := ((hOrder.2 i m hChild).2 leaf hLeaf l
      hL).2 (by omega)
    have hKeys : key n (i + 1) ≤ key n j := by
      rcases Nat.lt_or_eq_of_le hLess with hMore | hSame
      · exact hOrder.1 (i + 1) j hMore hIn
      · exact le_of_eq (congrArg (key n) hSame)
    exact hUpper.trans_le (hKeys.trans hKey)
  have hAbove : ∀ i m, T.child n i = some m → k < key n i →
      ∀ leaf ∈ leaves T level m, LeafAbove T key k leaf := by
    intro i m hChild hKey leaf hLeaf l hL
    exact hKey.trans_le
      ((hOrder.2 i m hChild).2 leaf hLeaf l hL).1
  have hSome := hSound.1
  rcases hSpec with ⟨rfl, hIn, hEq⟩ | ⟨rfl, hLe, hLess, hMore⟩
  · rw [if_neg (fun h => h.1 rfl)]
    have hSame : key n slot = k := compKeys_zero.mp hEq
    refine ⟨hIn, ?_, ?_⟩
    · intro i m hI hChild
      exact hBelow i m hChild slot hI hIn hSame.le
    · intro i m hI hChild
      refine hAbove i m hChild ?_
      -- a leaf below the slot has a key from its own on
      rcases hSound.2 slot hIn with ⟨m', hChild', hSound'⟩
      rcases hSound'.leaf with ⟨leaf, hLeaf⟩
      have hCount := hFull leaf
        (mem_leaves_child hChild' hLeaf)
      have hBound := (hOrder.2 slot m' hChild').2 leaf hLeaf 0
        hCount
      have hI' := T.child_lt n i m hChild
      have hKeys : key n (slot + 1) ≤ key n i := by
        rcases Nat.lt_or_eq_of_le hI with hMore | hSame
        · exact hOrder.1 (slot + 1) i hMore hI'
        · exact le_of_eq (congrArg (key n) hSame)
      rw [← hSame]
      exact hBound.1.trans_lt
        ((hBound.2 (by omega)).trans_le hKeys)
  · have hS : (if (1 : Int) ≠ 0 ∧ 0 < slot then slot - 1
        else slot) = slot - 1 := by
      split
      case isTrue => rfl
      case isFalse h =>
        have hZero : slot = 0 := by
          by_contra hNot
          exact h ⟨by decide, by omega⟩
        rw [hZero]
    rw [hS]
    refine ⟨by omega, ?_, ?_⟩
    · intro i m hI hChild
      refine hBelow i m hChild (slot - 1) hI (by omega) ?_
      exact (compKeys_neg.mp (hLess (slot - 1) (by omega))).le
    · intro i m hI hChild
      refine hAbove i m hChild ?_
      exact compKeys_pos.mp (hMore i (by omega)
        (T.child_lt n i m hChild))

/-
  A search goes down to a leaf, with those before it below the
  key and those after it above.
-/
theorem searchSlot_sides
    {k : Key}
    (hSound : Sound T level n)
    (hOrder : InOrder T key level n)
    (hFull : Full T level n)
    (path : BtrfsPath N) :
    let r := searchKey T key level n k path
    ∃ leaf ∈ leaves T level n,
      r.2.nodes 0 = some leaf ∧
        genericBinSearch (fun i => compKeys (key leaf i) k) 0
          (T.count leaf) = (r.1, r.2.slots 0) ∧
        (∀ l ∈ behind T rightSide r.2 level,
          LeafBelow T key k l) ∧
        ∀ l ∈ ahead T rightSide r.2 level,
          LeafAbove T key k l := by
  induction level generalizing n path with
  | zero =>
      refine ⟨n, List.mem_singleton_self n, put_nodes .., ?_,
        by simp [behind], by simp [ahead]⟩
      unfold searchKey searchSlot
      dsimp only
      rw [put_slots]
  | succ level ih =>
      have hAll := hFull (Nat.succ_pos level)
      rcases hSlot : genericBinSearch
          (fun i => compKeys (key n i) k) 0 (T.count n) with
        ⟨ret, slot⟩
      obtain ⟨hIn, hBelow, hAbove⟩ := slot_parts hSound hOrder
        hAll hSlot
      generalize hHere :
        (if ret ≠ 0 ∧ 0 < slot then slot - 1 else slot) = s
        at hIn hBelow hAbove
      rcases hSound.2 s hIn with ⟨m, hChild, hSound'⟩
      have hDown : searchKey T key (level + 1) n k path =
          searchKey T key level m k
            (path.put (level + 1) n s) := by
        unfold searchKey
        rw [searchSlot, hSlot]
        dsimp only
        rw [hHere, hChild]
      rw [hDown]
      obtain ⟨hSame, -, -⟩ := searchSlot_spec
        (fun n i => compKeys (key n i) k) hSound'
        (path.put (level + 1) n s)
      obtain ⟨leaf, hLeaf, hNode, hFound, hBehind, hAhead⟩ :=
        ih hSound' (hOrder.2 s m hChild).1
          (fun _ l hL => hAll l (mem_leaves_child hChild hL))
          (path.put (level + 1) n s)
      change SameAbove level _ (searchKey T key level m k
        (path.put (level + 1) n s)).2 at hSame
      rcases hSame (level + 1) (Nat.lt_add_one level) with
        ⟨hOld, hOldSlot⟩
      rw [put_nodes] at hOld
      rw [put_slots] at hOldSlot
      refine ⟨leaf, mem_leaves_child hChild hLeaf, hNode,
        hFound, ?_, ?_⟩
      · intro l hL
        rw [behind_succ hOld, hOldSlot, List.mem_append] at hL
        rcases hL with hL | hL
        · obtain ⟨i, hI, m', hChild', hL⟩ :=
            mem_slotLeaves.mp hL
          exact hBelow i m' (List.mem_range.mp hI) hChild' l hL
        · exact hBehind l hL
      · intro l hL
        rw [ahead_succ hOld, hOldSlot, List.mem_append] at hL
        rcases hL with hL | hL
        · exact hAhead l hL
        · obtain ⟨i, hI, m', hChild', hL⟩ :=
            mem_slotLeaves.mp hL
          exact hAbove i m' (List.mem_range'_1.mp hI).1 hChild'
            l hL

/- The key of a pointer is the first one of its block. -/
def FirstKeys
    (T : Slots N)
    (key : N → Nat → Key) : Nat → N → Prop
  | 0, _ => True
  | level + 1, n =>
      ∀ i m, T.child n i = some m →
        key n i = key m 0 ∧ FirstKeys T key level m

/-
  A search that ends before the first item of a leaf has no
  leaf behind it.
-/
theorem searchKey_first
    {k : Key}
    (hSound : Sound T level n)
    (hOrder : InOrder T key level n)
    (hFirst : FirstKeys T key level n)
    (path : BtrfsPath N)
    {leaf : N}
    (hNode :
      (searchKey T key level n k path).2.nodes 0 = some leaf)
    (hAbove : k < key leaf 0) :
    k < key n 0 ∧
      behind T rightSide (searchKey T key level n k path).2
        level = [] := by
  induction level generalizing n path with
  | zero =>
      have hSame : some n = some leaf := by
        rw [← hNode]
        exact (put_nodes ..).symm
      rw [Option.some.inj hSame]
      exact ⟨hAbove, rfl⟩
  | succ level ih =>
      rcases hSlot : genericBinSearch
          (fun i => compKeys (key n i) k) 0 (T.count n) with
        ⟨ret, slot⟩
      have hSpec := genericBinSearch_spec 0 (T.count n)
        (rising_of_le (k := k) hOrder.1) (Nat.zero_le _)
        (Nat.le_refl _) (by omega) (by omega)
      rw [hSlot] at hSpec
      dsimp only at hSpec
      have hIn := slot_lt hSound.1 hSlot
      generalize hHere :
        (if ret ≠ 0 ∧ 0 < slot then slot - 1 else slot) = s
        at hIn
      rcases hSound.2 s hIn with ⟨m, hChild, hSound'⟩
      have hDown : searchKey T key (level + 1) n k path =
          searchKey T key level m k
            (path.put (level + 1) n s) := by
        unfold searchKey
        rw [searchSlot, hSlot]
        dsimp only
        rw [hHere, hChild]
      rw [hDown] at hNode ⊢
      rcases hFirst s m hChild with ⟨hLow, hFirst'⟩
      obtain ⟨hBelow, hBehind⟩ := ih hSound'
        (hOrder.2 s m hChild).1 hFirst' _ hNode
      rw [← hLow] at hBelow
      obtain ⟨hSame, -, -⟩ := searchSlot_spec
        (fun n i => compKeys (key n i) k) hSound'
        (path.put (level + 1) n s)
      change SameAbove level _ (searchKey T key level m k
        (path.put (level + 1) n s)).2 at hSame
      rcases hSame (level + 1) (Nat.lt_add_one level) with
        ⟨hOld, hOldSlot⟩
      rw [put_nodes] at hOld
      rw [put_slots] at hOldSlot
      -- the slot that is taken is the first one
      have hZero : s = 0 := by
        rcases hSpec with ⟨rfl, -, hEq⟩ | ⟨rfl, -, hLess, -⟩
        · rw [if_neg (fun h => h.1 rfl)] at hHere
          rw [← hHere, compKeys_zero.mp hEq] at hBelow
          exact absurd hBelow (lt_irrefl k)
        · by_contra hNot
          have hPos : (1 : Int) ≠ 0 ∧ 0 < slot := by
            refine ⟨by decide, ?_⟩
            by_contra hSlotZero
            rw [if_neg (fun h => hSlotZero h.2)] at hHere
            omega
          rw [if_pos hPos] at hHere
          have hKey := compKeys_neg.mp (hLess s (by omega))
          exact absurd hBelow (lt_asymm hKey)
      refine ⟨hZero ▸ hBelow, ?_⟩
      rw [behind_succ hOld, hOldSlot, hBehind, hZero]
      rfl

variable {item : N → Nat → α}
variable {keyOf : α → Key}

/- Then there is no item before it. -/
theorem searchKey_before
    (hTree : ItemTree T key top root)
    (hFirst : FirstKeys T key top root)
    {k : Key}
    {path : BtrfsPath N}
    {before after : List α}
    (hAt :
      StandsAt T item top root
        (searchKey T key top root k path).2 before after)
    (hRet : (searchKey T key top root k path).1 ≠ 0)
    (hSlot :
      (searchKey T key top root k path).2.slots 0 = 0) :
    before = [] := by
  obtain ⟨leaf, hLeaf, hNode, hFound, -, -⟩ :=
    searchSlot_sides (k := k) hTree.sound hTree.order
      hTree.full path
  obtain ⟨leaf', hNode', -, rfl, -⟩ := hAt.place
  rw [hNode', Option.some.injEq] at hNode
  subst hNode
  rw [hSlot, List.take_zero, List.append_nil]
  by_cases hTop : top = 0
  · subst hTop
    rfl
  · have hCount := hTree.full (by omega) leaf' hLeaf
    have hSpec := genericBinSearch_spec 0 (T.count leaf')
      (rising_of_le (k := k)
        (fun i j h h' => (hTree.sorted leaf' hLeaf i j h h').le))
      (Nat.zero_le _) (Nat.le_refl _) (by omega) (by omega)
    rw [hFound, hSlot] at hSpec
    rcases hSpec with ⟨hZero, -⟩ | ⟨-, -, -, hMore⟩
    · exact absurd hZero hRet
    · have hAbove := compKeys_pos.mp
        (hMore 0 (Nat.le_refl 0) hCount)
      rw [(searchKey_first hTree.sound hTree.order hFirst path
        hNode' hAbove).2]
      rfl

/- The items of a tree go up. -/
theorem ItemTree.pairwise
    (hTree : ItemTree T key top root)
    (hKey : ∀ leaf i, keyOf (item leaf i) = key leaf i) :
    (allItems T item top root).Pairwise fun a b =>
      keyOf a < keyOf b := by
  unfold allItems
  rw [List.pairwise_flatMap]
  refine ⟨?_, (leaves_before hTree.order).imp ?_⟩
  · intro leaf hLeaf
    unfold itemsOf
    rw [List.pairwise_map]
    refine List.pairwise_lt_range.imp_of_mem ?_
    intro i j _ hJ hLess
    rw [hKey, hKey]
    exact hTree.sorted leaf hLeaf i j hLess
      (List.mem_range.mp hJ)
  · intro a b hBefore x hX y hY
    obtain ⟨i, hI, rfl⟩ := mem_itemsOf.mp hX
    obtain ⟨j, hJ, rfl⟩ := mem_itemsOf.mp hY
    rw [hKey, hKey]
    exact hBefore i hI j hJ

/-
  The place that a search comes to: behind the items below the
  key.
-/
theorem searchSlot_at
    (hTree : ItemTree T key top root)
    (hKey : ∀ leaf i, keyOf (item leaf i) = key leaf i)
    (k : Key)
    {path : BtrfsPath N}
    (hPath : path.Released) :
    let r := searchKey T key top root k path
    ∃ before after,
      StandsAt T item top root r.2 before after ∧
        (∀ x ∈ before, keyOf x < k) ∧
        (r.1 = 0 ∧
            (∃ leaf x rest,
              after = x :: rest ∧ keyOf x = k ∧
                (∀ y ∈ rest, k < keyOf y) ∧
                StandsOn T item top root r.2 before leaf x
                  rest) ∨
          r.1 = 1 ∧ ∀ x ∈ after, k < keyOf x) := by
  intro r
  have hOn : OnPath T top root r.2 :=
    searchSlot_onPath _ hTree.sound hPath
  obtain ⟨leaf, hLeaf, hNode, hFound, hBehind, hAhead⟩ :=
    searchSlot_sides (k := k) hTree.sound hTree.order
      hTree.full path
  change r.2.nodes 0 = some leaf at hNode
  change _ = (r.1, r.2.slots 0) at hFound
  change ∀ l ∈ behind T rightSide r.2 top, _ at hBehind
  change ∀ l ∈ ahead T rightSide r.2 top, _ at hAhead
  have hKeys : ∀ i j, i < j → j < T.count leaf →
      key leaf i < key leaf j := hTree.sorted leaf hLeaf
  have hSpec := genericBinSearch_spec 0 (T.count leaf)
    (rising_of_le (k := k)
      (fun i j h h' => (hKeys i j h h').le))
    (Nat.zero_le _) (Nat.le_refl _) (by omega) (by omega)
  rw [hFound] at hSpec
  dsimp only at hSpec
  have hBefore : ∀ x ∈ (behind T rightSide r.2 top).flatMap
      (itemsOf T item), keyOf x < k := by
    intro x hX
    rw [List.mem_flatMap] at hX
    obtain ⟨l, hL, hX⟩ := hX
    obtain ⟨i, hI, rfl⟩ := mem_itemsOf.mp hX
    rw [hKey]
    exact hBehind l hL i hI
  have hAfter : ∀ x ∈ (ahead T rightSide r.2 top).flatMap
      (itemsOf T item), k < keyOf x := by
    intro x hX
    rw [List.mem_flatMap] at hX
    obtain ⟨l, hL, hX⟩ := hX
    obtain ⟨i, hI, rfl⟩ := mem_itemsOf.mp hX
    rw [hKey]
    exact hAhead l hL i hI
  have hSlot : r.2.slots 0 ≤ T.count leaf := by
    rcases hSpec with ⟨-, hIn, -⟩ | ⟨-, hLe, -, -⟩
    · omega
    · exact hLe
  have hStands : StandsAt T item top root r.2 _ _ :=
    ⟨hOn, leaf, hNode, hSlot, rfl, rfl⟩
  refine ⟨_, _, hStands, ?_, ?_⟩
  · intro x hX
    rcases List.mem_append.mp hX with hX | hX
    · exact hBefore x hX
    · obtain ⟨i, hI, -, rfl⟩ := mem_take_itemsOf hX
      rw [hKey]
      rcases hSpec with ⟨-, hIn, hEq⟩ | ⟨-, -, hLess, -⟩
      · rw [← compKeys_zero.mp hEq]
        exact hKeys i _ hI hIn
      · exact compKeys_neg.mp (hLess i hI)
  · rcases hSpec with ⟨hRet, hIn, hEq⟩ | ⟨hRet, -, -, hMore⟩
    · left
      have hSame : key leaf (r.2.slots 0) = k :=
        compKeys_zero.mp hEq
      refine ⟨hRet, leaf, item leaf (r.2.slots 0),
        (itemsOf T item leaf).drop (r.2.slots 0 + 1) ++
          (ahead T rightSide r.2 top).flatMap
            (itemsOf T item), ?_,
        (hKey _ _).trans hSame, ?_, ⟨?_, hNode, hIn, rfl⟩⟩
      · rw [itemsOf_drop hIn]
        rfl
      · intro y hY
        rcases List.mem_append.mp hY with hY | hY
        · obtain ⟨i, hI, hI', rfl⟩ := mem_drop_itemsOf hY
          rw [hKey, ← hSame]
          exact hKeys _ i hI hI'
        · exact hAfter y hY
      · have hMoved := hStands
        rw [itemsOf_drop hIn] at hMoved
        exact hMoved
    · right
      refine ⟨hRet, ?_⟩
      intro x hX
      rcases List.mem_append.mp hX with hX | hX
      · obtain ⟨i, hI, hI', rfl⟩ := mem_drop_itemsOf hX
        rw [hKey]
        exact compKeys_pos.mp (hMore i hI hI')
      · exact hAfter x hX

end Search

----------
-- Trees of One Leaf
----------

/- A tree that is a leaf. -/
def leafSlots
    (count : Nat) : Slots Unit where
  count := fun _ => count
  child := fun _ _ => none
  child_lt := by
    intro _ _ _ hChild
    cases hChild

theorem leafSlots_tree
    {count : Nat}
    {key : Unit → Nat → Key}
    (hSorted : ∀ i j, i < j → j < count →
      key () i < key () j) :
    ItemTree (leafSlots count) key 0 () := by
  refine ⟨by decide, trivial, trivial, ?_, ?_⟩
  · exact fun leaf _ i j hLess hIn => hSorted i j hLess hIn
  · exact fun hTop => absurd hTop (by decide)

end Ctree

end BtrfsProgs
