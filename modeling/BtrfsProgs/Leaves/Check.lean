import BtrfsProgs.Leaves.Layout

/-
  `btrfs_check_node` and `btrfs_check_leaf`, from `ctree.c`.

  Their loops stop before the last pair of items.

  Main declarations:
    * `Block`, `checkNode` and `checkLeaf`
    * `NodeChecked` and `LeafChecked`
    * `checks_exact_iff`
-/

----------
-- Checks
----------

namespace BtrfsProgs

namespace Leaves

open ByteArea

/- What is looked at of a tree block, a node or a leaf. -/
structure Block extends Leaf where
  len : Nat
  level : Nat
  owner : Nat

/- `sizeof(struct btrfs_key_ptr)`. -/
def KEY_PTR_SIZE : Nat := 33

/- `btrfs_node_key_to_cpu`. -/
def nodeKey
    (a : Area)
    (i : Nat) : Key where
  objectid :=
    LittleEndian.decode (load a (KEY_PTR_SIZE * i) 8)
  type :=
    LittleEndian.decode (load a (KEY_PTR_SIZE * i + 8) 1)
  offset :=
    LittleEndian.decode (load a (KEY_PTR_SIZE * i + 9) 8)

/- `BTRFS_EXTENT_TREE_OBJECTID`. -/
def EXTENT_TREE_OBJECTID : Nat := 2

/-
  The label `fail`: -EIO, and the key of the record that is
  added to the corrupt blocks.
-/
def checkFail
    (b : Block)
    (parentKey : Option Key)
    (first : Key) : Int × Option Key :=
  (-5,
    if b.owner = EXTENT_TREE_OBJECTID then
      some (parentKey.getD first)
    else none)

/- A parent key of type 0 stands for none. -/
def parentFits
    (parentKey : Option Key)
    (first : Key) : Bool :=
  match parentKey with
  | none => true
  | some key => key.type = 0 ∨ key = first

/- `btrfs_check_node`; `ptrs` is `BTRFS_NODEPTRS_PER_BLOCK`. -/
def checkNode
    (ptrs : Nat)
    (parentKey : Option Key)
    (b : Block) : Int × Option Key :=
  let fail := checkFail b parentKey (nodeKey b.area 0)
  if b.nritems = 0 ∨ ptrs < b.nritems then fail
  else if ¬ parentFits parentKey (nodeKey b.area 0) then fail
  else if
      (List.range (b.nritems - 2)).all fun i =>
        nodeKey b.area i < nodeKey b.area (i + 1)
    then (0, none)
  else fail

/- A turn of the loop of `btrfs_check_leaf`. -/
def checkItem
    (g : Geometry)
    (a : Area)
    (i : Nat) : Bool :=
  itemKey a i < itemKey a (i + 1) ∧
    itemOffset a i = itemEnd a (i + 1) ∧
    (i = 0 → itemEnd a i = g.dataSize)

/- `btrfs_check_leaf`; `none` where an assertion fails. -/
def checkLeaf
    (g : Geometry)
    (parentKey : Option Key)
    (b : Block) : Option (Int × Option Key) :=
  let fail := checkFail b parentKey (itemKey b.area 0)
  if b.len < b.nritems * ITEM_SIZE then some fail
  else if b.level ≠ 0 then some fail
  else
    match leafFreeSpace g b.toLeaf with
    | none => none
    | some free =>
        if free < 0 then some fail
        else if b.nritems = 0 then some (0, none)
        else if ¬ parentFits parentKey (itemKey b.area 0) then
          some fail
        else if
            (List.range (b.nritems - 2)).all
              (checkItem g b.area)
          then some (0, none)
        else some fail

/- `btrfs_check_leaf` returns 0. -/
def LeafTaken
    (g : Geometry)
    (parentKey : Option Key)
    (b : Block) : Prop :=
  (checkLeaf g parentKey b).map Prod.fst = some 0

----------
-- What They Are For
----------

/- The keys of a node ascend. -/
def NodeAscends
    (b : Block) : Prop :=
  ∀ i j, i < j → j < b.nritems →
    nodeKey b.area i < nodeKey b.area j

/-
  The check of nodes is sound and complete: it takes a block
  just when the keys ascend, where the number of items is in
  range and the parent key fits. What it takes has that key.
-/
def NodeExact
    (ptrs : Nat)
    (parentKey : Option Key)
    (b : Block) : Prop :=
  ((checkNode ptrs parentKey b).1 = 0 →
    NodeAscends b ∧
      parentFits parentKey (nodeKey b.area 0) = true) ∧
  (NodeAscends b → 0 < b.nritems → b.nritems ≤ ptrs →
    parentFits parentKey (nodeKey b.area 0) = true →
      (checkNode ptrs parentKey b).1 = 0)

/- The same for leaves and their layout. -/
def LeafExact
    (g : Geometry)
    (parentKey : Option Key)
    (b : Block) : Prop :=
  (LeafTaken g parentKey b → Layout g b.toLeaf) ∧
  (Layout g b.toLeaf → b.level = 0 →
    b.nritems * ITEM_SIZE ≤ b.len →
    (0 < b.nritems →
      parentFits parentKey (itemKey b.area 0) = true) →
      LeafTaken g parentKey b)

/- What is looked at in a node. -/
def NodeChecked
    (ptrs : Nat)
    (parentKey : Option Key)
    (b : Block) : Prop :=
  0 < b.nritems ∧ b.nritems ≤ ptrs ∧
    parentFits parentKey (nodeKey b.area 0) = true ∧
    ∀ i, i + 2 < b.nritems →
      nodeKey b.area i < nodeKey b.area (i + 1)

/- What is not: the last pair. -/
def LastKeyAscends
    (b : Block) : Prop :=
  ∀ i, i + 2 = b.nritems →
    nodeKey b.area i < nodeKey b.area (i + 1)

/- What is looked at in a leaf with items. -/
def LeafChecked
    (g : Geometry)
    (parentKey : Option Key)
    (b : Block) : Prop :=
  b.nritems * ITEM_SIZE ≤ b.len ∧ b.level = 0 ∧
    (∃ free, leafFreeSpace g b.toLeaf = some free ∧
      0 ≤ free) ∧
    0 < b.nritems ∧
    parentFits parentKey (itemKey b.area 0) = true ∧
    ∀ i, i + 2 < b.nritems →
      checkItem g b.area i = true

/-
  What is not: the last pair, in a leaf of one or two items
  the end of the first one, and that ends fit in 32 bits and
  the headers in an `int`.
-/
structure LastItemFits
    (g : Geometry)
    (b : Block) : Prop where
  key :
    ∀ i, i + 2 = b.nritems →
      itemKey b.area i < itemKey b.area (i + 1)
  data :
    ∀ i, i + 2 = b.nritems →
      itemOffset b.area i = itemEnd b.area (i + 1)
  first :
    b.nritems ≤ 2 → itemEnd b.area 0 = g.dataSize
  bounded :
    ∀ i, i < b.nritems →
      itemOffset b.area i + itemSize b.area i < 2 ^ 32
  headers : b.nritems * ITEM_SIZE < 2 ^ 31

----------
-- Nodes
----------

section Blocks

variable {ptrs : Nat}
variable {g : Geometry}
variable {parentKey : Option Key}
variable {b : Block}

theorem checkFail_ne
    (b : Block)
    (parentKey : Option Key)
    (first : Key) :
    (checkFail b parentKey first).1 ≠ 0 := by
  have hErr : (-5 : Int) ≠ 0 := by decide
  exact hErr

theorem checkNode_iff :
    (checkNode ptrs parentKey b).1 = 0 ↔
      NodeChecked ptrs parentKey b := by
  have hFail := checkFail_ne b parentKey (nodeKey b.area 0)
  unfold checkNode NodeChecked
  dsimp only
  split
  · rename_i hRange
    simp only [hFail, false_iff]
    omega
  · rename_i hRange
    split
    · rename_i hParent
      simp only [hFail, false_iff]
      tauto
    · rename_i hParent
      have hLoop :
          ((List.range (b.nritems - 2)).all fun i =>
              decide (nodeKey b.area i <
                nodeKey b.area (i + 1))) = true ↔
            ∀ i, i + 2 < b.nritems →
              nodeKey b.area i < nodeKey b.area (i + 1) := by
        simp only [List.all_eq_true, List.mem_range,
          decide_eq_true_eq]
        constructor
        · intro hAll i hIn
          exact hAll i (by omega)
        · intro hAll i hIn
          exact hAll i (by omega)
      split
      · rename_i hAll
        have hPairs := hLoop.mp hAll
        simp only [true_iff]
        exact ⟨by omega, by omega, not_not.mp hParent, hPairs⟩
      · rename_i hNot
        simp only [hFail, false_iff]
        rintro ⟨_, _, _, hPairs⟩
        exact hNot (hLoop.mpr hPairs)

/- Keys ascend if each pair of neighbours does. -/
theorem ascends_of_pairs
    {key : Nat → Key}
    {n : Nat}
    (hPairs : ∀ i, i + 1 < n → key i < key (i + 1)) :
    ∀ i j, i < j → j < n → key i < key j := by
  intro i j hLess hIn
  induction j with
  | zero => omega
  | succ j ih =>
      have hLast := hPairs j hIn
      rcases Nat.lt_succ_iff_lt_or_eq.mp hLess with
        hBefore | hSame
      · exact (ih hBefore (by omega)).trans hLast
      · rw [hSame]
        exact hLast

theorem nodeExact_iff :
    NodeExact ptrs parentKey b ↔
      (NodeChecked ptrs parentKey b → LastKeyAscends b) := by
  unfold NodeExact
  rw [checkNode_iff]
  constructor
  · rintro ⟨hSound, _⟩ hChecked i hLast
    exact (hSound hChecked).1 i (i + 1) (by omega) (by omega)
  · intro hLast
    constructor
    · intro hChecked
      refine ⟨ascends_of_pairs ?_, hChecked.2.2.1⟩
      intro i hIn
      by_cases hEnd : i + 2 = b.nritems
      · exact hLast hChecked i hEnd
      · exact hChecked.2.2.2 i (by omega)
    · intro hAscends hPos hRange hParent
      exact ⟨hPos, hRange, hParent, fun i hIn =>
        hAscends i (i + 1) (by omega) (by omega)⟩

----------
-- Leaves
----------

theorem checkItem_iff
    {a : Area}
    {i : Nat} :
    checkItem g a i = true ↔
      itemKey a i < itemKey a (i + 1) ∧
        itemOffset a i = itemEnd a (i + 1) ∧
        (i = 0 → itemEnd a i = g.dataSize) := by
  unfold checkItem
  rw [decide_eq_true_eq]

theorem checkLeaf_iff
    (hSome : 0 < b.nritems) :
    LeafTaken g parentKey b ↔
      LeafChecked g parentKey b := by
  have hFail := checkFail_ne b parentKey (itemKey b.area 0)
  unfold LeafTaken checkLeaf LeafChecked
  dsimp only
  split
  · rename_i hRange
    simp only [Option.map_some, Option.some.injEq, hFail,
      false_iff]
    omega
  split
  · rename_i hLevel
    simp only [Option.map_some, Option.some.injEq, hFail,
      false_iff]
    tauto
  cases hSpace : leafFreeSpace g b.toLeaf with
  | none => simp
  | some free =>
  simp only [Option.some.injEq, exists_eq_left']
  split
  · rename_i hFree
    simp only [Option.map_some, Option.some.injEq, hFail,
      false_iff]
    omega
  split
  · omega
  split
  · rename_i hParent
    simp only [Option.map_some, Option.some.injEq, hFail,
      false_iff]
    tauto
  · rename_i hRange hLevel hFree _ hParent
    have hLoop :
        (List.range (b.nritems - 2)).all
            (checkItem g b.area) = true ↔
          ∀ i, i + 2 < b.nritems →
            checkItem g b.area i = true := by
      simp only [List.all_eq_true, List.mem_range]
      constructor
      · intro hAll i hIn
        exact hAll i (by omega)
      · intro hAll i hIn
        exact hAll i (by omega)
    split
    · rename_i hAll
      have hPairs := hLoop.mp hAll
      simp only [Option.map_some, true_iff]
      exact ⟨by omega, not_not.mp hLevel, by omega, hSome,
        not_not.mp hParent, hPairs⟩
    · rename_i hNot
      simp only [Option.map_some, Option.some.injEq, hFail,
        false_iff]
      rintro ⟨_, _, _, _, _, hPairs⟩
      exact hNot (hLoop.mpr hPairs)

theorem itemOffset_lt
    (a : Area)
    (i : Nat) :
    itemOffset a i < 2 ^ 32 := by
  have hLt := LittleEndian.decode_lt
    (load a (ITEM_SIZE * i + 17) 4)
  rw [length_load] at hLt
  exact hLt

/- An end that is where some offset is has not wrapped. -/
theorem itemEnd_eq
    {a : Area}
    {i x : Nat}
    (hLess : x < 2 ^ 32)
    (hEnd : itemOffset a i + itemSize a i = x) :
    itemEnd a i = x := by
  unfold itemEnd
  rw [hEnd]
  exact Nat.mod_eq_of_lt hLess

/- A well laid out leaf passes all that is looked at. -/
theorem leafChecked_of_layout
    (hLayout : Layout g b.toLeaf)
    (hLevel : b.level = 0)
    (hRange : b.nritems * ITEM_SIZE ≤ b.len)
    (hSome : 0 < b.nritems)
    (hParent :
      parentFits parentKey (itemKey b.area 0) = true) :
    LeafChecked g parentKey b := by
  have hSize := g.dataSize_lt
  have hEnd := itemEnd_eq (by omega) (hLayout.first hSome)
  have hFree := (leafFreeSpace_iff hSome hLayout.headers_lt
    hEnd (hLayout.offset_le _ (by omega))).mpr hLayout.free
  refine ⟨hRange, hLevel, hFree, hSome, hParent, ?_⟩
  intro i hIn
  rw [checkItem_iff]
  refine ⟨?_, ?_, ?_⟩
  · exact hLayout.ascending i (i + 1) (by omega) (by omega)
  · exact (itemEnd_eq (itemOffset_lt b.area i)
      (hLayout.contiguous i (by omega))).symm
  · intro hZero
    rw [hZero]
    exact hEnd

/- Well laid out is what passes both parts. -/
theorem layout_of_leafChecked
    (hChecked : LeafChecked g parentKey b)
    (hLast : LastItemFits g b) :
    Layout g b.toLeaf := by
  rcases hChecked with ⟨_, _, hFree, hSome, _, hPairs⟩
  have hEnd : ∀ i, i < b.nritems →
      itemEnd b.area i =
        itemOffset b.area i + itemSize b.area i :=
    fun i hIn => Nat.mod_eq_of_lt (hLast.bounded i hIn)
  have hFirst : itemEnd b.area 0 = g.dataSize := by
    by_cases hFew : b.nritems ≤ 2
    · exact hLast.first hFew
    · exact (checkItem_iff.mp (hPairs 0 (by omega))).2.2 rfl
  have hNext : ∀ i, i + 1 < b.nritems →
      itemOffset b.area (i + 1) + itemSize b.area (i + 1) =
        itemOffset b.area i := by
    intro i hIn
    rw [← hEnd (i + 1) hIn]
    by_cases hLastPair : i + 2 = b.nritems
    · exact (hLast.data i hLastPair).symm
    · exact (checkItem_iff.mp (hPairs i (by omega))).2.1.symm
  refine ⟨ascends_of_pairs ?_, ?_, hNext, ?_⟩
  · intro i hIn
    by_cases hLastPair : i + 2 = b.nritems
    · exact hLast.key i hLastPair
    · exact (checkItem_iff.mp (hPairs i (by omega))).1
  · intro hSome
    rw [← hEnd 0 hSome]
    exact hFirst
  · refine (leafFreeSpace_iff hSome hLast.headers hFirst
      ?_).mp hFree
    refine offset_le ?_ hNext _ (by omega)
    rw [← hEnd 0 hSome]
    exact Nat.le_of_eq hFirst

theorem lastItemFits_of_layout
    (hLayout : Layout g b.toLeaf)
    (hSome : 0 < b.nritems) :
    LastItemFits g b := by
  have hSize := g.dataSize_lt
  refine ⟨?_, ?_, ?_, ?_, hLayout.headers_lt⟩
  · intro i hLast
    exact hLayout.ascending i (i + 1) (by omega) (by omega)
  · intro i hLast
    exact (itemEnd_eq (itemOffset_lt b.area i)
      (hLayout.contiguous i (by omega))).symm
  · intro _
    exact itemEnd_eq (by omega) (hLayout.first hSome)
  · intro i hIn
    cases i with
    | zero =>
        have hFirst := hLayout.first hSome
        omega
    | succ i =>
        have hNext := hLayout.contiguous i hIn
        have hLess := itemOffset_lt b.area i
        omega

/- A leaf without items is taken, and well laid out. -/
theorem leafExact_empty
    (hNone : b.nritems = 0) :
    LeafExact g parentKey b := by
  have hSpace :
      leafFreeSpace g b.toLeaf = some (g.dataSize : Int) := by
    unfold leafFreeSpace leafSpaceUsed
    rw [if_pos hNone, Option.map_some, Int.sub_zero]
  constructor
  · intro _
    refine ⟨?_, ?_, ?_, ?_⟩
    · intro i j _ hIn
      omega
    · intro hSome
      omega
    · intro i hIn
      omega
    · rw [hNone]
      exact Nat.zero_le _
  · intro _ hLevel hRange _
    unfold LeafTaken checkLeaf
    dsimp only
    rw [if_neg (by omega), if_neg (not_not.mpr hLevel),
      hSpace]
    dsimp only
    rw [if_neg (by omega), if_pos hNone]
    rfl

theorem leafExact_iff :
    LeafExact g parentKey b ↔
      (LeafChecked g parentKey b → LastItemFits g b) := by
  by_cases hSome : 0 < b.nritems
  · unfold LeafExact
    rw [checkLeaf_iff hSome]
    constructor
    · rintro ⟨hSound, _⟩ hChecked
      exact lastItemFits_of_layout (hSound hChecked) hSome
    · intro hLast
      constructor
      · intro hChecked
        exact layout_of_leafChecked hChecked (hLast hChecked)
      · intro hLayout hLevel hRange hParent
        exact leafChecked_of_layout hLayout hLevel hRange
          hSome (hParent hSome)
  · have hNone : b.nritems = 0 := by omega
    constructor
    · rintro _ ⟨_, _, _, hSome', _⟩
      exact absurd hSome' hSome
    · intro _
      exact leafExact_empty hNone

/-
  Both checks are exact for a block just when what they look
  at implies what they do not look at.
-/
theorem checks_exact_iff
    (ptrs : Nat)
    (g : Geometry)
    (parentKey : Option Key)
    (b : Block) :
    (NodeExact ptrs parentKey b ↔
      (NodeChecked ptrs parentKey b → LastKeyAscends b)) ∧
    (LeafExact g parentKey b ↔
      (LeafChecked g parentKey b → LastItemFits g b)) :=
  ⟨nodeExact_iff, leafExact_iff⟩

end Blocks

/- Two keys of objects 2 and 1, each of a small item. -/
def descending : Block where
  nritems := 2
  area := fun p =>
    if p = 0 then 2
    else if p = 25 ∨ p = 33 then 1
    else if p = 18 ∨ p = 43 then 15
    else 0
  len := 4096
  level := 0
  owner := 5

/- They are taken by both checks, though in no order. -/
theorem descending_not_exact :
    (¬ NodeExact 121 none descending) ∧
      ¬ LeafExact ⟨3995, by decide⟩ none descending := by
  constructor
  · rintro ⟨hSound, _⟩
    have hTaken : (checkNode 121 none descending).1 = 0 := by
      decide
    have hLess := (hSound hTaken).1 0 1 (by decide) (by decide)
    exact absurd hLess (by decide)
  · rintro ⟨hSound, _⟩
    have hTaken :
        LeafTaken ⟨3995, by decide⟩ none descending := by
      unfold LeafTaken
      decide
    have hLess := (hSound hTaken).ascending 0 1 (by decide)
      (by decide)
    exact absurd hLess (by decide)

end Leaves

end BtrfsProgs
