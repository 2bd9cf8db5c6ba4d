import BtrfsProgs.Key

/-
  Pinning the blocks of the trees before the extent tree is
  made anew, from `cmds-check.c`.

  The checksum of a block is over all of it. It is taken to be
  that of no other size, so a block that is read with a size
  which is not its own is not read.

  Main declarations:
    * `Disk`, `InTree` and `Filesystem`
    * `pinDownTreeBlocks` and `pinMetadataBlocks`
    * `Followed`
    * `pinDownTreeBlocks_subset`
-/

----------
-- Trees
----------

namespace BtrfsProgs

namespace Reinit

/- Where a block is and its level, as in a root item. -/
structure Loc where
  bytenr : Nat
  level : Nat
deriving Repr, DecidableEq

/-
  `struct extent_buffer`, with the pointers of a node and the
  items of a leaf. An item that is no root item has any `Loc`.
-/
structure TreeBlock where
  start : Nat
  len : Nat
  level : Nat
  blockptrs : List Nat
  items : List (Key × Loc)
deriving Repr, DecidableEq

/- `BTRFS_ROOT_ITEM_KEY`. -/
def ROOT_ITEM_KEY : Nat := 132

/- `BTRFS_EXTENT_TREE_OBJECTID`. -/
def EXTENT_TREE_OBJECTID : Nat := 2

/- `BTRFS_TREE_RELOC_OBJECTID`. -/
def TREE_RELOC_OBJECTID : Nat := 2 ^ 64 - 8

/- `BTRFS_DATA_RELOC_TREE_OBJECTID`. -/
def DATA_RELOC_TREE_OBJECTID : Nat := 2 ^ 64 - 9

/-
  What is read: `readTreeBlock` is `read_tree_block` with an
  address and a size.
-/
structure Disk where
  leafsize : Nat
  nodesize : Nat
  chunkRoot : TreeBlock
  treeRoot : TreeBlock
  readTreeBlock : Nat → Nat → Option TreeBlock

/- `btrfs_level_size`. -/
def Disk.levelSize
    (fs : Disk)
    (level : Nat) : Nat :=
  if level = 0 then fs.leafsize else fs.nodesize

def TreeBlock.loc
    (eb : TreeBlock) : Loc :=
  ⟨eb.start, eb.level⟩

/- The blocks of a tree. -/
inductive InTree (fs : Disk) : Loc → Loc → Prop where
  | root (at_ : Loc) : InTree fs at_ at_
  | child {b level c : Nat} {eb : TreeBlock} {at_ : Loc} :
      fs.readTreeBlock b (fs.levelSize (level + 1)) = some eb →
      c ∈ eb.blockptrs →
      InTree fs ⟨c, level⟩ at_ →
      InTree fs ⟨b, level + 1⟩ at_

/- A root item of the tree of roots. -/
def HasRoot
    (fs : Disk)
    (key : Key)
    (root : Loc) : Prop :=
  key.type = ROOT_ITEM_KEY ∧
    ∃ b eb, InTree fs fs.treeRoot.loc ⟨b, 0⟩ ∧
      fs.readTreeBlock b fs.leafsize = some eb ∧
      (key, root) ∈ eb.items

/-
  A disk with trees: what is read is a whole block, levels fit,
  and the root items are in the tree of roots.
-/
structure Filesystem extends Disk where
  leafsize_pos : 0 < leafsize
  nodesize_pos : 0 < nodesize
  read_at :
    ∀ {b size eb}, readTreeBlock b size = some eb →
      eb.start = b ∧ eb.len = size ∧
        size = toDisk.levelSize eb.level
  child_level :
    ∀ {b size eb c size' eb'},
      readTreeBlock b size = some eb →
      c ∈ eb.blockptrs →
      readTreeBlock c size' = some eb' →
      eb'.level + 1 = eb.level
  root_level :
    ∀ {b size eb key root size' eb'},
      readTreeBlock b size = some eb →
      (key, root) ∈ eb.items →
      key.type = ROOT_ITEM_KEY →
      readTreeBlock root.bytenr size' = some eb' →
      eb'.level = root.level
  root_items :
    ∀ {b size eb key root},
      readTreeBlock b size = some eb →
      eb.level = 0 →
      (key, root) ∈ eb.items →
      key.type = ROOT_ITEM_KEY →
      InTree toDisk treeRoot.loc ⟨b, 0⟩
  chunkRoot_read :
    readTreeBlock chunkRoot.start
      (toDisk.levelSize chunkRoot.level) = some chunkRoot
  treeRoot_read :
    readTreeBlock treeRoot.start
      (toDisk.levelSize treeRoot.level) = some treeRoot

----------
-- Pins
----------

/- `pinned_extents`: starts and lengths. -/
abbrev Pins : Type :=
  List (Nat × Nat)

/- Nothing, if the recursion is too deep. -/
abbrev PinRet : Type :=
  Option (Except Int Pins)

/- A loop that ends at the first error. -/
def pinEach
    {α : Type}
    (pin : α → Pins → PinRet) :
    List α → Pins → PinRet
  | [], pinned => some (.ok pinned)
  | a :: as, pinned =>
      match pin a pinned with
      | some (.ok pinned) => pinEach pin as pinned
      | ret => ret

/- The trees that are not followed. -/
def skipped
    (objectid : Nat) : Bool :=
  objectid = EXTENT_TREE_OBJECTID ∨
    objectid = TREE_RELOC_OBJECTID ∨
    objectid = DATA_RELOC_TREE_OBJECTID

/- A turn of `pin_down_tree_blocks` at an item of a leaf. -/
def pinRootItem
    (fs : Disk)
    (below : TreeBlock → Bool → Pins → PinRet)
    (item : Key × Loc)
    (pinned : Pins) : PinRet :=
  if item.1.type ≠ ROOT_ITEM_KEY then some (.ok pinned)
  else if skipped item.1.objectid then some (.ok pinned)
  else
    match fs.readTreeBlock item.2.bytenr fs.leafsize with
    | none => some (.error (-5))
    | some tmp => below tmp false pinned

/-
  A turn at a pointer of a node. The leaves are not read, but
  for those of the tree of roots.
-/
def pinChild
    (fs : Disk)
    (below : TreeBlock → Bool → Pins → PinRet)
    (level : Nat)
    (treeRoot : Bool)
    (bytenr : Nat)
    (pinned : Pins) : PinRet :=
  if level = 1 ∧ ¬ treeRoot then
    some (.ok ((bytenr, fs.leafsize) :: pinned))
  else
    match fs.readTreeBlock bytenr fs.leafsize with
    | none => some (.error (-5))
    | some tmp => below tmp treeRoot pinned

/-
  `pin_down_tree_blocks`. Every block is read with the size of
  a leaf, whatever its level.
-/
def pinDownTreeBlocks
    (fs : Disk) :
    Nat → TreeBlock → Bool → Pins → PinRet
  | 0, _, _, _ => none
  | fuel + 1, eb, treeRoot, pinned =>
      let below := pinDownTreeBlocks fs fuel
      let pinned := (eb.start, eb.len) :: pinned
      if eb.level = 0 then
        pinEach (pinRootItem fs below) eb.items pinned
      else
        pinEach (pinChild fs below eb.level treeRoot)
          eb.blockptrs pinned

/- `pin_metadata_blocks`. -/
def pinMetadataBlocks
    (fs : Disk)
    (fuel : Nat) : PinRet :=
  match pinDownTreeBlocks fs fuel fs.chunkRoot false [] with
  | some (.ok pinned) =>
      pinDownTreeBlocks fs fuel fs.treeRoot true pinned
  | ret => ret

/- A byte of a block. -/
def Disk.Covers
    (fs : Disk)
    (at_ : Loc)
    (x : Nat) : Prop :=
  at_.bytenr ≤ x ∧ x < at_.bytenr + fs.levelSize at_.level

/- The range of a block. -/
def Disk.range
    (fs : Disk)
    (at_ : Loc) : Nat × Nat :=
  (at_.bytenr, fs.levelSize at_.level)

/- The blocks of the trees that are followed. -/
def Followed
    (fs : Disk)
    (at_ : Loc) : Prop :=
  InTree fs fs.chunkRoot.loc at_ ∨
    InTree fs fs.treeRoot.loc at_ ∨
    ∃ key root, HasRoot fs key root ∧
      skipped key.objectid = false ∧ InTree fs root at_

----------
-- Loops
----------

section Loops

variable {α : Type}
variable {pin : α → Pins → PinRet}
variable {as : List α}
variable {pinned pinned' : Pins}

/- What every turn keeps, the loop keeps. -/
theorem pinEach_keeps
    {P : Pins → Prop}
    (hKeeps :
      ∀ a ∈ as, ∀ p p',
        pin a p = some (.ok p') → P p → P p')
    (hRun : pinEach pin as pinned = some (.ok pinned'))
    (hStart : P pinned) :
    P pinned' := by
  induction as generalizing pinned with
  | nil =>
      cases hRun
      exact hStart
  | cons a as ih =>
      rw [pinEach] at hRun
      split at hRun
      · rename_i p hPin
        have hNext := hKeeps a (List.mem_cons_self ..) _ _
          hPin hStart
        exact ih
          (fun b hMem => hKeeps b (List.mem_cons_of_mem _ hMem))
          hRun hNext
      · rename_i hNot
        exact absurd hRun (hNot _)

/- Each has its turn, if no pin is lost. -/
theorem pinEach_turn
    (hKeeps :
      ∀ a ∈ as, ∀ p p',
        pin a p = some (.ok p') → p ⊆ p')
    (hRun : pinEach pin as pinned = some (.ok pinned'))
    {a : α}
    (hMem : a ∈ as) :
    ∃ p p', pin a p = some (.ok p') ∧ p' ⊆ pinned' := by
  induction as generalizing pinned with
  | nil => cases hMem
  | cons b as ih =>
      have hRest : ∀ c ∈ as, ∀ p p',
          pin c p = some (.ok p') → p ⊆ p' :=
        fun c hMem => hKeeps c (List.mem_cons_of_mem _ hMem)
      rw [pinEach] at hRun
      split at hRun
      · rename_i p hPin
        rcases List.mem_cons.mp hMem with hHead | hTail
        · subst hHead
          refine ⟨pinned, p, hPin, ?_⟩
          exact pinEach_keeps (P := fun q => p ⊆ q)
            (fun c hIn q q' hTurn hSub =>
              List.Subset.trans hSub (hRest c hIn q q' hTurn))
            hRun (List.Subset.refl p)
        · exact ih hRest hRun hTail
      · rename_i hNot
        exact absurd hRun (hNot _)

end Loops

----------
-- Blocks That Are Pinned
----------

section Blocks

variable {fs : Filesystem}

/- The block has been read with its own size. -/
def Whole
    (fs : Filesystem)
    (eb : TreeBlock) : Prop :=
  fs.readTreeBlock eb.start (fs.levelSize eb.level) = some eb

variable {eb : TreeBlock}

theorem Whole.len
    (hWhole : Whole fs eb) :
    eb.len = fs.levelSize eb.level :=
  (fs.read_at hWhole).2.1

theorem whole_of_read
    {b size : Nat}
    (hRead : fs.readTreeBlock b size = some eb) :
    Whole fs eb ∧ eb.start = b := by
  rcases fs.read_at hRead with ⟨hStart, _, hSize⟩
  refine ⟨?_, hStart⟩
  unfold Whole
  rw [hStart, ← hSize]
  exact hRead

/- A child that is read is the child of the tree. -/
theorem Whole.child
    {eb tmp : TreeBlock}
    {c level size : Nat}
    (hWhole : Whole fs eb)
    (hLevel : eb.level = level + 1)
    (hMem : c ∈ eb.blockptrs)
    (hRead : fs.readTreeBlock c size = some tmp) :
    Whole fs tmp ∧ tmp.loc = ⟨c, level⟩ := by
  rcases whole_of_read hRead with ⟨hTmp, hStart⟩
  have hNext := fs.child_level hWhole hMem hRead
  refine ⟨hTmp, ?_⟩
  unfold TreeBlock.loc
  rw [hStart, Nat.succ.inj (hNext.trans hLevel)]

/- So is the root of a root item. -/
theorem Whole.rootItem
    {eb tmp : TreeBlock}
    {key : Key}
    {root : Loc}
    {size : Nat}
    (hWhole : Whole fs eb)
    (hMem : (key, root) ∈ eb.items)
    (hType : key.type = ROOT_ITEM_KEY)
    (hRead : fs.readTreeBlock root.bytenr size = some tmp) :
    Whole fs tmp ∧ tmp.loc = root := by
  rcases whole_of_read hRead with ⟨hTmp, hStart⟩
  have hLevel := fs.root_level hWhole hMem hType hRead
  refine ⟨hTmp, ?_⟩
  unfold TreeBlock.loc
  rw [hStart, hLevel]

/- The blocks of a tree below a block that has been read. -/
theorem inTree_cases
    {at_ : Loc}
    (hWhole : Whole fs eb)
    (hIn : InTree fs.toDisk eb.loc at_) :
    at_ = eb.loc ∨
      ∃ c level, c ∈ eb.blockptrs ∧ eb.level = level + 1 ∧
        InTree fs.toDisk ⟨c, level⟩ at_ := by
  generalize hStart : eb.loc = start at hIn
  cases hIn with
  | root => exact .inl rfl
  | child hRead hMem hIn =>
      rename_i b level c eb'
      have hBytenr : eb.start = b := congrArg Loc.bytenr hStart
      have hLevel : eb.level = level + 1 :=
        congrArg Loc.level hStart
      unfold Whole at hWhole
      rw [hBytenr, hLevel, hRead] at hWhole
      cases hWhole
      exact .inr ⟨c, level, hMem, hLevel, hIn⟩

variable {below : TreeBlock → Bool → Pins → PinRet}
variable {p p' : Pins}

/- What a turn at an item does. -/
theorem pinRootItem_cases
    {fs : Disk}
    {item : Key × Loc}
    (hRun : pinRootItem fs below item p = some (.ok p')) :
    p' = p ∧ (item.1.type ≠ ROOT_ITEM_KEY ∨
        skipped item.1.objectid = true) ∨
      item.1.type = ROOT_ITEM_KEY ∧
        skipped item.1.objectid = false ∧
        ∃ tmp,
          fs.readTreeBlock item.2.bytenr fs.leafsize =
            some tmp ∧
          below tmp false p = some (.ok p') := by
  unfold pinRootItem at hRun
  split at hRun
  · rename_i hType
    cases hRun
    exact .inl ⟨rfl, .inl hType⟩
  · rename_i hType
    split at hRun
    · rename_i hSkipped
      cases hRun
      exact .inl ⟨rfl, .inr hSkipped⟩
    · rename_i hFollowed
      split at hRun
      · cases hRun
      · rename_i tmp hRead
        exact .inr ⟨not_not.mp hType,
          Bool.not_eq_true _ ▸ hFollowed, tmp, hRead, hRun⟩

variable {treeRoot : Bool}

/- What a turn at a pointer does. -/
theorem pinChild_cases
    {fs : Disk}
    {level c : Nat}
    (hRun :
      pinChild fs below level treeRoot c p = some (.ok p')) :
    level = 1 ∧ treeRoot = false ∧
        p' = (c, fs.leafsize) :: p ∨
      ∃ tmp,
        fs.readTreeBlock c fs.leafsize = some tmp ∧
        below tmp treeRoot p = some (.ok p') := by
  unfold pinChild at hRun
  split at hRun
  · rename_i hLeaf
    cases hRun
    exact .inl ⟨hLeaf.1, Bool.not_eq_true _ ▸ hLeaf.2, rfl⟩
  · split at hRun
    · cases hRun
    · rename_i tmp hRead
      exact .inr ⟨tmp, hRead, hRun⟩

/- No pin is lost below. -/
def Keeps
    (below : TreeBlock → Bool → Pins → PinRet) : Prop :=
  ∀ tmp treeRoot p p',
    below tmp treeRoot p = some (.ok p') → p ⊆ p'

theorem Keeps.rootItem
    {fs : Disk}
    {item : Key × Loc}
    (hBelow : Keeps below)
    (hRun : pinRootItem fs below item p = some (.ok p')) :
    p ⊆ p' := by
  rcases pinRootItem_cases hRun with
    ⟨hSame, _⟩ | ⟨_, _, tmp, _, hTurn⟩
  · rw [hSame]
    exact List.Subset.refl p
  · exact hBelow _ _ _ _ hTurn

theorem Keeps.child
    {fs : Disk}
    {level c : Nat}
    (hBelow : Keeps below)
    (hRun :
      pinChild fs below level treeRoot c p = some (.ok p')) :
    p ⊆ p' := by
  rcases pinChild_cases hRun with
    ⟨_, _, hPin⟩ | ⟨tmp, _, hTurn⟩
  · rw [hPin]
    exact List.subset_cons_self ..
  · exact hBelow _ _ _ _ hTurn

/- No pin is lost. -/
theorem pinDownTreeBlocks_subset
    {fs : Disk}
    {fuel : Nat}
    {pinned pinned' : Pins}
    (hRun :
      pinDownTreeBlocks fs fuel eb treeRoot pinned =
        some (.ok pinned')) :
    (eb.start, eb.len) :: pinned ⊆ pinned' := by
  induction fuel generalizing eb treeRoot pinned pinned' with
  | zero => cases hRun
  | succ fuel ih =>
      have hBelow : Keeps (pinDownTreeBlocks fs fuel) := by
        intro tmp below p p' hTurn
        exact List.Subset.trans (List.subset_cons_self ..)
          (ih hTurn)
      rw [pinDownTreeBlocks] at hRun
      split at hRun
      · exact pinEach_keeps
          (P := fun q => (eb.start, eb.len) :: pinned ⊆ q)
          (fun _ _ _ _ hTurn hSub =>
            List.Subset.trans hSub (hBelow.rootItem hTurn))
          hRun (List.Subset.refl _)
      · exact pinEach_keeps
          (P := fun q => (eb.start, eb.len) :: pinned ⊆ q)
          (fun _ _ _ _ hTurn hSub =>
            List.Subset.trans hSub (hBelow.child hTurn))
          hRun (List.Subset.refl _)

end Blocks

end Reinit

end BtrfsProgs
