import BtrfsProgs.Basic
import BtrfsProgs.Lib.Loop
import BtrfsProgs.Reinit.Pinned

/-
  `reset_balance` and `reinit_extent_tree`, from
  `cmds-check.c`, up to the first blocks that are allocated,
  and which blocks are safe from the allocator then.

  Main declarations:
    * `RootTree`, `resetBalance` and `reinitExtentTree`
    * `InUse` and `AllPinned`
    * `reinitExtentTree_pins_iff`
-/

----------
-- Resetting the Balance
----------

namespace BtrfsProgs

namespace Reinit

/-
  The tree of roots under `btrfs_search_slot`, which makes way
  for a deletion and copies the path, and `btrfs_del_items`. A
  search gives its result, a leaf and a slot.
-/
structure RootTree (T L : Type) where
  keys : T → List Key
  leafKeys : T → L → List Key
  searchSlot : Key → T → Int × T × L × Nat
  delItems : L → Nat → Nat → T → Int × T

section Balance

variable {T L : Type}

/- `BTRFS_BALANCE_OBJECTID` and `BTRFS_BALANCE_ITEM_KEY`. -/
def balanceKey : Key where
  objectid := 2 ^ 64 - 4
  type := 248
  offset := 0

/- The first root item of a reloc tree. -/
def relocKey : Key where
  objectid := TREE_RELOC_OBJECTID
  type := ROOT_ITEM_KEY
  offset := 0

/- The variables of the loop of `reset_balance`. -/
structure RelocScan (T L : Type) where
  t : T
  leaf : L
  slot : Nat
  key : Key
  found : Bool
  delSlot : Nat
  delNr : Nat

/-
  A turn of it: a leaf that is done, or an item. The loop ends
  where it breaks off, or with an error. At the end of a leaf
  it looks for the next item with a search, and breaks off if
  that ends behind the last item of a leaf too.
-/
def relocTurn
    (ops : RootTree T L)
    (s : RelocScan T L) :
    RelocScan T L ⊕ Except (Int × T) (RelocScan T L) :=
  match (ops.leafKeys s.t s.leaf)[s.slot]? with
  | none =>
      if ¬ s.found then .inr (.ok s)
      else
        let (ret, t) :=
          if s.delNr = 0 then (0, s.t)
          else ops.delItems s.leaf s.delSlot s.delNr s.t
        if ret ≠ 0 then .inr (.error (ret, t))
        else
          let key :=
            { s.key with offset := (s.key.offset + 1) % 2 ^ 64 }
          let (ret, t, leaf, slot) := ops.searchSlot key t
          if ret < 0 then .inr (.error (ret, t))
          else
            .inl { s with
              t := t, leaf := leaf, slot := slot, key := key,
              found := false, delNr := 0 }
  | some key =>
      let s := { s with key := key, found := true }
      if TREE_RELOC_OBJECTID < key.objectid then .inr (.ok s)
      else if key.objectid ≠ TREE_RELOC_OBJECTID then
        .inl { s with slot := s.slot + 1 }
      else if s.delNr = 0 then
        .inl { s with
          delSlot := s.slot, delNr := 1, slot := s.slot + 1 }
      else
        .inl { s with delNr := s.delNr + 1, slot := s.slot + 1 }

/-
  `reset_balance`: its result, the tree of roots, and that the
  data reloc tree has been made anew. `readDataReloc` is the
  result of `btrfs_read_fs_root`.
-/
def resetBalance
    (fuel : Nat)
    (ops : RootTree T L)
    (readDataReloc : Int)
    (t : T) : Option (Int × T × Bool) :=
  let (ret, t, leaf, slot) := ops.searchSlot balanceKey t
  if ret ≠ 0 then
    some (if 0 < ret then 0 else ret, t, false)
  else
    let (ret, t) := ops.delItems leaf slot 1 t
    if ret ≠ 0 then some (ret, t, false)
    else
      let (ret, t, leaf, slot) := ops.searchSlot relocKey t
      if ret < 0 then some (ret, t, false)
      else
        match Loop.run (relocTurn ops) fuel
            { t := t, leaf := leaf, slot := slot,
              key := relocKey, found := false, delSlot := 0,
              delNr := 0 } with
        | none => none
        | some (.error (ret, t)) => some (ret, t, false)
        | some (.ok s) =>
            let (ret, t) :=
              if s.delNr = 0 then (0, s.t)
              else ops.delItems s.leaf s.delSlot s.delNr s.t
            if ret ≠ 0 then some (ret, t, false)
            else if readDataReloc ≠ 0 then
              some (readDataReloc, t, false)
            else some (0, t, true)

----------
-- The Extent Tree
----------

/-
  What `reinit_extent_tree` has when it first allocates, with
  the tree of roots it leaves.
-/
structure FirstAlloc (T : Type) where
  pinned : Pins
  roots : T
  dataReloc : Bool

/- What it is given. -/
structure Input (T L : Type) where
  fs : Filesystem
  mixed : Bool
  resetBlockGroups : Int
  ops : RootTree T L
  roots : T
  readDataReloc : Int
  insertBlockGroups : Int

/-
  `reinit_extent_tree`. The root of the extent tree is written
  over, so `reset_balance` is the first to allocate. The rest
  is that the block groups are inserted and all is committed.
-/
def reinitExtentTree
    (fuel : Nat)
    (input : Input T L) : Option (Int × Option (FirstAlloc T)) :=
  if input.mixed then some (-22, none)
  else
    match pinMetadataBlocks input.fs.toDisk fuel with
    | none => none
    | some (.error ret) => some (ret, none)
    | some (.ok pinned) =>
        if input.resetBlockGroups ≠ 0 then
          some (input.resetBlockGroups, none)
        else
          match resetBalance fuel input.ops
              input.readDataReloc input.roots with
          | none => none
          | some (ret, roots, dataReloc) =>
              some
                (if ret ≠ 0 then ret
                  else input.insertBlockGroups,
                some ⟨pinned, roots, dataReloc⟩)

----------
-- Blocks in Use
----------

/- A root that is neither deleted nor made anew. -/
def Stays
    (input : Input T L)
    (first : FirstAlloc T)
    (key : Key)
    (root : Loc) : Prop :=
  HasRoot input.fs.toDisk key root ∧
    key ∈ input.ops.keys first.roots ∧
    key.objectid ≠ EXTENT_TREE_OBJECTID ∧
    ¬ (key.objectid = DATA_RELOC_TREE_OBJECTID ∧
      first.dataReloc = true)

/- The blocks of the trees that stay. -/
def InUse
    (input : Input T L)
    (first : FirstAlloc T)
    (at_ : Loc) : Prop :=
  InTree input.fs.toDisk input.fs.chunkRoot.loc at_ ∨
    InTree input.fs.toDisk input.fs.treeRoot.loc at_ ∨
    ∃ key root, Stays input first key root ∧
      InTree input.fs.toDisk root at_

/- Each of their bytes is pinned. -/
def AllPinned
    (input : Input T L)
    (first : FirstAlloc T) : Prop :=
  ∀ at_, InUse input first at_ →
    ∀ x, input.fs.Covers at_ x →
      ∃ r ∈ first.pinned, r.1 ≤ x ∧ x < r.1 + r.2

variable {input : Input T L}
variable {fuel : Nat}
variable {first : FirstAlloc T}
variable {ret : Int}

/- The pins are there when it first allocates. -/
theorem pins_of_reinit
    (hRun :
      reinitExtentTree fuel input = some (ret, some first)) :
    pinMetadataBlocks input.fs.toDisk fuel =
      some (.ok first.pinned) := by
  unfold reinitExtentTree at hRun
  split at hRun
  · cases hRun
  split at hRun
  · cases hRun
  · cases hRun
  · rename_i pinned hPin
    split at hRun
    · cases hRun
    split at hRun
    · cases hRun
    · cases hRun
      exact hPin

/- A byte is pinned if it is one of a tree that is followed. -/
theorem pinned_iff
    (hRun :
      reinitExtentTree fuel input = some (ret, some first))
    (x : Nat) :
    (∃ r ∈ first.pinned, r.1 ≤ x ∧ x < r.1 + r.2) ↔
      ∃ at_, Followed input.fs.toDisk at_ ∧
        input.fs.Covers at_ x := by
  have hPins := pins_of_reinit hRun
  constructor
  · rintro ⟨r, hMem, hIn⟩
    rcases pinned_followed hPins r hMem with
      ⟨at_, hFollowed, hRange⟩
    rw [hRange] at hIn
    exact ⟨at_, hFollowed, hIn⟩
  · rintro ⟨at_, hFollowed, hCovers⟩
    exact ⟨_, followed_pinned hPins hFollowed, hCovers⟩

/- The trees that stay and are not followed. -/
def StaysUnpinned
    (input : Input T L)
    (first : FirstAlloc T)
    (key : Key)
    (root : Loc) : Prop :=
  Stays input first key root ∧ skipped key.objectid = true

/-
  The blocks in use are pinned just when each byte of a tree
  that stays and is not followed is one of another tree.
-/
theorem allPinned_iff
    (hRun :
      reinitExtentTree fuel input = some (ret, some first)) :
    AllPinned input first ↔
      ∀ key root, StaysUnpinned input first key root →
        ∀ at_, InTree input.fs.toDisk root at_ →
          ∀ x, input.fs.Covers at_ x →
            ∃ other, Followed input.fs.toDisk other ∧
              input.fs.Covers other x := by
  constructor
  · intro hAll key root hStays at_ hIn x hCovers
    exact (pinned_iff hRun x).mp
      (hAll at_ (.inr (.inr ⟨key, root, hStays.1, hIn⟩)) x
        hCovers)
  · intro hShared at_ hUse x hCovers
    refine (pinned_iff hRun x).mpr ?_
    rcases hUse with hIn | hIn | ⟨key, root, hStays, hIn⟩
    · exact ⟨at_, .inl hIn, hCovers⟩
    · exact ⟨at_, .inr (.inl hIn), hCovers⟩
    · cases hSkipped : skipped key.objectid with
      | true =>
          exact hShared key root ⟨hStays, hSkipped⟩ at_ hIn x
            hCovers
      | false =>
          exact ⟨at_,
            .inr (.inr ⟨key, root, hStays.1, hSkipped, hIn⟩),
            hCovers⟩

/- The root of a tree that is not followed is its own. -/
def OwnRoots
    (fs : Disk) : Prop :=
  ∀ key root, HasRoot fs key root →
    skipped key.objectid = true →
      ∀ other, Followed fs other → ¬ fs.Covers other root.bytenr

theorem covers_start
    (fs : Filesystem)
    (at_ : Loc) :
    fs.Covers at_ at_.bytenr := by
  refine ⟨Nat.le_refl _, ?_⟩
  have hLeaf := fs.leafsize_pos
  have hNode := fs.nodesize_pos
  unfold Disk.levelSize
  split
  · omega
  · omega

/- With roots of their own there is no such tree. -/
theorem allPinned_iff_none
    (hRun :
      reinitExtentTree fuel input = some (ret, some first))
    (hOwn : OwnRoots input.fs.toDisk) :
    AllPinned input first ↔
      ∀ key root, ¬ StaysUnpinned input first key root := by
  rw [allPinned_iff hRun]
  constructor
  · intro hShared key root hStays
    rcases hShared key root hStays root (.root _) _
        (covers_start input.fs root) with
      ⟨other, hFollowed, hCovers⟩
    exact hOwn key root hStays.1.1 hStays.2 other hFollowed
      hCovers
  · intro hNone key root hStays
    exact absurd hStays (hNone key root)

/- Without a balance `reset_balance` only searches. -/
theorem roots_of_noBalance
    (hRun :
      reinitExtentTree fuel input = some (ret, some first))
    (hNone :
      (input.ops.searchSlot balanceKey input.roots).1 ≠ 0) :
    first.roots =
        (input.ops.searchSlot balanceKey input.roots).2.1 ∧
      first.dataReloc = false := by
  unfold reinitExtentTree resetBalance at hRun
  dsimp only at hRun
  rw [if_pos hNone] at hRun
  split at hRun
  · cases hRun
  split at hRun
  · cases hRun
  · cases hRun
  · split at hRun
    · cases hRun
    · cases hRun
      exact ⟨rfl, rfl⟩

/-
  With no balance pending, and a search that keeps the items:
  just when there is neither a reloc tree nor a data reloc
  tree.
-/
theorem reinitExtentTree_pins_noBalance
    (hRun :
      reinitExtentTree fuel input = some (ret, some first))
    (hNone :
      (input.ops.searchSlot balanceKey input.roots).1 ≠ 0)
    (hKeys : ∀ key root, HasRoot input.fs.toDisk key root →
      key ∈ input.ops.keys
        (input.ops.searchSlot balanceKey input.roots).2.1)
    (hOwn : OwnRoots input.fs.toDisk) :
    AllPinned input first ↔
      ∀ key root, HasRoot input.fs.toDisk key root →
        key.objectid ≠ TREE_RELOC_OBJECTID ∧
          key.objectid ≠ DATA_RELOC_TREE_OBJECTID := by
  rcases roots_of_noBalance hRun hNone with ⟨hRoots, hMade⟩
  rw [allPinned_iff_none hRun hOwn]
  have hExtent :
      EXTENT_TREE_OBJECTID ≠ TREE_RELOC_OBJECTID ∧
        EXTENT_TREE_OBJECTID ≠ DATA_RELOC_TREE_OBJECTID := by
    decide
  constructor
  · intro hAll key root hRoot
    by_contra hIs
    refine hAll key root
      ⟨⟨hRoot, hRoots ▸ hKeys key root hRoot, ?_, ?_⟩, ?_⟩
    · intro hSame
      exact hIs (hSame ▸ hExtent)
    · rw [hMade]
      exact fun hBoth => nomatch hBoth.2
    · unfold skipped
      rw [decide_eq_true_eq]
      tauto
  · rintro hAll key root ⟨⟨hRoot, _, hOther, _⟩, hSkipped⟩
    unfold skipped at hSkipped
    rw [decide_eq_true_eq] at hSkipped
    have hNeither := hAll key root hRoot
    tauto

/-
  The blocks in use are pinned just when no byte of a tree
  that stays and is not followed is its own; if the roots are
  their own, just when there is no such tree.
-/
theorem reinitExtentTree_pins_iff
    (hRun :
      reinitExtentTree fuel input = some (ret, some first)) :
    (AllPinned input first ↔
      ∀ key root, StaysUnpinned input first key root →
        ∀ at_, InTree input.fs.toDisk root at_ →
          ∀ x, input.fs.Covers at_ x →
            ∃ other, Followed input.fs.toDisk other ∧
              input.fs.Covers other x) ∧
    (OwnRoots input.fs.toDisk →
      (AllPinned input first ↔
        ∀ key root, ¬ StaysUnpinned input first key root)) := by
  exact ⟨allPinned_iff hRun, allPinned_iff_none hRun⟩

end Balance

----------
-- A Filesystem
----------

/-
  The tree of roots has a subvolume and the data reloc tree,
  as any filesystem has, and no balance is pending.
-/
def plainBlocks : List TreeBlock :=
  [{ start := 4096, len := 4096, level := 0, blockptrs := [],
     items := [] },
   { start := 8192, len := 4096, level := 0, blockptrs := [],
     items :=
       [(⟨5, ROOT_ITEM_KEY, 0⟩, ⟨12288, 0⟩),
        (⟨DATA_RELOC_TREE_OBJECTID, ROOT_ITEM_KEY, 0⟩,
          ⟨16384, 0⟩)] },
   { start := 12288, len := 4096, level := 0, blockptrs := [],
     items := [] },
   { start := 16384, len := 4096, level := 0, blockptrs := [],
     items := [] }]

def plainRead
    (b size : Nat) : Option TreeBlock :=
  plainBlocks.find? fun eb => eb.start = b ∧ eb.len = size

theorem plainRead_spec
    {b size : Nat}
    {eb : TreeBlock}
    (hRead : plainRead b size = some eb) :
    eb ∈ plainBlocks ∧ eb.start = b ∧ eb.len = size := by
  have hFound := List.find?_some hRead
  simp only [decide_eq_true_eq] at hFound
  exact ⟨List.mem_of_find?_eq_some hRead, hFound⟩

def plain : Filesystem where
  leafsize := 4096
  nodesize := 4096
  chunkRoot :=
    { start := 4096, len := 4096, level := 0, blockptrs := [],
      items := [] }
  treeRoot :=
    { start := 8192, len := 4096, level := 0, blockptrs := [],
      items :=
        [(⟨5, ROOT_ITEM_KEY, 0⟩, ⟨12288, 0⟩),
         (⟨DATA_RELOC_TREE_OBJECTID, ROOT_ITEM_KEY, 0⟩,
           ⟨16384, 0⟩)] }
  readTreeBlock := plainRead
  leafsize_pos := page_pos
  nodesize_pos := page_pos
  read_at := by
    intro b size eb hRead
    rcases plainRead_spec hRead with ⟨hMem, hStart, hLen⟩
    have hSize : ∀ e ∈ plainBlocks, e.len = 4096 := by decide
    refine ⟨hStart, hLen, ?_⟩
    unfold Disk.levelSize
    rw [ite_self, ← hLen]
    exact hSize eb hMem
  child_level := by
    intro b size eb c size' eb' hRead hChild _
    have hLeaf : ∀ e ∈ plainBlocks, e.blockptrs = [] := by
      decide
    rw [hLeaf eb (plainRead_spec hRead).1] at hChild
    cases hChild
  root_level := by
    intro b size eb key root size' eb' hRead hItem _ hRoot
    have hLeaf : ∀ e ∈ plainBlocks, e.level = 0 := by decide
    have hRoots : ∀ e ∈ plainBlocks, ∀ i ∈ e.items,
        i.2.level = 0 := by decide
    rw [hLeaf eb' (plainRead_spec hRoot).1]
    exact (hRoots eb (plainRead_spec hRead).1 _ hItem).symm
  root_items := by
    intro b size eb key root hRead _ hItem _
    rcases plainRead_spec hRead with ⟨hMem, hStart, _⟩
    have hOnly : ∀ e ∈ plainBlocks, e.items ≠ [] →
        e.start = 8192 := by decide
    rw [← hStart, hOnly eb hMem (List.ne_nil_of_mem hItem)]
    exact .root _
  chunkRoot_read := by decide
  treeRoot_read := by decide

/- The tree of roots as a list of keys, in one leaf. -/
def plainOps : RootTree (List Key) Unit where
  keys := id
  leafKeys := fun t _ => t
  searchSlot := fun key t =>
    (if key ∈ t then 0 else 1, t, (), t.idxOf key)
  delItems := fun _ slot nr t =>
    (0, t.take slot ++ t.drop (slot + nr))

def plainInput : Input (List Key) Unit where
  fs := plain
  mixed := false
  resetBlockGroups := 0
  ops := plainOps
  roots :=
    [⟨5, ROOT_ITEM_KEY, 0⟩,
     ⟨DATA_RELOC_TREE_OBJECTID, ROOT_ITEM_KEY, 0⟩]
  readDataReloc := 0
  insertBlockGroups := 0

/- What it has at the first allocation. -/
def plainFirst : FirstAlloc (List Key) where
  pinned := [(12288, 4096), (8192, 4096), (4096, 4096)]
  roots := plainInput.roots
  dataReloc := false

theorem plain_hasRoot :
    HasRoot plain.toDisk
      ⟨DATA_RELOC_TREE_OBJECTID, ROOT_ITEM_KEY, 0⟩
      ⟨16384, 0⟩ :=
  ⟨rfl, 8192, plain.treeRoot, .root _, by decide, by decide⟩

/- The data reloc tree stays, and its root is not pinned. -/
theorem plain_not_pinned :
    reinitExtentTree 2 plainInput = some (0, some plainFirst) ∧
    ¬ AllPinned plainInput plainFirst := by
  refine ⟨rfl, ?_⟩
  intro hAll
  have hUse : InUse plainInput plainFirst ⟨16384, 0⟩ :=
    .inr (.inr ⟨_, _,
      ⟨plain_hasRoot, by decide, by decide, by decide⟩,
      .root _⟩)
  rcases hAll _ hUse 16384 ⟨by decide, by decide⟩ with
    ⟨r, hMem, hIn⟩
  have hNone : ∀ r ∈ plainFirst.pinned,
      ¬ (r.1 ≤ 16384 ∧ 16384 < r.1 + r.2) := by decide
  exact hNone r hMem hIn

/- The result is an instance of this input. -/
theorem plain_pins :
    AllPinned plainInput plainFirst ↔
      ∀ key root,
        StaysUnpinned plainInput plainFirst key root →
        ∀ at_, InTree plain.toDisk root at_ →
          ∀ x, plain.Covers at_ x →
            ∃ other, Followed plain.toDisk other ∧
              plain.Covers other x := by
  have hRun :
      reinitExtentTree 2 plainInput =
        some (0, some plainFirst) := rfl
  exact (reinitExtentTree_pins_iff hRun).1

end Reinit

end BtrfsProgs
