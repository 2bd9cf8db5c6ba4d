import BtrfsProgs.ExtentTree.Alloc
import BtrfsProgs.Volumes.Parity

/-
  One transaction, from its start to the end of
  `btrfs_commit_transaction`.

  Changing a tree changes the extent tree too, so the calls
  nest.  An action is what happens between two places where
  calls may nest, and a run is any sequence of actions that
  the checks of the code let through.  The calls in progress
  are in the state: allocations that have no buffer yet and
  frees that have not reached the end.

  A byte of the disk that a tree block was written to is that
  block and the position in it.

  Main declarations:
    * `TreeBlock`, `ExtentBuffer` and `State`
    * `shouldCowBlock` and `pinDownBytes`
    * `Action` and `step`
    * `run`
-/

----------
-- Blocks, Buffers and the Disk
----------

namespace BtrfsProgs

namespace ExtentTree

open Check
open ExtentIo
open RangeTree

/- `BTRFS_TREE_LOG_OBJECTID`. -/
def TREE_LOG_OBJECTID : Nat := 2 ^ 64 - 6

/- `BTRFS_TREE_RELOC_OBJECTID`. -/
def TREE_RELOC_OBJECTID : Nat := 2 ^ 64 - 8

/- The header of a tree block, and what is behind it. -/
structure TreeBlock (Body : Type) where
  bytenr : Nat
  owner : Nat
  generation : Nat
  written : Bool
  reloc : Bool
  body : Body
deriving Repr, DecidableEq

/- `struct extent_buffer`. -/
structure ExtentBuffer (Body : Type) where
  start : Nat
  len : Nat
  block : TreeBlock Body
  uptodate : Bool
  dirty : Bool
deriving Repr, DecidableEq

/- The `cache_node` of a buffer. -/
instance
    {Body : Type} :
    Ranged (ExtentBuffer Body) where
  lo eb := eb.start
  hi eb := eb.start + eb.len

/- The bytes of the filesystem by logical address. -/
abbrev Disk (Body : Type) : Type :=
  Nat → Option (TreeBlock Body × Nat)

/- How far `btrfs_commit_transaction` is. -/
inductive Phase where
  | running
  | writing
  | superWritten
deriving Repr, DecidableEq

/- A call of `__free_extent` that drops the last reference. -/
structure Freeing where
  key : ExtentKey
  markFree : Bool
  deleted : Bool
deriving Repr, DecidableEq

/-
  The state of a filesystem in a transaction.  `reserved` has
  the allocations in progress, `handedOut` all ranges that
  `btrfs_reserve_extent` returned in this transaction.
-/
structure State (Body : Type) where
  space : Space
  transid : Nat
  phase : Phase
  cache : List (ExtentBuffer Body)
  disk : Disk Body
  superRoots : List (Nat × Nat)
  reserved : List (Nat × Nat)
  freeing : List Freeing
  handedOut : List (Nat × Nat)

section Buffers

variable {Body : Type} [DecidableEq Body]

/-
  The block that is read from a place: all bytes are those of
  one block, and `check_tree_block` finds its own address in
  the header.
-/
def readTreeBlock
    (disk : Disk Body)
    (bytenr len : Nat) : Option (TreeBlock Body) :=
  match disk bytenr with
  | none => none
  | some (block, _) =>
      if block.bytenr = bytenr ∧
          ∀ i < len, disk (bytenr + i) = some (block, i) then
        some block
      else
        none

/- `write_and_map_eb`, on logical addresses. -/
def writeToDisk
    (disk : Disk Body)
    (eb : ExtentBuffer Body) : Disk Body :=
  fun x =>
    if eb.start ≤ x ∧ x < eb.start + eb.len then
      some (eb.block, x - eb.start)
    else
      disk x

/- `find_extent_buffer`. -/
def findExtentBuffer
    (cache : List (ExtentBuffer Body))
    (bytenr len : Nat) : Option (ExtentBuffer Body) :=
  cache.find? fun eb => eb.start = bytenr ∧ eb.len = len

/- Change a buffer in place. -/
def setBuffer
    (cache : List (ExtentBuffer Body))
    (eb eb' : ExtentBuffer Body) : List (ExtentBuffer Body) :=
  cache.map fun e => if e = eb then eb' else e

/-
  The buffer that `alloc_extent_buffer` returns for a range,
  filled: the one that is there, or a new one if no other
  buffer meets the range.
-/
def putBuffer
    (cache : List (ExtentBuffer Body))
    (eb : ExtentBuffer Body) :
    Option (List (ExtentBuffer Body)) :=
  match findExtentBuffer cache eb.start eb.len with
  | some old => some (setBuffer cache old eb)
  | none => (insert cache eb).map Cursor.tree

----------
-- The Three Decisions
----------

/- `should_cow_block`. -/
def shouldCowBlock
    (transid rootObjectid : Nat)
    (block : TreeBlock Body) : Bool :=
  if block.generation = transid ∧ block.written = false ∧
      ¬ (rootObjectid ≠ TREE_RELOC_OBJECTID ∧
        block.reloc = true) then
    false
  else
    true

/- What `pin_down_bytes` can use again at once. -/
def Reusable
    (transid : Nat)
    (eb : ExtentBuffer Body) : Prop :=
  eb.uptodate = true ∧
    eb.block.owner ≠ TREE_LOG_OBJECTID ∧
    eb.block.generation = transid ∧
    eb.block.written = false

instance
    (transid : Nat)
    (eb : ExtentBuffer Body) :
    Decidable (Reusable transid eb) := by
  unfold Reusable
  infer_instance

/- The buffer that `pin_down_bytes` goes by. -/
def reusableBuffer
    (s : State Body)
    (bytenr numBytes : Nat)
    (isData : Bool) : Option (ExtentBuffer Body) :=
  if isData then
    none
  else
    (findExtentBuffer s.cache bytenr numBytes).filter
      fun eb => Reusable s.transid eb

/- `pin_down_bytes`: whether the range is free at once. -/
def pinDownBytes
    (s : State Body)
    (bytenr numBytes : Nat)
    (isData : Bool) : Option (Bool × State Body) :=
  match reusableBuffer s bytenr numBytes isData with
  | some eb =>
      -- clean_tree_block
      some (true,
        { s with
          cache :=
            setBuffer s.cache eb { eb with dirty := false } })
  | none => do
      -- update_pinned_extents
      let pinned ←
        setExtentDirty s.space.pinnedExtents bytenr
          (bytenr + numBytes - 1)
      some (false,
        { s with
          space := { s.space with pinnedExtents := pinned } })

/-
  The loop of `update_block_group` for a free, in which every
  turn goes past a part of the range.  The loop stops early
  where there is no group.
-/
def updateBlockGroupLoop
    (space : Space)
    (markFree : Bool) :
    Nat → Nat → Nat → ExtentIoTree → Option ExtentIoTree
  | 0, _, _, free => some free
  | fuel + 1, bytenr, total, free =>
      if total = 0 then
        some free
      else
        match lookupBlockGroup space bytenr with
        | none => some free
        | some group =>
            let num :=
              min total (group.size - (bytenr - group.start))
            let marked :=
              if markFree then
                setExtentDirty free bytenr (bytenr + num - 1)
              else
                some free
            marked.bind fun free =>
              updateBlockGroupLoop space markFree fuel
                (bytenr + num) (total - num) free

/- `update_block_group` for a free. -/
def updateBlockGroup
    (space : Space)
    (bytenr numBytes : Nat)
    (markFree : Bool) : Option Space := do
  let free ←
    updateBlockGroupLoop space markFree numBytes bytenr
      numBytes space.freeSpaceCache
  some { space with freeSpaceCache := free }

/-
  The loop of `btrfs_finish_extent_commit`; a turn takes one
  state out of `pinned_extents`.
-/
def finishExtentCommitLoop :
    Nat → ExtentIoTree → ExtentIoTree →
      Option (ExtentIoTree × ExtentIoTree)
  | 0, pinned, free => some (pinned, free)
  | fuel + 1, pinned, free =>
      match findFirstExtentBit pinned 0 EXTENT_DIRTY with
      | none => some (pinned, free)
      | some (start, end_) => do
          let pinned ← clearExtentDirty pinned start end_
          let free ← setExtentDirty free start end_
          finishExtentCommitLoop fuel pinned free

/- `btrfs_finish_extent_commit`. -/
def finishExtentCommit
    (space : Space) : Option Space := do
  let (pinned, free) ←
    finishExtentCommitLoop space.pinnedExtents.length
      space.pinnedExtents space.freeSpaceCache
  some
    { space with
      pinnedExtents := pinned
      freeSpaceCache := free }

end Buffers

----------
-- Items of the Extent Tree
----------

/- The order of keys. -/
def keyLt
    (a b : ExtentKey) : Bool :=
  a.objectid < b.objectid ||
    (a.objectid = b.objectid &&
      (a.type < b.type ||
        (a.type = b.type && a.offset < b.offset)))

/- Insert an item; a key that is there is a `BUG_ON`. -/
def insertItem
    (items : List ExtentEntry)
    (entry : ExtentEntry) : Option (List ExtentEntry) :=
  if items.any fun e => e.key = entry.key then
    none
  else
    some (items.takeWhile (fun e => keyLt e.key entry.key) ++
      entry :: items.dropWhile fun e => keyLt e.key entry.key)

/- The item with a key. -/
def findItem
    (items : List ExtentEntry)
    (key : ExtentKey) : Option ExtentEntry :=
  items.find? fun e => e.key = key

/- Write the number of references. -/
def setRefs
    (items : List ExtentEntry)
    (key : ExtentKey)
    (refs : Nat) : List ExtentEntry :=
  items.map fun e =>
    if e.key = key then { e with refs := refs } else e

/- The length of the extent of a key. -/
def extentLen
    (leafsize : Nat)
    (key : ExtentKey) : Nat :=
  key.extentEnd leafsize - key.objectid

/- The key of the item for a tree block. -/
def treeBlockKey
    (skinny : Bool)
    (bytenr numBytes level : Nat) : ExtentKey :=
  if skinny then
    ⟨bytenr, METADATA_ITEM_KEY, level⟩
  else
    ⟨bytenr, EXTENT_ITEM_KEY, numBytes⟩

----------
-- Actions
----------

/- What can happen in a transaction. -/
inductive Action (Body : Type) where
  /- `read_tree_block`, when it succeeds -/
  | read (bytenr len : Nat)
  /- `read_tree_block`, when what it read is not a block -/
  | readFailed (bytenr len : Nat) (garbage : TreeBlock Body)
  /- the last `free_extent_buffer` -/
  | evict (bytenr len : Nat)
  /- `btrfs_alloc_chunk` and `btrfs_make_block_group` -/
  | allocChunk (chunk : Volumes.Chunk) (flags : BitVec 64)
  /- `btrfs_reserve_extent` for a tree block -/
  | reserve (req : Request) (picks : List (Option Nat))
  /- `alloc_tree_block` for the extent tree itself -/
  | queueInsert (bytenr level : Nat)
  /- `alloc_reserved_tree_block` for an allocation -/
  | insertExtent (skinny : Bool) (bytenr level : Nat)
  /- a turn of `finish_current_insert` -/
  | insertQueued (skinny : Bool)
  /- `del_pending_extents`, for an insert still queued -/
  | cancelQueued (op : PendingInsert)
  /- the end of `btrfs_alloc_free_block`, and the header -/
  | create (bytenr owner : Nat) (reloc : Bool) (body : Body)
  /- a change of a block that `btrfs_cow_block` returned -/
  | edit (bytenr len rootObjectid : Nat) (body : Body)
  /- `btrfs_set_block_flags`, in a block of the extent tree -/
  | setBlockFlags (bytenr len : Nat) (body : Body)
  /- `clean_tree_block`, for a block that is given up -/
  | cleanTreeBlock (bytenr len : Nat)
  /- `btrfs_inc_extent_ref` -/
  | incRef (key : ExtentKey) (refs : Nat)
  /- `__free_extent`, not for the last reference -/
  | dropRef (key : ExtentKey) (refs : Nat)
  /- `pin_down_bytes` in `__free_extent`, for the last one -/
  | pinDown (key : ExtentKey) (refs : Nat) (isData : Bool)
  /- `btrfs_del_items` in `__free_extent` -/
  | delItems (key : ExtentKey)
  /- `update_block_group` in `__free_extent` -/
  | updateBlockGroup (key : ExtentKey)
  /- `__commit_transaction` starts -/
  | startWriting
  /- `write_tree_block` in its loop -/
  | writeTreeBlock (bytenr len : Nat)
  /- `write_ctree_super` -/
  | writeSuper (roots : List (Nat × Nat))
  /- `btrfs_finish_extent_commit` -/
  | finishExtentCommit

section Step

variable {Body : Type} [DecidableEq Body]

/- Some buffer meets the condition. -/
def requireBuffer
    (s : State Body)
    (bytenr len : Nat)
    (ok : ExtentBuffer Body → Bool) :
    Option (ExtentBuffer Body) :=
  (findExtentBuffer s.cache bytenr len).filter ok

/- The item that `alloc_reserved_tree_block` inserts. -/
def allocReservedTreeBlock
    (space : Space)
    (skinny : Bool)
    (bytenr numBytes level : Nat) : Option Space := do
  let items ←
    insertItem space.items
      ⟨treeBlockKey skinny bytenr numBytes level, 1⟩
  some { space with items := items }

local instance reservedLawful : LawfulBEq (Nat × Nat) :=
  inferInstance

/-
  One action.  Trees are changed while the transaction is
  running, blocks are written by `__commit_transaction`, then
  the superblock, and then what was pinned becomes free.
-/
def step
    (s : State Body) : Action Body → Option (State Body)
  | .read bytenr len =>
      match requireBuffer s bytenr len (·.uptodate) with
      | some _ => some s
      | none => do
          let block ← readTreeBlock s.disk bytenr len
          let cache ←
            putBuffer s.cache ⟨bytenr, len, block, true, false⟩
          some { s with cache := cache }
  | .readFailed bytenr len garbage =>
      match requireBuffer s bytenr len (·.uptodate) with
      | some _ => some s
      | none => do
          let cache ←
            putBuffer s.cache
              ⟨bytenr, len, garbage, false, false⟩
          some { s with cache := cache }
  | .evict bytenr len => do
      let eb ← requireBuffer s bytenr len fun eb => !eb.dirty
      some { s with cache := s.cache.filter (· ≠ eb) }
  | .allocChunk chunk flags => do
      guard (s.phase = .running)
      guard (0 < chunk.size)
      -- btrfs_alloc_chunk: stripes of 64 KiB
      guard chunk.FullFits
      -- find_next_chunk: behind the last chunk
      guard (∀ m ∈ s.space.mapTree,
        m.start + m.size ≤ chunk.start)
      some
        { s with
          space :=
            { s.space with
              mapTree := s.space.mapTree ++ [chunk.toMapLookup]
              groups := s.space.groups ++
                [⟨chunk.start, chunk.size, flags, false,
                  false⟩] } }
  | .reserve req picks => do
      guard (s.phase = .running)
      -- the values of the callers
      guard (req.numBytes = s.space.leafsize ∧
        req.emptySize = 0)
      let (space, start) ← reserveExtent req picks s.space
      some
        { s with
          space := space
          reserved := (start, req.numBytes) :: s.reserved
          handedOut := (start, req.numBytes) :: s.handedOut }
  | .queueInsert bytenr level => do
      guard (s.phase = .running)
      guard ((bytenr, s.space.leafsize) ∈ s.reserved)
      some
        { s with
          space :=
            { s.space with
              extentIns :=
                ⟨bytenr, s.space.leafsize, level⟩ ::
                  s.space.extentIns } }
  | .insertExtent skinny bytenr level => do
      guard (s.phase = .running)
      guard ((bytenr, s.space.leafsize) ∈ s.reserved)
      let space ←
        allocReservedTreeBlock s.space skinny bytenr
          s.space.leafsize level
      some { s with space := space }
  | .insertQueued skinny => do
      guard (s.phase = .running)
      let op ← s.space.extentIns.head?
      let space ←
        allocReservedTreeBlock s.space skinny op.bytenr
          op.numBytes op.level
      some
        { s with
          space :=
            { space with
              extentIns := s.space.extentIns.erase op } }
  | .cancelQueued op => do
      guard (s.phase = .running)
      guard (op ∈ s.space.extentIns)
      some
        { s with
          space :=
            { s.space with
              extentIns := s.space.extentIns.erase op } }
  | .create bytenr owner reloc body => do
      guard (s.phase = .running)
      guard ((bytenr, s.space.leafsize) ∈ s.reserved)
      let block : TreeBlock Body :=
        { bytenr := bytenr
          owner := owner
          generation := s.transid
          written := false
          reloc := reloc
          body := body }
      let cache ←
        putBuffer s.cache
          ⟨bytenr, s.space.leafsize, block, true, true⟩
      some
        { s with
          cache := cache
          reserved :=
            s.reserved.erase (bytenr, s.space.leafsize) }
  | .edit bytenr len rootObjectid body => do
      guard (s.phase = .running)
      let eb ←
        requireBuffer s bytenr len fun eb =>
          eb.uptodate &&
            !shouldCowBlock s.transid rootObjectid eb.block
      some
        { s with
          cache := setBuffer s.cache eb
            { eb with
              dirty := true
              block := { eb.block with body := body } } }
  | .setBlockFlags bytenr len body => do
      guard (s.phase = .running)
      let eb ← requireBuffer s bytenr len (·.uptodate)
      some
        { s with
          cache := setBuffer s.cache eb
            { eb with
              block := { eb.block with body := body } } }
  | .cleanTreeBlock bytenr len => do
      guard (s.phase = .running)
      let eb ← requireBuffer s bytenr len fun _ => true
      some
        { s with
          cache := setBuffer s.cache eb
            { eb with dirty := false } }
  | .incRef key refs => do
      guard (s.phase = .running)
      let item ← findItem s.space.items key
      some
        { s with
          space :=
            { s.space with
              items := setRefs s.space.items key
                (item.refs + refs) } }
  | .dropRef key refs => do
      guard (s.phase = .running)
      let item ← findItem s.space.items key
      guard (refs < item.refs)
      some
        { s with
          space :=
            { s.space with
              items := setRefs s.space.items key
                (item.refs - refs) } }
  | .pinDown key refs isData => do
      guard (s.phase = .running)
      guard key.IsExtent
      let item ← findItem s.space.items key
      guard (item.refs = refs)
      let (markFree, s) ←
        pinDownBytes s key.objectid
          (extentLen s.space.leafsize key) isData
      some
        { s with
          freeing := ⟨key, markFree, false⟩ :: s.freeing }
  | .delItems key => do
      guard (s.phase = .running)
      let f ←
        s.freeing.find? fun f => f.key = key ∧ f.deleted = false
      some
        { s with
          space :=
            { s.space with
              items := s.space.items.filter (·.key ≠ key) }
          freeing :=
            { f with deleted := true } :: s.freeing.erase f }
  | .updateBlockGroup key => do
      guard (s.phase = .running)
      let f ←
        s.freeing.find? fun f => f.key = key ∧ f.deleted = true
      let space ←
        ExtentTree.updateBlockGroup s.space key.objectid
          (extentLen s.space.leafsize key) f.markFree
      some
        { s with
          space := space
          freeing := s.freeing.erase f }
  | .startWriting => do
      guard (s.phase = .running)
      some { s with phase := .writing }
  | .writeTreeBlock bytenr len => do
      guard (s.phase = .writing)
      let eb ←
        requireBuffer s bytenr len fun eb =>
          eb.dirty && eb.uptodate
      let written : ExtentBuffer Body :=
        { eb with
          dirty := false
          block := { eb.block with written := true } }
      some
        { s with
          cache := setBuffer s.cache eb written
          disk := writeToDisk s.disk written }
  | .writeSuper roots => do
      guard (s.phase = .writing)
      guard (∀ eb ∈ s.cache, eb.dirty = false)
      some
        { s with
          phase := .superWritten
          superRoots := roots }
  | .finishExtentCommit => do
      guard (s.phase = .superWritten)
      let space ← ExtentTree.finishExtentCommit s.space
      some { s with space := space }

/- A sequence of actions. -/
def run
    (s : State Body) :
    List (Action Body) → Option (State Body)
  | [] => some s
  | a :: actions => do
      let s ← step s a
      run s actions

end Step

end ExtentTree

end BtrfsProgs
