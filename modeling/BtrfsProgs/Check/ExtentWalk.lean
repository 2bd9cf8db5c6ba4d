import BtrfsProgs.ExtentCache

/-
  The walk over all tree blocks in `cmds-check.c`.

  Blocks to read wait in `pending` (leaves) and `nodes`; a
  window of them is moved to `reada`, which is worked off
  first.  `seen` keeps a block from being queued twice.

  `visited` records, latest first, the blocks that have been
  taken up and the size they were read with; `extentCache`
  collects what their items add to the extent records.

  Main declarations:
    * `Block` and `Walk`
    * `pickNextPending`
    * `runNextBlock`
-/

----------
-- Blocks and Queues
----------

namespace BtrfsProgs

namespace Check

variable {ρ : Type}

/-
  A tree block that passes `check_block`.  `refs` is what its
  items add to the extent records; `ptrs` are the block
  pointers of a node.
-/
structure Block (ρ : Type) where
  level : Nat
  ptrs : List Nat
  refs : List ρ

/- The block sizes of a filesystem, and its devices. -/
structure Device (ρ : Type) where
  leafsize : Nat
  nodesize : Nat
  readTreeBlock : Nat → Nat → Option (Block ρ)

/- `btrfs_level_size`. -/
def Device.levelSize
    (device : Device ρ)
    (level : Nat) : Nat :=
  if level = 0 then device.leafsize else device.nodesize

/- The variables of the walk that outlive a call. -/
structure Walk (ρ : Type) where
  pending : CacheTree
  seen : CacheTree
  reada : CacheTree
  nodes : CacheTree
  bits0 : CacheExtent
  last : Nat
  visited : List CacheExtent
  extentCache : List ρ

/- `add_pending`, as the new queue and the new `seen`. -/
def addPending
    (queue seen : CacheTree)
    (bytenr size : Nat) : CacheTree × CacheTree :=
  match addCacheExtent seen bytenr size with
  | (true, seen) =>
      ((addCacheExtent queue bytenr size).2, seen)
  | (false, seen) => (queue, seen)

/- The queue a block of a level goes to. -/
def queueBlock
    (walk : Walk ρ)
    (level bytenr size : Nat) : Walk ρ :=
  if 0 < level then
    let added := addPending walk.nodes walk.seen bytenr size
    { walk with nodes := added.1, seen := added.2 }
  else
    let added := addPending walk.pending walk.seen bytenr size
    { walk with pending := added.1, seen := added.2 }

----------
-- Picking a Window
----------

/- The size of the `bits` array. -/
def BITS_NR : Nat := 1024

/-
  Add the pending blocks that follow a node closely.  The
  difference of the two addresses is unsigned, so a block
  that starts before `lookup` is far away.
-/
def gatherPending
    (lookup room : Nat) : List CacheExtent → List CacheExtent
  | [] => []
  | next :: rest =>
      match room with
      | 0 => []
      | room + 1 =>
          if next.start < lookup ∨
              32768 < next.start - lookup then
            []
          else
            next :: gatherPending (next.start + next.size)
              room rest

/- The nodes from shortly before the last block on. -/
def searchNodes
    (nodes : CacheTree)
    (last : Nat) : Option (CacheExtent × List CacheExtent) :=
  let nodeStart := if 32768 < last then last - 32768 else last
  match searchCacheExtent nodes nodeStart with
  | some hit => some hit
  | none => searchCacheExtent nodes 0

/- A window of nodes, and room permitting of leaves. -/
def nodeWindow
    (pending : CacheTree)
    (cache : CacheExtent)
    (rest : List CacheExtent) : List CacheExtent :=
  let window := (cache :: rest).take BITS_NR
  let lookup := cache.start + cache.size
  if 8 < BITS_NR - window.length then
    match searchCacheExtent pending lookup with
    | none => window
    | some (next, later) =>
        window ++
          gatherPending lookup (BITS_NR - window.length)
            (next :: later)
  else
    window

/-
  `pick_next_pending`: the entries filled into `bits`, and
  whether the first comes from `reada`.  In that case the
  size goes to `bits[1]`, and `bits[0]` keeps the size it had.
-/
def pickNextPending
    (walk : Walk ρ) : Option (Bool × List CacheExtent) :=
  match searchCacheExtent walk.reada 0 with
  | some (cache, _) =>
      some (true, [⟨cache.start, walk.bits0.size⟩])
  | none =>
      match searchNodes walk.nodes walk.last with
      | none =>
          match searchCacheExtent walk.pending 0 with
          | none => none
          | some (cache, rest) =>
              some (false, (cache :: rest).take BITS_NR)
      | some (cache, rest) =>
          some (false, nodeWindow walk.pending cache rest)

----------
-- Running a Block
----------

/- Which entry each of the four lookups of a call reaches. -/
structure Choices where
  pending : Nat
  reada : Nat
  nodes : Nat
  seen : Nat

/- Look an entry up and drop it. -/
def dropCacheExtent
    (choice : Nat)
    (tree : CacheTree)
    (start size : Nat) : CacheTree :=
  match lookupCacheExtent choice tree start size with
  | some cache => removeCacheExtent tree cache
  | none => tree

/- The pointers of a block, queued in order. -/
def queuePtrs
    (device : Device ρ)
    (level : Nat)
    (ptrs : List Nat)
    (walk : Walk ρ) : Walk ρ :=
  ptrs.foldl
    (fun walk ptr =>
      queueBlock walk (level - 1) ptr
        (device.levelSize (level - 1)))
    walk

/- The window joins `reada` unless it came from there. -/
def addWindow
    (fromReada : Bool)
    (bits : List CacheExtent)
    (reada : CacheTree) : CacheTree :=
  if fromReada then
    reada
  else
    bits.foldl
      (fun reada b => (addCacheExtent reada b.start b.size).2)
      reada

/- Take the block in `bits[0]` out of all four trees. -/
def dropBlock
    (choices : Choices)
    (walk : Walk ρ)
    (reada : CacheTree)
    (bits0 : CacheExtent) : Walk ρ :=
  let bytenr := bits0.start
  let size := bits0.size
  { walk with
    pending :=
      dropCacheExtent choices.pending walk.pending bytenr size
    reada := dropCacheExtent choices.reada reada bytenr size
    nodes :=
      dropCacheExtent choices.nodes walk.nodes bytenr size
    seen := dropCacheExtent choices.seen walk.seen bytenr size
    bits0 := bits0
    last := bytenr
    visited := bits0 :: walk.visited }

/- Read the block and work through its items. -/
def readBlock
    (device : Device ρ)
    (walk : Walk ρ)
    (bytenr size : Nat) : Walk ρ :=
  match device.readTreeBlock bytenr size with
  | none => walk
  | some block =>
      queuePtrs device block.level block.ptrs
        { walk with
          extentCache := walk.extentCache ++ block.refs }

/-
  `run_next_block`; `none` is the return value 1 that ends
  the walk.
-/
def runNextBlock
    (device : Device ρ)
    (choices : Choices)
    (walk : Walk ρ) : Option (Walk ρ) :=
  match pickNextPending walk with
  | none => none
  | some (_, []) => none
  | some (fromReada, bits0 :: bits) =>
      let reada :=
        addWindow fromReada (bits0 :: bits) walk.reada
      some (readBlock device
        (dropBlock choices walk reada bits0)
        bits0.start bits0.size)

/- The queues after `add_root_to_pending` for each root. -/
def queueRoots
    (device : Device ρ)
    (bits0 : CacheExtent)
    (roots : List (Nat × Nat)) : Walk ρ :=
  roots.foldl
    (fun walk root =>
      queueBlock walk root.2 root.1
        (device.levelSize root.2))
    ⟨[], [], [], [], bits0, 0, [], []⟩

/- The walk after at most `n` calls, and whether it ended. -/
def runBlocks
    (device : Device ρ)
    (choices : Nat → Choices)
    (start : Walk ρ) : Nat → Bool × Walk ρ
  | 0 => (false, start)
  | n + 1 =>
      match runBlocks device choices start n with
      | (true, walk) => (true, walk)
      | (false, walk) =>
          match runNextBlock device (choices n) walk with
          | none => (true, walk)
          | some walk => (false, walk)

end Check

end BtrfsProgs
