import BtrfsProgs.Check.SpaceCache
import BtrfsProgs.ExtentIo.Tree

/-
  The allocator of `extent-tree.c`: block groups, the free
  space read off the extent tree, and the search for a free
  extent.

  Which group `btrfs_find_block_group` proposes depends only
  on how full the groups are, so its answers are given as a
  list, one for each turn of the search.

  Main declarations:
    * `BlockGroup`, `ExtentEntry` and `Space`
    * `cacheBlockGroup`
    * `findSearchStart`
    * `findFreeExtent` and `reserveExtent`
-/

----------
-- Block Groups and Extents
----------

namespace BtrfsProgs

namespace ExtentTree

open Check
open ExtentIo
open Volumes

/- `struct btrfs_block_group_cache`. -/
structure BlockGroup where
  start : Nat
  size : Nat
  flags : BitVec 64
  ro : Bool
  cached : Bool
deriving Repr, DecidableEq

/- The byte behind the group. -/
def BlockGroup.end_
    (group : BlockGroup) : Nat :=
  group.start + group.size

/- An item of the extent tree and its number of references. -/
structure ExtentEntry where
  key : ExtentKey
  refs : Nat
deriving Repr, DecidableEq

/- `struct pending_extent_op` of type `PENDING_EXTENT_INSERT`. -/
structure PendingInsert where
  bytenr : Nat
  numBytes : Nat
  level : Nat
deriving Repr, DecidableEq

/-
  What the allocator looks at.  The groups are in the order
  of `block_group_cache`, the items in the order of the
  extent tree.
-/
structure Space where
  mapTree : List MapLookup
  leafsize : Nat
  stripesize : Nat
  items : List ExtentEntry
  groups : List BlockGroup
  freeSpaceCache : ExtentIoTree
  pinnedExtents : ExtentIoTree
  extentIns : List PendingInsert
deriving Repr, DecidableEq

/- `BTRFS_SUPER_INFO_SIZE`. -/
def SUPER_INFO_SIZE : Nat := 4096

/- `btrfs_lookup_first_block_group`. -/
def lookupFirstBlockGroup
    (space : Space)
    (bytenr : Nat) : Option BlockGroup :=
  let bytenr :=
    max bytenr (SUPER_INFO_OFFSET + SUPER_INFO_SIZE)
  space.groups.find? fun g => bytenr < g.end_

/- `btrfs_lookup_block_group`. -/
def lookupBlockGroup
    (space : Space)
    (bytenr : Nat) : Option BlockGroup :=
  match space.groups.find? fun g => bytenr < g.end_ with
  | none => none
  | some g => if g.start ≤ bytenr then some g else none

/- `block_group_bits`. -/
def blockGroupBits
    (group : BlockGroup)
    (bits : BitVec 64) : Bool :=
  group.flags &&& bits == bits

----------
-- Free Space
----------

/- `remove_sb_from_cache`. -/
def removeSbFromCache
    (mapTree : List MapLookup)
    (group : BlockGroup)
    (free : ExtentIoTree) : Option ExtentIoTree :=
  (superStripes mapTree group.start).foldlM
    (fun free stripe =>
      clearExtentDirty free stripe.1 (stripe.1 + stripe.2 - 1))
    free

/-
  The loop of `cache_block_group`: where the last extent ends
  and the free space with the gaps between extents.
-/
def cacheLoop
    (leafsize : Nat)
    (group : BlockGroup) :
    List ExtentKey → Nat → ExtentIoTree →
      Option (Nat × ExtentIoTree)
  | [], last, free => some (last, free)
  | key :: keys, last, free =>
      if key.objectid < group.start then
        cacheLoop leafsize group keys last free
      else if group.end_ ≤ key.objectid then
        some (last, free)
      else if key.IsExtent then do
        let free ←
          if last < key.objectid then
            setExtentDirty free last (key.objectid - 1)
          else
            some free
        cacheLoop leafsize group keys
          (key.extentEnd leafsize) free
      else
        cacheLoop leafsize group keys last free

/- The gaps of a group, the one behind the last extent too. -/
def cacheGaps
    (leafsize : Nat)
    (keys : List ExtentKey)
    (group : BlockGroup)
    (free : ExtentIoTree) : Option ExtentIoTree := do
  let last := max group.start SUPER_INFO_OFFSET
  let keys := keys.dropWhile fun key => key.objectid < last
  let (last, free) ←
    cacheLoop leafsize group keys last free
  if last < group.end_ then
    setExtentDirty free last (group.end_ - 1)
  else
    some free

/- `cache_block_group`. -/
def cacheBlockGroup
    (space : Space)
    (group : BlockGroup) : Option Space :=
  if group.cached then
    some space
  else do
    let free ←
      cacheGaps space.leafsize
        (space.items.map ExtentEntry.key) group
        space.freeSpaceCache
    let free ← removeSbFromCache space.mapTree group free
    some
      { space with
        freeSpaceCache := free
        groups := space.groups.map fun g =>
          if g.start = group.start then
            { g with cached := true }
          else
            g }

----------
-- Searching
----------

/- A `u64` passed as an `int` and compared with a `u64`. -/
def asInt
    (v : Nat) : Nat :=
  if v % 2 ^ 32 < 2 ^ 31 then
    v % 2 ^ 32
  else
    2 ^ 64 - 2 ^ 32 + v % 2 ^ 32

/-
  The loop of `find_search_start` inside one group; every
  turn goes past one state of the tree.
-/
def searchGroup
    (free : ExtentIoTree)
    (num groupEnd : Nat) : Nat → Nat → Option Nat
  | 0, _ => none
  | fuel + 1, last =>
      match findFirstExtentBit free last EXTENT_DIRTY with
      | none => none
      | some (start, end_) =>
          let start := max last start
          let last := end_ + 1
          if last - start < num then
            searchGroup free num groupEnd fuel last
          else if groupEnd < start + num then
            none
          else
            some start

/-
  How `find_search_start` ends: with a place in a group, with
  the place its caller goes on from, or not at all, dead at
  its `WARN_ON(1)`, which is an assertion here.
-/
inductive SearchEnd where
  | found (group : BlockGroup) (start : Nat)
  | noSpace (last : Nat)
  | warned
deriving Repr, DecidableEq

/- `out:` of `find_search_start`. -/
def searchOut
    (space : Space)
    (searchStart last : Nat) : SearchEnd :=
  match lookupBlockGroup space searchStart with
  | none => .warned
  | some _ => .noSpace last

/- `find_search_start` from `again:` on. -/
def findSearchStartLoop
    (searchStart num : Nat)
    (data : BitVec 64) :
    Nat → Space → BlockGroup → Bool →
      Option (Space × SearchEnd)
  | 0, _, _, _ => none
  | fuel + 1, space, cache, wrapped => do
      let space ← cacheBlockGroup space cache
      let last := max searchStart cache.start
      let place :=
        if cache.ro || !blockGroupBits cache data then
          none
        else
          searchGroup space.freeSpaceCache num cache.end_
            (space.freeSpaceCache.length + 1) last
      match place with
      | some start => some (space, .found cache start)
      | none =>
          match lookupFirstBlockGroup space cache.end_ with
          | some next =>
              findSearchStartLoop searchStart num data fuel
                space next wrapped
          | none =>
              if wrapped then
                some (space,
                  searchOut space searchStart cache.end_)
              else
                match lookupFirstBlockGroup space
                    searchStart with
                | none =>
                    some (space,
                      searchOut space searchStart searchStart)
                | some next =>
                    findSearchStartLoop searchStart num data
                      fuel space next true

/-
  `find_search_start`; from a group it goes through the
  groups behind it, and then through all of them once.
-/
def findSearchStart
    (space : Space)
    (cache : Option BlockGroup)
    (searchStart totalNeeded : Nat)
    (data : BitVec 64) : Option (Space × SearchEnd) :=
  match cache with
  | none =>
      some (space, searchOut space searchStart searchStart)
  | some cache =>
      findSearchStartLoop searchStart (asInt totalNeeded) data
        (2 * space.groups.length + 2) space cache false

/- `stripe_align`, of a `u64`; the size is a power of two. -/
def stripeAlign
    (stripesize val : Nat) : Nat :=
  (val + (stripesize - 1)) % 2 ^ 64 / stripesize * stripesize

/- What is asked of `find_free_extent`. -/
structure Request where
  numBytes : Nat
  emptySize : Nat
  searchStart : Nat
  excludeStart : Nat
  excludeNr : Nat
  data : BitVec 64
deriving Repr, DecidableEq

/-
  The checks of `find_free_extent` at a place it found: where
  to go on from, or nothing if the place is good.
-/
def checkPlace
    (space : Space)
    (req : Request)
    (group : BlockGroup)
    (start : Nat) : Option Nat :=
  if group.end_ < start + req.numBytes then
    some group.end_
  else if space.extentIns.any fun op =>
      op.bytenr < start + req.numBytes &&
        start < op.bytenr + op.numBytes then
    some (start + req.numBytes)
  else if testRangeBit space.pinnedExtents start
      (start + req.numBytes - 1) EXTENT_DIRTY false then
    some (start + req.numBytes)
  else
    let excludeEnd :=
      (req.excludeStart + req.excludeNr) % 2 ^ 64
    if 0 < req.excludeNr ∧
        req.excludeStart < start + req.numBytes ∧
        start < excludeEnd then
      some excludeEnd
    else
      none

/- The group that `btrfs_find_block_group` proposes, if any. -/
def groupAt
    (space : Space)
    (pick : Option Nat) : Option BlockGroup :=
  pick.bind fun start =>
    space.groups.find? fun g => g.start = start

/-
  How `find_free_extent` ends: it returns 0 with a place, it
  returns `-ENOSPC`, or it is aborted by an assertion.
-/
inductive FindEnd where
  | found (start : Nat)
  | noSpace
  | aborted
deriving Repr, DecidableEq

/- The place that is returned. -/
def FindEnd.start? : FindEnd → Option Nat
  | .found start => some start
  | .noSpace => none
  | .aborted => none

theorem FindEnd.start?_eq_some
    {place : FindEnd}
    {start : Nat}
    (hStart : place.start? = some start) :
    place = .found start := by
  cases place with
  | found s =>
      cases hStart
      rfl
  | noSpace => cases hStart
  | aborted => cases hStart

/-
  `find_free_extent` from `check_failed:` on, one answer of
  `btrfs_find_block_group` for each turn.
-/
def findFreeExtentLoop
    (req : Request) :
    List (Option Nat) → Space → Nat → Nat → Bool → Bool →
      Option (Space × FindEnd)
  | [], _, _, _, _, _ => none
  | pick :: picks, space, searchStart, totalNeeded, wrapped,
      fullScan => do
      let searchStart := stripeAlign space.stripesize searchStart
      let group :=
        (groupAt space pick <|>
          lookupFirstBlockGroup space searchStart) <|>
            lookupFirstBlockGroup space req.searchStart
      let (space, place) ←
        findSearchStart space group searchStart totalNeeded
          req.data
      let goOn : Option Nat :=
        match place with
        | .found group start => checkPlace space req group start
        | .noSpace last => some last
        | .warned => none
      match place, goOn with
      | .found _ start, none => some (space, .found start)
      | .warned, _ => some (space, .aborted)
      | _, goOn =>
          let searchStart := goOn.getD searchStart
          match lookupFirstBlockGroup space searchStart with
          | some _ =>
              findFreeExtentLoop req picks space searchStart
                totalNeeded wrapped fullScan
          | none =>
              if fullScan then
                some (space, .noSpace)
              else if wrapped then
                findFreeExtentLoop req picks space
                  req.searchStart
                  (totalNeeded - req.emptySize) true true
              else
                findFreeExtentLoop req picks space
                  req.searchStart totalNeeded true false

/- `find_free_extent`. -/
def findFreeExtent
    (req : Request)
    (picks : List (Option Nat))
    (space : Space) : Option (Space × FindEnd) :=
  findFreeExtentLoop req picks space req.searchStart
    (req.numBytes + req.emptySize) false false

/-
  `btrfs_reserve_extent` once the chunks are there; `none`
  stands for its `BUG_ON` and an abort of the search too.
-/
def reserveExtent
    (req : Request)
    (picks : List (Option Nat))
    (space : Space) : Option (Space × Nat) := do
  let (space, place) ← findFreeExtent req picks space
  let start ← place.start?
  let free ←
    clearExtentDirty space.freeSpaceCache start
      (start + req.numBytes - 1)
  some ({ space with freeSpaceCache := free }, start)

end ExtentTree

end BtrfsProgs
