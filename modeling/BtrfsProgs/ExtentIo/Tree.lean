import BtrfsProgs.Lib.RangeTree

/-
  The state tree of `extent_io.c`: a red-black tree of byte
  ranges, each carrying a set of bits.

  The tree is the in-order list of its nodes.  A node that
  the C code holds by pointer is a `Cursor`.  A pass through
  the `again:` label of `set_extent_bits` and of
  `clear_extent_bits` is one function, and the loops iterate
  it.

  Main declarations:
    * `setExtentBits`
    * `clearExtentBits`
    * `findFirstExtentBit`
    * `testRangeBit`
-/

----------
-- States and Trees
----------

namespace BtrfsProgs

namespace ExtentIo

open RangeTree

/- The largest `u64`, the `(u64)-1` of the source. -/
def u64Max : Nat := 2 ^ 64 - 1

/- `struct extent_state`: an inclusive range and its bits. -/
structure ExtentState where
  start : Nat
  end_ : Nat
  state : BitVec 64
  xprivate : Nat
deriving Repr, DecidableEq

/-
  `update_extent_state` keeps the cache node at `start` with
  size `end + 1 - start`.
-/
instance : Ranged ExtentState where
  lo s := s.start
  hi s := s.end_ + 1

/- `struct extent_io_tree`, restricted to its state tree. -/
abbrev ExtentIoTree := List ExtentState

def EXTENT_DIRTY : BitVec 64 := 1

def EXTENT_WRITEBACK : BitVec 64 := 2

def EXTENT_LOCKED : BitVec 64 := 8

def EXTENT_IOBITS : BitVec 64 :=
  EXTENT_LOCKED ||| EXTENT_WRITEBACK

/- `alloc_extent_state`, with the range filled in later. -/
def allocExtentState
    (start end_ : Nat) : ExtentState :=
  ⟨start, end_, 0, 0⟩

----------
-- Merging and Splitting
----------

/- The first half of `merge_state`: absorb the predecessor. -/
def mergePrev
    (c : Cursor ExtentState) : Cursor ExtentState :=
  match c.before.getLast? with
  | none => c
  | some other =>
      if other.end_ + 1 = c.node.start ∧
          other.state = c.node.state then
        ⟨c.before.dropLast,
          { c.node with start := other.start }, c.after⟩
      else
        c

/-
  The second half of `merge_state`: the successor absorbs
  the state, which is then removed from the tree.
-/
def mergeNext
    (c : Cursor ExtentState) : ExtentIoTree :=
  match c.after with
  | [] => c.tree
  | other :: rest =>
      if other.start = c.node.end_ + 1 ∧
          other.state = c.node.state then
        c.before ++
          { other with start := c.node.start } :: rest
      else
        c.tree

/- `merge_state`: states under I/O are never merged. -/
def mergeState
    (c : Cursor ExtentState) : ExtentIoTree :=
  if c.node.state &&& EXTENT_IOBITS ≠ 0 then
    c.tree
  else
    mergeNext (mergePrev c)

/-
  `insert_state`; `none` is one of its two `BUG_ON`s, an
  empty range or a range that is already taken.
-/
def insertState
    (tree : ExtentIoTree)
    (start end_ : Nat)
    (bits : BitVec 64) : Option ExtentIoTree :=
  if end_ < start then
    none
  else
    let state := allocExtentState start end_
    (insert tree
      { state with state := state.state ||| bits }).map
        mergeState

/-
  `split_state`: the preallocated state becomes the first
  half and the original keeps the second.  The result is the
  cursor at the first half.
-/
def splitState
    (c : Cursor ExtentState)
    (split : Nat) : Option (Cursor ExtentState) :=
  let prealloc : ExtentState :=
    { allocExtentState c.node.start (split - 1) with
      state := c.node.state }
  let orig : ExtentState := { c.node with start := split }
  insert (c.before ++ orig :: c.after) prealloc

/-
  `clear_state_bit`: the bits that were set, and the tree
  with the state removed or merged.
-/
def clearStateBit
    (c : Cursor ExtentState)
    (bits : BitVec 64) : BitVec 32 × ExtentIoTree :=
  let state := c.node.state &&& ~~~bits
  ((c.node.state &&& bits).setWidth 32,
    if state = 0 then
      c.before ++ c.after
    else
      mergeState { c with
        node := { c.node with state := state } })

----------
-- Setting Bits
----------

/- How a pass through the `again:` label ends. -/
inductive SetPass where
  | bug
  | out (tree : ExtentIoTree)
  | searchAgain (tree : ExtentIoTree) (start : Nat)
deriving Repr, DecidableEq

/- `state->state |= bits; merge_state(tree, state)`. -/
def setStateAndMerge
    (c : Cursor ExtentState)
    (bits : BitVec 64) : ExtentIoTree :=
  mergeState { c with
    node := { c.node with state := c.node.state ||| bits } }

/- One pass of `set_extent_bits`. -/
def setExtentBitsPass
    (tree : ExtentIoTree)
    (start end_ : Nat)
    (bits : BitVec 64) : SetPass :=
  match search tree start with
  | none =>
      match insertState tree start end_ bits with
      | none => .bug
      | some tree' => .out tree'
  | some c =>
      let lastStart := c.node.start
      let lastEnd := c.node.end_
      if c.node.start = start ∧ c.node.end_ ≤ end_ then
        let tree' := setStateAndMerge c bits
        if lastEnd = u64Max then
          .out tree'
        else
          .searchAgain tree' (lastEnd + 1)
      else if c.node.start < start then
        -- split off what lies before the desired range
        match (splitState c start).bind Cursor.next with
        | none => .bug
        | some d =>
            if d.node.end_ ≤ end_ then
              let tree' := setStateAndMerge d bits
              if lastEnd = u64Max then
                .out tree'
              else
                .searchAgain tree' (lastEnd + 1)
            else
              .searchAgain d.tree d.node.start
      else if start < c.node.start then
        -- a hole before the state that was found
        let thisEnd :=
          if end_ < lastStart then end_ else lastStart - 1
        match insertState tree start thisEnd bits with
        | none => .bug
        | some tree' => .searchAgain tree' (thisEnd + 1)
      else
        -- the range ends inside the state: the bits go to
        -- `state`, which is the half behind the range
        match splitState c (end_ + 1) with
        | none => .bug
        | some p =>
            match p.after with
            | [] => .bug
            | orig :: rest =>
                .out (mergeState ⟨p.before, p.node,
                  { orig with
                    state := orig.state ||| bits } :: rest⟩)

/- The loop of `set_extent_bits`, up to `fuel` passes. -/
def setExtentBitsLoop
    (end_ : Nat)
    (bits : BitVec 64) :
    Nat → ExtentIoTree → Nat → Option ExtentIoTree
  | 0, _, _ => none
  | fuel + 1, tree, start =>
      match setExtentBitsPass tree start end_ bits with
      | .bug => none
      | .out tree' => some tree'
      | .searchAgain tree' start' =>
          if end_ < start' then
            some tree'
          else
            setExtentBitsLoop end_ bits fuel tree' start'

/-
  `set_extent_bits`.  A pass that leaves `start` where it is
  only splits a state, and the next pass then moves on, so
  two passes for every byte of the range are enough.
-/
def setExtentBits
    (tree : ExtentIoTree)
    (start end_ : Nat)
    (bits : BitVec 64) : Option ExtentIoTree :=
  setExtentBitsLoop end_ bits (2 * (end_ + 1 - start) + 1)
    tree start

/- `set_extent_dirty`. -/
def setExtentDirty
    (tree : ExtentIoTree)
    (start end_ : Nat) : Option ExtentIoTree :=
  setExtentBits tree start end_ EXTENT_DIRTY

----------
-- Clearing Bits
----------

/- How a pass of `clear_extent_bits` ends, with `set`. -/
inductive ClearPass where
  | bug
  | out (set : BitVec 32) (tree : ExtentIoTree)
  | searchAgain
      (set : BitVec 32) (tree : ExtentIoTree) (start : Nat)
deriving Repr, DecidableEq

/- One pass of `clear_extent_bits`. -/
def clearExtentBitsPass
    (tree : ExtentIoTree)
    (start end_ : Nat)
    (bits : BitVec 64) : ClearPass :=
  match search tree start with
  | none => .out 0 tree
  | some c =>
      let lastEnd := c.node.end_
      if end_ < c.node.start then
        .out 0 tree
      else if c.node.start < start then
        match (splitState c start).bind Cursor.next with
        | none => .bug
        | some d =>
            if d.node.end_ ≤ end_ then
              let (set, tree') := clearStateBit d bits
              if lastEnd = u64Max then
                .out set tree'
              else
                .searchAgain set tree' (lastEnd + 1)
            else
              .searchAgain 0 d.tree d.node.start
      else if end_ < c.node.end_ then
        match splitState c (end_ + 1) with
        | none => .bug
        | some p =>
            let (set, tree') := clearStateBit p bits
            .out set tree'
      else
        let (set, tree') := clearStateBit c bits
        if lastEnd = u64Max then
          .out set tree'
        else
          .searchAgain set tree' (lastEnd + 1)

/- The loop of `clear_extent_bits`, up to `fuel` passes. -/
def clearExtentBitsLoop
    (end_ : Nat)
    (bits : BitVec 64) :
    Nat → BitVec 32 → ExtentIoTree → Nat →
      Option (BitVec 32 × ExtentIoTree)
  | 0, _, _, _ => none
  | fuel + 1, set, tree, start =>
      match clearExtentBitsPass tree start end_ bits with
      | .bug => none
      | .out set' tree' => some (set ||| set', tree')
      | .searchAgain set' tree' start' =>
          if end_ < start' then
            some (set ||| set', tree')
          else
            clearExtentBitsLoop end_ bits fuel
              (set ||| set') tree' start'

/- `clear_extent_bits`: the bits found, and the new tree. -/
def clearExtentBits
    (tree : ExtentIoTree)
    (start end_ : Nat)
    (bits : BitVec 64) :
    Option (BitVec 32 × ExtentIoTree) :=
  clearExtentBitsLoop end_ bits
    (2 * (end_ + 1 - start) + 1) 0 tree start

/- `clear_extent_dirty`, for its effect on the tree. -/
def clearExtentDirty
    (tree : ExtentIoTree)
    (start end_ : Nat) : Option ExtentIoTree :=
  (clearExtentBits tree start end_ EXTENT_DIRTY).map
    Prod.snd

----------
-- Looking at Bits
----------

/-
  `find_first_extent_bit`: the range of the first state that
  ends at or after `start` and has one of the bits.
-/
def findFirstExtentBit
    (tree : ExtentIoTree)
    (start : Nat)
    (bits : BitVec 64) : Option (Nat × Nat) :=
  match search tree start with
  | none => none
  | some c =>
      ((c.node :: c.after).find? fun s =>
        start ≤ s.end_ && s.state &&& bits != 0).map
          fun s => (s.start, s.end_)

/- The loop of `test_range_bit`, from the state found. -/
def testRangeLoop
    (end_ : Nat)
    (bits : BitVec 64)
    (filled : Bool) :
    List ExtentState → Nat → Bool → Bool
  | [], _, bitset => if filled then false else bitset
  | s :: rest, start, bitset =>
      if end_ < start then
        bitset
      else if filled = true ∧ start < s.start then
        false
      else if end_ < s.start then
        bitset
      else if s.state &&& bits ≠ 0 then
        if filled = false then
          true
        else if end_ < s.end_ + 1 then
          true
        else
          testRangeLoop end_ bits filled rest (s.end_ + 1) true
      else if filled = true then
        false
      else if end_ < s.end_ + 1 then
        bitset
      else
        testRangeLoop end_ bits filled rest (s.end_ + 1) bitset

/- `test_range_bit`. -/
def testRangeBit
    (tree : ExtentIoTree)
    (start end_ : Nat)
    (bits : BitVec 64)
    (filled : Bool) : Bool :=
  match search tree start with
  | none => false
  | some c =>
      testRangeLoop end_ bits filled (c.node :: c.after) start
        false

end ExtentIo

end BtrfsProgs
