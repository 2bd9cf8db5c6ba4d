import BtrfsProgs.Ctree.Path
import BtrfsProgs.Lib.Loop

/-
  The walk of `next_leaf` from `cmds-restore.c` over a tree
  some of whose blocks cannot be read.

  A node is what `read_node_slot` gives; for a block that
  cannot be read, and behind the last slot, it gives nothing.

  Main declarations:
    * `walkTurn`
    * `nextLeaf`
-/

----------
-- The Walk
----------

namespace BtrfsProgs

namespace Restore

open Ctree Trail

section Walk

variable {N : Type}

/- At the label `again`, or in the first `while`. -/
inductive WalkState (N : Type) where
  | again (level offset : Nat) (path : BtrfsPath N)
  | scan (level offset : Nat) (path : BtrfsPath N)

/- The return value, and the path. -/
abbrev WalkResult (N : Type) : Type :=
  Nat × BtrfsPath N

variable (T : Slots N)

/-
  The second `while`: a node for a level, and then first
  children down to a leaf or to one that cannot be read.
-/
def descend
    (offset : Nat) :
    Nat → N → BtrfsPath N → WalkState N ⊕ WalkResult N
  | 0, next, path => .inr (0, path.setNode 0 next)
  | level + 1, next, path =>
      let path := path.setNode (level + 1) next
      match T.child next 0 with
      | none => .inl (.again (level + 1) offset path)
      | some next => descend offset level next path

/-
  A turn of the `for`, or of the first `while`. The offset is
  kept when a level is left and when the walk starts again.
-/
def walkTurn : WalkState N → WalkState N ⊕ WalkResult N
  | .again level offset path =>
      if MAX_LEVEL ≤ level then .inr (1, path)
      else
        match path.nodes level with
        | none => .inl (.again (level + 1) offset path)
        | some _ => .inl (.scan level offset path)
  | .scan level offset path =>
      if MAX_LEVEL ≤ level then .inr (1, path)
      else
        match path.nodes level with
        | none => .inr (1, path)
        | some c =>
            let slot := path.slots level + offset
            if T.count c ≤ slot then
              .inl (.scan (level + 1) offset path)
            else
              match T.child c slot with
              | none => .inl (.scan level (offset + 1) path)
              | some next =>
                  descend T offset (level - 1) next
                    (path.setSlot level slot)

/- `next_leaf`, with as many turns as `fuel` allows. -/
def nextLeaf
    (fuel : Nat)
    (path : BtrfsPath N) : Option (WalkResult N) :=
  Loop.run (walkTurn T) fuel (.again 1 1 path)

end Walk

end Restore

end BtrfsProgs
