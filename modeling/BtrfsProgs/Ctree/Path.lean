import BtrfsProgs.Basic
import BtrfsProgs.Lib.Trail

/-
  `struct btrfs_path` over nodes that are read, and what is to
  the right of a path.

  Main declarations:
    * `BtrfsPath`
    * `trailAt` and `trailAbove`
    * `HasTop`
-/

----------
-- Paths
----------

namespace BtrfsProgs

namespace Ctree

open Trail

/- `BTRFS_MAX_LEVEL`. -/
def MAX_LEVEL : Nat := 8

/- `struct btrfs_path`, of the nodes that are read. -/
structure BtrfsPath (N : Type) where
  nodes : Nat → Option N
  slots : Nat → Nat

section Path

variable {N : Type}

/- A new node, at its first slot. -/
def BtrfsPath.setNode
    (path : BtrfsPath N)
    (level : Nat)
    (n : N) : BtrfsPath N where
  nodes := Function.update path.nodes level (some n)
  slots := Function.update path.slots level 0

def BtrfsPath.setSlot
    (path : BtrfsPath N)
    (level slot : Nat) : BtrfsPath N where
  nodes := path.nodes
  slots := Function.update path.slots level slot

/- The nodes of a path are those up to a level. -/
def HasTop
    (top : Nat)
    (path : BtrfsPath N) : Prop :=
  ∀ level, (path.nodes level).isSome ↔ level ≤ top

variable (T : Slots N)

/-
  What is right of a path at one of its levels: the trail of
  the slots behind the one of the path.
-/
def trailAt
    (path : BtrfsPath N)
    (level : Nat) : List (Option N) :=
  match path.nodes level with
  | none => []
  | some c =>
      trailFrom T (level - 1) c (path.slots level + 1)

/- The same for all levels from one on. -/
def trailAbove
    (path : BtrfsPath N)
    (level : Nat) : List (Option N) :=
  (List.range' level (MAX_LEVEL - level)).flatMap
    (trailAt T path)

variable {T}

----------
-- Trails of Paths
----------

theorem trailAbove_level
    (path : BtrfsPath N)
    {level : Nat}
    (hLevel : level < MAX_LEVEL) :
    trailAbove T path level =
      trailAt T path level ++ trailAbove T path (level + 1) := by
  have hMore :
      MAX_LEVEL - level = MAX_LEVEL - (level + 1) + 1 := by
    omega
  unfold trailAbove
  rw [hMore, List.range'_succ, List.flatMap_cons]

theorem trailAbove_top
    (path : BtrfsPath N)
    {level : Nat}
    (hLevel : MAX_LEVEL ≤ level) :
    trailAbove T path level = [] := by
  unfold trailAbove
  rw [Nat.sub_eq_zero_of_le hLevel]
  rfl

/- Only the levels from there on count. -/
theorem trailAbove_congr
    {path path' : BtrfsPath N}
    {level : Nat}
    (hNodes :
      ∀ k, level ≤ k → path'.nodes k = path.nodes k)
    (hSlots :
      ∀ k, level ≤ k → path'.slots k = path.slots k) :
    trailAbove T path' level = trailAbove T path level := by
  unfold trailAbove
  apply List.flatMap_congr
  intro k hk
  have hLow := (List.mem_range'_1.mp hk).1
  unfold trailAt
  rw [hNodes k hLow, hSlots k hLow]

theorem trailAbove_setNode
    (path : BtrfsPath N)
    (n : N)
    {level k : Nat}
    (hLevel : k < level) :
    trailAbove T (path.setNode k n) level =
      trailAbove T path level := by
  apply trailAbove_congr
  · intro j hj
    exact Function.update_of_ne (by omega) _ _
  · intro j hj
    exact Function.update_of_ne (by omega) _ _

theorem trailAbove_setSlot
    (path : BtrfsPath N)
    (slot : Nat)
    {level k : Nat}
    (hLevel : k < level) :
    trailAbove T (path.setSlot k slot) level =
      trailAbove T path level := by
  apply trailAbove_congr
  · intro j hj
    rfl
  · intro j hj
    exact Function.update_of_ne (by omega) _ _

theorem trailAt_setNode
    (path : BtrfsPath N)
    (n : N)
    (level : Nat) :
    trailAt T (path.setNode level n) level =
      trailFrom T (level - 1) n 1 := by
  unfold trailAt BtrfsPath.setNode
  simp only [Function.update_self]

theorem trailAt_setSlot
    {path : BtrfsPath N}
    {c : N}
    {level : Nat}
    (hNode : path.nodes level = some c)
    (slot : Nat) :
    trailAt T (path.setSlot level slot) level =
      trailFrom T (level - 1) c (slot + 1) := by
  unfold trailAt BtrfsPath.setSlot
  simp only [Function.update_self, hNode]

/- Above the top of a path there is nothing. -/
theorem trailAbove_behind
    {top level : Nat}
    {path : BtrfsPath N}
    (hTop : HasTop top path)
    (hNode : path.nodes level = none) :
    trailAbove T path level = [] := by
  unfold trailAbove
  rw [List.flatMap_eq_nil_iff]
  intro k hk
  have hLow := (List.mem_range'_1.mp hk).1
  have hNone : path.nodes k = none := by
    rw [← Option.not_isSome_iff_eq_none]
    intro hSome
    have hLe := (hTop k).mp hSome
    have hHere := (hTop level).mpr (by omega)
    rw [hNode] at hHere
    cases hHere
  unfold trailAt
  rw [hNone]

theorem HasTop.setNode
    {top level : Nat}
    {path : BtrfsPath N}
    (hTop : HasTop top path)
    (hLevel : level ≤ top)
    (n : N) :
    HasTop top (path.setNode level n) := by
  intro k
  unfold BtrfsPath.setNode
  dsimp only
  by_cases hSame : k = level
  · subst hSame
    simp only [Function.update_self, Option.isSome_some,
      true_iff]
    exact hLevel
  · rw [Function.update_of_ne hSame]
    exact hTop k

end Path

end Ctree

end BtrfsProgs
