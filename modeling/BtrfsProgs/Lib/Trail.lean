import Mathlib

/-
  Trees some of whose nodes cannot be had, walked in order.

  A node has slots, and a slot has a child or is a gap. The
  trail of a node is what a walk below it comes across: `none`
  for a node that is entered and for a gap, and the leaves.

  Main declarations:
    * `Trail.leaves`
    * `Trail.trail` and `Trail.trailFrom`
    * `Trail.leaves_eq`
    * `Trail.reduceOption_skip`
-/

----------
-- Trails
----------

namespace Trail

/- The slots of nodes. -/
structure Slots (N : Type) where
  count : N → Nat
  child : N → Nat → Option N
  child_lt : ∀ n i m, child n i = some m → i < count n

variable {N : Type} (T : Slots N)

/- The leaves below a node of some level, in order. -/
def leaves : Nat → N → List N
  | 0, n => [n]
  | level + 1, n =>
      (List.range (T.count n)).flatMap fun i =>
        match T.child n i with
        | none => []
        | some m => leaves level m

/- What a walk below a node comes across. -/
def trail : Nat → N → List (Option N)
  | 0, n => [some n]
  | level + 1, n =>
      none :: (List.range (T.count n)).flatMap fun i =>
        match T.child n i with
        | none => [none]
        | some m => trail level m

/- What it comes across at a slot. -/
def slotTrail
    (level : Nat)
    (n : N)
    (i : Nat) : List (Option N) :=
  match T.child n i with
  | none => [none]
  | some m => trail T level m

/- What it comes across from a slot on. -/
def trailFrom
    (level : Nat)
    (n : N)
    (i : Nat) : List (Option N) :=
  (List.range' i (T.count n - i)).flatMap
    (slotTrail T level n)

variable {T}

theorem trail_succ
    (level : Nat)
    (n : N) :
    trail T (level + 1) n =
      none :: trailFrom T level n 0 := by
  rw [trail, trailFrom, List.range_eq_range', Nat.sub_zero]
  rfl

variable {level i : Nat}
variable {n : N}

theorem trailFrom_end
    (hEnd : T.count n ≤ i) :
    trailFrom T level n i = [] := by
  unfold trailFrom
  rw [Nat.sub_eq_zero_of_le hEnd]
  rfl

theorem trailFrom_slot
    (hSlot : i < T.count n) :
    trailFrom T level n i =
      slotTrail T level n i ++
        trailFrom T level n (i + 1) := by
  have hMore :
      T.count n - i = T.count n - (i + 1) + 1 := by
    omega
  unfold trailFrom
  rw [hMore, List.range'_succ, List.flatMap_cons]

theorem trailFrom_gap
    (hSlot : i < T.count n)
    (hGap : T.child n i = none) :
    trailFrom T level n i =
      none :: trailFrom T level n (i + 1) := by
  rw [trailFrom_slot hSlot, slotTrail, hGap]
  rfl

theorem trailFrom_child
    {n m : N}
    (hChild : T.child n i = some m) :
    trailFrom T level n i =
      trail T level m ++ trailFrom T level n (i + 1) := by
  rw [trailFrom_slot (T.child_lt n i m hChild), slotTrail,
    hChild]

/- The leaves of a trail are those of the node. -/
theorem leaves_eq
    (level : Nat)
    (n : N) :
    (trail T level n).reduceOption = leaves T level n := by
  induction level generalizing n with
  | zero => rfl
  | succ level ih =>
      rw [trail, leaves, List.reduceOption_cons_of_none,
        List.reduceOption, List.filterMap_flatMap]
      congr 1
      funext i
      split
      · rfl
      · exact ih _

----------
-- Skipping Slots
----------

/- The children of the slots between two hold no leaves. -/
def Bare
    (T : Slots N)
    (level : Nat)
    (n : N)
    (i j : Nat) : Prop :=
  ∀ k, i ≤ k → k < j →
    ∀ m, T.child n k = some m → leaves T level m = []

/- To skip such slots leaves all leaves of a trail. -/
theorem reduceOption_skip
    {level i j : Nat}
    (hBare : Bare T level n i j)
    (hLe : i ≤ j) :
    (trailFrom T level n i).reduceOption =
      (trailFrom T level n j).reduceOption := by
  induction hLe with
  | refl => rfl
  | @step j hLe ih =>
      have hBefore : Bare T level n i j := by
        intro k hLow hHigh
        exact hBare k hLow (by omega)
      rw [ih hBefore]
      by_cases hSlot : j < T.count n
      · rw [trailFrom_slot hSlot, List.reduceOption_append,
          slotTrail]
        cases hChild : T.child n j with
        | none => rfl
        | some m =>
            have hNone := hBare j hLe (by omega) m hChild
            dsimp only
            rw [leaves_eq, hNone, List.nil_append]
      · rw [trailFrom_end (by omega), trailFrom_end (by omega)]

/- To skip slots makes a trail no longer. -/
theorem length_skip
    {level i j : Nat}
    (hLe : i ≤ j) :
    (trailFrom T level n j).length ≤
      (trailFrom T level n i).length := by
  induction hLe with
  | refl => exact Nat.le_refl _
  | @step j hLe ih =>
      have hOne : (trailFrom T level n (j + 1)).length ≤
          (trailFrom T level n j).length := by
        by_cases hSlot : j < T.count n
        · rw [trailFrom_slot hSlot, List.length_append]
          omega
        · refine Nat.le_of_eq (congrArg List.length ?_)
          rw [trailFrom_end (by omega),
            trailFrom_end (by omega)]
      exact Nat.le_trans hOne ih

end Trail
