import BtrfsProgs.Restore.NextLeaf

/-
  When calls of `next_leaf` come to all leaves that can be
  read.

  Main declarations:
    * `leavesRight`
    * `Visits`
    * `Bridged` and `PathClear`
    * `nextLeaf_visits_all`
-/

----------
-- Leaves to the Right
----------

namespace BtrfsProgs

namespace Restore

open Ctree Trail

section Walk

variable {N : Type}
variable (T : Slots N)

/-
  The leaves that can be read to the right of a path, in
  order: those below the slots behind the path, from the
  lowest node on.
-/
def leavesRight
    (path : BtrfsPath N) : List N :=
  (List.range' 1 (MAX_LEVEL - 1)).flatMap fun level =>
    match path.nodes level with
    | none => []
    | some c =>
        let slot := path.slots level + 1
        (List.range' slot (T.count c - slot)).flatMap fun i =>
          match T.child c i with
          | none => []
          | some m => leaves T (level - 1) m

/-
  A path of nodes from a leaf up to a root; the slots may be
  any.
-/
def IsPath
    (path : BtrfsPath N) : Prop :=
  ∃ top < MAX_LEVEL, HasTop top path

/-
  Calls of `next_leaf` that return these leaves one after
  another, and then 1.
-/
inductive Visits : BtrfsPath N → List N → Prop where
  | done
      {fuel : Nat}
      {path path' : BtrfsPath N}
      (hRun : nextLeaf T fuel path = some (1, path')) :
      Visits path []
  | leaf
      {fuel : Nat}
      {path path' : BtrfsPath N}
      {n : N}
      {more : List N}
      (hRun : nextLeaf T fuel path = some (0, path'))
      (hLeaf : path'.nodes 0 = some n)
      (hMore : Visits path' more) :
      Visits path (n :: more)

/- First children can be read, down to a leaf. -/
def Opens : Nat → N → Prop
  | 0, _ => True
  | level + 1, n =>
      ∃ m, T.child n 0 = some m ∧ Opens level m

/-
  Behind a slot that cannot be read, and more of them, comes
  one that opens; or there are no leaves to the right of it,
  where `right` are those behind the node.
-/
def Bridged
    (right : List N)
    (level : Nat)
    (n : N)
    (slot : Nat) : Prop :=
  ∀ i, slot ≤ i → i < T.count n → T.child n i = none →
    (∃ j m, i < j ∧ T.child n j = some m ∧ Opens T level m ∧
      ∀ k, i < k → k < j → T.child n k = none) ∨
    (trailFrom T level n i).reduceOption ++ right = []

/- So it is in a node behind its first slot, and below it. -/
def Clear : List N → Nat → N → Prop
  | _, 0, _ => True
  | right, level + 1, n =>
      Bridged T right level n 1 ∧
        ∀ i m, T.child n i = some m →
          Clear ((trailFrom T level n (i + 1)).reduceOption ++
            right) level m

/- So it is to the right of a path, from a level on. -/
def PathClear
    (path : BtrfsPath N)
    (low : Nat) : Prop :=
  ∀ level, low ≤ level → ∀ c, path.nodes level = some c →
    Bridged T (trailAbove T path (level + 1)).reduceOption
      (level - 1) c (path.slots level + 1) ∧
    ∀ i m, path.slots level < i → T.child c i = some m →
      Clear T
        ((trailFrom T (level - 1) c (i + 1)).reduceOption ++
          (trailAbove T path (level + 1)).reduceOption)
        (level - 1) m

variable {T}

----------
-- The Leaves of a Trail
----------

/- The leaves to the right are those of the trail. -/
theorem leavesRight_eq
    (path : BtrfsPath N) :
    leavesRight T path =
      (trailAbove T path 1).reduceOption := by
  unfold leavesRight trailAbove List.reduceOption
  rw [List.filterMap_flatMap]
  congr 1
  funext level
  unfold trailAt
  cases path.nodes level with
  | none => rfl
  | some c =>
      unfold trailFrom
      dsimp only
      rw [List.filterMap_flatMap]
      congr 1
      funext i
      unfold slotTrail
      cases T.child c i with
      | none => rfl
      | some m => exact (leaves_eq _ _).symm

section Call

variable {top level offset : Nat}
variable {path : BtrfsPath N}

----------
-- Clear Paths
----------

theorem PathClear.mono
    {low : Nat}
    (hClear : PathClear T path level)
    (hLe : level ≤ low) :
    PathClear T path low :=
  fun k hLow => hClear k (hLe.trans hLow)

theorem Bridged.mono
    {right : List N}
    {n : N}
    {slot slot' : Nat}
    (hBridged : Bridged T right level n slot)
    (hLe : slot ≤ slot') :
    Bridged T right level n slot' :=
  fun i hLow => hBridged i (hLe.trans hLow)

theorem bare_of_nil
    {n : N}
    {i j : Nat}
    (hNil : (trailFrom T level n i).reduceOption = []) :
    Bare T level n i j := by
  intro k hLow hHigh m hChild
  have hRest : (trailFrom T level n k).reduceOption = [] := by
    clear hChild hHigh
    induction hLow with
    | refl => exact hNil
    | @step k hLe ih =>
        by_cases hSlot : k < T.count n
        · rw [trailFrom_slot hSlot,
            List.reduceOption_append] at ih
          exact (List.append_eq_nil_iff.mp ih).2
        · rw [trailFrom_end (by omega)]
          rfl
  rw [trailFrom_child hChild, List.reduceOption_append,
    leaves_eq] at hRest
  exact (List.append_eq_nil_iff.mp hRest).1

/- Only the levels from there on count. -/
theorem PathClear.congr
    (hClear : PathClear T path level)
    (path' : BtrfsPath N)
    (hNodes :
      ∀ k, level ≤ k → path'.nodes k = path.nodes k)
    (hSlots :
      ∀ k, level ≤ k → path'.slots k = path.slots k) :
    PathClear T path' level := by
  intro k hLow c hNode
  rw [hNodes k hLow] at hNode
  rw [hSlots k hLow, trailAbove_congr
    (fun j hJ => hNodes j (by omega))
    (fun j hJ => hSlots j (by omega))]
  exact hClear k hLow c hNode

/- What is clear behind a slot, and below its node. -/
theorem PathClear.setSlot
    {c m : N}
    {slot : Nat}
    (hLevel : level < MAX_LEVEL)
    (hClear : PathClear T path level)
    (hNode : path.nodes level = some c)
    (hBehind : path.slots level < slot)
    (hChild : T.child c slot = some m) :
    PathClear T (path.setSlot level slot) level ∧
      Clear T (trailAbove T (path.setSlot level slot)
        level).reduceOption (level - 1) m := by
  have hAbove := trailAbove_setSlot (T := T) path slot
    (Nat.lt_succ_self level)
  rcases hClear level le_rfl c hNode with ⟨hBridged, hNext⟩
  refine ⟨?_, ?_⟩
  · intro k hLow c' hNode'
    rcases Nat.eq_or_lt_of_le hLow with rfl | hMore
    · have hSlot : (path.setSlot level slot).slots level =
          slot := Function.update_self _ _ _
      cases hNode.symm.trans hNode'
      rw [hSlot, hAbove]
      exact ⟨hBridged.mono (by omega),
        fun i m hI => hNext i m (by omega)⟩
    · exact ((hClear.mono hLow).congr
        (path.setSlot level slot) (fun _ _ => rfl)
        (fun j hJ => Function.update_of_ne (by omega) _ _))
        k le_rfl c' hNode'
  · rw [trailAbove_level _ hLevel, trailAt_setSlot hNode,
      hAbove, List.reduceOption_append]
    exact hNext slot m hBehind hChild

----------
-- Descending
----------

/-
  What a descent comes to, with what is to the right of it
  then and what was there before. It starts again only below a
  node that does not open.
-/
def Descended
    (T : Slots N)
    (top offset : Nat)
    (opens : Prop)
    (before : List (Option N)) :
    WalkState N ⊕ WalkResult N → Prop
  | .inr ret =>
      ret.1 = 0 ∧ HasTop top ret.2 ∧ PathClear T ret.2 1 ∧
        ∃ pre n, pre.reduceOption = [] ∧
          ret.2.nodes 0 = some n ∧
          before = pre ++ some n :: trailAbove T ret.2 1
  | .inl (.again level offset' path) =>
      offset' = offset ∧ 1 ≤ level ∧ HasTop top path ∧
        PathClear T path level ∧ ¬ opens ∧
        ∃ pre, pre ≠ [] ∧ pre.reduceOption = [] ∧
          before = pre ++ trailAbove T path level
  | .inl (.scan _ _ _) => False

theorem Descended.cons
    {opens opens' : Prop}
    {before : List (Option N)}
    {turn : WalkState N ⊕ WalkResult N}
    (hRest : Descended T top offset opens before turn)
    (hOpens : opens' → opens) :
    Descended T top offset opens' (none :: before) turn := by
  match turn with
  | .inr ret =>
      rcases hRest with
        ⟨hRet, hTop, hClear, pre, n, hPre, hNode, rfl⟩
      exact ⟨hRet, hTop, hClear, none :: pre, n, hPre, hNode,
        rfl⟩
  | .inl (.again level offset' path) =>
      rcases hRest with
        ⟨hOffset, hLevel, hTop, hClear, hNot, pre, _, hPre, rfl⟩
      exact ⟨hOffset, hLevel, hTop, hClear, hNot ∘ hOpens,
        none :: pre, List.cons_ne_nil _ _, hPre, rfl⟩

theorem descend_spec
    (offset : Nat)
    (n : N)
    (hTop : HasTop top path)
    (hMax : top < MAX_LEVEL)
    (hLevel : level ≤ top)
    (hClear : PathClear T path (level + 1))
    (hBelow : Clear T
      (trailAbove T path (level + 1)).reduceOption level n) :
    Descended T top offset (Opens T level n)
      (trail T level n ++ trailAbove T path (level + 1))
      (descend T offset level n path) := by
  induction level generalizing n path with
  | zero =>
      refine ⟨rfl, hTop.setNode hLevel n,
        hClear.congr _ ?_ ?_, [], n, rfl, ?_, ?_⟩
      · intro k hK
        exact Function.update_of_ne (by omega) _ _
      · intro k hK
        exact Function.update_of_ne (by omega) _ _
      · unfold BtrfsPath.setNode
        dsimp only
        rw [Function.update_self]
      · rw [trailAbove_setNode path n Nat.zero_lt_one]
        rfl
  | succ level ih =>
      have hNext := hTop.setNode hLevel n
      have hAbove :=
        trailAbove_setNode (T := T) path n
          (Nat.lt_succ_self (level + 1))
      have hHere :
          trailAbove T (path.setNode (level + 1) n)
              (level + 1) =
            trailFrom T level n 1 ++
              trailAbove T path (level + 1 + 1) := by
        rw [trailAbove_level _ (by omega), trailAt_setNode,
          hAbove]
        rfl
      have hClear' :
          PathClear T (path.setNode (level + 1) n)
            (level + 1) := by
        intro k hLow c hNode
        rcases Nat.eq_or_lt_of_le hLow with rfl | hMore
        · have hSlot : (path.setNode (level + 1) n).slots
              (level + 1) = 0 :=
            Function.update_self _ _ _
          have hC : (path.setNode (level + 1) n).nodes
              (level + 1) = some n :=
            Function.update_self _ _ _
          cases hC.symm.trans hNode
          rw [hSlot, hAbove]
          exact ⟨hBelow.1, fun i m _ => hBelow.2 i m⟩
        · exact (hClear.congr (path.setNode _ n)
            (fun j hJ => Function.update_of_ne (by omega) _ _)
            (fun j hJ => Function.update_of_ne (by omega) _ _))
            k hMore c hNode
      rw [trail_succ, List.cons_append, descend]
      cases hChild : T.child n 0 with
      | none =>
          refine ⟨rfl, Nat.succ_pos level, hNext, hClear', ?_,
            ?_⟩
          · rintro ⟨m, hM, _⟩
            rw [hChild] at hM
            cases hM
          · by_cases hSlot : 0 < T.count n
            · refine ⟨[none, none], List.cons_ne_nil _ _, rfl,
                ?_⟩
              rw [hHere, trailFrom_gap hSlot hChild]
              rfl
            · refine ⟨[none], List.cons_ne_nil _ _, rfl, ?_⟩
              rw [hHere, trailFrom_end (by omega),
                trailFrom_end (by omega)]
              rfl
      | some m =>
          have hBelow' : Clear T
              (trailAbove T (path.setNode (level + 1) n)
                (level + 1)).reduceOption level m := by
            rw [hHere, List.reduceOption_append]
            exact hBelow.2 0 m hChild
          have hRest := ih m hNext (by omega) hClear' hBelow'
          rw [hHere, ← List.append_assoc,
            ← trailFrom_child hChild] at hRest
          refine hRest.cons ?_
          rintro ⟨m', hM, hOpens⟩
          cases hChild.symm.trans hM
          exact hOpens

----------
-- One Call
----------

/- What is right of a state of the walk. -/
def stateTrail
    (T : Slots N) : WalkState N → List (Option N)
  | .again level _ path => trailAbove T path level
  | .scan level offset path =>
      match path.nodes level with
      | none => trailAbove T path (level + 1)
      | some c =>
          trailFrom T (level - 1) c
              (path.slots level + offset) ++
            trailAbove T path (level + 1)

/- A number that falls in every turn. -/
def rank
    (T : Slots N)
    (state : WalkState N) : Nat :=
  18 * (stateTrail T state).length +
    match state with
    | .again level _ _ => 2 * (MAX_LEVEL - level) + 1
    | .scan level _ _ => 2 * (MAX_LEVEL - level)

/-
  The slots between that of the path and the next one to be
  looked at cannot be read, or no leaves are left.
-/
def Passed
    (T : Slots N)
    (level offset : Nat)
    (path : BtrfsPath N) : Prop :=
  (∀ c, path.nodes level = some c →
    ∀ i, path.slots level < i → i < path.slots level + offset →
      i < T.count c ∧ T.child c i = none) ∨
  (trailAbove T path level).reduceOption = []

/- What every state of a walk is like. -/
def WalkOk
    (T : Slots N)
    (top : Nat) : WalkState N → Prop
  | .again level offset path =>
      1 ≤ level ∧ 1 ≤ offset ∧ HasTop top path ∧
        PathClear T path level ∧
          (offset = 1 ∨
            (trailAbove T path level).reduceOption = [])
  | .scan level offset path =>
      1 ≤ level ∧ 1 ≤ offset ∧ HasTop top path ∧
        PathClear T path level ∧ Passed T level offset path

/- The leaves right of the slots of the path of a state. -/
def stateLeaves
    (T : Slots N) : WalkState N → List N
  | .again level _ path =>
      (trailAbove T path level).reduceOption
  | .scan level _ path =>
      (trailAbove T path level).reduceOption

/- A result that is the first of these leaves, or the end. -/
def Finds
    (T : Slots N)
    (top : Nat)
    (found : List N)
    (ret : WalkResult N) : Prop :=
  match found with
  | [] => ret.1 = 1
  | n :: more =>
      ret.1 = 0 ∧ ret.2.nodes 0 = some n ∧
        leavesRight T ret.2 = more ∧ HasTop top ret.2 ∧
          PathClear T ret.2 1

theorem stateTrail_node
    {c : N}
    (hNode : path.nodes level = some c)
    (offset : Nat) :
    stateTrail T (.scan level offset path) =
      trailFrom T (level - 1) c (path.slots level + offset) ++
        trailAbove T path (level + 1) := by
  simp only [stateTrail, hNode]

theorem stateTrail_none
    (hNode : path.nodes level = none)
    (offset : Nat) :
    stateTrail T (.scan level offset path) =
      trailAbove T path (level + 1) := by
  simp only [stateTrail, hNode]

theorem passed_one : Passed T level 1 path := by
  left
  intro c _ i hLow hHigh
  omega

theorem Passed.bare
    {c : N}
    (hLevel : level < MAX_LEVEL)
    (hPassed : Passed T level offset path)
    (hNode : path.nodes level = some c) :
    Bare T (level - 1) c (path.slots level + 1)
      (path.slots level + offset) := by
  rcases hPassed with hGap | hNil
  · intro k hLow hHigh m hChild
    rw [(hGap c hNode k hLow hHigh).2] at hChild
    cases hChild
  · rw [trailAbove_level path hLevel, trailAt, hNode,
      List.reduceOption_append] at hNil
    exact bare_of_nil (List.append_eq_nil_iff.mp hNil).1

/- Where slots were passed, the next one with a node opens. -/
theorem Passed.bridge
    {c : N}
    (hLevel : level < MAX_LEVEL)
    (hClear : PathClear T path level)
    (hPassed : Passed T level offset path)
    (hNode : path.nodes level = some c)
    (hMore : 1 < offset) :
    (trailAbove T path level).reduceOption = [] ∨
      ∃ j m, path.slots level + offset ≤ j ∧
        T.child c j = some m ∧ Opens T (level - 1) m ∧
          ∀ k, path.slots level + offset ≤ k → k < j →
            T.child c k = none := by
  rcases hPassed with hGap | hNil
  · rcases hGap c hNode (path.slots level + 1)
      (Nat.lt_succ_self _) (by omega) with ⟨hSlot, hNone⟩
    rcases (hClear level le_rfl c hNode).1 _ le_rfl hSlot hNone
      with ⟨j, m, hLow, hChild, hOpens, hFirst⟩ | hNil
    · refine .inr ⟨j, m, ?_, hChild, hOpens,
        fun k hK => hFirst k (by omega)⟩
      by_contra hBefore
      rw [(hGap c hNode j (by omega) (by omega)).2] at hChild
      cases hChild
    · left
      rw [trailAbove_level path hLevel, trailAt, hNode,
        List.reduceOption_append]
      exact hNil
  · exact .inl hNil

/- No leaf is lost on the way. -/
theorem stateLeaves_scan
    (hLevel : level < MAX_LEVEL)
    (hOffset : 1 ≤ offset)
    (hPassed : Passed T level offset path) :
    (trailAbove T path level).reduceOption =
      (stateTrail T
        (.scan level offset path)).reduceOption := by
  rw [trailAbove_level path hLevel, stateTrail, trailAt]
  cases hNode : path.nodes level with
  | none => rfl
  | some c =>
      have hSkip := reduceOption_skip
        (hPassed.bare hLevel hNode)
        (Nat.add_le_add_left hOffset _)
      dsimp only
      rw [List.reduceOption_append, List.reduceOption_append,
        hSkip]

theorem length_scan_le
    (hLevel : level < MAX_LEVEL)
    (hOffset : 1 ≤ offset) :
    (stateTrail T (.scan level offset path)).length ≤
      (trailAbove T path level).length := by
  rw [trailAbove_level path hLevel, stateTrail, trailAt]
  cases hNode : path.nodes level with
  | none => exact Nat.le_refl _
  | some c =>
      have hSkip :
          (trailFrom T (level - 1) c
              (path.slots level + offset)).length ≤
            (trailFrom T (level - 1) c
              (path.slots level + 1)).length :=
        length_skip (Nat.add_le_add_left hOffset _)
      dsimp only
      rw [List.length_append, List.length_append]
      omega

/-
  A turn that goes on keeps the shape of the path, comes
  nearer to the end and loses no leaf; one that ends finds the
  first leaf.
-/
def TurnOk
    (T : Slots N)
    (top : Nat)
    (state : WalkState N) :
    WalkState N ⊕ WalkResult N → Prop
  | .inl next =>
      WalkOk T top next ∧ rank T next < rank T state ∧
        stateLeaves T next = stateLeaves T state
  | .inr ret => Finds T top (stateLeaves T state) ret

theorem walkTurn_again
    (hOk : WalkOk T top (.again level offset path)) :
    TurnOk T top (.again level offset path)
      (walkTurn T (.again level offset path)) := by
  rcases hOk with ⟨hLevel, hOffset, hTop, hClear, hOne⟩
  unfold walkTurn
  dsimp only
  split
  · rename_i hMax
    unfold TurnOk stateLeaves
    dsimp only
    rw [trailAbove_top path hMax]
    rfl
  · rename_i hMax
    have hBelow : level < MAX_LEVEL := by omega
    split
    · rename_i hNode
      have hBehind := trailAbove_behind (T := T) hTop hNode
      have hAbove := trailAbove_level (T := T) path hBelow
      rw [hBehind] at hAbove
      have hNil := (List.append_eq_nil_iff.mp hAbove.symm).2
      refine ⟨⟨by omega, hOffset, hTop,
        hClear.mono (Nat.le_succ level), ?_⟩, ?_, ?_⟩
      · right
        rw [hNil]
        rfl
      · unfold rank stateTrail
        dsimp only
        rw [hBehind, hNil]
        omega
      · unfold stateLeaves
        dsimp only
        rw [hBehind, hNil]
    · have hLess :
          (stateTrail T (.scan level offset path)).length ≤
            (stateTrail T
              (.again level offset path)).length :=
        length_scan_le hBelow hOffset
      refine ⟨⟨hLevel, hOffset, hTop, hClear, ?_⟩, ?_, rfl⟩
      · rcases hOne with rfl | hNil
        · exact passed_one
        · exact .inr hNil
      · unfold rank
        dsimp only
        omega

/- The descent below a slot with a node that can be read. -/
theorem descended_turnOk
    {opens : Prop}
    (hLevel : level < MAX_LEVEL)
    (hOffset : 1 ≤ offset)
    (hPassed : Passed T level offset path)
    (hAgain : ¬ opens → offset = 1 ∨
      (trailAbove T path level).reduceOption = [])
    {turn : WalkState N ⊕ WalkResult N}
    (hTurn :
      Descended T top offset opens
        (stateTrail T (.scan level offset path)) turn) :
    TurnOk T top (.scan level offset path) turn := by
  have hLeaves :=
    stateLeaves_scan hLevel hOffset hPassed
  match turn with
  | .inr ret =>
      rcases hTurn with
        ⟨hRet, hTop, hClear, pre, n, hPre, hNode, hTrail⟩
      unfold TurnOk stateLeaves
      dsimp only
      rw [hLeaves, hTrail, List.reduceOption_append, hPre,
        List.nil_append, List.reduceOption_cons_of_some]
      exact ⟨hRet, hNode, leavesRight_eq ret.2, hTop, hClear⟩
  | .inl (.again level' offset' path') =>
      rcases hTurn with ⟨rfl, hLow, hTop, hClear, hNot, pre,
        hSome, hPre, hTrail⟩
      have hSame :
          (trailAbove T path' level').reduceOption =
            (trailAbove T path level).reduceOption := by
        rw [hLeaves, hTrail, List.reduceOption_append, hPre,
          List.nil_append]
      refine ⟨⟨hLow, hOffset, hTop, hClear, ?_⟩, ?_, hSame⟩
      · rw [hSame]
        exact hAgain hNot
      · have hPos := List.length_pos_iff.mpr hSome
        unfold rank
        rw [hTrail, List.length_append]
        unfold stateTrail MAX_LEVEL
        dsimp only
        omega

theorem walkTurn_scan
    (hMax : top < MAX_LEVEL)
    (hOk : WalkOk T top (.scan level offset path)) :
    TurnOk T top (.scan level offset path)
      (walkTurn T (.scan level offset path)) := by
  rcases hOk with ⟨hLevel, hOffset, hTop, hClear, hPassed⟩
  unfold walkTurn
  dsimp only
  split
  · rename_i hEnd
    unfold TurnOk stateLeaves
    dsimp only
    rw [trailAbove_top path hEnd]
    rfl
  · rename_i hEnd
    have hBelow : level < MAX_LEVEL := by omega
    have hLeaves := stateLeaves_scan hBelow hOffset hPassed
    split
    · rename_i hNode
      unfold TurnOk stateLeaves
      dsimp only
      rw [trailAbove_behind hTop hNode]
      rfl
    · rename_i c hNode
      have hTrail :=
        stateTrail_node (T := T) hNode offset
      split
      · -- the rest of the node is behind the slot
        rename_i hCount
        rw [trailFrom_end hCount, List.nil_append] at hTrail
        have hSame :
            (trailAbove T path (level + 1)).reduceOption =
              (trailAbove T path level).reduceOption := by
          rw [hLeaves, hTrail]
        refine ⟨⟨by omega, hOffset, hTop,
          hClear.mono (Nat.le_succ level), ?_⟩, ?_, hSame⟩
        · by_cases hMore : 1 < offset
          · rcases hPassed.bridge hBelow hClear hNode hMore with
              hNil | ⟨j, m, hLow, hChild, _⟩
            · exact .inr (hSame.trans hNil)
            · have hLess := T.child_lt c j m hChild
              omega
          · have hOne : offset = 1 := by omega
            rw [hOne]
            exact passed_one
        · have hLess :
              (stateTrail T
                (.scan (level + 1) offset path)).length ≤
                (trailAbove T path (level + 1)).length := by
            by_cases hNext : level + 1 < MAX_LEVEL
            · exact length_scan_le hNext hOffset
            · have hNone :
                  path.nodes (level + 1) = none := by
                rw [← Option.not_isSome_iff_eq_none, hTop]
                omega
              refine Nat.le_of_eq (congrArg List.length ?_)
              rw [stateTrail_none hNone,
                trailAbove_top path (by omega),
                trailAbove_top path (by omega)]
          unfold rank
          rw [hTrail]
          dsimp only
          omega
      · rename_i hCount
        have hSlot : path.slots level + offset < T.count c := by
          omega
        split
        · -- a block that cannot be read
          rename_i hChild
          rw [trailFrom_gap hSlot hChild] at hTrail
          refine ⟨⟨hLevel, by omega, hTop, hClear, ?_⟩, ?_, rfl⟩
          · rcases hPassed with hGap | hNil
            · left
              intro c' hNode' i hLow hHigh
              cases hNode.symm.trans hNode'
              by_cases hLast : i = path.slots level + offset
              · rw [hLast]
                exact ⟨hSlot, hChild⟩
              · exact hGap c hNode i hLow (by omega)
            · exact .inr hNil
          · have hNext :=
              stateTrail_node (T := T) hNode (offset + 1)
            rw [← Nat.add_assoc] at hNext
            unfold rank
            rw [hTrail, hNext]
            simp only [List.cons_append, List.length_cons]
            omega
        · rename_i next hChild
          have hHere : level ≤ top := by
            apply (hTop level).mp
            rw [hNode]
            rfl
          have hTop' : HasTop top
              (path.setSlot level
                (path.slots level + offset)) :=
            hTop
          have hUp : level - 1 + 1 = level := by omega
          rcases hClear.setSlot hBelow hNode (by omega) hChild
            with ⟨hClear', hNext⟩
          have hSpec := descend_spec (T := T) offset next hTop'
            hMax (show level - 1 ≤ top by omega)
            (hUp.symm ▸ hClear') (hUp.symm ▸ hNext)
          rw [hUp, trailAbove_level _ hBelow,
            trailAt_setSlot hNode,
            trailAbove_setSlot _ _ (Nat.lt_succ_self level),
            ← List.append_assoc, ← trailFrom_child hChild,
            ← hTrail] at hSpec
          refine descended_turnOk hBelow hOffset hPassed
            (fun hNot => ?_) hSpec
          by_cases hMore : 1 < offset
          · rcases hPassed.bridge hBelow hClear hNode hMore with
              hNil | ⟨j, m, hLow, hM, hOpens, hFirst⟩
            · exact .inr hNil
            · rcases Nat.eq_or_lt_of_le hLow with rfl | hLess
              · cases hChild.symm.trans hM
                exact absurd hOpens hNot
              · rw [hFirst _ le_rfl hLess] at hChild
                cases hChild
          · left
            omega

/- One call finds the first leaf to the right, or the end. -/
theorem nextLeaf_finds
    (hMax : top < MAX_LEVEL)
    (hTop : HasTop top path)
    (hClear : PathClear T path 1) :
    ∃ fuel ret, nextLeaf T fuel path = some ret ∧
      Finds T top (leavesRight T path) ret := by
  have hTurn : ∀ state, WalkOk T top state →
      TurnOk T top state (walkTurn T state) := by
    intro state hOk
    cases state with
    | again level offset path => exact walkTurn_again hOk
    | scan level offset path => exact walkTurn_scan hMax hOk
  have hEnds :
      Loop.Ends (walkTurn T)
        (Finds T top (stateLeaves T (.again 1 1 path)))
        (.again 1 1 path) := by
    refine Loop.ends_of_rank
      (P := WalkOk T top)
      (R := fun state => Finds T top (stateLeaves T state))
      (rank T) ?_ ?_
      ⟨Nat.le_refl 1, Nat.le_refl 1, hTop, hClear, .inl rfl⟩
    · intro a b hOk hBody
      have hGood := hTurn a hOk
      rw [hBody] at hGood
      rcases hGood with ⟨hNext, hRank, hSame⟩
      refine ⟨hNext, hRank, ?_⟩
      intro ret hFinds
      rwa [hSame] at hFinds
    · intro a ret hOk hBody
      have hGood := hTurn a hOk
      rwa [hBody] at hGood
  rcases hEnds with ⟨fuel, ret, hRun, hFinds⟩
  refine ⟨fuel, ret, hRun, ?_⟩
  rw [leavesRight_eq]
  exact hFinds

----------
-- Many Calls
----------

/-
  Where each block that cannot be read is followed by one that
  opens, the calls come to all leaves that can be read, in
  order, and then to the end.
-/
theorem nextLeaf_visits_all
    (T : Slots N)
    (path : BtrfsPath N)
    (hPath : IsPath path)
    (hClear : PathClear T path 1) :
    Visits T path (leavesRight T path) := by
  rcases hPath with ⟨top, hMax, hTop⟩
  induction hLeaves : leavesRight T path
    generalizing path with
  | nil =>
      rcases nextLeaf_finds hMax hTop hClear with
        ⟨fuel, ⟨ret, path'⟩, hRun, hFinds⟩
      rw [hLeaves] at hFinds
      cases hFinds
      exact .done hRun
  | cons n more ih =>
      rcases nextLeaf_finds hMax hTop hClear with
        ⟨fuel, ⟨ret, path'⟩, hRun, hFinds⟩
      rw [hLeaves] at hFinds
      rcases hFinds with ⟨hRet, hNode, hMore, hTop', hNext⟩
      cases hRet
      exact .leaf hRun hNode (ih path' hNext hTop' hMore)

end Call

end Walk

----------
-- Small Trees
----------

/-
  A root 0 with the nodes 1, 2 and so on, and below them the
  leaves 10, 11 and so on, 20, 21 and so on.
-/
def blockAt
    (n i : Nat) : Nat :=
  if n = 0 then i + 1 else 10 * n + i

/- The tree when some of the blocks cannot be read. -/
def blocks
    (width : Nat)
    (bad : List Nat) : Slots Nat where
  count := fun _ => width
  child := fun n i =>
    if i < width ∧ blockAt n i ∉ bad then some (blockAt n i)
    else none
  child_lt := by
    intro n i m hChild
    split at hChild
    · rename_i h
      exact h.1
    · cases hChild

/- The path to the first leaf. -/
def firstPath : BtrfsPath Nat where
  nodes := fun level => [10, 1, 0][level]?
  slots := fun _ => 0

theorem firstPath_isPath : IsPath firstPath := by
  refine ⟨2, by decide, ?_⟩
  intro level
  unfold firstPath
  dsimp only
  rw [Option.isSome_iff_ne_none, ne_eq,
    List.getElem?_eq_none_iff]
  simp only [List.length_cons, List.length_nil]
  omega

theorem bridged_of_children
    {N : Type}
    {T : Slots N}
    {right : List N}
    {level slot : Nat}
    {n : N}
    (hAll : ∀ i, slot ≤ i → i < T.count n →
      T.child n i ≠ none) :
    Bridged T right level n slot :=
  fun i hLow hHigh hNone => absurd hNone (hAll i hLow hHigh)

theorem blocks_clear :
    PathClear (blocks 3 [11, 20]) firstPath 1 := by
  have hReads : ∀ n ∈ [0, 2, 3], ∀ i, 1 ≤ i →
      i < (blocks 3 [11, 20]).count n →
        (blocks 3 [11, 20]).child n i ≠ none := by
    intro n hN i hLow hHigh
    change i < 3 at hHigh
    have hTwo : ∀ n ∈ [0, 2, 3], ∀ i ∈ [1, 2],
        (blocks 3 [11, 20]).child n i ≠ none := by
      decide
    exact hTwo n hN i (by simp only [List.mem_cons,
      List.not_mem_nil, or_false]; omega)
  intro level hLow c hNode
  match level with
  | 1 =>
      cases hNode
      refine ⟨?_, fun _ _ _ _ => trivial⟩
      intro i hI hCount hNone
      change i < 3 at hCount
      -- only leaf 11 is missing, and leaf 12 follows
      have hOne : i = 1 := by
        by_contra hOther
        have hTwo : i = 2 := by
          omega
        subst hTwo
        cases hNone
      subst hOne
      refine .inl ⟨2, 12, by decide, by decide, trivial, ?_⟩
      intro k hK hLess
      omega
  | 2 =>
      cases hNode
      refine ⟨bridged_of_children (hReads 0 (by decide)), ?_⟩
      intro i m hI hChild
      have hCount := (blocks 3 [11, 20]).child_lt 0 i m hChild
      change i < 3 at hCount
      have hM : m ∈ [0, 2, 3] := by
        have hTwo : i = 1 ∨ i = 2 := by
          omega
        rcases hTwo with rfl | rfl
        · cases hChild
          decide
        · cases hChild
          decide
      exact ⟨bridged_of_children (hReads m hM),
        fun _ _ _ => trivial⟩
  | level + 3 => cases hNode

theorem nextLeaf_visits_all_blocks :
    leavesRight (blocks 3 [11, 20]) firstPath =
        [12, 21, 22, 30, 31, 32] ∧
      Visits (blocks 3 [11, 20]) firstPath
        (leavesRight (blocks 3 [11, 20]) firstPath) := by
  refine ⟨by decide, nextLeaf_visits_all (blocks 3 [11, 20])
    firstPath firstPath_isPath blocks_clear⟩

/-
  When leaf 11 cannot be read the first call is the last one,
  and leaves 20 and 21 are never seen.
-/
theorem lostLeaves_not_visited :
    leavesRight (blocks 2 [11]) firstPath = [20, 21] ∧
      ¬ Visits (blocks 2 [11]) firstPath
        (leavesRight (blocks 2 [11]) firstPath) := by
  have hLeaves :
      leavesRight (blocks 2 [11]) firstPath = [20, 21] := by
    decide
  have hRun :
      nextLeaf (blocks 2 [11]) 5 firstPath =
        some (1, firstPath) :=
    rfl
  refine ⟨hLeaves, ?_⟩
  rw [hLeaves]
  intro hVisits
  cases hVisits with
  | leaf hFirst _ _ =>
      rcases Loop.comes_of_run hRun with ⟨last, hComes, hEnd⟩
      have hSame := Loop.run_of_comes hFirst hComes hEnd
      cases hSame

end Restore

end BtrfsProgs
