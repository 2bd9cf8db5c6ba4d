import BtrfsProgs.Lib.SearchTree

/-
  Nodes of a search tree with the way down to them, and steps
  from one to the next in order.

  Main declarations:
    * `TreePlace` and `TreePlace.tree`
    * `TreePlace.first`
    * `TreePlace.next` and `TreePlace.prev`
    * `TreePlace.visited_first`
    * `TreePlace.search` and `TreePlace.search_spec`
    * `TreePlace.foundOrNext_spec`
-/

----------
-- Places
----------

/-
  A step down: to the left of a node, or to the right of one,
  with the other side of it.
-/
inductive TreeStep (α : Type) where
  | left (a : α) (r : SearchTree α)
  | right (l : SearchTree α) (a : α)

/- A node, what is below it, and the steps up from it. -/
structure TreePlace (α : Type) where
  left : SearchTree α
  node : α
  right : SearchTree α
  steps : List (TreeStep α)

namespace TreePlace

open SearchTree

variable {α : Type}

/- The whole tree around a part. -/
def around
    (t : SearchTree α) :
    List (TreeStep α) → SearchTree α
  | [] => t
  | .left a r :: steps => around (.node t a r) steps
  | .right l a :: steps => around (.node l a t) steps

def tree
    (p : TreePlace α) : SearchTree α :=
  around (.node p.left p.node p.right) p.steps

/- What comes before the part that steps lead to. -/
def lower : List (TreeStep α) → List α
  | [] => []
  | .left _ _ :: steps => lower steps
  | .right l a :: steps => lower steps ++ (l.toList ++ [a])

/- What comes after it. -/
def upper : List (TreeStep α) → List α
  | [] => []
  | .left a r :: steps => a :: (r.toList ++ upper steps)
  | .right _ _ :: steps => upper steps

def before
    (p : TreePlace α) : List α :=
  lower p.steps ++ p.left.toList

def after
    (p : TreePlace α) : List α :=
  p.right.toList ++ upper p.steps

theorem toList_around
    (t : SearchTree α)
    (steps : List (TreeStep α)) :
    (around t steps).toList =
      lower steps ++ (t.toList ++ upper steps) := by
  induction steps generalizing t with
  | nil => simp [around, lower, upper]
  | cons step steps ih =>
      cases step with
      | left a r
      | right l a => simp [around, lower, upper, ih, toList]

theorem toList_tree
    (p : TreePlace α) :
    p.tree.toList = p.before ++ p.node :: p.after := by
  unfold tree before after
  rw [toList_around]
  simp [toList]

/- The tree without the node. -/
def erase
    (p : TreePlace α) : SearchTree α :=
  around (glue p.left p.right) p.steps

theorem toList_erase
    (p : TreePlace α) :
    p.erase.toList = p.before ++ p.after := by
  unfold erase before after
  rw [toList_around, toList_glue]
  simp

----------
-- Steps in Order
----------

/- The leftmost node of a part, and the rightmost one. -/
def leftmost :
    SearchTree α → List (TreeStep α) → Option (TreePlace α)
  | .leaf, _ => none
  | .node .leaf a r, steps => some ⟨.leaf, a, r, steps⟩
  | .node l a r, steps => leftmost l (.left a r :: steps)

def rightmost :
    SearchTree α → List (TreeStep α) → Option (TreePlace α)
  | .leaf, _ => none
  | .node l a .leaf, steps => some ⟨l, a, .leaf, steps⟩
  | .node l a r, steps => rightmost r (.right l a :: steps)

/- Up to the first node whose left side the part is. -/
def climbNext
    (t : SearchTree α) :
    List (TreeStep α) → Option (TreePlace α)
  | [] => none
  | .left a r :: steps => some ⟨t, a, r, steps⟩
  | .right l a :: steps => climbNext (.node l a t) steps

def climbPrev
    (t : SearchTree α) :
    List (TreeStep α) → Option (TreePlace α)
  | [] => none
  | .right l a :: steps => some ⟨l, a, t, steps⟩
  | .left a r :: steps => climbPrev (.node t a r) steps

def first
    (t : SearchTree α) : Option (TreePlace α) :=
  leftmost t []

/- A node with a right side has its successor there. -/
def next
    (p : TreePlace α) : Option (TreePlace α) :=
  match p.right with
  | .leaf => climbNext (.node p.left p.node .leaf) p.steps
  | r => leftmost r (.right p.left p.node :: p.steps)

def prev
    (p : TreePlace α) : Option (TreePlace α) :=
  match p.left with
  | .leaf => climbPrev (.node .leaf p.node p.right) p.steps
  | l => rightmost l (.left p.node p.right :: p.steps)

/-
  A place in the same tree that parts its nodes into those
  before, the node and those after.
-/
def IsAt
    (t : SearchTree α)
    (before after : List α)
    (p : TreePlace α) : Prop :=
  p.tree = t ∧ p.before = before ∧ p.node :: p.after = after

theorem leftmost_spec
    (t : SearchTree α)
    (steps : List (TreeStep α)) :
    match leftmost t steps with
    | none => t = .leaf
    | some p =>
        IsAt (around t steps) (lower steps)
          (t.toList ++ upper steps) p := by
  fun_induction leftmost t steps with
  | case1 => rfl
  | case2 a r steps =>
      exact ⟨rfl, by simp [before, toList], rfl⟩
  | case3 l a r steps hNode ih =>
      split at ih
      case h_1 => exact absurd ih hNode
      case h_2 p hp =>
        rcases ih with ⟨hTree, hBefore, hAfter⟩
        refine ⟨hTree, hBefore, ?_⟩
        rw [hAfter]
        simp [upper, toList]

theorem rightmost_spec
    (t : SearchTree α)
    (steps : List (TreeStep α)) :
    match rightmost t steps with
    | none => t = .leaf
    | some p =>
        p.tree = around t steps ∧ p.after = upper steps ∧
          p.before ++ [p.node] = lower steps ++ t.toList := by
  fun_induction rightmost t steps with
  | case1 => rfl
  | case2 l a steps =>
      exact ⟨rfl, by simp [after, toList],
        by simp [before, toList]⟩
  | case3 l a r steps hNode ih =>
      split at ih
      case h_1 => exact absurd ih hNode
      case h_2 p hp =>
        rcases ih with ⟨hTree, hAfter, hBefore⟩
        refine ⟨hTree, hAfter, ?_⟩
        rw [hBefore]
        simp [lower, toList]

theorem climbNext_spec
    (t : SearchTree α)
    (steps : List (TreeStep α)) :
    match climbNext t steps with
    | none => upper steps = []
    | some p =>
        IsAt (around t steps) (lower steps ++ t.toList)
          (upper steps) p := by
  induction steps generalizing t with
  | nil => rfl
  | cons step steps ih =>
      cases step with
      | left a r => exact ⟨rfl, rfl, rfl⟩
      | right l a =>
          have hUp := ih (.node l a t)
          rw [climbNext]
          split at hUp
          case h_1 => exact hUp
          case h_2 p hp =>
            rcases hUp with ⟨hTree, hBefore, hAfter⟩
            refine ⟨hTree, ?_, hAfter⟩
            rw [hBefore]
            simp [lower, toList]

theorem climbPrev_spec
    (t : SearchTree α)
    (steps : List (TreeStep α)) :
    match climbPrev t steps with
    | none => lower steps = []
    | some p =>
        p.tree = around t steps ∧
          p.after = t.toList ++ upper steps ∧
          p.before ++ [p.node] = lower steps := by
  induction steps generalizing t with
  | nil => rfl
  | cons step steps ih =>
      cases step with
      | right l a =>
          exact ⟨rfl, rfl, by simp [before, lower]⟩
      | left a r =>
          have hUp := ih (.node t a r)
          rw [climbPrev]
          split at hUp
          case h_1 => exact hUp
          case h_2 p hp =>
            rcases hUp with ⟨hTree, hAfter, hBefore⟩
            refine ⟨hTree, ?_, hBefore⟩
            rw [hAfter]
            simp [upper, toList]

/- The first place has everything after it. -/
theorem first_spec
    (t : SearchTree α) :
    match first t with
    | none => t.toList = []
    | some p => IsAt t [] t.toList p := by
  have hLeft := leftmost_spec t []
  unfold first
  split at hLeft
  case h_1 =>
    rw [hLeft]
    rfl
  case h_2 p hp =>
    simpa [around, lower, upper] using hLeft

/- The next place is one node further. -/
theorem next_spec
    (p : TreePlace α) :
    match p.next with
    | none => p.after = []
    | some q => IsAt p.tree (p.before ++ [p.node]) p.after q := by
  rcases p with ⟨l, a, r, steps⟩
  cases r with
  | leaf =>
      have hUp := climbNext_spec (.node l a .leaf) steps
      unfold next
      dsimp only
      split at hUp
      case h_1 =>
        simpa [after, toList] using hUp
      case h_2 q hq =>
        simpa [before, after, toList, tree] using hUp
  | node l' b r' =>
      have hDown := leftmost_spec (.node l' b r')
        (.right l a :: steps)
      unfold next
      dsimp only
      split at hDown
      case h_1 => cases hDown
      case h_2 q hq =>
        simpa [before, after, toList, tree, around, lower,
          upper] using hDown

/- The previous place is one node back. -/
theorem prev_spec
    (p : TreePlace α) :
    match p.prev with
    | none => p.before = []
    | some q =>
        q.tree = p.tree ∧ q.after = p.node :: p.after ∧
          q.before ++ [q.node] = p.before := by
  rcases p with ⟨l, a, r, steps⟩
  cases l with
  | leaf =>
      have hUp := climbPrev_spec (.node .leaf a r) steps
      unfold prev
      dsimp only
      split at hUp
      case h_1 =>
        simpa [before, toList] using hUp
      case h_2 q hq =>
        simpa [before, after, toList, tree] using hUp
  | node l' b r' =>
      have hDown := rightmost_spec (.node l' b r')
        (.left a r :: steps)
      unfold prev
      dsimp only
      split at hDown
      case h_1 => cases hDown
      case h_2 q hq =>
        simpa [before, after, toList, tree, around, lower,
          upper] using hDown

/- The nodes met on the way from a place, in some steps. -/
def visited :
    Nat → Option (TreePlace α) → List α
  | 0, _ => []
  | _ + 1, none => []
  | n + 1, some p => p.node :: visited n p.next

theorem visited_eq_take
    (n : Nat)
    (p : TreePlace α) :
    visited n (some p) = (p.node :: p.after).take n := by
  induction n generalizing p with
  | zero => rfl
  | succ n ih =>
      rw [visited, List.take_succ_cons]
      have hNext := next_spec p
      split at hNext
      case h_1 hNone =>
        rw [hNone, hNext, List.take_nil]
        cases n with
        | zero => rfl
        | succ n => rfl
      case h_2 q hq => rw [hq, ih, hNext.2.2]

/- From the first node on, every node is met in order. -/
theorem visited_first
    (t : SearchTree α) :
    visited t.toList.length (first t) = t.toList := by
  have hFirst := first_spec t
  split at hFirst
  case h_1 =>
    rw [hFirst]
    rfl
  case h_2 p hp =>
    rw [hp, visited_eq_take, hFirst.2.2, List.take_length]

----------
-- Searches
----------

/-
  A search below some steps: the node that is met, or the last
  one that was passed with where it was left.
-/
def probe
    (dir : α → Ordering) :
    SearchTree α → List (TreeStep α) →
      Option (TreePlace α × Ordering) →
      Except (Option (TreePlace α × Ordering)) (TreePlace α)
  | .leaf, _, parent => .error parent
  | .node l a r, steps, _ =>
      match dir a with
      | .lt =>
          probe dir l (.left a r :: steps)
            (some (⟨l, a, r, steps⟩, .lt))
      | .gt =>
          probe dir r (.right l a :: steps)
            (some (⟨l, a, r, steps⟩, .gt))
      | .eq => .ok ⟨l, a, r, steps⟩

/- The first node behind the place where a search ended. -/
def behind :
    Option (TreePlace α × Ordering) → Option (TreePlace α)
  | none => none
  | some (p, .gt) => p.next
  | some (p, _) => some p

/-
  The node that a search finds, or the one behind the place
  where it ends.
-/
def search
    (dir : α → Ordering)
    (t : SearchTree α) :
    Option (TreePlace α) × Option (TreePlace α) :=
  match probe dir t [] none with
  | .ok p => (some p, none)
  | .error last => (none, behind last)

section Probe

variable {dir : α → Ordering}

/- The last node that was passed is where the search ends. -/
def Passed
    (t : SearchTree α)
    (steps : List (TreeStep α)) :
    Option (TreePlace α × Ordering) → Prop
  | none => steps = []
  | some (p, .lt) =>
      t = p.left ∧ steps = .left p.node p.right :: p.steps
  | some (p, .gt) =>
      t = p.right ∧ steps = .right p.left p.node :: p.steps
  | some (_, .eq) => False

/- Everything that was passed lies to its side. -/
def Sides
    (dir : α → Ordering)
    (steps : List (TreeStep α)) : Prop :=
  (∀ a ∈ lower steps, dir a = .gt) ∧
    ∀ a ∈ upper steps, dir a = .lt

theorem probe_spec
    (t : SearchTree α)
    (steps : List (TreeStep α))
    (parent : Option (TreePlace α × Ordering))
    (hCut : Cut dir (around t steps))
    (hSides : Sides dir steps)
    (hPassed : Passed t steps parent) :
    match probe dir t steps parent with
    | .ok p => p.tree = around t steps ∧ dir p.node = .eq
    | .error last =>
        ∃ below,
          around .leaf below = around t steps ∧
            Sides dir below ∧ Passed .leaf below last := by
  induction t generalizing steps parent with
  | leaf => exact ⟨steps, rfl, hSides, hPassed⟩
  | node l a r ihl ihr =>
      have hParts : (lower steps ++ (l.toList ++
          a :: (r.toList ++ upper steps))).Pairwise
            fun a b => (dir a = .lt → dir b = .lt) ∧
              (dir b = .gt → dir a = .gt) := by
        have hAll := hCut
        unfold Cut at hAll
        rw [toList_around] at hAll
        simpa [toList] using hAll
      have hInner := (List.pairwise_append.mp hParts).2.1
      unfold probe
      cases hDir : dir a with
      | lt =>
          dsimp only
          refine ihl (.left a r :: steps) _ hCut
            ⟨hSides.1, ?_⟩ ⟨rfl, rfl⟩
          intro b hb
          have hHere := List.pairwise_cons.mp
            (List.pairwise_append.mp hInner).2.1
          rcases List.mem_cons.mp hb with rfl | hb
          · exact hDir
          · exact (hHere.1 b hb).1 hDir
      | gt =>
          dsimp only
          refine ihr (.right l a :: steps) _ hCut
            ⟨?_, hSides.2⟩ ⟨rfl, rfl⟩
          intro b hb
          rw [lower, List.mem_append, List.mem_append,
            List.mem_singleton] at hb
          rcases hb with hb | hb | rfl
          · exact hSides.1 b hb
          · exact ((List.pairwise_append.mp hInner).2.2 b hb a
              List.mem_cons_self).2 hDir
          · exact hDir
      | eq => exact ⟨rfl, hDir⟩

theorem behind_spec
    (steps : List (TreeStep α))
    (last : Option (TreePlace α × Ordering))
    (hPassed : Passed .leaf steps last) :
    match behind last with
    | none => upper steps = []
    | some p =>
        IsAt (around .leaf steps) (lower steps)
          (upper steps) p := by
  match last, hPassed with
  | none, hTop =>
      rw [show steps = [] from hTop]
      rfl
  | some (p, .lt), hLeft =>
      rcases p with ⟨l, a, r, up⟩
      obtain ⟨rfl, rfl⟩ := hLeft
      exact ⟨rfl, by simp [before, lower, toList], rfl⟩
  | some (p, .gt), hRight =>
      rcases p with ⟨l, a, r, up⟩
      obtain ⟨rfl, rfl⟩ := hRight
      have hNext := next_spec ⟨l, a, .leaf, up⟩
      unfold behind
      dsimp only
      split at hNext
      case h_1 => exact hNext
      case h_2 q hq =>
        rcases hNext with ⟨hSame, hBefore, hAfter⟩
        refine ⟨hSame, ?_, hAfter⟩
        rw [hBefore]
        simp [before, lower]

variable {t : SearchTree α}
variable {p : TreePlace α}

/- A node that a search finds is one of the tree. -/
theorem probe_tree
    {steps : List (TreeStep α)}
    {parent : Option (TreePlace α × Ordering)}
    (hFound : probe dir t steps parent = .ok p) :
    p.tree = around t steps := by
  induction t generalizing steps parent with
  | leaf => cases hFound
  | node l a r ihl ihr =>
      unfold probe at hFound
      cases hDir : dir a with
      | lt =>
          rw [hDir] at hFound
          exact ihl hFound
      | gt =>
          rw [hDir] at hFound
          exact ihr hFound
      | eq =>
          rw [hDir] at hFound
          cases hFound
          rfl

theorem search_tree
    (hFound : (search dir t).1 = some p) :
    p.tree = t := by
  unfold search at hFound
  cases hProbe : probe dir t [] none with
  | ok q =>
      rw [hProbe] at hFound
      cases hFound
      exact probe_tree hProbe
  | error last =>
      rw [hProbe] at hFound
      cases hFound

/- A search that finds a node finds one that is met. -/
theorem search_found
    (hCut : Cut dir t)
    (hFound : (search dir t).1 = some p) :
    p.tree = t ∧ dir p.node = .eq := by
  have hSpec := probe_spec t [] none hCut
    ⟨by simp [lower], by simp [upper]⟩ rfl
  unfold search at hFound
  split at hFound
  case h_1 q hq =>
    rw [hq] at hSpec
    cases hFound
    exact hSpec
  case h_2 => cases hFound

/-
  A search that finds none ends between the nodes below and
  those above, and gives the first of those above.
-/
theorem search_missed
    (hCut : Cut dir t)
    (hNone : (search dir t).1 = none) :
    ∃ below above,
      t.toList = below ++ above ∧
      (∀ a ∈ below, dir a = .gt) ∧
      (∀ a ∈ above, dir a = .lt) ∧
      match (search dir t).2 with
      | none => above = []
      | some p => IsAt t below above p := by
  have hSpec := probe_spec t [] none hCut
    ⟨by simp [lower], by simp [upper]⟩ rfl
  unfold search at hNone ⊢
  split at hNone
  case h_1 => cases hNone
  case h_2 last hLast =>
    rw [hLast] at hSpec
    obtain ⟨steps, hTree, hSides, hPassed⟩ := hSpec
    change around .leaf steps = t at hTree
    have hBehind := behind_spec steps last hPassed
    rw [hTree] at hBehind
    refine ⟨lower steps, upper steps, ?_, hSides.1,
      hSides.2, hBehind⟩
    rw [← hTree, toList_around]
    rfl

theorem node_mem
    (p : TreePlace α) :
    p.node ∈ p.tree.toList := by
  rw [p.toList_tree]
  exact List.mem_append_right _ List.mem_cons_self

/- A search tells whether there is a node to be met. -/
theorem search_spec
    (hCut : Cut dir t) :
    match (search dir t).1 with
    | some p => p.tree = t ∧ dir p.node = .eq
    | none => ∀ a ∈ t.toList, dir a ≠ .eq := by
  split
  case h_1 p hFound => exact search_found hCut hFound
  case h_2 hNone =>
    obtain ⟨below, above, hOld, hGt, hLt, -⟩ :=
      search_missed hCut hNone
    intro a ha
    rw [hOld] at ha
    rcases List.mem_append.mp ha with ha | ha
    · simp [hGt a ha]
    · simp [hLt a ha]

/- What a search finds, or else the next node. -/
def foundOrNext
    (dir : α → Ordering)
    (t : SearchTree α) : Option (TreePlace α) :=
  match search dir t with
  | (some p, _) => some p
  | (none, next) => next

/-
  Where no other node before one that is met is met, it is the
  first node that the search does not pass.
-/
theorem foundOrNext_spec
    (hCut : Cut dir t)
    (hFirst : ∀ before a after,
      t.toList = before ++ a :: after →
      dir a = .eq → ∀ b ∈ before, dir b = .gt) :
    match foundOrNext dir t with
    | some p =>
        p.tree = t ∧ dir p.node ≠ .gt ∧
          ∀ a ∈ p.before, dir a = .gt
    | none => ∀ a ∈ t.toList, dir a = .gt := by
  unfold foundOrNext
  cases hSearch : search dir t with
  | mk found next =>
  cases found with
  | some p =>
      obtain ⟨hTree, hDir⟩ := search_found hCut
        (congrArg Prod.fst hSearch)
      refine ⟨hTree, by simp [hDir], ?_⟩
      have hList := p.toList_tree
      rw [hTree] at hList
      exact hFirst _ _ _ hList hDir
  | none =>
      obtain ⟨below, above, hOld, hGt, hLt, hNext⟩ :=
        search_missed hCut (congrArg Prod.fst hSearch)
      rw [hSearch] at hNext
      dsimp only at hNext ⊢
      cases next with
      | none =>
          rw [hOld, show above = [] from hNext,
            List.append_nil]
          exact hGt
      | some p =>
          rcases hNext with ⟨hTree, hBefore, hAfter⟩
          have hDir := hLt p.node (by
            rw [← hAfter]
            exact List.mem_cons_self)
          refine ⟨hTree, by simp [hDir], ?_⟩
          rw [hBefore]
          exact hGt

end Probe

end TreePlace
