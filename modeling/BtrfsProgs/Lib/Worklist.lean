import Mathlib

/-
  Traversing a graph with a queue.

  A traversal takes nodes from a queue in any order and adds
  their successors to it.  If no successor of a node it takes
  has been visited before, every reachable node is visited
  exactly once.

  Main declarations:
    * `Worklist.Reaches`
    * `Worklist.Inv`
    * `Worklist.Inv.visit` and `Worklist.Inv.complete`
-/

----------
-- Reachable Nodes
----------

namespace Worklist

variable {α : Type}
variable {succ : α → List α}
variable {roots : List α}

/- The nodes that can be reached from the roots. -/
inductive Reaches
    (succ : α → List α)
    (roots : List α) : α → Prop where
  | root {a : α} (hRoot : a ∈ roots) : Reaches succ roots a
  | step {a b : α} (hReach : Reaches succ roots a)
      (hSucc : b ∈ succ a) : Reaches succ roots b

/-
  The queue and the visited nodes are apart, and together
  they hold the roots and the successors of what has been
  visited.
-/
structure Inv
    (succ : α → List α)
    (roots : List α)
    (queue : α → Prop)
    (visited : List α) : Prop where
  nodup : visited.Nodup
  apart : ∀ a, queue a → a ∉ visited
  reaches :
    ∀ a, queue a ∨ a ∈ visited → Reaches succ roots a
  roots_mem : ∀ a ∈ roots, queue a ∨ a ∈ visited
  closed :
    ∀ a ∈ visited, ∀ b ∈ succ a, queue b ∨ b ∈ visited

namespace Inv

/- A queue of the roots, with nothing visited. -/
theorem init
    {queue : α → Prop}
    (hQueue : ∀ a, queue a ↔ a ∈ roots) :
    Inv succ roots queue [] where
  nodup := List.nodup_nil
  apart := by simp
  reaches := by
    intro a ha
    rcases ha with ha | ha
    · exact Reaches.root ((hQueue a).mp ha)
    · cases ha
  roots_mem := by
    intro a ha
    exact Or.inl ((hQueue a).mpr ha)
  closed := by simp

/- Visiting a node whose successors are all unvisited. -/
theorem visit
    {queue queue' : α → Prop}
    {visited : List α}
    (hInv : Inv succ roots queue visited)
    {a : α}
    (ha : queue a)
    (hFresh : ∀ b ∈ succ a, b ≠ a ∧ b ∉ visited)
    (hQueue :
      ∀ b, queue' b ↔ (queue b ∧ b ≠ a) ∨ b ∈ succ a) :
    Inv succ roots queue' (a :: visited) where
  nodup := List.nodup_cons.mpr ⟨hInv.apart a ha, hInv.nodup⟩
  apart := by
    intro b hb hMem
    rcases List.mem_cons.mp hMem with rfl | hMem
    · rcases (hQueue b).mp hb with hOld | hNew
      · exact hOld.2 rfl
      · exact (hFresh b hNew).1 rfl
    · rcases (hQueue b).mp hb with hOld | hNew
      · exact hInv.apart b hOld.1 hMem
      · exact (hFresh b hNew).2 hMem
  reaches := by
    intro b hb
    have hReach := hInv.reaches a (Or.inl ha)
    rcases hb with hb | hMem
    · rcases (hQueue b).mp hb with hOld | hNew
      · exact hInv.reaches b (Or.inl hOld.1)
      · exact Reaches.step hReach hNew
    · rcases List.mem_cons.mp hMem with rfl | hMem
      · exact hReach
      · exact hInv.reaches b (Or.inr hMem)
  roots_mem := by
    intro b hb
    by_cases hSame : b = a
    · exact Or.inr (hSame ▸ List.mem_cons_self)
    · rcases hInv.roots_mem b hb with hOld | hMem
      · exact Or.inl ((hQueue b).mpr (Or.inl ⟨hOld, hSame⟩))
      · exact Or.inr (List.mem_cons_of_mem _ hMem)
  closed := by
    intro c hc b hb
    by_cases hSame : b = a
    · exact Or.inr (hSame ▸ List.mem_cons_self)
    · rcases List.mem_cons.mp hc with rfl | hc
      · exact Or.inl ((hQueue b).mpr (Or.inr hb))
      · rcases hInv.closed c hc b hb with hOld | hMem
        · exact Or.inl
            ((hQueue b).mpr (Or.inl ⟨hOld, hSame⟩))
        · exact Or.inr (List.mem_cons_of_mem _ hMem)

/- With an empty queue, all reachable nodes are visited. -/
theorem complete
    {queue : α → Prop}
    {visited : List α}
    (hInv : Inv succ roots queue visited)
    (hEmpty : ∀ a, ¬ queue a)
    (a : α) :
    a ∈ visited ↔ Reaches succ roots a := by
  constructor
  · intro ha
    exact hInv.reaches a (Or.inr ha)
  · intro hReach
    induction hReach with
    | root hRoot =>
        exact (hInv.roots_mem _ hRoot).resolve_left (hEmpty _)
    | step _ hSucc ih =>
        exact (hInv.closed _ ih _ hSucc).resolve_left
          (hEmpty _)

end Inv

end Worklist
