import Mathlib

/-
  The largest set whose members are supported: a member is a
  base, or has an edge to a member.

  A set that starts too large is trimmed to it by removing
  edges to what has left the set, and members that have lost
  their edges, in any order.

  Main declarations:
    * `Supported.rule` and `Supported.largest`
    * `Supported.Trim`
    * `Supported.Trim.settles`
-/

----------
-- The Largest Set
----------

namespace Supported

variable {α : Type}

/- What is supported by a set. -/
def rule
    (base : α → Prop)
    (edge : α → α → Prop) : Set α →o Set α where
  toFun S := {a | base a ∨ ∃ b ∈ S, edge a b}
  monotone' := by
    intro S T hSub a hMem
    rcases hMem with hBase | ⟨b, hb, hEdge⟩
    · exact Or.inl hBase
    · exact Or.inr ⟨b, hSub hb, hEdge⟩

/- The greatest fixed point of the rule. -/
def largest
    (base : α → Prop)
    (edge : α → α → Prop) : Set α :=
  OrderHom.gfp (rule base edge)

variable {base : α → Prop}
variable {edge : α → α → Prop}

theorem mem_rule
    {S : Set α}
    {a : α} :
    a ∈ rule base edge S ↔ base a ∨ ∃ b ∈ S, edge a b :=
  Iff.rfl

theorem mem_largest
    {a : α} :
    a ∈ largest base edge ↔
      base a ∨ ∃ b ∈ largest base edge, edge a b := by
  have hFixed : rule base edge (largest base edge) =
      largest base edge := OrderHom.map_gfp _
  calc a ∈ largest base edge
      ↔ a ∈ rule base edge (largest base edge) := by
        rw [hFixed]
    _ ↔ _ := mem_rule

/- A set whose members it supports is within the largest. -/
theorem subset_largest
    {S : Set α}
    (hSupported :
      ∀ a ∈ S, base a ∨ ∃ b ∈ S, edge a b) :
    S ⊆ largest base edge :=
  OrderHom.le_gfp _ hSupported

----------
-- Trimming
----------

/- A set and edges on the way to the largest set. -/
structure Trim
    (base : α → Prop)
    (edge : α → α → Prop)
    (left : Set α)
    (kept : α → α → Prop) : Prop where
  keeps : largest base edge ⊆ left
  old : ∀ a b, kept a b → edge a b
  edges :
    ∀ a ∈ largest base edge, ∀ b ∈ largest base edge,
      edge a b → kept a b

variable {left left' : Set α}
variable {kept kept' : α → α → Prop}

theorem Trim.start
    (hAll : largest base edge ⊆ left) :
    Trim base edge left edge where
  keeps := hAll
  old := fun _ _ hEdge => hEdge
  edges := fun _ _ _ _ hEdge => hEdge

/- Edges go that lead out of the set. -/
theorem Trim.cut
    (hTrim : Trim base edge left kept)
    (hOld : ∀ a b, kept' a b → kept a b)
    (hCut : ∀ a b, kept a b → b ∈ left → kept' a b) :
    Trim base edge left kept' where
  keeps := hTrim.keeps
  old := fun a b hKept => hTrim.old a b (hOld a b hKept)
  edges := fun a ha b hb hEdge =>
    hCut a b (hTrim.edges a ha b hb hEdge) (hTrim.keeps hb)

/- Members go that are no base and have no edge left. -/
theorem Trim.drop
    (hTrim : Trim base edge left kept)
    (hDrop :
      ∀ a ∈ left, a ∉ left' →
        ¬ base a ∧ ∀ b, ¬ kept a b) :
    Trim base edge left' kept where
  keeps := by
    intro a ha
    by_contra hGone
    rcases hDrop a (hTrim.keeps ha) hGone with ⟨hBase, hNone⟩
    rcases mem_largest.mp ha with hIs | ⟨b, hb, hEdge⟩
    · exact hBase hIs
    · exact hNone b (hTrim.edges a ha b hb hEdge)
  old := hTrim.old
  edges := hTrim.edges

/- Nothing is left to remove. -/
theorem Trim.settles
    (hTrim : Trim base edge left kept)
    (hSettled :
      ∀ a ∈ left, base a ∨ ∃ b ∈ left, kept a b) :
    left = largest base edge := by
  apply Set.Subset.antisymm
  · apply subset_largest
    intro a ha
    rcases hSettled a ha with hBase | ⟨b, hb, hKept⟩
    · exact Or.inl hBase
    · exact Or.inr ⟨b, hb, hTrim.old a b hKept⟩
  · exact hTrim.keeps

end Supported
