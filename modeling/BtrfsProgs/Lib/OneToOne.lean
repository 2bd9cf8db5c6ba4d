import Mathlib

/-
  Lists whose members correspond one to one.

  Main declarations:
    * `OneToOne`
    * `OneToOne.left` and `OneToOne.right`
    * `OneToOne.map_perm`
    * `OneToOne.of_unique`
-/

----------
-- Correspondence
----------

/-
  The members of the lists can be put in pairs, each with the
  relation, and none is left over.
-/
def OneToOne
    {α β : Type}
    (R : α → β → Prop)
    (xs : List α)
    (ys : List β) : Prop :=
  ∃ ys', ys'.Perm ys ∧ List.Forall₂ R xs ys'

namespace OneToOne

variable {α β κ : Type}
variable {R : α → β → Prop}
variable {xs : List α}
variable {ys : List β}

theorem mem_left
    (hPairs : List.Forall₂ R xs ys) :
    ∀ x ∈ xs, ∃ y ∈ ys, R x y := by
  induction hPairs with
  | nil =>
      intro x hX
      cases hX
  | cons hPair _ ih =>
      intro x hX
      rcases List.mem_cons.mp hX with rfl | hX
      · exact ⟨_, List.mem_cons_self, hPair⟩
      · rcases ih x hX with ⟨y, hY, hR⟩
        exact ⟨y, List.mem_cons_of_mem _ hY, hR⟩

theorem left
    (hOne : OneToOne R xs ys) :
    ∀ x ∈ xs, ∃ y ∈ ys, R x y := by
  rcases hOne with ⟨ys', hPerm, hPairs⟩
  intro x hX
  rcases mem_left hPairs x hX with ⟨y, hY, hR⟩
  exact ⟨y, hPerm.mem_iff.mp hY, hR⟩

theorem right
    (hOne : OneToOne R xs ys) :
    ∀ y ∈ ys, ∃ x ∈ xs, R x y := by
  rcases hOne with ⟨ys', hPerm, hPairs⟩
  intro y hY
  exact mem_left hPairs.flip y (hPerm.mem_iff.mpr hY)

/- What members in relation have in common comes as often. -/
theorem map_perm
    {f : α → κ}
    {g : β → κ}
    (hOne : OneToOne R xs ys)
    (hSame : ∀ x y, R x y → f x = g y) :
    (xs.map f).Perm (ys.map g) := by
  rcases hOne with ⟨ys', hPerm, hPairs⟩
  have hMaps : xs.map f = ys'.map g := by
    induction hPairs generalizing ys with
    | nil => rfl
    | cons hPair _ ih =>
        rw [List.map_cons, List.map_cons, hSame _ _ hPair,
          ih (List.Perm.refl _)]
  rw [hMaps]
  exact hPerm.map g

/- Members that are in relation with one member each. -/
theorem of_unique
    (hXs : xs.Nodup)
    (hYs : ys.Nodup)
    (hLeft : ∀ x ∈ xs, ∀ y ∈ ys, ∀ y' ∈ ys,
      R x y → R x y' → y = y')
    (hRight : ∀ x ∈ xs, ∀ x' ∈ xs, ∀ y ∈ ys,
      R x y → R x' y → x = x')
    (hFrom : ∀ x ∈ xs, ∃ y ∈ ys, R x y)
    (hTo : ∀ y ∈ ys, ∃ x ∈ xs, R x y) :
    OneToOne R xs ys := by
  induction xs generalizing ys with
  | nil =>
      have hNone : ys = [] := by
        apply List.eq_nil_iff_forall_not_mem.mpr
        intro y hY
        rcases hTo y hY with ⟨x, hX, _⟩
        cases hX
      exact ⟨[], by rw [hNone], .nil⟩
  | cons x xs ih =>
      rcases hFrom x List.mem_cons_self with ⟨y, hY, hR⟩
      rcases List.append_of_mem hY with ⟨before, after, rfl⟩
      have hMove : (before ++ y :: after).Perm
          (y :: (before ++ after)) := List.perm_middle
      have hRest := List.nodup_cons.mp (hMove.nodup_iff.mp hYs)
      have hHead := List.nodup_cons.mp hXs
      have hSub : ∀ z ∈ before ++ after,
          z ∈ before ++ y :: after := fun z hZ =>
        hMove.mem_iff.mpr (List.mem_cons_of_mem _ hZ)
      have hOne : OneToOne R xs (before ++ after) := by
        refine ih hHead.2 hRest.2 ?_ ?_ ?_ ?_
        · exact fun a hA b hB c hC =>
            hLeft a (List.mem_cons_of_mem _ hA) b (hSub b hB) c
              (hSub c hC)
        · exact fun a hA b hB c hC =>
            hRight a (List.mem_cons_of_mem _ hA) b
              (List.mem_cons_of_mem _ hB) c (hSub c hC)
        · intro a hA
          rcases hFrom a (List.mem_cons_of_mem _ hA) with
            ⟨b, hB, hAB⟩
          rcases List.mem_cons.mp (hMove.mem_iff.mp hB) with
            rfl | hB'
          · have hSame := hRight x List.mem_cons_self a
              (List.mem_cons_of_mem _ hA) b hB hR hAB
            rw [← hSame] at hA
            exact absurd hA hHead.1
          · exact ⟨b, hB', hAB⟩
        · intro b hB
          rcases hTo b (hSub b hB) with ⟨a, hA, hAB⟩
          rcases List.mem_cons.mp hA with rfl | hA'
          · have hSame := hLeft a List.mem_cons_self y hY b
              (hSub b hB) hR hAB
            rw [← hSame] at hB
            exact absurd hB hRest.1
          · exact ⟨a, hA', hAB⟩
      rcases hOne with ⟨ys', hPerm, hPairs⟩
      exact ⟨y :: ys', (hPerm.cons y).trans hMove.symm,
        .cons hR hPairs⟩

end OneToOne
