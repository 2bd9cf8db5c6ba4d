import Mathlib

/-
  How many points of an interval have a property.

  Main declarations:
    * `countIn`
    * `countIn_split`
    * `countIn_all`, `countIn_none` and `countIn_or`
-/

----------
-- Counts
----------

/- The points from `lo` on and below `hi` that have it. -/
def countIn
    (P : Nat → Prop)
    [DecidablePred P]
    (lo hi : Nat) : Nat :=
  ((Finset.Ico lo hi).filter P).card

section CountIn

variable {P : Nat → Prop} [DecidablePred P]
variable {lo mid hi : Nat}

theorem countIn_split
    (hLow : lo ≤ mid)
    (hHigh : mid ≤ hi) :
    countIn P lo hi = countIn P lo mid + countIn P mid hi := by
  unfold countIn
  rw [Finset.card_filter, Finset.card_filter,
    Finset.card_filter]
  exact (Finset.sum_Ico_consecutive _ hLow hHigh).symm

theorem countIn_all
    (hAll : ∀ b, lo ≤ b → b < hi → P b) :
    countIn P lo hi = hi - lo := by
  unfold countIn
  rw [Finset.filter_true_of_mem, Nat.card_Ico]
  intro b hB
  rw [Finset.mem_Ico] at hB
  exact hAll b hB.1 hB.2

theorem countIn_none
    (hNone : ∀ b, lo ≤ b → b < hi → ¬ P b) :
    countIn P lo hi = 0 := by
  unfold countIn
  rw [Finset.card_eq_zero, Finset.filter_eq_empty_iff]
  intro b hB
  rw [Finset.mem_Ico] at hB
  exact hNone b hB.1 hB.2

/- Points of another property that are the same ones. -/
theorem countIn_congr
    {Q : Nat → Prop} [DecidablePred Q]
    (hSame : ∀ b, lo ≤ b → b < hi → (P b ↔ Q b)) :
    countIn P lo hi = countIn Q lo hi := by
  unfold countIn
  congr 1
  apply Finset.filter_congr
  intro b hB
  rw [Finset.mem_Ico] at hB
  exact hSame b hB.1 hB.2

theorem countIn_pos
    {b : Nat}
    (hLow : lo ≤ b)
    (hHigh : b < hi)
    (hP : P b) :
    0 < countIn P lo hi := by
  unfold countIn
  rw [Finset.card_pos]
  exact ⟨b, Finset.mem_filter.mpr
    ⟨Finset.mem_Ico.mpr ⟨hLow, hHigh⟩, hP⟩⟩

/- All points are counted just when all have the property. -/
theorem countIn_eq_iff :
    countIn P lo hi = hi - lo ↔
      ∀ b, lo ≤ b → b < hi → P b := by
  constructor
  · intro hCount b hLow hHigh
    unfold countIn at hCount
    rw [← Nat.card_Ico lo hi] at hCount
    exact Finset.card_filter_eq_iff.mp hCount b
      (Finset.mem_Ico.mpr ⟨hLow, hHigh⟩)
  · exact countIn_all

/- Points of one property or another that exclude each other. -/
theorem countIn_or
    {Q : Nat → Prop} [DecidablePred Q]
    (hApart : ∀ b, P b → ¬ Q b) :
    countIn (fun b => P b ∨ Q b) lo hi =
      countIn P lo hi + countIn Q lo hi := by
  unfold countIn
  rw [Finset.filter_or, Finset.card_union_of_disjoint]
  rw [Finset.disjoint_filter]
  intro b _ hP
  exact hApart b hP

theorem countIn_empty
    (hEmpty : hi ≤ lo) :
    countIn P lo hi = 0 :=
  countIn_none fun b hLow hHigh => absurd hHigh (by omega)

end CountIn
