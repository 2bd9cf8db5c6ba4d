import Mathlib

/-
  The first of the largest values of a list.

  A search keeps the best value it has seen and takes a new
  one only if its rank is higher.  What it keeps has a rank,
  is above all values before it and at least as high as all
  values behind it.

  Main declarations:
    * `bestOf`
    * `bestOf_eq_some_iff`
    * `exists_bestOf`
-/

----------
-- Searches for the Best Value
----------

namespace FirstBest

variable {α : Type}
variable (rank : α → Nat)

/- The rank of what has been kept. -/
def rankOf : Option α → Nat
  | none => 0
  | some a => rank a

/- One turn of the search. -/
def better
    (best : Option α)
    (a : α) : Option α :=
  if rankOf rank best < rank a then some a else best

def bestOf
    (values : List α) : Option α :=
  values.foldl (better rank) none

variable {rank}
variable {values : List α}
variable {best : Option α}

theorem foldl_better_le
    (hLow : ∀ a ∈ values, rank a ≤ rankOf rank best) :
    values.foldl (better rank) best = best := by
  induction values with
  | nil => rfl
  | cons a values ih =>
      have hHere := hLow a List.mem_cons_self
      have hKeep : better rank best a = best := by
        unfold better
        rw [if_neg (by omega)]
      rw [List.foldl_cons, hKeep]
      exact ih fun b hb =>
        hLow b (List.mem_cons_of_mem a hb)

/- Values below the best one do not keep it from being kept. -/
theorem rankOf_foldl_lt
    {n : Nat}
    (hBest : rankOf rank best < n)
    (hLow : ∀ a ∈ values, rank a < n) :
    rankOf rank (values.foldl (better rank) best) < n := by
  induction values generalizing best with
  | nil => exact hBest
  | cons a values ih =>
      rw [List.foldl_cons]
      apply ih
      · unfold better
        split
        · exact hLow a List.mem_cons_self
        · exact hBest
      · intro b hb
        exact hLow b (List.mem_cons_of_mem a hb)

theorem foldl_better_some
    {b : α}
    (hKept : values.foldl (better rank) best = some b) :
    (best = some b ∧ ∀ a ∈ values, rank a ≤ rank b) ∨
      ∃ before behind, values = before ++ b :: behind ∧
        rankOf rank best < rank b ∧
        (∀ a ∈ before, rank a < rank b) ∧
        ∀ a ∈ behind, rank a ≤ rank b := by
  induction values generalizing best with
  | nil => exact Or.inl ⟨hKept, by simp⟩
  | cons a values ih =>
      rw [List.foldl_cons] at hKept
      by_cases hMore : rankOf rank best < rank a
      · have hTake : better rank best a = some a :=
          if_pos hMore
        rw [hTake] at hKept
        rcases ih hKept with ⟨hSame, hLow⟩ |
          ⟨before, behind, hSplit, hLess, hBefore, hBehind⟩
        · cases hSame
          exact Or.inr ⟨[], values, rfl, hMore, by simp, hLow⟩
        · have hAbove : rank a < rank b := hLess
          refine Or.inr ⟨a :: before, behind, by simp [hSplit],
            Nat.lt_trans hMore hAbove, ?_, hBehind⟩
          intro c hc
          rcases List.mem_cons.mp hc with rfl | hc
          · exact hAbove
          · exact hBefore c hc
      · have hKeep : better rank best a = best :=
          if_neg hMore
        rw [hKeep] at hKept
        rcases ih hKept with ⟨hSame, hLow⟩ |
          ⟨before, behind, hSplit, hLess, hBefore, hBehind⟩
        · refine Or.inl ⟨hSame, ?_⟩
          subst hSame
          intro c hc
          rcases List.mem_cons.mp hc with rfl | hc
          · exact Nat.le_of_not_lt hMore
          · exact hLow c hc
        · refine Or.inr ⟨a :: before, behind, by simp [hSplit],
            hLess, ?_, hBehind⟩
          intro c hc
          rcases List.mem_cons.mp hc with rfl | hc
          · omega
          · exact hBefore c hc

/- The value that is kept is the first of the largest. -/
theorem bestOf_eq_some_iff
    {b : α} :
    bestOf rank values = some b ↔
      ∃ before behind, values = before ++ b :: behind ∧
        0 < rank b ∧ (∀ a ∈ before, rank a < rank b) ∧
        ∀ a ∈ behind, rank a ≤ rank b := by
  constructor
  · intro hBest
    rcases foldl_better_some hBest with ⟨hNone, _⟩ | hSplit
    · cases hNone
    · exact hSplit
  · rintro ⟨before, behind, rfl, hPos, hBefore, hBehind⟩
    have hStart : rankOf rank none < rank b := hPos
    have hLess := rankOf_foldl_lt hStart hBefore
    unfold bestOf
    rw [List.foldl_append, List.foldl_cons]
    have hTake : better rank
        (before.foldl (better rank) none) b = some b :=
      if_pos hLess
    rw [hTake]
    exact foldl_better_le hBehind

/- Something is kept once there is a value with a rank. -/
theorem foldl_better_isSome
    (hOne : best.isSome ∨ ∃ a ∈ values, 0 < rank a) :
    (values.foldl (better rank) best).isSome := by
  induction values generalizing best with
  | nil =>
      rcases hOne with hBest | ⟨a, ha, _⟩
      · exact hBest
      · cases ha
  | cons a values ih =>
      rw [List.foldl_cons]
      apply ih
      unfold better
      split
      · exact Or.inl rfl
      · rename_i hLow
        rcases hOne with hBest | ⟨c, hc, hPos⟩
        · exact Or.inl hBest
        · rcases List.mem_cons.mp hc with rfl | hc
          · left
            cases best with
            | none =>
                simp only [rankOf] at hLow
                omega
            | some b => rfl
          · exact Or.inr ⟨c, hc, hPos⟩

theorem exists_bestOf
    {a : α}
    (ha : a ∈ values)
    (hPos : 0 < rank a) :
    ∃ b, bestOf rank values = some b := by
  apply Option.isSome_iff_exists.mp
  exact foldl_better_isSome (Or.inr ⟨a, ha, hPos⟩)

end FirstBest
