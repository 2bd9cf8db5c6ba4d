import Mathlib

/-
  Scans of a text, and whether they stop in its first line.

  Main declarations:
    * `Lines.Stops`
    * `Lines.firstLine` and `Lines.afterLine`
    * `Lines.mem_dropWhile_of_stops`
-/

----------
-- Scans
----------

namespace Lines

variable {α : Type} {p : α → Bool} {text more : List α}

/- A scan that goes on while `p` holds stops in a text. -/
def Stops
    (p : α → Bool)
    (text : List α) : Prop :=
  ∃ b ∈ text, p b = false

instance
    (p : α → Bool)
    (text : List α) : Decidable (Stops p text) :=
  inferInstanceAs (Decidable (∃ b ∈ text, p b = false))

theorem stops_iff :
    Stops p text ↔ text.dropWhile p ≠ [] := by
  rw [Ne, List.dropWhile_eq_nil_iff]
  simp [Stops]

theorem Stops.append
    (hStops : Stops p text) :
    Stops p (text ++ more) := by
  rcases hStops with ⟨b, hIn, hNot⟩
  exact ⟨b, List.mem_append_left _ hIn, hNot⟩

theorem dropWhile_append
    (hStops : Stops p text) :
    (text ++ more).dropWhile p = text.dropWhile p ++ more := by
  rw [List.dropWhile_append, if_neg]
  rw [List.isEmpty_iff]
  exact stops_iff.mp hStops

theorem takeWhile_append
    (hStops : Stops p text) :
    (text ++ more).takeWhile p = text.takeWhile p := by
  have hWhole : (text ++ more).takeWhile p ++
      (text.dropWhile p ++ more) =
        text.takeWhile p ++ (text.dropWhile p ++ more) := by
    rw [← dropWhile_append hStops,
      List.takeWhile_append_dropWhile, dropWhile_append hStops,
      ← List.append_assoc, List.takeWhile_append_dropWhile]
  exact List.append_cancel_right hWhole

theorem drop_takeWhile
    (p : α → Bool)
    (text : List α) :
    text.drop (text.takeWhile p).length = text.dropWhile p := by
  calc
    text.drop (text.takeWhile p).length =
        (text.takeWhile p ++ text.dropWhile p).drop
          (text.takeWhile p).length := by
      rw [List.takeWhile_append_dropWhile]
    _ = text.dropWhile p := List.drop_left

----------
-- Lines
----------

variable [DecidableEq α] {nl : α}

/- The first line, with its end. -/
def firstLine
    (nl : α) : List α → List α
  | [] => []
  | b :: text => if b = nl then [b] else b :: firstLine nl text

/- What is behind the first line. -/
def afterLine
    (nl : α)
    (text : List α) : List α :=
  (text.dropWhile (· ≠ nl)).tail

theorem firstLine_begins
    (nl : α)
    (text : List α) :
    firstLine nl text <+: text := by
  induction text with
  | nil => exact List.prefix_rfl
  | cons b text ih =>
      unfold firstLine
      split
      · exact ⟨text, rfl⟩
      · exact (List.prefix_cons_inj b).mpr ih

theorem Stops.of_line
    (hStops : Stops p (firstLine nl text)) :
    Stops p text := by
  rcases hStops with ⟨b, hIn, hNot⟩
  exact ⟨b, (firstLine_begins nl text).subset hIn, hNot⟩

theorem firstLine_append
    (hLine : nl ∈ text) :
    firstLine nl (text ++ more) = firstLine nl text := by
  induction text with
  | nil => cases hLine
  | cons b text ih =>
      rw [List.cons_append]
      unfold firstLine
      by_cases hHere : b = nl
      · rw [if_pos hHere, if_pos hHere]
      · rw [if_neg hHere, if_neg hHere, ih]
        exact (List.mem_cons.mp hLine).resolve_left
          (Ne.symm hHere)

theorem length_lt_firstLine
    (hNone : nl ∉ text)
    (hMore : more ≠ []) :
    text.length < (firstLine nl (text ++ more)).length := by
  induction text with
  | nil =>
      cases more with
      | nil => exact absurd rfl hMore
      | cons b more =>
          rw [List.nil_append]
          unfold firstLine
          split <;> simp
  | cons b text ih =>
      rw [List.mem_cons, not_or] at hNone
      rw [List.cons_append]
      unfold firstLine
      rw [if_neg (Ne.symm hNone.1), List.length_cons,
        List.length_cons]
      exact Nat.succ_lt_succ (ih hNone.2)

theorem afterLine_append
    (hLine : nl ∈ text) :
    afterLine nl (text ++ more) = afterLine nl text ++ more := by
  have hStops : Stops (fun b => decide (b ≠ nl)) text :=
    ⟨nl, hLine, by simp⟩
  unfold afterLine
  rw [dropWhile_append hStops, List.tail_append_of_ne_nil]
  exact stops_iff.mp hStops

theorem afterLine_of_notMem
    (hNone : nl ∉ text) :
    afterLine nl (text ++ more) = afterLine nl more := by
  unfold afterLine
  rw [List.dropWhile_append_of_pos]
  intro b hIn
  simp only [ne_eq, decide_not, Bool.not_eq_eq_eq_not,
    Bool.not_true, decide_eq_false_iff_not]
  exact fun hIs => hNone (hIs ▸ hIn)

/- A scan that stops in the first line is not behind its end. -/
theorem mem_dropWhile_of_stops
    (hLine : nl ∈ text)
    (hStops : Stops p (firstLine nl text)) :
    nl ∈ text.dropWhile p := by
  induction text with
  | nil => cases hLine
  | cons b text ih =>
      unfold firstLine at hStops
      by_cases hGoes : p b = true
      · rw [List.dropWhile_cons_of_pos hGoes]
        rcases hStops with ⟨c, hIn, hNot⟩
        by_cases hHere : b = nl
        · rw [if_pos hHere, List.mem_singleton] at hIn
          rw [hIn, hGoes] at hNot
          cases hNot
        · rw [if_neg hHere] at hIn
          refine ih ((List.mem_cons.mp hLine).resolve_left
            (Ne.symm hHere)) ⟨c, ?_, hNot⟩
          refine (List.mem_cons.mp hIn).resolve_left ?_
          intro hIs
          rw [hIs, hGoes] at hNot
          cases hNot
      · rw [List.dropWhile_cons_of_neg hGoes]
        exact hLine

theorem mem_drop_of_lt
    {n : Nat}
    (hLine : nl ∈ text)
    (hLess : n < (firstLine nl text).length) :
    nl ∈ text.drop n := by
  induction text generalizing n with
  | nil => cases hLine
  | cons b text ih =>
      cases n with
      | zero => exact hLine
      | succ n =>
          unfold firstLine at hLess
          by_cases hHere : b = nl
          · rw [if_pos hHere, List.length_singleton] at hLess
            omega
          · rw [if_neg hHere, List.length_cons] at hLess
            exact ih ((List.mem_cons.mp hLine).resolve_left
              (Ne.symm hHere)) (by omega)

end Lines
