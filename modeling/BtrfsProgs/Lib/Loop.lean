import Mathlib

/-
  Loops whose body goes on with a new state or ends with a
  result.

  Main declarations:
    * `Loop.run`
    * `Loop.Comes`
    * `Loop.Comes.keeps`
    * `Loop.comes_of_run` and `Loop.run_of_comes`
    * `Loop.run_none`
    * `Loop.Ends`, `Loop.ends_of_wellFounded` and
      `Loop.ends_of_rank`
-/

----------
-- Loops
----------

namespace Loop

variable {α ω : Type}

/- The result after at most some turns. -/
def run
    (body : α → α ⊕ ω) : Nat → α → Option ω
  | 0, _ => none
  | fuel + 1, a =>
      match body a with
      | .inl b => run body fuel b
      | .inr w => some w

/- The states that the loop comes to. -/
def Comes
    (body : α → α ⊕ ω) : α → α → Prop :=
  Relation.ReflTransGen fun a b => body a = .inl b

variable {body : α → α ⊕ ω}

theorem Comes.head
    {a b c : α}
    (hTurn : body a = .inl b)
    (hComes : Comes body b c) :
    Comes body a c :=
  Relation.ReflTransGen.head hTurn hComes

theorem Comes.refl
    (a : α) : Comes body a a :=
  Relation.ReflTransGen.refl

variable {P : α → Prop}

/- What every turn keeps holds where the loop comes to. -/
theorem Comes.keeps
    (hKeeps : ∀ a b, P a → body a = .inl b → P b)
    {a b : α}
    (hComes : Comes body a b)
    (hStart : P a) :
    P b := by
  induction hComes with
  | refl => exact hStart
  | tail _ hTurn ih => exact hKeeps _ _ ih hTurn

variable {a : α}

/- More turns than enough make no difference. -/
theorem run_mono
    {fuel more : Nat}
    {w : ω}
    (hRun : run body fuel a = some w)
    (hLe : fuel ≤ more) :
    run body more a = some w := by
  induction fuel generalizing more a with
  | zero => cases hRun
  | succ fuel ih =>
      cases more with
      | zero => omega
      | succ more =>
          unfold run at hRun ⊢
          cases hBody : body a with
          | inl b =>
              rw [hBody] at hRun
              exact ih hRun (by omega)
          | inr v =>
              rw [hBody] at hRun
              exact hRun

/- A loop has one result at most. -/
theorem run_unique
    {fuel more : Nat}
    {v w : ω}
    (hRun : run body fuel a = some v)
    (hMore : run body more a = some w) :
    v = w := by
  have hFirst := run_mono hRun (Nat.le_add_right fuel more)
  have hSecond := run_mono hMore (Nat.le_add_left more fuel)
  exact Option.some.inj (hFirst.symm.trans hSecond)

/- A result is that of a state the loop comes to. -/
theorem comes_of_run
    {fuel : Nat}
    {w : ω}
    (hRun : run body fuel a = some w) :
    ∃ b, Comes body a b ∧ body b = .inr w := by
  induction fuel generalizing a with
  | zero => cases hRun
  | succ fuel ih =>
      unfold run at hRun
      cases hBody : body a with
      | inl b =>
          rw [hBody] at hRun
          rcases ih hRun with ⟨c, hComes, hEnd⟩
          exact ⟨c, hComes.head hBody, hEnd⟩
      | inr v =>
          rw [hBody] at hRun
          cases hRun
          exact ⟨a, Comes.refl a, hBody⟩

/- The loop comes to the end of no other state. -/
theorem run_of_comes
    {fuel : Nat}
    {a b : α}
    {v w : ω}
    (hRun : run body fuel a = some v)
    (hComes : Comes body a b)
    (hEnd : body b = .inr w) :
    v = w := by
  induction fuel generalizing a with
  | zero => cases hRun
  | succ fuel ih =>
      unfold run at hRun
      rcases Relation.ReflTransGen.cases_head hComes with
        hSame | ⟨c, hTurn, hRest⟩
      · subst hSame
        rw [hEnd] at hRun
        cases hRun
        rfl
      · rw [hTurn] at hRun
        exact ih hRun hRest

/- A loop whose every turn goes on has no result. -/
theorem run_none
    (hOn : ∀ a, P a → ∃ b, body a = .inl b ∧ P b)
    {a : α}
    (hStart : P a)
    (fuel : Nat) :
    run body fuel a = none := by
  induction fuel generalizing a with
  | zero => rfl
  | succ fuel ih =>
      rcases hOn a hStart with ⟨b, hTurn, hNext⟩
      unfold run
      rw [hTurn]
      exact ih hNext

/- The loop ends, with a result of some kind. -/
def Ends
    (body : α → α ⊕ ω)
    (Q : ω → Prop)
    (a : α) : Prop :=
  ∃ fuel w, run body fuel a = some w ∧ Q w

variable {Q : ω → Prop}

theorem Ends.turn
    {a b : α}
    (hTurn : body a = .inl b)
    (hEnds : Ends body Q b) :
    Ends body Q a := by
  rcases hEnds with ⟨fuel, w, hRun, hKind⟩
  refine ⟨fuel + 1, w, ?_, hKind⟩
  unfold run
  rw [hTurn]
  exact hRun

theorem Ends.mono
    {P : ω → Prop}
    (hEnds : Ends body Q a)
    (hMono : ∀ w, Q w → P w) :
    Ends body P a := by
  rcases hEnds with ⟨fuel, w, hRun, hKind⟩
  exact ⟨fuel, w, hRun, hMono w hKind⟩

theorem Comes.ends
    {a b : α}
    (hComes : Comes body a b)
    (hEnds : Ends body Q b) :
    Ends body Q a := by
  induction hComes using Relation.ReflTransGen.head_induction_on
  with
  | refl => exact hEnds
  | head hTurn _ ih => exact ih.turn hTurn

theorem Ends.done
    {w : ω}
    (hEnd : body a = .inr w)
    (hKind : Q w) :
    Ends body Q a := by
  refine ⟨1, w, ?_, hKind⟩
  unfold run
  rw [hEnd]

/-
  A loop that keeps a property ends if a rank falls in every
  turn, with a result that fits the state where it began.
-/
theorem ends_of_wellFounded
    {β : Type}
    [LT β]
    [WellFoundedLT β]
    {P : α → Prop}
    {R : α → ω → Prop}
    (rank : α → β)
    (hTurn :
      ∀ a b, P a → body a = .inl b →
        P b ∧ rank b < rank a ∧ ∀ w, R b w → R a w)
    (hEnd : ∀ a w, P a → body a = .inr w → R a w)
    {a : α}
    (hStart : P a) :
    Ends body (R a) a := by
  have hFalls : WellFounded fun b a : α => rank b < rank a :=
    InvImage.wf rank wellFounded_lt
  induction a using hFalls.induction with
  | _ a ih =>
      cases hBody : body a with
      | inl b =>
          rcases hTurn a b hStart hBody with
            ⟨hKeeps, hLess, hBack⟩
          have hRest := ih b hLess hKeeps
          exact .turn hBody (hRest.mono hBack)
      | inr w => exact .done hBody (hEnd a w hStart hBody)

/- The same for a number that falls. -/
theorem ends_of_rank
    {R : α → ω → Prop}
    (rank : α → Nat)
    (hTurn :
      ∀ a b, P a → body a = .inl b →
        P b ∧ rank b < rank a ∧ ∀ w, R b w → R a w)
    (hEnd : ∀ a w, P a → body a = .inr w → R a w)
    {a : α}
    (hStart : P a) :
    Ends body (R a) a :=
  ends_of_wellFounded rank hTurn hEnd hStart

end Loop
