import Mathlib

/-
  Bubble sort by a numeric key, with the flag that ends the
  outer loop.

  Main declarations:
    * `BubbleSort.pass` and `BubbleSort.sort`
    * `BubbleSort.sort_spec`
    * `BubbleSort.sort_eq`
-/

----------
-- Passes
----------

namespace BubbleSort

variable {α : Type}
variable (key : α → Nat)

/-
  The rest of a pass that has carried `a` to the front of
  the list.  The flag tells whether two neighbours were
  exchanged.
-/
def carry (a : α) : List α → Bool × List α
  | [] => (false, [a])
  | b :: rest =>
      if key b < key a then
        (true, b :: (carry a rest).2)
      else
        ((carry b rest).1, a :: (carry b rest).2)

/- One pass over the list. -/
def pass : List α → Bool × List α
  | [] => (false, [])
  | a :: rest => carry key a rest

/- Passes until one exchanges nothing, at most `fuel`. -/
def sort : Nat → List α → Option (List α)
  | 0, _ => none
  | fuel + 1, l =>
      if (pass key l).1 then
        sort fuel (pass key l).2
      else
        some (pass key l).2

/- Ascending by key. -/
def Sorted (l : List α) : Prop :=
  l.Pairwise fun a b => key a ≤ key b

variable {key}

theorem carry_perm
    (key : α → Nat)
    (a : α)
    (l : List α) :
    (carry key a l).2.Perm (a :: l) := by
  induction l generalizing a with
  | nil => exact List.Perm.refl _
  | cons b rest ih =>
      unfold carry
      split
      · exact ((ih a).cons b).trans
          (List.Perm.swap a b rest)
      · exact (ih b).cons a

/- A pass without an exchange saw an ascending list. -/
theorem sorted_of_carry
    (a : α)
    (l : List α)
    (hFlag : (carry key a l).1 = false) :
    (carry key a l).2 = a :: l ∧ Sorted key (a :: l) := by
  induction l generalizing a with
  | nil => exact ⟨rfl, List.pairwise_singleton _ a⟩
  | cons b rest ih =>
      unfold carry at hFlag ⊢
      by_cases hSwap : key b < key a
      · simp [hSwap] at hFlag
      · simp only [hSwap, if_false] at hFlag ⊢
        rcases ih b hFlag with ⟨hSame, hSorted⟩
        refine ⟨by rw [hSame], ?_⟩
        apply List.pairwise_cons.mpr
        refine ⟨?_, hSorted⟩
        intro c hc
        rcases List.mem_cons.mp hc with rfl | h
        · omega
        · have := (List.pairwise_cons.mp hSorted).1 c h
          omega

/- A pass leaves an ascending list as it is. -/
theorem carry_of_sorted
    (a : α)
    (l : List α)
    (hSorted : Sorted key (a :: l)) :
    carry key a l = (false, a :: l) := by
  induction l generalizing a with
  | nil => rfl
  | cons b rest ih =>
      rcases List.pairwise_cons.mp hSorted with
        ⟨hHead, hTail⟩
      have hSwap := hHead b List.mem_cons_self
      unfold carry
      rw [if_neg (by omega), ih b hTail]

theorem pass_of_sorted
    (l : List α)
    (hSorted : Sorted key l) :
    pass key l = (false, l) := by
  cases l with
  | nil => rfl
  | cons a rest => exact carry_of_sorted a rest hSorted

----------
-- The Sorted Suffix
----------

/- A pass ends with an element no other exceeds. -/
theorem carry_eq_concat
    (key : α → Nat)
    (a : α)
    (l : List α) :
    ∃ init last,
      (carry key a l).2 = init ++ [last] ∧
      key a ≤ key last ∧
      ∀ b ∈ init, key b ≤ key last := by
  induction l generalizing a with
  | nil => exact ⟨[], a, rfl, Nat.le_refl _, by simp⟩
  | cons b rest ih =>
      unfold carry
      by_cases hSwap : key b < key a
      · rcases ih a with ⟨init, last, hPass, hLast, hMax⟩
        refine ⟨b :: init, last, ?_, hLast, ?_⟩
        · simp [hSwap, hPass]
        · intro c hc
          rcases List.mem_cons.mp hc with rfl | h
          · omega
          · exact hMax c h
      · rcases ih b with ⟨init, last, hPass, hLast, hMax⟩
        refine ⟨a :: init, last, ?_, by omega, ?_⟩
        · simp [hSwap, hPass]
        · intro c hc
          rcases List.mem_cons.mp hc with rfl | h
          · omega
          · exact hMax c h

/- A pass does not touch a sorted suffix of large elements. -/
theorem carry_append
    (a : α)
    (l s : List α)
    (hSorted : Sorted key s)
    (hLarge : ∀ b ∈ a :: l, ∀ c ∈ s, key b ≤ key c) :
    (carry key a (l ++ s)).2 =
      (carry key a l).2 ++ s := by
  induction l generalizing a with
  | nil =>
      have hCons : Sorted key (a :: s) :=
        List.pairwise_cons.mpr
          ⟨hLarge a List.mem_cons_self, hSorted⟩
      rw [List.nil_append, carry_of_sorted a s hCons]
      rfl
  | cons b rest ih =>
      rw [List.cons_append, carry, carry]
      by_cases hSwap : key b < key a
      · have hRest := ih a (by
          intro c hc
          apply hLarge c
          rcases List.mem_cons.mp hc with rfl | h
          · exact List.mem_cons_self
          · exact List.mem_cons_of_mem _
              (List.mem_cons_of_mem _ h))
        simp [hSwap, hRest]
      · have hRest := ih b (by
          intro c hc
          exact hLarge c (List.mem_cons_of_mem _ hc))
        simp [hSwap, hRest]

/-
  Sorting a list whose suffix `s` is in place takes at most
  one pass for every element in front of it and one more, by
  induction on the length in front.
-/
theorem sort_append
    (n : Nat)
    (l s : List α)
    (hLength : l.length ≤ n)
    (hSorted : Sorted key s)
    (hLarge : ∀ a ∈ l, ∀ b ∈ s, key a ≤ key b) :
    ∃ result,
      sort key (n + 1) (l ++ s) = some result ∧
      result.Perm (l ++ s) ∧ Sorted key result := by
  induction n generalizing l s with
  | zero =>
      have hNil : l = [] :=
        List.length_eq_zero_iff.mp (by omega)
      subst hNil
      refine ⟨s, ?_, List.Perm.refl _, hSorted⟩
      simp [sort, pass_of_sorted s hSorted]
  | succ n ih =>
      cases l with
      | nil =>
          refine ⟨s, ?_, List.Perm.refl _, hSorted⟩
          simp [sort, pass_of_sorted s hSorted]
      | cons a rest =>
          rw [sort]
          change ∃ result,
            (if (carry key a (rest ++ s)).1 then
              sort key (n + 1) (carry key a (rest ++ s)).2
            else some (carry key a (rest ++ s)).2) =
              some result ∧ _
          cases hFlag : (carry key a (rest ++ s)).1 with
          | false =>
              rcases sorted_of_carry a (rest ++ s) hFlag with
                ⟨hSame, hDone⟩
              rw [hSame]
              exact ⟨a :: (rest ++ s), by simp,
                List.Perm.refl _, hDone⟩
          | true =>
              rcases carry_eq_concat key a rest with
                ⟨init, last, hPass, hLast, hMax⟩
              have hPerm := carry_perm key a rest
              rw [hPass] at hPerm
              have hMem : ∀ b, b ∈ init ++ [last] ↔
                  b ∈ a :: rest :=
                fun b => hPerm.mem_iff
              have hShort : init.length ≤ n := by
                have hLen := hPerm.length_eq
                simp only [List.length_append,
                  List.length_cons, List.length_nil]
                  at hLen hLength
                omega
              have hSuffix : Sorted key (last :: s) :=
                List.pairwise_cons.mpr
                  ⟨hLarge last ((hMem last).mp (by simp)),
                    hSorted⟩
              have hFront : ∀ b ∈ init, ∀ c ∈ last :: s,
                  key b ≤ key c := by
                intro b hb c hc
                rcases List.mem_cons.mp hc with rfl | h
                · exact hMax b hb
                · exact hLarge b
                    ((hMem b).mp (by simp [hb])) c h
              rcases ih init (last :: s) hShort hSuffix
                  hFront with
                ⟨result, hSort, hResult, hDone⟩
              refine ⟨result, ?_, ?_, hDone⟩
              · rw [carry_append a rest s hSorted hLarge,
                  hPass]
                simpa using hSort
              · have hWhole :
                    (init ++ last :: s).Perm
                      (a :: rest ++ s) := by
                  simpa using hPerm.append_right s
                exact hResult.trans hWhole

/- With enough passes the result is the sorted list. -/
theorem sort_spec
    (key : α → Nat)
    (l : List α) :
    ∃ result,
      sort key (l.length + 1) l = some result ∧
      result.Perm l ∧ Sorted key result := by
  rcases sort_append l.length l [] (Nat.le_refl _)
      List.Pairwise.nil (by simp) with
    ⟨result, hSort, hPerm, hSorted⟩
  exact ⟨result, by simpa using hSort,
    by simpa using hPerm, hSorted⟩

/-
  With distinct keys the result is determined: it is the
  strictly ascending rearrangement of the input.
-/
theorem sort_eq
    {l expected : List α}
    (hPerm : expected.Perm l)
    (hStrict : expected.Pairwise fun a b => key a < key b) :
    sort key (l.length + 1) l = some expected := by
  rcases sort_spec key l with
    ⟨result, hSort, hResult, hSorted⟩
  rw [hSort]
  have hSame : result.Perm expected :=
    hResult.trans hPerm.symm
  congr 1
  refine List.Perm.eq_of_pairwise ?_ hSorted
    (hStrict.imp fun h => Nat.le_of_lt h) hSame
  intro a b ha hb hab hba
  by_contra hNe
  have hDistinct :
      expected.Pairwise fun a b => key a ≠ key b :=
    hStrict.imp fun h => Nat.ne_of_lt h
  have : Std.Symm fun a b : α => key a ≠ key b :=
    ⟨fun _ _ h => h.symm⟩
  exact hDistinct.forall (hSame.mem_iff.mp ha) hb hNe
    (Nat.le_antisymm hab hba)

end BubbleSort
