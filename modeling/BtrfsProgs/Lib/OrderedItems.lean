import Mathlib

/-
  Lists of keyed items in ascending order of their keys.

  Main declarations:
    * `Ascending`
    * `get`, `put` and `erase`
    * `rank` and `getElem?_rank`
    * `lastUpTo`
-/

----------
-- Items in Key Order
----------

namespace BtrfsProgs

namespace OrderedItems

variable {K V : Type}
variable [LinearOrder K]

/- Every key is above the keys before it. -/
def Ascending
    (items : List (K × V)) : Prop :=
  items.Pairwise fun a b => a.1 < b.1

/- The value of a key. -/
def get
    (k : K) :
    List (K × V) → Option V
  | [] => none
  | item :: items =>
      if item.1 = k then some item.2 else get k items

/- Set the value of a key. -/
def put
    (k : K)
    (v : V) :
    List (K × V) → List (K × V)
  | [] => [(k, v)]
  | item :: items =>
      if item.1 < k then item :: put k v items
      else if item.1 = k then (k, v) :: items
      else (k, v) :: item :: items

/- Take a key out. -/
def erase
    (k : K)
    (items : List (K × V)) : List (K × V) :=
  items.filter fun item => item.1 ≠ k

/- How many keys are below. -/
def rank
    (k : K)
    (items : List (K × V)) : Nat :=
  (items.takeWhile fun item => item.1 < k).length

section Lists

variable {items : List (K × V)}
variable {item : K × V}
variable {k k' : K}
variable {v : V}

theorem ascending_cons :
    Ascending (item :: items) ↔
      (∀ other ∈ items, item.1 < other.1) ∧
        Ascending items :=
  List.pairwise_cons

theorem get_nil :
    get k ([] : List (K × V)) = none :=
  rfl

theorem get_cons_self :
    get item.1 (item :: items) = some item.2 :=
  if_pos rfl

theorem get_cons_of_ne
    (hNe : item.1 ≠ k) :
    get k (item :: items) = get k items :=
  if_neg hNe

theorem mem_of_get
    (hGet : get k items = some v) :
    (k, v) ∈ items := by
  induction items with
  | nil => cases hGet
  | cons item items ih =>
      by_cases hKey : item.1 = k
      · subst hKey
        rw [get_cons_self] at hGet
        cases hGet
        exact List.mem_cons_self
      · rw [get_cons_of_ne hKey] at hGet
        exact List.mem_cons_of_mem _ (ih hGet)

theorem Ascending.get_of_mem
    (hAsc : Ascending items)
    (hMem : (k, v) ∈ items) :
    get k items = some v := by
  induction items with
  | nil => cases hMem
  | cons item items ih =>
      rcases ascending_cons.mp hAsc with ⟨hFirst, hRest⟩
      rcases List.mem_cons.mp hMem with rfl | hMem
      · exact get_cons_self
      · rw [get_cons_of_ne (hFirst _ hMem).ne]
        exact ih hRest hMem

theorem get_eq_none_iff :
    get k items = none ↔ ∀ item ∈ items, item.1 ≠ k := by
  induction items with
  | nil => simp [get_nil]
  | cons item items ih =>
      by_cases hKey : item.1 = k
      · subst hKey
        simp [get_cons_self]
      · rw [get_cons_of_ne hKey, ih, List.forall_mem_cons]
        simp [hKey]

----------
-- Setting a Value
----------

theorem mem_put
    (hMem : item ∈ put k v items) :
    item = (k, v) ∨ item ∈ items := by
  induction items with
  | nil => exact Or.inl (List.mem_singleton.mp hMem)
  | cons first items ih =>
      unfold put at hMem
      split_ifs at hMem with hLt hEq
      · rcases List.mem_cons.mp hMem with rfl | hMem
        · exact Or.inr List.mem_cons_self
        · rcases ih hMem with h | h
          · exact Or.inl h
          · exact Or.inr (List.mem_cons_of_mem _ h)
      · rcases List.mem_cons.mp hMem with h | h
        · exact Or.inl h
        · exact Or.inr (List.mem_cons_of_mem _ h)
      · rcases List.mem_cons.mp hMem with h | h
        · exact Or.inl h
        · exact Or.inr h

theorem Ascending.put
    (hAsc : Ascending items)
    (k : K)
    (v : V) :
    Ascending (put k v items) := by
  induction items with
  | nil => exact List.pairwise_singleton _ _
  | cons first items ih =>
      rcases ascending_cons.mp hAsc with ⟨hFirst, hRest⟩
      unfold OrderedItems.put
      split_ifs with hLt hEq
      · refine ascending_cons.mpr ⟨?_, ih hRest⟩
        intro other hOther
        rcases mem_put hOther with rfl | hOther
        · exact hLt
        · exact hFirst other hOther
      · subst hEq
        exact ascending_cons.mpr ⟨hFirst, hRest⟩
      · have hGt : k < first.1 :=
          lt_of_le_of_ne (not_lt.mp hLt) (Ne.symm hEq)
        refine ascending_cons.mpr ⟨?_, hAsc⟩
        intro other hOther
        rcases List.mem_cons.mp hOther with rfl | hOther
        · exact hGt
        · exact lt_trans hGt (hFirst other hOther)

theorem get_put_self
    (k : K)
    (v : V)
    (items : List (K × V)) :
    get k (put k v items) = some v := by
  induction items with
  | nil => exact if_pos rfl
  | cons first items ih =>
      unfold put
      split_ifs with hLt hEq
      · rw [get_cons_of_ne hLt.ne]
        exact ih
      · exact if_pos rfl
      · exact if_pos rfl

theorem get_put_of_ne
    (hNe : k' ≠ k)
    (v : V)
    (items : List (K × V)) :
    get k' (put k v items) = get k' items := by
  induction items with
  | nil => exact if_neg (Ne.symm hNe)
  | cons first items ih =>
      unfold put
      split_ifs with hLt hEq
      · unfold get
        rw [ih]
      · subst hEq
        rw [get_cons_of_ne hNe.symm]
        exact if_neg (Ne.symm hNe)
      · exact if_neg (Ne.symm hNe)

----------
-- Taking a Key Out
----------

theorem mem_erase :
    item ∈ erase k items ↔ item ∈ items ∧ item.1 ≠ k := by
  unfold erase
  rw [List.mem_filter, decide_eq_true_eq]

theorem Ascending.erase
    (hAsc : Ascending items)
    (k : K) :
    Ascending (erase k items) :=
  List.Pairwise.filter _ hAsc

theorem get_erase_self
    (k : K)
    (items : List (K × V)) :
    get k (erase k items) = none := by
  apply get_eq_none_iff.mpr
  intro item hItem
  exact (mem_erase.mp hItem).2

theorem get_erase_of_ne
    (hNe : k' ≠ k)
    (items : List (K × V)) :
    get k' (erase k items) = get k' items := by
  unfold erase
  induction items with
  | nil => rfl
  | cons item items ih =>
      by_cases hKey : item.1 = k
      · rw [List.filter_cons_of_neg (by simpa using hKey), ih]
        rw [get_cons_of_ne (by rw [hKey]; exact hNe.symm)]
      · rw [List.filter_cons_of_pos (by simpa using hKey)]
        unfold get
        rw [ih]

/- Without the key there is what was in front and behind. -/
theorem Ascending.erase_split
    {front after : List (K × V)}
    (hAsc : Ascending (front ++ item :: after)) :
    OrderedItems.erase item.1 (front ++ item :: after) =
      front ++ after := by
  rcases List.pairwise_append.mp hAsc with
    ⟨_, hTail, hCross⟩
  rcases ascending_cons.mp hTail with ⟨hAfter, _⟩
  unfold OrderedItems.erase
  rw [List.filter_append,
    List.filter_cons_of_neg (by simp)]
  congr 1
  · apply List.filter_eq_self.mpr
    intro other hOther
    have hLess := hCross other hOther item List.mem_cons_self
    simpa using hLess.ne
  · apply List.filter_eq_self.mpr
    intro other hOther
    simpa using (hAfter other hOther).ne'

----------
-- The Last Item up to a Key
----------

/- The last item whose key is not above. -/
def lastUpTo
    (k : K)
    (items : List (K × V)) : Option (K × V) :=
  (items.takeWhile fun item => item.1 ≤ k).getLast?

/- In ascending order they are those in front. -/
theorem Ascending.mem_takeWhile_le
    (hAsc : Ascending items) :
    item ∈ items.takeWhile (fun i => i.1 ≤ k) ↔
      item ∈ items ∧ item.1 ≤ k := by
  induction items with
  | nil => simp
  | cons first items ih =>
      rcases ascending_cons.mp hAsc with ⟨hAll, hRest⟩
      by_cases hFirst : first.1 ≤ k
      · rw [List.takeWhile_cons_of_pos (by simpa using hFirst),
          List.mem_cons, List.mem_cons, ih hRest]
        constructor
        · intro hMem
          rcases hMem with rfl | ⟨hIn, hLe⟩
          · exact ⟨Or.inl rfl, hFirst⟩
          · exact ⟨Or.inr hIn, hLe⟩
        · intro hMem
          rcases hMem with ⟨hHead | hIn, hLe⟩
          · exact Or.inl hHead
          · exact Or.inr ⟨hIn, hLe⟩
      · rw [List.takeWhile_cons_of_neg (by simpa using hFirst)]
        constructor
        · intro hMem
          cases hMem
        · intro hMem
          rcases hMem with ⟨hIn, hLe⟩
          rcases List.mem_cons.mp hIn with hHead | hIn
          · exact absurd (hHead ▸ hLe) hFirst
          · exact absurd ((hAll item hIn).le.trans hLe) hFirst

theorem Ascending.lastUpTo_none
    (hAsc : Ascending items)
    (hLast : lastUpTo k items = none) :
    ∀ item ∈ items, ¬ item.1 ≤ k := by
  intro item hItem hLe
  have hEmpty := List.getLast?_eq_none_iff.mp hLast
  have hMem := hAsc.mem_takeWhile_le.mpr ⟨hItem, hLe⟩
  rw [hEmpty] at hMem
  cases hMem

theorem Ascending.lastUpTo_some
    (hAsc : Ascending items)
    (hLast : lastUpTo k items = some item) :
    item ∈ items ∧ item.1 ≤ k ∧
      ∀ other ∈ items, other.1 ≤ k → other.1 ≤ item.1 := by
  have hMem := List.mem_of_getLast? hLast
  rcases hAsc.mem_takeWhile_le.mp hMem with ⟨hIn, hLe⟩
  refine ⟨hIn, hLe, ?_⟩
  intro other hOther hOtherLe
  have hAmong := hAsc.mem_takeWhile_le.mpr ⟨hOther, hOtherLe⟩
  rcases List.getLast?_eq_some_iff.mp hLast with
    ⟨front, hFront⟩
  have hOrder : Ascending (front ++ [item]) := by
    rw [← hFront]
    exact hAsc.sublist (List.takeWhile_sublist _)
  rw [hFront] at hAmong
  rcases List.mem_append.mp hAmong with hEarlier | hSame
  · exact ((List.pairwise_append.mp hOrder).2.2 other hEarlier
      item (List.mem_singleton_self _)).le
  · rw [List.mem_singleton.mp hSame]

----------
-- Places
----------

theorem rank_nil :
    rank k ([] : List (K × V)) = 0 :=
  rfl

theorem rank_cons_of_lt
    (hLt : item.1 < k) :
    rank k (item :: items) = rank k items + 1 := by
  unfold rank
  rw [List.takeWhile_cons_of_pos (by simpa using hLt),
    List.length_cons]

theorem rank_cons_of_le
    (hLe : k ≤ item.1) :
    rank k (item :: items) = 0 := by
  unfold rank
  rw [List.takeWhile_cons_of_neg (by simpa using hLe),
    List.length_nil]

theorem rank_le_length
    (k : K)
    (items : List (K × V)) :
    rank k items ≤ items.length :=
  (List.takeWhile_prefix _).length_le

/- The keys before the rank are below. -/
theorem lt_of_lt_rank
    {i : Nat}
    (hLt : i < rank k items)
    (hItem : items[i]? = some item) :
    item.1 < k := by
  induction items generalizing i with
  | nil => simp at hItem
  | cons first items ih =>
      by_cases hFirst : first.1 < k
      · cases i with
        | zero =>
            rw [List.getElem?_cons_zero] at hItem
            cases hItem
            exact hFirst
        | succ i =>
            rw [rank_cons_of_lt hFirst] at hLt
            exact ih (by omega) hItem
      · rw [rank_cons_of_le (not_lt.mp hFirst)] at hLt
        omega

/- The keys from the rank on are not below. -/
theorem Ascending.le_of_rank_le
    (hAsc : Ascending items)
    {i : Nat}
    (hLe : rank k items ≤ i)
    (hItem : items[i]? = some item) :
    k ≤ item.1 := by
  induction items generalizing i with
  | nil => simp at hItem
  | cons first items ih =>
      rcases ascending_cons.mp hAsc with ⟨hAll, hRest⟩
      by_cases hFirst : first.1 < k
      · rw [rank_cons_of_lt hFirst] at hLe
        obtain ⟨i, rfl⟩ : ∃ j, i = j + 1 := ⟨i - 1, by omega⟩
        exact ih hRest (by omega) hItem
      · cases i with
        | zero =>
            rw [List.getElem?_cons_zero] at hItem
            cases hItem
            exact not_lt.mp hFirst
        | succ i =>
            rw [List.getElem?_cons_succ] at hItem
            have hMem := List.mem_of_getElem? hItem
            exact le_trans (not_lt.mp hFirst)
              (hAll item hMem).le

/- A key that is there stands at its rank. -/
theorem Ascending.getElem?_rank
    (hAsc : Ascending items)
    (hGet : get k items = some v) :
    items[rank k items]? = some (k, v) := by
  induction items with
  | nil => cases hGet
  | cons first items ih =>
      rcases ascending_cons.mp hAsc with ⟨hAll, hRest⟩
      by_cases hFirst : first.1 < k
      · rw [rank_cons_of_lt hFirst, List.getElem?_cons_succ]
        rw [get_cons_of_ne hFirst.ne] at hGet
        exact ih hRest hGet
      · rw [rank_cons_of_le (not_lt.mp hFirst),
          List.getElem?_cons_zero]
        by_cases hEq : first.1 = k
        · subst hEq
          rw [get_cons_self] at hGet
          cases hGet
          rfl
        · rw [get_cons_of_ne hEq] at hGet
          exact absurd (hAll _ (mem_of_get hGet)) hFirst

/- A key that is there counts for every higher key. -/
theorem Ascending.rank_lt_rank
    (hAsc : Ascending items)
    (hGet : (get k items).isSome)
    (hLt : k < k') :
    rank k items < rank k' items := by
  rcases Option.isSome_iff_exists.mp hGet with ⟨v, hGet⟩
  by_contra hNot
  have hLe :=
    hAsc.le_of_rank_le (not_lt.mp hNot) (hAsc.getElem?_rank hGet)
  exact absurd hLt (not_lt.mpr hLe)

/- The items from the rank on. -/
theorem Ascending.mem_drop_rank
    (hAsc : Ascending items) :
    item ∈ items.drop (rank k items) ↔
      item ∈ items ∧ k ≤ item.1 := by
  constructor
  · intro hMem
    rcases List.getElem?_of_mem hMem with ⟨i, hItem⟩
    rw [List.getElem?_drop] at hItem
    exact ⟨List.mem_of_getElem? hItem,
      hAsc.le_of_rank_le (Nat.le_add_right _ _) hItem⟩
  · rintro ⟨hMem, hLe⟩
    rcases List.getElem?_of_mem hMem with ⟨i, hItem⟩
    have hRank : rank k items ≤ i := by
      by_contra hNot
      exact absurd (lt_of_lt_rank (not_le.mp hNot) hItem)
        (not_lt.mpr hLe)
    apply List.mem_of_getElem? (i := i - rank k items)
    rw [List.getElem?_drop, Nat.add_sub_cancel' hRank]
    exact hItem

end Lists

end OrderedItems

end BtrfsProgs
