import Mathlib

/-
  Search trees whose order is only given by where to go from a
  node.

  Main declarations:
    * `SearchTree.search` and `SearchTree.insert`
    * `SearchTree.Cut`
    * `SearchTree.search_none` and `SearchTree.insert_spec`
    * `SearchTree.insert_ordered`
    * `SearchTree.insert_sameWay`
-/

----------
-- Trees
----------

inductive SearchTree (α : Type) where
  | leaf
  | node (l : SearchTree α) (a : α) (r : SearchTree α)
deriving Repr

namespace SearchTree

variable {α : Type}

/- The values from left to right. -/
def toList : SearchTree α → List α
  | leaf => []
  | node l a r => l.toList ++ a :: r.toList

/- `lt` goes to the left of a node and `gt` to its right. -/
def search
    (dir : α → Ordering) : SearchTree α → Option α
  | leaf => none
  | node l a r =>
      match dir a with
      | .lt => search dir l
      | .gt => search dir r
      | .eq => some a

/- A new value at the end of its path, if no node is met. -/
def insert
    (dir : α → Ordering)
    (x : α) : SearchTree α → Option (SearchTree α)
  | leaf => some (node leaf x leaf)
  | node l a r =>
      match dir a with
      | .lt => (insert dir x l).map fun l => node l a r
      | .gt => (insert dir x r).map fun r => node l a r
      | .eq => none

/- Two trees, one behind the other. -/
def glue
    (l : SearchTree α) : SearchTree α → SearchTree α
  | leaf => l
  | node l' a r => node (glue l l') a r

/-
  The values where a search turns right come first, those
  where it turns left last.
-/
def Cut
    (dir : α → Ordering)
    (t : SearchTree α) : Prop :=
  t.toList.Pairwise fun a b =>
    (dir a = .lt → dir b = .lt) ∧ (dir b = .gt → dir a = .gt)

/- A tree that changes its shape only. -/
structure Rebalance (α : Type) where
  run : SearchTree α → SearchTree α
  toList_run : ∀ t, (run t).toList = t.toList

----------
-- Searches
----------

section Search

variable {dir : α → Ordering} {t : SearchTree α}

theorem Cut.parts
    {l r : SearchTree α}
    {a : α}
    (hCut : Cut dir (node l a r)) :
    Cut dir l ∧ Cut dir r ∧
      (dir a = .lt → ∀ b ∈ r.toList, dir b = .lt) ∧
      (dir a = .gt → ∀ b ∈ l.toList, dir b = .gt) := by
  unfold Cut at hCut
  rw [toList, List.pairwise_append, List.pairwise_cons]
    at hCut
  rcases hCut with ⟨hLeft, ⟨hHere, hRight⟩, hAcross⟩
  exact ⟨hLeft, hRight, fun hLt b hb => (hHere b hb).1 hLt,
    fun hGt b hb =>
      (hAcross b hb a List.mem_cons_self).2 hGt⟩

theorem search_some
    {a : α}
    (hFound : t.search dir = some a) :
    a ∈ t.toList ∧ dir a = .eq := by
  induction t with
  | leaf => cases hFound
  | node l b r ihl ihr =>
      unfold search at hFound
      unfold toList
      cases hDir : dir b with
      | lt =>
          rw [hDir] at hFound
          have hIn := ihl hFound
          exact ⟨List.mem_append_left _ hIn.1, hIn.2⟩
      | gt =>
          rw [hDir] at hFound
          have hIn := ihr hFound
          exact ⟨List.mem_append_right _
            (List.mem_cons_of_mem _ hIn.1), hIn.2⟩
      | eq =>
          rw [hDir] at hFound
          cases hFound
          exact ⟨List.mem_append_right _
            List.mem_cons_self, hDir⟩

theorem toList_glue
    (l r : SearchTree α) :
    (glue l r).toList = l.toList ++ r.toList := by
  induction r with
  | leaf => simp [glue, toList]
  | node r' a r ih _ => simp [glue, toList, ih]

/- A search that fails has missed nothing. -/
theorem search_none
    (hCut : Cut dir t)
    (hNone : t.search dir = none) :
    ∀ a ∈ t.toList, dir a ≠ .eq := by
  induction t with
  | leaf =>
      intro a ha
      cases ha
  | node l b r ihl ihr =>
      obtain ⟨hLeft, hRight, hLt, hGt⟩ := hCut.parts
      unfold search at hNone
      intro a ha
      rw [toList, List.mem_append, List.mem_cons] at ha
      cases hDir : dir b with
      | lt =>
          rw [hDir] at hNone
          rcases ha with ha | rfl | ha
          · exact ihl hLeft hNone a ha
          · simp [hDir]
          · simp [hLt hDir a ha]
      | gt =>
          rw [hDir] at hNone
          rcases ha with ha | rfl | ha
          · simp [hGt hDir a ha]
          · simp [hDir]
          · exact ihr hRight hNone a ha
      | eq =>
          rw [hDir] at hNone
          cases hNone

/-
  An insertion goes the way of the search: it meets no node if
  the search met none.
-/
theorem insert_of_search
    (x : α)
    (hNone : t.search dir = none) :
    ∃ t', t.insert dir x = some t' := by
  induction t with
  | leaf => exact ⟨_, rfl⟩
  | node l a r ihl ihr =>
      unfold search at hNone
      unfold insert
      cases hDir : dir a with
      | lt =>
          rw [hDir] at hNone
          obtain ⟨l', hInsert⟩ := ihl hNone
          exact ⟨node l' a r, by simp [hInsert]⟩
      | gt =>
          rw [hDir] at hNone
          obtain ⟨r', hInsert⟩ := ihr hNone
          exact ⟨node l a r', by simp [hInsert]⟩
      | eq =>
          rw [hDir] at hNone
          cases hNone

/- The new value stands between those on its two sides. -/
theorem insert_spec
    {x : α}
    {t' : SearchTree α}
    (hCut : Cut dir t)
    (hInsert : t.insert dir x = some t') :
    ∃ before behind,
      t.toList = before ++ behind ∧
      t'.toList = before ++ x :: behind ∧
      (∀ a ∈ before, dir a = .gt) ∧
      (∀ a ∈ behind, dir a = .lt) := by
  induction t generalizing t' with
  | leaf =>
      cases hInsert
      exact ⟨[], [], rfl, rfl, by simp, by simp⟩
  | node l a r ihl ihr =>
      obtain ⟨hLeft, hRight, hLt, hGt⟩ := hCut.parts
      unfold insert at hInsert
      cases hDir : dir a with
      | lt =>
          rw [hDir] at hInsert
          obtain ⟨l', hSome, rfl⟩ :=
            Option.map_eq_some_iff.mp hInsert
          obtain ⟨before, behind, hOld, hNew, hGts, hLts⟩ :=
            ihl hLeft hSome
          refine ⟨before, behind ++ a :: r.toList,
            by simp [toList, hOld], by simp [toList, hNew],
            hGts, ?_⟩
          intro b hb
          rw [List.mem_append, List.mem_cons] at hb
          rcases hb with hb | rfl | hb
          · exact hLts b hb
          · exact hDir
          · exact hLt hDir b hb
      | gt =>
          rw [hDir] at hInsert
          obtain ⟨r', hSome, rfl⟩ :=
            Option.map_eq_some_iff.mp hInsert
          obtain ⟨before, behind, hOld, hNew, hGts, hLts⟩ :=
            ihr hRight hSome
          refine ⟨l.toList ++ a :: before, behind,
            by simp [toList, hOld], by simp [toList, hNew],
            ?_, hLts⟩
          intro b hb
          rw [List.mem_append, List.mem_cons] at hb
          rcases hb with hb | rfl | hb
          · exact hGt hDir b hb
          · exact hDir
          · exact hGts b hb
      | eq =>
          rw [hDir] at hInsert
          cases hInsert

/-
  An insertion fails when a node is met, and else keeps an
  order that agrees with where the search turns.
-/
theorem insert_ordered
    {R : α → α → Prop}
    {x : α}
    (hCut : Cut dir t)
    (hOrder : t.toList.Pairwise R)
    (hBefore : ∀ a ∈ t.toList, dir a = .gt → R a x)
    (hBehind : ∀ a ∈ t.toList, dir a = .lt → R x a) :
    match t.insert dir x with
    | none => ∃ a ∈ t.toList, dir a = .eq
    | some t' =>
        (∀ a ∈ t.toList, dir a ≠ .eq) ∧
          t'.toList.Perm (x :: t.toList) ∧
          t'.toList.Pairwise R := by
  split
  case h_1 hInsert =>
    cases hSearch : t.search dir with
    | none =>
        obtain ⟨t', hSome⟩ := insert_of_search x hSearch
        rw [hInsert] at hSome
        cases hSome
    | some a => exact ⟨a, search_some hSearch⟩
  case h_2 t' hInsert =>
    obtain ⟨before, behind, hOld, hNew, hGt, hLt⟩ :=
      insert_spec hCut hInsert
    rw [hOld] at hOrder hBefore hBehind
    have hSides := List.pairwise_append.mp hOrder
    rw [hOld, hNew]
    refine ⟨?_, List.perm_middle, ?_⟩
    · intro a ha
      rcases List.mem_append.mp ha with ha | ha
      · simp [hGt a ha]
      · simp [hLt a ha]
    · refine List.pairwise_append.mpr ⟨hSides.1,
        List.pairwise_cons.mpr ⟨?_, hSides.2.1⟩, ?_⟩
      · exact fun b hb => hBehind b
          (List.mem_append_right _ hb) (hLt b hb)
      · intro a ha b hb
        rcases List.mem_cons.mp hb with rfl | hb
        · exact hBefore a (List.mem_append_left _ ha) (hGt a ha)
        · exact hSides.2.2 a ha b hb

end Search

----------
-- Two Ways Down
----------

/- Two searches turn alike at every node they meet. -/
def SameWay
    (dir dir' : α → Ordering) : SearchTree α → Prop
  | leaf => True
  | node l a r =>
      dir a = dir' a ∧
        match dir a with
        | .lt => SameWay dir dir' l
        | .gt => SameWay dir dir' r
        | .eq => True

theorem insert_sameWay
    {dir dir' : α → Ordering}
    (x : α)
    (t : SearchTree α)
    (hWay : SameWay dir dir' t) :
    t.insert dir x = t.insert dir' x := by
  induction t with
  | leaf => rfl
  | node l a r ihl ihr =>
      rcases hWay with ⟨hHere, hBelow⟩
      unfold insert
      rw [← hHere]
      cases hDir : dir a with
      | lt =>
          rw [hDir] at hBelow
          dsimp only
          rw [ihl hBelow]
      | gt =>
          rw [hDir] at hBelow
          dsimp only
          rw [ihr hBelow]
      | eq => rfl

end SearchTree
