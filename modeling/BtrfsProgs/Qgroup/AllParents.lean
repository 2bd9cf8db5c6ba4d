import BtrfsProgs.Lib.Loop
import BtrfsProgs.Lib.Worklist
import BtrfsProgs.Qgroup.Lookup

/-
  The filter for all parents of a qgroup, from `qgroup.c`.

  The qgroup with the smallest id leaves the tree in every
  turn. No parent is below its member, so that none of those
  that have left comes back.

  Main declarations:
    * `filterAllParentInsert` and `filterByAllParent`
    * `Decides`
    * `filterByAllParent_decides_iff`
-/

----------
-- The Function
----------

namespace BtrfsProgs

namespace Qgroup

/- `filter_all_parent_insert`; the tree is its ids in order. -/
def filterAllParentInsert
    (sortTree : List Nat)
    (bq : Nat) : List Nat :=
  match sortTree with
  | [] => [bq]
  | curr :: rest =>
      if bq < curr then bq :: curr :: rest
      else if bq > curr then
        curr :: filterAllParentInsert rest bq
      else curr :: rest

/- The walk of the parents; `none` when `bq` is one of them. -/
def insertParents
    (bq : Nat)
    (tree : List Nat) : List Nat → Option (List Nat)
  | [] => some tree
  | list :: rest =>
      if list = bq then none
      else insertParents bq (filterAllParentInsert tree list) rest

/-
  A turn of the loop. A list head of zeros is not empty, and
  its first entry is the null pointer: `none` is the crash.
-/
def filterTurn
    (ql : Lookup)
    (bq : Nat) : List Nat → List Nat ⊕ Option Bool
  | [] => .inr (some false)
  | n :: rest =>
      match (qgroupTreeSearch ql n).bind (·.qgroups) with
      | none => .inr none
      | some parents =>
          match insertParents bq (n :: rest) parents with
          | none => .inr (some true)
          | some tree => .inl (tree.erase n)

/- `filter_by_all_parent`, with a qgroup as its data. -/
def filterByAllParent
    (ql : Lookup)
    (bq qgroup : Nat)
    (fuel : Nat) : Option (Option Bool) :=
  if bq = qgroup then some (some true)
  else
    Loop.run (filterTurn ql bq) fuel
      (filterAllParentInsert [] qgroup)

/- The parents of a member. -/
def parentsOf
    (ql : Lookup)
    (member : Nat) : List Nat :=
  ((qgroupTreeSearch ql member).bind (·.qgroups)).getD []

/-
  The filter ends, and says whether `bq` is the qgroup or is
  reached from it.
-/
def Decides
    (ql : Lookup)
    (bq qgroup : Nat) : Prop :=
  ∃ fuel result,
    filterByAllParent ql bq qgroup fuel = some (some result) ∧
      (result = true ↔
        Worklist.Reaches (parentsOf ql) [qgroup] bq)

----------
-- The Tree
----------

section Tree

variable {tree : List Nat} {a b bq : Nat}

theorem mem_filterAllParentInsert :
    a ∈ filterAllParentInsert tree b ↔ a = b ∨ a ∈ tree := by
  induction tree with
  | nil => simp [filterAllParentInsert]
  | cons curr rest ih =>
      unfold filterAllParentInsert
      by_cases hLess : b < curr
      · rw [if_pos hLess, List.mem_cons]
      · rw [if_neg hLess]
        by_cases hMore : b > curr
        · rw [if_pos hMore, List.mem_cons, List.mem_cons, ih]
          exact or_left_comm
        · have hSame : b = curr := by omega
          rw [if_neg hMore, hSame, List.mem_cons, ← or_assoc,
            or_self]

theorem filterAllParentInsert_sorted
    (hSorted : tree.Pairwise (· < ·)) :
    (filterAllParentInsert tree b).Pairwise (· < ·) := by
  induction tree with
  | nil => exact List.pairwise_singleton _ b
  | cons curr rest ih =>
      have hCons := List.pairwise_cons.mp hSorted
      unfold filterAllParentInsert
      by_cases hLess : b < curr
      · rw [if_pos hLess, List.pairwise_cons]
        refine ⟨fun x hIn => ?_, hSorted⟩
        rcases List.mem_cons.mp hIn with rfl | hRest
        · exact hLess
        · exact Nat.lt_trans hLess (hCons.1 x hRest)
      · rw [if_neg hLess]
        by_cases hMore : b > curr
        · rw [if_pos hMore, List.pairwise_cons]
          refine ⟨fun x hIn => ?_, ih hCons.2⟩
          rcases mem_filterAllParentInsert.mp hIn with
            rfl | hRest
          · exact hMore
          · exact hCons.1 x hRest
        · rw [if_neg hMore]
          exact hSorted

/- The walk finds `bq`, or adds all the parents. -/
theorem insertParents_spec
    (parents : List Nat)
    (hSorted : tree.Pairwise (· < ·)) :
    (bq ∈ parents ∧ insertParents bq tree parents = none) ∨
      (bq ∉ parents ∧ ∃ tree',
        insertParents bq tree parents = some tree' ∧
          tree'.Pairwise (· < ·) ∧
          ∀ x, x ∈ tree' ↔ x ∈ tree ∨ x ∈ parents) := by
  induction parents generalizing tree with
  | nil => exact .inr ⟨by simp, tree, rfl, hSorted, by simp⟩
  | cons list rest ih =>
      unfold insertParents
      by_cases hThis : list = bq
      · rw [if_pos hThis]
        exact .inl ⟨hThis ▸ List.mem_cons_self, rfl⟩
      rw [if_neg hThis]
      rcases ih (filterAllParentInsert_sorted hSorted) with
        ⟨hIn, hNone⟩ | ⟨hOut, tree', hSome, hLess, hMem⟩
      · exact .inl ⟨List.mem_cons_of_mem list hIn, hNone⟩
      · refine .inr ⟨?_, tree', hSome, hLess, fun x => ?_⟩
        · rw [List.mem_cons, not_or]
          exact ⟨fun hIs => hThis hIs.symm, hOut⟩
        · rw [hMem, mem_filterAllParentInsert, List.mem_cons,
            or_assoc, or_left_comm]

end Tree

----------
-- The Loop
----------

section Runs

variable {ql : Lookup} {bq qgroup top : Nat}
variable {tree : List Nat}

/- The parents of a qgroup but itself. -/
def properParents
    (ql : Lookup)
    (member : Nat) : List Nat :=
  (parentsOf ql member).filter (· ≠ member)

/-
  The ids that have left the tree are below those in it, and
  `bq` is not among them.
-/
structure Walks
    (ql : Lookup)
    (bq qgroup top : Nat)
    (tree visited : List Nat) : Prop where
  inv : Worklist.Inv (properParents ql) [qgroup]
    (· ∈ tree) visited
  sorted : tree.Pairwise (· < ·)
  below : ∀ v ∈ visited, ∀ t ∈ tree, v < t
  known : ∀ t ∈ tree, t ≠ 0 ∧ t ≤ top ∧ Known ql t
  unseen : bq ∉ tree ∧ bq ∉ visited

/- Every id of what is loaded. -/
theorem exists_top
    (ql : Lookup) :
    ∃ top, ∀ q, Known ql q → q ≤ top := by
  induction ql with
  | nil => exact ⟨0, fun _ ⟨_, hIn, _⟩ => absurd hIn (by simp)⟩
  | cons b rest ih =>
      rcases ih with ⟨top, hTop⟩
      refine ⟨max top b.qgroupid, ?_⟩
      rintro q ⟨bq, hIn, rfl⟩
      rcases List.mem_cons.mp hIn with rfl | hRest
      · exact Nat.le_max_right _ _
      · exact Nat.le_trans (hTop _ ⟨bq, hRest, rfl⟩)
          (Nat.le_max_left _ _)

/- A qgroup that is not 0 has a list of parents. -/
theorem Sound.parents
    (hSound : Sound ql)
    (hKnown : Known ql qgroup)
    (hSome : qgroup ≠ 0) :
    (qgroupTreeSearch ql qgroup).bind (·.qgroups) =
        some (parentsOf ql qgroup) ∧
      ∀ p ∈ parentsOf ql qgroup,
        qgroup ≤ p ∧ Known ql p := by
  rcases hKnown.search with ⟨b, hFound⟩
  rcases of_qgroupTreeSearch hFound with ⟨hIn, rfl⟩
  unfold parentsOf
  rw [hFound, Option.bind_some]
  refine ⟨?_, (hSound b hIn).2⟩
  cases hList : b.qgroups with
  | none => exact absurd ((hSound b hIn).1.mp hList) hSome
  | some parents => rfl

/- A turn goes on, or `bq` is a parent. -/
theorem Walks.turn
    (hSound : Sound ql)
    (hTop : ∀ q, Known ql q → q ≤ top)
    {n : Nat}
    {rest visited : List Nat}
    (hWalks : Walks ql bq qgroup top (n :: rest) visited) :
    (bq ∈ parentsOf ql n ∧
        filterTurn ql bq (n :: rest) = .inr (some true)) ∨
      ∃ tree, filterTurn ql bq (n :: rest) = .inl tree ∧
        Walks ql bq qgroup top tree (n :: visited) ∧
        ∀ t ∈ tree, n < t := by
  rcases hWalks.known n List.mem_cons_self with
    ⟨hSome, _, hKnown⟩
  rcases hSound.parents hKnown hSome with ⟨hList, hUp⟩
  rw [filterTurn, hList]
  dsimp only
  rcases insertParents_spec (parentsOf ql n) hWalks.sorted with
    ⟨hIn, hNone⟩ | ⟨hOut, tree', hTree, hSorted, hMem⟩
  · rw [hNone]
    exact .inl ⟨hIn, rfl⟩
  rw [hTree]
  refine .inr ⟨_, rfl, ?_⟩
  have hFront := (List.pairwise_cons.mp hWalks.sorted).1
  have hNodup : tree'.Nodup :=
    hSorted.imp fun hLess => Nat.ne_of_lt hLess
  have hErase : ∀ t, t ∈ tree'.erase n ↔
      t ≠ n ∧ (t ∈ n :: rest ∨ t ∈ parentsOf ql n) := by
    intro t
    rw [hNodup.mem_erase_iff, hMem]
  have hAbove : ∀ t ∈ tree'.erase n, n < t := by
    intro t hIn
    rcases (hErase t).mp hIn with ⟨hOther, hOld | hNew⟩
    · rcases List.mem_cons.mp hOld with hSame | hRest
      · exact absurd hSame hOther
      · exact hFront t hRest
    · exact Nat.lt_of_le_of_ne (hUp t hNew).1 hOther.symm
  have hProper : ∀ t, t ∈ properParents ql n ↔
      t ∈ parentsOf ql n ∧ t ≠ n := by
    intro t
    unfold properParents
    rw [List.mem_filter, decide_eq_true_iff]
  refine ⟨⟨?_, ?_, ?_, ?_, ?_⟩, hAbove⟩
  · refine hWalks.inv.visit List.mem_cons_self ?_ ?_
    · intro t hIn
      rcases (hProper t).mp hIn with ⟨hParent, hOther⟩
      refine ⟨hOther, fun hVisited => ?_⟩
      have hLess := hWalks.below t hVisited n
        List.mem_cons_self
      have hLe := (hUp t hParent).1
      omega
    · intro t
      rw [hErase, hProper]
      tauto
  · exact hSorted.sublist List.erase_sublist
  · intro v hIn t hTreeIn
    have hLess := hAbove t hTreeIn
    rcases List.mem_cons.mp hIn with rfl | hOld
    · exact hLess
    · exact Nat.lt_trans
        (hWalks.below v hOld n List.mem_cons_self) hLess
  · intro t hIn
    have hLess := hAbove t hIn
    have hIs : Known ql t := by
      rcases (hErase t).mp hIn with ⟨_, hOld | hNew⟩
      · exact (hWalks.known t hOld).2.2
      · exact (hUp t hNew).2
    exact ⟨by omega, hTop t hIs, hIs⟩
  · constructor
    · intro hIn
      rcases (hErase bq).mp hIn with ⟨_, hOld | hNew⟩
      · exact hWalks.unseen.1 hOld
      · exact hOut hNew
    · rw [List.mem_cons, not_or]
      refine ⟨?_, hWalks.unseen.2⟩
      rintro rfl
      exact hWalks.unseen.1 List.mem_cons_self

/- Parents of itself lead a qgroup nowhere. -/
theorem reaches_properParents :
    Worklist.Reaches (properParents ql) [qgroup] bq ↔
      Worklist.Reaches (parentsOf ql) [qgroup] bq := by
  constructor
  · intro hReach
    induction hReach with
    | root hRoot => exact .root hRoot
    | step _ hSucc ih =>
        exact ih.step (List.mem_filter.mp hSucc).1
  · intro hReach
    induction hReach with
    | root hRoot => exact .root hRoot
    | @step a b _ hSucc ih =>
        by_cases hSelf : b = a
        · exact hSelf ▸ ih
        · exact ih.step
            (List.mem_filter.mpr ⟨hSucc, by simpa using hSelf⟩)

/- From a qgroup that is not 0, the loop decides. -/
theorem loop_ends
    (hSound : Sound ql)
    (hKnown : Known ql qgroup)
    (hSome : qgroup ≠ 0)
    (hOther : bq ≠ qgroup) :
    Loop.Ends (filterTurn ql bq)
      (fun result => ∃ r, result = some r ∧
        (r = true ↔
          Worklist.Reaches (parentsOf ql) [qgroup] bq))
      [qgroup] := by
  rcases exists_top ql with ⟨top, hTop⟩
  refine Loop.ends_of_rank
    (P := fun tree => ∃ visited,
      Walks ql bq qgroup top tree visited)
    (R := fun _ result => ∃ r, result = some r ∧
      (r = true ↔
        Worklist.Reaches (parentsOf ql) [qgroup] bq))
    (fun tree => tree.head?.elim 0 (top + 1 - ·)) ?_ ?_ ?_
  · rintro tree tree' ⟨visited, hWalks⟩ hTurn
    cases tree with
    | nil => cases hTurn
    | cons n rest =>
        have hBound := (hWalks.known n List.mem_cons_self).2.1
        rcases hWalks.turn hSound hTop with
          ⟨_, hFound⟩ | ⟨next, hNext, hGoes, hAbove⟩
        · rw [hFound] at hTurn
          cases hTurn
        · rw [hNext] at hTurn
          cases hTurn
          refine ⟨⟨_, hGoes⟩, ?_, fun _ hEnd => hEnd⟩
          cases tree' with
          | nil =>
              show 0 < top + 1 - n
              omega
          | cons t more =>
              have hLess := hAbove t List.mem_cons_self
              show top + 1 - t < top + 1 - n
              omega
  · rintro tree result ⟨visited, hWalks⟩ hEnd
    cases tree with
    | nil =>
        cases hEnd
        refine ⟨false, rfl, iff_of_false (by simp) ?_⟩
        rw [← reaches_properParents,
          ← hWalks.inv.complete (fun _ hIn => absurd hIn
            (by simp))]
        exact hWalks.unseen.2
    | cons n rest =>
        rcases hWalks.turn hSound hTop with
          ⟨hParent, hFound⟩ | ⟨next, hNext, _⟩
        · rw [hFound] at hEnd
          cases hEnd
          refine ⟨true, rfl, iff_of_true rfl ?_⟩
          have hReach := hWalks.inv.reaches n
            (.inl List.mem_cons_self)
          exact (reaches_properParents.mp hReach).step hParent
        · rw [hNext] at hEnd
          cases hEnd
  · refine ⟨[], .init fun _ => Iff.rfl,
      List.pairwise_singleton _ _, by simp, ?_, ?_⟩
    · intro t hIn
      rw [List.mem_singleton.mp hIn]
      exact ⟨hSome, hTop _ hKnown, hKnown⟩
    · exact ⟨by simpa using hOther, by simp⟩

/- The loop on qgroup 0 follows the null pointer. -/
theorem zero_crashes
    (hSound : Sound ql)
    (hKnown : Known ql 0)
    (fuel : Nat) :
    Loop.run (filterTurn ql bq) (fuel + 1) [0] =
      some none := by
  rcases hKnown.search with ⟨b, hFound⟩
  rcases of_qgroupTreeSearch hFound with ⟨hIn, hZero⟩
  rw [Loop.run, filterTurn, hFound, Option.bind_some,
    (hSound b hIn).1.mpr hZero]

end Runs

/-
  The filter decides what is reached from every qgroup but
  qgroup 0, where it decides only for qgroup 0 itself.
-/
theorem filterByAllParent_decides_iff
    {pages : List (List SearchItem)}
    {ql : Lookup}
    (hLoad : qgroupsSearch pages = some ql)
    {bq qgroup : Nat}
    (hKnown : Known ql qgroup) :
    Decides ql bq qgroup ↔ qgroup ≠ 0 ∨ bq = qgroup := by
  have hSound := qgroupsSearch_sound hLoad
  by_cases hSame : bq = qgroup
  · refine iff_of_true ⟨0, true, if_pos hSame, ?_⟩ (.inr hSame)
    rw [hSame]
    exact iff_of_true rfl (.root List.mem_cons_self)
  simp only [Decides, filterByAllParent, if_neg hSame]
  by_cases hZero : qgroup = 0
  · subst hZero
    refine iff_of_false ?_ (by simpa using hSame)
    rintro ⟨fuel, result, hRun, _⟩
    cases fuel with
    | zero => cases hRun
    | succ fuel =>
        have hCrash : Loop.run (filterTurn ql bq) (fuel + 1)
            (filterAllParentInsert [] 0) = some none :=
          zero_crashes hSound hKnown fuel
        rw [hCrash] at hRun
        cases hRun
  · refine iff_of_true ?_ (.inl hZero)
    rcases loop_ends hSound hKnown hZero hSame with
      ⟨fuel, result, hRun, r, rfl, hDecides⟩
    exact ⟨fuel, r, hRun, hDecides⟩

/- Qgroups 5, 7 and 9, each but the last with a parent. -/
def threeItems : List SearchItem :=
  [⟨0, 5, .info 1 0 0 0 0⟩, ⟨0, 7, .info 1 0 0 0 0⟩,
    ⟨0, 9, .info 1 0 0 0 0⟩, ⟨5, 5, .relation⟩,
    ⟨5, 7, .relation⟩, ⟨7, 9, .relation⟩]

def threeQgroups : Lookup :=
  (qgroupsSearch [threeItems]).getD []

theorem filterByAllParent_decides_three :
    Decides threeQgroups 9 5 := by
  have hLoad : qgroupsSearch [threeItems] =
      some threeQgroups := rfl
  have hKnown : Known threeQgroups 5 := by
    unfold Known
    decide
  exact (filterByAllParent_decides_iff hLoad hKnown).mpr
    (.inl (by decide))

/- Nothing is decided of qgroup 0. -/
theorem zero_not_decided :
    ∃ ql, qgroupsSearch [[⟨0, 0, .info 1 0 0 0 0⟩,
        ⟨0, 5, .info 1 0 0 0 0⟩]] = some ql ∧
      ¬Decides ql 5 0 := by
  refine ⟨_, rfl, ?_⟩
  rintro ⟨fuel, result, hRun, _⟩
  cases fuel with
  | zero => cases hRun
  | succ fuel => cases hRun

end Qgroup

end BtrfsProgs
