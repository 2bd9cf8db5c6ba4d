import BtrfsProgs.Ctree.ItemSearch
import BtrfsProgs.Lib.Loop

/-
  `btrfs_previous_item`, from `ctree.c`.

  It never looks at `min_objectid`: where the items of the
  type that come before are all below it, it still returns 0.

  Main declarations:
    * `previousItem`
    * `previousItem_spec`
    * `PreviousExact`
    * `previousItem_exact_iff`
-/

----------
-- The Function
----------

namespace BtrfsProgs

namespace Ctree

open Trail

section Previous

variable {N : Type}

/- The type of the item that the path has been moved to. -/
def previousFound
    (key : N → Nat → Key)
    (type : Nat)
    (path : BtrfsPath N) :
    BtrfsPath N ⊕ Except Stop (Int × BtrfsPath N) :=
  match path.nodes 0 with
  | none => .inr (.error .bug)
  | some leaf =>
      if (key leaf (path.slots 0)).type = type then
        .inr (.ok (0, path))
      else
        .inl path

/- A turn of the loop of `btrfs_previous_item`. -/
def previousTurn
    (T : Slots N)
    (key : N → Nat → Key)
    (_min_objectid type : Nat)
    (path : BtrfsPath N) :
    BtrfsPath N ⊕ Except Stop (Int × BtrfsPath N) :=
  if path.slots 0 = 0 then
    match prevLeaf T path with
    | .error stop => .inr (.error stop)
    | .ok (ret, path) =>
        if ret ≠ 0 then .inr (.ok (ret, path))
        else previousFound key type path
  else
    previousFound key type
      (path.setSlot 0 (path.slots 0 - 1))

/- `btrfs_previous_item`, for some turns. -/
def previousItem
    (T : Slots N)
    (key : N → Nat → Key)
    (min_objectid type : Nat) :
    Nat → BtrfsPath N →
      Option (Except Stop (Int × BtrfsPath N)) :=
  Loop.run (previousTurn T key min_objectid type)

variable {T : Slots N}
variable {key : N → Nat → Key}
variable {min_objectid type top : Nat}
variable {root leaf : N}
variable {path path' : BtrfsPath N}
variable {before after : List Key}

----------
-- What It Finds
----------

/-
  The last item of the type before a place, with the items
  that were passed, or that there is none.
-/
def PreviousOfType
    (T : Slots N)
    (key : N → Nat → Key)
    (type top : Nat)
    (root : N)
    (before after : List Key) :
    Except Stop (Int × BtrfsPath N) → Prop
  | .error _ => False
  | .ok (ret, path) =>
      (ret = 0 ∧ ∃ before' leaf k passed,
        before = before' ++ k :: passed ∧
          StandsOn T key top root path before' leaf k
            (passed ++ after) ∧
          k.type = type ∧ ∀ p ∈ passed, p.type ≠ type) ∨
      ret = 1 ∧ ∀ k ∈ before, k.type ≠ type

/- One turn goes one item back. -/
theorem previousTurn_step
    (hTree : ItemTree T key top root)
    (hAt : StandsAt T key top root path before after) :
    before = [] ∧
        previousTurn T key min_objectid type path =
          .inr (.ok (1, path)) ∨
      ∃ before' leaf k path',
        before = before' ++ [k] ∧
          StandsOn T key top root path' before' leaf k after ∧
          previousTurn T key min_objectid type path =
            previousFound key type path' := by
  unfold previousTurn
  by_cases hSlot : path.slots 0 = 0
  · rw [if_pos hSlot]
    rcases prevLeaf_at hTree.top_lt hTree.sound hTree.full hAt
        hSlot with ⟨hNone, hPrev⟩ |
      ⟨before', k, path', leaf, hSome, hPrev, hOn⟩
    · left
      rw [hPrev]
      exact ⟨hNone, rfl⟩
    · right
      rw [hPrev]
      exact ⟨before', leaf, k, path', hSome, hOn, rfl⟩
  · rw [if_neg hSlot]
    right
    obtain ⟨before', leaf, hHere, hIn, hBefore, hBack⟩ :=
      hAt.back hSlot
    refine ⟨before', leaf, _, _, hBefore, ⟨hBack, hHere, ?_,
      ?_⟩, rfl⟩
    · rw [setSlot_slot]
      exact hIn
    · rw [setSlot_slot]

theorem previousFound_of_on
    {before' : List Key}
    {k : Key}
    (hOn : StandsOn T key top root path before' leaf k after) :
    previousFound key type path =
      if k.type = type then .inr (.ok (0, path))
      else .inl path := by
  unfold previousFound
  rw [hOn.here]
  dsimp only
  rw [hOn.item]

/- The loop ends at the last item of the type. -/
theorem previousItem_spec
    (hTree : ItemTree T key top root)
    (hAt : StandsAt T key top root path before after) :
    Loop.Ends (previousTurn T key min_objectid type)
      (PreviousOfType T key type top root before after)
      path := by
  induction before using List.reverseRecOn
    generalizing path after with
  | nil =>
      rcases previousTurn_step hTree hAt with ⟨-, hTurn⟩ |
        ⟨before', leaf, k, path', hSome, -⟩
      · refine ⟨1, .ok (1, path), ?_, Or.inr ⟨rfl, by simp⟩⟩
        unfold Loop.run
        rw [hTurn]
      · simp at hSome
  | append_singleton before k ih =>
      rcases previousTurn_step hTree hAt with ⟨hNone, -⟩ |
        ⟨before', leaf, k', path', hSome, hOn, hTurn⟩
      · simp at hNone
      · obtain ⟨rfl, hSame⟩ := List.append_inj' hSome rfl
        obtain rfl : k = k' := (List.cons.inj hSame).1
        rw [previousFound_of_on hOn] at hTurn
        by_cases hType : k.type = type
        · rw [if_pos hType] at hTurn
          refine ⟨1, .ok (0, path'), ?_, Or.inl ⟨rfl, before,
            leaf, k, [], rfl, hOn, hType, by simp⟩⟩
          unfold Loop.run
          rw [hTurn]
        · rw [if_neg hType] at hTurn
          refine Loop.Ends.turn hTurn
            ((ih hOn.stands).mono ?_)
          rintro (_ | ⟨ret, q⟩) hW
          · exact hW
          rcases hW with ⟨hRet, bs, l, x, passed, hSplit, hOn',
            hX, hPassed⟩ | hNone
          · refine Or.inl ⟨hRet, bs, l, x, passed ++ [k], ?_,
              ?_, hX, ?_⟩
            · rw [hSplit]
              simp
            · rw [List.append_assoc]
              exact hOn'
            · intro p hP
              rcases List.mem_append.mp hP with hP | hP
              · exact hPassed p hP
              · rw [List.mem_singleton.mp hP]
                exact hType
          · refine Or.inr ⟨hNone.1, ?_⟩
            intro p hP
            rcases List.mem_append.mp hP with hP | hP
            · exact hNone.2 p hP
            · rw [List.mem_singleton.mp hP]
              exact hType

/- Where there is none the path is left at the first item. -/
theorem previousItem_first
    {fuel : Nat}
    (hTree : ItemTree T key top root)
    (hAt : StandsAt T key top root path before after)
    (hRun :
      previousItem T key min_objectid type fuel path =
        some (.ok (1, path'))) :
    ∃ all, StandsAt T key top root path' [] all := by
  rcases Loop.comes_of_run hRun with ⟨last, hComes, hEnd⟩
  have hStands :
      ∃ bs as, StandsAt T key top root last bs as := by
    refine hComes.keeps
      (P := fun q => ∃ bs as, StandsAt T key top root q bs as)
      ?_ ⟨before, after, hAt⟩
    intro q q' hQ hTurn
    rcases hQ with ⟨bs, as, hQ⟩
    rcases previousTurn_step hTree hQ with ⟨_, hStop⟩ |
      ⟨bs', leaf, k, found, _, hOn, hMoved⟩
    · rw [hStop] at hTurn
      cases hTurn
    · rw [hMoved, previousFound_of_on hOn] at hTurn
      by_cases hType : k.type = type
      · rw [if_pos hType] at hTurn
        cases hTurn
      · rw [if_neg hType] at hTurn
        cases hTurn
        exact ⟨bs', k :: as, hOn.stands⟩
  rcases hStands with ⟨bs, as, hLast⟩
  rcases previousTurn_step hTree hLast with ⟨hNone, hStop⟩ |
    ⟨bs', leaf, k, found, _, hOn, hMoved⟩
  · rw [hStop] at hEnd
    cases hEnd
    rw [hNone] at hLast
    exact ⟨as, hLast⟩
  · rw [hMoved, previousFound_of_on hOn] at hEnd
    by_cases hType : k.type = type
    · rw [if_pos hType] at hEnd
      cases hEnd
    · rw [if_neg hType] at hEnd
      cases hEnd

----------
-- The Bound
----------

/- An item of the type that is not below the bound. -/
def Wanted
    (min_objectid type : Nat)
    (k : Key) : Prop :=
  k.type = type ∧ min_objectid ≤ k.objectid

/-
  0 with the path at the last wanted item before the place,
  and 1 if there is none.
-/
def PreviousExact
    (T : Slots N)
    (key : N → Nat → Key)
    (min_objectid type top : Nat)
    (root : N)
    (before after : List Key) :
    Except Stop (Int × BtrfsPath N) → Prop
  | .error _ => False
  | .ok (ret, path) =>
      (ret = 0 ∧ ∃ before' leaf k passed,
        before = before' ++ k :: passed ∧
          StandsOn T key top root path before' leaf k
            (passed ++ after) ∧
          Wanted min_objectid type k ∧
          ∀ p ∈ passed, ¬ Wanted min_objectid type p) ∨
      ret = 1 ∧ ∀ k ∈ before, ¬ Wanted min_objectid type k

/-
  The search is exact just where an item of the type above the
  bound comes before the place, or none of the type at all.
-/
theorem previousItem_exact_iff
    (hTree : ItemTree T key top root)
    (hAt : StandsAt T key top root path before after) :
    (∃ fuel result,
      previousItem T key min_objectid type fuel path =
          some result ∧
        PreviousExact T key min_objectid type top root before
          after result) ↔
      (∃ k ∈ before, Wanted min_objectid type k) ∨
        ∀ k ∈ before, k.type ≠ type := by
  obtain ⟨fuel, result, hRun, hSpec⟩ := previousItem_spec hTree hAt
  constructor
  · rintro ⟨fuel', result', hRun', hExact⟩
    obtain rfl : result = result' :=
      Loop.run_unique hRun hRun'
    match result, hSpec, hExact with
    | .ok (ret, q), .inr hNone, _ => exact Or.inr hNone.2
    | .ok (ret, q), .inl hFound, .inr hNot =>
        rw [hFound.1] at hNot
        exact absurd hNot.1 (by decide)
    | .ok (ret, q), .inl _, .inl hThere =>
        obtain ⟨-, bs, l, k, passed, hSplit, -, hK, -⟩ :=
          hThere
        refine Or.inl ⟨k, ?_, hK⟩
        rw [hSplit]
        exact List.mem_append_right _ List.mem_cons_self
  · intro hCond
    refine ⟨fuel, result, hRun, ?_⟩
    match result, hSpec with
    | .ok (ret, q), .inr hNone =>
        exact Or.inr ⟨hNone.1, fun k hK hW =>
          hNone.2 k hK hW.1⟩
    | .ok (ret, q), .inl hFound =>
        obtain ⟨hRet, bs, l, k, passed, hSplit, hOn, hType,
          hPassed⟩ := hFound
        have hMem : k ∈ before := by
          rw [hSplit]
          exact List.mem_append_right _ List.mem_cons_self
        rcases hCond with ⟨k₀, hK₀, hWanted⟩ | hNone
        · -- the last of the type is not below a wanted one
          have hBound : min_objectid ≤ k.objectid := by
            have hKey : ∀ leaf i,
                id (key leaf i) = key leaf i :=
              fun _ _ => rfl
            have hSorted := hTree.pairwise hKey
            rw [hAt.items, hSplit] at hSorted
            have hOrder := (List.pairwise_append.mp
              (List.pairwise_append.mp hSorted).1).2.2
            rw [hSplit, List.mem_append, List.mem_cons] at hK₀
            rcases hK₀ with hK₀ | rfl | hK₀
            · have hLess := hOrder k₀ hK₀ k List.mem_cons_self
              rw [id, id, Key.lt_iff] at hLess
              have hLow := hWanted.2
              omega
            · exact hWanted.2
            · exact absurd hWanted.1 (hPassed k₀ hK₀)
          exact Or.inl ⟨hRet, bs, l, k, passed, hSplit, hOn,
            ⟨hType, hBound⟩, fun p hP hW =>
              hPassed p hP hW.1⟩
        · exact absurd hType (hNone k hMem)

end Previous

----------
-- A Leaf of Two Items
----------

/- An item of type 5, and one of type 6 after it. -/
def twoKeys
    (_ : Unit)
    (i : Nat) : Key :=
  if i = 0 then ⟨1, 5, 0⟩ else ⟨10, 6, 0⟩

theorem twoKeys_tree :
    ItemTree (leafSlots 2) twoKeys 0 () := by
  apply leafSlots_tree
  intro i j hLess hIn
  obtain ⟨rfl, rfl⟩ : i = 0 ∧ j = 1 := by omega
  decide

/- The path at the second item. -/
def twoPath : BtrfsPath Unit where
  nodes := fun level => if level = 0 then some () else none
  slots := fun level => if level = 0 then 1 else 0

theorem twoPath_stands :
    StandsAt (leafSlots 2) twoKeys 0 () twoPath [⟨1, 5, 0⟩]
      [⟨10, 6, 0⟩] := by
  refine ⟨⟨rfl, ?_, ?_⟩, (), rfl, by decide, rfl, rfl⟩
  · intro level hLevel
    exact if_neg (by omega)
  · intro level hLevel
    exact absurd hLevel (Nat.not_lt_zero level)

theorem previousItem_exact_iff_two :
    ∃ fuel result,
      previousItem (leafSlots 2) twoKeys 1 5 fuel twoPath =
          some result ∧
        PreviousExact (leafSlots 2) twoKeys 1 5 0 () [⟨1, 5, 0⟩]
          [⟨10, 6, 0⟩] result :=
  (previousItem_exact_iff twoKeys_tree twoPath_stands).mpr
    (.inl ⟨⟨1, 5, 0⟩, List.mem_cons_self, rfl, by decide⟩)

/- It returns 0 at an item of object 1, not of 4 or above. -/
theorem previousItem_ignores_bound :
    ∃ path,
      previousItem (leafSlots 2) twoKeys 4 5 1 twoPath =
          some (.ok (0, path)) ∧
        path.nodes 0 = some () ∧ path.slots 0 = 0 ∧
        (twoKeys () 0).objectid < 4 :=
  ⟨_, rfl, rfl, rfl, by decide⟩

end Ctree

end BtrfsProgs
