import BtrfsProgs.ExtentRefs.Lookup

/-
  The order of the inline references of an extent item, and
  what the loop of `lookup_inline_extent_backref` makes of it.

  Main declarations:
    * `Precedes` and `Sorted`
    * `Target.ref` and `Target.Inline`
    * `scanInline_placed`
    * `Sorted.recount`
-/

----------
-- The Order
----------

namespace BtrfsProgs

namespace ExtentRefs

/- What the references of a type are sorted by. -/
def InlineRef.rank : InlineRef → Nat
  | .extentData ref => hashExtentDataRef ref.owner
  | iref => iref.offset

/- Types ascend, and within a type hashes or offsets descend. -/
def Precedes
    (a b : InlineRef) : Prop :=
  a.type < b.type ∨ a.type = b.type ∧ b.rank ≤ a.rank

instance
    (a b : InlineRef) :
    Decidable (Precedes a b) :=
  inferInstanceAs (Decidable (_ ∨ _))

def Sorted
    (irefs : List InlineRef) : Prop :=
  irefs.Pairwise Precedes

instance
    (irefs : List InlineRef) :
    Decidable (Sorted irefs) :=
  inferInstanceAs (Decidable (List.Pairwise _ _))

theorem Precedes.trans
    {a b c : InlineRef}
    (hFirst : Precedes a b)
    (hSecond : Precedes b c) :
    Precedes a c := by
  unfold Precedes at hFirst hSecond ⊢
  omega

theorem Sorted.tail
    {iref : InlineRef}
    {irefs : List InlineRef}
    (hSorted : Sorted (iref :: irefs)) :
    Sorted irefs :=
  (List.pairwise_cons.mp hSorted).2

/- What may stand before the first may stand before all. -/
theorem Sorted.cons
    {new iref : InlineRef}
    {irefs : List InlineRef}
    (hSorted : Sorted (iref :: irefs))
    (hFirst : Precedes new iref) :
    Sorted (new :: iref :: irefs) := by
  refine List.pairwise_cons.mpr ⟨?_, hSorted⟩
  intro other hOther
  cases hOther with
  | head => exact hFirst
  | tail _ hLater =>
      exact hFirst.trans
        ((List.pairwise_cons.mp hSorted).1 other hLater)

----------
-- The Wanted Reference
----------

/- The reference as it would be inserted. -/
def Target.ref
    (target : Target)
    (count : Nat) : InlineRef :=
  if target.owner < FIRST_FREE_OBJECTID then
    if 0 < target.parent then .sharedBlock target.parent
    else .treeBlock target.rootObjectid
  else
    if 0 < target.parent then
      .sharedData target.parent count
    else .extentData ⟨target.dataOwner, count⟩

/- An inline reference is the wanted one. -/
def Target.Inline
    (target : Target)
    (iref : InlineRef) : Prop :=
  ∃ count, iref = target.ref count

section Target

variable {target : Target}
variable {iref : InlineRef}

theorem Target.ref_type
    (target : Target)
    (count : Nat) :
    (target.ref count).type =
      extentRefType target.parent target.owner := by
  unfold Target.ref extentRefType
  split_ifs
  · rfl
  · rfl
  · rfl
  · rfl

/- The count does not matter for the order. -/
theorem Target.ref_rank
    (target : Target)
    (count other : Nat) :
    (target.ref count).rank = (target.ref other).rank := by
  unfold Target.ref
  split_ifs
  · rfl
  · rfl
  · rfl
  · rfl

theorem Target.Inline.type
    (hInline : target.Inline iref) :
    iref.type =
      extentRefType target.parent target.owner := by
  rcases hInline with ⟨count, rfl⟩
  exact target.ref_type count

/-
  For a reference of the wanted type: the tests of the loop
  say whether it is the one, and whether it ranks below it.
-/
theorem Target.tests
    (hType : iref.type =
      extentRefType target.parent target.owner) :
    (iref.isTarget target = true ↔ target.Inline iref) ∧
      (iref.isPast target = true ↔
        iref.rank < (target.ref 0).rank) := by
  unfold extentRefType at hType
  unfold Target.Inline Target.ref
  by_cases hOwner : target.owner < FIRST_FREE_OBJECTID
  · by_cases hParent : 0 < target.parent
    · simp only [hOwner, hParent, if_true] at hType ⊢
      cases iref with
      | sharedBlock parent =>
          refine ⟨?_, ?_⟩
          · simp [InlineRef.isTarget, InlineRef.offset,
              hParent, @eq_comm _ target.parent]
          · simp only [InlineRef.isPast, hParent, if_true]
            exact decide_eq_true_iff
      | treeBlock root
      | extentData ref
      | sharedData parent count => cases hType
    · simp only [hOwner, hParent, if_true, if_false]
        at hType ⊢
      cases iref with
      | treeBlock root =>
          refine ⟨?_, ?_⟩
          · simp [InlineRef.isTarget, InlineRef.offset,
              hParent, @eq_comm _ target.rootObjectid]
          · simp only [InlineRef.isPast, hParent, if_false]
            exact decide_eq_true_iff
      | sharedBlock parent
      | extentData ref
      | sharedData parent count => cases hType
  · by_cases hParent : 0 < target.parent
    · simp only [hOwner, hParent, if_true, if_false]
        at hType ⊢
      cases iref with
      | sharedData parent count =>
          refine ⟨?_, ?_⟩
          · simp [InlineRef.isTarget, InlineRef.offset,
              hParent, @eq_comm _ target.parent]
          · simp only [InlineRef.isPast, hParent, if_true]
            exact decide_eq_true_iff
      | treeBlock root
      | extentData ref
      | sharedBlock parent => cases hType
    · simp only [hOwner, hParent, if_false] at hType ⊢
      cases iref with
      | extentData ref =>
          simp [InlineRef.isTarget, InlineRef.isPast,
            InlineRef.rank]
          constructor
          · intro hSame
            exact ⟨ref.count, by rw [← hSame]⟩
          · intro hRef
            rcases hRef with ⟨count, rfl⟩
            rfl
      | treeBlock root
      | sharedBlock parent
      | sharedData parent count => cases hType

end Target

----------
-- The Loop on Sorted References
----------

/-
  What the loop says of some references, from the place of
  the first: where the wanted one is, or where it would be
  inserted.
-/
structure Placed
    (target : Target)
    (irefs : List InlineRef)
    (place : Nat)
    (r : Bool × Nat) : Prop where
  found : r.1 = true ↔ ∃ iref ∈ irefs, target.Inline iref
  split : ∃ before after,
    irefs = before ++ after ∧
      r.2 = place + before.length ∧
      (r.1 = true →
        ∃ iref rest, after = iref :: rest ∧
          target.Inline iref) ∧
      (r.1 = false → ∀ count,
        Sorted (before ++ target.ref count :: after))

section Scan

variable {target : Target}
variable {iref : InlineRef}
variable {irefs : List InlineRef}
variable {place : Nat}
variable {r : Bool × Nat}

theorem Placed.here
    (hInline : target.Inline iref) :
    Placed target (iref :: irefs) place (true, place) where
  found := by
    constructor
    · intro _
      exact ⟨iref, List.mem_cons_self, hInline⟩
    · intro _
      rfl
  split := by
    refine ⟨[], iref :: irefs, rfl, rfl, ?_, ?_⟩
    · intro _
      exact ⟨iref, irefs, rfl, hInline⟩
    · intro hFalse
      cases hFalse

/- The wanted reference stands before all of them. -/
theorem Placed.before
    (hSorted : ∀ count,
      Sorted (target.ref count :: irefs))
    (hNone : ∀ iref ∈ irefs, ¬target.Inline iref) :
    Placed target irefs place (false, place) where
  found := by
    constructor
    · intro hTrue
      cases hTrue
    · intro hSome
      rcases hSome with ⟨iref, hMem, hInline⟩
      exact absurd hInline (hNone iref hMem)
  split := by
    refine ⟨[], irefs, rfl, rfl, ?_, ?_⟩
    · intro hTrue
      cases hTrue
    · intro _ count
      exact hSorted count

/- The wanted reference stands behind the first. -/
theorem Placed.behind
    (hSorted : Sorted (iref :: irefs))
    (hFirst : ∀ count, Precedes iref (target.ref count))
    (hNot : ¬target.Inline iref)
    (hRest : Placed target irefs (place + 1) r) :
    Placed target (iref :: irefs) place r where
  found := by
    rw [hRest.found]
    simp [hNot]
  split := by
    rcases hRest.split with
      ⟨before, after, hParts, hPlace, hFound, hInsert⟩
    refine ⟨iref :: before, after, ?_, ?_, hFound, ?_⟩
    · rw [hParts, List.cons_append]
    · rw [hPlace, List.length_cons]
      omega
    · intro hFalse count
      refine List.pairwise_cons.mpr ⟨?_, hInsert hFalse count⟩
      intro other hOther
      rcases List.mem_append.mp hOther with hIn | hIn
      · exact (List.pairwise_cons.mp hSorted).1 other (by
          rw [hParts]
          exact List.mem_append_left _ hIn)
      · cases hIn with
        | head => exact hFirst count
        | tail _ hLater =>
            exact (List.pairwise_cons.mp hSorted).1 other (by
              rw [hParts]
              exact List.mem_append_right _ hLater)

/- Nothing behind a reference that ranks below is wanted. -/
theorem Sorted.none_inline
    (hSorted : Sorted (iref :: irefs))
    (hBelow :
      extentRefType target.parent target.owner < iref.type ∨
        iref.type =
            extentRefType target.parent target.owner ∧
          iref.rank < (target.ref 0).rank) :
    ∀ other ∈ iref :: irefs, ¬target.Inline other := by
  intro other hOther hInline
  have hType := hInline.type
  rcases hInline with ⟨count, hRef⟩
  have hRank : other.rank = (target.ref 0).rank := by
    rw [hRef, target.ref_rank count 0]
  have hLater : Precedes iref other ∨ iref = other := by
    cases hOther with
    | head => exact Or.inr rfl
    | tail _ hIn =>
        exact Or.inl ((List.pairwise_cons.mp hSorted).1 other hIn)
  rcases hLater with hPrecedes | rfl
  · unfold Precedes at hPrecedes
    omega
  · omega

/- The loop finds the place of the wanted reference. -/
theorem scanInline_placed
    (target : Target)
    (place : Nat)
    (hSorted : Sorted irefs) :
    Placed target irefs place
      (scanInline target irefs place) := by
  induction irefs generalizing place with
  | nil =>
      refine Placed.before ?_ ?_
      · intro count
        exact List.pairwise_singleton _ _
      · intro iref hMem
        cases hMem
  | cons iref irefs ih =>
      have hRest := ih (place + 1) hSorted.tail
      have hRefType := target.ref_type
      have hRefRank := fun count => target.ref_rank count 0
      unfold scanInline
      dsimp only
      split_ifs with hBefore hBehind hTarget hPast
      · refine Placed.before ?_
          (hSorted.none_inline (Or.inl hBefore))
        intro count
        refine hSorted.cons (Or.inl ?_)
        rw [hRefType]
        exact hBefore
      · refine Placed.behind hSorted ?_ ?_ hRest
        · intro count
          refine Or.inl ?_
          rw [hRefType]
          exact hBehind
        · intro hInline
          have hType := hInline.type
          omega
      · have hType : iref.type =
            extentRefType target.parent target.owner := by
          omega
        exact Placed.here ((Target.tests hType).1.mp hTarget)
      · have hType : iref.type =
            extentRefType target.parent target.owner := by
          omega
        have hLow := (Target.tests hType).2.mp hPast
        refine Placed.before ?_
          (hSorted.none_inline (Or.inr ⟨hType, hLow⟩))
        intro count
        refine hSorted.cons (Or.inr ⟨?_, ?_⟩)
        · rw [hRefType, hType]
        · rw [hRefRank count]
          omega
      · have hType : iref.type =
            extentRefType target.parent target.owner := by
          omega
        have hTests := Target.tests hType
        refine Placed.behind hSorted ?_ ?_ hRest
        · intro count
          refine Or.inr ⟨?_, ?_⟩
          · rw [hRefType, hType]
          · rw [hRefRank count]
            exact Nat.not_lt.mp fun hLess =>
              hPast (hTests.2.mpr hLess)
        · intro hInline
          exact hTarget (hTests.1.mpr hInline)

/- A list stays sorted when a reference is taken out. -/
theorem Sorted.without
    {before after : List InlineRef}
    (hSorted : Sorted (before ++ iref :: after)) :
    Sorted (before ++ after) := by
  refine hSorted.sublist ?_
  exact (List.sublist_cons_self iref after).append_left before

/- It stays sorted when a reference changes its count. -/
theorem Sorted.recount
    {before after : List InlineRef}
    {other : InlineRef}
    (hSorted : Sorted (before ++ iref :: after))
    (hType : other.type = iref.type)
    (hRank : other.rank = iref.rank) :
    Sorted (before ++ other :: after) := by
  have hSame : ∀ a,
      (Precedes a iref ↔ Precedes a other) ∧
        (Precedes iref a ↔ Precedes other a) := by
    intro a
    unfold Precedes
    rw [hType, hRank]
    exact ⟨Iff.rfl, Iff.rfl⟩
  unfold Sorted at hSorted ⊢
  rw [List.pairwise_append] at hSorted ⊢
  simp only [List.pairwise_cons, List.forall_mem_cons]
    at hSorted ⊢
  simp only [← (hSame _).1, ← (hSame _).2]
  exact hSorted

end Scan

end ExtentRefs

end BtrfsProgs
