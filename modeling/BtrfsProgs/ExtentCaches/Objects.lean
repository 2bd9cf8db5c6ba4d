import BtrfsProgs.ExtentCaches.Ranges

/-
  Cache trees that keep the ranges of several objects apart,
  through the functions whose names end in 2.

  `add_cache_extent2` goes down the tree without looking at
  the objects.  It is right where the comparisons that it
  makes come out as they would with them.

  Main declarations:
    * `Apart` and `Apart.cut`
    * `insertCacheExtent2_spec`
    * `ReachableObjects`
    * `per_object_caches_apart`
-/

----------
-- Ranges of Objects
----------

namespace BtrfsProgs

namespace ExtentCaches

open SearchTree

/- The entry belongs to the object and meets the range. -/
def CacheExtent.Conflicts
    (e : CacheExtent)
    (objectid start size : Nat) : Prop :=
  e.objectid = objectid ∧ e.Overlaps start size

instance
    (e : CacheExtent)
    (objectid start size : Nat) :
    Decidable (e.Conflicts objectid start size) :=
  inferInstanceAs (Decidable (_ ∧ _))

/- The entry comes before a place in an object. -/
def CacheExtent.Below
    (e : CacheExtent)
    (objectid start : Nat) : Prop :=
  e.objectid < objectid ∨
    e.objectid = objectid ∧ e.start + e.size ≤ start

/- The ranges of each object, object after object. -/
structure Apart
    (tree : SearchTree CacheExtent) : Prop where
  bounded : ∀ e ∈ tree.toList, Bounded e.start e.size
  ordered :
    tree.toList.Pairwise fun a b => a.Below b.objectid b.start

section Compare

variable {objectid start size : Nat} {e : CacheExtent}

theorem compRange2_gt
    (hEntry : Bounded e.start e.size) :
    compRange2 objectid start size e = .gt ↔
      e.Below objectid start := by
  unfold compRange2 CacheExtent.Below
  rw [rangeEnd_eq hEntry]
  split
  case isTrue h => exact iff_of_true rfl (.inl h)
  case isFalse h =>
    split
    case isTrue h' =>
      exact iff_of_false (by decide) (by omega)
    case isFalse h' =>
      split
      case isTrue hEnd =>
        exact iff_of_true rfl (.inr ⟨by omega, hEnd⟩)
      case isFalse hEnd =>
        refine iff_of_false ?_ (by omega)
        split <;> simp

theorem compRange2_eq
    (hEntry : Bounded e.start e.size)
    (hRange : Bounded start size) :
    compRange2 objectid start size e = .eq ↔
      e.Conflicts objectid start size := by
  unfold compRange2 CacheExtent.Conflicts CacheExtent.Overlaps
  rw [rangeEnd_eq hEntry, rangeEnd_eq hRange]
  split
  case isTrue h => exact iff_of_false (by decide) (by omega)
  case isFalse h =>
    split
    case isTrue h' =>
      exact iff_of_false (by decide) (by omega)
    case isFalse h' =>
      split
      case isTrue hEnd =>
        exact iff_of_false (by decide) (by omega)
      case isFalse hEnd =>
        split
        case isTrue hEnd' =>
          exact iff_of_false (by decide) (by omega)
        case isFalse hEnd' => exact iff_of_true rfl (by omega)

theorem compRange2_lt
    (hEntry : Bounded e.start e.size) :
    compRange2 objectid start size e = .lt ↔
      objectid < e.objectid ∨
        e.objectid = objectid ∧ start < e.start + e.size ∧
          rangeEnd start size ≤ e.start := by
  unfold compRange2
  rw [rangeEnd_eq hEntry]
  split
  case isTrue h => exact iff_of_false (by decide) (by omega)
  case isFalse h =>
    split
    case isTrue h' => exact iff_of_true rfl (.inl h')
    case isFalse h' =>
      split
      case isTrue hEnd =>
        exact iff_of_false (by decide) (by omega)
      case isFalse hEnd =>
        split
        case isTrue hEnd' =>
          exact iff_of_true rfl (by omega)
        case isFalse hEnd' =>
          exact iff_of_false (by decide) (by omega)

end Compare

theorem Apart.cut
    {tree : SearchTree CacheExtent}
    (objectid start size : Nat)
    (hApart : Apart tree) :
    Cut (compRange2 objectid start size) tree := by
  unfold Cut
  apply List.Pairwise.imp_of_mem ?_ hApart.ordered
  intro a b ha hb hOrder
  have hFirst := hApart.bounded a ha
  have hSecond := hApart.bounded b hb
  rw [compRange2_lt hFirst, compRange2_lt hSecond,
    compRange2_gt hFirst, compRange2_gt hSecond]
  unfold CacheExtent.Below at hOrder ⊢
  exact ⟨fun h => by omega, fun h => by omega⟩

----------
-- Operations
----------

section Operations

variable {tree : SearchTree CacheExtent}

/- Only a range of the same object keeps a range out. -/
theorem insertCacheExtent2_spec
    (color : Rebalance CacheExtent)
    (pe : CacheExtent)
    (hApart : Apart tree)
    (hBounded : Bounded pe.start pe.size) :
    let result := insertCacheExtent2 color tree pe
    (result.1 = false ↔ ∃ e ∈ tree.toList,
      e.Conflicts pe.objectid pe.start pe.size) ∧
      (result.1 = false → result.2 = tree) ∧
      (result.1 = true →
        result.2.toList.Perm (pe :: tree.toList)) ∧
      Apart result.2 := by
  have hInsert := insert_ordered
    (hApart.cut pe.objectid pe.start pe.size) hApart.ordered
    (x := pe)
    (fun a ha => (compRange2_gt (hApart.bounded a ha)).mp)
    (fun a ha hLt => by
      rw [compRange2_lt (hApart.bounded a ha),
        rangeEnd_eq hBounded] at hLt
      unfold CacheExtent.Below
      omega)
  unfold insertCacheExtent2
  split at hInsert
  case h_1 hNone =>
    rcases hInsert with ⟨e, he, hDir⟩
    have hMeets := (compRange2_eq (hApart.bounded e he)
      hBounded).mp hDir
    rw [hNone]
    exact ⟨iff_of_true rfl ⟨e, he, hMeets⟩, fun _ => rfl,
      fun h => Bool.noConfusion h, hApart⟩
  case h_2 tree' hSome =>
    rcases hInsert with ⟨hFree, hPerm, hOrder⟩
    have hList := color.toList_run tree'
    rw [← hList] at hPerm hOrder
    rw [hSome]
    refine ⟨?_, fun h => Bool.noConfusion h, fun _ => hPerm,
      ?_, hOrder⟩
    · refine iff_of_false (fun h => Bool.noConfusion h) ?_
      rintro ⟨e, he, hMeets⟩
      exact hFree e he ((compRange2_eq
        (hApart.bounded e he) hBounded).mpr hMeets)
    · intro e he
      rcases List.mem_cons.mp (hPerm.mem_iff.mp he)
        with rfl | he
      · exact hBounded
      · exact hApart.bounded e he

/-
  The comparisons by address that the descent makes come out
  as those by object and address do.
-/
def SameTurns
    (tree : SearchTree CacheExtent)
    (objectid start size : Nat) : Prop :=
  SameWay (compRange start size)
    (compRange2 objectid start size) tree

theorem addCacheExtent2_eq
    (color : Rebalance CacheExtent)
    {objectid start size : Nat}
    (hTurns : SameTurns tree objectid start size) :
    addCacheExtent2 color tree objectid start size =
      insertCacheExtent2 color tree
        ⟨objectid, start, size⟩ := by
  have hSame := insert_sameWay
    (⟨objectid, start, size⟩ : CacheExtent) tree hTurns
  unfold addCacheExtent2 doAddCacheExtent insertCacheExtent
    insertCacheExtent2
  rw [hSame]

theorem lookupCacheExtent2_spec
    (objectid : Nat)
    {start size : Nat}
    (hApart : Apart tree)
    (hRange : Bounded start size) :
    match lookupCacheExtent2 tree objectid start size with
    | some p =>
        p.tree = tree ∧ p.node.Conflicts objectid start size
    | none => ∀ e ∈ tree.toList,
        ¬ e.Conflicts objectid start size := by
  have hSearch := TreePlace.search_spec
    (hApart.cut objectid start size)
  unfold lookupCacheExtent2
  split at hSearch
  case h_1 p hFound =>
    rcases hSearch with ⟨rfl, hDir⟩
    rw [hFound]
    exact ⟨rfl, (compRange2_eq (hApart.bounded _ p.node_mem)
      hRange).mp hDir⟩
  case h_2 hNone =>
    rw [hNone]
    intro e he hMeets
    exact hSearch e he ((compRange2_eq
      (hApart.bounded e he) hRange).mpr hMeets)

theorem lookupCacheExtent2_mem
    {objectid start size : Nat}
    {p : TreePlace CacheExtent}
    (hFound :
      lookupCacheExtent2 tree objectid start size = some p) :
    p.node ∈ tree.toList := by
  rw [← TreePlace.search_tree hFound]
  exact p.node_mem

theorem lookupCacheExtent2_pos
    {objectid size : Nat}
    {p : TreePlace CacheExtent}
    (hApart : Apart tree)
    (hFound :
      lookupCacheExtent2 tree objectid p.node.start size =
        some p) :
    0 < size := by
  have hMeets := (TreePlace.search_found
    (hApart.cut objectid p.node.start size) hFound).2
  by_contra hNot
  have hZero : size = 0 := by omega
  have hBounded := hApart.bounded _
    (lookupCacheExtent2_mem hFound)
  have hRange : Bounded p.node.start 0 := by
    unfold Bounded at hBounded ⊢
    omega
  rw [hZero, compRange2_eq hBounded hRange] at hMeets
  exact absurd hMeets.2.1 (by omega)

/- A range of an object is found as it is. -/
theorem lookupCacheExtent2_self
    {e : CacheExtent}
    (hApart : Apart tree)
    (hEntry : e ∈ tree.toList)
    (hPos : 0 < e.size) :
    ∃ p,
      lookupCacheExtent2 tree e.objectid e.start e.size =
          some p ∧
        p.node = e := by
  have hSpec := lookupCacheExtent2_spec e.objectid hApart
    (hApart.bounded e hEntry)
  cases hFound :
      lookupCacheExtent2 tree e.objectid e.start e.size with
  | none =>
      rw [hFound] at hSpec
      refine absurd ⟨rfl, ?_⟩ (hSpec e hEntry)
      unfold CacheExtent.Overlaps
      omega
  | some p =>
      rw [hFound] at hSpec
      refine ⟨p, rfl, ?_⟩
      by_contra hOther
      have hOrder := either_before hApart.ordered
        (lookupCacheExtent2_mem hFound) hEntry hOther
      rcases hSpec.2 with ⟨hObject, hMeets⟩
      unfold CacheExtent.Overlaps at hMeets
      unfold CacheExtent.Below at hOrder
      omega

/- A search gives the first entry that is not before. -/
theorem searchCacheExtent2_spec
    (objectid start : Nat)
    (hApart : Apart tree) :
    match searchCacheExtent2 tree objectid start with
    | some p =>
        p.tree = tree ∧ ¬ p.node.Below objectid start ∧
          ∀ e ∈ p.before, e.Below objectid start
    | none => ∀ e ∈ tree.toList, e.Below objectid start := by
  have hGtIff : ∀ e ∈ tree.toList,
      compRange2 objectid start 1 e = .gt ↔
        e.Below objectid start :=
    fun e he => compRange2_gt (hApart.bounded e he)
  have hFirst : ∀ before e after,
      tree.toList = before ++ e :: after →
      compRange2 objectid start 1 e = .eq →
      ∀ b ∈ before, compRange2 objectid start 1 b = .gt := by
    intro before e after hList hDir b hb
    have hOrder := hApart.ordered
    rw [hList] at hOrder
    have hBefore := (List.pairwise_append.mp hOrder).2.2 b hb
      e List.mem_cons_self
    have hMem : e ∈ tree.toList := by
      rw [hList]
      exact List.mem_append_right _ List.mem_cons_self
    -- the node that is met starts at or below
    have hLow : ¬ (objectid < e.objectid ∨
        e.objectid = objectid ∧ start < e.start) := by
      intro hNot
      have hLt : compRange2 objectid start 1 e = .lt := by
        rw [compRange2_lt (hApart.bounded e hMem)]
        have hLess : rangeEnd start 1 ≤ start + 1 :=
          Nat.mod_le _ _
        omega
      rw [hLt] at hDir
      cases hDir
    unfold CacheExtent.Below at hBefore hGtIff
    apply (hGtIff b ?_).mpr (by omega)
    rw [hList]
    exact List.mem_append_left _ hb
  have hSearch := TreePlace.foundOrNext_spec
    (hApart.cut objectid start 1) hFirst
  unfold searchCacheExtent2
  split at hSearch
  case h_1 p hSome =>
    rcases hSearch with ⟨rfl, hDir, hBefore⟩
    rw [hSome]
    refine ⟨rfl, ?_, ?_⟩
    · rwa [Ne, hGtIff _ p.node_mem] at hDir
    · intro e he
      apply (hGtIff e ?_).mp (hBefore e he)
      rw [p.toList_tree]
      exact List.mem_append_left _ he
  case h_2 hNone =>
    rw [hNone]
    exact fun e he => (hGtIff e he).mp (hSearch e he)

/- In an object it gives the lowest range that ends above. -/
theorem searchCacheExtent2_object
    (objectid start : Nat)
    (hApart : Apart tree) :
    ((∃ p, searchCacheExtent2 tree objectid start = some p ∧
        p.node.objectid = objectid) ↔
      ∃ e ∈ tree.toList, e.objectid = objectid ∧
        start < e.start + e.size) ∧
    ∀ p, searchCacheExtent2 tree objectid start = some p →
      p.node.objectid = objectid →
      p.node ∈ tree.toList ∧
        start < p.node.start + p.node.size ∧
        ∀ e ∈ tree.toList, e.objectid = objectid →
          start < e.start + e.size →
          p.node.start ≤ e.start := by
  have hSpec := searchCacheExtent2_spec objectid start hApart
  cases hSearch : searchCacheExtent2 tree objectid start with
  | none =>
      rw [hSearch] at hSpec
      refine ⟨iff_of_false (by simp) ?_, by simp⟩
      rintro ⟨e, he, hObject, hEnd⟩
      have hBelow := hSpec e he
      unfold CacheExtent.Below at hBelow
      omega
  | some p =>
      rw [hSearch] at hSpec
      rcases hSpec with ⟨rfl, hNode, hBefore⟩
      have hOrder := hApart.ordered
      rw [p.toList_tree] at hOrder
      have hAfter := (List.pairwise_cons.mp
        (List.pairwise_append.mp hOrder).2.1).1
      -- what ends above in the object is not before the node
      have hFrom : ∀ e ∈ p.tree.toList,
          e.objectid = objectid → start < e.start + e.size →
          e = p.node ∨ p.node.Below e.objectid e.start := by
        intro e he hObject hEnd
        rw [p.toList_tree] at he
        rcases List.mem_append.mp he with he | he
        · have hBelow := hBefore e he
          unfold CacheExtent.Below at hBelow
          omega
        · rcases List.mem_cons.mp he with he | he
          · exact .inl he
          · exact .inr (hAfter e he)
      unfold CacheExtent.Below at hNode hFrom
      refine ⟨⟨?_, ?_⟩, ?_⟩
      · rintro ⟨q, hq, hObject⟩
        cases hq
        exact ⟨p.node, p.node_mem, hObject, by omega⟩
      · rintro ⟨e, he, hObject, hEnd⟩
        refine ⟨p, rfl, ?_⟩
        rcases hFrom e he hObject hEnd with rfl | hLess
        · exact hObject
        · omega
      · intro q hq hObject
        cases hq
        refine ⟨p.node_mem, by omega, ?_⟩
        intro e he hSame hEnd
        rcases hFrom e he hSame hEnd with rfl | hLess
        · exact Nat.le_refl _
        · omega

end Operations

----------
-- Runs
----------

/- A call that puts a range into a tree of objects. -/
inductive ObjectOp where
  | insert (pe : CacheExtent)
  | add (objectid start size : Nat)

def ObjectOp.entry : ObjectOp → CacheExtent
  | .insert pe => pe
  | .add objectid start size => ⟨objectid, start, size⟩

def ObjectOp.run
    (color : Rebalance CacheExtent)
    (tree : SearchTree CacheExtent) :
    ObjectOp → Bool × SearchTree CacheExtent
  | .insert pe => insertCacheExtent2 color tree pe
  | .add objectid start size =>
      addCacheExtent2 color tree objectid start size

/- The call compares addresses only where that is enough. -/
def ObjectOp.Ok
    (tree : SearchTree CacheExtent) : ObjectOp → Prop
  | .insert _ => True
  | .add objectid start size =>
      SameTurns tree objectid start size

theorem ObjectOp.run_eq
    {tree : SearchTree CacheExtent}
    {op : ObjectOp}
    (color : Rebalance CacheExtent)
    (hOk : op.Ok tree) :
    op.run color tree =
      insertCacheExtent2 color tree op.entry := by
  cases op with
  | insert pe => rfl
  | add objectid start size =>
      exact addCacheExtent2_eq color hOk

/-
  The trees that sequences of calls come to, each with the
  ranges whose calls returned 0.
-/
inductive ReachableObjects :
    SearchTree CacheExtent → List CacheExtent → Prop
  | init : ReachableObjects .leaf []
  | step
      {tree : SearchTree CacheExtent}
      {added : List CacheExtent}
      (color : Rebalance CacheExtent)
      (op : ObjectOp)
      (hTree : ReachableObjects tree added)
      (hBounded : Bounded op.entry.start op.entry.size)
      (hOk : op.Ok tree) :
      ReachableObjects (op.run color tree).2
        (if (op.run color tree).1 then op.entry :: added
          else added)

theorem ReachableObjects.apart
    {tree : SearchTree CacheExtent}
    {added : List CacheExtent}
    (hReachable : ReachableObjects tree added) :
    Apart tree ∧ tree.toList.Perm added := by
  induction hReachable with
  | init =>
      exact ⟨⟨by simp [toList], List.Pairwise.nil⟩, .refl _⟩
  | step color op _ hBounded hOk ih =>
      rw [op.run_eq color hOk]
      obtain ⟨-, hSame, hNew, hApart⟩ :=
        insertCacheExtent2_spec color op.entry ih.1 hBounded
      refine ⟨hApart, ?_⟩
      split
      case isTrue hDone =>
        exact (hNew hDone).trans (ih.2.cons op.entry)
      case isFalse hDone =>
        rw [hSame (by simpa using hDone)]
        exact ih.2

/-
  In every tree that is reached a call fails only for a range
  of its own object, and lookups and searches in an object see
  exactly what was added to it.
-/
theorem per_object_caches_apart
    {tree : SearchTree CacheExtent}
    {added : List CacheExtent}
    (hReachable : ReachableObjects tree added) :
    (∀ color, ∀ op : ObjectOp,
      Bounded op.entry.start op.entry.size → op.Ok tree →
      ((op.run color tree).1 = false ↔
        ∃ e ∈ added, e.Conflicts op.entry.objectid
          op.entry.start op.entry.size)) ∧
    (∀ objectid start size, Bounded start size →
      match lookupCacheExtent2 tree objectid start size with
      | some p =>
          p.node ∈ added ∧
            p.node.Conflicts objectid start size
      | none => ∀ e ∈ added,
          ¬ e.Conflicts objectid start size) ∧
    (∀ objectid start,
      ((∃ p, searchCacheExtent2 tree objectid start = some p ∧
          p.node.objectid = objectid) ↔
        ∃ e ∈ added, e.objectid = objectid ∧
          start < e.start + e.size) ∧
      ∀ p, searchCacheExtent2 tree objectid start = some p →
        p.node.objectid = objectid →
        p.node ∈ added ∧ start < p.node.start + p.node.size ∧
          ∀ e ∈ added, e.objectid = objectid →
            start < e.start + e.size →
            p.node.start ≤ e.start) := by
  obtain ⟨hApart, hPerm⟩ := hReachable.apart
  refine ⟨?_, ?_, ?_⟩
  · intro color op hBounded hOk
    rw [op.run_eq color hOk]
    have hSpec := (insertCacheExtent2_spec color op.entry
      hApart hBounded).1
    simpa only [hPerm.mem_iff] using hSpec
  · intro objectid start size hRange
    have hSpec := lookupCacheExtent2_spec objectid hApart
      hRange
    split at hSpec
    case h_1 p hSome =>
      rcases hSpec with ⟨rfl, hMeets⟩
      exact ⟨hPerm.mem_iff.mp p.node_mem, hMeets⟩
    case h_2 hNone =>
      exact fun e he => hSpec e (hPerm.mem_iff.mpr he)
  · intro objectid start
    have hSpec := searchCacheExtent2_object objectid start
      hApart
    refine ⟨by simpa only [hPerm.mem_iff] using hSpec.1, ?_⟩
    intro p hSome hObject
    have hFound := hSpec.2 p hSome hObject
    simpa only [hPerm.mem_iff] using hFound

/- Object 2 gets a second range, over that of object 1. -/
theorem per_object_caches_apart_add :
    let first := (insertCacheExtent2 unturned .leaf
      ⟨1, 0, 10⟩).2
    let tree := (addCacheExtent2 unturned first 2 20 5).2
    SameTurns first 2 20 5 ∧
      (insertCacheExtent2 unturned tree ⟨2, 0, 10⟩).1 =
        true := by
  have hTurns : SameTurns
      (insertCacheExtent2 unturned .leaf ⟨1, 0, 10⟩).2
      2 20 5 := ⟨rfl, trivial⟩
  refine ⟨hTurns, ?_⟩
  have hReachable : ReachableObjects
      (addCacheExtent2 unturned (insertCacheExtent2 unturned
        .leaf ⟨1, 0, 10⟩).2 2 20 5).2
      [⟨2, 20, 5⟩, ⟨1, 0, 10⟩] :=
    .step unturned (.add 2 20 5)
      (.step unturned (.insert ⟨1, 0, 10⟩) .init
        (by unfold Bounded; decide) trivial)
      (by unfold Bounded; decide) hTurns
  have hAdd := (per_object_caches_apart hReachable).1 unturned
    (.insert ⟨2, 0, 10⟩) (by unfold Bounded; decide) trivial
  by_contra hNot
  rcases hAdd.mp (Bool.eq_false_iff.mpr hNot) with
    ⟨e, he, hMeets⟩
  have hNone : ∀ e ∈ [⟨2, 20, 5⟩, (⟨1, 0, 10⟩ : CacheExtent)],
      ¬ e.Conflicts 2 0 10 := by decide
  exact hNone e he hMeets

/- A range of object 1 keeps the same one of object 2 out. -/
theorem addCacheExtent2_refused :
    let tree := (addCacheExtent2 unturned .leaf 1 0 10).2
    (addCacheExtent2 unturned tree 2 0 10).1 = false ∧
      ∀ e ∈ tree.toList, ¬ e.Conflicts 2 0 10 := by
  decide

end ExtentCaches

end BtrfsProgs
