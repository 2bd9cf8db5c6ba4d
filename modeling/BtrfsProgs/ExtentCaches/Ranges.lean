import BtrfsProgs.Lib.TreePlace

/-
  The cache trees of `extent-cache.c`, with their shape, as
  sets of disjoint ranges.

  Main declarations:
    * `CacheExtent` and `compRange`
    * `insertCacheExtent`, `removeCacheExtent`
    * `lookupCacheExtent`, `searchCacheExtent`
    * `Reachable` and `cache_tree_disjoint_ranges`
-/

----------
-- Ranges and Comparators
----------

namespace BtrfsProgs

namespace ExtentCaches

open SearchTree

/- `struct cache_extent`, without its tree links. -/
structure CacheExtent where
  objectid : Nat
  start : Nat
  size : Nat
deriving Repr, DecidableEq

/- The end of a range, a sum of two `u64`. -/
def rangeEnd
    (start size : Nat) : Nat :=
  (start + size) % 2 ^ 64

/-
  `cache_tree_comp_range` of an entry with a range: 1 leads to
  the right and -1 to the left.
-/
def compRange
    (start size : Nat)
    (entry : CacheExtent) : Ordering :=
  if rangeEnd entry.start entry.size ≤ start then .gt
  else if rangeEnd start size ≤ entry.start then .lt
  else .eq

/- `cache_tree_comp_range2`. -/
def compRange2
    (objectid start size : Nat)
    (entry : CacheExtent) : Ordering :=
  if entry.objectid < objectid then .gt
  else if objectid < entry.objectid then .lt
  else if rangeEnd entry.start entry.size ≤ start then .gt
  else if rangeEnd start size ≤ entry.start then .lt
  else .eq

/-
  `insert_cache_extent`: whether it returns 0 or `-EEXIST`,
  and the tree, with the shape that `rb_insert_color` gives
  it.
-/
def insertCacheExtent
    (color : Rebalance CacheExtent)
    (tree : SearchTree CacheExtent)
    (pe : CacheExtent) : Bool × SearchTree CacheExtent :=
  match tree.insert (compRange pe.start pe.size) pe with
  | none => (false, tree)
  | some tree' => (true, color.run tree')

/- `insert_cache_extent2`. -/
def insertCacheExtent2
    (color : Rebalance CacheExtent)
    (tree : SearchTree CacheExtent)
    (pe : CacheExtent) : Bool × SearchTree CacheExtent :=
  match
    tree.insert (compRange2 pe.objectid pe.start pe.size) pe
  with
  | none => (false, tree)
  | some tree' => (true, color.run tree')

/- `__add_cache_extent`. -/
def doAddCacheExtent
    (color : Rebalance CacheExtent)
    (tree : SearchTree CacheExtent)
    (objectid start size : Nat) :
    Bool × SearchTree CacheExtent :=
  insertCacheExtent color tree ⟨objectid, start, size⟩

/- `add_cache_extent`. -/
def addCacheExtent
    (color : Rebalance CacheExtent)
    (tree : SearchTree CacheExtent)
    (start size : Nat) : Bool × SearchTree CacheExtent :=
  doAddCacheExtent color tree 0 start size

/- `add_cache_extent2`. -/
def addCacheExtent2
    (color : Rebalance CacheExtent)
    (tree : SearchTree CacheExtent)
    (objectid start size : Nat) :
    Bool × SearchTree CacheExtent :=
  doAddCacheExtent color tree objectid start size

/- `lookup_cache_extent`. -/
def lookupCacheExtent
    (tree : SearchTree CacheExtent)
    (start size : Nat) : Option (TreePlace CacheExtent) :=
  (TreePlace.search (compRange start size) tree).1

/- `lookup_cache_extent2`. -/
def lookupCacheExtent2
    (tree : SearchTree CacheExtent)
    (objectid start size : Nat) :
    Option (TreePlace CacheExtent) :=
  (TreePlace.search (compRange2 objectid start size) tree).1

/- `search_cache_extent`. -/
def searchCacheExtent
    (tree : SearchTree CacheExtent)
    (start : Nat) : Option (TreePlace CacheExtent) :=
  TreePlace.foundOrNext (compRange start 1) tree

/- `search_cache_extent2`. -/
def searchCacheExtent2
    (tree : SearchTree CacheExtent)
    (objectid start : Nat) : Option (TreePlace CacheExtent) :=
  TreePlace.foundOrNext (compRange2 objectid start 1) tree

/- `first_cache_extent`. -/
def firstCacheExtent
    (tree : SearchTree CacheExtent) :
    Option (TreePlace CacheExtent) :=
  TreePlace.first tree

/- `next_cache_extent`. -/
def nextCacheExtent
    (pe : TreePlace CacheExtent) :
    Option (TreePlace CacheExtent) :=
  pe.next

/- `prev_cache_extent`. -/
def prevCacheExtent
    (pe : TreePlace CacheExtent) :
    Option (TreePlace CacheExtent) :=
  pe.prev

/- `remove_cache_extent`. -/
def removeCacheExtent
    (color : Rebalance CacheExtent)
    (pe : TreePlace CacheExtent) : SearchTree CacheExtent :=
  color.run pe.erase

----------
-- Disjoint Ranges
----------

/- A range whose end is a `u64`. -/
def Bounded
    (start size : Nat) : Prop :=
  start + size < 2 ^ 64

/- The entry and the range have an address in common. -/
def CacheExtent.Overlaps
    (e : CacheExtent)
    (start size : Nat) : Prop :=
  e.start < start + size ∧ start < e.start + e.size

instance
    (e : CacheExtent)
    (start size : Nat) : Decidable (e.Overlaps start size) :=
  inferInstanceAs (Decidable (_ ∧ _))

/- Ranges one after another. -/
structure Disjoint
    (tree : SearchTree CacheExtent) : Prop where
  bounded : ∀ e ∈ tree.toList, Bounded e.start e.size
  ordered :
    tree.toList.Pairwise fun a b =>
      a.start + a.size ≤ b.start

section Compare

variable {start size : Nat} {e : CacheExtent}

theorem rangeEnd_eq
    (hBounded : Bounded start size) :
    rangeEnd start size = start + size :=
  Nat.mod_eq_of_lt hBounded

theorem compRange_gt
    (hEntry : Bounded e.start e.size) :
    compRange start size e = .gt ↔
      e.start + e.size ≤ start := by
  unfold compRange
  rw [rangeEnd_eq hEntry]
  split
  case isTrue h => exact iff_of_true rfl h
  case isFalse h =>
    refine iff_of_false ?_ h
    split <;> simp

theorem compRange_lt
    (hEntry : Bounded e.start e.size) :
    compRange start size e = .lt ↔
      start < e.start + e.size ∧
        rangeEnd start size ≤ e.start := by
  unfold compRange
  rw [rangeEnd_eq hEntry]
  split
  case isTrue h => exact iff_of_false (by decide) (by omega)
  case isFalse h =>
    split
    case isTrue h' => exact iff_of_true rfl ⟨by omega, h'⟩
    case isFalse h' => simp [h']

theorem compRange_eq
    (hEntry : Bounded e.start e.size)
    (hRange : Bounded start size) :
    compRange start size e = .eq ↔
      e.Overlaps start size := by
  unfold compRange CacheExtent.Overlaps
  rw [rangeEnd_eq hEntry, rangeEnd_eq hRange]
  split
  case isTrue h => simp [h]
  case isFalse h =>
    split
    case isTrue h' =>
      exact iff_of_false (by decide) (by omega)
    case isFalse h' => exact iff_of_true rfl (by omega)

end Compare

/- The comparator parts disjoint ranges like an order. -/
theorem Disjoint.cut
    {tree : SearchTree CacheExtent}
    (start size : Nat)
    (hDisjoint : Disjoint tree) :
    Cut (compRange start size) tree := by
  unfold Cut
  apply List.Pairwise.imp_of_mem ?_ hDisjoint.ordered
  intro a b ha hb hOrder
  have hFirst := hDisjoint.bounded a ha
  have hSecond := hDisjoint.bounded b hb
  rw [compRange_lt hFirst, compRange_lt hSecond,
    compRange_gt hFirst, compRange_gt hSecond]
  exact ⟨fun h => ⟨by omega, by omega⟩, fun h => by omega⟩

----------
-- Operations
----------

section Operations

variable {tree : SearchTree CacheExtent}

/- A range goes in unless it overlaps one that is there. -/
theorem insertCacheExtent_spec
    (color : Rebalance CacheExtent)
    (pe : CacheExtent)
    (hDisjoint : Disjoint tree)
    (hBounded : Bounded pe.start pe.size) :
    let result := insertCacheExtent color tree pe
    (result.1 = false ↔
      ∃ e ∈ tree.toList, e.Overlaps pe.start pe.size) ∧
      (result.1 = false → result.2 = tree) ∧
      (result.1 = true →
        result.2.toList.Perm (pe :: tree.toList)) ∧
      Disjoint result.2 := by
  have hInsert := insert_ordered
    (hDisjoint.cut pe.start pe.size) hDisjoint.ordered
    (x := pe)
    (fun a ha => (compRange_gt (hDisjoint.bounded a ha)).mp)
    (fun a ha hLt => by
      rw [compRange_lt (hDisjoint.bounded a ha),
        rangeEnd_eq hBounded] at hLt
      exact hLt.2)
  unfold insertCacheExtent
  split at hInsert
  case h_1 hNone =>
    rcases hInsert with ⟨e, he, hDir⟩
    have hMeets := (compRange_eq (hDisjoint.bounded e he)
      hBounded).mp hDir
    rw [hNone]
    exact ⟨iff_of_true rfl ⟨e, he, hMeets⟩, fun _ => rfl,
      fun h => Bool.noConfusion h, hDisjoint⟩
  case h_2 tree' hSome =>
    rcases hInsert with ⟨hFree, hPerm, hOrder⟩
    have hList := color.toList_run tree'
    rw [← hList] at hPerm hOrder
    rw [hSome]
    refine ⟨?_, fun h => Bool.noConfusion h, fun _ => hPerm,
      ?_, hOrder⟩
    · refine iff_of_false (fun h => Bool.noConfusion h) ?_
      rintro ⟨e, he, hMeets⟩
      exact hFree e he ((compRange_eq
        (hDisjoint.bounded e he) hBounded).mpr hMeets)
    · intro e he
      rcases List.mem_cons.mp (hPerm.mem_iff.mp he)
        with rfl | he
      · exact hBounded
      · exact hDisjoint.bounded e he

theorem removeCacheExtent_spec
    (color : Rebalance CacheExtent)
    {pe : TreePlace CacheExtent}
    (hDisjoint : Disjoint pe.tree) :
    (removeCacheExtent color pe).toList =
        pe.before ++ pe.after ∧
      Disjoint (removeCacheExtent color pe) := by
  have hList : (removeCacheExtent color pe).toList =
      pe.before ++ pe.after :=
    (color.toList_run _).trans pe.toList_erase
  have hSub : (pe.before ++ pe.after).Sublist
      pe.tree.toList := by
    rw [pe.toList_tree]
    exact (List.sublist_cons_self pe.node pe.after).append_left
      pe.before
  refine ⟨hList, ?_, ?_⟩
  · rw [hList]
    exact fun e he => hDisjoint.bounded e (hSub.subset he)
  · rw [hList]
    exact hDisjoint.ordered.sublist hSub

/- A lookup finds an overlapping range if there is one. -/
theorem lookupCacheExtent_spec
    {start size : Nat}
    (hDisjoint : Disjoint tree)
    (hRange : Bounded start size) :
    match lookupCacheExtent tree start size with
    | some p => p.tree = tree ∧ p.node.Overlaps start size
    | none =>
        ∀ e ∈ tree.toList, ¬ e.Overlaps start size := by
  have hSearch := TreePlace.search_spec
    (hDisjoint.cut start size)
  unfold lookupCacheExtent
  split at hSearch
  case h_1 p hFound =>
    rcases hSearch with ⟨rfl, hDir⟩
    rw [hFound]
    exact ⟨rfl, (compRange_eq (hDisjoint.bounded _ p.node_mem)
      hRange).mp hDir⟩
  case h_2 hNone =>
    rw [hNone]
    intro e he hMeets
    exact hSearch e he ((compRange_eq
      (hDisjoint.bounded e he) hRange).mpr hMeets)

theorem lookupCacheExtent_mem
    {start size : Nat}
    {p : TreePlace CacheExtent}
    (hFound : lookupCacheExtent tree start size = some p) :
    p.node ∈ tree.toList := by
  rw [← TreePlace.search_tree hFound]
  exact p.node_mem

/- A range that is found where it starts has an address. -/
theorem lookupCacheExtent_pos
    {size : Nat}
    {p : TreePlace CacheExtent}
    (hDisjoint : Disjoint tree)
    (hFound :
      lookupCacheExtent tree p.node.start size = some p) :
    0 < size := by
  have hMeets := (TreePlace.search_found
    (hDisjoint.cut p.node.start size) hFound).2
  by_contra hNot
  have hZero : size = 0 := by omega
  have hBounded := hDisjoint.bounded _
    (lookupCacheExtent_mem hFound)
  have hRange : Bounded p.node.start 0 := by
    unfold Bounded at hBounded ⊢
    omega
  rw [hZero, compRange_eq hBounded hRange] at hMeets
  exact absurd hMeets.1 (by omega)

/- Of two members one comes before the other. -/
theorem either_before
    {α : Type}
    {R : α → α → Prop}
    {xs : List α}
    {a b : α}
    (hPairwise : xs.Pairwise R)
    (hA : a ∈ xs)
    (hB : b ∈ xs)
    (hOther : a ≠ b) :
    R a b ∨ R b a := by
  have hSymm : Std.Symm fun x y => R x y ∨ R y x :=
    ⟨fun _ _ => Or.symm⟩
  have hEither : xs.Pairwise fun x y => R x y ∨ R y x :=
    hPairwise.imp Or.inl
  exact hEither.forall hA hB hOther

/- A range of the tree is found as it is. -/
theorem lookupCacheExtent_self
    {e : CacheExtent}
    (hDisjoint : Disjoint tree)
    (hEntry : e ∈ tree.toList)
    (hPos : 0 < e.size) :
    ∃ p, lookupCacheExtent tree e.start e.size = some p ∧
      p.node = e := by
  have hSpec := lookupCacheExtent_spec hDisjoint
    (hDisjoint.bounded e hEntry)
  cases hFound : lookupCacheExtent tree e.start e.size with
  | none =>
      rw [hFound] at hSpec
      refine absurd ?_ (hSpec e hEntry)
      unfold CacheExtent.Overlaps
      omega
  | some p =>
      rw [hFound] at hSpec
      refine ⟨p, rfl, ?_⟩
      by_contra hOther
      have hOrder := either_before hDisjoint.ordered
        (lookupCacheExtent_mem hFound) hEntry hOther
      have hMeets := hSpec.2
      unfold CacheExtent.Overlaps at hMeets
      omega

/- A search gives the lowest range that ends above. -/
theorem searchCacheExtent_spec
    (start : Nat)
    (hDisjoint : Disjoint tree) :
    match searchCacheExtent tree start with
    | some p =>
        p.tree = tree ∧ start < p.node.start + p.node.size ∧
          ∀ e ∈ p.before, e.start + e.size ≤ start
    | none =>
        ∀ e ∈ tree.toList, e.start + e.size ≤ start := by
  have hGtIff : ∀ e ∈ tree.toList,
      compRange start 1 e = .gt ↔ e.start + e.size ≤ start :=
    fun e he => compRange_gt (hDisjoint.bounded e he)
  have hFirst : ∀ before e after,
      tree.toList = before ++ e :: after →
      compRange start 1 e = .eq →
      ∀ b ∈ before, compRange start 1 b = .gt := by
    intro before e after hList hDir b hb
    have hOrder := hDisjoint.ordered
    rw [hList] at hOrder
    have hBefore := (List.pairwise_append.mp hOrder).2.2 b hb
      e List.mem_cons_self
    have hMem : e ∈ tree.toList := by
      rw [hList]
      exact List.mem_append_right _ List.mem_cons_self
    -- the node that is met starts at or below
    have hLow : e.start ≤ start := by
      by_contra hNot
      have hLt : compRange start 1 e = .lt := by
        rw [compRange_lt (hDisjoint.bounded e hMem)]
        have hLess : rangeEnd start 1 ≤ start + 1 :=
          Nat.mod_le _ _
        exact ⟨by omega, by omega⟩
      rw [hLt] at hDir
      cases hDir
    apply (hGtIff b ?_).mpr (by omega)
    rw [hList]
    exact List.mem_append_left _ hb
  have hSearch := TreePlace.foundOrNext_spec
    (hDisjoint.cut start 1) hFirst
  unfold searchCacheExtent
  split at hSearch
  case h_1 p hSome =>
    rcases hSearch with ⟨rfl, hDir, hBefore⟩
    rw [hSome]
    refine ⟨rfl, ?_, ?_⟩
    · rw [Ne, hGtIff _ p.node_mem] at hDir
      omega
    · intro e he
      apply (hGtIff e ?_).mp (hBefore e he)
      rw [p.toList_tree]
      exact List.mem_append_left _ he
  case h_2 hNone =>
    rw [hNone]
    exact fun e he => (hGtIff e he).mp (hSearch e he)

end Operations

----------
-- Runs
----------

/- A call that changes a cache tree. -/
inductive CacheOp where
  | insert (pe : CacheExtent)
  | add (start size : Nat)
  | remove (pe : TreePlace CacheExtent)

/- The range is a range, and the entry is in the tree. -/
def CacheOp.Ok
    (tree : SearchTree CacheExtent) : CacheOp → Prop
  | .insert pe => 0 < pe.size ∧ Bounded pe.start pe.size
  | .add start size => 0 < size ∧ Bounded start size
  | .remove pe => pe.tree = tree

def CacheOp.run
    (color : Rebalance CacheExtent)
    (tree : SearchTree CacheExtent) :
    CacheOp → SearchTree CacheExtent
  | .insert pe => (insertCacheExtent color tree pe).2
  | .add start size => (addCacheExtent color tree start size).2
  | .remove pe => removeCacheExtent color pe

/- The trees that sequences of calls come to. -/
inductive Reachable : SearchTree CacheExtent → Prop
  | init : Reachable .leaf
  | step
      {tree : SearchTree CacheExtent}
      (color : Rebalance CacheExtent)
      (op : CacheOp)
      (hTree : Reachable tree)
      (hOk : op.Ok tree) : Reachable (op.run color tree)

theorem CacheOp.disjoint
    {tree : SearchTree CacheExtent}
    {op : CacheOp}
    (color : Rebalance CacheExtent)
    (hDisjoint : Disjoint tree)
    (hOk : op.Ok tree) :
    Disjoint (op.run color tree) := by
  cases op with
  | insert pe =>
      exact (insertCacheExtent_spec color pe hDisjoint
        hOk.2).2.2.2
  | add start size =>
      exact (insertCacheExtent_spec color ⟨0, start, size⟩
        hDisjoint hOk.2).2.2.2
  | remove pe =>
      obtain rfl : pe.tree = tree := hOk
      exact (removeCacheExtent_spec color hDisjoint).2

theorem Reachable.disjoint
    {tree : SearchTree CacheExtent}
    (hReachable : Reachable tree) :
    Disjoint tree := by
  induction hReachable with
  | init => exact ⟨by simp [toList], List.Pairwise.nil⟩
  | step color op _ hOk ih => exact op.disjoint color ih hOk

/- Every range of the tree has an address. -/
theorem Reachable.pos
    {tree : SearchTree CacheExtent}
    (hReachable : Reachable tree) :
    ∀ e ∈ tree.toList, 0 < e.size := by
  induction hReachable with
  | init => simp [toList]
  | step color op hTree hOk ih =>
      rename_i tree
      have hDisjoint := hTree.disjoint
      have hInsert : ∀ pe : CacheExtent, 0 < pe.size →
          Bounded pe.start pe.size →
          ∀ e ∈ (insertCacheExtent color tree pe).2.toList,
            0 < e.size := by
        intro pe hPos hBounded e he
        have hSpec := insertCacheExtent_spec color pe
          hDisjoint hBounded
        cases hDone : (insertCacheExtent color tree pe).1 with
        | false =>
            rw [hSpec.2.1 hDone] at he
            exact ih e he
        | true =>
            have hMem := (hSpec.2.2.1 hDone).mem_iff.mp he
            rcases List.mem_cons.mp hMem with rfl | hMem
            · exact hPos
            · exact ih e hMem
      cases op with
      | insert pe => exact hInsert pe hOk.1 hOk.2
      | add start size =>
          exact hInsert ⟨0, start, size⟩ hOk.1 hOk.2
      | remove pe =>
          obtain rfl : pe.tree = tree := hOk
          intro e he
          have hList := (removeCacheExtent_spec color
            hDisjoint).1
          apply ih e
          change e ∈ (removeCacheExtent color pe).toList at he
          rw [hList] at he
          rw [pe.toList_tree]
          rcases List.mem_append.mp he with he | he
          · exact List.mem_append_left _ he
          · exact List.mem_append_right _
              (List.mem_cons_of_mem _ he)

/-
  In every tree that is reached the ranges are disjoint, and
  each call does to them what it does to a set of ranges.
-/
theorem cache_tree_disjoint_ranges
    {tree : SearchTree CacheExtent}
    (hReachable : Reachable tree) :
    (tree.toList.Pairwise fun a b =>
      a.start + a.size ≤ b.start) ∧
    (∀ e ∈ tree.toList, 0 < e.size) ∧
    (∀ color pe, Bounded pe.start pe.size →
      let result := insertCacheExtent color tree pe
      (result.1 = false ↔
        ∃ e ∈ tree.toList, e.Overlaps pe.start pe.size) ∧
      (result.1 = false → result.2 = tree) ∧
      (result.1 = true →
        result.2.toList.Perm (pe :: tree.toList))) ∧
    (∀ color pe, pe.tree = tree →
      (removeCacheExtent color pe).toList =
          pe.before ++ pe.after ∧
        tree.toList = pe.before ++ pe.node :: pe.after) ∧
    (∀ start size, Bounded start size →
      match lookupCacheExtent tree start size with
      | some p => p.tree = tree ∧ p.node.Overlaps start size
      | none =>
          ∀ e ∈ tree.toList, ¬ e.Overlaps start size) ∧
    (∀ start,
      match searchCacheExtent tree start with
      | some p =>
          p.tree = tree ∧ start < p.node.start + p.node.size ∧
            ∀ e ∈ p.before, e.start + e.size ≤ start
      | none =>
          ∀ e ∈ tree.toList, e.start + e.size ≤ start) ∧
    TreePlace.visited tree.toList.length
        (firstCacheExtent tree) = tree.toList ∧
    (∀ p : TreePlace CacheExtent, p.tree = tree →
      (match nextCacheExtent p with
        | none => p.after = []
        | some q =>
            TreePlace.IsAt tree (p.before ++ [p.node]) p.after
              q) ∧
      (match prevCacheExtent p with
        | none => p.before = []
        | some q =>
            q.tree = tree ∧ q.after = p.node :: p.after ∧
              q.before ++ [q.node] = p.before)) := by
  have hDisjoint := hReachable.disjoint
  refine ⟨hDisjoint.ordered, hReachable.pos, ?_, ?_, ?_, ?_,
    TreePlace.visited_first tree, ?_⟩
  · intro color pe hBounded
    have hSpec := insertCacheExtent_spec color pe hDisjoint
      hBounded
    exact ⟨hSpec.1, hSpec.2.1, hSpec.2.2.1⟩
  · rintro color pe rfl
    exact ⟨(removeCacheExtent_spec color hDisjoint).1,
      pe.toList_tree⟩
  · intro start size hRange
    exact lookupCacheExtent_spec hDisjoint hRange
  · intro start
    exact searchCacheExtent_spec start hDisjoint
  · rintro p rfl
    have hNext := p.next_spec
    have hPrev := p.prev_spec
    unfold nextCacheExtent prevCacheExtent
    refine ⟨?_, ?_⟩
    · cases hEq : p.next with
      | none
      | some q => rwa [hEq] at hNext
    · cases hEq : p.prev with
      | none
      | some q => rwa [hEq] at hPrev

/- A tree as it is after two ranges were put in. -/
def twoRanges : SearchTree CacheExtent :=
  .node .leaf ⟨0, 0, 10⟩ (.node .leaf ⟨0, 20, 10⟩ .leaf)

/- Nothing is turned. -/
def unturned : Rebalance CacheExtent where
  run tree := tree
  toList_run _ := rfl

theorem twoRanges_reachable :
    Reachable twoRanges :=
  .step unturned (.add 20 10)
    (.step unturned (.add 0 10) .init
      ⟨by decide, by unfold Bounded; decide⟩)
    ⟨by decide, by unfold Bounded; decide⟩

theorem cache_tree_disjoint_ranges_two :
    (lookupCacheExtent twoRanges 5 20).map
          TreePlace.node = some ⟨0, 0, 10⟩ ∧
      ∀ e ∈ twoRanges.toList, ¬ e.Overlaps 10 10 := by
  refine ⟨by decide, ?_⟩
  have hBounded : Bounded 10 10 := by
    unfold Bounded
    decide
  have hLookup := (cache_tree_disjoint_ranges
    twoRanges_reachable).2.2.2.2.1 10 10 hBounded
  have hNone : lookupCacheExtent twoRanges 10 10 = none := by
    decide
  rw [hNone] at hLookup
  exact hLookup

end ExtentCaches

end BtrfsProgs
