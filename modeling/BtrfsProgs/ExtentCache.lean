import BtrfsProgs.ExtentCaches.Ranges
import BtrfsProgs.Lib.RangeTree

/-
  The extent cache of `extent-cache.c`.

  A cache tree is kept as the in-order list of its entries.
  When several entries meet the range of a lookup, which one
  the red-black search reaches first depends on the shape of
  the tree; a `choice` stands for it.

  Main declarations:
    * `CacheExtent`
    * `addCacheExtent`, `lookupCacheExtent`,
      `removeCacheExtent`
    * `cacheTreeOf` a tree with its shape
-/

----------
-- Entries
----------

namespace BtrfsProgs

open RangeTree

/- `struct cache_extent`, without its tree links. -/
structure CacheExtent where
  start : Nat
  size : Nat
deriving Repr, DecidableEq

instance : Ranged CacheExtent where
  lo e := e.start
  hi e := e.start + e.size

/- A cache tree, in order. -/
abbrev CacheTree : Type := List CacheExtent

/-
  `add_cache_extent`; an entry that meets an old one is not
  added and the caller sees `-EEXIST`.
-/
def addCacheExtent
    (tree : CacheTree)
    (start size : Nat) : Bool × CacheTree :=
  match RangeTree.insert tree ⟨start, size⟩ with
  | some c => (true, c.tree)
  | none => (false, tree)

/- `cache_tree_comp_range` finds the entry in the range. -/
def CacheExtent.Meets
    (e : CacheExtent)
    (start size : Nat) : Prop :=
  ¬ e.start + e.size ≤ start ∧ ¬ start + size ≤ e.start

instance
    (e : CacheExtent)
    (start size : Nat) :
    Decidable (e.Meets start size) := by
  unfold CacheExtent.Meets
  infer_instance

/- `lookup_cache_extent`. -/
def lookupCacheExtent
    (choice : Nat)
    (tree : CacheTree)
    (start size : Nat) : Option CacheExtent :=
  let hits := tree.filter fun e => e.Meets start size
  hits[choice % hits.length]?

/- `remove_cache_extent`. -/
def removeCacheExtent
    (tree : CacheTree)
    (e : CacheExtent) : CacheTree :=
  tree.erase e

/- `search_cache_extent`, with the entries that follow. -/
def searchCacheExtent
    (tree : CacheTree)
    (start : Nat) : Option (CacheExtent × List CacheExtent) :=
  (search tree start).map fun c => (c.node, c.after)

----------
-- The Tree with its Shape
----------

section Shape

variable {tree : SearchTree ExtentCaches.CacheExtent}
variable {start size : Nat}

/- The ranges of a tree that has a shape. -/
def cacheTreeOf
    (tree : SearchTree ExtentCaches.CacheExtent) : CacheTree :=
  tree.toList.map fun e => ⟨e.start, e.size⟩

theorem mem_cacheTreeOf
    {e : ExtentCaches.CacheExtent}
    (hMem : e ∈ tree.toList) :
    ⟨e.start, e.size⟩ ∈ cacheTreeOf tree :=
  List.mem_map.mpr ⟨e, hMem, rfl⟩

theorem cacheTreeOf_ordered
    (hReachable : ExtentCaches.Reachable tree) :
    Ordered (cacheTreeOf tree) where
  nonempty := List.forall_mem_map.mpr fun e hMem =>
    Nat.lt_add_of_pos_right (hReachable.pos e hMem)
  sorted := List.pairwise_map.mpr hReachable.disjoint.ordered

/- Some choice finds what the shape of the tree leads to. -/
theorem lookupCacheExtent_refines
    (hReachable : ExtentCaches.Reachable tree)
    (hRange : ExtentCaches.Bounded start size) :
    ∃ choice,
      lookupCacheExtent choice (cacheTreeOf tree) start size =
        (ExtentCaches.lookupCacheExtent tree start size).map
          fun p => ⟨p.node.start, p.node.size⟩ := by
  have hSpec := ExtentCaches.lookupCacheExtent_spec
    hReachable.disjoint hRange
  have hMeets : ∀ e : ExtentCaches.CacheExtent,
      (⟨e.start, e.size⟩ : CacheExtent).Meets start size ↔
        e.Overlaps start size := by
    intro e
    unfold CacheExtent.Meets ExtentCaches.CacheExtent.Overlaps
    dsimp only
    omega
  unfold lookupCacheExtent
  cases hFound :
      ExtentCaches.lookupCacheExtent tree start size with
  | none =>
      rw [hFound] at hSpec
      have hNone : (cacheTreeOf tree).filter
          (fun r => r.Meets start size) = [] := by
        rw [List.filter_eq_nil_iff]
        refine List.forall_mem_map.mpr fun e hMem hIs => ?_
        exact hSpec e hMem
          ((hMeets e).mp (of_decide_eq_true hIs))
      exact ⟨0, by rw [hNone]; rfl⟩
  | some p =>
      rw [hFound] at hSpec
      have hHit : (⟨p.node.start, p.node.size⟩ : CacheExtent) ∈
          (cacheTreeOf tree).filter fun r =>
            r.Meets start size :=
        List.mem_filter.mpr
          ⟨mem_cacheTreeOf
            (ExtentCaches.lookupCacheExtent_mem hFound),
          decide_eq_true ((hMeets p.node).mpr hSpec.2)⟩
      rcases List.mem_iff_getElem.mp hHit with ⟨i, hI, hIs⟩
      refine ⟨i, ?_⟩
      dsimp only
      rw [Nat.mod_eq_of_lt hI, List.getElem?_eq_getElem hI, hIs]
      rfl

/- A range is added to both, or to none. -/
theorem addCacheExtent_refines
    (color : SearchTree.Rebalance ExtentCaches.CacheExtent)
    (hReachable : ExtentCaches.Reachable tree)
    (hPos : 0 < size)
    (hRange : ExtentCaches.Bounded start size) :
    let added :=
      ExtentCaches.addCacheExtent color tree start size
    addCacheExtent (cacheTreeOf tree) start size =
      (added.1, cacheTreeOf added.2) := by
  have hAdded := cacheTreeOf_ordered
    (hReachable.step color (.add start size) ⟨hPos, hRange⟩)
  intro added
  have hSpec : (added.1 = false ↔ _) ∧ _ :=
    ExtentCaches.insertCacheExtent_spec color
      ⟨0, start, size⟩ hReachable.disjoint hRange
  rcases hSpec with ⟨hRefused, hSame, hPerm, _⟩
  unfold addCacheExtent
  cases hInsert :
      RangeTree.insert (cacheTreeOf tree) ⟨start, size⟩ with
  | none =>
      rcases insert_eq_none hInsert with ⟨_, hMem, hMeets⟩
      rcases List.mem_map.mp hMem with ⟨e, hE, rfl⟩
      have hFalse := hRefused.mpr ⟨e, hE, hMeets.2, hMeets.1⟩
      rw [hFalse]
      exact congrArg (false, cacheTreeOf ·) (hSame hFalse).symm
  | some c =>
      rcases insert_spec hInsert with ⟨hNode, hRest⟩
      have hTree := insert_ordered (cacheTreeOf_ordered hReachable)
        (Nat.lt_add_of_pos_right hPos) hInsert
      have hTrue : added.1 = true := by
        by_contra hNot
        rcases hRefused.mp (Bool.eq_false_iff.mpr hNot) with
          ⟨e, hE, hOver⟩
        rcases Ordered.cursor_iff.mp hTree with
          ⟨_, _, _, hBefore, hAfter, _⟩
        rw [hNode] at hBefore hAfter
        have hIn := mem_cacheTreeOf hE
        rw [hRest, List.mem_append] at hIn
        rcases hIn with hIn | hIn
        · exact absurd hOver.2 (Nat.not_lt.mpr (hBefore _ hIn))
        · exact absurd hOver.1 (Nat.not_lt.mpr (hAfter _ hIn))
      have hList : c.tree = cacheTreeOf added.2 := by
        refine List.Perm.eq_of_pairwise ?_ hTree.sorted
          hAdded.sorted ?_
        · intro a b hA hB hLe hGe
          have hFirst := hTree.nonempty a hA
          have hSecond := hAdded.nonempty b hB
          omega
        · refine List.Perm.trans ?_
            ((hPerm hTrue).map _).symm
          change (c.before ++ c.node :: c.after).Perm
            (_ :: cacheTreeOf tree)
          rw [hNode, hRest]
          exact List.perm_middle
      rw [hTrue]
      exact congrArg (true, ·) hList

end Shape

end BtrfsProgs
