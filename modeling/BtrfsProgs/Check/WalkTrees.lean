import BtrfsProgs.Check.ExtentWalk

/-
  The cache trees of the walk over a forest of tree blocks.

  Blocks of a forest do not overlap, so a cache tree of their
  extents is a finite set: adding, dropping and looking up a
  block's extent concern that block only.

  Main declarations:
    * `Forest` and `Forest.extent`
    * `Forest.Good`
    * `Forest.add_spec` and `Forest.drop_spec`
-/

----------
-- Forests
----------

namespace BtrfsProgs

namespace Check

open RangeTree

variable {ρ : Type}

/- The extent a tree block is stored in. -/
def Device.extent
    (device : Device ρ)
    (b : Nat × Block ρ) : CacheExtent :=
  ⟨b.1, device.levelSize b.2.level⟩

/-
  Tree blocks by address, with the roots that are queued, by
  address and level.  Pointers lead one level down, so there
  is no cycle; blocks may have any number of parents.
-/
structure Forest (ρ : Type) where
  device : Device ρ
  blocks : List (Nat × Block ρ)
  roots : List (Nat × Nat)
  leafsize_pos : 0 < device.leafsize
  nodesize_pos : 0 < device.nodesize
  readable :
    ∀ b ∈ blocks,
      device.readTreeBlock b.1
        (device.levelSize b.2.level) = some b.2
  disjoint :
    blocks.Pairwise fun b c =>
      b.1 + device.levelSize b.2.level ≤ c.1 ∨
        c.1 + device.levelSize c.2.level ≤ b.1
  children_mem :
    ∀ b ∈ blocks, ∀ ptr ∈ b.2.ptrs, ∃ c ∈ blocks,
      c.1 = ptr ∧ c.2.level + 1 = b.2.level
  roots_mem :
    ∀ r ∈ roots, ∃ b ∈ blocks, b.1 = r.1 ∧ b.2.level = r.2

namespace Forest

variable {forest : Forest ρ}

/- The extent of a block of the forest. -/
def extent
    (forest : Forest ρ)
    (b : Nat × Block ρ) : CacheExtent :=
  forest.device.extent b

/- The entry is the extent of a block of the forest. -/
def IsBlock
    (forest : Forest ρ)
    (e : CacheExtent) : Prop :=
  ∃ b ∈ forest.blocks, e = forest.extent b

theorem levelSize_pos
    (forest : Forest ρ)
    (level : Nat) :
    0 < forest.device.levelSize level := by
  unfold Device.levelSize
  split
  · exact forest.leafsize_pos
  · exact forest.nodesize_pos

theorem IsBlock.size_pos
    {e : CacheExtent}
    (hBlock : forest.IsBlock e) :
    0 < e.size := by
  rcases hBlock with ⟨b, _, rfl⟩
  exact forest.levelSize_pos _

variable {b c : Nat × Block ρ}

theorem blocks_apart
    (hb : b ∈ forest.blocks)
    (hc : c ∈ forest.blocks)
    (hNe : b ≠ c) :
    b.1 + forest.device.levelSize b.2.level ≤ c.1 ∨
      c.1 + forest.device.levelSize c.2.level ≤ b.1 := by
  have : Std.Symm fun b c : Nat × Block ρ =>
      b.1 + forest.device.levelSize b.2.level ≤ c.1 ∨
        c.1 + forest.device.levelSize c.2.level ≤ b.1 :=
    ⟨fun _ _ h => h.symm⟩
  exact forest.disjoint.forall hb hc hNe

/- Different blocks do not overlap. -/
theorem IsBlock.apart
    {e f : CacheExtent}
    (he : forest.IsBlock e)
    (hf : forest.IsBlock f)
    (hNe : e ≠ f) :
    e.start + e.size ≤ f.start ∨
      f.start + f.size ≤ e.start := by
  rcases he with ⟨b, hb, rfl⟩
  rcases hf with ⟨c, hc, rfl⟩
  apply blocks_apart hb hc
  intro hSame
  exact hNe (by rw [hSame])

/- A block's address determines the block. -/
theorem block_unique
    (hb : b ∈ forest.blocks)
    (hc : c ∈ forest.blocks)
    (hAddr : b.1 = c.1) :
    b = c := by
  by_contra hNe
  have hFar := blocks_apart hb hc hNe
  have hPos := forest.levelSize_pos b.2.level
  have hPos' := forest.levelSize_pos c.2.level
  omega

theorem extent_inj
    (hb : b ∈ forest.blocks)
    (hc : c ∈ forest.blocks)
    (hEq : forest.extent b = forest.extent c) :
    b = c :=
  block_unique hb hc (congrArg CacheExtent.start hEq)

----------
-- Trees of Extents
----------

/- A cache tree that holds only extents of blocks. -/
structure Good
    (forest : Forest ρ)
    (tree : CacheTree) : Prop where
  ordered : Ordered tree
  blocks : ∀ e ∈ tree, forest.IsBlock e

theorem Good.nil :
    forest.Good [] :=
  ⟨Ordered.nil, by simp⟩

variable {tree : CacheTree}

/- Adding a block's extent adds it to the set. -/
theorem add_spec
    (hGood : forest.Good tree)
    {e : CacheExtent}
    (hBlock : forest.IsBlock e) :
    forest.Good (addCacheExtent tree e.start e.size).2 ∧
      (∀ f, f ∈ (addCacheExtent tree e.start e.size).2 ↔
        f = e ∨ f ∈ tree) ∧
      ((addCacheExtent tree e.start e.size).1 = true ↔
        e ∉ tree) := by
  have hPos : Ranged.lo e < Ranged.hi e :=
    Nat.lt_add_of_pos_right hBlock.size_pos
  unfold addCacheExtent
  cases hInsert : RangeTree.insert tree e with
  | some c =>
      have hOrdered := insert_ordered hGood.ordered hPos hInsert
      have hMem := insert_mem_iff hInsert
      simp only
      refine ⟨⟨hOrdered, ?_⟩, hMem, ?_⟩
      · intro f hf
        rcases (hMem f).mp hf with rfl | hf
        · exact hBlock
        · exact hGood.blocks f hf
      · simp only [true_iff]
        intro hOld
        -- the new node would be listed twice
        rcases insert_spec hInsert with ⟨rfl, rfl⟩
        have hNodup := hOrdered.nodup
        have hFront := (List.perm_middle.nodup_iff).mp hNodup
        exact (List.nodup_cons.mp hFront).1 hOld
  | none =>
      simp only [Bool.false_eq_true, false_iff,
        not_not]
      rcases insert_eq_none hInsert with
        ⟨n, hn, hLow, hHigh⟩
      have hSame : n = e := by
        by_contra hNe
        have hFar := (hGood.blocks n hn).apart hBlock hNe
        simp only [Ranged.lo, Ranged.hi] at hLow hHigh
        omega
      subst hSame
      refine ⟨hGood, ?_, hn⟩
      intro f
      constructor
      · exact Or.inr
      · intro hf
        rcases hf with rfl | hf
        · exact hn
        · exact hf

/- Only a block itself meets its extent. -/
theorem meets_iff
    {e f : CacheExtent}
    (he : forest.IsBlock e)
    (hf : forest.IsBlock f) :
    f.Meets e.start e.size ↔ f = e := by
  constructor
  · intro hMeets
    by_contra hNe
    have hFar := hf.apart he hNe
    unfold CacheExtent.Meets at hMeets
    omega
  · intro hSame
    subst hSame
    have hPos := hf.size_pos
    unfold CacheExtent.Meets
    omega

/- A lookup of a block's extent finds that extent. -/
theorem lookup_eq
    (hGood : forest.Good tree)
    {e : CacheExtent}
    (hBlock : forest.IsBlock e)
    (choice : Nat) :
    lookupCacheExtent choice tree e.start e.size =
      if e ∈ tree then some e else none := by
  have hHits :
      ∀ f ∈ tree.filter (fun f => f.Meets e.start e.size),
        f = e := by
    intro f hf
    rcases List.mem_filter.mp hf with ⟨hMem, hMeets⟩
    exact (meets_iff hBlock (hGood.blocks f hMem)).mp
      (of_decide_eq_true hMeets)
  unfold lookupCacheExtent
  by_cases hMem : e ∈ tree
  · rw [if_pos hMem]
    have hHit :
        e ∈ tree.filter
          (fun f => f.Meets e.start e.size) := by
      apply List.mem_filter.mpr
      exact ⟨hMem, decide_eq_true
        ((meets_iff hBlock hBlock).mpr rfl)⟩
    have hLt := Nat.mod_lt choice
      (List.length_pos_of_mem hHit)
    simp only [List.getElem?_eq_getElem hLt,
      Option.some.injEq]
    exact hHits _ (List.getElem_mem hLt)
  · rw [if_neg hMem]
    have hEmpty :
        tree.filter (fun f => f.Meets e.start e.size) =
          [] := by
      apply List.eq_nil_iff_forall_not_mem.mpr
      intro f hf
      have hSame := hHits f hf
      subst hSame
      exact hMem (List.mem_filter.mp hf).1
    simp only [hEmpty, List.getElem?_nil]

/- Dropping a block's extent drops it from the set. -/
theorem drop_spec
    (hGood : forest.Good tree)
    {e : CacheExtent}
    (hBlock : forest.IsBlock e)
    (choice : Nat) :
    forest.Good (dropCacheExtent choice tree e.start e.size) ∧
      ∀ f, f ∈ dropCacheExtent choice tree e.start e.size ↔
        f ∈ tree ∧ f ≠ e := by
  have hErase :
      dropCacheExtent choice tree e.start e.size =
        tree.erase e := by
    unfold dropCacheExtent
    rw [lookup_eq hGood hBlock]
    by_cases hMem : e ∈ tree
    · rw [if_pos hMem]
      rfl
    · rw [if_neg hMem, List.erase_of_not_mem hMem]
  rw [hErase]
  refine ⟨⟨hGood.ordered.sublist List.erase_sublist, ?_⟩, ?_⟩
  · intro f hf
    exact hGood.blocks f (List.mem_of_mem_erase hf)
  · intro f
    rw [hGood.ordered.nodup.mem_erase_iff]
    exact and_comm

/- What a search returns is in the tree. -/
theorem search_mem
    {start : Nat}
    {cache : CacheExtent}
    {rest : List CacheExtent}
    (hSearch :
      searchCacheExtent tree start = some (cache, rest)) :
    ∀ e ∈ cache :: rest, e ∈ tree := by
  unfold searchCacheExtent at hSearch
  rcases Option.map_eq_some_iff.mp hSearch with
    ⟨c, hFound, hEq⟩
  cases hEq
  rcases search_spec hFound with ⟨rfl, _, _⟩
  intro e he
  exact List.mem_append_right _ he

/- A search from the start fails only in an empty tree. -/
theorem search_zero_eq_none
    (hGood : forest.Good tree)
    (hSearch : searchCacheExtent tree 0 = none) :
    tree = [] := by
  unfold searchCacheExtent at hSearch
  have hNone := search_eq_none
    (Option.map_eq_none_iff.mp hSearch)
  apply List.eq_nil_iff_forall_not_mem.mpr
  intro e he
  have hEnd : e.start + e.size ≤ 0 := hNone e he
  have hPos := (hGood.blocks e he).size_pos
  omega

end Forest

end Check

end BtrfsProgs
