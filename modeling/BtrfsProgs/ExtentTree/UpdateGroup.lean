import BtrfsProgs.Basic
import BtrfsProgs.ExtentIo.Uniform
import BtrfsProgs.Lib.Loop

/-
  `update_block_group`, from `extent-tree.c`.

  The totals of the superblock and of the root are changed
  before a group is looked up, so nothing is taken back where
  the range turns out to leave the groups.

  Main declarations:
    * `Books`
    * `updateTurn` and `updateBlockGroup`
    * `Atomic`
    * `updateBlockGroup_atomic_iff`
    * `updateAll_net`
-/

----------
-- The Function
----------

namespace BtrfsProgs

namespace GroupBooks

open ExtentIo

/-
  `struct btrfs_block_group_cache`, with its space info by a
  number and the dirty bit of its state.
-/
structure BlockGroup where
  start : Nat
  size : Nat
  used : Nat
  space_info : Nat
  dirty : Bool
deriving Repr, DecidableEq

/- The byte behind the group. -/
def BlockGroup.end_
    (group : BlockGroup) : Nat :=
  group.start + group.size

/-
  What the function works on: the groups by their place, and
  the `bytes_used` of the superblock, of the root and of the
  space infos.
-/
structure Books where
  super_used : Nat
  root_used : Nat
  groups : List BlockGroup
  space_used : Nat → Nat
  free_space_cache : ExtentIoTree

/- `old_val += num_bytes` or `old_val -= num_bytes`. -/
def charge
    (alloc : Bool)
    (old_val num_bytes : Nat) : Nat :=
  if alloc then (old_val + num_bytes) % 2 ^ 64
  else u64Sub old_val num_bytes

/- `btrfs_lookup_block_group`. -/
def lookupBlockGroup
    (groups : List BlockGroup)
    (bytenr : Nat) : Option BlockGroup :=
  match groups.find? fun g => bytenr < g.end_ with
  | none => none
  | some g => if g.start ≤ bytenr then some g else none

/- The variables of the loop. -/
structure UpdateState where
  books : Books
  bytenr : Nat
  total : Nat

/- The group with what it is charged for. -/
def chargeGroup
    (alloc : Bool)
    (start num_bytes : Nat)
    (g : BlockGroup) : BlockGroup :=
  if g.start = start then
    { g with
      used := charge alloc g.used num_bytes
      dirty := true }
  else
    g

/- The space infos with what one of them is charged for. -/
def chargeSpace
    (alloc : Bool)
    (space_info num_bytes : Nat)
    (used : Nat → Nat) : Nat → Nat :=
  Function.update used space_info
    (charge alloc (used space_info) num_bytes)

/-
  A turn of the loop; `none` is a failed `BUG_ON` of
  `set_extent_dirty`.
-/
def updateTurn
    (alloc mark_free : Bool)
    (s : UpdateState) : UpdateState ⊕ Option (Int × Books) :=
  if s.total = 0 then .inr (some (0, s.books))
  else
    match lookupBlockGroup s.books.groups s.bytenr with
    | none => .inr (some (-1, s.books))
    | some cache =>
        let byte_in_group := s.bytenr - cache.start
        let num_bytes := min s.total (cache.size - byte_in_group)
        let free :=
          if !alloc && mark_free then
            setExtentDirty s.books.free_space_cache s.bytenr
              (s.bytenr + num_bytes - 1)
          else
            some s.books.free_space_cache
        match free with
        | none => .inr none
        | some free =>
            .inl
              { books :=
                  { s.books with
                    groups := s.books.groups.map
                      (chargeGroup alloc cache.start num_bytes)
                    space_used :=
                      chargeSpace alloc cache.space_info
                        num_bytes s.books.space_used
                    free_space_cache := free }
                bytenr := s.bytenr + num_bytes
                total := s.total - num_bytes }

/- `update_block_group`, for some turns of its loop. -/
def updateBlockGroup
    (books : Books)
    (bytenr num_bytes : Nat)
    (alloc mark_free : Bool)
    (fuel : Nat) : Option (Option (Int × Books)) :=
  Loop.run (updateTurn alloc mark_free) fuel
    { books :=
        { books with
          super_used := charge alloc books.super_used num_bytes
          root_used := charge alloc books.root_used num_bytes }
      bytenr := bytenr
      total := num_bytes }

----------
-- Atomicity
----------

/- The bytes of a range that a group has. -/
def BlockGroup.overlap
    (g : BlockGroup)
    (bytenr num_bytes : Nat) : Nat :=
  min g.end_ (bytenr + num_bytes) - max g.start bytenr

/- The block groups of a filesystem, and what is in 64 bits. -/
structure Books.Ok
    (books : Books) : Prop where
  ordered :
    books.groups.Pairwise fun a b => a.end_ ≤ b.start
  nonempty : ∀ g ∈ books.groups, 0 < g.size
  bounded : ∀ g ∈ books.groups, g.end_ < u64Max
  used : ∀ g ∈ books.groups, g.used < 2 ^ 64
  super_used : books.super_used < 2 ^ 64
  free : Uniform EXTENT_DIRTY books.free_space_cache

/- Nothing is counted in another way, and nothing is freed. -/
structure Unchanged
    (before after : Books) : Prop where
  super_used : after.super_used = before.super_used
  root_used : after.root_used = before.root_used
  used :
    after.groups.map BlockGroup.used =
      before.groups.map BlockGroup.used
  space_used : after.space_used = before.space_used
  free : after.free_space_cache = before.free_space_cache

/- The group after it was charged for what it has. -/
def Charged
    (alloc : Bool)
    (bytenr num_bytes : Nat)
    (g g' : BlockGroup) : Prop :=
  g'.start = g.start ∧ g'.size = g.size ∧
    g'.used = charge alloc g.used (g.overlap bytenr num_bytes)

/- An error changes nothing, and 0 charges every group. -/
def Atomic
    (before : Books)
    (alloc : Bool)
    (bytenr num_bytes : Nat)
    (result : Int × Books) : Prop :=
  (result.1 ≠ 0 → Unchanged before result.2) ∧
    (result.1 = 0 →
      List.Forall₂ (Charged alloc bytenr num_bytes)
        before.groups result.2.groups)

/- Every byte of the range is in a group. -/
def Covered
    (groups : List BlockGroup)
    (bytenr num_bytes : Nat) : Prop :=
  ∀ x, bytenr ≤ x → x < bytenr + num_bytes →
    ∃ g ∈ groups, g.start ≤ x ∧ x < g.end_

----------
-- Charges
----------

section Charges

variable {alloc : Bool}
variable {v a b n : Nat}

theorem charge_lt
    (alloc : Bool)
    (v n : Nat) :
    charge alloc v n < 2 ^ 64 := by
  unfold charge u64Sub
  split
  · exact Nat.mod_lt _ (by decide)
  · exact Nat.mod_lt _ (by decide)

theorem charge_zero
    (hFits : v < 2 ^ 64) :
    charge alloc v 0 = v := by
  unfold charge u64Sub
  split
  · exact Nat.mod_eq_of_lt hFits
  · omega

theorem charge_add
    (hFits : a + b < 2 ^ 64) :
    charge alloc (charge alloc v a) b =
      charge alloc v (a + b) := by
  unfold charge u64Sub
  split
  · omega
  · omega

/- What is charged for some bytes is another number. -/
theorem charge_ne
    (hFits : v < 2 ^ 64)
    (hPos : 0 < n)
    (hMost : n < 2 ^ 64) :
    charge alloc v n ≠ v := by
  unfold charge u64Sub
  split
  · omega
  · omega

end Charges

----------
-- A Turn
----------

section Turn

variable {alloc mark_free : Bool}
variable {books : Books}
variable {groups groups' groups'' : List BlockGroup}
variable {cache g g' : BlockGroup}
variable {bytenr num_bytes : Nat}

/- The group that is found is the one that has the byte. -/
theorem lookupBlockGroup_some
    (hFound : lookupBlockGroup groups bytenr = some cache) :
    cache ∈ groups ∧ cache.start ≤ bytenr ∧
      bytenr < cache.end_ := by
  unfold lookupBlockGroup at hFound
  cases hFind : groups.find? fun g =>
      decide (bytenr < g.end_) with
  | none =>
      rw [hFind] at hFound
      cases hFound
  | some g =>
      have hBehind := List.find?_some hFind
      rw [decide_eq_true_eq] at hBehind
      rw [hFind] at hFound
      dsimp only at hFound
      split_ifs at hFound with hStart
      cases hFound
      exact ⟨List.mem_of_find?_eq_some hFind, hStart, hBehind⟩

theorem lookupBlockGroup_none
    (hOrdered :
      groups.Pairwise fun a b => a.end_ ≤ b.start)
    (hNone : lookupBlockGroup groups bytenr = none) :
    ∀ g ∈ groups, ¬ (g.start ≤ bytenr ∧ bytenr < g.end_) := by
  intro g hg hIn
  unfold lookupBlockGroup at hNone
  cases hFind : groups.find? fun g =>
      decide (bytenr < g.end_) with
  | none =>
      have hAll := List.find?_eq_none.mp hFind g hg
      rw [decide_eq_true_eq] at hAll
      exact hAll hIn.2
  | some first =>
      rw [hFind] at hNone
      dsimp only at hNone
      split_ifs at hNone with hStart
      rcases List.find?_eq_some_iff_append.mp hFind with
        ⟨_, before, after, rfl, hBefore⟩
      -- the group is the first one, or behind it
      rcases List.mem_append.mp hg with hg | hg
      · have hNot := hBefore g hg
        rw [Bool.not_eq_true', decide_eq_false_iff_not] at hNot
        exact hNot hIn.2
      · rcases List.mem_cons.mp hg with rfl | hg
        · exact hStart hIn.1
        · have hRest := (List.pairwise_append.mp hOrdered).2.1
          have hLater := (List.pairwise_cons.mp hRest).1 g hg
          have hEnd : first.start ≤ first.end_ :=
            Nat.le_add_right _ _
          omega

/- A group has nothing of a range that another one has. -/
theorem overlap_eq_zero
    (hApart : g.end_ ≤ cache.start ∨ cache.end_ ≤ g.start)
    (hLow : cache.start ≤ bytenr)
    (hHigh : bytenr + num_bytes ≤ cache.end_) :
    g.overlap bytenr num_bytes = 0 := by
  unfold BlockGroup.overlap
  omega

theorem overlap_eq_all
    (hLow : cache.start ≤ bytenr)
    (hHigh : bytenr + num_bytes ≤ cache.end_) :
    cache.overlap bytenr num_bytes = num_bytes := by
  unfold BlockGroup.overlap
  omega

theorem overlap_add
    (g : BlockGroup)
    (bytenr m n : Nat) :
    g.overlap bytenr (m + n) =
      g.overlap bytenr m + g.overlap (bytenr + m) n := by
  have hEnd : g.start ≤ g.end_ := Nat.le_add_right _ _
  unfold BlockGroup.overlap
  omega

/- Two groups of the books do not share a byte. -/
theorem Books.Ok.apart
    (hOk : books.Ok)
    (hFirst : g ∈ books.groups)
    (hSecond : cache ∈ books.groups) :
    g = cache ∨ g.end_ ≤ cache.start ∨
      cache.end_ ≤ g.start := by
  rcases List.append_of_mem hSecond with
    ⟨before, after, hSplit⟩
  have hOrdered := hOk.ordered
  rw [hSplit] at hOrdered hFirst
  rcases List.mem_append.mp hFirst with hg | hg
  · exact Or.inr (Or.inl ((List.pairwise_append.mp
      hOrdered).2.2 g hg cache List.mem_cons_self))
  · rcases List.mem_cons.mp hg with rfl | hg
    · exact Or.inl rfl
    · have hRest := (List.pairwise_append.mp hOrdered).2.1
      exact Or.inr (Or.inr
        ((List.pairwise_cons.mp hRest).1 g hg))

/- A turn charges every group for what it has. -/
theorem chargeGroup_charged
    (hOk : books.Ok)
    (hCache : cache ∈ books.groups)
    (hLow : cache.start ≤ bytenr)
    (hHigh : bytenr + num_bytes ≤ cache.end_)
    (hg : g ∈ books.groups) :
    Charged alloc bytenr num_bytes g
      (chargeGroup alloc cache.start num_bytes g) := by
  unfold chargeGroup
  rcases hOk.apart hg hCache with rfl | hApart
  · rw [if_pos rfl]
    refine ⟨rfl, rfl, ?_⟩
    rw [overlap_eq_all hLow hHigh]
  · have hSize := hOk.nonempty g hg
    have hOther := hOk.nonempty cache hCache
    have hNot : g.start ≠ cache.start := by
      unfold BlockGroup.end_ at hApart
      omega
    rw [if_neg hNot]
    refine ⟨rfl, rfl, ?_⟩
    rw [overlap_eq_zero hApart hLow hHigh,
      charge_zero (hOk.used g hg)]

theorem chargeGroup_same
    (alloc : Bool)
    (start num_bytes : Nat)
    (g : BlockGroup) :
    (chargeGroup alloc start num_bytes g).start = g.start ∧
      (chargeGroup alloc start num_bytes g).size = g.size := by
  unfold chargeGroup
  split
  · exact ⟨rfl, rfl⟩
  · exact ⟨rfl, rfl⟩

theorem chargeGroup_end
    (alloc : Bool)
    (start num_bytes : Nat)
    (g : BlockGroup) :
    (chargeGroup alloc start num_bytes g).end_ = g.end_ := by
  have hSame := chargeGroup_same alloc start num_bytes g
  unfold BlockGroup.end_
  rw [hSame.1, hSame.2]

/- The books that a turn leaves are in order. -/
theorem Books.Ok.charged
    {free : ExtentIoTree}
    {space_used : Nat → Nat}
    (hOk : books.Ok)
    (start num_bytes : Nat)
    (hFree : Uniform EXTENT_DIRTY free) :
    Books.Ok
      { books with
        groups :=
          books.groups.map (chargeGroup alloc start num_bytes)
        space_used := space_used
        free_space_cache := free } where
  ordered := by
    dsimp only
    rw [List.pairwise_map]
    apply hOk.ordered.imp
    intro a b hApart
    rw [chargeGroup_end,
      (chargeGroup_same alloc start num_bytes b).1]
    exact hApart
  nonempty := by
    intro g hg
    rcases List.mem_map.mp hg with ⟨h, hh, rfl⟩
    rw [(chargeGroup_same alloc start num_bytes h).2]
    exact hOk.nonempty h hh
  bounded := by
    intro g hg
    rcases List.mem_map.mp hg with ⟨h, hh, rfl⟩
    rw [chargeGroup_end]
    exact hOk.bounded h hh
  used := by
    intro g hg
    rcases List.mem_map.mp hg with ⟨h, hh, rfl⟩
    unfold chargeGroup
    split
    · exact charge_lt _ _ _
    · exact hOk.used h hh
  super_used := hOk.super_used
  free := hFree

/- One range after another is charged like both at once. -/
theorem charged_trans
    {m n : Nat}
    (hBounded : ∀ g ∈ groups, g.end_ < u64Max)
    (hFirst : List.Forall₂ (Charged alloc bytenr m) groups
      groups')
    (hSecond : List.Forall₂ (Charged alloc (bytenr + m) n)
      groups' groups'') :
    List.Forall₂ (Charged alloc bytenr (m + n)) groups
      groups'' := by
  induction hFirst generalizing groups'' with
  | nil =>
      cases hSecond
      exact .nil
  | @cons g g' rest rest' hHead _ ih =>
      cases hSecond with
      | @cons _ g'' _ rest'' hNext hRest =>
          refine .cons ⟨?_, ?_, ?_⟩ (ih ?_ hRest)
          · exact hNext.1.trans hHead.1
          · exact hNext.2.1.trans hHead.2.1
          · have hSame : g'.overlap (bytenr + m) n =
                g.overlap (bytenr + m) n := by
              unfold BlockGroup.overlap BlockGroup.end_
              rw [hHead.1, hHead.2.1]
            have hTop := hBounded g List.mem_cons_self
            have hAll := overlap_add g bytenr m n
            have hMost : g.overlap bytenr (m + n) < 2 ^ 64 := by
              unfold BlockGroup.overlap
              unfold u64Max at hTop
              omega
            rw [hNext.2.2, hSame, hHead.2.2, hAll]
            exact charge_add (by omega)
          · intro h hh
            exact hBounded h (List.mem_cons_of_mem _ hh)

theorem charged_covers
    {start : Nat}
    (hCharged :
      List.Forall₂ (Charged alloc start num_bytes) groups
        groups') :
    ∀ x, (∃ g ∈ groups', g.start ≤ x ∧ x < g.end_) ↔
      ∃ g ∈ groups, g.start ≤ x ∧ x < g.end_ := by
  intro x
  induction hCharged with
  | nil => exact Iff.rfl
  | @cons g g' rest rest' hHead _ ih =>
      have hEnd : g'.end_ = g.end_ := by
        unfold BlockGroup.end_
        rw [hHead.1, hHead.2.1]
      rw [List.exists_mem_cons_iff, List.exists_mem_cons_iff,
        ih, hHead.1, hEnd]

/- What the group has does not tell whether all is covered. -/
theorem covered_add_iff
    {m n : Nat}
    (hCache : cache ∈ groups)
    (hLow : cache.start ≤ bytenr)
    (hHigh : bytenr + m ≤ cache.end_) :
    Covered groups (bytenr + m) n ↔
      Covered groups bytenr (m + n) := by
  constructor
  · intro hRest x hFrom hTo
    by_cases hIn : x < bytenr + m
    · exact ⟨cache, hCache, by omega, by omega⟩
    · exact hRest x (by omega) (by omega)
  · intro hAll x hFrom hTo
    exact hAll x (by omega) (by omega)

end Turn

----------
-- The Loop
----------

section Run

variable {alloc mark_free : Bool}
variable {s s' : UpdateState}
variable {cache : BlockGroup}

/- What a turn that has found a group does. -/
structure Turned
    (alloc : Bool)
    (s s' : UpdateState)
    (num_bytes : Nat) : Prop where
  ok : s'.books.Ok
  positive : 0 < num_bytes
  total : s.total = num_bytes + s'.total
  bytenr : s'.bytenr = s.bytenr + num_bytes
  super_used : s'.books.super_used = s.books.super_used
  charged :
    List.Forall₂ (Charged alloc s.bytenr num_bytes)
      s.books.groups s'.books.groups
  covered :
    Covered s'.books.groups s'.bytenr s'.total ↔
      Covered s.books.groups s.bytenr s.total

theorem forall₂_map
    {α : Type}
    {R : α → α → Prop}
    {f : α → α}
    {l : List α}
    (hEach : ∀ a ∈ l, R a (f a)) :
    List.Forall₂ R l (l.map f) := by
  rw [List.forall₂_map_right_iff, List.forall₂_same]
  exact hEach

theorem updateTurn_some
    (alloc mark_free : Bool)
    (hOk : s.books.Ok)
    (hTotal : s.total ≠ 0)
    (hFound :
      lookupBlockGroup s.books.groups s.bytenr = some cache) :
    ∃ s' num_bytes,
      updateTurn alloc mark_free s = .inl s' ∧
        Turned alloc s s' num_bytes := by
  rcases lookupBlockGroup_some hFound with
    ⟨hMem, hLow, hBehind⟩
  have hTop := hOk.bounded cache hMem
  have hEnd : cache.end_ = cache.start + cache.size := rfl
  let num_bytes :=
    min s.total (cache.size - (s.bytenr - cache.start))
  have hPos : 0 < num_bytes := by
    unfold num_bytes
    omega
  have hHigh : s.bytenr + num_bytes ≤ cache.end_ := by
    unfold num_bytes
    omega
  have hMost : num_bytes ≤ s.total := Nat.min_le_left _ _
  -- the bits are set in a range of the group
  have hSet : ∃ free,
      (if !alloc && mark_free then
          setExtentDirty s.books.free_space_cache s.bytenr
            (s.bytenr + num_bytes - 1)
        else
          some s.books.free_space_cache) = some free ∧
        Uniform EXTENT_DIRTY free := by
    by_cases hMark : (!alloc && mark_free) = true
    · rw [if_pos hMark]
      rcases hOk.free.setExtentBits EXTENT_DIRTY_ne_zero
        (show s.bytenr ≤ s.bytenr + num_bytes - 1 by omega)
        (show s.bytenr + num_bytes - 1 < u64Max by omega) with
        ⟨free, hFree, hUniform, _⟩
      exact ⟨free, hFree, hUniform⟩
    · rw [if_neg hMark]
      exact ⟨_, rfl, hOk.free⟩
  rcases hSet with ⟨free, hFree, hUniform⟩
  have hCharged : List.Forall₂
      (Charged alloc s.bytenr num_bytes) s.books.groups
      (s.books.groups.map
        (chargeGroup alloc cache.start num_bytes)) :=
    forall₂_map fun g hg =>
      chargeGroup_charged hOk hMem hLow hHigh hg
  let s' : UpdateState :=
    { books :=
        { s.books with
          groups := s.books.groups.map
            (chargeGroup alloc cache.start num_bytes)
          space_used := chargeSpace alloc cache.space_info
            num_bytes s.books.space_used
          free_space_cache := free }
      bytenr := s.bytenr + num_bytes
      total := s.total - num_bytes }
  refine ⟨s', num_bytes, ?_, ?_⟩
  · unfold updateTurn
    rw [if_neg hTotal, hFound]
    dsimp only
    unfold num_bytes at hFree
    rw [hFree]
  constructor
  case ok => exact hOk.charged _ _ hUniform
  case positive => exact hPos
  case total => exact (Nat.add_sub_cancel' hMost).symm
  case bytenr => rfl
  case super_used => rfl
  case charged => exact hCharged
  case covered =>
    have hRest : s.total =
        num_bytes + (s.total - num_bytes) := by
      omega
    have hSame := covered_add_iff
      (n := s.total - num_bytes) hMem hLow hHigh
    rw [← hRest] at hSame
    rw [← hSame]
    unfold Covered
    constructor
    · intro hAll x hFrom hTo
      exact (charged_covers hCharged x).mp
        (hAll x hFrom hTo)
    · intro hAll x hFrom hTo
      exact (charged_covers hCharged x).mpr
        (hAll x hFrom hTo)

/- How the loop ends: every byte is charged, or one has none. -/
def Settled
    (alloc : Bool)
    (s : UpdateState)
    (result : Option (Int × Books)) : Prop :=
  ∃ ret after, result = some (ret, after) ∧
    after.super_used = s.books.super_used ∧
    ((ret = 0 ∧ Covered s.books.groups s.bytenr s.total ∧
        List.Forall₂ (Charged alloc s.bytenr s.total)
          s.books.groups after.groups) ∨
      (ret = -1 ∧
        ¬ Covered s.books.groups s.bytenr s.total))

theorem Turned.settled
    {num_bytes : Nat}
    {result : Option (Int × Books)}
    (hOk : s.books.Ok)
    (hTurned : Turned alloc s s' num_bytes)
    (hSettled : Settled alloc s' result) :
    Settled alloc s result := by
  rcases hSettled with ⟨ret, after, hResult, hSuper, hEnd⟩
  refine ⟨ret, after, hResult,
    hSuper.trans hTurned.super_used, ?_⟩
  rcases hEnd with ⟨hZero, hCovered, hCharged⟩ | ⟨hErr, hNot⟩
  · refine Or.inl ⟨hZero, hTurned.covered.mp hCovered, ?_⟩
    rw [hTurned.total]
    rw [hTurned.bytenr] at hCharged
    exact charged_trans hOk.bounded hTurned.charged hCharged
  · exact Or.inr
      ⟨hErr, fun hAll => hNot (hTurned.covered.mpr hAll)⟩

/- Nothing is left to be charged. -/
theorem settled_zero
    (hOk : s.books.Ok)
    (hTotal : s.total = 0) :
    Settled alloc s (some (0, s.books)) := by
  refine ⟨0, s.books, rfl, rfl, Or.inl ⟨rfl, ?_, ?_⟩⟩
  · intro x hFrom hTo
    omega
  · rw [List.forall₂_same]
    intro g hg
    have hNone : g.overlap s.bytenr s.total = 0 := by
      unfold BlockGroup.overlap
      omega
    refine ⟨rfl, rfl, ?_⟩
    rw [hNone, charge_zero (hOk.used g hg)]

theorem updateTurn_settled
    (alloc mark_free : Bool)
    (s : UpdateState)
    (hOk : s.books.Ok) :
    Loop.Ends (updateTurn alloc mark_free)
      (Settled alloc s) s := by
  -- the bytes that are left to charge become fewer
  induction hLeft : s.total using Nat.strongRecOn
    generalizing s with
  | ind left ih =>
      by_cases hTotal : s.total = 0
      · refine Loop.Ends.done ?_ (settled_zero hOk hTotal)
        unfold updateTurn
        rw [if_pos hTotal]
      · cases hFound :
            lookupBlockGroup s.books.groups s.bytenr with
        | none =>
            refine Loop.Ends.done (w := some (-1, s.books))
              ?_ ?_
            · unfold updateTurn
              rw [if_neg hTotal, hFound]
            · refine ⟨-1, s.books, rfl, rfl,
                Or.inr ⟨rfl, ?_⟩⟩
              intro hCovered
              rcases hCovered s.bytenr (Nat.le_refl _)
                (by omega) with ⟨g, hg, hIn⟩
              exact lookupBlockGroup_none hOk.ordered hFound
                g hg hIn
        | some cache =>
            rcases updateTurn_some alloc mark_free hOk
              hTotal hFound with ⟨s', num_bytes, hTurn, hTurned⟩
            have hSum := hTurned.total
            have hPos := hTurned.positive
            have hRest := ih s'.total (by omega) s'
              hTurned.ok rfl
            exact Loop.Ends.turn hTurn (hRest.mono
              fun result hSettled =>
                hTurned.settled hOk hSettled)

end Run

----------
-- What an Error Leaves
----------

section Failed

variable {books : Books}
variable {alloc mark_free : Bool}
variable {bytenr num_bytes : Nat}

/- The call ends, and changes all or nothing. -/
def EndsAtomic
    (books : Books)
    (bytenr num_bytes : Nat)
    (alloc mark_free : Bool) : Prop :=
  ∃ fuel ret after,
    updateBlockGroup books bytenr num_bytes alloc mark_free
        fuel = some (some (ret, after)) ∧
      Atomic books alloc bytenr num_bytes (ret, after)

/- The books with the totals charged. -/
def Books.total
    (books : Books)
    (alloc : Bool)
    (num_bytes : Nat) : Books :=
  { books with
    super_used := charge alloc books.super_used num_bytes
    root_used := charge alloc books.root_used num_bytes }

theorem Books.Ok.total
    (hOk : books.Ok)
    (alloc : Bool)
    (num_bytes : Nat) :
    (books.total alloc num_bytes).Ok :=
  { hOk with super_used := charge_lt _ _ _ }

/- The call ends with everything charged or with an error. -/
theorem updateBlockGroup_settled
    (hOk : books.Ok)
    (alloc mark_free : Bool)
    (bytenr num_bytes : Nat) :
    ∃ fuel result,
      updateBlockGroup books bytenr num_bytes alloc mark_free
          fuel = some result ∧
        Settled alloc
          ⟨books.total alloc num_bytes, bytenr, num_bytes⟩
          result :=
  updateTurn_settled alloc mark_free
    ⟨books.total alloc num_bytes, bytenr, num_bytes⟩
    (hOk.total alloc num_bytes)

/- A range that leaves the groups charges the superblock. -/
theorem covered_of_unchanged
    {after : Books}
    (hOk : books.Ok)
    (hMost : num_bytes < 2 ^ 64)
    (hSuper : after.super_used =
      charge alloc books.super_used num_bytes)
    (hUnchanged : Unchanged books after) :
    Covered books.groups bytenr num_bytes := by
  intro x hFrom hTo
  have hSame := hSuper.symm.trans hUnchanged.super_used
  exact absurd hSame
    (charge_ne hOk.super_used (by omega) hMost)

end Failed

/-
  `update_block_group` changes all or nothing just when every
  byte of the range is in a block group.
-/
theorem updateBlockGroup_atomic_iff
    (books : Books)
    (bytenr num_bytes : Nat)
    (alloc mark_free : Bool)
    (hOk : books.Ok)
    (hMost : num_bytes < 2 ^ 64) :
    EndsAtomic books bytenr num_bytes alloc mark_free ↔
      Covered books.groups bytenr num_bytes := by
  rcases updateBlockGroup_settled hOk alloc mark_free bytenr
    num_bytes with ⟨enough, result, hRun, hSettled⟩
  rcases hSettled with ⟨ret, after, rfl, hSuper, hEnd⟩
  constructor
  · intro hAtomic
    rcases hAtomic with ⟨fuel, ret', after', hOther, hAll⟩
    have hSame := Loop.run_unique hRun hOther
    cases hSame
    rcases hEnd with ⟨_, hCovered, _⟩ | ⟨hErr, _⟩
    · exact hCovered
    · exact covered_of_unchanged hOk hMost hSuper
        (hAll.1 fun hZero => by
          have hSame : (-1 : Int) = 0 := hErr.symm.trans hZero
          exact absurd hSame (by decide))
  · intro hCovered
    refine ⟨enough, ret, after, hRun, ?_⟩
    rcases hEnd with ⟨hZero, _, hCharged⟩ | ⟨_, hNot⟩
    · exact ⟨fun hErr => absurd hZero hErr,
        fun _ => hCharged⟩
    · exact absurd hCovered hNot

/- Two groups with bytes in use. -/
def twoGroups : Books :=
  { super_used := 8192
    root_used := 4096
    groups := [⟨4096, 8192, 4096, 0, false⟩,
      ⟨12288, 4096, 4096, 1, false⟩]
    space_used := fun _ => 4096
    free_space_cache := [] }

theorem twoGroups_ok : twoGroups.Ok where
  ordered := by decide
  nonempty := by decide
  bounded := by decide
  used := by decide
  super_used := by decide
  free := ⟨⟨RangeTree.Ordered.nil, by simp [twoGroups]⟩,
    fun s hs => by cases hs⟩

/- A range that both groups have a part of. -/
theorem updateBlockGroup_atomic_twoGroups :
    EndsAtomic twoGroups 8192 8192 true false := by
  refine (updateBlockGroup_atomic_iff twoGroups 8192 8192 true
    false twoGroups_ok (by decide)).mpr ?_
  intro x hFrom hTo
  by_cases hFirst : x < 12288
  · exact ⟨⟨4096, 8192, 4096, 0, false⟩, by decide,
      by dsimp only; omega, hFirst⟩
  · exact ⟨⟨12288, 4096, 4096, 1, false⟩, by decide,
      by dsimp only; omega, hTo⟩

/-
  A range whose last block is behind the groups: the call
  fails, and the superblock and both groups have changed.
-/
theorem updateBlockGroup_not_atomic :
    ∃ after,
      updateBlockGroup twoGroups 8192 12288 true false 3 =
          some (some (-1, after)) ∧
        after.super_used = 20480 ∧
        after.groups.map BlockGroup.used = [8192, 8192] ∧
        ¬ EndsAtomic twoGroups 8192 12288 true false := by
  refine ⟨_, rfl, rfl, rfl, ?_⟩
  intro hAtomic
  rcases hAtomic with ⟨fuel, ret, after, hRun, hAll⟩
  have hOther : updateBlockGroup twoGroups 8192 12288 true
      false 3 = some (some (-1, _)) := rfl
  have hSame := Loop.run_unique hOther hRun
  cases hSame
  have hErr : (-1 : Int) ≠ 0 := by decide
  have hSuper := (hAll.1 hErr).super_used
  exact absurd hSuper (by decide)

----------
-- Calls One after Another
----------

/- The arguments of a call. -/
structure Call where
  bytenr : Nat
  num_bytes : Nat
  alloc : Bool
  mark_free : Bool
deriving Repr, DecidableEq

/- Some calls, up to the first one that fails. -/
def updateAll
    (fuel : Nat) : Books → List Call → Option Books
  | books, [] => some books
  | books, c :: calls =>
      match
        updateBlockGroup books c.bytenr c.num_bytes c.alloc
          c.mark_free fuel
      with
      | some (some (0, after)) => updateAll fuel after calls
      | _ => none

/- Some bytes, with the sign of the call. -/
def Call.signed
    (c : Call)
    (num_bytes : Nat) : Int :=
  if c.alloc then num_bytes else -num_bytes

/- The group after all calls. -/
def Net
    (calls : List Call)
    (g g' : BlockGroup) : Prop :=
  g'.start = g.start ∧ g'.size = g.size ∧
    (g'.used : Int) =
      (g.used + (calls.map fun c =>
        c.signed (g.overlap c.bytenr c.num_bytes)).sum) % 2 ^ 64

section Calls

variable {books after : Books}
variable {calls : List Call} {c : Call}
variable {fuel : Nat} {ret : Int}

/- What a charge does, with a sign. -/
theorem charge_signed
    {v n : Nat}
    (hMost : n ≤ 2 ^ 64) :
    (charge c.alloc v n : Int) =
      (v + c.signed n) % 2 ^ 64 := by
  unfold charge u64Sub Call.signed
  cases c.alloc with
  | true => simp
  | false =>
      simp only [Bool.false_eq_true, if_false]
      omega

theorem overlap_le
    {g : BlockGroup}
    (hTop : g.end_ < u64Max)
    (bytenr num_bytes : Nat) :
    g.overlap bytenr num_bytes ≤ 2 ^ 64 := by
  unfold BlockGroup.overlap
  unfold u64Max at hTop
  omega

/- A call keeps the books in order, whatever it returns. -/
theorem updateBlockGroup_ok
    (hOk : books.Ok)
    (hRun : updateBlockGroup books c.bytenr c.num_bytes c.alloc
      c.mark_free fuel = some (some (ret, after))) :
    after.Ok := by
  -- a turn goes on with such books, or ends with its own
  have hTurn : ∀ a : UpdateState, a.books.Ok →
      (∃ b, updateTurn c.alloc c.mark_free a = .inl b ∧
        b.books.Ok) ∨
      ∃ ret, updateTurn c.alloc c.mark_free a =
        .inr (some (ret, a.books)) := by
    intro a hHere
    by_cases hTotal : a.total = 0
    · exact .inr ⟨0, if_pos hTotal⟩
    cases hFound : lookupBlockGroup a.books.groups a.bytenr with
    | none =>
        refine .inr ⟨-1, ?_⟩
        unfold updateTurn
        rw [if_neg hTotal, hFound]
    | some cache =>
        rcases updateTurn_some c.alloc c.mark_free hHere hTotal
          hFound with ⟨b, _, hSame, hTurned⟩
        exact .inl ⟨b, hSame, hTurned.ok⟩
  rcases Loop.comes_of_run hRun with ⟨s, hComes, hEnd⟩
  have hKept : s.books.Ok := by
    refine Loop.Comes.keeps (P := fun s => s.books.Ok) ?_
      hComes (hOk.total c.alloc c.num_bytes)
    intro a b hHere hGoes
    rcases hTurn a hHere with ⟨_, hSame, hNext⟩ | ⟨_, hSame⟩
    · cases hSame.symm.trans hGoes
      exact hNext
    · cases hSame.symm.trans hGoes
  rcases hTurn s hKept with ⟨_, hSame, _⟩ | ⟨_, hSame⟩
  · cases hSame.symm.trans hEnd
  · cases hSame.symm.trans hEnd
    exact hKept

theorem updateBlockGroup_zero
    (hOk : books.Ok)
    (hRun : updateBlockGroup books c.bytenr c.num_bytes c.alloc
      c.mark_free fuel = some (some (0, after))) :
    Covered books.groups c.bytenr c.num_bytes ∧
      after.super_used =
        charge c.alloc books.super_used c.num_bytes ∧
      List.Forall₂ (Charged c.alloc c.bytenr c.num_bytes)
        books.groups after.groups := by
  rcases updateBlockGroup_settled hOk c.alloc c.mark_free
    c.bytenr c.num_bytes with
    ⟨_, _, hOther, ret, after', rfl, hSuper, hEnd⟩
  cases Loop.run_unique hRun hOther
  rcases hEnd with ⟨_, hCovered, hCharged⟩ | ⟨hErr, _⟩
  · exact ⟨hCovered, hSuper, hCharged⟩
  · exact absurd hErr (by decide)

theorem updateAll_cons :
    updateAll fuel books (c :: calls) = some after ↔
      ∃ mid, updateBlockGroup books c.bytenr c.num_bytes
            c.alloc c.mark_free fuel = some (some (0, mid)) ∧
          updateAll fuel mid calls = some after := by
  rw [updateAll]
  constructor
  · intro hRun
    split at hRun
    case h_1 mid hCall => exact ⟨mid, hCall, hRun⟩
    case h_2 => cases hRun
  · rintro ⟨mid, hCall, hRun⟩
    rw [hCall]
    exact hRun

/- More turns than enough make no difference. -/
theorem updateAll_mono
    {more : Nat}
    (hLe : fuel ≤ more)
    (hRun : updateAll fuel books calls = some after) :
    updateAll more books calls = some after := by
  induction calls generalizing books with
  | nil => exact hRun
  | cons c calls ih =>
      rcases updateAll_cons.mp hRun with ⟨mid, hCall, hRest⟩
      exact updateAll_cons.mpr
        ⟨mid, Loop.run_mono hCall hLe, ih hRest⟩

/- A range in block groups has a length of 64 bits. -/
theorem Covered.length_le
    {bytenr num_bytes : Nat}
    (hOk : books.Ok)
    (hCovered : Covered books.groups bytenr num_bytes) :
    num_bytes ≤ 2 ^ 64 := by
  by_contra hMore
  rcases hCovered (bytenr + 2 ^ 64) (by omega) (by omega) with
    ⟨g, hIn, -, hHigh⟩
  have hTop := hOk.bounded g hIn
  unfold u64Max at hTop
  omega

/- What a call that returns 0 has charged. -/
theorem net_cons
    {g g' g'' : BlockGroup}
    (hTop : g.end_ < u64Max)
    (hHere : Charged c.alloc c.bytenr c.num_bytes g g')
    (hRest : Net calls g' g'') :
    Net (c :: calls) g g'' := by
  rcases hHere with ⟨hStart, hSize, hUsed⟩
  have hSame : ∀ bytenr num_bytes,
      g'.overlap bytenr num_bytes =
        g.overlap bytenr num_bytes := by
    intro bytenr num_bytes
    unfold BlockGroup.overlap BlockGroup.end_
    rw [hStart, hSize]
  refine ⟨hRest.1.trans hStart, hRest.2.1.trans hSize, ?_⟩
  rw [hRest.2.2, hUsed, charge_signed (overlap_le hTop _ _)]
  simp only [hSame, List.map_cons, List.sum_cons]
  rw [Int.emod_add_emod, add_assoc]

theorem net_trans
    {groups groups' groups'' : List BlockGroup}
    (hBounded : ∀ g ∈ groups, g.end_ < u64Max)
    (hHere :
      List.Forall₂ (Charged c.alloc c.bytenr c.num_bytes) groups
        groups')
    (hRest : List.Forall₂ (Net calls) groups' groups'') :
    List.Forall₂ (Net (c :: calls)) groups groups'' := by
  induction hHere generalizing groups'' with
  | nil =>
      cases hRest
      exact .nil
  | cons hHead _ ih =>
      rw [List.forall_mem_cons] at hBounded
      cases hRest with
      | cons hNext hMore =>
          exact .cons (net_cons hBounded.1 hHead hNext)
            (ih hBounded.2 hMore)

end Calls

/-
  However many calls are made in whatever order: all of them
  return 0 just when every range is in block groups, and then
  the superblock and every group have what was allocated less
  what was freed, with 64 bits.
-/
theorem updateAll_net
    {books : Books}
    (calls : List Call)
    (hOk : books.Ok) :
    ((∃ fuel after, updateAll fuel books calls = some after) ↔
        ∀ c ∈ calls,
          Covered books.groups c.bytenr c.num_bytes) ∧
      ∀ fuel after, updateAll fuel books calls = some after →
        (after.super_used : Int) =
            (books.super_used +
              (calls.map fun c => c.signed c.num_bytes).sum) %
                2 ^ 64 ∧
          List.Forall₂ (Net calls) books.groups
            after.groups := by
  induction calls generalizing books with
  | nil =>
      refine ⟨⟨fun _ _ hNot => absurd hNot List.not_mem_nil,
        fun _ => ⟨0, books, rfl⟩⟩, ?_⟩
      intro fuel after hRun
      cases hRun
      refine ⟨?_, List.forall₂_same.mpr fun g hg => ?_⟩
      · have hFits := hOk.super_used
        simp only [List.map_nil, List.sum_nil]
        omega
      · have hFits := hOk.used g hg
        refine ⟨rfl, rfl, ?_⟩
        simp only [List.map_nil, List.sum_nil]
        omega
  | cons c calls ih =>
      -- the ranges of the rest are in the same groups
      have hRest : ∀ {fuel mid}, updateBlockGroup books c.bytenr
          c.num_bytes c.alloc c.mark_free fuel =
            some (some (0, mid)) →
          ((∃ fuel after,
              updateAll fuel mid calls = some after) ↔
            ∀ c ∈ calls,
              Covered books.groups c.bytenr c.num_bytes) := by
        intro fuel mid hCall
        rcases updateBlockGroup_zero hOk hCall with
          ⟨-, -, hCharged⟩
        rw [(ih (updateBlockGroup_ok hOk hCall)).1]
        simp only [Covered, charged_covers hCharged]
      refine ⟨⟨?_, fun hAll => ?_⟩, ?_⟩
      · rintro ⟨fuel, after, hRun⟩
        rcases updateAll_cons.mp hRun with ⟨mid, hCall, hMore⟩
        exact List.forall_mem_cons.mpr
          ⟨(updateBlockGroup_zero hOk hCall).1,
            (hRest hCall).mp ⟨fuel, after, hMore⟩⟩
      · rw [List.forall_mem_cons] at hAll
        rcases updateBlockGroup_settled hOk c.alloc c.mark_free
          c.bytenr c.num_bytes with
          ⟨enough, _, hCall, ret, mid, rfl, -, hEnd⟩
        rcases hEnd with ⟨rfl, -⟩ | ⟨-, hNot⟩
        · rcases (hRest hCall).mpr hAll.2 with
            ⟨fuel, after, hMore⟩
          refine ⟨enough + fuel, after, updateAll_cons.mpr
            ⟨mid, ?_, ?_⟩⟩
          · exact Loop.run_mono hCall (Nat.le_add_right _ _)
          · exact updateAll_mono (Nat.le_add_left _ _) hMore
        · exact absurd hAll.1 hNot
      · intro fuel after hRun
        rcases updateAll_cons.mp hRun with ⟨mid, hCall, hMore⟩
        rcases updateBlockGroup_zero hOk hCall with
          ⟨hCovered, hSuper, hCharged⟩
        rcases (ih (updateBlockGroup_ok hOk hCall)).2 fuel after
          hMore with ⟨hSum, hNet⟩
        refine ⟨?_, ?_⟩
        · rw [hSum, hSuper, charge_signed
            (hCovered.length_le hOk), Int.emod_add_emod,
            List.map_cons, List.sum_cons, add_assoc]
        · exact net_trans hOk.bounded hCharged hNet

/- A range of both groups is allocated, and a part is freed. -/
def allocThenFree : List Call :=
  [⟨8192, 8192, true, false⟩, ⟨8192, 4096, false, true⟩]

theorem updateAll_net_twoGroups :
    ∃ after,
      updateAll 3 twoGroups allocThenFree = some after ∧
        (∀ c ∈ allocThenFree,
          Covered twoGroups.groups c.bytenr c.num_bytes) ∧
        after.super_used = 12288 ∧
        List.Forall₂ (Net allocThenFree) twoGroups.groups
          after.groups := by
  rcases updateAll_net allocThenFree twoGroups_ok with
    ⟨hAll, hNet⟩
  exact ⟨_, rfl, hAll.mp ⟨3, _, rfl⟩, rfl,
    (hNet 3 _ rfl).2⟩

end GroupBooks

end BtrfsProgs
