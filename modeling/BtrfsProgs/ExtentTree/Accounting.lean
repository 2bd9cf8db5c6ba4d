import BtrfsProgs.ExtentTree.Transaction

/-
  Recounting the used bytes of the block groups, from
  `extent-tree.c`.

  A change of the extent tree copies blocks of the extent tree
  itself: `TreeChange` allows any change of the items, the
  counters and the pending operations.

  Main declarations:
    * `extentRootPendingOps`
    * `FinishCurrentInsert` and `DelPendingExtents`
    * `recount`
    * `FixBlockAccounting`
-/

----------
-- The State
----------

namespace BtrfsProgs

namespace ExtentTree

open Check
open Volumes

/-
  What the recount works on.  `used` is the field of the item
  of a group, by the start of the group.
-/
structure Accounts where
  space : Space
  pendingDel : List PendingInsert
  used : Nat → Nat
  superUsed : Nat
  rootUsed : Nat

/- The block groups of a filesystem. -/
structure GroupsOk
    (groups : List BlockGroup) : Prop where
  apart :
    groups.Pairwise fun a b => a.end_ ≤ b.start
  nonempty : ∀ g ∈ groups, 0 < g.size
  bounded : ∀ g ∈ groups, g.end_ < 2 ^ 64
  /- the first one holds the first superblock -/
  above :
    ∀ g ∈ groups,
      SUPER_INFO_OFFSET + SUPER_INFO_SIZE < g.end_

/- A change of the extent tree, with what it entails. -/
def TreeChange
    (a a' : Accounts) : Prop :=
  a'.space.groups.map (fun g => (g.start, g.size)) =
      a.space.groups.map (fun g => (g.start, g.size)) ∧
    a'.space.leafsize = a.space.leafsize

----------
-- Pending Operations
----------

/- `extent_root_pending_ops`. -/
def extentRootPendingOps
    (a : Accounts) : Bool :=
  if a.space.extentIns ≠ [] then a.pendingDel ≠ []
  else false

/- `finish_current_insert`, when it returns. -/
inductive FinishCurrentInsert : Accounts → Accounts → Prop
  | done
      {a : Accounts}
      (hEmpty : a.space.extentIns = []) :
      FinishCurrentInsert a a
  | insert
      {a b c : Accounts}
      {op : PendingInsert}
      {ops : List PendingInsert}
      (hFirst : a.space.extentIns = op :: ops)
      (hInsert : TreeChange a b)
      (hRest :
        FinishCurrentInsert
          { b with
            space :=
              { b.space with
                extentIns := b.space.extentIns.erase op } }
          c) :
      FinishCurrentInsert a c

/- `__free_extent`, when it returns: its result. -/
def FreeExtent
    (a : Accounts)
    (_ret : Int)
    (c : Accounts) : Prop :=
  ∃ b, TreeChange a b ∧ FinishCurrentInsert b c

/- `del_pending_extents`, when it returns: its result. -/
inductive DelPendingExtents :
    Accounts → Int → Accounts → Prop
  | done
      {a : Accounts}
      (hEmpty : a.pendingDel = []) :
      DelPendingExtents a 0 a
  | free
      {a b c : Accounts}
      {op : PendingInsert}
      {ops : List PendingInsert}
      {ret err : Int}
      (hFirst : a.pendingDel = op :: ops)
      (hIns :
        ∀ i ∈ a.space.extentIns, i.bytenr ≠ op.bytenr)
      (hFree : FreeExtent { a with pendingDel := ops } ret b)
      (hRest : DelPendingExtents b err c) :
      DelPendingExtents a (if err ≠ 0 then err else ret) c
  | cancel
      {a b : Accounts}
      {op i : PendingInsert}
      {ops : List PendingInsert}
      {err : Int}
      (hFirst : a.pendingDel = op :: ops)
      (hIns : i ∈ a.space.extentIns)
      (hSame : i.bytenr = op.bytenr)
      (hRest :
        DelPendingExtents
          { a with
            pendingDel := ops
            space :=
              { a.space with
                extentIns := a.space.extentIns.erase i } }
          err b) :
      DelPendingExtents a err b

/-
  The first loop of `btrfs_fix_block_accounting`: its result,
  when it ends.
-/
inductive PendingLoop : Accounts → Int → Accounts → Prop
  | done
      {a : Accounts}
      (hNone : extentRootPendingOps a = false) :
      PendingLoop a 0 a
  | turn
      {a b c d : Accounts}
      {ret : Int}
      (hSome : extentRootPendingOps a = true)
      (hInsert : FinishCurrentInsert a b)
      (hDel : DelPendingExtents b 0 c)
      (hRest : PendingLoop c ret d) :
      PendingLoop a ret d
  | fail
      {a b c : Accounts}
      {ret : Int}
      (hSome : extentRootPendingOps a = true)
      (hInsert : FinishCurrentInsert a b)
      (hDel : DelPendingExtents b ret c)
      (hRet : ret ≠ 0) :
      PendingLoop a ret c

----------
-- The Recount
----------

/-
  The loop of `update_block_group` for an allocation; every
  turn goes past a part of the range.  `none` is the result
  -1.
-/
def updateUsedLoop
    (space : Space) :
    Nat → Nat → Nat → (Nat → Nat) → Option (Nat → Nat)
  | 0, _, _, used => some used
  | fuel + 1, bytenr, total, used =>
      if total = 0 then
        some used
      else
        match lookupBlockGroup space bytenr with
        | none => none
        | some group =>
            let num :=
              min total (group.size - (bytenr - group.start))
            updateUsedLoop space fuel
              ((bytenr + num) % 2 ^ 64) (total - num)
              (Function.update used group.start
                ((used group.start + num) % 2 ^ 64))

/- `update_block_group` for an allocation. -/
def updateBlockGroupAlloc
    (a : Accounts)
    (bytenr numBytes : Nat) : Option Accounts :=
  (updateUsedLoop a.space numBytes bytenr numBytes a.used).map
    fun used =>
      { a with
        used := used
        superUsed := (a.superUsed + numBytes) % 2 ^ 64
        rootUsed := (a.rootUsed + numBytes) % 2 ^ 64 }

/-
  The loop that sets `used` to zero, over the groups from
  `start` on.
-/
def zeroLoop
    (space : Space) :
    Nat → Nat → (Nat → Nat) → Nat → Nat
  | 0, _, used => used
  | fuel + 1, start, used =>
      match lookupFirstBlockGroup space start with
      | none => used
      | some group =>
          zeroLoop space fuel (group.start + group.size)
            (Function.update used group.start 0)

/-
  The loop over the items: the accounts and `bytes_used`.  A
  failure of `update_block_group` is a `BUG_ON`.
-/
def recountLoop :
    List ExtentEntry → Accounts → Nat →
      Option (Accounts × Nat)
  | [], a, bytesUsed => some (a, bytesUsed)
  | entry :: entries, a, bytesUsed =>
      if entry.key.type = EXTENT_ITEM_KEY then
        (updateBlockGroupAlloc a entry.key.objectid
          entry.key.offset).bind fun a =>
            recountLoop entries a
              ((bytesUsed + entry.key.offset) % 2 ^ 64)
      else if entry.key.type = METADATA_ITEM_KEY then
        (updateBlockGroupAlloc a entry.key.objectid
          a.space.leafsize).bind fun b =>
            recountLoop entries b
              ((bytesUsed + a.space.leafsize) % 2 ^ 64)
      else
        recountLoop entries a bytesUsed

/- The accounts behind the loop over the groups. -/
def zeroUsed
    (a : Accounts) : Accounts :=
  { a with
    used := zeroLoop a.space a.space.groups.length 0 a.used }

/- `btrfs_fix_block_accounting` behind its first loop. -/
def recount
    (a : Accounts) : Option Accounts :=
  (recountLoop
    (a.space.items.dropWhile fun e => e.key.Before 0)
    (zeroUsed a) 0).map fun (b, bytesUsed) =>
      { b with superUsed := bytesUsed }

/- `btrfs_fix_block_accounting` returns zero. -/
def FixBlockAccounting
    (a c : Accounts) : Prop :=
  ∃ b, PendingLoop a 0 b ∧ recount b = some c

----------
-- What Is Accounted For
----------

/- The bytes of a range that lie in a group. -/
def overlap
    (g : BlockGroup)
    (bytenr len : Nat) : Nat :=
  min (bytenr + len) g.end_ - max bytenr g.start

/- The bytes of an item that lie in a group. -/
def bytesInside
    (leafsize : Nat)
    (g : BlockGroup)
    (entry : ExtentEntry) : Nat :=
  if entry.key.IsExtent then
    overlap g entry.key.objectid (extentLen leafsize entry.key)
  else
    0

/- An extent in the group counts with its size. -/
theorem overlap_of_inside
    {g : BlockGroup}
    {bytenr len : Nat}
    (hLow : g.start ≤ bytenr)
    (hHigh : bytenr + len ≤ g.end_) :
    overlap g bytenr len = len := by
  unfold overlap
  omega

/-
  No pending operations are left, and the counters are those
  of the items.
-/
structure Accounted
    (a : Accounts) : Prop where
  noInserts : a.space.extentIns = []
  noDeletes : a.pendingDel = []
  used :
    ∀ g ∈ a.space.groups,
      a.used g.start =
        (a.space.items.map
          (bytesInside a.space.leafsize g)).sum % 2 ^ 64
  super :
    a.superUsed =
      (a.space.groups.map fun g => a.used g.start).sum %
        2 ^ 64

/- A byte in no group. -/
def Outside
    (groups : List BlockGroup)
    (b : Nat) : Prop :=
  ∀ g ∈ groups, ¬(g.start ≤ b ∧ b < g.end_)

/- Some extent has a byte in no group. -/
def Uncovered
    (space : Space) : Prop :=
  ∃ e ∈ space.items, e.key.IsExtent ∧
    ∃ b, e.key.objectid ≤ b ∧
      b < e.key.objectid + extentLen space.leafsize e.key ∧
      Outside space.groups b

----------
-- Groups
----------

section Groups

variable {space : Space}
variable {groups : List BlockGroup}

theorem lookupBlockGroup_mem
    {b : Nat}
    {g : BlockGroup}
    (hLookup : lookupBlockGroup space b = some g) :
    g ∈ space.groups ∧ g.start ≤ b ∧ b < g.end_ := by
  unfold lookupBlockGroup at hLookup
  split at hLookup
  case h_1 => cases hLookup
  case h_2 found hFind =>
    split_ifs at hLookup with hLow
    cases hLookup
    exact ⟨List.mem_of_find?_eq_some hFind, hLow,
      by simpa using List.find?_some hFind⟩

/- A byte of a group has the group as its first one. -/
theorem find?_of_inside
    (hApart : groups.Pairwise fun a b => a.end_ ≤ b.start)
    (hSize : ∀ g ∈ groups, 0 < g.size)
    {b : Nat}
    {g : BlockGroup}
    (hMem : g ∈ groups)
    (hLow : g.start ≤ b)
    (hHigh : b < g.end_) :
    (groups.find? fun g => b < g.end_) = some g := by
  induction groups with
  | nil => cases hMem
  | cons first rest ih =>
      rw [List.pairwise_cons] at hApart
      rcases List.mem_cons.mp hMem with rfl | hMem
      · exact List.find?_cons_of_pos (by simpa using hHigh)
      · have hFirst := hApart.1 g hMem
        rw [List.find?_cons_of_neg (by simp; omega)]
        exact ih hApart.2
          (fun g hg => hSize g (List.mem_cons_of_mem _ hg))
          hMem

theorem GroupsOk.lookup_of_inside
    (hOk : GroupsOk space.groups)
    {b : Nat}
    {g : BlockGroup}
    (hMem : g ∈ space.groups)
    (hLow : g.start ≤ b)
    (hHigh : b < g.end_) :
    lookupBlockGroup space b = some g := by
  unfold lookupBlockGroup
  rw [find?_of_inside hOk.apart hOk.nonempty hMem hLow hHigh]
  exact if_pos hLow

theorem GroupsOk.outside_of_lookup
    (hOk : GroupsOk space.groups)
    {b : Nat}
    (hLookup : lookupBlockGroup space b = none) :
    Outside space.groups b := by
  intro g hMem hIn
  rw [hOk.lookup_of_inside hMem hIn.1 hIn.2] at hLookup
  cases hLookup

/- A range in one group lies in no other. -/
theorem sum_overlap_of_inside
    (hApart : groups.Pairwise fun a b => a.end_ ≤ b.start)
    {b n : Nat}
    {g : BlockGroup}
    (hMem : g ∈ groups)
    (hLow : g.start ≤ b)
    (hHigh : b + n ≤ g.end_) :
    (groups.map fun g => overlap g b n).sum = n := by
  induction groups with
  | nil => cases hMem
  | cons first rest ih =>
      rw [List.pairwise_cons] at hApart
      rw [List.map_cons, List.sum_cons]
      rcases List.mem_cons.mp hMem with rfl | hMem
      · have hRest :
            (rest.map fun g => overlap g b n).sum = 0 := by
          apply List.sum_eq_zero
          intro x hx
          rcases List.mem_map.mp hx with ⟨other, hOther, rfl⟩
          have hNext := hApart.1 other hOther
          unfold overlap
          omega
        rw [hRest, overlap_of_inside hLow hHigh, Nat.add_zero]
      · have hFirst := hApart.1 g hMem
        have hZero : overlap first b n = 0 := by
          unfold overlap
          omega
        rw [hZero, ih hApart.2 hMem, Nat.zero_add]

theorem GroupsOk.start_inj
    (hOk : GroupsOk groups)
    {a b : BlockGroup}
    (ha : a ∈ groups)
    (hb : b ∈ groups)
    (hEq : a.start = b.start) :
    a = b := by
  have hSizeA := hOk.nonempty a ha
  have hSizeB := hOk.nonempty b hb
  have hFindA := find?_of_inside (b := a.start) hOk.apart
    hOk.nonempty ha le_rfl (by unfold BlockGroup.end_; omega)
  have hFindB := find?_of_inside (b := a.start) hOk.apart
    hOk.nonempty hb (by omega)
    (by unfold BlockGroup.end_; omega)
  rw [hFindA] at hFindB
  exact Option.some.inj hFindB

/- The same ranges, in another state. -/
theorem GroupsOk.congr
    {groups' : List BlockGroup}
    (hOk : GroupsOk groups)
    (hSame :
      groups'.map (fun g => (g.start, g.size)) =
        groups.map fun g => (g.start, g.size)) :
    GroupsOk groups' := by
  have hMem : ∀ g ∈ groups', ∃ h ∈ groups,
      h.start = g.start ∧ h.size = g.size := by
    intro g hg
    have hIn := List.mem_map_of_mem
      (f := fun g : BlockGroup => (g.start, g.size)) hg
    rw [hSame] at hIn
    rcases List.mem_map.mp hIn with ⟨h, hh, hEq⟩
    exact ⟨h, hh, congrArg Prod.fst hEq,
      congrArg Prod.snd hEq⟩
  have hPairs :
      (groups'.map fun g => (g.start, g.size)).Pairwise
        fun a b => a.1 + a.2 ≤ b.1 := by
    rw [hSame, List.pairwise_map]
    exact hOk.apart
  rw [List.pairwise_map] at hPairs
  refine ⟨hPairs, ?_, ?_, ?_⟩
  · intro g hg
    rcases hMem g hg with ⟨h, hh, _, hSize⟩
    rw [← hSize]
    exact hOk.nonempty h hh
  · intro g hg
    rcases hMem g hg with ⟨h, hh, hStart, hSize⟩
    have hEnd := hOk.bounded h hh
    unfold BlockGroup.end_ at hEnd ⊢
    omega
  · intro g hg
    rcases hMem g hg with ⟨h, hh, hStart, hSize⟩
    have hEnd := hOk.above h hh
    unfold BlockGroup.end_ at hEnd ⊢
    omega

end Groups

----------
-- The Pending Operations
----------

theorem FinishCurrentInsert.empty
    {a b : Accounts}
    (hFinish : FinishCurrentInsert a b) :
    b.space.extentIns = [] := by
  induction hFinish with
  | done hEmpty => exact hEmpty
  | insert _ _ _ ih => exact ih

theorem FinishCurrentInsert.groupsOk
    {a b : Accounts}
    (hFinish : FinishCurrentInsert a b)
    (hOk : GroupsOk a.space.groups) :
    GroupsOk b.space.groups := by
  induction hFinish with
  | done => exact hOk
  | insert _ hInsert _ ih => exact ih (hOk.congr hInsert.1)

/-
  Every `__free_extent` leaves no pending insertions, so none
  is there when the next deletion is taken up.
-/
theorem DelPendingExtents.empty
    {a b : Accounts}
    {ret : Int}
    (hDel : DelPendingExtents a ret b)
    (hIns : a.space.extentIns = []) :
    b.space.extentIns = [] ∧ b.pendingDel = [] := by
  induction hDel with
  | done hEmpty => exact ⟨hIns, hEmpty⟩
  | free _ _ hFree _ ih =>
      rcases hFree with ⟨mid, _, hFinish⟩
      exact ih hFinish.empty
  | cancel _ hMem _ _ _ =>
      rw [hIns] at hMem
      cases hMem

theorem DelPendingExtents.groupsOk
    {a b : Accounts}
    {ret : Int}
    (hDel : DelPendingExtents a ret b)
    (hOk : GroupsOk a.space.groups) :
    GroupsOk b.space.groups := by
  induction hDel with
  | done => exact hOk
  | free _ _ hFree _ ih =>
      rcases hFree with ⟨mid, hChange, hFinish⟩
      exact ih (hFinish.groupsOk (hOk.congr hChange.1))
  | cancel _ _ _ _ ih => exact ih hOk

theorem extentRootPendingOps_iff
    {a : Accounts} :
    extentRootPendingOps a = true ↔
      a.space.extentIns ≠ [] ∧ a.pendingDel ≠ [] := by
  unfold extentRootPendingOps
  split_ifs with hIns
  · simp [hIns]
  · simp [hIns]

/- One turn of the loop leaves nothing pending. -/
theorem PendingLoop.empty
    {a b : Accounts}
    {ret : Int}
    (hLoop : PendingLoop a ret b)
    (hRet : ret = 0)
    (hBoth : a.space.extentIns = [] ↔ a.pendingDel = []) :
    b.space.extentIns = [] ∧ b.pendingDel = [] := by
  induction hLoop with
  | @done a hNone =>
      have hNot : ¬(a.space.extentIns ≠ [] ∧
          a.pendingDel ≠ []) := by
        rw [← extentRootPendingOps_iff, hNone]
        exact Bool.false_ne_true
      by_cases hIns : a.space.extentIns = []
      · exact ⟨hIns, hBoth.mp hIns⟩
      · exact absurd
          ⟨hIns, fun h => hIns (hBoth.mpr h)⟩ hNot
  | turn _ hInsert hDel _ ih =>
      have hEmpty := hDel.empty hInsert.empty
      exact ih hRet (iff_of_true hEmpty.1 hEmpty.2)
  | fail _ _ _ hNe => exact absurd hRet hNe

theorem PendingLoop.groupsOk
    {a b : Accounts}
    {ret : Int}
    (hLoop : PendingLoop a ret b)
    (hOk : GroupsOk a.space.groups) :
    GroupsOk b.space.groups := by
  induction hLoop with
  | done => exact hOk
  | turn _ hInsert hDel _ ih =>
      exact ih (hDel.groupsOk (hInsert.groupsOk hOk))
  | fail _ hInsert hDel _ =>
      exact hDel.groupsOk (hInsert.groupsOk hOk)

/- The loop ends at once unless both kinds are pending. -/
theorem PendingLoop.eq_of_not_pending
    {a b : Accounts}
    {ret : Int}
    (hLoop : PendingLoop a ret b)
    (hNone : extentRootPendingOps a = false) :
    b = a := by
  cases hLoop with
  | done => rfl
  | turn hSome
  | fail hSome =>
      rw [hNone] at hSome
      cases hSome

----------
-- One Extent
----------

section Update

variable {space : Space}

theorem overlap_split
    (g : BlockGroup)
    (b m n : Nat) :
    overlap g b (m + n) =
      overlap g b m + overlap g (b + m) n := by
  unfold overlap
  omega

/- What one turn of the loop counts. -/
theorem GroupsOk.turn
    (hOk : GroupsOk space.groups)
    {b total : Nat}
    {g : BlockGroup}
    (hLookup : lookupBlockGroup space b = some g)
    (hTotal : total ≠ 0) :
    ∃ m n,
      min total (g.size - (b - g.start)) = m ∧ 0 < m ∧
        total = m + n ∧ total - m = n ∧
        (b + m) % 2 ^ 64 = b + m ∧ b + m ≤ g.end_ := by
  rcases lookupBlockGroup_mem hLookup with
    ⟨hMem, hLow, hHigh⟩
  have hBound := hOk.bounded g hMem
  unfold BlockGroup.end_ at hHigh hBound ⊢
  refine ⟨min total (g.size - (b - g.start)),
    total - min total (g.size - (b - g.start)), rfl, ?_⟩
  omega

theorem updateUsedLoop_some
    (hOk : GroupsOk space.groups)
    {fuel b total : Nat}
    (hFuel : total ≤ fuel)
    {used used' : Nat → Nat}
    (hLoop :
      updateUsedLoop space fuel b total used = some used') :
    (∀ g ∈ space.groups,
        used' g.start % 2 ^ 64 =
          (used g.start + overlap g b total) % 2 ^ 64) ∧
      (∀ g ∈ space.groups,
        used g.start < 2 ^ 64 → used' g.start < 2 ^ 64) ∧
      (space.groups.map fun g => overlap g b total).sum =
        total ∧
      ∀ x, b ≤ x → x < b + total →
        ¬Outside space.groups x := by
  have hZeroTotal : ∀ b,
      (space.groups.map fun g => overlap g b 0).sum = 0 := by
    intro b
    apply List.sum_eq_zero
    intro x hx
    rcases List.mem_map.mp hx with ⟨g, _, rfl⟩
    unfold overlap
    omega
  have hZero : ∀ g : BlockGroup, ∀ b, overlap g b 0 = 0 := by
    intro g b
    unfold overlap
    omega
  induction fuel generalizing b total used with
  | zero =>
      obtain rfl : total = 0 := by omega
      cases hLoop
      refine ⟨?_, fun _ _ h => h, hZeroTotal b, by omega⟩
      intro g _
      rw [hZero, Nat.add_zero]
  | succ fuel ih =>
      unfold updateUsedLoop at hLoop
      split_ifs at hLoop with hTotal
      · subst hTotal
        cases hLoop
        refine ⟨?_, fun _ _ h => h, hZeroTotal b, by omega⟩
        intro g _
        rw [hZero, Nat.add_zero]
      · split at hLoop
        case h_1 => cases hLoop
        case h_2 c hLookup =>
          rcases hOk.turn hLookup hTotal with
            ⟨m, n, hMin, hPos, rfl, hSub, hMod, hEnd⟩
          rcases lookupBlockGroup_mem hLookup with
            ⟨hMem, hLow, _⟩
          simp only [hMin, hSub, hMod] at hLoop
          rcases ih (by omega) hLoop with
            ⟨hUsed, hSmall, hSum, hCover⟩
          refine ⟨?_, ?_, ?_, ?_⟩
          · intro g hg
            rw [hUsed g hg, overlap_split]
            by_cases hEq : g = c
            · subst hEq
              rw [Function.update_self,
                overlap_of_inside hLow hEnd,
                Nat.mod_add_mod, Nat.add_assoc]
            · have hStart : g.start ≠ c.start :=
                fun h => hEq (hOk.start_inj hg hMem h)
              have hNone : overlap g b m = 0 := by
                by_contra hNe
                apply hEq
                have hIn :
                    g.start ≤ max b g.start ∧
                      max b g.start < g.end_ := by
                  unfold overlap at hNe
                  omega
                have hOther :
                    c.start ≤ max b g.start ∧
                      max b g.start < c.end_ := by
                  unfold overlap at hNe
                  omega
                have h1 := hOk.lookup_of_inside hg hIn.1 hIn.2
                have h2 := hOk.lookup_of_inside hMem
                  hOther.1 hOther.2
                rw [h1] at h2
                exact Option.some.inj h2
              rw [Function.update_of_ne hStart, hNone,
                Nat.zero_add]
          · intro g hg hLt
            apply hSmall g hg
            by_cases hStart : g.start = c.start
            · rw [hStart, Function.update_self]
              exact Nat.mod_lt _ (by decide)
            · rw [Function.update_of_ne hStart]
              exact hLt
          · have hParts :
                (space.groups.map fun g =>
                    overlap g b (m + n)).sum =
                  (space.groups.map fun g =>
                    overlap g b m).sum +
                  (space.groups.map fun g =>
                    overlap g (b + m) n).sum := by
              rw [← List.sum_map_add]
              simp only [overlap_split]
            rw [hParts, hSum, sum_overlap_of_inside hOk.apart
              hMem hLow hEnd]
          · intro x hx hLt
            by_cases hSide : x < b + m
            · intro hOut
              exact hOut c hMem (by omega)
            · exact hCover x (by omega) (by omega)

theorem updateUsedLoop_none
    (hOk : GroupsOk space.groups)
    {fuel b total : Nat}
    {used : Nat → Nat}
    (hLoop : updateUsedLoop space fuel b total used = none) :
    ∃ x, b ≤ x ∧ x < b + total ∧ Outside space.groups x := by
  induction fuel generalizing b total used with
  | zero => cases hLoop
  | succ fuel ih =>
      unfold updateUsedLoop at hLoop
      split_ifs at hLoop with hTotal
      split at hLoop
      case h_1 hLookup =>
        exact ⟨b, le_rfl, by omega,
          hOk.outside_of_lookup hLookup⟩
      case h_2 c hLookup =>
        rcases hOk.turn hLookup hTotal with
          ⟨m, n, hMin, hPos, rfl, hSub, hMod, hEnd⟩
        simp only [hMin, hSub, hMod] at hLoop
        rcases ih hLoop with ⟨x, hLow, hHigh, hOut⟩
        exact ⟨x, by omega, by omega, hOut⟩

/- All the groups are set to zero. -/
theorem zeroLoop_zero
    {groups before : List BlockGroup}
    (hGroups : space.groups = before ++ groups)
    (hOk : GroupsOk space.groups)
    {fuel start : Nat}
    (hFuel : groups.length ≤ fuel)
    (hBefore : ∀ g ∈ before, g.end_ ≤ start)
    (hAfter : ∀ g ∈ groups, start < g.end_)
    {used : Nat → Nat}
    (hUsed : ∀ g ∈ before, used g.start = 0) :
    ∀ g ∈ space.groups,
      zeroLoop space fuel start used g.start = 0 := by
  induction groups generalizing before fuel start used with
  | nil =>
      rw [List.append_nil] at hGroups
      have hNone :
          lookupFirstBlockGroup space start = none := by
        unfold lookupFirstBlockGroup
        simp only [List.find?_eq_none, decide_eq_true_eq]
        intro g hg
        rw [hGroups] at hg
        have hEnd := hBefore g hg
        omega
      intro g hg
      rw [hGroups] at hg
      cases fuel with
      | zero => exact hUsed g hg
      | succ fuel =>
          unfold zeroLoop
          rw [hNone]
          exact hUsed g hg
  | cons c rest ih =>
      obtain ⟨fuel, rfl⟩ : ∃ k, fuel = k + 1 :=
        ⟨fuel - 1, by simp at hFuel; omega⟩
      have hMem : c ∈ space.groups := by
        rw [hGroups]
        simp
      have hFirst :
          lookupFirstBlockGroup space start = some c := by
        unfold lookupFirstBlockGroup
        rw [hGroups, List.find?_append]
        have hNone :
            (before.find? fun g =>
              max start (SUPER_INFO_OFFSET +
                SUPER_INFO_SIZE) < g.end_) = none := by
          simp only [List.find?_eq_none, decide_eq_true_eq]
          intro g hg
          have hEnd := hBefore g hg
          omega
        simp only [hNone, Option.none_or]
        apply List.find?_cons_of_pos
        have hStart := hAfter c List.mem_cons_self
        have hAbove := hOk.above c hMem
        simp only [decide_eq_true_eq]
        omega
      have hApart := hOk.apart
      rw [hGroups, List.pairwise_append] at hApart
      have hNext :=
        (List.pairwise_cons.mp hApart.2.1).1
      have hGroups' :
          space.groups = (before ++ [c]) ++ rest := by
        rw [hGroups, List.append_assoc]
        rfl
      unfold zeroLoop
      rw [hFirst]
      apply ih hGroups'
      · simp at hFuel ⊢
        omega
      · intro g hg
        rcases List.mem_append.mp hg with hg | hg
        · have h1 := hBefore g hg
          have h2 := hAfter c List.mem_cons_self
          unfold BlockGroup.end_ at h2
          omega
        · rw [List.mem_singleton.mp hg]
          exact le_rfl
      · intro g hg
        have h1 := hNext g hg
        have h2 := hOk.nonempty g (by
          rw [hGroups]
          simp [hg])
        unfold BlockGroup.end_ at h1 ⊢
        omega
      · intro g hg
        by_cases hStart : g.start = c.start
        · rw [hStart, Function.update_self]
        · rw [Function.update_of_ne hStart]
          rcases List.mem_append.mp hg with hg | hg
          · exact hUsed g hg
          · rw [List.mem_singleton.mp hg] at hStart
            exact absurd rfl hStart

end Update

----------
-- All Extents
----------

section Recount

variable {a b : Accounts}
variable {entries : List ExtentEntry}

/- Both kinds of items are counted alike. -/
theorem recountLoop_cons
    (entry : ExtentEntry)
    (entries : List ExtentEntry)
    (a : Accounts)
    (n : Nat) :
    recountLoop (entry :: entries) a n =
      if entry.key.IsExtent then
        (updateBlockGroupAlloc a entry.key.objectid
          (extentLen a.space.leafsize entry.key)).bind
            fun b => recountLoop entries b
              ((n + extentLen a.space.leafsize entry.key) %
                2 ^ 64)
      else
        recountLoop entries a n := by
  have hTypes : METADATA_ITEM_KEY ≠ EXTENT_ITEM_KEY := by
    decide
  unfold ExtentKey.IsExtent extentLen ExtentKey.extentEnd
  by_cases hFat : entry.key.type = EXTENT_ITEM_KEY
  · simp [recountLoop, hFat]
  · by_cases hSkinny : entry.key.type = METADATA_ITEM_KEY
    · simp [recountLoop, hSkinny, hTypes]
    · simp [recountLoop, hFat, hSkinny]

theorem updateBlockGroupAlloc_some
    {bytenr n : Nat}
    (hUpdate : updateBlockGroupAlloc a bytenr n = some b) :
    b.space = a.space ∧ b.pendingDel = a.pendingDel ∧
      updateUsedLoop a.space n bytenr n a.used =
        some b.used := by
  unfold updateBlockGroupAlloc at hUpdate
  rcases Option.map_eq_some_iff.mp hUpdate with
    ⟨used, hLoop, rfl⟩
  exact ⟨rfl, rfl, hLoop⟩

/- The sizes of the extents, as far as they are in groups. -/
def totalInside
    (space : Space)
    (entry : ExtentEntry) : Nat :=
  (space.groups.map fun g =>
    bytesInside space.leafsize g entry).sum

theorem recountLoop_some
    (hOk : GroupsOk a.space.groups)
    {n m : Nat}
    (hLoop : recountLoop entries a n = some (b, m)) :
    b.space = a.space ∧ b.pendingDel = a.pendingDel ∧
      (∀ g ∈ a.space.groups,
        b.used g.start % 2 ^ 64 =
          (a.used g.start +
            (entries.map
              (bytesInside a.space.leafsize g)).sum) %
            2 ^ 64) ∧
      (∀ g ∈ a.space.groups,
        a.used g.start < 2 ^ 64 → b.used g.start < 2 ^ 64) ∧
      m % 2 ^ 64 =
        (n + (entries.map (totalInside a.space)).sum) %
          2 ^ 64 ∧
      (n < 2 ^ 64 → m < 2 ^ 64) ∧
      ∀ e ∈ entries, e.key.IsExtent →
        ∀ x, e.key.objectid ≤ x →
          x < e.key.objectid +
              extentLen a.space.leafsize e.key →
            ¬Outside a.space.groups x := by
  induction entries generalizing a n with
  | nil =>
      cases hLoop
      exact ⟨rfl, rfl, fun _ _ => rfl, fun _ _ h => h, rfl,
        fun h => h, fun _ h => by cases h⟩
  | cons entry entries ih =>
      rw [recountLoop_cons] at hLoop
      simp only [List.map_cons, List.sum_cons]
      split_ifs at hLoop with hExtent
      · rcases Option.bind_eq_some_iff.mp hLoop with
          ⟨mid, hUpdate, hRest⟩
        rcases updateBlockGroupAlloc_some hUpdate with
          ⟨hSpace, hPending, hUsedLoop⟩
        rcases updateUsedLoop_some hOk le_rfl hUsedLoop with
          ⟨hUsed, hSmall, hSum, hCover⟩
        rw [← hSpace] at hOk
        rcases ih hOk hRest with
          ⟨hS, hP, hU, hSm, hM, hMs, hC⟩
        rw [hSpace] at hS hU hSm hM hC
        have hInside : ∀ g,
            bytesInside a.space.leafsize g entry =
              overlap g entry.key.objectid
                (extentLen a.space.leafsize entry.key) :=
          fun g => if_pos hExtent
        refine ⟨hS, hP.trans hPending, ?_, ?_, ?_, ?_, ?_⟩
        · intro g hg
          rw [hU g hg, Nat.add_mod, hUsed g hg, ← Nat.add_mod,
            hInside, Nat.add_assoc]
        · intro g hg hLt
          exact hSm g hg (hSmall g hg hLt)
        · have hTotal :
              totalInside a.space entry =
                extentLen a.space.leafsize entry.key := by
            unfold totalInside
            simp only [hInside]
            exact hSum
          rw [hM, hTotal, Nat.mod_add_mod, Nat.add_assoc]
        · intro _
          exact hMs (Nat.mod_lt _ (by decide))
        · intro e he
          rcases List.mem_cons.mp he with rfl | he
          · exact fun _ => hCover
          · exact hC e he
      · rcases ih hOk hLoop with
          ⟨hS, hP, hU, hSm, hM, hMs, hC⟩
        have hInside : ∀ g,
            bytesInside a.space.leafsize g entry = 0 :=
          fun g => if_neg hExtent
        refine ⟨hS, hP, ?_, hSm, ?_, hMs, ?_⟩
        · intro g hg
          rw [hU g hg, hInside, Nat.zero_add]
        · have hTotal : totalInside a.space entry = 0 := by
            unfold totalInside
            simp [hInside]
          rw [hM, hTotal, Nat.zero_add]
        · intro e he
          rcases List.mem_cons.mp he with rfl | he
          · exact fun h => absurd h hExtent
          · exact hC e he

theorem recountLoop_none
    (hOk : GroupsOk a.space.groups)
    {n : Nat}
    (hLoop : recountLoop entries a n = none) :
    ∃ e ∈ entries, e.key.IsExtent ∧
      ∃ x, e.key.objectid ≤ x ∧
        x < e.key.objectid +
            extentLen a.space.leafsize e.key ∧
        Outside a.space.groups x := by
  induction entries generalizing a n with
  | nil => cases hLoop
  | cons entry entries ih =>
      rw [recountLoop_cons] at hLoop
      split_ifs at hLoop with hExtent
      · rcases Option.bind_eq_none_iff.mp hLoop with hAll
        cases hUpdate :
            updateBlockGroupAlloc a entry.key.objectid
              (extentLen a.space.leafsize entry.key) with
        | none =>
            unfold updateBlockGroupAlloc at hUpdate
            rw [Option.map_eq_none_iff] at hUpdate
            exact ⟨entry, List.mem_cons_self, hExtent,
              updateUsedLoop_none hOk hUpdate⟩
        | some mid =>
            rcases updateBlockGroupAlloc_some hUpdate with
              ⟨hSpace, _, _⟩
            have hRest := hAll mid hUpdate
            rw [← hSpace] at hOk
            rcases ih hOk hRest with ⟨e, he, hFound⟩
            rw [hSpace] at hFound
            exact ⟨e, List.mem_cons_of_mem _ he, hFound⟩
      · rcases ih hOk hLoop with ⟨e, he, hFound⟩
        exact ⟨e, List.mem_cons_of_mem _ he, hFound⟩

/- What the search skips is no extent. -/
theorem sum_dropWhile_before
    (leafsize : Nat)
    (g : BlockGroup)
    (entries : List ExtentEntry) :
    ((entries.dropWhile fun e => e.key.Before 0).map
        (bytesInside leafsize g)).sum =
      (entries.map (bytesInside leafsize g)).sum := by
  induction entries with
  | nil => rfl
  | cons entry entries ih =>
      by_cases hBefore : entry.key.Before 0
      · have hNot : ¬entry.key.IsExtent := by
          rcases hBefore with h | ⟨_, h⟩
          · omega
          · unfold ExtentKey.IsExtent METADATA_ITEM_KEY
            unfold EXTENT_ITEM_KEY at h ⊢
            omega
        rw [List.dropWhile_cons_of_pos (by simpa using hBefore),
          ih, List.map_cons, List.sum_cons]
        unfold bytesInside
        rw [if_neg hNot, Nat.zero_add]
      · rw [List.dropWhile_cons_of_neg (by simpa using hBefore)]

theorem mem_dropWhile_before
    {entry : ExtentEntry}
    (hExtent : entry.key.IsExtent)
    (hMem : entry ∈ entries) :
    entry ∈ entries.dropWhile fun e => e.key.Before 0 := by
  induction entries with
  | nil => cases hMem
  | cons first entries ih =>
      by_cases hBefore : first.key.Before 0
      · rw [List.dropWhile_cons_of_pos (by simpa using hBefore)]
        rcases List.mem_cons.mp hMem with rfl | hMem
        · exfalso
          rcases hBefore with h | ⟨_, h⟩
          · omega
          · unfold ExtentKey.IsExtent METADATA_ITEM_KEY
              at hExtent
            unfold EXTENT_ITEM_KEY at h hExtent
            omega
        · exact ih hMem
      · rw [List.dropWhile_cons_of_neg (by simpa using hBefore)]
        exact hMem

/- The order of the two sums does not matter. -/
theorem sum_totalInside
    (space : Space)
    (entries : List ExtentEntry) :
    (entries.map (totalInside space)).sum =
      (space.groups.map fun g =>
        (entries.map
          (bytesInside space.leafsize g)).sum).sum := by
  induction entries with
  | nil => simp
  | cons entry entries ih =>
      simp only [List.map_cons, List.sum_cons]
      rw [ih, List.sum_map_add]
      rfl

theorem recount_some
    (hOk : GroupsOk a.space.groups)
    (hRecount : recount a = some b) :
    b.space = a.space ∧ b.pendingDel = a.pendingDel ∧
      (∀ g ∈ a.space.groups,
        b.used g.start =
          (a.space.items.map
            (bytesInside a.space.leafsize g)).sum %
              2 ^ 64) ∧
      b.superUsed =
        (a.space.groups.map fun g => b.used g.start).sum %
          2 ^ 64 ∧
      ¬Uncovered a.space := by
  unfold recount at hRecount
  rcases Option.map_eq_some_iff.mp hRecount with
    ⟨⟨c, m⟩, hLoop, rfl⟩
  have hGroups :
      a.space.groups = [] ++ a.space.groups := rfl
  have hZero : ∀ g ∈ a.space.groups,
      (zeroUsed a).used g.start = 0 := by
    apply zeroLoop_zero hGroups hOk le_rfl
    · intro g hg
      cases hg
    · intro g hg
      have hAbove := hOk.above g hg
      omega
    · intro g hg
      cases hg
  have hZeroOk : GroupsOk (zeroUsed a).space.groups := hOk
  rcases recountLoop_some hZeroOk hLoop with
    ⟨hS, hP, hU, hSm, hM, hMs, hC⟩
  have hUsed : ∀ g ∈ a.space.groups,
      c.used g.start =
        (a.space.items.map
          (bytesInside a.space.leafsize g)).sum % 2 ^ 64 := by
    intro g hg
    have hMod := hU g hg
    have hLt := hSm g hg (by rw [hZero g hg]; decide)
    rw [Nat.mod_eq_of_lt hLt, hZero g hg, Nat.zero_add,
      sum_dropWhile_before] at hMod
    exact hMod
  refine ⟨hS, hP, hUsed, ?_, ?_⟩
  · have hLt := hMs (by decide)
    rw [Nat.mod_eq_of_lt hLt, Nat.zero_add, sum_totalInside]
      at hM
    have hGroupsUsed :
        (a.space.groups.map fun g => c.used g.start) =
          (a.space.groups.map fun g =>
            ((a.space.items.dropWhile
                fun e => e.key.Before 0).map
              (bytesInside a.space.leafsize g)).sum).map
            fun n => n % 2 ^ 64 := by
      rw [List.map_map]
      apply List.map_congr_left
      intro g hg
      rw [hUsed g hg, ← sum_dropWhile_before]
      rfl
    simp only
    rw [hM, hGroupsUsed, ← List.sum_nat_mod]
    rfl
  · rintro ⟨e, he, hExtent, x, hLow, hHigh, hOut⟩
    exact hC e (mem_dropWhile_before hExtent he) hExtent x
      hLow hHigh hOut

theorem recount_none
    (hOk : GroupsOk a.space.groups)
    (hRecount : recount a = none) :
    Uncovered a.space := by
  unfold recount at hRecount
  rw [Option.map_eq_none_iff] at hRecount
  have hZeroOk : GroupsOk (zeroUsed a).space.groups := hOk
  rcases recountLoop_none hZeroOk hRecount with
    ⟨e, he, hExtent, hOut⟩
  exact ⟨e, (List.dropWhile_sublist _).subset he, hExtent,
    hOut⟩

----------
-- The Whole Call
----------

theorem accounted_of_both
    (hOk : GroupsOk a.space.groups)
    (hBoth : a.space.extentIns = [] ↔ a.pendingDel = [])
    (hFix : FixBlockAccounting a b) :
    Accounted b := by
  rcases hFix with ⟨mid, hLoop, hRecount⟩
  rcases hLoop.empty rfl hBoth with ⟨hIns, hDel⟩
  rcases recount_some (hLoop.groupsOk hOk) hRecount with
    ⟨hSpace, hPending, hUsed, hSuper, _⟩
  refine ⟨?_, ?_, ?_, ?_⟩
  · rw [hSpace]
    exact hIns
  · rw [hPending]
    exact hDel
  · rw [hSpace]
    exact hUsed
  · rw [hSpace]
    exact hSuper

/-
  When `btrfs_fix_block_accounting` returns zero all is
  accounted for, exactly when insertions and deletions are
  pending together or not at all; it cannot return when an
  extent lies outside the groups and the loop is left out.
-/
theorem fixBlockAccounting_accounted_iff
    (hOk : GroupsOk a.space.groups) :
    (∀ c, FixBlockAccounting a c → Accounted c) ↔
      (a.space.extentIns = [] ↔ a.pendingDel = []) ∨
        Uncovered a.space := by
  constructor
  · intro hAll
    by_contra hNot
    rw [not_or] at hNot
    have hNone : extentRootPendingOps a = false := by
      rw [← Bool.not_eq_true, extentRootPendingOps_iff]
      intro hBoth
      exact hNot.1 (iff_of_false hBoth.1 hBoth.2)
    cases hRecount : recount a with
    | none => exact hNot.2 (recount_none hOk hRecount)
    | some c =>
        have hDone := hAll c ⟨a, .done hNone, hRecount⟩
        rcases recount_some hOk hRecount with
          ⟨hSpace, hPending, _⟩
        apply hNot.1
        rw [← hSpace, ← hPending]
        exact iff_of_true hDone.noInserts hDone.noDeletes
  · rintro (hBoth | hOut) c hFix
    · exact accounted_of_both hOk hBoth hFix
    · by_cases hBoth :
          a.space.extentIns = [] ↔ a.pendingDel = []
      · exact accounted_of_both hOk hBoth hFix
      · rcases hFix with ⟨mid, hLoop, hRecount⟩
        have hNone : extentRootPendingOps a = false := by
          rw [← Bool.not_eq_true, extentRootPendingOps_iff]
          intro h
          exact hBoth (iff_of_false h.1 h.2)
        rw [hLoop.eq_of_not_pending hNone] at hRecount
        exact absurd hOut
          (recount_some hOk hRecount).2.2.2.2

end Recount

/- One group, and one extent of 16 KiB in it. -/
def oneGroup
    (pendingDel : List PendingInsert) : Accounts where
  space :=
    { mapTree := []
      leafsize := 16384
      stripesize := 4096
      items := [⟨⟨1048576, EXTENT_ITEM_KEY, 16384⟩, 1⟩]
      groups := [⟨0, 4194304, 2, false, false⟩]
      freeSpaceCache := []
      pinnedExtents := []
      extentIns := [] }
  pendingDel := pendingDel
  used := fun _ => 99
  superUsed := 99
  rootUsed := 0

theorem oneGroup_groupsOk
    (pendingDel : List PendingInsert) :
    GroupsOk (oneGroup pendingDel).space.groups where
  apart := List.pairwise_singleton _ _
  nonempty := by simp [oneGroup]
  bounded := by simp [oneGroup, BlockGroup.end_]
  above := by
    simp [oneGroup, BlockGroup.end_, SUPER_INFO_OFFSET,
      SUPER_INFO_SIZE]

/- The accounts with the group recounted. -/
def recounted
    (pendingDel : List PendingInsert) : Accounts :=
  { oneGroup pendingDel with
    used := Function.update (Function.update
      (fun _ => 99) 0 0) 0 16384
    superUsed := 16384
    rootUsed := 16384 }

theorem fixBlockAccounting_accounted_oneGroup :
    FixBlockAccounting (oneGroup []) (recounted []) ∧
      Accounted (recounted []) := by
  have hFix :
      FixBlockAccounting (oneGroup []) (recounted []) :=
    ⟨oneGroup [], .done rfl, rfl⟩
  have hAll :=
    (fixBlockAccounting_accounted_iff
      (oneGroup_groupsOk [])).mpr
      (Or.inl (iff_of_true rfl rfl))
  exact ⟨hFix, hAll _ hFix⟩

/- A pending deletion alone is left behind. -/
theorem pendingDel_not_accounted :
    FixBlockAccounting (oneGroup [⟨1048576, 16384, 0⟩])
        (recounted [⟨1048576, 16384, 0⟩]) ∧
      (recounted [⟨1048576, 16384, 0⟩]).pendingDel =
        [⟨1048576, 16384, 0⟩] ∧
      ¬Accounted (recounted [⟨1048576, 16384, 0⟩]) := by
  refine ⟨⟨oneGroup [⟨1048576, 16384, 0⟩], .done rfl, rfl⟩,
    rfl, ?_⟩
  intro hDone
  cases hDone.noDeletes

end ExtentTree

end BtrfsProgs
