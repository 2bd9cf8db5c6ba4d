import BtrfsProgs.Ctree.ItemSearch
import BtrfsProgs.Lib.Loop

/-
  `btrfs_find_free_objectid`, from `inode-map.c`.

  The walk begins one item before the place of the search, so
  that the type of the search key makes no difference.

  Main declarations:
    * `freeTurn` and `findFreeObjectid`
    * `Passed` and `Free`
    * `findFreeObjectid_free`
-/

----------
-- The Function
----------

namespace BtrfsProgs

namespace Ctree

open Trail

section FreeObjectid

variable {N : Type}

def BTRFS_FIRST_FREE_OBJECTID : Nat := 256

/- The variables of the loop. -/
structure FreeWalk (N : Type) where
  path : BtrfsPath N
  start_found : Bool
  last_ino : Nat

/- What is returned, and `*objectid` where it is stored. -/
abbrev FreeResult := Except Stop (Int × Option Nat)

/- A turn of the loop. -/
def freeTurn
    (T : Slots N)
    (key : N → Nat → Key)
    (search_start : Nat)
    (w : FreeWalk N) : FreeWalk N ⊕ FreeResult :=
  match w.path.nodes 0 with
  | none => .inr (.error .bug)
  | some l =>
      let slot := w.path.slots 0
      if T.count l ≤ slot then
        let (ret, path) := nextLeaf T w.path
        if ret = 0 then .inl { w with path := path }
        else if ret < 0 then .inr (.ok (ret, none))
        else if w.start_found = false then
          .inr (.ok (0, some search_start))
        else
          .inr (.ok (0, some
            (if w.last_ino > search_start then w.last_ino
            else search_start)))
      else
        let k := key l slot
        let last_ino :=
          if w.last_ino < search_start then search_start
          else w.last_ino
        if search_start ≤ k.objectid ∧ w.start_found = true ∧
            last_ino < k.objectid then
          .inr (.ok (0, some last_ino))
        else
          .inl
            { path := w.path.advance
              start_found := true
              last_ino := (k.objectid + 1) % 2 ^ 64 }

/- The `BUG_ON` behind the loop. -/
def checkFound
    (search_start : Nat) : FreeResult → FreeResult
  | .ok (0, some objectid) =>
      if objectid < search_start then .error .bug
      else .ok (0, some objectid)
  | result => result

/-
  `btrfs_find_free_objectid`, where the search key has any
  type. What is stored is `last_inode_alloc` from then on, too.
-/
def findFreeObjectid
    (T : Slots N)
    (key : N → Nat → Key)
    (top : Nat)
    (root : N)
    (type last_inode_alloc : Nat)
    (fuel : Nat) : Option FreeResult :=
  let search_start :=
    max last_inode_alloc BTRFS_FIRST_FREE_OBJECTID
  let (ret, path) :=
    searchKey T key top root ⟨search_start, type, 0⟩ emptyPath
  if ret < 0 then some (.ok (ret, none))
  else
    let path :=
      if 0 < path.slots 0 then
        path.setSlot 0 (path.slots 0 - 1)
      else path
    (Loop.run (freeTurn T key search_start) fuel
      ⟨path, false, 0⟩).map (checkFound search_start)

----------
-- The Walk
----------

variable {T : Slots N} {key : N → Nat → Key}
variable {top search_start : Nat} {root leaf : N}
variable {w : FreeWalk N} {before after rest : List Key}
variable {k : Key}

/-
  The walk has come to a place: the next id is the one behind
  the last item that was passed.
-/
structure Passed
    (T : Slots N)
    (key : N → Nat → Key)
    (top : Nat)
    (root : N)
    (w : FreeWalk N)
    (before after : List Key) : Prop where
  stands : StandsAt T key top root w.path before after
  start : w.start_found = false → before = [] ∨ after ≠ []
  last :
    w.start_found = true → ∃ front k,
      before = front ++ [k] ∧ w.last_ino = k.objectid + 1

/- An id from the start on that no item has. -/
def Free
    (search_start : Nat)
    (items : List Key)
    (result : FreeResult) : Prop :=
  ∃ objectid, result = .ok (0, some objectid) ∧
    search_start ≤ objectid ∧
      ∀ k ∈ items, k.objectid ≠ objectid

/- The objects go up with the items. -/
theorem ItemTree.objects
    (hTree : ItemTree T key top root) :
    (allItems T key top root).Pairwise fun a b =>
      a.objectid ≤ b.objectid := by
  have hKey : ∀ leaf i, id (key leaf i) = key leaf i :=
    fun _ _ => rfl
  refine (hTree.pairwise hKey).imp ?_
  intro a b hLess
  rw [id, id, Key.lt_iff] at hLess
  omega

/- The place is in front of an item, or at the end. -/
theorem StandsAt.on_or_end
    (hTree : ItemTree T key top root)
    {path : BtrfsPath N}
    (hAt : StandsAt T key top root path before after) :
    (∃ leaf k rest, after = k :: rest ∧
        StandsOn T key top root path before leaf k rest) ∨
      ∃ leaf, path.nodes 0 = some leaf ∧
        T.count leaf ≤ path.slots 0 ∧
        (after = [] ∧ nextLeaf T path = (1, path) ∨
          ∃ k rest path' leaf', after = k :: rest ∧
            nextLeaf T path = (0, path') ∧
            StandsOn T key top root path' before leaf' k
              rest) := by
  rcases hAt.place with ⟨leaf, hHere, _⟩
  by_cases hSlot : T.count leaf ≤ path.slots 0
  · exact .inr ⟨leaf, hHere, hSlot,
      nextLeaf_at hTree.top_lt hTree.sound hTree.full hAt hHere
        hSlot⟩
  · rcases hAt.here hHere (by omega) with ⟨rest, rfl⟩
    exact .inl ⟨leaf, _, rest, rfl, hAt, hHere, by omega, rfl⟩

/- Behind the last item, the next id is free. -/
theorem free_of_last
    {front : List Key}
    {last : Key}
    (hSorted : (front ++ [last] ++ after).Pairwise fun a b =>
      a.objectid ≤ b.objectid)
    (hMore : ∀ k ∈ after,
      max (last.objectid + 1) search_start < k.objectid) :
    Free search_start (front ++ [last] ++ after)
      (.ok (0, some (max (last.objectid + 1) search_start))) := by
  refine ⟨_, rfl, le_max_right _ _, ?_⟩
  intro k hIn
  rcases List.mem_append.mp hIn with hOld | hNew
  · have hFront := (List.pairwise_append.mp
      (List.pairwise_append.mp hSorted).1).2.2
    have hLe : k.objectid ≤ last.objectid := by
      rcases List.mem_append.mp hOld with hIn | hLast
      · exact hFront k hIn last (List.mem_singleton_self last)
      · rw [List.mem_singleton.mp hLast]
    omega
  · have hLess := hMore k hNew
    omega

/- A turn at an item ends the walk or passes the item. -/
theorem freeTurn_item
    (hSorted : (before ++ k :: rest).Pairwise fun a b =>
      a.objectid ≤ b.objectid)
    (hLess : k.objectid < 2 ^ 64 - 1)
    (hOn : StandsOn T key top root w.path before leaf k rest)
    (hLast : w.start_found = true → ∃ front k,
      before = front ++ [k] ∧ w.last_ino = k.objectid + 1) :
    (∃ result, freeTurn T key search_start w = .inr result ∧
        Free search_start (before ++ k :: rest) result) ∨
      ∃ w', freeTurn T key search_start w = .inl w' ∧
        Passed T key top root w' (before ++ [k]) rest := by
  have hMax : (if w.last_ino < search_start then search_start
      else w.last_ino) = max w.last_ino search_start := by
    by_cases hStart : w.last_ino < search_start
    · rw [if_pos hStart]
      omega
    · rw [if_neg hStart]
      omega
  unfold freeTurn
  rw [hOn.here]
  dsimp only
  rw [if_neg (Nat.not_le.mpr hOn.slot), hOn.item, hMax]
  by_cases hFound : search_start ≤ k.objectid ∧
      w.start_found = true ∧
        max w.last_ino search_start < k.objectid
  · rw [if_pos hFound]
    rcases hLast hFound.2.1 with ⟨front, last, rfl, hIno⟩
    refine .inl ⟨_, rfl, ?_⟩
    rw [hIno]
    refine free_of_last hSorted ?_
    intro x hIn
    have hAbove := (List.pairwise_append.mp hSorted).2.1
    rw [hIno] at hFound
    rcases List.mem_cons.mp hIn with rfl | hRest
    · exact hFound.2.2
    · exact hFound.2.2.trans_le
        ((List.pairwise_cons.mp hAbove).1 x hRest)
  · rw [if_neg hFound]
    refine .inr ⟨_, rfl, hOn.advance, fun hNot => ?_,
      fun _ => ⟨before, k, rfl, ?_⟩⟩
    · cases hNot
    · exact Nat.mod_eq_of_lt (by omega)

/- The walk ends at a free id. -/
theorem freeTurn_ends
    (hTree : ItemTree T key top root)
    (hIds : ∀ k ∈ allItems T key top root,
      k.objectid < 2 ^ 64 - 1)
    (hPassed : Passed T key top root w before after) :
    Loop.Ends (freeTurn T key search_start)
      (Free search_start (allItems T key top root)) w := by
  induction after generalizing w before with
  | nil =>
      have hItems := hPassed.stands.items
      have hSorted := hTree.objects
      rcases hPassed.stands.on_or_end hTree with
        ⟨_, _, _, hNot, _⟩ | ⟨leaf, hHere, hSlot,
          ⟨_, hNext⟩ | ⟨_, _, _, _, hNot, _⟩⟩
      · cases hNot
      · rw [hItems] at hSorted ⊢
        cases hStart : w.start_found with
        | false =>
            refine .done (w := .ok (0, some search_start)) ?_ ?_
            · unfold freeTurn
              rw [hHere]
              dsimp only
              rw [if_pos hSlot, hNext]
              simp [hStart]
            · have hNone := (hPassed.start hStart).resolve_right
                (not_not.mpr rfl)
              rw [hNone]
              exact ⟨_, rfl, le_refl _, by simp⟩
        | true =>
            rcases hPassed.last hStart with
              ⟨front, last, rfl, hIno⟩
            refine .done ?_ (free_of_last hSorted (by simp))
            unfold freeTurn
            rw [hHere]
            dsimp only
            rw [if_pos hSlot, hNext, hIno]
            have hMax : (if last.objectid + 1 > search_start
                then last.objectid + 1 else search_start) =
                max (last.objectid + 1) search_start := by
              by_cases hMore : last.objectid + 1 > search_start
              · rw [if_pos hMore]
                omega
              · rw [if_neg hMore]
                omega
            rw [hMax, hStart]
            rfl
      · cases hNot
  | cons k rest ih =>
      have hItems := hPassed.stands.items
      have hSorted := hTree.objects
      rw [hItems] at hSorted
      have hLess := hIds k (by
        rw [hItems]
        exact List.mem_append_right _ List.mem_cons_self)
      -- a turn at an item, from any walk with these variables
      have hItem : ∀ {w' : FreeWalk N} {leaf : N},
          w'.start_found = w.start_found →
          w'.last_ino = w.last_ino →
          StandsOn T key top root w'.path before leaf k rest →
          Loop.Ends (freeTurn T key search_start)
            (Free search_start (allItems T key top root))
            w' := by
        intro w' leaf hFound hIno hOn
        rcases freeTurn_item hSorted hLess hOn
          (by rw [hFound, hIno]; exact hPassed.last) with
          ⟨result, hEnd, hFree⟩ | ⟨next, hTurn, hNext⟩
        · exact .done hEnd (hItems ▸ hFree)
        · exact .turn hTurn (ih hNext)
      rcases hPassed.stands.on_or_end hTree with
        ⟨leaf, _, _, hSame, hOn⟩ | ⟨leaf, hHere, hSlot,
          ⟨hNot, _⟩ | ⟨_, _, path', leaf', hSame, hNext, hOn⟩⟩
      · cases hSame
        exact hItem rfl rfl hOn
      · cases hNot
      · cases hSame
        refine .turn (b := { w with path := path' }) ?_
          (hItem rfl rfl hOn)
        unfold freeTurn
        rw [hHere]
        dsimp only
        rw [if_pos hSlot, hNext]
        rfl

/- One item back from the place of the search. -/
theorem passed_start
    (hTree : ItemTree T key top root)
    {path : BtrfsPath N}
    (hAt : StandsAt T key top root path before after) :
    ∃ before' after', Passed T key top root
      ⟨if 0 < path.slots 0 then
        path.setSlot 0 (path.slots 0 - 1) else path, false, 0⟩
      before' after' := by
  by_cases hSlot : 0 < path.slots 0
  · rw [if_pos hSlot]
    rcases hAt.back (Nat.pos_iff_ne_zero.mp hSlot) with
      ⟨before', leaf, _, _, _, hBack⟩
    exact ⟨_, _, hBack, fun _ => .inr (by simp),
      fun hNot => absurd hNot (by simp)⟩
  · rw [if_neg hSlot]
    refine ⟨before, after, hAt, fun _ => ?_,
      fun hNot => absurd hNot (by simp)⟩
    rcases hAt.atLeaf with ⟨leaf, hLeaf, hLeaves⟩
    by_cases hCount : 0 < T.count leaf
    · rcases hAt.here hLeaf.here (by omega) with ⟨rest, hSome⟩
      rw [hSome]
      exact .inr (by simp)
    · -- only a tree that is a leaf has a leaf without items
      have hZero : top = 0 := by
        by_contra hMore
        refine hCount (hTree.full (by omega) leaf ?_)
        rw [hLeaves]
        exact List.mem_append_right _ List.mem_cons_self
      rcases hAt.place with ⟨_, _, _, hBefore, _⟩
      have hNone : path.slots 0 = 0 := by omega
      rw [hNone, List.take_zero, List.append_nil] at hBefore
      subst hZero
      exact .inl hBefore

/-
  The id that is returned is free, from whatever was allocated
  last, whichever type the search key has.
-/
theorem findFreeObjectid_free
    (hTree : ItemTree T key top root)
    (hIds : ∀ k ∈ allItems T key top root,
      k.objectid < 2 ^ 64 - 1)
    (type last_inode_alloc : Nat) :
    ∃ fuel objectid,
      findFreeObjectid T key top root type last_inode_alloc
          fuel = some (.ok (0, some objectid)) ∧
        max last_inode_alloc BTRFS_FIRST_FREE_OBJECTID ≤
          objectid ∧
        ∀ k ∈ allItems T key top root,
          k.objectid ≠ objectid := by
  have hKey : ∀ leaf i, id (key leaf i) = key leaf i :=
    fun _ _ => rfl
  rcases searchSlot_at hTree hKey
      ⟨max last_inode_alloc BTRFS_FIRST_FREE_OBJECTID, type, 0⟩
      emptyPath_released with ⟨before, after, hAt, _, hRet⟩
  rcases passed_start hTree hAt with
    ⟨before', after', hPassed⟩
  rcases freeTurn_ends hTree hIds hPassed with
    ⟨fuel, result, hRun, objectid, rfl, hLe, hFree⟩
  refine ⟨fuel, objectid, ?_, hLe, hFree⟩
  have hDone : ¬(searchKey T key top root
      ⟨max last_inode_alloc BTRFS_FIRST_FREE_OBJECTID, type, 0⟩
      emptyPath).1 < 0 := by
    rcases hRet with ⟨hRet, _⟩ | ⟨hRet, _⟩
    · rw [hRet]
      decide
    · rw [hRet]
      decide
  unfold findFreeObjectid
  dsimp only
  rw [if_neg hDone, hRun, Option.map_some]
  exact congrArg some (if_neg (Nat.not_lt.mpr hLe))

end FreeObjectid

/- Two items of object 256, and one of object 257. -/
def usedKeys
    (_ : Unit)
    (i : Nat) : Key :=
  if i = 0 then ⟨256, 1, 0⟩
  else if i = 1 then ⟨256, 12, 256⟩
  else ⟨257, 1, 0⟩

theorem findFreeObjectid_free_used :
    ∃ fuel objectid,
      findFreeObjectid (leafSlots 3) usedKeys 0 () 255 0 fuel =
          some (.ok (0, some objectid)) ∧
        max 0 BTRFS_FIRST_FREE_OBJECTID ≤ objectid ∧
        ∀ k ∈ allItems (leafSlots 3) usedKeys 0 (),
          k.objectid ≠ objectid :=
  findFreeObjectid_free
    (leafSlots_tree fun i j hLess hIn => by
      obtain ⟨rfl, rfl⟩ | ⟨rfl, rfl⟩ | ⟨rfl, rfl⟩ :
          (i = 0 ∧ j = 1) ∨ (i = 0 ∧ j = 2) ∨
            (i = 1 ∧ j = 2) := by
        omega
      all_goals decide)
    (by decide) 255 0

end Ctree

end BtrfsProgs
