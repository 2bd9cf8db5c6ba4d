import BtrfsProgs.Ctree.PreviousItem

/-
  `find_free_dev_extent`, from `volumes.c`.

  The loop starts at the last device extent of any device that
  is before the place of the search start, and looks at the
  items of the device from there on.

  Main declarations:
    * `DevRoot` and `Device`
    * `findFreeDevExtent`
    * `Passed` and `Passed.turn`
    * `findFreeDevExtent_sound`
-/

----------
-- The Device Tree
----------

namespace BtrfsProgs

namespace ChunkAlloc

open Trail Ctree

/- `BTRFS_DEV_EXTENT_KEY`. -/
def DEV_EXTENT_KEY : Nat := 204

/- `BTRFS_BLOCK_RESERVED_1M_FOR_SUPER`. -/
def RESERVED_1M_FOR_SUPER : Nat := 1024 * 1024

/- The device root as it is read, with the lengths in its
   device extents. -/
structure DevRoot (N : Type) where
  slots : Slots N
  key : N → Nat → Key
  length : N → Nat → Nat
  top : Nat
  root : N

/- A device, and where allocation may start on it. -/
structure Device where
  devid : Nat
  total_bytes : Nat
  alloc_start : Nat

/- An item of the tree: its key and its length. -/
abbrev DevItem : Type := Key × Nat

/- The byte behind the last one of a device extent. -/
def extentEnd
    (x : DevItem) : Nat :=
  x.1.offset + x.2

/- The item is a device extent of the device. -/
def IsExtent
    (devid : Nat)
    (x : DevItem) : Prop :=
  x.1.objectid = devid ∧ x.1.type = DEV_EXTENT_KEY

section Find

variable {N : Type}

def DevRoot.item
    (d : DevRoot N)
    (n : N)
    (i : Nat) : DevItem :=
  (d.key n i, d.length n i)

/- All items. -/
def DevRoot.items
    (d : DevRoot N) : List DevItem :=
  allItems d.slots d.item d.top d.root

----------
-- The Function
----------

/- `search_start` -/
def Device.searchStart
    (dev : Device) : Nat :=
  max RESERVED_1M_FOR_SUPER dev.alloc_start

/- What is returned, and `*start` then. -/
abbrev Found : Type := Except Stop (Int × Nat)

def ENOSPC : Int := 28

/- At the label `check_pending`. -/
def checkPending
    (dev : Device)
    (num_bytes start : Nat) : Found :=
  if start < dev.searchStart then .error .bug
  else if dev.total_bytes < (start + num_bytes) % 2 ^ 64 then
    .ok (- ENOSPC, start)
  else .ok (0, start)

/- The variables of the loop. -/
structure FindState (N : Type) where
  path : BtrfsPath N
  start_found : Bool
  last_byte : Nat

/- At the label `no_more_items`. -/
def noMoreItems
    (dev : Device)
    (num_bytes start : Nat)
    (s : FindState N) : Found :=
  if !s.start_found then
    if dev.total_bytes ≤ dev.searchStart then
      .ok (- ENOSPC, start)
    else checkPending dev num_bytes dev.searchStart
  else
    let start :=
      if dev.searchStart < s.last_byte then s.last_byte
      else dev.searchStart
    if dev.total_bytes ≤ start then .ok (- ENOSPC, start)
    else checkPending dev num_bytes start

/- A turn at an item. -/
def findItem
    (dev : Device)
    (num_bytes start : Nat)
    (s : FindState N)
    (path : BtrfsPath N)
    (x : DevItem) : FindState N ⊕ Found :=
  if x.1.objectid < dev.devid then
    .inl { s with path := path.advance }
  else if dev.devid < x.1.objectid then
    .inr (noMoreItems dev num_bytes start s)
  else
    let gap := dev.searchStart ≤ x.1.offset ∧
      s.last_byte < x.1.offset ∧ s.start_found = true
    let last_byte :=
      if gap ∧ s.last_byte < dev.searchStart then
        dev.searchStart
      else s.last_byte
    if gap ∧ last_byte < x.1.offset ∧
        num_bytes ≤ x.1.offset - last_byte then
      .inr (checkPending dev num_bytes last_byte)
    else if x.1.type ≠ DEV_EXTENT_KEY then
      .inl ⟨path.advance, s.start_found, last_byte⟩
    else
      .inl ⟨path.advance, true, extentEnd x % 2 ^ 64⟩

def findTurn
    (d : DevRoot N)
    (dev : Device)
    (num_bytes start : Nat)
    (s : FindState N) : FindState N ⊕ Found :=
  let (ret, path) := settle d.slots s.path
  if ret < 0 then .inr (.ok (ret, start))
  else if 0 < ret then
    .inr (noMoreItems dev num_bytes start s)
  else
    match path.nodes 0 with
    | none => .inr (.error .bug)
    | some leaf =>
        findItem dev num_bytes start s path
          (d.item leaf (path.slots 0))

/-
  `find_free_dev_extent`, for some turns of its loops; `start`
  is what `*start` is before.
-/
def findFreeDevExtent
    (d : DevRoot N)
    (dev : Device)
    (num_bytes start fuel : Nat) : Option Found :=
  if dev.total_bytes ≤ dev.searchStart then
    some (.ok (- ENOSPC, start))
  else
    let (ret, path) := searchKey d.slots d.key d.top d.root
      ⟨dev.devid, DEV_EXTENT_KEY, dev.searchStart⟩ emptyPath
    if ret < 0 then some (.ok (ret, start))
    else
      match
        previousItem d.slots d.key 0 DEV_EXTENT_KEY fuel path
      with
      | none => none
      | some (.error stop) => some (.error stop)
      | some (.ok (ret, path)) =>
          if ret < 0 then some (.ok (ret, start))
          else
            Loop.run (findTurn d dev num_bytes start) fuel
              ⟨path, false, 0⟩

----------
-- Soundness
----------

/- One of two device extents ends before the other starts. -/
def Apart
    (x y : DevItem) : Prop :=
  extentEnd x ≤ y.1.offset ∨ extentEnd y ≤ x.1.offset

/- The device extents of every device are disjoint. -/
def Disjoint
    (items : List DevItem) : Prop :=
  items.Pairwise fun x y => ∀ devid,
    IsExtent devid x → IsExtent devid y → Apart x y

/- No sum that is formed is too large for 64 bits. -/
structure NoOverflow
    (dev : Device)
    (num_bytes : Nat)
    (items : List DevItem) : Prop where
  start : dev.searchStart + num_bytes < 2 ^ 64
  extents : ∀ x ∈ items, IsExtent dev.devid x →
    extentEnd x + num_bytes < 2 ^ 64

/- The range on the device is free to be used. -/
structure Free
    (dev : Device)
    (num_bytes : Nat)
    (items : List DevItem)
    (start : Nat) : Prop where
  above : dev.searchStart ≤ start
  below : start + num_bytes ≤ dev.total_bytes
  apart : ∀ x ∈ items, IsExtent dev.devid x → ∀ b,
    start ≤ b → b < start + num_bytes →
      ¬ (x.1.offset ≤ b ∧ b < extentEnd x)

/- No failed `BUG_ON`, and with 0 a range that is free. -/
def SoundFound
    (dev : Device)
    (num_bytes : Nat)
    (items : List DevItem) : Found → Prop
  | .error _ => False
  | .ok (ret, start) =>
      ret = 0 → Free dev num_bytes items start

----------
-- What the Loop Keeps
----------

variable {d : DevRoot N}
variable {dev : Device}
variable {num_bytes start : Nat}
variable {items done rest : List DevItem}

/- The items before the path, as the variables tell of them. -/
structure Passed
    (dev : Device)
    (num_bytes : Nat)
    (done : List DevItem)
    (s : FindState N) : Prop where
  zero : s.start_found = false → s.last_byte = 0
  some : s.start_found = true →
    ∃ x ∈ done, IsExtent dev.devid x
  ends : ∀ x ∈ done, IsExtent dev.devid x →
    extentEnd x ≤ max s.last_byte dev.searchStart
  bound : max s.last_byte dev.searchStart + num_bytes < 2 ^ 64

theorem checkPending_sound
    {place : Nat}
    (hAbove : dev.searchStart ≤ place)
    (hBound : place + num_bytes < 2 ^ 64)
    (hApart : ∀ x ∈ items, IsExtent dev.devid x →
      extentEnd x ≤ place ∨
        place + num_bytes ≤ x.1.offset) :
    SoundFound dev num_bytes items
      (checkPending dev num_bytes place) := by
  unfold checkPending
  rw [if_neg (Nat.not_lt.mpr hAbove), Nat.mod_eq_of_lt hBound]
  by_cases hFull : dev.total_bytes < place + num_bytes
  · rw [if_pos hFull]
    intro hRet
    exact absurd hRet (by decide)
  · rw [if_neg hFull]
    intro _
    refine ⟨hAbove, Nat.le_of_not_lt hFull, ?_⟩
    intro x hx hExtent b hFrom hTo hIn
    rcases hApart x hx hExtent with hEnds | hStarts
    · omega
    · omega

variable {s : FindState N}

/- No extent of the device follows. -/
theorem Passed.noMore
    (hPassed : Passed dev num_bytes done s)
    (hRest : ∀ x ∈ rest, ¬ IsExtent dev.devid x) :
    SoundFound dev num_bytes (done ++ rest)
      (noMoreItems dev num_bytes start s) := by
  have hApart : ∀ x ∈ done ++ rest, IsExtent dev.devid x →
      extentEnd x ≤ max s.last_byte dev.searchStart := by
    intro x hx hExtent
    rcases List.mem_append.mp hx with hx | hx
    · exact hPassed.ends x hx hExtent
    · exact absurd hExtent (hRest x hx)
  have hBound := hPassed.bound
  unfold noMoreItems
  cases hFound : s.start_found with
  | false =>
      have hZero := hPassed.zero hFound
      rw [hZero, Nat.zero_max] at hApart hBound
      simp only [Bool.not_false, if_true]
      by_cases hFull : dev.total_bytes ≤ dev.searchStart
      · rw [if_pos hFull]
        intro hRet
        exact absurd hRet (by decide)
      · rw [if_neg hFull]
        exact checkPending_sound (Nat.le_refl _) hBound
          fun x hx hExtent => Or.inl (hApart x hx hExtent)
  | true =>
      have hPlace : (if dev.searchStart < s.last_byte then
          s.last_byte else dev.searchStart) =
          max s.last_byte dev.searchStart := by
        by_cases hLess : dev.searchStart < s.last_byte
        · rw [if_pos hLess, Nat.max_eq_left hLess.le]
        · rw [if_neg hLess,
            Nat.max_eq_right (Nat.le_of_not_lt hLess)]
      simp only [Bool.not_true, Bool.false_eq_true, if_false,
        hPlace]
      by_cases hFull :
          dev.total_bytes ≤ max s.last_byte dev.searchStart
      · rw [if_pos hFull]
        intro hRet
        exact absurd hRet (by decide)
      · rw [if_neg hFull]
        exact checkPending_sound (Nat.le_max_right _ _) hBound
          fun x hx hExtent => Or.inl (hApart x hx hExtent)

/- What is ahead in the order of the keys. -/
structure Ordered
    (items : List DevItem) : Prop where
  sorted : items.Pairwise fun x y => x.1 < y.1
  disjoint : Disjoint items

theorem Ordered.ends
    {x y : DevItem}
    (hOrdered : Ordered (done ++ x :: rest))
    (hy : y ∈ done)
    (hDone : IsExtent dev.devid y)
    (hExtent : IsExtent dev.devid x) :
    extentEnd y ≤ x.1.offset := by
  have hSorted := (List.pairwise_append.mp hOrdered.sorted).2.2
    y hy x List.mem_cons_self
  have hApart := (List.pairwise_append.mp
    hOrdered.disjoint).2.2 y hy x List.mem_cons_self dev.devid
    hDone hExtent
  rcases hApart with hEnds | hBack
  · exact hEnds
  · have hLess := Key.lt_iff.mp hSorted
    rw [hDone.1, hDone.2, hExtent.1, hExtent.2] at hLess
    have hOffset : y.1.offset < x.1.offset := by omega
    unfold extentEnd at hBack ⊢
    omega

/-
  Behind an extent of the device an item of the device with
  another type has no extents of the device after it.
-/
theorem Ordered.starts
    {x y : DevItem}
    (hOrdered : Ordered (done ++ x :: rest))
    (hSome : ∃ z ∈ done, IsExtent dev.devid z)
    (hIs : x.1.objectid = dev.devid)
    (hy : y ∈ x :: rest)
    (hExtent : IsExtent dev.devid y) :
    x.1.offset ≤ y.1.offset := by
  rcases hSome with ⟨z, hz, hOld⟩
  rcases List.mem_cons.mp hy with rfl | hy
  · exact Nat.le_refl _
  have hParts := List.pairwise_append.mp hOrdered.sorted
  have hBefore := Key.lt_iff.mp
    (hParts.2.2 z hz x List.mem_cons_self)
  have hBehind := Key.lt_iff.mp
    ((List.pairwise_cons.mp hParts.2.1).1 y hy)
  rw [hOld.1, hOld.2, hIs] at hBefore
  rw [hIs, hExtent.1, hExtent.2] at hBehind
  omega

variable {x : DevItem}

/- An item that is not one of the device changes nothing. -/
theorem Passed.skip
    {last_byte : Nat}
    (hPassed : Passed dev num_bytes done s)
    (path : BtrfsPath N)
    (hOther : ¬ IsExtent dev.devid x)
    (hLast : last_byte = s.last_byte ∨
      s.start_found = true ∧
        last_byte = max s.last_byte dev.searchStart) :
    Passed dev num_bytes (done ++ [x])
      ⟨path, s.start_found, last_byte⟩ := by
  have hMax : max last_byte dev.searchStart =
      max s.last_byte dev.searchStart := by
    rcases hLast with hSame | ⟨_, hMore⟩
    · rw [hSame]
    · rw [hMore]
      omega
  constructor
  · intro hOff
    rcases hLast with hSame | ⟨hOn, _⟩
    · rw [hSame]
      exact hPassed.zero hOff
    · rw [hOn] at hOff
      cases hOff
  · intro hOn
    rcases hPassed.some hOn with ⟨z, hz, hExtent⟩
    exact ⟨z, List.mem_append_left _ hz, hExtent⟩
  · intro y hy hExtent
    dsimp only
    rw [hMax]
    rcases List.mem_append.mp hy with hy | hy
    · exact hPassed.ends y hy hExtent
    · rw [List.mem_singleton.mp hy] at hExtent
      exact absurd hExtent hOther
  · dsimp only
    rw [hMax]
    exact hPassed.bound

/- An extent of the device is where `last_byte` is from. -/
theorem Passed.extent
    (hOver : NoOverflow dev num_bytes (done ++ x :: rest))
    (hOrdered : Ordered (done ++ x :: rest))
    (path : BtrfsPath N)
    (hExtent : IsExtent dev.devid x) :
    Passed dev num_bytes (done ++ [x])
      (⟨path, true, extentEnd x % 2 ^ 64⟩ : FindState N) := by
  have hBound := hOver.extents x (by simp) hExtent
  have hMod : extentEnd x % 2 ^ 64 = extentEnd x :=
    Nat.mod_eq_of_lt (by omega)
  constructor
  · intro hOff
    cases hOff
  · intro _
    exact ⟨x, by simp, hExtent⟩
  · intro y hy hThere
    dsimp only
    rw [hMod]
    rcases List.mem_append.mp hy with hy | hy
    · have hEnds := hOrdered.ends hy hThere hExtent
      unfold extentEnd at hEnds ⊢
      omega
    · rw [List.mem_singleton.mp hy]
      exact Nat.le_max_left _ _
  · dsimp only
    have hStart := hOver.start
    rw [hMod]
    omega

----------
-- Turns of the Loop
----------

/- With the next device no extents of this one follow. -/
theorem Ordered.behind
    (hOrdered : Ordered (done ++ x :: rest))
    (hNext : dev.devid < x.1.objectid) :
    ∀ y ∈ x :: rest, ¬ IsExtent dev.devid y := by
  intro y hy hExtent
  have hIs := hExtent.1
  rcases List.mem_cons.mp hy with rfl | hy
  · omega
  · have hSorted := (List.pairwise_append.mp
      hOrdered.sorted).2.1
    have hLess := Key.lt_iff.mp
      ((List.pairwise_cons.mp hSorted).1 y hy)
    omega

/- The hole before an item of the device. -/
theorem Passed.hole
    (hPassed : Passed dev num_bytes done s)
    (hOrdered : Ordered (done ++ x :: rest))
    (hIs : x.1.objectid = dev.devid)
    (hFound : s.start_found = true)
    (hRoom : max s.last_byte dev.searchStart + num_bytes ≤
      x.1.offset) :
    SoundFound dev num_bytes (done ++ x :: rest)
      (checkPending dev num_bytes
        (max s.last_byte dev.searchStart)) := by
  apply checkPending_sound (Nat.le_max_right _ _) hPassed.bound
  intro y hy hExtent
  rcases List.mem_append.mp hy with hy | hy
  · exact Or.inl (hPassed.ends y hy hExtent)
  · have hStarts := hOrdered.starts (hPassed.some hFound) hIs
      hy hExtent
    exact Or.inr (hRoom.trans hStarts)

/- What a turn does: on to the next item, or a result. -/
def Turned
    (dev : Device)
    (num_bytes : Nat)
    (items done : List DevItem)
    (path : BtrfsPath N) : FindState N ⊕ Found → Prop
  | .inl s => s.path = path ∧ Passed dev num_bytes done s
  | .inr w => SoundFound dev num_bytes items w

theorem Passed.turn
    (hPassed : Passed dev num_bytes done s)
    (hOrdered : Ordered (done ++ x :: rest))
    (hOver : NoOverflow dev num_bytes (done ++ x :: rest))
    (path : BtrfsPath N) :
    Turned dev num_bytes (done ++ x :: rest) (done ++ [x])
      path.advance
      (findItem dev num_bytes start s path x) := by
  unfold findItem
  by_cases hBefore : x.1.objectid < dev.devid
  · rw [if_pos hBefore]
    exact ⟨rfl, hPassed.skip path.advance
      (fun hExtent => (Nat.ne_of_lt hBefore) hExtent.1)
      (Or.inl rfl)⟩
  rw [if_neg hBefore]
  by_cases hNext : dev.devid < x.1.objectid
  · rw [if_pos hNext]
    exact hPassed.noMore (hOrdered.behind hNext)
  rw [if_neg hNext]
  have hIs : x.1.objectid = dev.devid := by omega
  dsimp only
  by_cases hGap : dev.searchStart ≤ x.1.offset ∧
      s.last_byte < x.1.offset ∧ s.start_found = true
  · have hLast : (if (dev.searchStart ≤ x.1.offset ∧
          s.last_byte < x.1.offset ∧ s.start_found = true) ∧
          s.last_byte < dev.searchStart then dev.searchStart
        else s.last_byte) =
        max s.last_byte dev.searchStart := by
      by_cases hLess : s.last_byte < dev.searchStart
      · rw [if_pos ⟨hGap, hLess⟩, Nat.max_eq_right hLess.le]
      · rw [if_neg (fun h => hLess h.2),
          Nat.max_eq_left (Nat.le_of_not_lt hLess)]
    rw [hLast]
    by_cases hRoom :
        max s.last_byte dev.searchStart < x.1.offset ∧
          num_bytes ≤
            x.1.offset - max s.last_byte dev.searchStart
    · rw [if_pos ⟨hGap, hRoom⟩]
      exact hPassed.hole hOrdered hIs hGap.2.2 (by omega)
    · rw [if_neg (fun h => hRoom h.2)]
      by_cases hType : x.1.type = DEV_EXTENT_KEY
      · rw [if_neg (not_not_intro hType)]
        exact ⟨rfl, Passed.extent hOver hOrdered _
          ⟨hIs, hType⟩⟩
      · rw [if_pos hType]
        exact ⟨rfl, hPassed.skip _ (fun h => hType h.2)
          (Or.inr ⟨hGap.2.2, rfl⟩)⟩
  · have hLast : (if (dev.searchStart ≤ x.1.offset ∧
          s.last_byte < x.1.offset ∧ s.start_found = true) ∧
          s.last_byte < dev.searchStart then dev.searchStart
        else s.last_byte) = s.last_byte :=
      if_neg fun h => hGap h.1
    rw [hLast, if_neg (fun h => hGap h.1)]
    by_cases hType : x.1.type = DEV_EXTENT_KEY
    · rw [if_neg (not_not_intro hType)]
      exact ⟨rfl, Passed.extent hOver hOrdered _
        ⟨hIs, hType⟩⟩
    · rw [if_pos hType]
      exact ⟨rfl, hPassed.skip _ (fun h => hType h.2)
        (Or.inl rfl)⟩

abbrev DevRoot.Tree
    (d : DevRoot N) : Prop :=
  ItemTree d.slots d.key d.top d.root

/- The loop ends, with a result that is sound. -/
theorem Passed.ends_loop
    (hTree : d.Tree)
    (hOrdered : Ordered d.items)
    (hOver : NoOverflow dev num_bytes d.items)
    (hPassed : Passed dev num_bytes done s)
    (hAt :
      StandsAt d.slots d.item d.top d.root s.path done rest) :
    Loop.Ends (findTurn d dev num_bytes start)
      (SoundFound dev num_bytes d.items) s := by
  have hItems : d.items = done ++ rest := hAt.items
  induction rest generalizing done s with
  | nil =>
      rcases settle_at hTree.top_lt hTree.sound hTree.full hAt
        with ⟨_, hSettle⟩ | ⟨x, rest, _, _, hSome, _⟩
      · refine .done (w := noMoreItems dev num_bytes start s)
          ?_ ?_
        · unfold findTurn
          rw [hSettle]
          rfl
        · rw [hItems]
          exact hPassed.noMore (by simp)
      · cases hSome
  | cons x rest ih =>
      rcases settle_at hTree.top_lt hTree.sound hTree.full hAt
        with ⟨hNone, _⟩ |
          ⟨x', rest', path, leaf, hSome, hSettle, hOn⟩
      · cases hNone
      · cases hSome
        have hTurn : findTurn d dev num_bytes start s =
            findItem dev num_bytes start s path x := by
          unfold findTurn
          rw [hSettle]
          dsimp only
          rw [if_neg (by decide), if_neg (by decide), hOn.here]
          dsimp only
          rw [hOn.item]
        have hAfter : Turned dev num_bytes d.items
            (done ++ [x]) path.advance
            (findTurn d dev num_bytes start s) := by
          rw [hItems] at hOrdered hOver ⊢
          rw [hTurn]
          exact hPassed.turn hOrdered hOver path
        cases hEnd : findTurn d dev num_bytes start s with
        | inr w =>
            rw [hEnd] at hAfter
            exact .done hEnd hAfter
        | inl s' =>
            rw [hEnd] at hAfter
            rcases hAfter with ⟨hPath, hKept⟩
            refine .turn hEnd (ih hKept ?_ ?_)
            · rw [hPath]
              exact hOn.advance
            · rw [hItems, List.append_assoc]
              rfl

----------
-- The Start of the Loop
----------

/- What the loop starts with. -/
theorem Passed.init
    (hOver : NoOverflow dev num_bytes items)
    (hEnds : ∀ x ∈ done, IsExtent dev.devid x →
      extentEnd x ≤ dev.searchStart)
    (path : BtrfsPath N) :
    Passed dev num_bytes done
      (⟨path, false, 0⟩ : FindState N) := by
  have hStart := hOver.start
  constructor
  · intro _
    rfl
  · intro hOn
    cases hOn
  · intro x hx hExtent
    rw [Nat.zero_max]
    exact hEnds x hx hExtent
  · rw [Nat.zero_max]
    exact hStart

/- The key that is searched for. -/
def Device.searchFor
    (dev : Device) : Key :=
  ⟨dev.devid, DEV_EXTENT_KEY, dev.searchStart⟩

/-
  The item that the loop starts at is before the place of the
  search start, and the extents before it end by its offset.
-/
theorem Ordered.before_start
    (hOrdered : Ordered (done ++ x :: rest))
    (hType : x.1.type = DEV_EXTENT_KEY)
    (hBefore : x.1 < dev.searchFor) :
    ∀ y ∈ done, IsExtent dev.devid y →
      extentEnd y ≤ dev.searchStart := by
  intro y hy hExtent
  have hSorted := (List.pairwise_append.mp hOrdered.sorted).2.2
    y hy x List.mem_cons_self
  have hLow := Key.lt_iff.mp hSorted
  have hHigh := Key.lt_iff.mp hBefore
  rw [hExtent.1, hExtent.2, hType] at hLow
  rw [hType] at hHigh
  unfold Device.searchFor at hHigh
  dsimp only at hHigh
  have hIs : x.1.objectid = dev.devid := by omega
  have hEnds := hOrdered.ends hy hExtent ⟨hIs, hType⟩
  omega

/- Where the search and the step back come to. -/
theorem previousItem_passed
    {path : BtrfsPath N}
    {before after : List Key}
    (hTree : d.Tree)
    (hOrdered : Ordered d.items)
    (hOver : NoOverflow dev num_bytes d.items)
    (hAt :
      StandsAt d.slots d.key d.top d.root path before after)
    (hBefore : ∀ k ∈ before, k < dev.searchFor) :
    ∃ fuel ret path',
      previousItem d.slots d.key 0 DEV_EXTENT_KEY fuel path =
          some (.ok (ret, path')) ∧
        0 ≤ ret ∧ ∃ done rest,
          StandsAt d.slots d.item d.top d.root path' done
              rest ∧
            Passed dev num_bytes done ⟨path', false, 0⟩ := by
  have hKey : ∀ leaf i,
      Prod.fst (d.item leaf i) = d.key leaf i :=
    fun _ _ => rfl
  have hEnds : Loop.Ends
      (previousTurn d.slots d.key 0 DEV_EXTENT_KEY)
      (PreviousOfType d.slots d.key DEV_EXTENT_KEY d.top d.root
        before after) path :=
    previousItem_spec hTree hAt
  rcases hEnds with ⟨fuel, result, hRun, hSpec⟩
  cases result with
  | error stop => exact hSpec.elim
  | ok found =>
      rcases found with ⟨ret, path'⟩
      rcases hSpec with
        ⟨hRet, before', leaf, k, passed, hSplit, hOn, hType, _⟩ |
        ⟨hRet, _⟩
      · rcases hOn.stands.of_map hKey with
          ⟨done, rest, hPlace, _, hRest⟩
        rcases List.map_eq_cons_iff.mp hRest with
          ⟨x, rest', hCons, hX, _⟩
        have hLess : x.1 < dev.searchFor := by
          rw [hX]
          apply hBefore
          rw [hSplit]
          exact List.mem_append_right _ List.mem_cons_self
        have hHere := hOrdered
        rw [show d.items = done ++ rest from hPlace.items,
          hCons] at hHere
        refine ⟨fuel, ret, path', hRun, by omega, done, rest,
          hPlace, Passed.init hOver ?_ path'⟩
        rw [← hX] at hType
        exact hHere.before_start hType hLess
      · rw [hRet] at hRun
        rcases previousItem_first hTree hAt hRun with
          ⟨all, hFirst⟩
        rcases hFirst.of_map hKey with
          ⟨done, rest, hPlace, hDone, _⟩
        have hNone := List.map_eq_nil_iff.mp hDone
        refine ⟨fuel, 1, path', hRun, by decide, done, rest,
          hPlace, Passed.init hOver ?_ path'⟩
        rw [hNone]
        intro x hx
        cases hx

----------
-- All of the Function
----------

/-
  It ends, no `BUG_ON` fails, and a range that it returns 0
  for is free, on the device and not before the search start.
-/
theorem findFreeDevExtent_sound
    (hTree : d.Tree)
    (hDisjoint : Disjoint d.items)
    (hOver : NoOverflow dev num_bytes d.items) :
    ∃ enough result,
      SoundFound dev num_bytes d.items result ∧
        ∀ fuel, enough ≤ fuel →
          findFreeDevExtent d dev num_bytes start fuel =
            some result := by
  have hKey : ∀ leaf i,
      Prod.fst (d.item leaf i) = d.key leaf i :=
    fun _ _ => rfl
  have hSame : ∀ leaf i, id (d.key leaf i) = d.key leaf i :=
    fun _ _ => rfl
  have hOrdered : Ordered d.items :=
    ⟨hTree.pairwise hKey, hDisjoint⟩
  unfold findFreeDevExtent
  by_cases hFull : dev.total_bytes ≤ dev.searchStart
  · refine ⟨0, .ok (- ENOSPC, start), ?_, ?_⟩
    · intro hRet
      exact absurd hRet (by decide)
    · intro fuel _
      rw [if_pos hFull]
  rcases searchSlot_at hTree hSame dev.searchFor
      emptyPath_released with
    ⟨before, after, hAt, hBefore, hRet⟩
  unfold Device.searchFor at hAt hBefore hRet
  cases hSearch : searchKey d.slots d.key d.top d.root
      ⟨dev.devid, DEV_EXTENT_KEY, dev.searchStart⟩
      emptyPath with
  | mk ret path =>
      rw [hSearch] at hAt hRet
      dsimp only at hAt hRet
      rcases previousItem_passed hTree hOrdered hOver hAt
          hBefore with
        ⟨back, ret', path', hBack, hRet', done, rest, hPlace,
          hPassed⟩
      have hLoop : Loop.Ends (findTurn d dev num_bytes start)
          (SoundFound dev num_bytes d.items)
          ⟨path', false, 0⟩ :=
        hPassed.ends_loop hTree hOrdered hOver hPlace
      rcases hLoop with ⟨turns, result, hTurns, hSound⟩
      refine ⟨max back turns, result, hSound, ?_⟩
      intro fuel hFuel
      have hBack' : previousItem d.slots d.key 0
          DEV_EXTENT_KEY fuel path = some (.ok (ret', path')) :=
        Loop.run_mono hBack (by omega)
      have hStart : ¬ ret < 0 := by
        rcases hRet with ⟨hZero, _⟩ | ⟨hOne, _⟩
        · omega
        · omega
      rw [if_neg hFull]
      dsimp only
      rw [if_neg hStart, hBack']
      dsimp only
      rw [if_neg (by omega)]
      exact Loop.run_mono hTurns (by omega)

end Find

----------
-- A Tree of Two Devices
----------

/- An extent of one MiB on each of two devices. -/
def twoDevices : DevRoot Unit where
  slots := leafSlots 2
  key := fun _ i => ⟨i + 1, DEV_EXTENT_KEY, 1024 * 1024⟩
  length := fun _ _ => 1024 * 1024
  top := 0
  root := ()

def firstDevice : Device where
  devid := 1
  total_bytes := 1024 * 1024 * 1024
  alloc_start := 0

theorem findFreeDevExtent_sound_two :
    ∃ enough result,
      SoundFound firstDevice 4096 twoDevices.items result ∧
        ∀ fuel, enough ≤ fuel →
          findFreeDevExtent twoDevices firstDevice 4096 0 fuel =
            some result := by
  have hItems : twoDevices.items =
      [(⟨1, DEV_EXTENT_KEY, 1024 * 1024⟩, 1024 * 1024),
        (⟨2, DEV_EXTENT_KEY, 1024 * 1024⟩, 1024 * 1024)] :=
    rfl
  apply findFreeDevExtent_sound
  · apply leafSlots_tree
    intro i j hLess _
    rw [Key.lt_iff]
    exact Or.inl (Nat.succ_lt_succ hLess)
  · rw [hItems]
    refine List.pairwise_pair.mpr ?_
    intro devid hFirst hSecond
    exact absurd (hFirst.1.trans hSecond.1.symm) (by decide)
  · constructor
    · decide
    · rw [hItems]
      intro x hx _
      rcases List.mem_pair.mp hx with rfl | rfl
      · decide
      · decide

end ChunkAlloc

end BtrfsProgs
