import BtrfsProgs.Ctree.ItemSearch
import BtrfsProgs.Lib.Loop

/-
  `check_extent_exists`, from `cmds-check.c`.

  The loop starts at the item before the place of the range,
  or one more before where that is a block group.  An extent
  that reaches into the range from farther back is not seen.

  Main declarations:
    * `ExtentRoot`
    * `checkExtentExists`
    * `existsRest` and `existsRest_iff`
    * `Hidden`
    * `checkExtentExists_exact_iff`
-/

----------
-- The Function
----------

namespace BtrfsProgs

namespace CsumCheck

open Trail Ctree

/- `BTRFS_EXTENT_ITEM_KEY`. -/
def EXTENT_ITEM_KEY : Nat := 168

/- `BTRFS_BLOCK_GROUP_ITEM_KEY`. -/
def BLOCK_GROUP_ITEM_KEY : Nat := 192

/- The extent root, as it is read. -/
structure ExtentRoot (N : Type) where
  slots : Slots N
  key : N → Nat → Key
  top : Nat
  root : N

section Exists

variable {N : Type}

/- To the item before; that there is none is not looked at. -/
def stepBack
    (T : Slots N)
    (path : BtrfsPath N) : Except Stop (BtrfsPath N) :=
  if path.slots 0 ≠ 0 then
    .ok (path.setSlot 0 (path.slots 0 - 1))
  else
    match prevLeaf T path with
    | .ok (_, path) => .ok path
    | .error stop => .error stop

/- From a path to the place before the loop. -/
def existsBack
    (c : ExtentRoot N)
    (path : BtrfsPath N) : Except Stop (BtrfsPath N) :=
  match path.nodes 0 with
  | none => .error .bug
  | some leaf =>
      if (c.key leaf (path.slots 0)).type =
          BLOCK_GROUP_ITEM_KEY then
        stepBack c.slots path
      else
        .ok path

/- What is done at the label `again`. -/
def existsStart
    (c : ExtentRoot N)
    (key : Key)
    (path : BtrfsPath N) : Except Int (BtrfsPath N) :=
  let (ret, path) := searchKey c.slots c.key c.top c.root key
    path
  if ret < 0 then .error ret
  else
    let moved :=
      if ret ≠ 0 then stepBack c.slots path else .ok path
    match moved with
    | .error _ => .error (-5)
    | .ok path =>
        match existsBack c path with
        | .error _ => .error (-5)
        | .ok path => .ok path

/- The variables of the loop. -/
structure ExistsState (N : Type) where
  path : BtrfsPath N
  bytenr : Nat
  num_bytes : Nat

/- The sum of two `u64`. -/
def sum
    (a b : Nat) : Nat :=
  (a + b) % 2 ^ 64

/- What is returned behind the loop. -/
def existsRet
    (num_bytes : Nat) : Int :=
  if num_bytes = 0 then 0 else 1

/-
  A turn at an item.  The call for the right part of the range
  may not have come to an end.
-/
def existsItem
    (c : ExtentRoot N)
    (call : Nat → Nat → Option Int)
    (s : ExistsState N)
    (path : BtrfsPath N)
    (key : Key) : ExistsState N ⊕ Option Int :=
  let stop := sum s.bytenr s.num_bytes
  let key_stop := sum key.objectid key.offset
  if key.type ≠ EXTENT_ITEM_KEY then
    .inl ⟨path.advance, s.bytenr, s.num_bytes⟩
  else if key_stop < s.bytenr then
    .inl ⟨path.advance, s.bytenr, s.num_bytes⟩
  else if stop < key.objectid then
    .inr (some (existsRet s.num_bytes))
  else if key.objectid = s.bytenr then
    if s.num_bytes ≤ key.offset then .inr (some (existsRet 0))
    else
      .inl ⟨path.advance, sum s.bytenr key.offset,
        s.num_bytes - key.offset⟩
  else if key.objectid < s.bytenr then
    if stop ≤ key_stop then .inr (some (existsRet 0))
    else .inl ⟨path.advance, key_stop, stop - key_stop⟩
  else if key_stop < stop then
    -- the extent is in the middle of the range
    match call key_stop (stop - key_stop) with
    | none => .inr none
    | some ret =>
        if ret ≠ 0 then .inr (some (existsRet s.num_bytes))
        else
          match existsStart c key emptyPath with
          | .error ret => .inr (some ret)
          | .ok path =>
              .inl ⟨path, s.bytenr, key.objectid - s.bytenr⟩
  else
    .inl ⟨path.advance, s.bytenr, key.objectid - s.bytenr⟩

def existsTurn
    (c : ExtentRoot N)
    (call : Nat → Nat → Option Int)
    (s : ExistsState N) : ExistsState N ⊕ Option Int :=
  if s.num_bytes = 0 then .inr (some (existsRet 0))
  else
    let (ret, path) := settle c.slots s.path
    if ret < 0 then .inr (some ret)
    else if 0 < ret then .inr (some (existsRet s.num_bytes))
    else
      match path.nodes 0 with
      | none => .inr (some (-5))
      | some leaf =>
          existsItem c call s path (c.key leaf (path.slots 0))

/-
  `check_extent_exists`, for some turns and calls; `none` is a
  run that has not come to its end.
-/
def checkExtentExists
    (c : ExtentRoot N) : Nat → Nat → Nat → Option Int
  | 0, _, _ => none
  | fuel + 1, bytenr, num_bytes =>
      match
        existsStart c ⟨bytenr, EXTENT_ITEM_KEY, 0⟩ emptyPath
      with
      | .error ret => some ret
      | .ok path =>
          (Loop.run (existsTurn c (checkExtentExists c fuel))
            fuel ⟨path, bytenr, num_bytes⟩).join

----------
-- The Loop over Keys
----------

/-
  What is left of the range after the keys from a place on.
  `again` comes back to the extent that it left.
-/
def existsRest
    (call : Nat → Nat → Option Int) :
    List Key → Nat → Nat → Option Nat
  | [], _, num_bytes => some num_bytes
  | key :: rest, bytenr, num_bytes =>
      let stop := bytenr + num_bytes
      let key_stop := key.objectid + key.offset
      if num_bytes = 0 then some 0
      else if key.type ≠ EXTENT_ITEM_KEY then
        existsRest call rest bytenr num_bytes
      else if key_stop < bytenr then
        existsRest call rest bytenr num_bytes
      else if stop < key.objectid then some num_bytes
      else if key.objectid ≤ bytenr then
        if stop ≤ key_stop then some 0
        else existsRest call rest key_stop (stop - key_stop)
      else if key_stop < stop then
        match call key_stop (stop - key_stop) with
        | none => none
        | some ret =>
            if ret ≠ 0 then some num_bytes
            else
              existsRest call rest bytenr
                (key.objectid - bytenr)
      else
        existsRest call rest bytenr (key.objectid - bytenr)

----------
-- Steps
----------

variable {c : ExtentRoot N}
variable {path : BtrfsPath N}
variable {before after rest : List Key}
variable {key : Key}

/- The tree is one of keys that go up. -/
abbrev ExtentRoot.Tree
    (c : ExtentRoot N) : Prop :=
  ItemTree c.slots c.key c.top c.root

abbrev ExtentRoot.At
    (c : ExtentRoot N)
    (path : BtrfsPath N)
    (before after : List Key) : Prop :=
  StandsAt c.slots c.key c.top c.root path before after

abbrev ExtentRoot.On
    (c : ExtentRoot N)
    (path : BtrfsPath N)
    (before : List Key)
    (leaf : N)
    (key : Key)
    (after : List Key) : Prop :=
  StandsOn c.slots c.key c.top c.root path before leaf key after

/- All keys, and those below one. -/
def ExtentRoot.keys
    (c : ExtentRoot N) : List Key :=
  allItems c.slots c.key c.top c.root

def ExtentRoot.below
    (c : ExtentRoot N)
    (key : Key) : List Key :=
  c.keys.filter fun k => k < key

/-
  What a search for a key that is not there leaves out: all
  keys below it but the last one, or but the last two.
-/
def backOver
    (below : List Key) : List Key :=
  match below.getLast? with
  | none => []
  | some last =>
      if last.type = BLOCK_GROUP_ITEM_KEY then
        below.dropLast.dropLast
      else
        below.dropLast

theorem ExtentRoot.Tree.sorted
    (hTree : c.Tree) :
    c.keys.Pairwise fun a b => a < b :=
  ItemTree.pairwise hTree
    fun _ _ => rfl

theorem below_eq
    (hItems : c.keys = before ++ after)
    (hBefore : ∀ k ∈ before, k < key)
    (hAfter : ∀ k ∈ after, key ≤ k) :
    c.below key = before := by
  unfold ExtentRoot.below
  rw [hItems, List.filter_append, List.filter_eq_self.mpr,
    List.filter_eq_nil_iff.mpr, List.append_nil]
  · intro k hK
    simpa using hAfter k hK
  · intro k hK
    simpa using hBefore k hK

theorem below_of_split
    (hTree : c.Tree)
    (hItems : c.keys = before ++ key :: rest) :
    c.below key = before := by
  have hSorted := hTree.sorted
  rw [hItems] at hSorted
  have hParts := List.pairwise_append.mp hSorted
  refine below_eq hItems ?_ ?_
  · exact fun k hK => hParts.2.2 k hK key List.mem_cons_self
  · intro k hK
    rcases List.mem_cons.mp hK with rfl | hK
    · exact le_refl k
    · exact ((List.pairwise_cons.mp hParts.2.1).1 k hK).le

/- One step back, if there is an item before. -/
theorem stepBack_at
    (hTree : c.Tree)
    (hAt : c.At path before after) :
    before = [] ∧ stepBack c.slots path = .ok path ∨
      ∃ before' k path' leaf,
        before = before' ++ [k] ∧
          stepBack c.slots path = .ok path' ∧
          c.On path' before' leaf k after := by
  unfold stepBack
  by_cases hSlot : path.slots 0 = 0
  · rw [if_neg (not_not_intro hSlot)]
    rcases prevLeaf_at hTree.top_lt hTree.sound hTree.full hAt
        hSlot with ⟨hNone, hPrev⟩ |
      ⟨before', k, path', leaf, hSome, hPrev, hOn⟩
    · rw [hPrev]
      exact .inl ⟨hNone, rfl⟩
    · rw [hPrev]
      exact .inr ⟨before', k, path', leaf, hSome, rfl, hOn⟩
  · rw [if_pos hSlot]
    right
    obtain ⟨before', leaf, hHere, hIn, hBefore, hBack⟩ :=
      hAt.back hSlot
    refine ⟨before', _, _, leaf, hBefore, rfl, hBack, hHere,
      ?_, ?_⟩
    · rw [setSlot_slot]
      exact hIn
    · rw [setSlot_slot]

/- Before a first item there is no step back. -/
theorem existsBack_first
    (hTree : c.Tree)
    (hAt : c.At path [] after) :
    existsBack c path = .ok path := by
  obtain ⟨leaf, hHere, -⟩ := hAt.place
  unfold existsBack
  rw [hHere]
  dsimp only
  rcases stepBack_at hTree hAt with ⟨-, hStay⟩ |
    ⟨before', k, path', leaf', hSome, -⟩
  · rw [hStay, ite_self]
  · simp at hSome

theorem existsBack_on
    {leaf : N}
    (hOn : c.On path before leaf key after) :
    existsBack c path =
      if key.type = BLOCK_GROUP_ITEM_KEY then
        stepBack c.slots path
      else
        .ok path := by
  unfold existsBack
  rw [hOn.here]
  dsimp only
  rw [hOn.item]

/- Where the loop starts. -/
theorem existsStart_at
    (hTree : c.Tree)
    (key : Key)
    (hType : key.type ≠ BLOCK_GROUP_ITEM_KEY) :
    ∃ path before after,
      existsStart c key emptyPath = .ok path ∧
        c.At path before after ∧
        (key ∈ c.keys ∧ before = c.below key ∨
          key ∉ c.keys ∧ before = backOver (c.below key)) := by
  have hKey : ∀ leaf i, id (c.key leaf i) = c.key leaf i :=
    fun _ _ => rfl
  obtain ⟨below, above, hAt, hBelow, hAbove⟩ :=
    searchSlot_at hTree hKey key emptyPath_released
  have hItems : c.keys = below ++ above := hAt.items
  unfold existsStart
  rcases hSearch : searchKey c.slots c.key c.top c.root key
    emptyPath with ⟨ret, path⟩
  rw [hSearch] at hAt hAbove
  dsimp only at hAt hAbove ⊢
  rcases hAbove with
    ⟨rfl, leaf, x, rest, rfl, hKey, hMore, hOn⟩ |
    ⟨rfl, hMore⟩
  · -- the key is there
    rw [id] at hKey
    subst hKey
    refine ⟨path, below, x :: rest, ?_, hAt, .inl ⟨?_, ?_⟩⟩
    · rw [if_neg (by decide), if_neg (by decide)]
      dsimp only
      rw [existsBack_on hOn, if_neg hType]
    · rw [hItems]
      exact List.mem_append_right _ List.mem_cons_self
    · exact (below_of_split hTree hItems).symm
  have hBelowEq : c.below key = below :=
    below_eq hItems hBelow fun k hK => (hMore k hK).le
  have hMissing : key ∉ c.keys := by
    rw [hItems, List.mem_append]
    rintro (hK | hK)
    · exact lt_irrefl key (hBelow key hK)
    · exact lt_irrefl key (hMore key hK)
  rw [if_neg (by decide), if_pos (by decide), hBelowEq]
  rcases stepBack_at hTree hAt with ⟨rfl, hStay⟩ |
    ⟨before, k, path', leaf, rfl, hBack, hOn⟩
  · refine ⟨path, [], above, ?_, hAt, .inr ⟨hMissing, rfl⟩⟩
    rw [hStay]
    dsimp only
    rw [existsBack_first hTree hAt]
  · rw [hBack]
    dsimp only
    rw [existsBack_on hOn]
    by_cases hGroup : k.type = BLOCK_GROUP_ITEM_KEY
    · have hOver : backOver (before ++ [k]) =
          before.dropLast := by
        unfold backOver
        rw [List.getLast?_concat]
        dsimp only
        rw [if_pos hGroup, List.dropLast_concat]
      rw [if_pos hGroup, hOver]
      rcases stepBack_at hTree hOn.stands with ⟨rfl, hStay⟩ |
        ⟨before', k', path'', leaf', rfl, hBack', hOn'⟩
      · rw [hStay]
        exact ⟨path', [], _, rfl, hOn.stands,
          .inr ⟨hMissing, rfl⟩⟩
      · rw [hBack', List.dropLast_concat]
        exact ⟨path'', before', _, rfl, hOn'.stands,
          .inr ⟨hMissing, rfl⟩⟩
    · have hOver : backOver (before ++ [k]) = before := by
        unfold backOver
        rw [List.getLast?_concat]
        dsimp only
        rw [if_neg hGroup, List.dropLast_concat]
      rw [if_neg hGroup, hOver]
      exact ⟨path', before, _, rfl, hOn.stands,
        .inr ⟨hMissing, rfl⟩⟩

/- `again` comes back to an extent that is there. -/
theorem existsStart_again
    (hTree : c.Tree)
    (hType : key.type = EXTENT_ITEM_KEY)
    (hItems : c.keys = before ++ key :: rest) :
    ∃ path,
      existsStart c key emptyPath = .ok path ∧
        c.At path before (key :: rest) := by
  obtain ⟨path, before', after', hStart, hAt, hPlace⟩ :=
    existsStart_at hTree key (by
      rw [hType]
      decide)
  have hThere : key ∈ c.keys := by
    rw [hItems]
    exact List.mem_append_right _ List.mem_cons_self
  rcases hPlace with ⟨-, hBefore⟩ | ⟨hMissing, -⟩
  · rw [below_of_split hTree hItems] at hBefore
    subst hBefore
    have hSplit : c.keys = before' ++ after' := hAt.items
    rw [hItems] at hSplit
    rw [← List.append_cancel_left hSplit] at hAt
    exact ⟨path, hStart, hAt⟩
  · exact absurd hThere hMissing

----------
-- The Loop
----------

/- The byte behind an extent. -/
def extentStop
    (key : Key) : Nat :=
  key.objectid + key.offset

/- No extent wraps round. -/
def ExtentRoot.Bounded
    (keys : List Key) : Prop :=
  ∀ k ∈ keys, k.type = EXTENT_ITEM_KEY → extentStop k < 2 ^ 64

theorem existsTurn_at
    (hTree : c.Tree)
    {s : ExistsState N}
    (call : Nat → Nat → Option Int)
    (hAt : c.At s.path before after)
    (hLeft : s.num_bytes ≠ 0) :
    after = [] ∧
        existsTurn c call s =
          .inr (some (existsRet s.num_bytes)) ∨
      ∃ k rest path leaf,
        after = k :: rest ∧
          c.On path before leaf k rest ∧
          existsTurn c call s = existsItem c call s path k := by
  unfold existsTurn
  rw [if_neg hLeft]
  rcases settle_at hTree.top_lt hTree.sound hTree.full hAt with
    ⟨hEnd, hSettle⟩ |
    ⟨k, rest, path, leaf, hNext, hSettle, hOn⟩
  · left
    rw [hSettle]
    exact ⟨hEnd, rfl⟩
  · right
    refine ⟨k, rest, path, leaf, hNext, hOn, ?_⟩
    rw [hSettle]
    dsimp only
    rw [if_neg (by decide), if_neg (by decide), hOn.here]
    dsimp only
    rw [hOn.item]

/- An extent behind the rest of the range is passed. -/
theorem existsItem_behind
    {s : ExistsState N}
    (call : Nat → Nat → Option Int)
    (path : BtrfsPath N)
    (hType : key.type = EXTENT_ITEM_KEY)
    (hKey : extentStop key < 2 ^ 64)
    (hMore : s.bytenr < key.objectid)
    (hStop : s.bytenr + s.num_bytes = key.objectid) :
    existsItem c call s path key =
      .inl ⟨path.advance, s.bytenr,
        key.objectid - s.bytenr⟩ := by
  have hKeySum : sum key.objectid key.offset =
      key.objectid + key.offset := Nat.mod_eq_of_lt hKey
  have hSum : sum s.bytenr s.num_bytes = key.objectid := by
    unfold sum
    unfold extentStop at hKey
    rw [hStop]
    exact Nat.mod_eq_of_lt (by omega)
  unfold existsItem
  dsimp only
  rw [hKeySum, hSum, if_neg (not_not_intro hType),
    if_neg (by omega), if_neg (by omega), if_neg (by omega),
    if_neg (by omega), if_neg (by omega)]

theorem run_succ
    {α ω : Type}
    (body : α → α ⊕ ω)
    (fuel : Nat)
    (a : α) :
    Loop.run body (fuel + 1) a =
      match body a with
      | .inl b => Loop.run body fuel b
      | .inr w => some w :=
  rfl

/-
  The loop does what the loop over the keys does; each key
  takes two turns at most.
-/
theorem existsLoop_eq
    (hTree : c.Tree)
    (call : Nat → Nat → Option Int)
    (hBounded : ExtentRoot.Bounded after)
    (hItems : c.keys = before ++ after)
    (hAt : c.At path before after)
    {bytenr num_bytes fuel : Nat}
    (hStop : bytenr + num_bytes < 2 ^ 64)
    (hFuel : 2 * after.length + 1 ≤ fuel) :
    (Loop.run (existsTurn c call) fuel
        ⟨path, bytenr, num_bytes⟩).join =
      (existsRest call after bytenr num_bytes).map
        existsRet := by
  induction after generalizing path before bytenr num_bytes fuel
    with
  | nil =>
      obtain ⟨fuel, rfl⟩ : ∃ f, fuel = f + 1 :=
        ⟨fuel - 1, by omega⟩
      rw [run_succ]
      by_cases hLeft : num_bytes = 0
      · unfold existsTurn
        rw [if_pos hLeft, hLeft]
        rfl
      · rcases existsTurn_at
            (s := ⟨path, bytenr, num_bytes⟩) hTree call hAt
            hLeft with ⟨-, hTurn⟩ | ⟨k, rest, _, _, h, -⟩
        · rw [hTurn]
          rfl
        · cases h
  | cons key rest ih =>
      obtain ⟨fuel, rfl⟩ : ∃ f, fuel = f + 1 + 1 :=
        ⟨fuel - 2, by rw [List.length_cons] at hFuel; omega⟩
      rw [List.length_cons] at hFuel
      have hNext : ∀ {path : BtrfsPath N} {b n f : Nat},
          c.At path (before ++ [key]) rest →
          b + n < 2 ^ 64 → 2 * rest.length + 1 ≤ f →
          (Loop.run (existsTurn c call) f ⟨path, b, n⟩).join =
            (existsRest call rest b n).map existsRet :=
        fun hThere hSum hMore => ih
          (fun k hK => hBounded k (List.mem_cons_of_mem _ hK))
          (by rw [hItems]; simp) hThere hSum hMore
      rw [run_succ]
      by_cases hLeft : num_bytes = 0
      · unfold existsTurn
        rw [if_pos hLeft, hLeft]
        unfold existsRest
        rw [if_pos rfl]
        rfl
      rcases existsTurn_at (s := ⟨path, bytenr, num_bytes⟩)
          hTree call hAt hLeft with ⟨h, -⟩ |
        ⟨k, rest', path', leaf, hCons, hOn, hTurn⟩
      · cases h
      obtain ⟨rfl, rfl⟩ := List.cons.inj hCons
      have hThere := hOn.advance
      rw [hTurn]
      unfold existsItem existsRest
      dsimp only
      have hSum : sum bytenr num_bytes = bytenr + num_bytes :=
        Nat.mod_eq_of_lt hStop
      rw [hSum, if_neg hLeft]
      by_cases hType : key.type = EXTENT_ITEM_KEY
      swap
      · rw [if_pos hType, if_pos hType]
        exact hNext hThere hStop (by omega)
      have hKey := hBounded key List.mem_cons_self hType
      have hKeySum : sum key.objectid key.offset =
          key.objectid + key.offset := Nat.mod_eq_of_lt hKey
      unfold extentStop at hKey
      rw [hKeySum, if_neg (not_not_intro hType),
        if_neg (not_not_intro hType)]
      by_cases hPassed : key.objectid + key.offset < bytenr
      · rw [if_pos hPassed, if_pos hPassed]
        exact hNext hThere hStop (by omega)
      rw [if_neg hPassed, if_neg hPassed]
      by_cases hFar : bytenr + num_bytes < key.objectid
      · rw [if_pos hFar, if_pos hFar]
        rfl
      rw [if_neg hFar, if_neg hFar]
      by_cases hSame : key.objectid = bytenr
      · have hLe : key.objectid ≤ bytenr := hSame.le
        rw [if_pos hSame, if_pos hLe]
        by_cases hWhole : num_bytes ≤ key.offset
        · rw [if_pos hWhole, if_pos (by omega)]
          rfl
        · have hMoved : sum bytenr key.offset =
              key.objectid + key.offset := by
            rw [← hSame]
            exact hKeySum
          have hRest : num_bytes - key.offset =
              bytenr + num_bytes -
                (key.objectid + key.offset) := by omega
          rw [if_neg hWhole, if_neg (by omega), hMoved, hRest]
          exact hNext hThere (by omega) (by omega)
      rw [if_neg hSame]
      by_cases hLess : key.objectid < bytenr
      · rw [if_pos hLess, if_pos hLess.le]
        by_cases hWhole : bytenr + num_bytes ≤
            key.objectid + key.offset
        · rw [if_pos hWhole, if_pos hWhole]
          rfl
        · rw [if_neg hWhole, if_neg hWhole]
          exact hNext hThere (by omega) (by omega)
      have hNotLe : ¬ key.objectid ≤ bytenr := by omega
      rw [if_neg hLess, if_neg hNotLe]
      by_cases hMiddle : key.objectid + key.offset <
          bytenr + num_bytes
      swap
      · rw [if_neg hMiddle, if_neg hMiddle]
        exact hNext hThere (by omega) (by omega)
      rw [if_pos hMiddle, if_pos hMiddle]
      cases hCall : call (key.objectid + key.offset)
          (bytenr + num_bytes -
            (key.objectid + key.offset)) with
      | none => rfl
      | some ret =>
          dsimp only
          by_cases hRet : ret = 0
          swap
          · rw [if_pos hRet, if_pos hRet]
            rfl
          rw [if_neg (not_not_intro hRet),
            if_neg (not_not_intro hRet)]
          -- back at the extent, which is now behind the range
          obtain ⟨path'', hStart, hAgain⟩ := existsStart_again
            hTree hType hItems
          rw [hStart]
          dsimp only
          rw [run_succ]
          rcases existsTurn_at (s := ⟨path'', bytenr,
              key.objectid - bytenr⟩) hTree call hAgain
              (by dsimp only; omega) with ⟨h, -⟩ |
            ⟨k, rest', path₃, leaf', hCons', hOn', hTurn'⟩
          · cases h
          obtain ⟨rfl, rfl⟩ := List.cons.inj hCons'
          have hBehind : bytenr + (key.objectid - bytenr) =
              key.objectid := by omega
          rw [hTurn', existsItem_behind
            (s := ⟨path'', bytenr, key.objectid - bytenr⟩) call
            path₃ hType hKey (not_le.mp hNotLe) hBehind]
          dsimp only
          exact hNext hOn'.advance (by omega) (by omega)

----------
-- Coverage
----------

/- An extent among the keys covers the byte. -/
def CoveredBy
    (keys : List Key)
    (b : Nat) : Prop :=
  ∃ k ∈ keys, k.type = EXTENT_ITEM_KEY ∧
    k.objectid ≤ b ∧ b < extentStop k

/- Each byte of the range is in an extent. -/
def AllCovered
    (keys : List Key)
    (bytenr num_bytes : Nat) : Prop :=
  ∀ b, bytenr ≤ b → b < bytenr + num_bytes →
    CoveredBy keys b

/- Extents do not overlap. -/
def Apart
    (a b : Key) : Prop :=
  a.type = EXTENT_ITEM_KEY → b.type = EXTENT_ITEM_KEY →
    extentStop a ≤ b.objectid

theorem coveredBy_cons
    {b : Nat} :
    CoveredBy (key :: rest) b ↔
      (key.type = EXTENT_ITEM_KEY ∧ key.objectid ≤ b ∧
        b < extentStop key) ∨ CoveredBy rest b := by
  unfold CoveredBy
  simp only [List.mem_cons, exists_eq_or_imp]

theorem allCovered_zero
    (keys : List Key)
    (bytenr : Nat) :
    AllCovered keys bytenr 0 :=
  fun b hLow hHigh => absurd hHigh (by omega)

variable {bytenr num_bytes : Nat}

/- A key that covers none of the range does not matter. -/
theorem allCovered_skip
    (hSkip : key.type = EXTENT_ITEM_KEY →
      extentStop key ≤ bytenr) :
    AllCovered (key :: rest) bytenr num_bytes ↔
      AllCovered rest bytenr num_bytes := by
  unfold AllCovered
  apply forall_congr'
  intro b
  apply forall_congr'
  intro hLow
  apply forall_congr'
  intro _
  rw [coveredBy_cons]
  refine or_iff_right ?_
  rintro ⟨hType, -, hStop⟩
  have hEnd := hSkip hType
  omega

/- Without the front that an extent covers. -/
theorem allCovered_front
    (hType : key.type = EXTENT_ITEM_KEY)
    (hLow : key.objectid ≤ bytenr)
    (hFront : bytenr ≤ extentStop key)
    (hIn : extentStop key ≤ bytenr + num_bytes) :
    AllCovered (key :: rest) bytenr num_bytes ↔
      AllCovered rest (extentStop key)
        (bytenr + num_bytes - extentStop key) := by
  constructor
  · intro hAll b hB hEnd
    have hHere := coveredBy_cons.mp
      (hAll b (by omega) (by omega))
    rcases hHere with ⟨-, -, hStop⟩ | hRest
    · omega
    · exact hRest
  · intro hAll b hB hEnd
    rw [coveredBy_cons]
    by_cases hStop : b < extentStop key
    · exact .inl ⟨hType, by omega, hStop⟩
    · exact .inr (hAll b (by omega) (by omega))

variable {keys : List Key}

/- The first byte of the range is before all extents. -/
theorem not_allCovered
    (hLeft : num_bytes ≠ 0)
    (hAfter : ∀ k ∈ keys, k.type = EXTENT_ITEM_KEY →
      bytenr < k.objectid ∨ extentStop k ≤ bytenr) :
    ¬ AllCovered keys bytenr num_bytes := by
  intro hAll
  obtain ⟨k, hK, hType, hLow, hStop⟩ :=
    hAll bytenr (Nat.le_refl _) (by omega)
  rcases hAfter k hK hType with hMore | hEnd
  · omega
  · omega

/-
  Nothing is left of the range if and only if the keys from
  the place on cover it; the extents may overlap.
-/
theorem existsRest_iff
    {call : Nat → Nat → Option Int}
    (hSorted :
      keys.Pairwise fun a b => a.objectid ≤ b.objectid)
    (hCall : ∀ b n, n < num_bytes →
      b + n ≤ bytenr + num_bytes → ∃ ret, call b n = some ret) :
    ∃ left,
      existsRest call keys bytenr num_bytes = some left ∧
        (left = 0 ↔ AllCovered keys bytenr num_bytes) := by
  induction keys generalizing bytenr num_bytes with
  | nil =>
      refine ⟨num_bytes, rfl, ?_⟩
      by_cases hLeft : num_bytes = 0
      · rw [hLeft]
        exact iff_of_true rfl (allCovered_zero _ _)
      · exact iff_of_false hLeft
          (not_allCovered hLeft (by simp))
  | cons key rest ih =>
      have hAfter := (List.pairwise_cons.mp hSorted).1
      have hTail := (List.pairwise_cons.mp hSorted).2
      unfold existsRest
      dsimp only
      by_cases hLeft : num_bytes = 0
      · rw [if_pos hLeft, hLeft]
        exact ⟨0, rfl, iff_of_true rfl (allCovered_zero _ _)⟩
      rw [if_neg hLeft]
      by_cases hType : key.type = EXTENT_ITEM_KEY
      swap
      · rw [if_pos hType,
          allCovered_skip fun h => absurd h hType]
        exact ih hTail hCall
      have hStop : extentStop key =
          key.objectid + key.offset := rfl
      rw [if_neg (not_not_intro hType)]
      by_cases hPassed : key.objectid + key.offset < bytenr
      · rw [if_pos hPassed, allCovered_skip fun _ => by omega]
        exact ih hTail hCall
      rw [if_neg hPassed]
      by_cases hFar : bytenr + num_bytes < key.objectid
      · rw [if_pos hFar]
        refine ⟨num_bytes, rfl, iff_of_false hLeft
          (not_allCovered hLeft ?_)⟩
        intro k hK hOther
        rcases List.mem_cons.mp hK with rfl | hK
        · exact .inl (by omega)
        · have hMore := hAfter k hK
          exact .inl (by omega)
      rw [if_neg hFar]
      by_cases hLow : key.objectid ≤ bytenr
      · rw [if_pos hLow]
        by_cases hWhole : bytenr + num_bytes ≤
            key.objectid + key.offset
        · rw [if_pos hWhole]
          refine ⟨0, rfl, iff_of_true rfl ?_⟩
          intro b hB hEnd
          exact ⟨key, List.mem_cons_self, hType, by omega,
            by omega⟩
        · rw [if_neg hWhole,
            allCovered_front hType hLow (by omega) (by omega)]
          refine ih hTail fun b n hN hSum => ?_
          exact hCall b n (by omega) (by omega)
      rw [if_neg hLow]
      -- the range starts before the extent, at a bare byte
      have hBare : ∀ n, n ≠ 0 →
          ¬ AllCovered (key :: rest) bytenr n := by
        intro n hN
        refine not_allCovered hN ?_
        intro k hK hOther
        rcases List.mem_cons.mp hK with rfl | hK
        · exact .inl (by omega)
        · have hMore := hAfter k hK
          exact .inl (by omega)
      have hNever := hBare num_bytes hLeft
      have hOn : ∃ left,
          existsRest call rest bytenr
              (key.objectid - bytenr) = some left ∧
            left ≠ 0 := by
        have hRest : ∃ left,
            existsRest call rest bytenr
                (key.objectid - bytenr) = some left ∧
              (left = 0 ↔ AllCovered rest bytenr
                (key.objectid - bytenr)) :=
          ih hTail
            fun b n hN hSum => hCall b n (by omega) (by omega)
        obtain ⟨left, hLeft', hIff⟩ := hRest
        refine ⟨left, hLeft', fun hZero => ?_⟩
        refine not_allCovered (by omega) ?_ (hIff.mp hZero)
        intro k hK hOther
        have hMore := hAfter k hK
        exact .inl (by omega)
      obtain ⟨left, hOn, hSome⟩ := hOn
      rw [hOn]
      by_cases hMiddle : key.objectid + key.offset <
          bytenr + num_bytes
      · rw [if_pos hMiddle]
        obtain ⟨ret, hRet⟩ := hCall (key.objectid + key.offset)
          (bytenr + num_bytes - (key.objectid + key.offset))
          (by omega) (by omega)
        rw [hRet]
        dsimp only
        by_cases hZero : ret = 0
        · rw [if_neg (not_not_intro hZero)]
          exact ⟨left, rfl, iff_of_false hSome hNever⟩
        · rw [if_pos hZero]
          exact ⟨num_bytes, rfl, iff_of_false hLeft hNever⟩
      · rw [if_neg hMiddle]
        exact ⟨left, rfl, iff_of_false hSome hNever⟩

----------
-- What Is Hidden
----------

/-
  What comes between an extent and the place of a range leaves
  the extent in sight: nothing, or a block group.
-/
def InSight
    (between : List Key) : Prop :=
  between = [] ∨
    ∃ group, between = [group] ∧
      group.type = BLOCK_GROUP_ITEM_KEY

/-
  An extent reaches into a range from before, and other keys
  stand between it and the place of the range.
-/
def Hidden
    (c : ExtentRoot N)
    (bytenr : Nat) : Prop :=
  ∃ before key between,
    c.below ⟨bytenr, EXTENT_ITEM_KEY, 0⟩ =
        before ++ key :: between ∧
      key.type = EXTENT_ITEM_KEY ∧
      bytenr < extentStop key ∧ ¬ InSight between

/- What is left out is out of sight. -/
theorem backOver_out
    (hKey : key ∈ backOver keys) :
    ∃ between before,
      keys = before ++ key :: between ∧ ¬ InSight between := by
  rcases List.eq_nil_or_concat keys with rfl |
    ⟨most, last, rfl⟩
  · cases hKey
  rw [List.concat_eq_append] at hKey ⊢
  unfold backOver at hKey
  rw [List.getLast?_concat] at hKey
  dsimp only at hKey
  rw [List.dropLast_concat] at hKey
  by_cases hGroup : last.type = BLOCK_GROUP_ITEM_KEY
  · rw [if_pos hGroup] at hKey
    rcases List.eq_nil_or_concat most with rfl |
      ⟨more, next, rfl⟩
    · cases hKey
    rw [List.concat_eq_append, List.dropLast_concat] at hKey
    obtain ⟨before, tail, rfl⟩ := List.append_of_mem hKey
    refine ⟨tail ++ [next, last], before, by simp, ?_⟩
    rintro (hNone | ⟨group, hOne, -⟩)
    · simp at hNone
    · have hLength := congrArg List.length hOne
      simp at hLength
  · rw [if_neg hGroup] at hKey
    obtain ⟨before, tail, rfl⟩ := List.append_of_mem hKey
    refine ⟨tail ++ [last], before, by simp, ?_⟩
    rintro (hNone | ⟨group, hOne, hType⟩)
    · simp at hNone
    · have hBoth : tail ++ [last] = [] ++ [group] := hOne
      obtain ⟨-, hSame⟩ := List.append_inj' hBoth rfl
      rw [(List.cons.inj hSame).1] at hGroup
      exact hGroup hType

theorem mem_backOver
    {between : List Key}
    (hOut : ¬ InSight between) :
    key ∈ backOver (before ++ key :: between) := by
  rcases List.eq_nil_or_concat between with rfl |
    ⟨most, last, rfl⟩
  · exact absurd (.inl rfl) hOut
  rw [List.concat_eq_append] at hOut ⊢
  have hSplit : before ++ key :: (most ++ [last]) =
      (before ++ key :: most) ++ [last] := by simp
  unfold backOver
  rw [hSplit, List.getLast?_concat]
  dsimp only
  rw [List.dropLast_concat]
  by_cases hGroup : last.type = BLOCK_GROUP_ITEM_KEY
  · rw [if_pos hGroup]
    rcases List.eq_nil_or_concat most with rfl |
      ⟨more, next, rfl⟩
    · exact absurd (.inr ⟨last, rfl, hGroup⟩) hOut
    · have hMore : before ++ key :: more.concat next =
          (before ++ key :: more) ++ [next] := by simp
      rw [hMore, List.dropLast_concat]
      exact List.mem_append_right _ List.mem_cons_self
  · rw [if_neg hGroup]
    exact List.mem_append_right _ List.mem_cons_self

/- What the start leaves out reaches in if it is hidden. -/
theorem hidden_iff
    (keys : List Key)
    (bytenr : Nat) :
    (∃ key ∈ backOver keys, key.type = EXTENT_ITEM_KEY ∧
        bytenr < extentStop key) ↔
      ∃ before key between,
        keys = before ++ key :: between ∧
          key.type = EXTENT_ITEM_KEY ∧
          bytenr < extentStop key ∧ ¬ InSight between := by
  constructor
  · rintro ⟨key, hKey, hType, hStop⟩
    obtain ⟨between, before, hSplit, hOut⟩ :=
      backOver_out hKey
    exact ⟨before, key, between, hSplit, hType, hStop, hOut⟩
  · rintro ⟨before, key, between, rfl, hType, hStop, hOut⟩
    exact ⟨key, mem_backOver hOut, hType, hStop⟩

----------
-- Exactness
----------

/- The key that a range is searched with. -/
def extentKey
    (bytenr : Nat) : Key :=
  ⟨bytenr, EXTENT_ITEM_KEY, 0⟩

/- The keys are parted where the loop starts. -/
structure Parted
    (c : ExtentRoot N)
    (bytenr : Nat)
    (before after : List Key) : Prop where
  items : c.keys = before ++ after
  place :
    extentKey bytenr ∈ c.keys ∧
        before = c.below (extentKey bytenr) ∨
      extentKey bytenr ∉ c.keys ∧
        before = backOver (c.below (extentKey bytenr))

/-
  What is returned, with enough turns: 0 just if the keys from
  the start on cover the range.
-/
theorem checkExtentExists_start
    (hTree : c.Tree)
    (hBounded : ExtentRoot.Bounded c.keys)
    {bytenr num_bytes fuel : Nat}
    (hStop : bytenr + num_bytes < 2 ^ 64)
    (hFuel : num_bytes + 2 * c.keys.length + 2 ≤ fuel) :
    ∃ ret before after,
      Parted c bytenr before after ∧
        checkExtentExists c fuel bytenr num_bytes =
          some ret ∧
        (ret = 0 ↔ AllCovered after bytenr num_bytes) := by
  induction num_bytes using Nat.strongRecOn
    generalizing bytenr fuel with
  | _ num_bytes ih =>
      obtain ⟨fuel, rfl⟩ : ∃ f, fuel = f + 1 :=
        ⟨fuel - 1, by omega⟩
      have hType : EXTENT_ITEM_KEY ≠ BLOCK_GROUP_ITEM_KEY := by
        decide
      obtain ⟨path, before, after, hStart, hAt, hPlace⟩ :=
        existsStart_at hTree (extentKey bytenr) hType
      have hItems : c.keys = before ++ after := hAt.items
      have hLength : after.length ≤ c.keys.length := by
        rw [hItems, List.length_append]
        omega
      have hSorted : c.keys.Pairwise fun a b =>
          a.objectid ≤ b.objectid := by
        refine hTree.sorted.imp fun {a b} hLess => ?_
        rw [Key.lt_iff] at hLess
        omega
      have hParts := List.pairwise_append.mp (hItems ▸ hSorted)
      have hCall : ∀ b n, n < num_bytes →
          b + n ≤ bytenr + num_bytes →
            ∃ ret, checkExtentExists c fuel b n = some ret := by
        intro b n hN hSum
        have hEnough : n + 2 * c.keys.length + 2 ≤ fuel := by
          omega
        obtain ⟨ret, -, -, -, hRet, -⟩ :=
          ih n hN (hSum.trans_lt hStop) hEnough
        exact ⟨ret, hRet⟩
      obtain ⟨left, hLeft, hIff⟩ :=
        existsRest_iff hParts.2.1 hCall
      have hEnough : 2 * after.length + 1 ≤ fuel := by
        omega
      have hLoop := existsLoop_eq hTree
        (checkExtentExists c fuel)
        (fun k hK => hBounded k (by
          rw [hItems]
          exact List.mem_append_right _ hK))
        hItems hAt hStop hEnough
      refine ⟨existsRet left, before, after, ⟨hItems, hPlace⟩,
        ?_, ?_⟩
      · unfold extentKey at hStart
        rw [checkExtentExists, hStart]
        dsimp only
        rw [hLoop, hLeft]
        rfl
      · rw [← hIff]
        unfold existsRet
        split
        case isTrue hZero => exact iff_of_true rfl hZero
        case isFalse hSome =>
          exact iff_of_false one_ne_zero hSome

/-
  A search for a range passes an extent over: it is before the
  place of the range, and the key of the place itself is there
  or other keys stand between.
-/
def OutOfSight
    (c : ExtentRoot N)
    (bytenr : Nat)
    (key : Key) : Prop :=
  extentKey bytenr ∈ c.keys ∧ key ∈ c.below (extentKey bytenr) ∨
    extentKey bytenr ∉ c.keys ∧ ∃ before between,
      c.below (extentKey bytenr) = before ++ key :: between ∧
        ¬ InSight between

theorem Parted.outOfSight_iff
    {bytenr : Nat}
    (hParted : Parted c bytenr before after) :
    OutOfSight c bytenr key ↔ key ∈ before := by
  unfold OutOfSight
  rcases hParted.place with ⟨hThere, rfl⟩ | ⟨hMissing, rfl⟩
  · simp only [hThere, true_and, not_true_eq_false, false_and,
      or_false]
  · simp only [hMissing, false_and, not_false_eq_true,
      true_and, false_or]
    constructor
    · rintro ⟨pre, between, hSplit, hOut⟩
      rw [hSplit]
      exact mem_backOver hOut
    · intro hKey
      obtain ⟨between, pre, hSplit, hOut⟩ := backOver_out hKey
      exact ⟨pre, between, hSplit, hOut⟩

/- The keys from the start on are those that are in sight. -/
theorem Parted.mem_after
    (hTree : c.Tree)
    {bytenr : Nat}
    (hParted : Parted c bytenr before after) :
    key ∈ after ↔
      key ∈ c.keys ∧ ¬ OutOfSight c bytenr key := by
  have hSorted := hTree.sorted
  rw [hParted.items] at hSorted
  rw [hParted.outOfSight_iff, hParted.items, List.mem_append]
  constructor
  · intro hAfter
    refine ⟨.inr hAfter, fun hBefore => ?_⟩
    exact lt_irrefl key ((List.pairwise_append.mp hSorted).2.2
      key hBefore key hAfter)
  · rintro ⟨hBefore | hAfter, hNot⟩
    · exact absurd hBefore hNot
    · exact hAfter

/- What is left out starts before the range. -/
theorem Parted.low
    {bytenr : Nat}
    (hParted : Parted c bytenr before after)
    (hKey : key ∈ before)
    (hType : key.type = EXTENT_ITEM_KEY) :
    key.objectid < bytenr := by
  have hBelow : key ∈ c.below (extentKey bytenr) := by
    rcases hParted.place with ⟨-, rfl⟩ | ⟨-, rfl⟩
    · exact hKey
    · obtain ⟨between, pre, hSplit, -⟩ := backOver_out hKey
      rw [hSplit]
      exact List.mem_append_right _ List.mem_cons_self
  unfold ExtentRoot.below at hBelow
  have hLess := of_decide_eq_true (List.mem_filter.mp hBelow).2
  rw [Key.lt_iff] at hLess
  unfold extentKey at hLess
  dsimp only at hLess
  omega

/- It reaches into the range if and only if it is hidden. -/
theorem Parted.hidden_iff
    {bytenr : Nat}
    (hApart : c.keys.Pairwise Apart)
    (hParted : Parted c bytenr before after) :
    Hidden c bytenr ↔
      ∃ key ∈ before, key.type = EXTENT_ITEM_KEY ∧
        bytenr < extentStop key := by
  have hFound := CsumCheck.hidden_iff
    (c.below (extentKey bytenr)) bytenr
  unfold Hidden
  rcases hParted.place with ⟨hThere, hBefore⟩ | ⟨-, hBefore⟩
  swap
  · rw [hBefore]
    exact hFound.symm
  -- an extent of no bytes at the place keeps the others off
  have hNone : ∀ key ∈ before, key.type = EXTENT_ITEM_KEY →
      extentStop key ≤ bytenr := by
    intro key hKey hType
    have hOrder := hApart
    rw [hParted.items] at hOrder hThere
    rcases List.mem_append.mp hThere with hThere | hThere
    · have hLow := hParted.low hThere rfl
      exact absurd hLow (lt_irrefl bytenr)
    · exact (List.pairwise_append.mp hOrder).2.2 key hKey _
        hThere hType rfl
  constructor
  · rintro ⟨pre, key, between, hSplit, hType, hStop, -⟩
    refine ⟨key, ?_, hType, hStop⟩
    rw [hBefore]
    change c.below (extentKey bytenr) = _ at hSplit
    rw [hSplit]
    exact List.mem_append_right _ List.mem_cons_self
  · rintro ⟨key, hKey, hType, hStop⟩
    have hEnd := hNone key hKey hType
    omega

/-
  The keys from the start on cover what all keys cover, unless
  an extent that reaches in is hidden.
-/
theorem Parted.allCovered_iff
    (hApart : c.keys.Pairwise Apart)
    (hParted : Parted c bytenr before after)
    (hLeft : num_bytes ≠ 0) :
    AllCovered after bytenr num_bytes ↔
      AllCovered c.keys bytenr num_bytes ∧
        ¬ Hidden c bytenr := by
  rw [hParted.hidden_iff hApart]
  have hOrder := hApart
  rw [hParted.items] at hOrder ⊢
  have hAcross := (List.pairwise_append.mp hOrder).2.2
  constructor
  · intro hAll
    refine ⟨?_, ?_⟩
    · intro b hLow hHigh
      obtain ⟨k, hK, hCovers⟩ := hAll b hLow hHigh
      exact ⟨k, List.mem_append_right _ hK, hCovers⟩
    · rintro ⟨key, hKey, hType, hStop⟩
      obtain ⟨k, hK, hOther, hLow, -⟩ :=
        hAll bytenr (Nat.le_refl _) (by omega)
      have hEnd := hAcross key hKey k hK hType hOther
      omega
  · rintro ⟨hAll, hSight⟩ b hLow hHigh
    obtain ⟨k, hK, hType, hFrom, hStop⟩ := hAll b hLow hHigh
    rcases List.mem_append.mp hK with hK | hK
    · exact absurd ⟨k, hK, hType, by omega⟩ hSight
    · exact ⟨k, hK, hType, hFrom, hStop⟩

/-
  The function tells whether the range is covered, but where
  it is covered and an extent that reaches in is hidden.
-/
theorem checkExtentExists_exact_iff
    (hTree : c.Tree)
    (hBounded : ExtentRoot.Bounded c.keys)
    (hApart : c.keys.Pairwise Apart)
    {bytenr num_bytes : Nat}
    (hStop : bytenr + num_bytes < 2 ^ 64) :
    (∃ enough, ∀ fuel, enough ≤ fuel →
      ∃ ret,
        checkExtentExists c fuel bytenr num_bytes = some ret ∧
          (ret = 0 ↔ AllCovered c.keys bytenr num_bytes)) ↔
      num_bytes = 0 ∨
        ¬ AllCovered c.keys bytenr num_bytes ∨
        ¬ Hidden c bytenr := by
  by_cases hLeft : num_bytes = 0
  · refine iff_of_true ⟨num_bytes + 2 * c.keys.length + 2,
      fun fuel hFuel => ?_⟩ (.inl hLeft)
    obtain ⟨ret, before, after, -, hRet, hIff⟩ :=
      checkExtentExists_start hTree hBounded hStop hFuel
    refine ⟨ret, hRet, hIff.trans ?_⟩
    rw [hLeft]
    exact iff_of_true (allCovered_zero _ _)
      (allCovered_zero _ _)
  constructor
  · rintro ⟨enough, hAll⟩
    obtain ⟨ret, hRet, hExact⟩ := hAll _
      (Nat.le_add_right enough
        (num_bytes + 2 * c.keys.length + 2))
    obtain ⟨ret', before, after, hParted, hRet', hIff⟩ :=
      checkExtentExists_start hTree hBounded hStop
        (Nat.le_add_left _ enough)
    obtain rfl : ret = ret' :=
      Option.some.inj (hRet.symm.trans hRet')
    rw [hExact, hParted.allCovered_iff hApart hLeft] at hIff
    by_cases hCovered : AllCovered c.keys bytenr num_bytes
    · exact .inr (.inr (hIff.mp hCovered).2)
    · exact .inr (.inl hCovered)
  · intro hCond
    refine ⟨num_bytes + 2 * c.keys.length + 2,
      fun fuel hFuel => ?_⟩
    obtain ⟨ret, before, after, hParted, hRet, hIff⟩ :=
      checkExtentExists_start hTree hBounded hStop hFuel
    refine ⟨ret, hRet, hIff.trans ?_⟩
    rw [hParted.allCovered_iff hApart hLeft]
    rcases hCond with hZero | hBare | hSight
    · exact absurd hZero hLeft
    · exact iff_of_false (fun h => hBare h.1) hBare
    · exact and_iff_left hSight

end Exists

----------
-- An Extent with a Back Reference
----------

/- An extent of 8192 bytes, and a keyed reference to it. -/
def oneExtent : ExtentRoot Unit where
  slots := leafSlots 2
  key := fun _ i =>
    if i = 0 then ⟨1048576, EXTENT_ITEM_KEY, 8192⟩
    else ⟨1048576, 178, 77⟩
  top := 0
  root := ()

theorem oneExtent_tree : oneExtent.Tree := by
  apply leafSlots_tree
  intro i j hLess hIn
  obtain ⟨rfl, rfl⟩ : i = 0 ∧ j = 1 := by omega
  decide

theorem oneExtent_keys :
    oneExtent.keys =
      [⟨1048576, EXTENT_ITEM_KEY, 8192⟩, ⟨1048576, 178, 77⟩] :=
  rfl

/- The range of the extent itself is found. -/
theorem checkExtentExists_exact_iff_one :
    ∃ enough, ∀ fuel, enough ≤ fuel →
      ∃ ret,
        checkExtentExists oneExtent fuel 1048576 8192 =
            some ret ∧
          (ret = 0 ↔
            AllCovered oneExtent.keys 1048576 8192) := by
  refine (checkExtentExists_exact_iff oneExtent_tree ?_ ?_
    (by decide)).mpr (.inr (.inr ?_))
  · rw [oneExtent_keys]
    unfold ExtentRoot.Bounded
    decide
  · rw [oneExtent_keys]
    unfold Apart
    decide
  · rintro ⟨before, key, between, hSplit, -⟩
    have hNone : oneExtent.below
        ⟨1048576, EXTENT_ITEM_KEY, 0⟩ = [] := by decide
    rw [hNone] at hSplit
    simp at hSplit

theorem oneExtent_start :
    existsStart oneExtent ⟨1052672, EXTENT_ITEM_KEY, 0⟩
        emptyPath =
      .ok ((emptyPath.put 0 () 2).setSlot 0 1) := by
  have hFound : genericBinSearch
      (fun i => compKeys (oneExtent.key () i)
        ⟨1052672, EXTENT_ITEM_KEY, 0⟩) 0 2 = (1, 2) := by
    rw [genericBinSearch, if_pos (by decide)]
    dsimp only
    rw [if_pos (by decide), genericBinSearch,
      if_neg (by decide)]
  have hSearch : searchKey oneExtent.slots oneExtent.key
      oneExtent.top oneExtent.root
      ⟨1052672, EXTENT_ITEM_KEY, 0⟩ emptyPath =
        (1, emptyPath.put 0 () 2) := by
    change ((genericBinSearch
        (fun i => compKeys (oneExtent.key () i)
          ⟨1052672, EXTENT_ITEM_KEY, 0⟩) 0 2).1,
      emptyPath.put 0 () (genericBinSearch
        (fun i => compKeys (oneExtent.key () i)
          ⟨1052672, EXTENT_ITEM_KEY, 0⟩) 0 2).2) = _
    rw [hFound]
  unfold existsStart
  rw [hSearch]
  rfl

/-
  The second half of the extent is said to have no extent: the
  search starts at the reference.
-/
theorem checkExtentExists_hides :
    checkExtentExists oneExtent 4 1052672 4096 = some 1 ∧
      AllCovered oneExtent.keys 1052672 4096 := by
  constructor
  · rw [checkExtentExists, oneExtent_start]
    rfl
  · intro b hLow hHigh
    exact ⟨⟨1048576, EXTENT_ITEM_KEY, 8192⟩,
      List.mem_cons_self, rfl, Nat.le_trans (by decide) hLow,
      hHigh⟩

end CsumCheck

end BtrfsProgs
