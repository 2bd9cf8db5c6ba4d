import BtrfsProgs.Ctree.ItemSearch

/-
  `btrfs_find_last_root`, from `root-tree.c`.

  It takes the item before the place of the search for that of
  a root, whatever type it has.

  Main declarations:
    * `findLastRoot`
    * `IsLastRoot` and `FindsLast`
    * `findLastRoot_exact_iff`
-/

----------
-- The Function
----------

namespace BtrfsProgs

namespace Ctree

open Trail

section LastRoot

variable {N : Type}

def BTRFS_ROOT_ITEM_KEY : Nat := 132

/- `sizeof(struct btrfs_root_item)`. -/
def ROOT_ITEM_SIZE : Nat := 439

/- The bytes of the leaves, and where their items have data. -/
structure LeafData (N : Type) where
  bytes : N → List UInt8
  offset : N → Nat → Nat
  size : N → Nat → Nat

/- An item, with its key and its data. -/
def LeafData.item
    (D : LeafData N)
    (key : N → Nat → Key)
    (l : N)
    (slot : Nat) : Key × List UInt8 :=
  (key l slot,
    ((D.bytes l).drop (D.offset l slot)).take (D.size l slot))

/- `read_extent_buffer`; `none` is an access outside. -/
def readExtentBuffer
    (bytes : List UInt8)
    (start len : Nat) : Option (List UInt8) :=
  if start + len ≤ bytes.length then
    some ((bytes.drop start).take len)
  else none

/- The item and the key are stored. -/
def storeRoot
    (found_key : Key) :
    Option (List UInt8) →
      Except Stop (Int × Option (List UInt8 × Key))
  | none => .error .bug
  | some item => .ok (0, some (item, found_key))

/- The last key that a root item can have. -/
def lastRootKey
    (objectid : Nat) : Key :=
  ⟨objectid, BTRFS_ROOT_ITEM_KEY, 2 ^ 64 - 1⟩

/-
  `btrfs_find_last_root`: what is returned, and the item and
  the key where they are stored.
-/
def findLastRoot
    (T : Slots N)
    (key : N → Nat → Key)
    (D : LeafData N)
    (top : Nat)
    (root : N)
    (objectid : Nat) :
    Except Stop (Int × Option (List UInt8 × Key)) :=
  let (ret, path) :=
    searchKey T key top root (lastRootKey objectid) emptyPath
  if ret < 0 then .ok (ret, none)
  else if path.slots 0 = 0 then .ok (-2, none)
  else if ret = 0 then .error .bug
  else
    match path.nodes 0 with
    | none => .error .bug
    | some l =>
        let slot := path.slots 0 - 1
        let found_key := key l slot
        if found_key.objectid ≠ objectid then .ok (-2, none)
        else
          storeRoot found_key
            (readExtentBuffer (D.bytes l) (D.offset l slot)
              ROOT_ITEM_SIZE)

----------
-- The Last Root Item
----------

def IsRoot
    (objectid : Nat)
    (x : Key × List UInt8) : Prop :=
  x.1.objectid = objectid ∧ x.1.type = BTRFS_ROOT_ITEM_KEY

/- The root item of the object with the greatest offset. -/
def IsLastRoot
    (items : List (Key × List UInt8))
    (objectid : Nat)
    (x : Key × List UInt8) : Prop :=
  x ∈ items ∧ IsRoot objectid x ∧
    ∀ y ∈ items, IsRoot objectid y → y.1.offset ≤ x.1.offset

/-
  0 with the key and the bytes of the last root item, and
  `-ENOENT` where there is none.
-/
def FindsLast
    (items : List (Key × List UInt8))
    (objectid : Nat)
    (result : Except Stop (Int × Option (List UInt8 × Key))) :
    Prop :=
  (∃ x, IsLastRoot items objectid x ∧
      ROOT_ITEM_SIZE ≤ x.2.length ∧
      result =
        .ok (0, some (x.2.take ROOT_ITEM_SIZE, x.1))) ∨
    (∀ x ∈ items, ¬IsRoot objectid x) ∧
      result = .ok (-2, none)

/-
  No root item has the last key; the object has a root item, or
  no item of a type before it; and the last one is a whole
  `struct btrfs_root_item`.
-/
def RootsRegular
    (items : List (Key × List UInt8))
    (objectid : Nat) : Prop :=
  (∀ x ∈ items, x.1 ≠ lastRootKey objectid) ∧
    ((∃ x ∈ items, IsRoot objectid x) ∨
      ∀ x ∈ items, x.1.objectid = objectid →
        ¬x.1.type < BTRFS_ROOT_ITEM_KEY) ∧
    ∀ x, IsLastRoot items objectid x →
      ROOT_ITEM_SIZE ≤ x.2.length

variable {T : Slots N} {key : N → Nat → Key}
variable {D : LeafData N}
variable {top objectid : Nat} {root : N}
variable {items : List (Key × List UInt8)}
variable {x y : Key × List UInt8}
variable {result : Except Stop (Int × Option (List UInt8 × Key))}

/- An item of the object that is no later than its roots. -/
def UpToRoot
    (objectid : Nat)
    (x : Key × List UInt8) : Prop :=
  x.1.objectid = objectid ∧ x.1.type ≤ BTRFS_ROOT_ITEM_KEY

theorem IsRoot.upTo
    (hRoot : IsRoot objectid x) : UpToRoot objectid x :=
  ⟨hRoot.1, hRoot.2.le⟩

theorem IsRoot.of_key
    (hKey : x.1 = lastRootKey objectid) :
    IsRoot objectid x := by
  unfold IsRoot
  rw [hKey]
  exact ⟨rfl, rfl⟩

theorem lt_lastRootKey
    {k : Key} :
    k < lastRootKey objectid ↔
      k.objectid < objectid ∨
        k.objectid = objectid ∧
          (k.type < BTRFS_ROOT_ITEM_KEY ∨
            k.type = BTRFS_ROOT_ITEM_KEY ∧
              k.offset < 2 ^ 64 - 1) :=
  Key.lt_iff

/- Up to its roots are the items below the last key. -/
theorem upToRoot_iff
    (hOffset : x.1.offset < 2 ^ 64)
    (hNot : x.1 ≠ lastRootKey objectid) :
    UpToRoot objectid x ↔
      x.1.objectid = objectid ∧
        x.1 < lastRootKey objectid := by
  have hMore : x.1.objectid = objectid →
      x.1.type = BTRFS_ROOT_ITEM_KEY →
        x.1.offset ≠ 2 ^ 64 - 1 := by
    intro hObject hType hOff
    exact hNot (Key.ext hObject hType hOff)
  unfold UpToRoot
  rw [lt_lastRootKey]
  omega

/- What is read is the item, where it has the whole length. -/
theorem read_item
    (D : LeafData N)
    (key : N → Nat → Key)
    (l : N)
    (slot : Nat) :
    (ROOT_ITEM_SIZE ≤ (D.item key l slot).2.length →
        readExtentBuffer (D.bytes l) (D.offset l slot)
            ROOT_ITEM_SIZE =
          some ((D.item key l slot).2.take ROOT_ITEM_SIZE)) ∧
      ∀ item, readExtentBuffer (D.bytes l) (D.offset l slot)
          ROOT_ITEM_SIZE = some item →
        item.length = ROOT_ITEM_SIZE := by
  unfold readExtentBuffer LeafData.item
  dsimp only
  constructor
  · intro hWhole
    rw [List.length_take, List.length_drop] at hWhole
    have hPos : 0 < ROOT_ITEM_SIZE := by decide
    rw [if_pos (by omega), List.take_take,
      Nat.min_eq_left (by omega)]
  · intro item hRead
    by_cases hIn : D.offset l slot + ROOT_ITEM_SIZE ≤
        (D.bytes l).length
    · rw [if_pos hIn] at hRead
      rw [← Option.some.inj hRead, List.length_take,
        List.length_drop]
      omega
    · rw [if_neg hIn] at hRead
      cases hRead

/- What the search comes to, and what is returned for it. -/
inductive Found
    (items : List (Key × List UInt8))
    (objectid : Nat) :
    Except Stop (Int × Option (List UInt8 × Key)) → Prop where
  | whole
      {result : Except Stop (Int × Option (List UInt8 × Key))}
      {x : Key × List UInt8}
      (hIn : x ∈ items)
      (hKey : x.1 = lastRootKey objectid)
      (hResult : result = .error .bug ∨
        result = .ok (-2, none)) :
      Found items objectid result
  | none
      (hNone : ∀ x ∈ items, x.1 ≠ lastRootKey objectid ∧
        ¬UpToRoot objectid x) :
      Found items objectid (.ok (-2, none))
  | last
      {x : Key × List UInt8}
      (hIn : x ∈ items)
      (hObject : UpToRoot objectid x)
      (hLast : ∀ y ∈ items, y.1 ≠ lastRootKey objectid ∧
        (UpToRoot objectid y → y = x ∨ y.1 < x.1))
      {read : Option (List UInt8)}
      (hWhole : ROOT_ITEM_SIZE ≤ x.2.length →
        read = some (x.2.take ROOT_ITEM_SIZE))
      (hLength : ∀ item, read = some item →
        item.length = ROOT_ITEM_SIZE) :
      Found items objectid (storeRoot x.1 read)

/- What is returned is one of the three. -/
theorem findLastRoot_found
    (hTree : ItemTree T key top root)
    (hFirst : FirstKeys T key top root)
    (hOffsets :
      ∀ x ∈ allItems T (D.item key) top root,
        x.1.offset < 2 ^ 64) :
    Found (allItems T (D.item key) top root) objectid
      (findLastRoot T key D top root objectid) := by
  have hKey : ∀ l i, (D.item key l i).1 = key l i :=
    fun _ _ => rfl
  rcases searchSlot_at hTree hKey (lastRootKey objectid)
      emptyPath_released with
    ⟨before, after, hAt, hBefore, hRet⟩
  have hItems := hAt.items
  have hSorted := hTree.pairwise hKey
  rw [hItems] at hSorted
  unfold findLastRoot
  generalize hSearch : searchKey T key top root
    (lastRootKey objectid) emptyPath = r at hAt hRet
  rcases r with ⟨ret, path⟩
  dsimp only at hAt hRet ⊢
  rcases hRet with ⟨rfl, leaf, x, rest, hAfter, hSame, _⟩ |
    ⟨rfl, hAbove⟩
  · -- the root item with the last key
    rw [if_neg (by decide)]
    refine .whole (x := x) ?_ hSame ?_
    · rw [hItems, hAfter]
      exact List.mem_append_right _ List.mem_cons_self
    · by_cases hSlot : path.slots 0 = 0
      · rw [if_pos hSlot]
        exact .inr rfl
      · rw [if_neg hSlot, if_pos rfl]
        exact .inl rfl
  rw [if_neg (by decide)]
  have hNot : ∀ y ∈ before ++ after,
      y.1 ≠ lastRootKey objectid := by
    intro y hIn
    rcases List.mem_append.mp hIn with hOld | hNew
    · exact (hBefore y hOld).ne
    · exact (hAbove y hNew).ne'
  have hUp : ∀ y ∈ before ++ after, UpToRoot objectid y →
      y ∈ before := by
    intro y hIn hObject
    have hLess := ((upToRoot_iff
      (hOffsets y (hItems ▸ hIn)) (hNot y hIn)).mp hObject).2
    rcases List.mem_append.mp hIn with hOld | hNew
    · exact hOld
    · exact absurd (hAbove y hNew) (not_lt.mpr hLess.le)
  by_cases hSlot : path.slots 0 = 0
  · rw [if_pos hSlot]
    have hThere : StandsAt T (D.item key) top root
        (searchKey T key top root (lastRootKey objectid)
          emptyPath).2 before after := by
      rw [hSearch]
      exact hAt
    have hNone := searchKey_before hTree hFirst hThere
      (by rw [hSearch]; exact one_ne_zero)
      (by rw [hSearch]; exact hSlot)
    refine .none fun y hIn => ?_
    rw [hItems] at hIn
    refine ⟨hNot y hIn, fun hObject => ?_⟩
    have hIs := hUp y hIn hObject
    rw [hNone] at hIs
    cases hIs
  rw [if_neg hSlot, if_neg one_ne_zero]
  rcases hAt.back hSlot with
    ⟨before', leaf, hHere, _, hSplit, _⟩
  rw [hHere]
  dsimp only
  generalize hX : D.item key leaf (path.slots 0 - 1) = x
    at hSplit
  have hXKey : key leaf (path.slots 0 - 1) = x.1 :=
    congrArg Prod.fst hX
  have hIn : x ∈ before ++ after := by
    rw [hSplit]
    exact List.mem_append_left _
      (List.mem_append_right _ List.mem_cons_self)
  have hLastOf : ∀ y ∈ before, y = x ∨ y.1 < x.1 := by
    intro y hOld
    have hPairs := (List.pairwise_append.mp hSorted).1
    rw [hSplit] at hPairs hOld
    rcases List.mem_append.mp hOld with hFront | hLast
    · exact .inr ((List.pairwise_append.mp hPairs).2.2 y hFront
        x (List.mem_singleton_self x))
    · exact .inl (List.mem_singleton.mp hLast)
  have hXLess := hBefore x (by
    rw [hSplit]
    exact List.mem_append_right _ List.mem_cons_self)
  rw [hXKey]
  by_cases hObject : x.1.objectid ≠ objectid
  · rw [if_pos hObject]
    refine .none fun y hYIn => ?_
    rw [hItems] at hYIn
    refine ⟨hNot y hYIn, fun hYObject => hObject ?_⟩
    rcases hLastOf y (hUp y hYIn hYObject) with rfl | hLess
    · exact hYObject.1
    · rw [Key.lt_iff] at hLess
      rw [lt_lastRootKey] at hXLess
      have hSame := hYObject.1
      omega
  · rw [if_neg hObject]
    rw [not_not] at hObject
    have hRead := read_item D key leaf (path.slots 0 - 1)
    rw [hX] at hRead
    refine .last (hItems ▸ hIn) ?_ ?_ hRead.1 hRead.2
    · exact (upToRoot_iff (hOffsets x (hItems ▸ hIn))
        (hNot x hIn)).mpr ⟨hObject, hXLess⟩
    · intro y hYIn
      rw [hItems] at hYIn
      exact ⟨hNot y hYIn, fun hUpTo =>
        hLastOf y (hUp y hYIn hUpTo)⟩

/- The key and the bytes of a whole root item. -/
theorem FindsLast.of_last
    (hLast : IsLastRoot items objectid x)
    (hLength : ROOT_ITEM_SIZE ≤ x.2.length) :
    FindsLast items objectid
      (storeRoot x.1 (some (x.2.take ROOT_ITEM_SIZE))) :=
  .inl ⟨x, hLast, hLength, rfl⟩

/-
  The last root item is found exactly where the items are
  regular for the object.
-/
theorem findLastRoot_exact_iff
    (hTree : ItemTree T key top root)
    (hFirst : FirstKeys T key top root)
    (hOffsets :
      ∀ x ∈ allItems T (D.item key) top root,
        x.1.offset < 2 ^ 64)
    (objectid : Nat) :
    FindsLast (allItems T (D.item key) top root) objectid
        (findLastRoot T key D top root objectid) ↔
      RootsRegular (allItems T (D.item key) top root)
        objectid := by
  have hFound : Found _ objectid _ :=
    findLastRoot_found hTree hFirst hOffsets
  generalize allItems T (D.item key) top root = items
    at hFound ⊢
  generalize findLastRoot T key D top root objectid = result
    at hFound ⊢
  cases hFound with
  | whole hIn hKey hResult =>
      refine iff_of_false ?_ fun hRegular =>
        hRegular.1 _ hIn hKey
      have hRoot := IsRoot.of_key hKey
      rintro (⟨x, _, _, hIs⟩ | ⟨hNone, _⟩)
      · rw [hIs] at hResult
        rcases hResult with hBug | hOther
        · cases hBug
        · cases hOther
      · exact hNone _ hIn hRoot
  | none hNone =>
      have hNoRoot : ∀ x ∈ items, ¬IsRoot objectid x :=
        fun x hIn hRoot => (hNone x hIn).2 hRoot.upTo
      refine iff_of_true (.inr ⟨hNoRoot, rfl⟩) ⟨?_, .inr ?_, ?_⟩
      · exact fun x hIn => (hNone x hIn).1
      · exact fun x hIn hObject hLess =>
          (hNone x hIn).2 ⟨hObject, hLess.le⟩
      · exact fun x hLast =>
          absurd hLast.2.1 (hNoRoot x hLast.1)
  | @last x hIn hUpTo hLast read hWhole hLength =>
      by_cases hType : x.1.type = BTRFS_ROOT_ITEM_KEY
      · have hIsLast : IsLastRoot items objectid x := by
          refine ⟨hIn, ⟨hUpTo.1, hType⟩, fun y hYIn hRoot => ?_⟩
          rcases (hLast y hYIn).2 hRoot.upTo with rfl | hLess
          · exact Nat.le_refl _
          · rw [Key.lt_iff] at hLess
            have hObject := hRoot.1.trans hUpTo.1.symm
            have hSame := hRoot.2.trans hType.symm
            omega
        have hOnly : ∀ y, IsLastRoot items objectid y →
            y = x := by
          intro y hY
          rcases (hLast y hY.1).2 hY.2.1.upTo with hSame | hLess
          · exact hSame
          · have hLe := hY.2.2 x hIn hIsLast.2.1
            rw [Key.lt_iff] at hLess
            have hObject := hY.2.1.1.trans hUpTo.1.symm
            have hSame := hY.2.1.2.trans hType.symm
            omega
        constructor
        · rintro (⟨y, hY, hSize, _⟩ | ⟨hNone, _⟩)
          · refine ⟨fun z hZ => (hLast z hZ).1,
              .inl ⟨x, hIn, hIsLast.2.1⟩, fun z hZ => ?_⟩
            rw [hOnly z hZ, ← hOnly y hY]
            exact hSize
          · exact absurd hIsLast.2.1 (hNone x hIn)
        · intro hRegular
          have hSize := hRegular.2.2 x hIsLast
          rw [hWhole hSize]
          exact .of_last hIsLast hSize
      · -- an item of another type before any root item
        have hNoRoot : ∀ y ∈ items, ¬IsRoot objectid y := by
          intro y hYIn hRoot
          have hSame := hRoot.2
          have hLe := hUpTo.2
          rcases (hLast y hYIn).2 hRoot.upTo with rfl | hLess
          · exact hType hSame
          · rw [Key.lt_iff] at hLess
            have hObject := hRoot.1.trans hUpTo.1.symm
            omega
        refine iff_of_false ?_ ?_
        · rintro (⟨y, hY, _⟩ | ⟨_, hIs⟩)
          · exact hNoRoot y hY.1 hY.2.1
          · cases read with
            | none
            | some item => cases hIs
        · rintro ⟨_, ⟨y, hY, hRoot⟩ | hNone, _⟩
          · exact hNoRoot y hY hRoot
          · exact hNone x hIn hUpTo.1
              (Nat.lt_of_le_of_ne hUpTo.2 hType)

end LastRoot

----------
-- A Tree of One Leaf
----------

/- The root 256, and the inode of a cache of object 257. -/
def cacheKeys
    (_ : Unit)
    (i : Nat) : Key :=
  if i = 0 then ⟨256, 132, 0⟩ else ⟨257, 1, 0⟩

/- Bytes of some value. -/
def sevens
    (n : Nat) : List UInt8 :=
  List.replicate n 7

theorem sevens_part
    (n skip len : Nat) :
    ((sevens n).drop skip).take len =
      sevens (min len (n - skip)) := by
  unfold sevens
  rw [List.drop_replicate, List.take_replicate]

/- The data of both, of the size of a root item. -/
def cacheData : LeafData Unit where
  bytes _ := sevens 878
  offset _ i := 439 - 439 * i
  size _ _ := 439

theorem cacheKeys_tree :
    ItemTree (leafSlots 2) cacheKeys 0 () := by
  apply leafSlots_tree
  intro i j hLess hIn
  obtain ⟨rfl, rfl⟩ : i = 0 ∧ j = 1 := by
    omega
  decide

theorem cache_items :
    allItems (leafSlots 2) (cacheData.item cacheKeys) 0 () =
      [(⟨256, 132, 0⟩, sevens 439),
        (⟨257, 1, 0⟩, sevens 439)] := by
  have hItems : allItems (leafSlots 2)
      (cacheData.item cacheKeys) 0 () =
        [cacheData.item cacheKeys () 0,
          cacheData.item cacheKeys () 1] := rfl
  rw [hItems]
  unfold LeafData.item
  rw [show cacheData.bytes () = sevens 878 from rfl,
    sevens_part, sevens_part]
  rfl

theorem findLastRoot_exact_iff_cache :
    FindsLast (allItems (leafSlots 2)
        (cacheData.item cacheKeys) 0 ()) 256
      (findLastRoot (leafSlots 2) cacheKeys cacheData 0 ()
        256) := by
  refine (findLastRoot_exact_iff cacheKeys_tree trivial ?_
    256).mpr ⟨?_, .inl ?_, ?_⟩
  · rw [cache_items]
    intro x hIn
    rcases List.mem_cons.mp hIn with rfl | hIn
    · decide
    · rw [List.mem_singleton.mp hIn]
      decide
  · rw [cache_items]
    intro x hIn
    rcases List.mem_cons.mp hIn with rfl | hIn
    · decide
    · rw [List.mem_singleton.mp hIn]
      decide
  · rw [cache_items]
    exact ⟨_, List.mem_cons_self, rfl, rfl⟩
  · intro x hLast
    have hIn := hLast.1
    rw [cache_items] at hIn
    simp only [List.mem_cons, List.not_mem_nil, or_false] at hIn
    rcases hIn with rfl | rfl
    · exact (List.length_replicate ..).ge
    · exact (List.length_replicate ..).ge

/- The inode of a cache is returned for a root. -/
theorem cache_taken_for_root :
    findLastRoot (leafSlots 2) cacheKeys cacheData 0 () 257 =
        .ok (0, some (sevens 439, ⟨257, 1, 0⟩)) ∧
      ¬FindsLast (allItems (leafSlots 2)
          (cacheData.item cacheKeys) 0 ()) 257
        (findLastRoot (leafSlots 2) cacheKeys cacheData 0 ()
          257) := by
  have hFound : genericBinSearch
      (fun i => compKeys (cacheKeys () i) (lastRootKey 257)) 0
        2 = (1, 2) := by
    rw [genericBinSearch, if_pos (by decide)]
    dsimp only
    rw [if_pos (by decide), genericBinSearch,
      if_neg (by decide)]
  have hSearch : searchKey (leafSlots 2) cacheKeys 0 ()
      (lastRootKey 257) emptyPath =
        (1, emptyPath.put 0 () 2) := by
    unfold searchKey searchSlot
    change ((genericBinSearch (fun i =>
        compKeys (cacheKeys () i) (lastRootKey 257)) 0 2).1,
      emptyPath.put 0 () (genericBinSearch (fun i =>
        compKeys (cacheKeys () i) (lastRootKey 257)) 0 2).2) =
          _
    rw [hFound]
  have hRead : readExtentBuffer (cacheData.bytes ())
      (cacheData.offset () 1) ROOT_ITEM_SIZE =
        some (sevens 439) := by
    have hIn : cacheData.offset () 1 + ROOT_ITEM_SIZE ≤
        (sevens 878).length := by
      rw [sevens, List.length_replicate]
      decide
    unfold readExtentBuffer
    rw [show cacheData.bytes () = sevens 878 from rfl,
      if_pos hIn, sevens_part]
    rfl
  have hResult :
      findLastRoot (leafSlots 2) cacheKeys cacheData 0 () 257 =
        .ok (0, some (sevens 439, ⟨257, 1, 0⟩)) := by
    have hSlot : (emptyPath.put 0 () 2).slots 0 = 2 := rfl
    have hNode : (emptyPath.put 0 () 2).nodes 0 = some () := rfl
    unfold findLastRoot
    rw [hSearch]
    dsimp only
    rw [if_neg (by decide), hSlot, if_neg (by decide),
      if_neg (by decide), hNode]
    dsimp only
    rw [if_neg (by decide), hRead]
    rfl
  refine ⟨hResult, ?_⟩
  rw [hResult, cache_items]
  rintro (⟨x, hLast, _⟩ | ⟨_, hIs⟩)
  · have hIn := hLast.1
    simp only [List.mem_cons, List.not_mem_nil, or_false] at hIn
    rcases hIn with rfl | rfl
    · exact absurd hLast.2.1.1 (by decide)
    · exact absurd hLast.2.1.2 (by decide)
  · cases hIs

end Ctree

end BtrfsProgs
