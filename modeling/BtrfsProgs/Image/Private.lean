import BtrfsProgs.Image.Names
import BtrfsProgs.Image.Sanitize

/-
  What a copied block shows of the private bytes.

  Main declarations:
    * `Private` and `WellFormed`
    * `sanitizeEntries_spec` and `zeroItem_spec`
    * `copyBuffer_same_iff`
-/

----------
-- Entries of Items
----------

namespace BtrfsProgs

namespace Image

open ByteArea

/- Two areas have the same bytes in a run. -/
def AgreeOn
    (a b : Area)
    (lo hi : Nat) : Prop :=
  ∀ q, lo ≤ q → q < hi → b q = a q

/-
  Entries fill a run of bytes, each with the length of its
  name and of its data.
-/
def Tiled
    (k : EntryKind)
    (a : Area) :
    Nat → Nat → List (Nat × Nat) → Prop
  | _, total, [] => total = 0
  | p, total, (n, d) :: es =>
      k.nameLen a p = n ∧ k.dataLen a p = d ∧ n ≠ 0 ∧
        k.head + n + d ≤ total ∧
        Tiled k a (p + (k.head + n + d))
          (total - (k.head + n + d)) es

/- A place in the value of some extended attribute. -/
def InValues : Nat → List (Nat × Nat) → Nat → Prop
  | _, [], _ => False
  | p, (n, d) :: es, q =>
      (p + (dirItem.head + n) ≤ q ∧
        q < p + (dirItem.head + n + d)) ∨
      InValues (p + (dirItem.head + n + d)) es q

/- A place in the value of an attribute after the first. -/
def InLaterValues
    (p : Nat)
    (es : List (Nat × Nat))
    (q : Nat) : Prop :=
  match es with
  | [] => False
  | (n, d) :: es =>
      InValues (p + (dirItem.head + n + d)) es q

section Entries

variable {a b : Area} {k : EntryKind} {p total : Nat}

theorem number_congr
    {w : Nat}
    (hAgree : AgreeOn a b p (p + w)) :
    number b p w = number a p w := by
  unfold number
  congr 1
  apply load_congr
  intro i hi
  exact hAgree (p + i) (by omega) (by omega)

theorem AgreeOn.mono
    {lo hi lo' hi' : Nat}
    (hAgree : AgreeOn a b lo hi)
    (hLow : lo ≤ lo')
    (hHigh : hi' ≤ hi) :
    AgreeOn a b lo' hi' := by
  intro q hq hq'
  exact hAgree q (by omega) (by omega)

theorem EntryKind.lens_congr
    (hAgree : AgreeOn a b p (p + k.head)) :
    k.nameLen b p = k.nameLen a p ∧
      k.dataLen b p = k.dataLen a p := by
  have hName := k.name_in
  have hData := k.data_in
  constructor
  · exact number_congr (hAgree.mono (by omega) (by omega))
  · unfold EntryKind.dataLen
    cases hAt : k.dataAt with
    | none => rfl
    | some d =>
        have hIn := hData d hAt
        exact number_congr (hAgree.mono (by omega) (by omega))

theorem Tiled.congr
    {es : List (Nat × Nat)}
    (hTiled : Tiled k a p total es)
    (hAgree : AgreeOn a b p (p + total)) :
    Tiled k b p total es := by
  induction es generalizing p total with
  | nil => exact hTiled
  | cons e es ih =>
      rcases e with ⟨n, d⟩
      obtain ⟨hName, hData, hSome, hLe, hRest⟩ := hTiled
      obtain ⟨hName', hData'⟩ := EntryKind.lens_congr (k := k)
        (hAgree.mono (Nat.le_refl p) (by omega))
      refine ⟨hName'.trans hName, hData'.trans hData, hSome,
        hLe, ih hRest ?_⟩
      exact hAgree.mono (by omega) (by omega)

theorem InValues.bounds
    {es : List (Nat × Nat)}
    {q : Nat}
    (hTiled : Tiled dirItem a p total es)
    (hIn : InValues p es q) :
    p + dirItem.head ≤ q ∧ q < p + total := by
  induction es generalizing p total with
  | nil => cases hIn
  | cons e es ih =>
      rcases e with ⟨n, d⟩
      obtain ⟨_, _, _, hLe, hRest⟩ := hTiled
      rcases hIn with hIn | hIn
      · omega
      · have hBounds := ih hRest hIn
        omega

theorem Tiled.length_le
    {es : List (Nat × Nat)}
    (hTiled : Tiled k a p total es) :
    es.length ≤ total := by
  induction es generalizing p total with
  | nil => exact Nat.zero_le _
  | cons e es ih =>
      rcases e with ⟨n, d⟩
      obtain ⟨_, _, hSome, hLe, hRest⟩ := hTiled
      have hLength := ih hRest
      rw [List.length_cons]
      omega

/- A name has something written over it. -/
theorem garbageFor_spec
    (s : Setting)
    (md : NameState)
    {name : List UInt8}
    (hName : name ≠ []) :
    ∃ garbage md',
      garbageFor s md name = some (garbage, md') ∧
      garbage.length = name.length := by
  unfold garbageFor
  split
  · have hFound : ∃ val md', findCollision s.rand s.rebalance
        md name = some (val, md') := by
      unfold findCollision
      cases hSearch : md.nameTree.search (nameCmp name) with
      | some val => exact ⟨val, md, rfl⟩
      | none =>
          obtain ⟨found, sub, hTry, _⟩ :=
            tryAll_renames s.rand md.draws hName
          obtain ⟨tree, hInsert⟩ := SearchTree.insert_of_search
            (⟨name, if found then sub
              else generateGarbage s.rand md.draws
                name.length⟩ : NameEntry) hSearch
          simp only [hTry, hInsert]
          exact ⟨_, _, rfl⟩
    obtain ⟨val, md', hFound⟩ := hFound
    rw [hFound]
    exact ⟨_, md', rfl, by simp⟩
  · exact ⟨_, _, rfl, by simp [generateGarbage]⟩

/-
  The loop over the entries of an item does the same to areas
  that agree there, and leaves other bytes as they are.
-/
theorem sanitizeEntries_spec
    (s : Setting)
    {es : List (Nat × Nat)}
    {fuel : Nat}
    (ptr total cur : Nat)
    (md : NameState)
    (hLe : cur ≤ total)
    (hTiled : Tiled k a (ptr + cur) (total - cur) es)
    (hAgree : AgreeOn a b (ptr + cur) (ptr + total))
    (hFuel : es.length < fuel) :
    ∃ a' b' md',
      sanitizeEntries s k ptr total fuel cur a md =
        some (a', md') ∧
      sanitizeEntries s k ptr total fuel cur b md =
        some (b', md') ∧
      AgreeOn a' b' (ptr + cur) (ptr + total) ∧
      ∀ q, q < ptr + cur ∨ ptr + total ≤ q →
        a' q = a q ∧ b' q = b q := by
  induction es generalizing fuel cur a b md with
  | nil =>
      obtain ⟨fuel, rfl⟩ :=
        Nat.exists_eq_succ_of_ne_zero (Nat.ne_of_gt hFuel)
      have hEnd : ¬ cur < total := by
        have hZero : total - cur = 0 := hTiled
        omega
      refine ⟨a, b, md, ?_, ?_, hAgree, fun q _ =>
        ⟨rfl, rfl⟩⟩
      · rw [sanitizeEntries, if_neg hEnd]
      · rw [sanitizeEntries, if_neg hEnd]
  | cons e es ih =>
      rcases e with ⟨n, d⟩
      obtain ⟨fuel, rfl⟩ :=
        Nat.exists_eq_succ_of_ne_zero (Nat.ne_of_gt
          (Nat.lt_of_le_of_lt (Nat.zero_le _) hFuel))
      obtain ⟨hName, hData, hSome, hFits, hRest⟩ := hTiled
      obtain ⟨hName', hData'⟩ := EntryKind.lens_congr (k := k)
        (hAgree.mono (Nat.le_refl _)
          (by omega : ptr + cur + k.head ≤ ptr + total))
      have hMore : cur < total := by
        omega
      have hLoad : load b (ptr + cur + k.head) n =
          load a (ptr + cur + k.head) n := by
        apply load_congr
        intro i hi
        exact hAgree _ (by omega) (by omega)
      have hNonempty :
          load a (ptr + cur + k.head) n ≠ [] := by
        intro hNil
        have hLength := length_load a (ptr + cur + k.head) n
        rw [hNil] at hLength
        exact hSome hLength.symm
      obtain ⟨garbage, md₁, hGarbage, hLength⟩ :=
        garbageFor_spec s md hNonempty
      rw [length_load] at hLength
      have hOut : ∀ (c : Area) q, q < ptr + cur + k.head ∨
          ptr + cur + k.head + n ≤ q →
          store c (ptr + cur + k.head) garbage q = c q := by
        intro c q hq
        apply store_outside
        omega
      have hPlace : ptr + cur + (k.head + n + d) =
          ptr + (cur + (k.head + n + d)) := by
        omega
      rw [hPlace, Nat.sub_sub] at hRest
      obtain ⟨a', b', md', hRunA, hRunB, hSame, hFrame⟩ :=
        ih (a := store a (ptr + cur + k.head) garbage)
          (b := store b (ptr + cur + k.head) garbage)
          (cur + (k.head + n + d)) md₁ (by omega)
          (hRest.congr (fun q hq hq' =>
            hOut a q (Or.inr (by omega))))
          (by
            intro q hq hq'
            rw [hOut a q (Or.inr (by omega)),
              hOut b q (Or.inr (by omega))]
            exact hAgree q (by omega) hq')
          (Nat.lt_of_succ_lt_succ hFuel)
      refine ⟨a', b', md', ?_, ?_, ?_, ?_⟩
      · rw [sanitizeEntries, if_pos hMore]
        dsimp only
        rw [hName, hData, hGarbage]
        exact hRunA
      · rw [sanitizeEntries, if_pos hMore]
        dsimp only
        rw [hName', hData', hName, hData, hLoad, hGarbage]
        exact hRunB
      · intro q hq hq'
        by_cases hLater : ptr + (cur + (k.head + n + d)) ≤ q
        · exact hSame q hLater hq'
        · obtain ⟨hA, hB⟩ := hFrame q (Or.inl (by omega))
          rw [hA, hB]
          unfold store
          have hQ := hAgree q hq hq'
          split
          · rw [hQ]
          · exact hQ
      · intro q hq
        obtain ⟨hA, hB⟩ := hFrame q (by omega)
        rw [hA, hB]
        exact ⟨hOut a q (by omega), hOut b q (by omega)⟩

end Entries

----------
-- Leaves
----------

/-
  A leaf: its items stand behind each other from the end of
  the block on, and their entries fill them.
-/
structure WellFormedLeaf
    (a : Area)
    (len : Nat)
    (entries : Nat → List (Nat × Nat)) : Prop where
  above :
    ∀ i < headerNritems a,
      itemNrOffset (headerNritems a) ≤ itemPtr a i
  inside :
    ∀ i < headerNritems a,
      itemPtr a i + itemSizeNr a i ≤ len
  below :
    ∀ i j, i < j → j < headerNritems a →
      itemPtr a j + itemSizeNr a j ≤ itemPtr a i
  dirs :
    ∀ i < headerNritems a,
      itemType a i = DIR_ITEM_KEY ∨
          itemType a i = DIR_INDEX_KEY →
        Tiled dirItem a (itemPtr a i) (itemSizeNr a i)
          (entries i)
  refs :
    ∀ i < headerNritems a, itemType a i = INODE_REF_KEY →
      Tiled inodeRef a (itemPtr a i) (itemSizeNr a i)
        (entries i)
  extrefs :
    ∀ i < headerNritems a, itemType a i = INODE_EXTREF_KEY →
      Tiled inodeExtref a (itemPtr a i) (itemSizeNr a i)
        (entries i)
  xattrs :
    ∀ i < headerNritems a, itemType a i = XATTR_ITEM_KEY →
      Tiled dirItem a (itemPtr a i) (itemSizeNr a i)
          (entries i) ∧
        entries i ≠ []
  files :
    ∀ i < headerNritems a, itemType a i = EXTENT_DATA_KEY →
      21 ≤ itemSizeNr a i

/- A private place of an item. -/
def PrivateItem
    (a : Area)
    (entries : Nat → List (Nat × Nat))
    (i q : Nat) : Prop :=
  (itemType a i = EXTENT_DATA_KEY ∧
    number a (itemPtr a i + 20) 1 = FILE_EXTENT_INLINE ∧
    itemPtr a i + 21 ≤ q ∧
    q < itemPtr a i + itemSizeNr a i) ∨
  (itemType a i = XATTR_ITEM_KEY ∧
    InValues (itemPtr a i) (entries i) q)

/-
  The private places of a leaf: inline data, the values of
  attributes, and the space between headers and data.
-/
def PrivateLeaf
    (a : Area)
    (entries : Nat → List (Nat × Nat))
    (q : Nat) : Prop :=
  (itemNrOffset (headerNritems a) ≤ q ∧
    q < itemPtr a (headerNritems a - 1)) ∨
  ∃ i < headerNritems a, PrivateItem a entries i q

/- A place in a value after the first of an item. -/
def LaterItem
    (a : Area)
    (entries : Nat → List (Nat × Nat))
    (i q : Nat) : Prop :=
  itemType a i = XATTR_ITEM_KEY ∧
    InLaterValues (itemPtr a i) (entries i) q

section Leaf

variable {s : Setting} {a b : Area} {len : Nat}
variable {entries : Nat → List (Nat × Nat)}

/- The place is in the data of an item. -/
def InItem
    (a : Area)
    (i q : Nat) : Prop :=
  itemPtr a i ≤ q ∧ q < itemPtr a i + itemSizeNr a i

theorem PrivateItem.inItem
    {i q : Nat}
    (hLeaf : WellFormedLeaf a len entries)
    (hi : i < headerNritems a)
    (hPrivate : PrivateItem a entries i q) :
    InItem a i q := by
  unfold InItem
  rcases hPrivate with ⟨_, _, hLow, hHigh⟩ | ⟨hType, hIn⟩
  · omega
  · have hBounds := hIn.bounds (hLeaf.xattrs i hi hType).1
    omega

/- The data of two items are apart. -/
theorem WellFormedLeaf.apart
    {i j q : Nat}
    (hLeaf : WellFormedLeaf a len entries)
    (hi : i < headerNritems a)
    (hj : j < headerNritems a)
    (hInI : InItem a i q)
    (hInJ : InItem a j q) :
    i = j := by
  unfold InItem at hInI hInJ
  rcases Nat.lt_trichotomy i j with hLt | hEq | hGt
  · have hBelow := hLeaf.below i j hLt hj
    omega
  · exact hEq
  · have hBelow := hLeaf.below j i hGt hi
    omega

/- The last item is the lowest one. -/
theorem WellFormedLeaf.last_le
    {i : Nat}
    (hLeaf : WellFormedLeaf a len entries)
    (hi : i < headerNritems a) :
    itemPtr a (headerNritems a - 1) ≤ itemPtr a i := by
  by_cases hLast : i = headerNritems a - 1
  · rw [hLast]
  · have hBelow := hLeaf.below i (headerNritems a - 1)
      (by omega) (by omega)
    omega

/- A private place in an item is private for this item. -/
theorem privateItem_of_leaf
    {i q : Nat}
    (hLeaf : WellFormedLeaf a len entries)
    (hi : i < headerNritems a)
    (hIn : InItem a i q)
    (hPrivate : PrivateLeaf a entries q) :
    PrivateItem a entries i q := by
  rcases hPrivate with hGap | ⟨j, hj, hPrivate⟩
  · have hLast := hLeaf.last_le hi
    unfold InItem at hIn
    omega
  · have hEq := hLeaf.apart hi hj hIn
      (hPrivate.inItem hLeaf hj)
    rw [hEq]
    exact hPrivate

/- The headers are not private. -/
theorem not_private_header
    {q : Nat}
    (hLeaf : WellFormedLeaf a len entries)
    (hq : q < itemNrOffset (headerNritems a)) :
    ¬ PrivateLeaf a entries q := by
  rintro (hGap | ⟨i, hi, hPrivate⟩)
  · omega
  · have hIn := hPrivate.inItem hLeaf hi
    have hAbove := hLeaf.above i hi
    unfold InItem at hIn
    omega

/- The header of an item has the same bytes. -/
theorem item_congr
    {n i : Nat}
    (hi : i < n)
    (hAgree : AgreeOn a b 4 (itemNrOffset n)) :
    itemType b i = itemType a i ∧
      itemPtr b i = itemPtr a i ∧
      itemSizeNr b i = itemSizeNr a i := by
  have hSame : ∀ q < Leaves.ITEM_SIZE,
      leafData b (Leaves.ITEM_SIZE * i + q) =
        leafData a (Leaves.ITEM_SIZE * i + q) := by
    intro q hq
    have hMul : Leaves.ITEM_SIZE * (i + 1) ≤
        Leaves.ITEM_SIZE * n :=
      Nat.mul_le_mul_left _ hi
    rw [Nat.mul_succ] at hMul
    apply hAgree
    · unfold BLOCK_HEADER
      omega
    · unfold itemNrOffset
      omega
  unfold itemType itemPtr itemSizeNr
  rw [Leaves.itemKey_congr hSame,
    Leaves.itemOffset_congr hSame,
    Leaves.itemSize_congr hSame]
  exact ⟨rfl, rfl, rfl⟩

theorem zero_inside
    {p n q : Nat}
    (hLow : p ≤ q)
    (hHigh : q < p + n) :
    zero a p n q = 0 := by
  unfold zero store
  rw [if_pos hLow, List.getD_eq_getElem _ _ (by
    rw [List.length_replicate]
    omega), List.getElem_replicate]

theorem zero_outside
    {p n q : Nat}
    (hOut : q < p ∨ p + n ≤ q) :
    zero a p n q = a q := by
  apply store_outside
  rw [List.length_replicate]
  exact hOut

/-
  What a turn of the loop does to the copies of two leaves:
  only the item changes, and the copies agree there but for
  the values after the first, which are as they were.
-/
structure Cleaned
    (a b : Area)
    (entries : Nat → List (Nat × Nat))
    (i : Nat)
    (d e d' e' : Area) : Prop where
  frame : ∀ q, ¬ InItem a i q → d' q = d q ∧ e' q = e q
  same :
    ∀ q, InItem a i q → ¬ LaterItem a entries i q →
      e' q = d' q
  kept :
    ∀ q, InItem a i q → LaterItem a entries i q →
      d' q = a q ∧ e' q = b q

/- The leaves are the same but for the private places. -/
def SameLeaf
    (a b : Area)
    (len : Nat)
    (entries : Nat → List (Nat × Nat)) : Prop :=
  ∀ q, 4 ≤ q → q < len → ¬ PrivateLeaf a entries q → b q = a q

/- The copies of an item before its turn. -/
structure Untouched
    (a b d e : Area)
    (i : Nat) : Prop where
  headers :
    ∀ q < itemNrOffset (headerNritems a),
      d q = a q ∧ e q = b q
  item : ∀ q, InItem a i q → d q = a q ∧ e q = b q

section Turn

variable {d e : Area} {i : Nat}

/- A place of an item that is not private. -/
theorem same_in_item
    (hLeaf : WellFormedLeaf a len entries)
    (hSame : SameLeaf a b len entries)
    (hi : i < headerNritems a)
    {q : Nat}
    (hIn : InItem a i q)
    (hNot : ¬ PrivateItem a entries i q) :
    b q = a q := by
  have hAbove := hLeaf.above i hi
  have hInside := hLeaf.inside i hi
  apply hSame q
  · unfold InItem at hIn
    unfold itemNrOffset BLOCK_HEADER at hAbove
    omega
  · unfold InItem at hIn
    omega
  · intro hPrivate
    exact hNot (privateItem_of_leaf hLeaf hi hIn hPrivate)

/- A run of an item is set to zero in both copies. -/
theorem cleaned_zero
    (hLeaf : WellFormedLeaf a len entries)
    (hSame : SameLeaf a b len entries)
    (hi : i < headerNritems a)
    (hCopies : Untouched a b d e i)
    (hType : itemType a i ≠ XATTR_ITEM_KEY)
    {p n : Nat}
    (hLow : itemPtr a i ≤ p)
    (hHigh : p + n ≤ itemPtr a i + itemSizeNr a i)
    (hCovers :
      ∀ q, PrivateItem a entries i q → p ≤ q ∧ q < p + n) :
    Cleaned a b entries i d e (zero d p n) (zero e p n) := by
  constructor
  · intro q hOut
    unfold InItem at hOut
    exact ⟨zero_outside (by omega), zero_outside (by omega)⟩
  · intro q hIn _
    by_cases hZero : p ≤ q ∧ q < p + n
    · rw [zero_inside hZero.1 hZero.2,
        zero_inside hZero.1 hZero.2]
    · rw [zero_outside (by omega), zero_outside (by omega),
        (hCopies.item q hIn).1, (hCopies.item q hIn).2]
      exact same_in_item hLeaf hSame hi hIn
        (mt (hCovers q) hZero)
  · intro q _ hLater
    exact absurd hLater.1 hType

/- An item without private places stays as it is. -/
theorem cleaned_unchanged
    (hLeaf : WellFormedLeaf a len entries)
    (hSame : SameLeaf a b len entries)
    (hi : i < headerNritems a)
    (hCopies : Untouched a b d e i)
    (hType : itemType a i ≠ XATTR_ITEM_KEY)
    (hNone : ∀ q, ¬ PrivateItem a entries i q) :
    Cleaned a b entries i d e d e := by
  constructor
  · intro q _
    exact ⟨rfl, rfl⟩
  · intro q hIn _
    rw [(hCopies.item q hIn).1, (hCopies.item q hIn).2]
    exact same_in_item hLeaf hSame hi hIn (hNone q)
  · intro q _ hLater
    exact absurd hLater.1 hType

/- The names of an item are written over in both copies. -/
theorem cleaned_entries
    (s : Setting)
    (k : EntryKind)
    (md : NameState)
    (hLeaf : WellFormedLeaf a len entries)
    (hSame : SameLeaf a b len entries)
    (hi : i < headerNritems a)
    (hCopies : Untouched a b d e i)
    (hTiled :
      Tiled k a (itemPtr a i) (itemSizeNr a i) (entries i))
    (hType : itemType a i ≠ XATTR_ITEM_KEY)
    (hFile : itemType a i ≠ EXTENT_DATA_KEY) :
    ∃ d' e' md',
      sanitizeEntries s k (itemPtr a i) (itemSizeNr a i)
          (itemSizeNr a i + 1) 0 d md = some (d', md') ∧
      sanitizeEntries s k (itemPtr a i) (itemSizeNr a i)
          (itemSizeNr a i + 1) 0 e md = some (e', md') ∧
      Cleaned a b entries i d e d' e' := by
  have hCopy : AgreeOn a d (itemPtr a i)
      (itemPtr a i + itemSizeNr a i) := by
    intro q hLow hHigh
    exact (hCopies.item q ⟨hLow, hHigh⟩).1
  have hBoth : AgreeOn d e (itemPtr a i)
      (itemPtr a i + itemSizeNr a i) := by
    intro q hLow hHigh
    rw [(hCopies.item q ⟨hLow, hHigh⟩).1,
      (hCopies.item q ⟨hLow, hHigh⟩).2]
    apply same_in_item hLeaf hSame hi ⟨hLow, hHigh⟩
    rintro (hPrivate | hPrivate)
    · exact hFile hPrivate.1
    · exact hType hPrivate.1
  have hLength := hTiled.length_le
  obtain ⟨d', e', md', hRunD, hRunE, hAgree, hFrame⟩ :=
    sanitizeEntries_spec s (itemPtr a i) (itemSizeNr a i) 0
      md (Nat.zero_le _)
      (hTiled.congr hCopy) hBoth
      (by omega : (entries i).length < itemSizeNr a i + 1)
  refine ⟨d', e', md', hRunD, hRunE, ?_, ?_, ?_⟩
  · intro q hOut
    apply hFrame
    unfold InItem at hOut
    omega
  · intro q hIn _
    exact hAgree q hIn.1 hIn.2
  · intro q _ hLater
    exact absurd hLater.1 hType

/- The first value of an item is set to zero in both copies. -/
theorem cleaned_xattr
    (hLeaf : WellFormedLeaf a len entries)
    (hSame : SameLeaf a b len entries)
    (hi : i < headerNritems a)
    (hCopies : Untouched a b d e i)
    (hType : itemType a i = XATTR_ITEM_KEY)
    (hPtr : itemPtr d i = itemPtr a i)
    (hPtr' : itemPtr e i = itemPtr a i) :
    Cleaned a b entries i d e (sanitizeXattr d i)
      (sanitizeXattr e i) := by
  obtain ⟨hTiled, hSome⟩ := hLeaf.xattrs i hi hType
  obtain ⟨⟨n, dl⟩, es, hEntries⟩ :=
    List.exists_cons_of_ne_nil hSome
  rw [hEntries] at hTiled
  have hTiled' := hTiled
  obtain ⟨hName, hData, _, hFits, hRest⟩ := hTiled
  have hNotHead : ∀ q, itemPtr a i ≤ q →
      q < itemPtr a i + dirItem.head →
        ¬ PrivateItem a entries i q := by
    rintro q hLow hHigh (⟨hFile, _⟩ | ⟨_, hIn⟩)
    · rw [hType] at hFile
      exact absurd hFile (by decide)
    · rw [hEntries] at hIn
      have hBounds := hIn.bounds hTiled'
      omega
  have hHeadIn : ∀ q, itemPtr a i ≤ q →
      q < itemPtr a i + dirItem.head → InItem a i q := by
    intro q hLow hHigh
    exact ⟨hLow, by omega⟩
  obtain ⟨hNameD, hDataD⟩ := EntryKind.lens_congr
    (k := dirItem) (a := a) (b := d) (p := itemPtr a i)
    (fun q hLow hHigh =>
      (hCopies.item q (hHeadIn q hLow hHigh)).1)
  obtain ⟨hNameE, hDataE⟩ := EntryKind.lens_congr
    (k := dirItem) (a := a) (b := e) (p := itemPtr a i)
    (fun q hLow hHigh => by
      rw [(hCopies.item q (hHeadIn q hLow hHigh)).2]
      exact same_in_item hLeaf hSame hi
        (hHeadIn q hLow hHigh) (hNotHead q hLow hHigh))
  unfold sanitizeXattr
  rw [hPtr, hPtr']
  dsimp only
  rw [hNameD, hDataD, hNameE, hDataE, hName,
    hData]
  have hPlaces : ∀ q, LaterItem a entries i q →
      itemPtr a i + dirItem.head + n + dl ≤ q := by
    rintro q ⟨_, hLater⟩
    rw [hEntries] at hLater
    have hBounds := InValues.bounds hRest hLater
    omega
  constructor
  · intro q hOut
    unfold InItem at hOut
    exact ⟨zero_outside (by omega), zero_outside (by omega)⟩
  · intro q hIn hNot
    by_cases hZero : itemPtr a i + dirItem.head + n ≤ q ∧
        q < itemPtr a i + dirItem.head + n + dl
    · rw [zero_inside hZero.1 hZero.2,
        zero_inside hZero.1 hZero.2]
    · rw [zero_outside (by omega), zero_outside (by omega),
        (hCopies.item q hIn).1, (hCopies.item q hIn).2]
      apply same_in_item hLeaf hSame hi hIn
      rintro (⟨hFile, _⟩ | ⟨_, hValue⟩)
      · rw [hType] at hFile
        exact absurd hFile (by decide)
      · rw [hEntries] at hValue
        rcases hValue with hValue | hValue
        · omega
        · apply hNot
          refine ⟨hType, ?_⟩
          rw [hEntries]
          exact hValue
  · intro q hIn hLater
    have hPlace := hPlaces q hLater
    rw [zero_outside (by omega), zero_outside (by omega)]
    exact hCopies.item q hIn

end Turn

----------
-- All Items of a Leaf
----------

section Items

variable {d e : Area} {i : Nat}

/- The headers of the two leaves are the same. -/
theorem SameLeaf.headers
    (hLeaf : WellFormedLeaf a len entries)
    (hSame : SameLeaf a b len entries)
    (hi : i < headerNritems a) :
    AgreeOn a b 4 (itemNrOffset (headerNritems a)) := by
  have hAbove := hLeaf.above i hi
  have hInside := hLeaf.inside i hi
  intro q hLow hHigh
  exact hSame q hLow (by omega)
    (not_private_header hLeaf hHigh)

/- The headers of the copies are those of the leaf. -/
theorem Untouched.item_eq
    (hLeaf : WellFormedLeaf a len entries)
    (hSame : SameLeaf a b len entries)
    (hi : i < headerNritems a)
    (hCopies : Untouched a b d e i) :
    itemPtr d i = itemPtr a i ∧ itemPtr e i = itemPtr a i ∧
      itemSizeNr d i = itemSizeNr a i ∧
      itemSizeNr e i = itemSizeNr a i := by
  have hFirst : AgreeOn a d 4
      (itemNrOffset (headerNritems a)) := by
    intro q _ hHigh
    exact (hCopies.headers q hHigh).1
  have hSecond : AgreeOn a e 4
      (itemNrOffset (headerNritems a)) := by
    intro q hLow hHigh
    rw [(hCopies.headers q hHigh).2]
    exact hSame.headers hLeaf hi q hLow hHigh
  obtain ⟨_, hPtr, hSize⟩ := item_congr hi hFirst
  obtain ⟨_, hPtr', hSize'⟩ := item_congr hi hSecond
  exact ⟨hPtr, hPtr', hSize, hSize'⟩

theorem sanitizeName_spec
    (s : Setting)
    (md : NameState)
    (hLeaf : WellFormedLeaf a len entries)
    (hSame : SameLeaf a b len entries)
    (hi : i < headerNritems a)
    (hCopies : Untouched a b d e i)
    (hName : hasName (itemType a i) = true) :
    ∃ d' e' md',
      sanitizeName s d (itemType a i) i md =
        some (d', md') ∧
      sanitizeName s e (itemType a i) i md =
        some (e', md') ∧
      Cleaned a b entries i d e d' e' := by
  obtain ⟨hPtr, hPtr', hSize, hSize'⟩ :=
    hCopies.item_eq hLeaf hSame hi
  unfold sanitizeName
  by_cases hDir : itemType a i = DIR_ITEM_KEY ∨
      itemType a i = DIR_INDEX_KEY
  · rw [if_pos hDir, if_pos hDir]
    unfold sanitizeDirItem
    rw [hPtr, hPtr', hSize, hSize']
    apply cleaned_entries s dirItem md hLeaf hSame hi hCopies
      (hLeaf.dirs i hi hDir)
    · rcases hDir with hDir | hDir <;> rw [hDir] <;> decide
    · rcases hDir with hDir | hDir <;> rw [hDir] <;> decide
  rw [if_neg hDir, if_neg hDir]
  by_cases hRef : itemType a i = INODE_REF_KEY
  · rw [if_pos hRef, if_pos hRef]
    unfold sanitizeInodeRef
    rw [hPtr, hPtr', hSize, hSize']
    apply cleaned_entries s inodeRef md hLeaf hSame hi hCopies
      (hLeaf.refs i hi hRef)
    · rw [hRef]
      decide
    · rw [hRef]
      decide
  rw [if_neg hRef, if_neg hRef]
  by_cases hExt : itemType a i = INODE_EXTREF_KEY
  · rw [if_pos hExt, if_pos hExt]
    unfold sanitizeInodeRef
    rw [hPtr, hPtr', hSize, hSize']
    apply cleaned_entries s inodeExtref md hLeaf hSame hi
      hCopies (hLeaf.extrefs i hi hExt)
    · rw [hExt]
      decide
    · rw [hExt]
      decide
  rw [if_neg hExt, if_neg hExt]
  have hXattr : itemType a i = XATTR_ITEM_KEY := by
    unfold hasName at hName
    simpa [not_or.mp hDir, hRef, hExt] using hName
  rw [if_pos hXattr, if_pos hXattr]
  exact ⟨_, _, md, rfl, rfl, cleaned_xattr hLeaf hSame hi
    hCopies hXattr hPtr hPtr'⟩

/- One turn of the loop, for two leaves. -/
theorem zeroItem_spec
    (s : Setting)
    (md : NameState)
    (hSanitize : s.sanitizeNames ≠ 0)
    (hLeaf : WellFormedLeaf a len entries)
    (hSame : SameLeaf a b len entries)
    (hi : i < headerNritems a)
    (hCopies : Untouched a b d e i) :
    ∃ d' e' md',
      zeroItem s a i (d, md) = some (d', md') ∧
      zeroItem s b i (e, md) = some (e', md') ∧
      Cleaned a b entries i d e d' e' := by
  obtain ⟨hType, hPtr, hSize⟩ :=
    item_congr hi (hSame.headers hLeaf hi)
  unfold zeroItem
  dsimp only
  rw [hType, hPtr, hSize]
  by_cases hCsum : itemType a i = CSUM_ITEM_KEY
  · rw [if_pos hCsum, if_pos hCsum]
    refine ⟨_, _, md, rfl, rfl, ?_⟩
    apply cleaned_zero hLeaf hSame hi hCopies (by
      rw [hCsum]
      decide) (Nat.le_refl _) (Nat.le_refl _)
    intro q hPrivate
    exact hPrivate.inItem hLeaf hi
  rw [if_neg hCsum, if_neg hCsum]
  by_cases hName : hasName (itemType a i) = true
  · rw [if_pos ⟨hSanitize, hName⟩, if_pos ⟨hSanitize, hName⟩]
    exact sanitizeName_spec s md hLeaf hSame hi hCopies hName
  have hNot : ¬ (s.sanitizeNames ≠ 0 ∧
      hasName (itemType a i) = true) := by
    intro hBoth
    exact hName hBoth.2
  rw [if_neg hNot, if_neg hNot]
  have hXattr : itemType a i ≠ XATTR_ITEM_KEY := by
    intro hEq
    exact hName (by rw [hEq]; decide)
  by_cases hFile : itemType a i = EXTENT_DATA_KEY
  · rw [if_neg (not_not.mpr hFile), if_neg (not_not.mpr hFile)]
    have hLarge := hLeaf.files i hi hFile
    have hKind : number b (itemPtr a i + 20) 1 =
        number a (itemPtr a i + 20) 1 := by
      apply number_congr
      intro q hLow hHigh
      apply same_in_item hLeaf hSame hi
        (⟨by omega, by omega⟩ : InItem a i q)
      rintro (⟨_, _, hPast, _⟩ | ⟨hEq, _⟩)
      · omega
      · exact hXattr hEq
    rw [hKind]
    by_cases hInline : number a (itemPtr a i + 20) 1 =
        FILE_EXTENT_INLINE
    · rw [if_neg (not_not.mpr hInline),
        if_neg (not_not.mpr hInline)]
      have hLt : itemSizeNr a i < 2 ^ 32 := by
        have hDecode := LittleEndian.decode_lt
          (load (leafData a) (Leaves.ITEM_SIZE * i + 21) 4)
        rw [length_load] at hDecode
        exact hDecode
      have hMod : (itemSizeNr a i + 2 ^ 32 - 21) % 2 ^ 32 =
          itemSizeNr a i - 21 := by
        omega
      rw [hMod]
      refine ⟨_, _, md, rfl, rfl, ?_⟩
      apply cleaned_zero hLeaf hSame hi hCopies hXattr
        (by omega) (by omega)
      rintro q (⟨_, _, hLow, hHigh⟩ | ⟨hEq, _⟩)
      · omega
      · exact absurd hEq hXattr
    · rw [if_pos hInline, if_pos hInline]
      refine ⟨_, _, md, rfl, rfl, ?_⟩
      apply cleaned_unchanged hLeaf hSame hi hCopies hXattr
      rintro q (⟨_, hEq, _⟩ | ⟨hEq, _⟩)
      · exact hInline hEq
      · exact hXattr hEq
  · rw [if_pos hFile, if_pos hFile]
    refine ⟨_, _, md, rfl, rfl, ?_⟩
    apply cleaned_unchanged hLeaf hSame hi hCopies hXattr
    rintro q (⟨hEq, _⟩ | ⟨hEq, _⟩)
    · exact hFile hEq
    · exact hXattr hEq

/-
  The loop over the items, for two leaves: what every item of
  the copies has after its turn.
-/
theorem zeroItems_spec
    (s : Setting)
    (md : NameState)
    (hSanitize : s.sanitizeNames ≠ 0)
    (hLeaf : WellFormedLeaf a len entries)
    (hSame : SameLeaf a b len entries)
    (hStart : ∀ j < headerNritems a, Untouched a b d e j)
    (hi : i ≤ headerNritems a) :
    ∃ d' e' md',
      zeroItems s a i (d, md) = some (d', md') ∧
      zeroItems s b i (e, md) = some (e', md') ∧
      (∀ q, (∀ j < i, ¬ InItem a j q) →
        d' q = d q ∧ e' q = e q) ∧
      ∀ j < i, ∀ q, InItem a j q →
        (¬ LaterItem a entries j q → e' q = d' q) ∧
        (LaterItem a entries j q → d' q = a q ∧ e' q = b q) := by
  induction i with
  | zero =>
      exact ⟨d, e, md, rfl, rfl, fun q _ => ⟨rfl, rfl⟩,
        fun j hj => absurd hj (Nat.not_lt_zero j)⟩
  | succ i ih =>
      obtain ⟨d₁, e₁, md₁, hRunD, hRunE, hFrame, hDone⟩ :=
        ih (by omega)
      -- the items before this one do not reach it
      have hApart : ∀ q, InItem a i q →
          ∀ j < i, ¬ InItem a j q := by
        intro q hIn j hj hIn'
        have hEq := hLeaf.apart hi (by omega) hIn hIn'
        omega
      have hAway : ∀ q < itemNrOffset (headerNritems a),
          ∀ j < i, ¬ InItem a j q := by
        intro q hq j hj hIn
        have hAbove := hLeaf.above j (by omega)
        unfold InItem at hIn
        omega
      have hCopies : Untouched a b d₁ e₁ i := by
        constructor
        · intro q hq
          rw [(hFrame q (hAway q hq)).1,
            (hFrame q (hAway q hq)).2]
          exact (hStart i hi).headers q hq
        · intro q hIn
          rw [(hFrame q (hApart q hIn)).1,
            (hFrame q (hApart q hIn)).2]
          exact (hStart i hi).item q hIn
      obtain ⟨d', e', md', hTurnD, hTurnE, hCleaned⟩ :=
        zeroItem_spec s md₁ hSanitize hLeaf hSame hi hCopies
      refine ⟨d', e', md', ?_, ?_, ?_, ?_⟩
      · rw [zeroItems, hRunD]
        exact hTurnD
      · rw [zeroItems, hRunE]
        exact hTurnE
      · intro q hOut
        rw [(hCleaned.frame q (hOut i (Nat.lt_succ_self i))).1,
          (hCleaned.frame q (hOut i (Nat.lt_succ_self i))).2]
        exact hFrame q fun j hj => hOut j (by omega)
      · intro j hj q hIn
        by_cases hEq : j = i
        · rw [hEq] at hIn ⊢
          exact ⟨hCleaned.same q hIn, hCleaned.kept q hIn⟩
        · have hOther : ¬ InItem a i q := by
            intro hIn'
            exact hEq (hLeaf.apart (by omega) hi hIn hIn')
          rw [(hCleaned.frame q hOther).1,
            (hCleaned.frame q hOther).2]
          exact hDone j (by omega) q hIn

/- A later value is in its item. -/
theorem LaterItem.inItem
    {q : Nat}
    (hLeaf : WellFormedLeaf a len entries)
    (hi : i < headerNritems a)
    (hLater : LaterItem a entries i q) :
    InItem a i q := by
  apply PrivateItem.inItem hLeaf hi
  refine Or.inr ⟨hLater.1, ?_⟩
  have hIn := hLater.2
  unfold InLaterValues at hIn
  split at hIn
  · cases hIn
  · rename_i hEntries
    rw [hEntries]
    exact Or.inr hIn

end Items

end Leaf

----------
-- Blocks
----------

/- A leaf or a node, with the entries of its items. -/
structure WellFormed
    (eb : ExtentBuffer)
    (entries : Nat → List (Nat × Nat)) : Prop where
  place : eb.start ≠ 65536
  header : BLOCK_HEADER ≤ eb.len
  leaf :
    headerNritems eb.data ≠ 0 → headerLevel eb.data = 0 →
      WellFormedLeaf eb.data eb.len entries
  node :
    headerNritems eb.data ≠ 0 → headerLevel eb.data ≠ 0 →
      BLOCK_HEADER + KEY_PTR_SIZE * headerNritems eb.data ≤
        eb.len

/-
  The private places of a block: those of a leaf, or what is
  behind the pointers of a node.
-/
def Private
    (eb : ExtentBuffer)
    (entries : Nat → List (Nat × Nat))
    (q : Nat) : Prop :=
  if headerNritems eb.data = 0 then BLOCK_HEADER ≤ q
  else if headerLevel eb.data = 0 then
    PrivateLeaf eb.data entries q
  else BLOCK_HEADER + KEY_PTR_SIZE * headerNritems eb.data ≤ q

/-
  Two blocks that are the same but for the private places and
  the checksum.
-/
structure SameExceptPrivate
    (x y : ExtentBuffer)
    (entries : Nat → List (Nat × Nat)) : Prop where
  start : y.start = x.start
  len : y.len = x.len
  bytes :
    ∀ q, 4 ≤ q → q < x.len → ¬ Private x entries q →
      y.data q = x.data q

/- A place in a value after the first of some item. -/
def LaterValue
    (eb : ExtentBuffer)
    (entries : Nat → List (Nat × Nat))
    (q : Nat) : Prop :=
  headerNritems eb.data ≠ 0 ∧ headerLevel eb.data = 0 ∧
    ∃ i < headerNritems eb.data,
      LaterItem eb.data entries i q

theorem load_eq_iff
    {a b : Area}
    {n : Nat} :
    load b 0 n = load a 0 n ↔ ∀ q < n, b q = a q := by
  constructor
  · intro hEq q hq
    have hAt := congrArg (fun bytes => bytes[q]?) hEq
    simpa [getElem?_load _ _ hq] using hAt
  · intro hEq
    apply load_congr
    intro i hi
    rw [Nat.zero_add]
    exact hEq i hi

/- The checksum depends on the other bytes only. -/
theorem csumBlock_eq_iff
    {a b : Area}
    {len : Nat} :
    load (csumBlock b len) 0 len = load (csumBlock a len) 0 len ↔
      ∀ q, 4 ≤ q → q < len → b q = a q := by
  have hBehind : ∀ (c : Area) q, 4 ≤ q →
      csumBlock c len q = c q := by
    intro c q hq
    apply store_outside
    rw [LittleEndian.length_encode]
    exact Or.inr (by omega)
  rw [load_eq_iff]
  constructor
  · intro hEq q hLow hHigh
    have hAt := hEq q hHigh
    rw [hBehind b q hLow, hBehind a q hLow] at hAt
    exact hAt
  · intro hEq q hq
    by_cases hLow : 4 ≤ q
    · rw [hBehind b q hLow, hBehind a q hLow]
      exact hEq q hLow hq
    · have hSum : load b 32 (len - 32) =
          load a 32 (len - 32) := by
        apply load_congr
        intro i hi
        exact hEq (32 + i) (by omega) (by omega)
      unfold csumBlock store
      rw [hSum, if_pos (Nat.zero_le q),
        if_pos (Nat.zero_le q),
        List.getD_eq_getElem _ _ (by
          rw [LittleEndian.length_encode]
          omega), List.getD_eq_getElem _ _ (by
          rw [LittleEndian.length_encode]
          omega)]

/- Blocks that are zero from some place on. -/
theorem csumBlock_zero_tail
    {a b : Area}
    {p : Nat}
    (len : Nat)
    (hEq : ∀ q, 4 ≤ q → q < p → b q = a q) :
    load (csumBlock (zero b p (len - p)) len) 0 len =
      load (csumBlock (zero a p (len - p)) len) 0 len := by
  rw [csumBlock_eq_iff]
  intro q hLow hHigh
  by_cases hIn : p ≤ q
  · rw [zero_inside hIn (by omega), zero_inside hIn (by omega)]
  · rw [zero_outside (by omega), zero_outside (by omega)]
    exact hEq q hLow (by omega)

/- The space between headers and data as it is computed. -/
theorem gap_size
    {a : Area}
    {n i : Nat}
    (hGap : itemNrOffset n ≤ itemPtr a i) :
    (itemPtr a i + 2 ^ 64 - itemNrOffset n) % 2 ^ 64 =
      itemPtr a i - itemNrOffset n := by
  have hLt : itemPtr a i < 2 ^ 64 := by
    have hDecode := LittleEndian.decode_lt
      (load (leafData a) (Leaves.ITEM_SIZE * i + 17) 4)
    rw [length_load] at hDecode
    unfold itemPtr Leaves.itemOffset BLOCK_HEADER
    omega
  omega

section Block

variable {x y : ExtentBuffer}
variable {entries : Nat → List (Nat × Nat)}

/- The headers of the blocks are the same. -/
theorem SameExceptPrivate.header
    (hWell : WellFormed x entries)
    (hSame : SameExceptPrivate x y entries) :
    headerNritems y.data = headerNritems x.data ∧
      headerLevel y.data = headerLevel x.data := by
  have hAgree : AgreeOn x.data y.data 4 BLOCK_HEADER := by
    intro q hLow hHigh
    have hHeader := hWell.header
    apply hSame.bytes q hLow (by omega)
    unfold Private
    by_cases hZero : headerNritems x.data = 0
    · rw [if_pos hZero]
      omega
    · rw [if_neg hZero]
      by_cases hLevel : headerLevel x.data = 0
      · rw [if_pos hLevel]
        apply not_private_header (hWell.leaf hZero hLevel)
        unfold itemNrOffset
        omega
      · rw [if_neg hLevel]
        omega
  have hBound : BLOCK_HEADER = 101 := rfl
  exact ⟨number_congr (hAgree.mono (by omega) (by omega)),
    number_congr (hAgree.mono (by omega) (by omega))⟩

/- The copies of two leaves before their checksums. -/
theorem zeroItems_leaf
    (s : Setting)
    (md : NameState)
    {a b : Area}
    {len : Nat}
    (hSanitize : s.sanitizeNames ≠ 0)
    (hSome : headerNritems a ≠ 0)
    (hLeaf : WellFormedLeaf a len entries)
    (hSame : SameLeaf a b len entries) :
    ∃ d e md',
      zeroItems s a (headerNritems a)
          (zero a (itemNrOffset (headerNritems a))
            (itemPtr a (headerNritems a - 1) -
              itemNrOffset (headerNritems a)), md) =
        some (d, md') ∧
      zeroItems s b (headerNritems a)
          (zero b (itemNrOffset (headerNritems a))
            (itemPtr a (headerNritems a - 1) -
              itemNrOffset (headerNritems a)), md) =
        some (e, md') ∧
      ((∀ q, 4 ≤ q → q < len → e q = d q) ↔
        ∀ i < headerNritems a, ∀ q,
          LaterItem a entries i q → b q = a q) := by
  have hGap := hLeaf.above (headerNritems a - 1) (by omega)
  have hStart : ∀ j < headerNritems a, Untouched a b
      (zero a (itemNrOffset (headerNritems a))
        (itemPtr a (headerNritems a - 1) -
          itemNrOffset (headerNritems a)))
      (zero b (itemNrOffset (headerNritems a))
        (itemPtr a (headerNritems a - 1) -
          itemNrOffset (headerNritems a))) j := by
    intro j hj
    have hLast := hLeaf.last_le hj
    constructor
    · intro q hq
      exact ⟨zero_outside (Or.inl hq),
        zero_outside (Or.inl hq)⟩
    · intro q hIn
      unfold InItem at hIn
      exact ⟨zero_outside (by omega),
        zero_outside (by omega)⟩
  obtain ⟨d, e, md', hRunD, hRunE, hFrame, hDone⟩ :=
    zeroItems_spec s md hSanitize hLeaf hSame hStart
      (Nat.le_refl _)
  refine ⟨d, e, md', hRunD, hRunE, ?_, ?_⟩
  · intro hEq i hi q hLater
    have hIn := hLater.inItem hLeaf hi
    obtain ⟨hd, he⟩ := (hDone i hi q hIn).2 hLater
    have hInside := hLeaf.inside i hi
    have hAbove := hLeaf.above i hi
    rw [← hd, ← he]
    unfold InItem at hIn
    unfold itemNrOffset BLOCK_HEADER at hAbove
    exact hEq q (by omega) (by omega)
  · intro hLater q hLow hHigh
    by_cases hItem : ∃ j < headerNritems a, InItem a j q
    · obtain ⟨j, hj, hIn⟩ := hItem
      by_cases hLate : LaterItem a entries j q
      · obtain ⟨hd, he⟩ := (hDone j hj q hIn).2 hLate
        rw [hd, he]
        exact hLater j hj q hLate
      · exact (hDone j hj q hIn).1 hLate
    · have hOut : ∀ j < headerNritems a, ¬ InItem a j q := by
        intro j hj hIn
        exact hItem ⟨j, hj, hIn⟩
      rw [(hFrame q hOut).1, (hFrame q hOut).2]
      by_cases hZero : itemNrOffset (headerNritems a) ≤ q ∧
          q < itemPtr a (headerNritems a - 1)
      · rw [zero_inside hZero.1 (by omega),
          zero_inside hZero.1 (by omega)]
      · rw [zero_outside (by omega), zero_outside (by omega)]
        apply hSame q hLow hHigh
        rintro (hPrivate | ⟨j, hj, hPrivate⟩)
        · exact hZero hPrivate
        · exact hOut j hj (hPrivate.inItem hLeaf hj)

/-
  The copies of two blocks, and when they are the same.
-/
theorem copyBuffer_pair
    (s : Setting)
    (md : NameState)
    (hSanitize : s.sanitizeNames ≠ 0)
    (hWell : WellFormed x entries)
    (hSame : SameExceptPrivate x y entries) :
    ∃ xs ys md',
      copyBuffer s md x = some (xs, md') ∧
      copyBuffer s md y = some (ys, md') ∧
      (ys = xs ↔
        ∀ q, LaterValue x entries q → y.data q = x.data q) := by
  obtain ⟨hCount, hLevel⟩ := hSame.header hWell
  have hHeader := hWell.header
  unfold copyBuffer
  rw [hSame.start, hSame.len, hCount, hLevel,
    if_neg hWell.place, if_neg hWell.place]
  dsimp only
  by_cases hZero : headerNritems x.data = 0
  · rw [if_pos hZero, if_pos hZero, Option.map_some,
      Option.map_some]
    refine ⟨_, _, md, rfl, rfl, ?_⟩
    have hAgree : ∀ q, 4 ≤ q → q < BLOCK_HEADER →
        y.data q = x.data q := by
      intro q hLow hHigh
      apply hSame.bytes q hLow (by omega)
      unfold Private
      rw [if_pos hZero]
      omega
    exact ⟨fun _ q hLater => absurd hZero hLater.1,
      fun _ => csumBlock_zero_tail x.len hAgree⟩
  rw [if_neg hZero, if_neg hZero]
  by_cases hLeafLevel : headerLevel x.data = 0
  · rw [if_pos hLeafLevel, if_pos hLeafLevel]
    have hLeaf := hWell.leaf hZero hLeafLevel
    have hSameLeaf : SameLeaf x.data y.data x.len entries := by
      intro q hLow hHigh hNot
      apply hSame.bytes q hLow hHigh
      unfold Private
      rw [if_neg hZero, if_pos hLeafLevel]
      exact hNot
    have hGap := hLeaf.above (headerNritems x.data - 1)
      (by omega)
    have hPtr := (item_congr
      (by omega : headerNritems x.data - 1 <
        headerNritems x.data)
      (hSameLeaf.headers hLeaf
        (Nat.pos_of_ne_zero hZero))).2.1
    rw [hPtr, gap_size hGap]
    obtain ⟨d, e, md', hRunD, hRunE, hIff⟩ :=
      zeroItems_leaf s md hSanitize hZero hLeaf hSameLeaf
    rw [hRunD, hRunE, Option.map_some, Option.map_some]
    refine ⟨_, _, md', rfl, rfl, ?_⟩
    rw [csumBlock_eq_iff, hIff]
    constructor
    · rintro hAll q ⟨_, _, i, hi, hLate⟩
      exact hAll i hi q hLate
    · intro hAll i hi q hLate
      exact hAll q ⟨hZero, hLeafLevel, i, hi, hLate⟩
  · rw [if_neg hLeafLevel, if_neg hLeafLevel,
      Option.map_some, Option.map_some]
    have hNode := hWell.node hZero hLeafLevel
    refine ⟨_, _, md, rfl, rfl, ?_⟩
    have hAgree : ∀ q, 4 ≤ q → q < BLOCK_HEADER +
        KEY_PTR_SIZE * headerNritems x.data →
        y.data q = x.data q := by
      intro q hLow hHigh
      apply hSame.bytes q hLow (by omega)
      unfold Private
      rw [if_neg hZero, if_neg hLeafLevel]
      omega
    constructor
    · intro _ q hLater
      exact absurd hLater.2.1 hLeafLevel
    · intro _
      dsimp only
      exact csumBlock_zero_tail x.len hAgree

/-
  The copies of two blocks are the same exactly if the values
  of the attributes after the first of each item are.
-/
theorem copyBuffer_same_iff
    (s : Setting)
    (md : NameState)
    (hSanitize : s.sanitizeNames ≠ 0)
    (hWell : WellFormed x entries)
    (hSame : SameExceptPrivate x y entries) :
    (∃ res, copyBuffer s md x = some res ∧
        copyBuffer s md y = some res) ↔
      ∀ q, LaterValue x entries q → y.data q = x.data q := by
  obtain ⟨xs, ys, md', hx, hy, hIff⟩ :=
    copyBuffer_pair s md hSanitize hWell hSame
  rw [hx, hy, ← hIff]
  constructor
  · rintro ⟨res, hFirst, hSecond⟩
    rw [← hFirst] at hSecond
    exact congrArg Prod.fst (Option.some.inj hSecond)
  · intro hEq
    exact ⟨_, rfl, by rw [hEq]⟩

/-
  A leaf of 256 bytes with one item that has two attributes,
  each with a value of one byte.
-/
def twoValues
    (v w : UInt8) : ExtentBuffer where
  start := 1048576
  len := 256
  data q :=
    if q = 96 then 1
    else if q = 109 then 24
    else if q = 118 then 91
    else if q = 122 then 64
    else if q = 217 ∨ q = 219 ∨ q = 249 ∨ q = 251 then 1
    else if q = 223 then v
    else if q = 255 then w
    else 0

/- Both attributes have a name of one byte. -/
def twoEntries : Nat → List (Nat × Nat) :=
  fun _ => [(1, 1), (1, 1)]

section TwoValues

variable (v w : UInt8)

theorem twoValues_nritems :
    headerNritems (twoValues v w).data = 1 :=
  rfl

theorem twoValues_level :
    headerLevel (twoValues v w).data = 0 :=
  rfl

theorem twoValues_type :
    itemType (twoValues v w).data 0 = XATTR_ITEM_KEY :=
  rfl

theorem twoValues_ptr :
    itemPtr (twoValues v w).data 0 = 192 :=
  rfl

theorem twoValues_size :
    itemSizeNr (twoValues v w).data 0 = 64 :=
  rfl

theorem twoValues_wellFormed :
    WellFormed (twoValues v w) twoEntries := by
  have hTiled : Tiled dirItem (twoValues v w).data 192 64
      (twoEntries 0) :=
    ⟨rfl, rfl, by decide, by decide, rfl, rfl, by decide,
      by decide, rfl⟩
  have hType := twoValues_type v w
  have hPtr := twoValues_ptr v w
  have hSize := twoValues_size v w
  refine ⟨(by decide : 1048576 ≠ 65536),
    (by decide : BLOCK_HEADER ≤ 256), ?_, ?_⟩
  · intro _ _
    constructor
    all_goals rw [twoValues_nritems]
    · intro i hi
      rw [Nat.lt_one_iff.mp hi, hPtr]
      decide
    · intro i hi
      rw [Nat.lt_one_iff.mp hi, hPtr, hSize]
      exact (by decide : 192 + 64 ≤ 256)
    · intro i j hij hj
      omega
    · intro i hi hOther
      rw [Nat.lt_one_iff.mp hi, hType] at hOther
      exact absurd hOther (by decide)
    · intro i hi hOther
      rw [Nat.lt_one_iff.mp hi, hType] at hOther
      exact absurd hOther (by decide)
    · intro i hi hOther
      rw [Nat.lt_one_iff.mp hi, hType] at hOther
      exact absurd hOther (by decide)
    · intro i hi _
      rw [Nat.lt_one_iff.mp hi, hPtr, hSize]
      exact ⟨hTiled, by decide⟩
    · intro i hi hOther
      rw [Nat.lt_one_iff.mp hi, hType] at hOther
      exact absurd hOther (by decide)
  · intro _ hLevel
    exact absurd (twoValues_level v w) hLevel

/- The two values are private, the second a later one. -/
theorem twoValues_later
    (q : Nat) :
    LaterValue (twoValues v w) twoEntries q ↔ q = 255 := by
  constructor
  · rintro ⟨_, _, i, hi, _, hIn⟩
    rw [twoValues_nritems] at hi
    rw [Nat.lt_one_iff.mp hi, twoValues_ptr] at hIn
    rcases hIn with ⟨hLow, hHigh⟩ | hIn
    · unfold dirItem at hLow hHigh
      dsimp only at hLow hHigh
      omega
    · cases hIn
  · rintro rfl
    have hSome := twoValues_nritems v w
    refine ⟨by omega, rfl, 0, by omega, rfl, Or.inl ?_⟩
    rw [twoValues_ptr]
    decide

theorem twoValues_same
    (v' w' : UInt8) :
    SameExceptPrivate (twoValues v w) (twoValues v' w')
      twoEntries := by
  refine ⟨rfl, rfl, ?_⟩
  intro q _ _ hNot
  have hPlaces : ∀ q, q = 223 ∨ q = 255 →
      Private (twoValues v w) twoEntries q := by
    intro q hq
    unfold Private
    rw [twoValues_nritems, if_neg (by decide),
      if_pos (twoValues_level v w)]
    have hSome := twoValues_nritems v w
    refine Or.inr ⟨0, by omega, Or.inr ⟨rfl, ?_⟩⟩
    rw [twoValues_ptr]
    rcases hq with rfl | rfl
    · exact Or.inl (by decide)
    · exact Or.inr (Or.inl (by decide))
  have hFirst : q ≠ 223 :=
    fun h => hNot (hPlaces q (Or.inl h))
  have hSecond : q ≠ 255 :=
    fun h => hNot (hPlaces q (Or.inr h))
  simp [twoValues, hFirst, hSecond]

end TwoValues

/- Names are replaced by garbage. -/
def plainSetting : Setting where
  rand _ := 0
  rebalance := ⟨id, fun _ => rfl⟩
  sanitizeNames := 1
  behind _ := 0

/- The first value of an item does not show. -/
theorem copyBuffer_first_value_hidden :
    ∃ res,
      copyBuffer plainSetting ⟨.leaf, 0⟩ (twoValues 1 9) =
        some res ∧
      copyBuffer plainSetting ⟨.leaf, 0⟩ (twoValues 7 9) =
        some res := by
  apply (copyBuffer_same_iff plainSetting ⟨.leaf, 0⟩
    (by decide) (twoValues_wellFormed 1 9)
    (twoValues_same 1 9 7 9)).mpr
  intro q hLater
  rw [(twoValues_later 1 9 q).mp hLater]
  rfl

/- The second value of an item shows. -/
theorem copyBuffer_second_value_shown :
    ¬ ∃ res,
      copyBuffer plainSetting ⟨.leaf, 0⟩ (twoValues 1 2) =
        some res ∧
      copyBuffer plainSetting ⟨.leaf, 0⟩ (twoValues 1 3) =
        some res := by
  rintro ⟨res, hFirst, hSecond⟩
  obtain ⟨xs, ys, md', hx, hy, hIff⟩ :=
    copyBuffer_pair plainSetting ⟨.leaf, 0⟩ (by decide)
      (twoValues_wellFormed 1 2) (twoValues_same 1 2 1 3)
  rw [hx] at hFirst
  rw [hy, ← hFirst] at hSecond
  have hEq : ys = xs :=
    congrArg Prod.fst (Option.some.inj hSecond)
  have hLater := hIff.mp hEq 255
    ((twoValues_later 1 2 255).mpr rfl)
  exact absurd hLater (by decide)

end Block

end Image

end BtrfsProgs
