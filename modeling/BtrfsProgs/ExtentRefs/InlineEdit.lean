import BtrfsProgs.ExtentRefs.InlineOrder
import BtrfsProgs.ExtentRefs.Packed
import BtrfsProgs.Leaves.Layout

/-
  Inline references in the bytes of an extent item, from
  `extent-tree.c`: how they are found, inserted and updated.

  The item is as `path` has it.  What `btrfs_extend_item`
  leaves behind its bytes is a parameter.

  Main declarations:
    * `lookupInlineItem`, `setupInlineBackref` and
      `updateInlineBackref`
    * `lookupInlineItem_ends`
    * `setupInlineBackref_pack`
    * `updateInlineBackref_pack`
    * `inlineBackrefs_kept`
-/

----------
-- Finding a Reference
----------

namespace BtrfsProgs

namespace ExtentRefs

open Record

/- What a lookup leaves behind: its result and `*ref_ret`. -/
structure Found where
  err : Option Errno
  ref_ret : Option Nat
deriving Repr, DecidableEq

/- The place of the first inline reference. -/
def firstRef
    (bytes : List UInt8)
    (type : Nat) : Except Stop Nat :=
  if bytes.length < 24 then .error (.err .einval)
  else
    let flags := field bytes 16 8
    if flags &&& EXTENT_FLAG_TREE_BLOCK ≠ 0 ∧
        type = EXTENT_ITEM_KEY then
      if bytes.length < 24 + 18 then .error .bug
      else .ok (24 + 18)
    else if flags &&& EXTENT_FLAG_TREE_BLOCK = 0 ∧
        flags &&& EXTENT_FLAG_DATA = 0 then
      .error (.err .eio)
    else .ok 24

/- The end of the lookup, behind its loop. -/
def lookupEnd
    (fs : FsInfo)
    (keyed : Bool)
    (bytes : List UInt8)
    (want : Nat)
    (insert : Bool)
    (found : Bool)
    (ptr : Nat) : Found :=
  if found then ⟨none, some ptr⟩
  else if insert ∧ (maxExtentItemSize fs ≤
      bytes.length + inlineRefSize want ∨ keyed) then
    ⟨some .eagain, none⟩
  else ⟨some .enoent, some ptr⟩

/-
  `lookup_inline_extent_backref`, from the item with the key
  of the given type on; an item of the old format has already
  been converted if the reference is to be inserted.  `keyed`
  is whether `find_next_key` finds a reference with a key of
  its own.  `none` is for a loop that goes on.
-/
def lookupInlineItem
    (fs : FsInfo)
    (type : Nat)
    (keyed : Bool)
    (bytes : List UInt8)
    (target : Target)
    (insert : Bool)
    (fuel : Nat) : Option (Except Stop Found) :=
  if bytes.length < 24 ∧ ¬insert then
    some (.ok ⟨some .enoent, none⟩)
  else
    match firstRef bytes type with
    | .error stop => some (.error stop)
    | .ok ptr =>
        match Loop.run (lookupTurn bytes target) fuel ptr with
        | none => none
        | some (.error stop) => some (.error stop)
        | some (.ok (found, ptr)) =>
            some (.ok (lookupEnd fs keyed bytes
              (extentRefType target.parent target.owner)
              insert found ptr))

----------
-- Inserting a Reference
----------

/- The reference is written over what is at its place. -/
def writeRef
    (bytes : List UInt8)
    (ptr : Nat)
    (target : Target)
    (refs_to_add : Int32) : List UInt8 :=
  let type := extentRefType target.parent target.owner
  let count := Leaves.unsigned 32 refs_to_add.toInt
  let typed := putField bytes ptr 1 type
  if type = EXTENT_DATA_REF_KEY then
    let rooted := putField typed (ptr + 1) 8 target.rootObjectid
    let owned := putField rooted (ptr + 9) 8 target.owner
    let placed := putField owned (ptr + 17) 8 target.offset
    putField placed (ptr + 25) 4 count
  else if type = SHARED_DATA_REF_KEY then
    let counted := putField typed (ptr + 9) 4 count
    putField counted (ptr + 1) 8 target.parent
  else if type = SHARED_BLOCK_REF_KEY then
    putField typed (ptr + 1) 8 target.parent
  else putField typed (ptr + 1) 8 target.rootObjectid

/- `refs += refs_to_mod`, in the item. -/
def addRefs
    (bytes : List UInt8)
    (refs_to_mod : Int32) : List UInt8 :=
  putField bytes 0 8
    (Leaves.unsigned 64 (field bytes 0 8 + refs_to_mod.toInt))

/-
  `setup_inline_extent_backref`, on the item that
  `btrfs_extend_item` has made larger by `fill`.
-/
def setupInlineBackref
    (bytes fill : List UInt8)
    (item_offset : Nat)
    (target : Target)
    (refs_to_add : Int32) : List UInt8 :=
  let size := inlineRefSize
    (extentRefType target.parent target.owner)
  let counted := addRefs (bytes ++ fill) refs_to_add
  let opened :=
    if item_offset < counted.length - size then
      move counted (item_offset + size) item_offset
        (counted.length - size - item_offset)
    else counted
  writeRef opened item_offset target refs_to_add

----------
-- Updating a Reference
----------

/- The place of the count in a data reference. -/
def countPlace
    (type ptr : Nat) : Nat :=
  if type = EXTENT_DATA_REF_KEY then ptr + 25 else ptr + 9

/-
  No reference would be left to the extent, as `WARN_ON` asks
  of the `u64` sum.
-/
def TakesLast
    (refs : Nat)
    (refs_to_mod : Int32) : Prop :=
  refs_to_mod < 0 ∧
    Leaves.unsigned 64 (refs + refs_to_mod.toInt) = 0

instance
    (refs : Nat)
    (refs_to_mod : Int32) :
    Decidable (TakesLast refs refs_to_mod) := by
  unfold TakesLast
  infer_instance

/-
  `update_inline_extent_backref`: the bytes that
  `btrfs_truncate_item` leaves.  `WARN_ON` is an assertion,
  so it stops the program as `BUG_ON` does.
-/
def updateInlineBackref
    (bytes : List UInt8)
    (iref : Nat)
    (refs_to_mod : Int32) : Except Stop (List UInt8) :=
  let counted := addRefs bytes refs_to_mod
  let type := field counted iref 1
  let isData := type = EXTENT_DATA_REF_KEY ∨
    type = SHARED_DATA_REF_KEY
  if TakesLast (field bytes 0 8) refs_to_mod then .error .bug
  else if ¬isData ∧ refs_to_mod ≠ -1 then .error .bug
  else
    let refs :=
      if isData then field counted (countPlace type iref) 4
      else 1
    if refs_to_mod < 0 ∧
        refs < Leaves.unsigned 64 (-refs_to_mod).toInt then
      .error .bug
    else
      let left :=
        Leaves.unsigned 64 (refs + refs_to_mod.toInt)
      if 0 < left then
        .ok (putField counted (countPlace type iref) 4 left)
      else
        match inlineRefSize? type with
        | none => .error .bug
        | some size =>
            let closed :=
              if iref + size < counted.length then
                move counted iref (iref + size)
                  (counted.length - iref - size)
              else counted
            .ok (closed.take (counted.length - size))

----------
-- What the Lookup Finds
----------

section Lookup

variable {item : ExtentItem}
variable {info : List UInt8}
variable {type : Nat}

theorem firstRef_pack
    (hFormed : WellFormed item info type) :
    firstRef (item.pack info) type = .ok (item.header type) := by
  have hLength := hFormed.length_pack
  have hFlags : field (item.pack info) 16 8 = item.flags := by
    unfold ExtentItem.pack
    rw [List.append_assoc]
    exact field_pack 2 16 _ hFormed.fields rfl rfl
  have hKind := hFormed.kind
  rw [ExtentItem.size_eq] at hLength
  unfold firstRef
  unfold ExtentItem.header ExtentItem.isTreeBlock at *
  dsimp only
  rw [hFlags, if_neg (by omega)]
  by_cases hFat :
      item.flags &&& EXTENT_FLAG_TREE_BLOCK ≠ 0 ∧
        type = EXTENT_ITEM_KEY
  · rw [if_pos hFat] at hLength ⊢
    rw [if_neg (by omega), if_pos hFat]
  · have hData : ¬(item.flags &&& EXTENT_FLAG_TREE_BLOCK = 0 ∧
        item.flags &&& EXTENT_FLAG_DATA = 0) := by
      intro hNeither
      rcases hKind with hTree | hData
      · exact hTree hNeither.1
      · exact hData hNeither.2
    rw [if_neg hFat, if_neg hFat, if_neg hData]

/- The lookup ends, at what the loop finds. -/
theorem lookupInlineItem_ends
    (fs : FsInfo)
    (keyed : Bool)
    (target : Target)
    (insert : Bool)
    (hFormed : WellFormed item info type) :
    let r := scanInline target item.inlineRefs 0
    ∃ fuel, lookupInlineItem fs type keyed (item.pack info)
        target insert fuel =
      some (.ok (lookupEnd fs keyed (item.pack info)
        (extentRefType target.parent target.owner) insert r.1
        (item.header type +
          refsSize (item.inlineRefs.take r.2)))) := by
  have hLength := hFormed.length_pack
  rw [ExtentItem.size_eq] at hLength
  unfold ExtentItem.header at hLength
  have hEnds := lookupTurn_ends target [] item.inlineRefs
    hFormed rfl
  rcases hEnds with ⟨fuel, w, hRun, hResult⟩
  have hStart : item.header type + refsSize [] =
      item.header type := Nat.add_zero _
  rw [hStart] at hRun
  refine ⟨fuel, ?_⟩
  unfold lookupInlineItem
  rw [if_neg (by omega), firstRef_pack hFormed]
  dsimp only
  rw [hRun, hResult]
  rfl

end Lookup

----------
-- What an Insertion Leaves
----------

/- The values of a reference are those of `u64` arguments. -/
structure Target.Fits
    (target : Target) : Prop where
  parent : target.parent < 2 ^ 64
  rootObjectid : target.rootObjectid < 2 ^ 64
  owner : target.owner < 2 ^ 64
  offset : target.offset < 2 ^ 64

/- The item when its references have changed. -/
def ExtentItem.changed
    (item : ExtentItem)
    (refs_to_mod : Int32)
    (irefs : List InlineRef) : ExtentItem :=
  { item with
    refs := Leaves.unsigned 64 (item.refs + refs_to_mod.toInt)
    inlineRefs := irefs }

section Insert

variable {item : ExtentItem}
variable {info : List UInt8}
variable {type : Nat}
variable {target : Target}

theorem unsigned_lt
    (w : Nat)
    (z : Int) :
    Leaves.unsigned w z < 2 ^ w := by
  have hPos : (0 : Int) < 2 ^ w := by positivity
  have hLow := Int.emod_nonneg z (Int.ne_of_gt hPos)
  have hHigh := Int.emod_lt_of_pos z hPos
  have hCast : ((2 ^ w : Nat) : Int) = 2 ^ w := by
    push_cast
    rfl
  unfold Leaves.unsigned
  omega

theorem Target.ref_fits
    {count : Nat}
    (hTarget : target.Fits)
    (hCount : count < 2 ^ 32) :
    (target.ref count).Fits := by
  have hParent := hTarget.parent
  have hRoot := hTarget.rootObjectid
  have hOwner := hTarget.owner
  have hOffset := hTarget.offset
  unfold Target.ref
  split_ifs
  · exact fits_cons (by decide) (fits_cons hParent fits_nil)
  · exact fits_cons (by decide) (fits_cons hRoot fits_nil)
  · exact fits_cons (by decide) (fits_cons hParent
      (fits_cons hCount fits_nil))
  · exact fits_cons (by decide) (fits_cons hRoot
      (fits_cons hOwner (fits_cons hOffset
        (fits_cons hCount fits_nil))))

/- The header does not depend on the references. -/
theorem WellFormed.changed
    {irefs : List InlineRef}
    (refs_to_mod : Int32)
    (hFormed : WellFormed item info type)
    (hIrefs : ∀ iref ∈ irefs, iref.Fits) :
    WellFormed (item.changed refs_to_mod irefs) info type where
  fields := by
    intro f hMem
    cases hMem with
    | head => exact unsigned_lt 64 _
    | tail _ hLater =>
        exact hFormed.fields f (List.mem_cons_of_mem _ hLater)
  irefs := hIrefs
  info := hFormed.info
  kind := hFormed.kind

/- `refs += refs_to_mod` changes the first field only. -/
theorem addRefs_pack
    (refs_to_mod : Int32)
    (irefs : List InlineRef)
    (tail : List UInt8)
    (hFormed : WellFormed item info type) :
    addRefs (Record.pack item.fields ++ tail) refs_to_mod =
      Record.pack (item.changed refs_to_mod irefs).fields ++
        tail := by
  have hRefs : field (Record.pack item.fields ++ tail) 0 8 =
      item.refs :=
    field_pack 0 0 tail hFormed.fields rfl rfl
  unfold addRefs
  rw [hRefs, putField_pack 0 0 _ tail rfl rfl]
  rfl

/- The fields of a reference are put into a gap. -/
theorem writeRef_gap
    {front gap tail : List UInt8}
    {start : Nat}
    (target : Target)
    (refs_to_add : Int32)
    (hFront : front.length = start)
    (hGap : gap.length = inlineRefSize
      (extentRefType target.parent target.owner)) :
    writeRef (front ++ (gap ++ tail)) start target
        refs_to_add =
      front ++ ((target.ref
        (Leaves.unsigned 32 refs_to_add.toInt)).pack ++
          tail) := by
  have hFirst : ∀ bytes w v,
      putField (front ++ bytes) start w v =
        front ++ putField bytes 0 w v :=
    fun bytes w v => putField_behind 0 w v hFront
  have hBehind : ∀ bytes place w v,
      putField (front ++ bytes) (start + place) w v =
        front ++ putField bytes place w v :=
    fun bytes place w v => putField_behind place w v hFront
  unfold writeRef Target.ref
  unfold extentRefType at hGap ⊢
  by_cases hOwner : target.owner < FIRST_FREE_OBJECTID
  · by_cases hParent : 0 < target.parent
    · simp only [hOwner, hParent, if_true] at hGap ⊢
      rw [← pack_unpack [1, 8] gap hGap]
      rw [if_neg (by decide), if_neg (by decide), hFirst,
        hBehind]
      rw [putField_pack 0 0 _ tail rfl rfl,
        putField_pack 1 1 _ tail rfl rfl]
      rfl
    · simp only [hOwner, hParent, if_true, if_false] at hGap ⊢
      rw [← pack_unpack [1, 8] gap hGap]
      rw [if_neg (by decide), if_neg (by decide),
        if_neg (by decide), hFirst, hBehind]
      rw [putField_pack 0 0 _ tail rfl rfl,
        putField_pack 1 1 _ tail rfl rfl]
      rfl
  · by_cases hParent : 0 < target.parent
    · simp only [hOwner, hParent, if_true, if_false] at hGap ⊢
      rw [← pack_unpack [1, 8, 4] gap hGap]
      rw [if_neg (by decide), hFirst, hBehind, hBehind]
      rw [putField_pack 0 0 _ tail rfl rfl,
        putField_pack 2 9 _ tail rfl rfl,
        putField_pack 1 1 _ tail rfl rfl]
      rfl
    · simp only [hOwner, hParent, if_false] at hGap ⊢
      rw [← pack_unpack [1, 8, 8, 8, 4] gap hGap]
      rw [hFirst, hBehind, hBehind, hBehind, hBehind]
      rw [putField_pack 0 0 _ tail rfl rfl,
        putField_pack 1 1 _ tail rfl rfl,
        putField_pack 2 9 _ tail rfl rfl,
        putField_pack 3 17 _ tail rfl rfl,
        putField_pack 4 25 _ tail rfl rfl]
      rfl

/- The header of the changed item, and some references. -/
theorem WellFormed.length_front
    (refs_to_mod : Int32)
    (before : List InlineRef)
    (hFormed : WellFormed item info type) :
    (Record.pack (item.changed refs_to_mod []).fields ++
      (info ++ packRefs before)).length =
        item.header type + refsSize before := by
  have hNone : ∀ iref ∈ ([] : List InlineRef), iref.Fits := by
    intro iref hMem
    cases hMem
  have hHeader :=
    (hFormed.changed refs_to_mod hNone).length_header
  rw [← List.append_assoc, List.length_append, hHeader,
    length_packRefs]
  rfl

/- The bytes around a place between the references. -/
theorem ExtentItem.pack_at
    {before after : List InlineRef}
    (hIrefs : item.inlineRefs = before ++ after) :
    item.pack info = Record.pack item.fields ++
      (info ++ packRefs before ++ packRefs after) := by
  unfold ExtentItem.pack
  rw [hIrefs, packRefs_append]
  simp only [List.append_assoc]

theorem ExtentItem.pack_changed
    (refs_to_mod : Int32)
    (before after : List InlineRef) :
    (item.changed refs_to_mod (before ++ after)).pack info =
      Record.pack (item.changed refs_to_mod []).fields ++
        (info ++ packRefs before) ++ packRefs after := by
  have hIrefs : (item.changed refs_to_mod
      (before ++ after)).inlineRefs = before ++ after := rfl
  rw [ExtentItem.pack_at hIrefs]
  simp only [List.append_assoc]
  rfl

/-
  The new reference stands at its place, and nothing else but
  the number of references is changed.
-/
theorem setupInlineBackref_pack
    {before after : List InlineRef}
    {fill : List UInt8}
    (target : Target)
    (refs_to_add : Int32)
    (hFormed : WellFormed item info type)
    (hIrefs : item.inlineRefs = before ++ after)
    (hFill : fill.length = inlineRefSize
      (extentRefType target.parent target.owner)) :
    setupInlineBackref (item.pack info) fill
        (item.header type + refsSize before) target
        refs_to_add =
      (item.changed refs_to_add
        (before ++ target.ref
          (Leaves.unsigned 32 refs_to_add.toInt) ::
            after)).pack info := by
  have hFront := hFormed.length_front refs_to_add before
  have hExtended : item.pack info ++ fill =
      Record.pack item.fields ++
        (info ++ packRefs before ++
          (packRefs after ++ fill)) := by
    rw [ExtentItem.pack_at hIrefs]
    simp only [List.append_assoc]
  rcases @move_up_if _ (packRefs after) fill _ _ hFront hFill
    with ⟨gap, hGap, hMove⟩
  unfold setupInlineBackref
  dsimp only
  rw [hExtended, addRefs_pack refs_to_add [] _ hFormed,
    ← List.append_assoc (Record.pack _), hMove,
    writeRef_gap target refs_to_add hFront hGap,
    ExtentItem.pack_changed, packRefs_cons]

end Insert

----------
-- What an Update Leaves
----------

def InlineRef.isData : InlineRef → Prop
  | .extentData _ => True
  | .sharedData _ _ => True
  | .treeBlock _ => False
  | .sharedBlock _ => False

instance : (iref : InlineRef) → Decidable iref.isData
  | .extentData _ => inferInstanceAs (Decidable True)
  | .sharedData _ _ => inferInstanceAs (Decidable True)
  | .treeBlock _ => inferInstanceAs (Decidable False)
  | .sharedBlock _ => inferInstanceAs (Decidable False)

/- How often a reference counts. -/
def InlineRef.count : InlineRef → Nat
  | .extentData ref => ref.count
  | .sharedData _ count => count
  | .treeBlock _ => 1
  | .sharedBlock _ => 1

def InlineRef.recount
    (count : Nat) : InlineRef → InlineRef
  | .extentData ref => .extentData { ref with count }
  | .sharedData parent _ => .sharedData parent count
  | iref => iref

/- A change that does not end in a `BUG`. -/
def InlineRef.CanChange
    (iref : InlineRef)
    (refs_to_mod : Int32) : Prop :=
  (iref.isData ∨ refs_to_mod = -1) ∧
    (refs_to_mod < 0 →
      Leaves.unsigned 64 (-refs_to_mod).toInt ≤ iref.count)

/- The reference when its count has changed, if it is left. -/
def InlineRef.modified
    (iref : InlineRef)
    (refs_to_mod : Int32) : List InlineRef :=
  let left :=
    Leaves.unsigned 64 (iref.count + refs_to_mod.toInt)
  if 0 < left then [iref.recount (left % 2 ^ 32)] else []

section Update

variable {item : ExtentItem}
variable {info : List UInt8}
variable {type : Nat}
variable {iref : InlineRef}
variable {bytes rest : List UInt8}
variable {ptr : Nat}

theorem InlineRef.isData_iff
    (iref : InlineRef) :
    (iref.type = EXTENT_DATA_REF_KEY ∨
      iref.type = SHARED_DATA_REF_KEY) ↔ iref.isData := by
  cases iref with
  | treeBlock root =>
      simp [InlineRef.type, InlineRef.isData,
        TREE_BLOCK_REF_KEY, EXTENT_DATA_REF_KEY,
        SHARED_DATA_REF_KEY]
  | extentData ref => simp [InlineRef.type, InlineRef.isData]
  | sharedBlock parent =>
      simp [InlineRef.type, InlineRef.isData,
        SHARED_BLOCK_REF_KEY, EXTENT_DATA_REF_KEY,
        SHARED_DATA_REF_KEY]
  | sharedData parent count =>
      simp [InlineRef.type, InlineRef.isData]

/- The count that is read. -/
theorem field_count
    (hDrop : bytes.drop ptr = iref.pack ++ rest)
    (hFits : iref.Fits)
    (hData : iref.isData) :
    field bytes (countPlace iref.type ptr) 4 = iref.count := by
  cases iref with
  | treeBlock root => cases hData
  | extentData ref => exact field_at 4 25 hDrop hFits rfl rfl
  | sharedBlock parent => cases hData
  | sharedData parent count =>
      exact field_at 2 9 hDrop hFits rfl rfl

/- The count that is set. -/
theorem putField_count
    {front : List UInt8}
    {v : Nat}
    (hFront : front.length = ptr)
    (hData : iref.isData) :
    putField (front ++ (iref.pack ++ rest))
        (countPlace iref.type ptr) 4 v =
      front ++ ((iref.recount v).pack ++ rest) := by
  cases iref with
  | treeBlock root => cases hData
  | extentData ref =>
      change putField _ (ptr + 25) 4 v = _
      rw [putField_behind 25 4 v hFront]
      unfold InlineRef.pack
      rw [putField_pack 4 25 v rest rfl rfl]
      rfl
  | sharedBlock parent => cases hData
  | sharedData parent count =>
      change putField _ (ptr + 9) 4 v = _
      rw [putField_behind 9 4 v hFront]
      unfold InlineRef.pack
      rw [putField_pack 2 9 v rest rfl rfl]
      rfl

theorem InlineRef.pack_recount
    (iref : InlineRef)
    (left : Nat) :
    (iref.recount (left % 2 ^ 32)).pack =
      (iref.recount left).pack := by
  have hSame : LittleEndian.encode 4 (left % 2 ^ 32) =
      LittleEndian.encode 4 left :=
    LittleEndian.encode_mod 4 left
  unfold InlineRef.pack Record.pack
  cases iref with
  | treeBlock root => rfl
  | extentData ref =>
      simp only [InlineRef.recount, InlineRef.fields,
        List.flatMap_cons, hSame]
  | sharedBlock parent => rfl
  | sharedData parent count =>
      simp only [InlineRef.recount, InlineRef.fields,
        List.flatMap_cons, hSame]

theorem inlineRefSize_type
    (iref : InlineRef) :
    inlineRefSize? iref.type = some (inlineRefSize iref.type) := by
  cases iref with
  | treeBlock root => rfl
  | extentData ref => rfl
  | sharedBlock parent => rfl
  | sharedData parent count => rfl

theorem InlineRef.canChange_iff
    {refs_to_mod : Int32} :
    iref.CanChange refs_to_mod ↔
      ¬(¬iref.isData ∧ refs_to_mod ≠ -1) ∧
        ¬(refs_to_mod < 0 ∧ iref.count <
          Leaves.unsigned 64 (-refs_to_mod).toInt) := by
  unfold InlineRef.CanChange
  rw [not_and_or, not_not, not_not, not_and, Nat.not_lt]

/- A reference to a block that may be changed goes away. -/
theorem InlineRef.CanChange.count
    {refs_to_mod : Int32}
    (hCan : iref.CanChange refs_to_mod)
    (hData : ¬iref.isData) :
    Leaves.unsigned 64 (iref.count + refs_to_mod.toInt) =
      0 := by
  have hMinus := hCan.1.resolve_left hData
  subst hMinus
  cases iref with
  | treeBlock root => rfl
  | extentData ref => exact absurd trivial hData
  | sharedBlock parent => rfl
  | sharedData parent count => exact absurd trivial hData

/- The update stops at none of the assertions. -/
def ExtentItem.CanUpdate
    (item : ExtentItem)
    (iref : InlineRef)
    (refs_to_mod : Int32) : Prop :=
  ¬TakesLast item.refs refs_to_mod ∧
    iref.CanChange refs_to_mod

theorem field_refs
    (hFormed : WellFormed item info type) :
    field (item.pack info) 0 8 = item.refs := by
  unfold ExtentItem.pack
  rw [List.append_assoc]
  exact field_pack 0 0 _ hFormed.fields rfl rfl

/-
  Only the number of references and the one at the place are
  changed; the place closes when none is left.
-/
theorem updateInlineBackref_pack
    {before after : List InlineRef}
    (refs_to_mod : Int32)
    (hFormed : WellFormed item info type)
    (hIrefs : item.inlineRefs = before ++ iref :: after) :
    (item.CanUpdate iref refs_to_mod →
      updateInlineBackref (item.pack info)
          (item.header type + refsSize before) refs_to_mod =
        .ok ((item.changed refs_to_mod (before ++
          (iref.modified refs_to_mod ++ after))).pack info)) ∧
      (¬item.CanUpdate iref refs_to_mod →
        updateInlineBackref (item.pack info)
            (item.header type + refsSize before) refs_to_mod =
          .error .bug) := by
  have hFits : iref.Fits :=
    hFormed.irefs iref (by simp [hIrefs])
  have hFront := hFormed.length_front refs_to_mod before
  have hCounted : addRefs (item.pack info) refs_to_mod =
      Record.pack (item.changed refs_to_mod []).fields ++
        (info ++ packRefs before) ++
          (iref.pack ++ packRefs after) := by
    rw [ExtentItem.pack_at hIrefs,
      addRefs_pack refs_to_mod [] _ hFormed, packRefs_cons,
      List.append_assoc (Record.pack _)]
  have hResult : ∀ irefs,
      (item.changed refs_to_mod
        (before ++ (irefs ++ after))).pack info =
        Record.pack (item.changed refs_to_mod []).fields ++
          (info ++ packRefs before) ++
            (packRefs irefs ++ packRefs after) := by
    intro irefs
    rw [ExtentItem.pack_changed, packRefs_append]
  rw [hResult]
  unfold updateInlineBackref ExtentItem.CanUpdate
  dsimp only
  rw [field_refs hFormed, hCounted]
  generalize Record.pack (item.changed refs_to_mod []).fields ++
    (info ++ packRefs before) = front at *
  generalize item.header type + refsSize before = ptr at *
  have hDrop : (front ++ (iref.pack ++ packRefs after)).drop
      ptr = iref.pack ++ packRefs after :=
    List.drop_left' hFront
  have hRefs : (if iref.isData then
      field (front ++ (iref.pack ++ packRefs after))
        (countPlace iref.type ptr) 4 else 1) = iref.count := by
    split_ifs with hData
    · exact field_count hDrop hFits hData
    · cases iref with
      | treeBlock root => rfl
      | extentData ref => exact absurd trivial hData
      | sharedBlock parent => rfl
      | sharedData parent count => exact absurd trivial hData
  simp only [field_type hDrop hFits, iref.isData_iff, hRefs]
  constructor
  · intro hUpdate
    rcases hUpdate with ⟨hSome, hCan⟩
    rcases InlineRef.canChange_iff.mp hCan with ⟨hKind, hCount⟩
    rw [if_neg hSome, if_neg hKind, if_neg hCount]
    unfold InlineRef.modified
    dsimp only
    have hNil : packRefs [] = [] := rfl
    by_cases hLeft : 0 < Leaves.unsigned 64
        (iref.count + refs_to_mod.toInt)
    · have hData : iref.isData := by
        by_contra hData
        have hNone := hCan.count hData
        omega
      rw [if_pos hLeft, if_pos hLeft,
        putField_count hFront hData, packRefs_cons,
        InlineRef.pack_recount, hNil, List.append_nil]
    · rw [if_neg hLeft, if_neg hLeft, inlineRefSize_type]
      dsimp only
      rw [move_down_if hFront iref.length_pack]
      rfl
  · intro hNot
    rw [InlineRef.canChange_iff] at hNot
    split_ifs with hLast hKind hCount
    · rfl
    · rfl
    · rfl
    · exact absurd ⟨hLast, hKind, hCount⟩ hNot
    · exact absurd ⟨hLast, hKind, hCount⟩ hNot

end Update

----------
-- Items Are Kept in Order
----------

/-
  An item with sorted references, as large as its header and
  its references.
-/
structure InOrder
    (item : ExtentItem)
    (info : List UInt8)
    (type : Nat) : Prop where
  formed : WellFormed item info type
  sorted : Sorted item.inlineRefs
  size : (item.pack info).length =
    item.header type + refsSize item.inlineRefs

/- The reference is there. -/
def ExtentItem.HasInline
    (item : ExtentItem)
    (target : Target) : Prop :=
  ∃ iref ∈ item.inlineRefs, target.Inline iref

/- No reference is inserted into an item. -/
def Refused
    (fs : FsInfo)
    (keyed : Bool)
    (item : ExtentItem)
    (type : Nat)
    (target : Target) : Prop :=
  maxExtentItemSize fs ≤ item.size type + inlineRefSize
      (extentRefType target.parent target.owner) ∨
    keyed = true

/-
  An insertion at a place: the new reference comes between
  those before and behind it, which are what they were, and
  the item stays in order.
-/
def InsertsAt
    (item : ExtentItem)
    (info : List UInt8)
    (type : Nat)
    (target : Target)
    (ptr : Nat) : Prop :=
  ∃ before after, item.inlineRefs = before ++ after ∧
    ptr = item.header type + refsSize before ∧
    ∀ fill refs_to_add,
      fill.length = inlineRefSize
          (extentRefType target.parent target.owner) →
        let new := target.ref
          (Leaves.unsigned 32 refs_to_add.toInt)
        let item' :=
          item.changed refs_to_add (before ++ new :: after)
        setupInlineBackref (item.pack info) fill ptr target
            refs_to_add = item'.pack info ∧
          InOrder item' info type

/- What a lookup says of an item. -/
structure LooksUp
    (fs : FsInfo)
    (keyed : Bool)
    (item : ExtentItem)
    (info : List UInt8)
    (type : Nat)
    (target : Target)
    (insert : Bool)
    (found : Found) : Prop where
  err : found.err = none ↔ item.HasInline target
  there : found.err = none →
    ∃ before iref after,
      item.inlineRefs = before ++ iref :: after ∧
        target.Inline iref ∧
        found.ref_ret =
          some (item.header type + refsSize before)
  refused : ¬item.HasInline target → insert = true →
    Refused fs keyed item type target →
      found = ⟨some .eagain, none⟩
  place : ¬item.HasInline target →
    ¬(insert = true ∧ Refused fs keyed item type target) →
      ∃ ptr, found = ⟨some .enoent, some ptr⟩ ∧
        InsertsAt item info type target ptr

/-
  An update of one reference: it changes its count or goes
  away, the others are what they were, and the item stays in
  order.
-/
def UpdatesAt
    (item : ExtentItem)
    (info : List UInt8)
    (type : Nat)
    (before : List InlineRef)
    (iref : InlineRef)
    (after : List InlineRef)
    (refs_to_mod : Int32) : Prop :=
  let item' := item.changed refs_to_mod
    (before ++ (iref.modified refs_to_mod ++ after))
  let ptr := item.header type + refsSize before
  (item.CanUpdate iref refs_to_mod →
    updateInlineBackref (item.pack info) ptr refs_to_mod =
      .ok (item'.pack info)) ∧
  (¬item.CanUpdate iref refs_to_mod →
    updateInlineBackref (item.pack info) ptr refs_to_mod =
      .error .bug) ∧
  InOrder item' info type

section Kept

variable {item : ExtentItem}
variable {info : List UInt8}
variable {type : Nat}
variable {iref : InlineRef}
variable {before after : List InlineRef}

theorem WellFormed.inOrder
    (hFormed : WellFormed item info type)
    (hSorted : Sorted item.inlineRefs) :
    InOrder item info type where
  formed := hFormed
  sorted := hSorted
  size := hFormed.length_pack

theorem insertsAt_of_sorted
    {target : Target}
    (hFormed : WellFormed item info type)
    (hTarget : target.Fits)
    (hIrefs : item.inlineRefs = before ++ after)
    (hSorted : ∀ count,
      Sorted (before ++ target.ref count :: after)) :
    InsertsAt item info type target
      (item.header type + refsSize before) := by
  refine ⟨before, after, hIrefs, rfl, ?_⟩
  intro fill refs_to_add hFill
  refine ⟨setupInlineBackref_pack target refs_to_add hFormed
    hIrefs hFill, ?_⟩
  refine WellFormed.inOrder
    (hFormed.changed refs_to_add ?_) (hSorted _)
  intro iref hMem
  rcases List.mem_append.mp hMem with hBefore | hRest
  · exact hFormed.irefs iref (by simp [hIrefs, hBefore])
  · cases hRest with
    | head => exact Target.ref_fits hTarget (unsigned_lt 32 _)
    | tail _ hAfter =>
        refine hFormed.irefs iref ?_
        rw [hIrefs]
        exact List.mem_append_right before hAfter

/- What the loop says is what the lookup says. -/
theorem looksUp_of_placed
    {target : Target}
    (fs : FsInfo)
    (keyed insert : Bool)
    {r : Bool × Nat}
    (hFormed : WellFormed item info type)
    (hTarget : target.Fits)
    (hPlaced : Placed target item.inlineRefs 0 r) :
    LooksUp fs keyed item info type target insert
      (lookupEnd fs keyed (item.pack info)
        (extentRefType target.parent target.owner) insert r.1
        (item.header type +
          refsSize (item.inlineRefs.take r.2))) := by
  have hHas : r.1 = true ↔ item.HasInline target :=
    hPlaced.found
  rcases hPlaced.split with
    ⟨before, after, hIrefs, hPlace, hThere, hInsert⟩
  have hTake : item.inlineRefs.take r.2 = before := by
    rw [hIrefs, hPlace, Nat.zero_add, List.take_left]
  rw [hTake]
  unfold lookupEnd
  rw [hFormed.length_pack]
  cases hFound : r.1 with
  | true =>
      have hIs := hHas.mp hFound
      rcases hThere hFound with ⟨iref, rest, hAfter, hInline⟩
      rw [if_pos rfl]
      constructor
      case err => exact iff_of_true rfl hIs
      case there =>
        intro _
        refine ⟨before, iref, rest, ?_, hInline, rfl⟩
        rw [hIrefs, hAfter]
      case refused =>
        intro hNot
        exact absurd hIs hNot
      case place =>
        intro hNot
        exact absurd hIs hNot
  | false =>
      have hIsNot : ¬item.HasInline target := by
        rw [← hHas, hFound]
        exact Bool.false_ne_true
      have hInserts := insertsAt_of_sorted hFormed hTarget
        hIrefs (hInsert hFound)
      rw [if_neg Bool.false_ne_true]
      split_ifs with hRefused
      · constructor
        case err =>
          refine iff_of_false ?_ hIsNot
          intro hErr
          cases hErr
        case there =>
          intro hErr
          cases hErr
        case refused =>
          intro _ _ _
          rfl
        case place =>
          intro _ hNot
          exact absurd hRefused hNot
      · constructor
        case err =>
          refine iff_of_false ?_ hIsNot
          intro hErr
          cases hErr
        case there =>
          intro hErr
          cases hErr
        case refused =>
          intro _ hIns hRef
          exact absurd ⟨hIns, hRef⟩ hRefused
        case place =>
          intro _ _
          exact ⟨_, rfl, hInserts⟩

theorem InlineRef.recount_fits
    {count : Nat}
    (hFits : iref.Fits)
    (hCount : count < 2 ^ 32) :
    (iref.recount count).Fits := by
  intro f hMem
  cases iref with
  | treeBlock root
  | sharedBlock parent => exact hFits f hMem
  | extentData ref =>
      have hOld := fun g => hFits g
      simp only [InlineRef.recount, InlineRef.fields,
        List.mem_cons, List.not_mem_nil, or_false]
        at hMem hOld
      rcases hMem with rfl | rfl | rfl | rfl | rfl
      · exact hOld _ (by simp)
      · exact hOld _ (by simp)
      · exact hOld _ (by simp)
      · exact hOld _ (by simp)
      · exact hCount
  | sharedData parent old =>
      have hOld := fun g => hFits g
      simp only [InlineRef.recount, InlineRef.fields,
        List.mem_cons, List.not_mem_nil, or_false]
        at hMem hOld
      rcases hMem with rfl | rfl | rfl
      · exact hOld _ (by simp)
      · exact hOld _ (by simp)
      · exact hCount

theorem InlineRef.recount_place
    (iref : InlineRef)
    (count : Nat) :
    (iref.recount count).type = iref.type ∧
      (iref.recount count).rank = iref.rank := by
  cases iref with
  | treeBlock root
  | extentData ref
  | sharedBlock parent
  | sharedData parent old => exact ⟨rfl, rfl⟩

theorem updatesAt_of_inOrder
    (refs_to_mod : Int32)
    (hFormed : WellFormed item info type)
    (hSorted : Sorted item.inlineRefs)
    (hIrefs : item.inlineRefs = before ++ iref :: after) :
    UpdatesAt item info type before iref after refs_to_mod := by
  have hUpdate :=
    updateInlineBackref_pack refs_to_mod hFormed hIrefs
  have hFits : iref.Fits :=
    hFormed.irefs iref (by simp [hIrefs])
  rw [hIrefs] at hSorted
  refine ⟨hUpdate.1, hUpdate.2, WellFormed.inOrder
    (hFormed.changed refs_to_mod ?_) ?_⟩
  · intro other hMem
    rcases List.mem_append.mp hMem with hBefore | hRest
    · exact hFormed.irefs other (by simp [hIrefs, hBefore])
    rcases List.mem_append.mp hRest with hNew | hAfter
    · unfold InlineRef.modified at hNew
      dsimp only at hNew
      split_ifs at hNew with hLeft
      · cases List.mem_singleton.mp hNew
        exact InlineRef.recount_fits hFits
          (Nat.mod_lt _ (by decide))
      · cases hNew
    · exact hFormed.irefs other (by simp [hIrefs, hAfter])
  · change Sorted (before ++ (iref.modified refs_to_mod ++ after))
    unfold InlineRef.modified
    dsimp only
    split_ifs with hLeft
    · have hPlace := iref.recount_place
        (Leaves.unsigned 64
          (iref.count + refs_to_mod.toInt) % 2 ^ 32)
      exact hSorted.recount hPlace.1 hPlace.2
    · exact hSorted.without

/-
  For every item in order and every reference: the lookup ends
  and says whether the reference is there, or else where it
  would be inserted, if it may be; insertions and updates keep
  the order, the other references and the size.
-/
theorem inlineBackrefs_kept
    (fs : FsInfo)
    (keyed insert : Bool)
    (target : Target)
    (hFormed : WellFormed item info type)
    (hSorted : Sorted item.inlineRefs)
    (hTarget : target.Fits) :
    (∃ fuel found,
      lookupInlineItem fs type keyed (item.pack info) target
          insert fuel = some (.ok found) ∧
        LooksUp fs keyed item info type target insert
          found) ∧
      ∀ before iref after refs_to_mod,
        item.inlineRefs = before ++ iref :: after →
          UpdatesAt item info type before iref after
            refs_to_mod := by
  constructor
  · have hPlaced := scanInline_placed target 0 hSorted
    rcases lookupInlineItem_ends fs keyed target insert hFormed
      with ⟨fuel, hLookup⟩
    exact ⟨fuel, _, hLookup,
      looksUp_of_placed fs keyed insert hFormed hTarget hPlaced⟩
  · intro before iref after refs_to_mod hIrefs
    exact updatesAt_of_inOrder refs_to_mod hFormed hSorted
      hIrefs

end Kept

/- Data that a file and a shared leaf refer to. -/
def dataItem : ExtentItem where
  refs := 3
  generation := 7
  flags := EXTENT_FLAG_DATA
  inlineRefs :=
    [.extentData ⟨⟨5, 257, 0⟩, 1⟩, .sharedData 4096 2]

theorem inlineBackrefs_kept_pair :
    (∃ fuel found,
      lookupInlineItem ⟨true, 16384⟩ EXTENT_ITEM_KEY false
          (dataItem.pack []) ⟨8192, 0, 257, 0⟩ true fuel =
          some (.ok found) ∧
        LooksUp ⟨true, 16384⟩ false dataItem []
          EXTENT_ITEM_KEY ⟨8192, 0, 257, 0⟩ true found) ∧
      ∀ before iref after refs_to_mod,
        dataItem.inlineRefs = before ++ iref :: after →
          UpdatesAt dataItem [] EXTENT_ITEM_KEY before iref
            after refs_to_mod := by
  have hFields : Record.Fits dataItem.fields := by
    intro f hMem
    revert f
    decide
  have hIrefs : ∀ iref ∈ dataItem.inlineRefs, iref.Fits := by
    intro iref hMem f hField
    revert iref f
    decide
  have hFormed : WellFormed dataItem [] EXTENT_ITEM_KEY :=
    ⟨hFields, hIrefs, rfl, Or.inr (by decide)⟩
  exact inlineBackrefs_kept _ _ _ _ hFormed (by decide)
    ⟨by decide, by decide, by decide, by decide⟩

----------
-- A Full Item
----------

/- A block that is shared by 22 others. -/
def sharedItem : ExtentItem where
  refs := 22
  generation := 7
  flags := EXTENT_FLAG_TREE_BLOCK
  inlineRefs := (List.range 22).map fun i =>
    .sharedBlock (4096 * (100 - i))

theorem sharedItem_formed :
    WellFormed sharedItem [] METADATA_ITEM_KEY where
  fields := by
    intro f hMem
    revert f
    decide
  irefs := by
    intro iref hMem f hField
    revert iref f
    decide
  info := rfl
  kind := by decide

/-
  The item has no place for a reference from the tree with the
  number 5: the lookup does not say where it would be.
-/
theorem sharedItem_no_place :
    Sorted sharedItem.inlineRefs ∧
      ¬sharedItem.HasInline ⟨0, 5, 0, 0⟩ ∧
      ∃ fuel,
        lookupInlineItem ⟨true, 4096⟩ METADATA_ITEM_KEY false
            (sharedItem.pack []) ⟨0, 5, 0, 0⟩ true fuel =
          some (.ok ⟨some .eagain, none⟩) := by
  refine ⟨by decide, ?_, ?_⟩
  · intro hHas
    rcases hHas with ⟨iref, hMem, hInline⟩
    have hType := hInline.type
    clear hInline
    revert iref
    decide
  · rcases lookupInlineItem_ends ⟨true, 4096⟩ false
      ⟨0, 5, 0, 0⟩ true sharedItem_formed with ⟨fuel, hLookup⟩
    refine ⟨fuel, hLookup.trans ?_⟩
    unfold lookupEnd
    rw [sharedItem_formed.length_pack]
    decide

end ExtentRefs

end BtrfsProgs
