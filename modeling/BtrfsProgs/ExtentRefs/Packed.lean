import BtrfsProgs.ExtentRefs.Lookup
import BtrfsProgs.Lib.Loop
import BtrfsProgs.Lib.Record

/-
  The bytes of an extent item with its inline references, and
  the loop of `lookup_inline_extent_backref` over them.

  Main declarations:
    * `InlineRef.pack` and `ExtentItem.pack`
    * `lookupTurn`
    * `lookupTurn_ends`
-/

----------
-- Bytes of an Item
----------

namespace BtrfsProgs

namespace ExtentRefs

open Record

/- `struct btrfs_extent_inline_ref` and what follows it. -/
def InlineRef.fields : InlineRef → List (Nat × Nat)
  | .treeBlock root => [(1, TREE_BLOCK_REF_KEY), (8, root)]
  | .extentData ref =>
      [(1, EXTENT_DATA_REF_KEY), (8, ref.owner.root),
        (8, ref.owner.objectid), (8, ref.owner.offset),
        (4, ref.count)]
  | .sharedBlock parent =>
      [(1, SHARED_BLOCK_REF_KEY), (8, parent)]
  | .sharedData parent count =>
      [(1, SHARED_DATA_REF_KEY), (8, parent), (4, count)]

def InlineRef.pack
    (iref : InlineRef) : List UInt8 :=
  Record.pack iref.fields

/- The values are those of the fields. -/
def InlineRef.Fits
    (iref : InlineRef) : Prop :=
  Record.Fits iref.fields

def packRefs
    (irefs : List InlineRef) : List UInt8 :=
  irefs.flatMap InlineRef.pack

/- `struct btrfs_extent_item`. -/
def ExtentItem.fields
    (item : ExtentItem) : List (Nat × Nat) :=
  [(8, item.refs), (8, item.generation), (8, item.flags)]

/-
  An item; `info` are the bytes of the
  `struct btrfs_tree_block_info` of a fat one.
-/
def ExtentItem.pack
    (item : ExtentItem)
    (info : List UInt8) : List UInt8 :=
  Record.pack item.fields ++ info ++ packRefs item.inlineRefs

/- The space before the inline references. -/
def ExtentItem.header
    (item : ExtentItem)
    (type : Nat) : Nat :=
  24 +
    (if item.isTreeBlock ∧ type = EXTENT_ITEM_KEY
      then 18 else 0)

/- An item of the current format, with a key of some type. -/
structure WellFormed
    (item : ExtentItem)
    (info : List UInt8)
    (type : Nat) : Prop where
  fields : Record.Fits item.fields
  irefs : ∀ iref ∈ item.inlineRefs, iref.Fits
  info : info.length =
    if item.isTreeBlock ∧ type = EXTENT_ITEM_KEY then 18 else 0
  kind : item.isTreeBlock ∨
    item.flags &&& EXTENT_FLAG_DATA ≠ 0

/- The space of inline references. -/
def refsSize
    (irefs : List InlineRef) : Nat :=
  (irefs.map fun iref => inlineRefSize iref.type).sum

theorem InlineRef.length_pack
    (iref : InlineRef) :
    iref.pack.length = inlineRefSize iref.type := by
  unfold InlineRef.pack
  rw [Record.length_pack]
  cases iref with
  | treeBlock root => rfl
  | extentData ref => rfl
  | sharedBlock parent => rfl
  | sharedData parent count => rfl

theorem length_packRefs
    (irefs : List InlineRef) :
    (packRefs irefs).length = refsSize irefs := by
  unfold packRefs refsSize
  rw [List.length_flatMap]
  simp only [InlineRef.length_pack]

theorem refsSize_append
    (xs ys : List InlineRef) :
    refsSize (xs ++ ys) = refsSize xs + refsSize ys := by
  unfold refsSize
  rw [List.map_append, List.sum_append]

theorem packRefs_append
    (xs ys : List InlineRef) :
    packRefs (xs ++ ys) = packRefs xs ++ packRefs ys :=
  List.flatMap_append

theorem packRefs_cons
    (iref : InlineRef)
    (irefs : List InlineRef) :
    packRefs (iref :: irefs) = iref.pack ++ packRefs irefs :=
  List.flatMap_cons

theorem ExtentItem.size_eq
    (item : ExtentItem)
    (type : Nat) :
    item.size type = item.header type +
      refsSize item.inlineRefs :=
  rfl

section Item

variable {item : ExtentItem}
variable {info : List UInt8}
variable {type : Nat}

theorem WellFormed.length_header
    (hFormed : WellFormed item info type) :
    (Record.pack item.fields ++ info).length =
      item.header type := by
  rw [List.length_append, Record.length_pack, hFormed.info]
  rfl

/- The item is as large as its header and its references. -/
theorem WellFormed.length_pack
    (hFormed : WellFormed item info type) :
    (item.pack info).length = item.size type := by
  unfold ExtentItem.pack
  rw [List.length_append, hFormed.length_header,
    length_packRefs, ExtentItem.size_eq]

/- What is behind the header and some references. -/
theorem WellFormed.drop_pack
    {before after : List InlineRef}
    (hFormed : WellFormed item info type)
    (hIrefs : item.inlineRefs = before ++ after) :
    (item.pack info).drop
        (item.header type + refsSize before) =
      packRefs after := by
  unfold ExtentItem.pack
  rw [hIrefs, packRefs_append, ← List.append_assoc]
  apply List.drop_left'
  rw [List.length_append, hFormed.length_header,
    length_packRefs]

end Item

----------
-- The Loop
----------

/- `btrfs_extent_inline_ref_size`, with its `BUG`. -/
def inlineRefSize?
    (type : Nat) : Option Nat :=
  if type = TREE_BLOCK_REF_KEY ∨ type = SHARED_BLOCK_REF_KEY ∨
      type = SHARED_DATA_REF_KEY ∨
      type = EXTENT_DATA_REF_KEY then
    some (inlineRefSize type)
  else none

/- `struct btrfs_extent_data_ref`, less its count. -/
def readOwner
    (bytes : List UInt8)
    (place : Nat) : Owner where
  root := field bytes place 8
  objectid := field bytes (place + 8) 8
  offset := field bytes (place + 16) 8

/- What the loop leaves: whether it was found, and `ptr`. -/
abbrev Scanned : Type := Except Stop (Bool × Nat)

/- `ptr += btrfs_extent_inline_ref_size(type)`. -/
def nextRef
    (type ptr : Nat) : Nat ⊕ Scanned :=
  match inlineRefSize? type with
  | none => .inr (.error .bug)
  | some size => .inl (ptr + size)

/- A turn of the loop. -/
def lookupTurn
    (bytes : List UInt8)
    (target : Target)
    (ptr : Nat) : Nat ⊕ Scanned :=
  if bytes.length ≤ ptr then .inr (.ok (false, ptr))
  else
    let want := extentRefType target.parent target.owner
    let type := field bytes ptr 1
    if want < type then .inr (.ok (false, ptr))
    else if type < want then nextRef type ptr
    else if type = EXTENT_DATA_REF_KEY then
      let owner := readOwner bytes (ptr + 1)
      if owner = target.dataOwner then .inr (.ok (true, ptr))
      else if hashExtentDataRef owner <
          hashExtentDataRef target.dataOwner then
        .inr (.ok (false, ptr))
      else nextRef type ptr
    else
      let ref_offset := field bytes (ptr + 1) 8
      if 0 < target.parent then
        if target.parent = ref_offset then
          .inr (.ok (true, ptr))
        else if ref_offset < target.parent then
          .inr (.ok (false, ptr))
        else nextRef type ptr
      else
        if target.rootObjectid = ref_offset then
          .inr (.ok (true, ptr))
        else if ref_offset < target.rootObjectid then
          .inr (.ok (false, ptr))
        else nextRef type ptr

section Turn

variable {bytes rest : List UInt8}
variable {iref : InlineRef}
variable {ptr : Nat}

theorem nextRef_type
    (iref : InlineRef)
    (ptr : Nat) :
    nextRef iref.type ptr =
      .inl (ptr + inlineRefSize iref.type) := by
  cases iref with
  | treeBlock root => rfl
  | extentData ref => rfl
  | sharedBlock parent => rfl
  | sharedData parent count => rfl

/- A field of the inline reference at a place. -/
theorem field_at
    {w v : Nat}
    (i place : Nat)
    (hDrop : bytes.drop ptr = iref.pack ++ rest)
    (hFits : iref.Fits)
    (hAt : iref.fields[i]? = some (w, v))
    (hPlace : space (iref.fields.take i) = place) :
    field bytes (ptr + place) w = v := by
  rw [field_drop, hDrop]
  exact field_pack i place rest hFits hAt hPlace

theorem field_type
    (hDrop : bytes.drop ptr = iref.pack ++ rest)
    (hFits : iref.Fits) :
    field bytes ptr 1 = iref.type := by
  have hField : ∀ v, iref.fields[0]? = some (1, v) →
      field bytes (ptr + 0) 1 = v :=
    fun v hAt => field_at 0 0 hDrop hFits hAt rfl
  cases iref with
  | treeBlock root
  | extentData ref
  | sharedBlock parent
  | sharedData parent count => exact hField _ rfl

theorem readOwner_at
    {ref : ExtentDataRef}
    (hDrop : bytes.drop ptr =
      (InlineRef.extentData ref).pack ++ rest)
    (hFits : (InlineRef.extentData ref).Fits) :
    readOwner bytes (ptr + 1) = ref.owner := by
  have hRoot := field_at 1 1 hDrop hFits rfl rfl
  have hObjectid := field_at 2 9 hDrop hFits rfl rfl
  have hOffset := field_at 3 17 hDrop hFits rfl rfl
  unfold readOwner
  rw [hRoot, Nat.add_assoc, hObjectid, Nat.add_assoc, hOffset]

/- The references that a number tells from each other. -/
theorem isTarget_iff
    (target : Target)
    (hType : iref.type ≠ EXTENT_DATA_REF_KEY) :
    (iref.isTarget target = true ↔
        (if 0 < target.parent then target.parent
          else target.rootObjectid) = iref.offset) ∧
      (iref.isPast target = true ↔
        iref.offset < if 0 < target.parent then target.parent
          else target.rootObjectid) := by
  by_cases hParent : 0 < target.parent
  · cases iref with
    | extentData ref => exact absurd rfl hType
    | treeBlock root
    | sharedBlock parent
    | sharedData parent count =>
        simp [InlineRef.isTarget, InlineRef.isPast, hParent]
  · cases iref with
    | extentData ref => exact absurd rfl hType
    | treeBlock root
    | sharedBlock parent
    | sharedData parent count =>
        simp [InlineRef.isTarget, InlineRef.isPast, hParent]

theorem field_offset
    (hDrop : bytes.drop ptr = iref.pack ++ rest)
    (hFits : iref.Fits)
    (hType : iref.type ≠ EXTENT_DATA_REF_KEY) :
    field bytes (ptr + 1) 8 = iref.offset := by
  cases iref with
  | extentData ref => exact absurd rfl hType
  | treeBlock root
  | sharedBlock parent
  | sharedData parent count =>
      exact field_at 1 1 hDrop hFits rfl rfl

/- What a turn makes of an inline reference. -/
theorem lookupTurn_at
    (target : Target)
    (hIn : ptr < bytes.length)
    (hDrop : bytes.drop ptr = iref.pack ++ rest)
    (hFits : iref.Fits) :
    lookupTurn bytes target ptr =
      if extentRefType target.parent target.owner < iref.type
      then .inr (.ok (false, ptr))
      else if
        iref.type < extentRefType target.parent target.owner
      then .inl (ptr + inlineRefSize iref.type)
      else if iref.isTarget target then .inr (.ok (true, ptr))
      else if iref.isPast target then .inr (.ok (false, ptr))
      else .inl (ptr + inlineRefSize iref.type) := by
  unfold lookupTurn
  rw [if_neg (Nat.not_le.mpr hIn)]
  dsimp only
  rw [field_type hDrop hFits, nextRef_type]
  by_cases hType : iref.type = EXTENT_DATA_REF_KEY
  · rw [if_pos hType]
    cases iref with
    | extentData ref =>
        rw [readOwner_at hDrop hFits]
        simp only [InlineRef.isTarget, InlineRef.isPast,
          decide_eq_true_eq]
    | treeBlock root => cases hType
    | sharedBlock parent => cases hType
    | sharedData parent count => cases hType
  · rw [if_neg hType, field_offset hDrop hFits hType]
    rcases isTarget_iff target hType with ⟨hTarget, hPast⟩
    simp only [hTarget, hPast]
    by_cases hParent : 0 < target.parent
    · simp only [hParent, if_true]
    · simp only [hParent, if_false]

end Turn

theorem inlineRefSize_pos
    (type : Nat) :
    0 < inlineRefSize type := by
  unfold inlineRefSize
  split
  case isTrue => decide
  case isFalse =>
    split
    case isTrue => decide
    case isFalse => decide

/- The loop over the bytes is that over the references. -/
theorem lookupTurn_ends
    {item : ExtentItem}
    {info : List UInt8}
    {type : Nat}
    (target : Target)
    (before after : List InlineRef)
    (hFormed : WellFormed item info type)
    (hIrefs : item.inlineRefs = before ++ after) :
    let r := scanInline target after before.length
    Loop.Ends (lookupTurn (item.pack info) target)
      (fun w => w = .ok (r.1, item.header type +
        refsSize (item.inlineRefs.take r.2)))
      (item.header type + refsSize before) := by
  have hPlace : item.inlineRefs.take before.length =
      before := by
    rw [hIrefs, List.take_left]
  have hDrop := hFormed.drop_pack hIrefs
  have hLength := hFormed.length_pack
  rw [ExtentItem.size_eq, hIrefs, refsSize_append] at hLength
  induction after generalizing before with
  | nil =>
      have hEnd : (item.pack info).length ≤
          item.header type + refsSize before := by
        have hNone : refsSize [] = 0 := rfl
        omega
      refine .done (w := .ok (false, item.header type +
        refsSize before)) ?_ ?_
      · unfold lookupTurn
        rw [if_pos hEnd]
      · unfold scanInline
        dsimp only
        rw [hPlace]
  | cons iref rest ih =>
      have hFits := hFormed.irefs iref (by simp [hIrefs])
      have hPos := inlineRefSize_pos iref.type
      have hSize : refsSize (iref :: rest) =
          inlineRefSize iref.type + refsSize rest := rfl
      rw [packRefs_cons] at hDrop
      have hTurn := lookupTurn_at target (by omega) hDrop hFits
      have hNext : item.inlineRefs = (before ++ [iref]) ++ rest :=
        by rw [hIrefs, List.append_assoc]; rfl
      have hAgain : Loop.Ends
          (lookupTurn (item.pack info) target)
          (fun w => w = .ok
            ((scanInline target rest (before.length + 1)).1,
              item.header type + refsSize
                (item.inlineRefs.take (scanInline target rest
                  (before.length + 1)).2)))
          (item.header type + refsSize before +
            inlineRefSize iref.type) := by
        have hStep : refsSize (before ++ [iref]) =
            refsSize before + inlineRefSize iref.type := by
          rw [refsSize_append]
          rfl
        have hRest := ih (before ++ [iref]) hNext
          (by rw [hNext, List.take_left])
          (hFormed.drop_pack hNext) (by rw [hStep]; omega)
        rw [List.length_append, List.length_singleton, hStep,
          ← Nat.add_assoc] at hRest
        exact hRest
      unfold scanInline
      dsimp only
      split_ifs at hTurn ⊢ with hWant hMore hTarget hPast
      · exact .done hTurn (by rw [hPlace])
      · exact .turn hTurn hAgain
      · exact .done hTurn (by rw [hPlace])
      · exact .done hTurn (by rw [hPlace])
      · exact .turn hTurn hAgain

end ExtentRefs

end BtrfsProgs
