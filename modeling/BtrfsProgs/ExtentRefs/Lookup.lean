import BtrfsProgs.ExtentRefs.Items

/-
  Finding the record of a tree block, skinny or fat, from
  `extent-tree.c`.

  The calls of `finish_current_insert` and
  `del_pending_extents` at the end of `btrfs_set_block_flags`
  are left out.

  Main declarations:
    * `seekRecord`
    * `lookupExtentInfo` and `setBlockFlags`
    * `lookupInlineExtentBackref`
    * `metadataLookups_exact_iff`
-/

----------
-- The Search
----------

namespace BtrfsProgs

namespace ExtentRefs

open OrderedItems

/- The key of a fat record. -/
def fatKey
    (bytenr size : Nat) : Key :=
  ⟨bytenr, EXTENT_ITEM_KEY, size⟩

/- The key of a skinny record. -/
def skinnyKey
    (bytenr level : Nat) : Key :=
  ⟨bytenr, METADATA_ITEM_KEY, level⟩

/- `btrfs_search_slot` returns zero. -/
def Tree.found
    (t : Tree)
    (k : Key) : Prop :=
  (get k t.items).isSome

instance
    (t : Tree)
    (k : Key) :
    Decidable (t.found k) :=
  inferInstanceAs (Decidable (_ = true))

/- The search for a fat record: the key that is found. -/
def seekFat
    (t : Tree)
    (bytenr size : Nat) : Option Key :=
  if t.found (fatKey bytenr size) then
    some (fatKey bytenr size)
  else
    none

/-
  The search that the three lookups start with: the key of
  the item that `path` ends at.  A look at the item before
  the place overwrites all of `key`, and the second search
  keeps its `objectid`.
-/
def seekRecord
    (t : Tree)
    (skinny : Bool)
    (bytenr level size : Nat) : Option Key :=
  if skinny then
    let key := skinnyKey bytenr level
    if t.found key then
      some key
    else if t.slot key = 0 then
      seekFat t bytenr size
    else
      match t.items[rank key t.items - 1]? with
      | none => none
      | some prev =>
          if prev.1 = fatKey bytenr size then
            some prev.1
          else
            seekFat t prev.1.objectid size
  else
    seekFat t bytenr size

----------
-- btrfs_lookup_extent_info
----------

/- What a caller gets: the refs and flags if they are set. -/
structure ExtentInfo where
  ret : Int
  info : Option (Nat × Nat)
deriving Repr, DecidableEq

/- `btrfs_lookup_extent_info`; `out` returns zero. -/
def lookupExtentInfo
    (fs : FsInfo)
    (t : Tree)
    (bytenr offset : Nat)
    (metadata : Bool) : ExtentInfo :=
  let size := if metadata then fs.leafsize else offset
  match seekRecord t (metadata && fs.skinnyMetadata) bytenr
      offset size with
  | none => ⟨0, none⟩
  | some key =>
      match get key t.items with
      | some (.extent item) =>
          ⟨0, some (item.refs, item.flags)⟩
      | _ => ⟨0, none⟩

----------
-- btrfs_set_block_flags
----------

/- `btrfs_set_block_flags`: the items after the call. -/
def setBlockFlags
    (fs : FsInfo)
    (t : Tree)
    (bytenr level flags : Nat) :
    Except Stop (List (Key × Value)) :=
  match seekRecord t fs.skinnyMetadata bytenr level
      fs.leafsize with
  | none => .error .bug
  | some key =>
      match get key t.items with
      | some (.extent item) =>
          .ok (put key (.extent
            { item with flags := flags ||| item.flags })
            t.items)
      | _ => .error .bug

----------
-- lookup_inline_extent_backref
----------

/- The reference that is looked for. -/
structure Target where
  parent : Nat
  rootObjectid : Nat
  owner : Nat
  offset : Nat
deriving Repr, DecidableEq

def Target.dataOwner
    (target : Target) : Owner :=
  ⟨target.rootObjectid, target.owner, target.offset⟩

/- `extent_ref_type`. -/
def extentRefType
    (parent owner : Nat) : Nat :=
  if owner < FIRST_FREE_OBJECTID then
    if 0 < parent then SHARED_BLOCK_REF_KEY
    else TREE_BLOCK_REF_KEY
  else
    if 0 < parent then SHARED_DATA_REF_KEY
    else EXTENT_DATA_REF_KEY

/- `btrfs_extent_inline_ref_offset`. -/
def InlineRef.offset : InlineRef → Nat
  | .treeBlock root => root
  | .extentData ref => ref.owner.root
  | .sharedBlock parent => parent
  | .sharedData parent _ => parent

/- A reference of the wanted type is the one. -/
def InlineRef.isTarget
    (target : Target) : InlineRef → Bool
  | .extentData ref => ref.owner = target.dataOwner
  | iref =>
      if 0 < target.parent then target.parent = iref.offset
      else target.rootObjectid = iref.offset

/- The wanted reference would stand before this one. -/
def InlineRef.isPast
    (target : Target) : InlineRef → Bool
  | .extentData ref =>
      hashExtentDataRef ref.owner <
        hashExtentDataRef target.dataOwner
  | iref =>
      if 0 < target.parent then iref.offset < target.parent
      else iref.offset < target.rootObjectid

/-
  The loop over the inline references: whether the reference
  is there, and the place where it is or would be.
-/
def scanInline
    (target : Target) :
    List InlineRef → Nat → Bool × Nat
  | [], place => (false, place)
  | iref :: rest, place =>
      let want := extentRefType target.parent target.owner
      if want < iref.type then (false, place)
      else if iref.type < want then
        scanInline target rest (place + 1)
      else if iref.isTarget target then (true, place)
      else if iref.isPast target then (false, place)
      else scanInline target rest (place + 1)

/- `BTRFS_LEAF_DATA_SIZE`. -/
def leafDataSize
    (fs : FsInfo) : Nat :=
  fs.leafsize - 101

/- `BTRFS_MAX_EXTENT_ITEM_SIZE`. -/
def maxExtentItemSize
    (fs : FsInfo) : Nat :=
  leafDataSize fs / 16 - 25

/-
  What `lookup_inline_extent_backref` leaves behind: its
  result, the item of `path`, and `*ref_ret`.
-/
structure InlineLookup where
  err : Option Errno
  key : Key
  place : Nat
deriving Repr, DecidableEq

/- `find_next_key`, and the test on what it finds. -/
def hasKeyedRef
    (t : Tree)
    (key : Key)
    (bytenr : Nat) : Bool :=
  match t.items[rank key t.items + 1]? with
  | none => false
  | some next =>
      next.1.objectid = bytenr ∧
        next.1.type < BLOCK_GROUP_ITEM_KEY

/-
  `lookup_inline_extent_backref`.  An error before the
  references are read ends the call; `ENOENT` and `EAGAIN`
  after that are results.
-/
def lookupInlineExtentBackref
    (fs : FsInfo)
    (t : Tree)
    (bytenr numBytes : Nat)
    (target : Target)
    (insert : Bool) : Except Stop InlineLookup :=
  let want := extentRefType target.parent target.owner
  let skinny :=
    decide (target.owner < FIRST_FREE_OBJECTID) &&
      fs.skinnyMetadata
  match seekRecord t skinny bytenr target.owner numBytes with
  | none => .error (.err .enoent)
  | some key =>
      match get key t.items with
      | some (.extent item) =>
          if ¬item.isTreeBlock ∧
              item.flags &&& EXTENT_FLAG_DATA = 0 then
            .error (.err .eio)
          else
            let (isThere, place) :=
              scanInline target item.inlineRefs 0
            if isThere then
              .ok ⟨none, key, place⟩
            else if insert ∧
                maxExtentItemSize fs ≤
                  item.size key.type + inlineRefSize want then
              .ok ⟨some .eagain, key, place⟩
            else if insert ∧ hasKeyedRef t key bytenr then
              .ok ⟨some .eagain, key, place⟩
            else
              .ok ⟨some .enoent, key, place⟩
      | _ => .error .bug

----------
-- Records
----------

section Records

variable {t : Tree}
variable {skinny : Bool}
variable {bytenr level size : Nat}

/- The key of a record of the block, in one of the forms. -/
def IsRecord
    (t : Tree)
    (skinny : Bool)
    (bytenr level size : Nat)
    (k : Key) : Prop :=
  t.found k ∧
    (skinny = true ∧ k = skinnyKey bytenr level ∨
      k = fatKey bytenr size)

/- The block has a record. -/
def HasRecord
    (t : Tree)
    (skinny : Bool)
    (bytenr level size : Nat) : Prop :=
  ∃ k, IsRecord t skinny bytenr level size k

/-
  The item before the place of the skinny key belongs to an
  extent with a fat record of this size.
-/
def Misled
    (t : Tree)
    (skinny : Bool)
    (bytenr level size : Nat) : Prop :=
  skinny = true ∧ t.slot (skinnyKey bytenr level) ≠ 0 ∧
    ∃ prev,
      t.items[rank (skinnyKey bytenr level) t.items - 1]? =
          some prev ∧
        t.found (fatKey prev.1.objectid size)

theorem IsRecord.objectid
    {k : Key}
    (hRecord : IsRecord t skinny bytenr level size k) :
    k.objectid = bytenr := by
  rcases hRecord.2 with ⟨_, rfl⟩ | rfl
  · rfl
  · rfl

theorem IsRecord.exists_item
    {k : Key}
    (hRecord : IsRecord t skinny bytenr level size k) :
    ∃ item, get k t.items = some (.extent item) := by
  rcases Option.isSome_iff_exists.mp hRecord.1 with
    ⟨value, hGet⟩
  have hType :
      k.type = EXTENT_ITEM_KEY ∨
        k.type = METADATA_ITEM_KEY := by
    rcases hRecord.2 with ⟨_, rfl⟩ | rfl
    · exact Or.inr rfl
    · exact Or.inl rfl
  rcases t.exists_extent hGet hType with ⟨item, rfl⟩
  exact ⟨item, hGet⟩

theorem seekFat_eq_some_iff
    {k : Key} :
    seekFat t bytenr size = some k ↔
      t.found (fatKey bytenr size) ∧
        k = fatKey bytenr size := by
  unfold seekFat
  split_ifs with hFound
  · simp [hFound, eq_comm]
  · simp [hFound]

theorem seekFat_of_found
    (hFound : t.found (fatKey bytenr size)) :
    seekFat t bytenr size = some (fatKey bytenr size) :=
  if_pos hFound

/-
  A fat record stands before the place of the skinny key, and
  everything between the two belongs to the same block.
-/
theorem prev_objectid_of_fat
    (hFat : t.found (fatKey bytenr size))
    {prev : Key × Value}
    (hPrev :
      t.items[rank (skinnyKey bytenr level) t.items - 1]? =
        some prev) :
    prev.1.objectid = bytenr := by
  have hKeys :
      fatKey bytenr size < skinnyKey bytenr level := by
    apply Key.lt_iff.mpr
    exact Or.inr ⟨rfl, Or.inl (Nat.lt_succ_self _)⟩
  have hRank :
      rank (fatKey bytenr size) t.items <
        rank (skinnyKey bytenr level) t.items :=
    t.ascending.rank_lt_rank hFat hKeys
  have hLow :
      fatKey bytenr size ≤ prev.1 :=
    t.ascending.le_of_rank_le (by omega) hPrev
  have hHigh :
      prev.1 < skinnyKey bytenr level :=
    lt_of_lt_rank (by omega) hPrev
  rw [Key.le_iff] at hLow
  rw [Key.lt_iff] at hHigh
  simp only [fatKey, skinnyKey] at hLow hHigh
  omega

/- A record that exists is found. -/
theorem seekRecord_of_hasRecord
    (hHas : HasRecord t skinny bytenr level size) :
    ∃ k, seekRecord t skinny bytenr level size = some k ∧
      IsRecord t skinny bytenr level size k := by
  rcases hHas with ⟨k, hFound, hKey⟩
  unfold seekRecord
  cases skinny with
  | false =>
      rcases hKey with ⟨hFalse, _⟩ | rfl
      · cases hFalse
      · rw [if_neg Bool.false_ne_true,
          seekFat_of_found hFound]
        exact ⟨_, rfl, hFound, Or.inr rfl⟩
  | true =>
      rw [if_pos rfl]
      by_cases hSkinny : t.found (skinnyKey bytenr level)
      · simp only [if_pos hSkinny]
        exact ⟨_, rfl, hSkinny, Or.inl ⟨rfl, rfl⟩⟩
      · have hFat : t.found (fatKey bytenr size) := by
          rcases hKey with ⟨_, rfl⟩ | rfl
          · exact absurd hFound hSkinny
          · exact hFound
        have hGood :
            IsRecord t true bytenr level size
              (fatKey bytenr size) :=
          ⟨hFat, Or.inr rfl⟩
        simp only [if_neg hSkinny]
        split_ifs with hSlot
        · exact ⟨_, seekFat_of_found hFat, hGood⟩
        · split
          case h_1 hNone =>
            -- the slot counts items before the place
            have hLe := t.slot_le (skinnyKey bytenr level)
            have hLen := rank_le_length
              (skinnyKey bytenr level) t.items
            rw [List.getElem?_eq_none_iff] at hNone
            omega
          case h_2 prev hPrev =>
            by_cases hEq : prev.1 = fatKey bytenr size
            · rw [if_pos hEq, hEq]
              exact ⟨_, rfl, hGood⟩
            · rw [if_neg hEq, prev_objectid_of_fat hFat hPrev]
              exact ⟨_, seekFat_of_found hFat, hGood⟩

/- Without a record, only another extent can be found. -/
theorem seekRecord_of_not_hasRecord
    (hNone : ¬HasRecord t skinny bytenr level size) :
    (∃ k, seekRecord t skinny bytenr level size = some k) ↔
      Misled t skinny bytenr level size := by
  have hFat : ¬t.found (fatKey bytenr size) :=
    fun h => hNone ⟨_, h, Or.inr rfl⟩
  have hSeekFat : seekFat t bytenr size = none :=
    if_neg hFat
  unfold seekRecord Misled
  cases skinny with
  | false => simp [hSeekFat]
  | true =>
      have hSkinny : ¬t.found (skinnyKey bytenr level) :=
        fun h => hNone ⟨_, h, Or.inl ⟨rfl, rfl⟩⟩
      simp only [if_true, if_neg hSkinny, true_and]
      by_cases hSlot : t.slot (skinnyKey bytenr level) = 0
      · simp [hSlot, hSeekFat]
      · simp only [ne_eq, hSlot, not_false_eq_true, true_and,
          if_false]
        cases hPrev :
          t.items[rank (skinnyKey bytenr level) t.items - 1]?
        case none => simp
        case some prev =>
          have hNe : prev.1 ≠ fatKey bytenr size := by
            intro hEq
            apply hFat
            have hMem := List.mem_of_getElem? hPrev
            have hGet := t.ascending.get_of_mem hMem
            unfold Tree.found
            rw [← hEq, hGet]
            rfl
          simp only [if_neg hNe]
          constructor
          · rintro ⟨k, hSeek⟩
            exact ⟨prev, rfl,
              (seekFat_eq_some_iff.mp hSeek).1⟩
          · rintro ⟨other, hOther, hFound⟩
            cases hOther
            exact ⟨_, seekFat_of_found hFound⟩

/- The item that is read is one of the block. -/
def ReadsOwn
    (t : Tree)
    (skinny : Bool)
    (bytenr level size : Nat) : Prop :=
  ∀ k, seekRecord t skinny bytenr level size = some k →
    k.objectid = bytenr

theorem readsOwn_of_hasRecord
    (hHas : HasRecord t skinny bytenr level size) :
    ReadsOwn t skinny bytenr level size := by
  intro k hSeek
  rcases seekRecord_of_hasRecord hHas with
    ⟨k', hSeek', hRecord⟩
  rw [hSeek] at hSeek'
  cases hSeek'
  exact hRecord.objectid

/- A found key that is no record is one of another extent. -/
theorem not_readsOwn_of_misled
    (hNone : ¬HasRecord t skinny bytenr level size)
    (hMisled : Misled t skinny bytenr level size) :
    ¬ReadsOwn t skinny bytenr level size := by
  intro hOwn
  rcases hMisled with ⟨rfl, hSlot, prev, hPrev, hFound⟩
  have hFat : ¬t.found (fatKey bytenr size) :=
    fun h => hNone ⟨_, h, Or.inr rfl⟩
  have hSkinny : ¬t.found (skinnyKey bytenr level) :=
    fun h => hNone ⟨_, h, Or.inl ⟨rfl, rfl⟩⟩
  have hObj : prev.1.objectid ≠ bytenr := by
    intro hEq
    rw [hEq] at hFound
    exact hFat hFound
  have hNe : prev.1 ≠ fatKey bytenr size := by
    intro hEq
    apply hObj
    rw [hEq]
    rfl
  have hSeek :
      seekRecord t true bytenr level size =
        some (fatKey prev.1.objectid size) := by
    unfold seekRecord
    simp only [if_true, if_neg hSkinny, if_neg hSlot, hPrev,
      if_neg hNe]
    exact seekFat_of_found hFound
  exact hObj (hOwn (fatKey prev.1.objectid size) hSeek)

end Records

----------
-- Exact Lookups
----------

section Exact

variable (fs : FsInfo)
variable (t : Tree)
variable (bytenr level : Nat)

/-
  `btrfs_lookup_extent_info` returns zero exactly for a block
  with a record, and reports what the record says.
-/
def LookupExact : Prop :=
  ((lookupExtentInfo fs t bytenr level true).ret = 0 ↔
      HasRecord t fs.skinnyMetadata bytenr level
        fs.leafsize) ∧
    ((lookupExtentInfo fs t bytenr level true).ret = 0 →
      ∃ k item,
        IsRecord t fs.skinnyMetadata bytenr level
            fs.leafsize k ∧
          get k t.items = some (.extent item) ∧
          (lookupExtentInfo fs t bytenr level true).info =
            some (item.refs, item.flags))

/-
  `btrfs_set_block_flags` reads and changes only an item of
  the block, and does not return when there is no record.
-/
def SetFlagsExact
    (flags : Nat) : Prop :=
  ReadsOwn t fs.skinnyMetadata bytenr level fs.leafsize ∧
    (∀ items,
      setBlockFlags fs t bytenr level flags = .ok items →
        ∀ k, get k items ≠ get k t.items →
          k.objectid = bytenr) ∧
    (¬HasRecord t fs.skinnyMetadata bytenr level
        fs.leafsize →
      ∃ stop,
        setBlockFlags fs t bytenr level flags = .error stop)

/- The forms `lookup_inline_extent_backref` looks for. -/
def inlineForms
    (target : Target) : Bool :=
  decide (target.owner < FIRST_FREE_OBJECTID) &&
    fs.skinnyMetadata

/-
  `lookup_inline_extent_backref` reads only an item of the
  extent, and fails when there is no record.
-/
def InlineExact
    (numBytes : Nat)
    (target : Target)
    (insert : Bool) : Prop :=
  ReadsOwn t (inlineForms fs target) bytenr target.owner
      numBytes ∧
    (∀ r,
      lookupInlineExtentBackref fs t bytenr numBytes target
          insert = .ok r →
        r.key.objectid = bytenr) ∧
    (¬HasRecord t (inlineForms fs target) bytenr
        target.owner numBytes →
      ∃ stop,
        lookupInlineExtentBackref fs t bytenr numBytes target
          insert = .error stop)

/- The search does not run into another extent. -/
def NotMisled
    (skinny : Bool)
    (size : Nat) : Prop :=
  HasRecord t skinny bytenr level size ∨
    ¬Misled t skinny bytenr level size

theorem lookupExtentInfo_ret
    (metadata : Bool) :
    (lookupExtentInfo fs t bytenr level metadata).ret = 0 := by
  unfold lookupExtentInfo
  simp only
  split
  · rfl
  · split
    · rfl
    · rfl

theorem lookupExact_iff :
    LookupExact fs t bytenr level ↔
      HasRecord t fs.skinnyMetadata bytenr level
        fs.leafsize := by
  have hRet := lookupExtentInfo_ret fs t bytenr level true
  constructor
  · intro hExact
    exact hExact.1.mp hRet
  · intro hHas
    refine ⟨iff_of_true hRet hHas, fun _ => ?_⟩
    rcases seekRecord_of_hasRecord hHas with
      ⟨k, hSeek, hRecord⟩
    rcases hRecord.exists_item with ⟨item, hGet⟩
    refine ⟨k, item, hRecord, hGet, ?_⟩
    unfold lookupExtentInfo
    simp only [Bool.true_and, if_true, hSeek, hGet]

/- With or without a record, for the two other functions. -/
theorem readsOwn_iff
    (skinny : Bool)
    (size : Nat) :
    ReadsOwn t skinny bytenr level size ↔
      NotMisled t bytenr level skinny size := by
  unfold NotMisled
  by_cases hHas : HasRecord t skinny bytenr level size
  · exact iff_of_true (readsOwn_of_hasRecord hHas)
      (Or.inl hHas)
  · constructor
    · intro hOwn
      refine Or.inr fun hMisled => ?_
      exact not_readsOwn_of_misled hHas hMisled hOwn
    · rintro (h | hNot)
      · exact absurd h hHas
      · intro k hSeek
        exact absurd
          ((seekRecord_of_not_hasRecord hHas).mp ⟨k, hSeek⟩)
          hNot

theorem seekRecord_eq_none
    {skinny : Bool}
    {size : Nat}
    (hSafe : NotMisled t bytenr level skinny size)
    (hNone : ¬HasRecord t skinny bytenr level size) :
    seekRecord t skinny bytenr level size = none := by
  rcases hSafe with h | hNot
  · exact absurd h hNone
  · rw [Option.eq_none_iff_forall_ne_some]
    intro k hSeek
    exact hNot ((seekRecord_of_not_hasRecord hNone).mp
      ⟨k, hSeek⟩)

theorem setFlagsExact_iff
    (flags : Nat) :
    SetFlagsExact fs t bytenr level flags ↔
      NotMisled t bytenr level fs.skinnyMetadata
        fs.leafsize := by
  rw [← readsOwn_iff]
  constructor
  · intro hExact
    exact hExact.1
  · intro hOwn
    refine ⟨hOwn, ?_, ?_⟩
    · intro items hSet k hChanged
      unfold setBlockFlags at hSet
      split at hSet
      case h_1 => cases hSet
      case h_2 key hSeek =>
        split at hSet
        case h_1 item hGet =>
          cases hSet
          by_cases hKey : k = key
          · subst hKey
            exact hOwn k hSeek
          · exact absurd (get_put_of_ne hKey _ _) hChanged
        case h_2 => cases hSet
    · intro hNone
      rw [readsOwn_iff] at hOwn
      unfold setBlockFlags
      rw [seekRecord_eq_none t bytenr level hOwn hNone]
      exact ⟨_, rfl⟩

theorem inlineExact_iff
    (numBytes : Nat)
    (target : Target)
    (insert : Bool) :
    InlineExact fs t bytenr numBytes target insert ↔
      NotMisled t bytenr target.owner
        (inlineForms fs target) numBytes := by
  rw [← readsOwn_iff]
  constructor
  · intro hExact
    exact hExact.1
  · intro hOwn
    refine ⟨hOwn, ?_, ?_⟩
    · intro r hLookup
      unfold lookupInlineExtentBackref at hLookup
      simp only at hLookup
      split at hLookup
      case h_1 => cases hLookup
      case h_2 key hSeek =>
        have hKey := hOwn key hSeek
        split at hLookup
        case h_1 item hGet =>
          split_ifs at hLookup
          all_goals
            cases hLookup
            exact hKey
        case h_2 => cases hLookup
    · intro hNone
      rw [readsOwn_iff] at hOwn
      have hSeek :=
        seekRecord_eq_none t bytenr target.owner hOwn hNone
      unfold inlineForms at hSeek
      unfold lookupInlineExtentBackref
      simp only [hSeek]
      exact ⟨_, rfl⟩

/-
  The three lookups, for every tree and every block: a missing
  record is never reported by the first, and the other two
  may take the record of another extent for it.
-/
theorem metadataLookups_exact_iff
    (flags numBytes : Nat)
    (target : Target)
    (insert : Bool) :
    (LookupExact fs t bytenr level ↔
        HasRecord t fs.skinnyMetadata bytenr level
          fs.leafsize) ∧
      (SetFlagsExact fs t bytenr level flags ↔
        NotMisled t bytenr level fs.skinnyMetadata
          fs.leafsize) ∧
      (InlineExact fs t bytenr numBytes target insert ↔
        NotMisled t bytenr target.owner
          (inlineForms fs target) numBytes) :=
  ⟨lookupExact_iff fs t bytenr level,
    setFlagsExact_iff fs t bytenr level flags,
    inlineExact_iff fs t bytenr numBytes target insert⟩

end Exact

----------
-- A Missing Record
----------

/- One fat record, of the block at 1048576. -/
def fatTree : Tree where
  items :=
    [(⟨1048576, EXTENT_ITEM_KEY, 16384⟩,
      .extent ⟨3, 7, EXTENT_FLAG_TREE_BLOCK,
        [.treeBlock 5]⟩)]
  ascending := List.pairwise_singleton _ _
  fits := by decide
  slot := fun k => rank k
    [(⟨1048576, EXTENT_ITEM_KEY, 16384⟩,
      Value.extent ⟨3, 7, EXTENT_FLAG_TREE_BLOCK,
        [.treeBlock 5]⟩)]
  slot_le := fun _ => le_rfl

def skinnyFs : FsInfo := ⟨true, 16384⟩

/-
  The block at 1064960 has no record: the lookups take that
  of the block at 1048576.
-/
theorem missingRecord_not_exact :
    ¬HasRecord fatTree true 1064960 0 16384 ∧
      lookupExtentInfo skinnyFs fatTree 1064960 0 true =
        ⟨0, some (3, 2)⟩ ∧
      (∃ items,
        setBlockFlags skinnyFs fatTree 1064960 0 256 =
            .ok items ∧
          get ⟨1048576, EXTENT_ITEM_KEY, 16384⟩ items =
            some (.extent ⟨3, 7, 258, [.treeBlock 5]⟩)) ∧
      lookupInlineExtentBackref skinnyFs fatTree 1064960
          16384 ⟨0, 5, 0, 0⟩ false =
        .ok ⟨none, ⟨1048576, EXTENT_ITEM_KEY, 16384⟩, 0⟩ := by
  refine ⟨?_, by decide, ⟨_, rfl, by decide⟩, by decide⟩
  rintro ⟨k, hFound, ⟨_, rfl⟩ | rfl⟩
  · exact absurd hFound (by decide)
  · exact absurd hFound (by decide)

end ExtentRefs

end BtrfsProgs
