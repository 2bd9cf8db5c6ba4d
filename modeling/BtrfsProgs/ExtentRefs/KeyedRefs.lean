import BtrfsProgs.ExtentRefs.Items

/-
  Data references that have an item of their own, from
  `extent-tree.c`.

  A key offset starts below 2^63 and a tree has fewer than
  2^60 items, so `key.offset++` does not wrap.

  Main declarations:
    * `lookupExtentDataRef`
    * `insertExtentDataRef` and `removeExtentDataRef`
    * `KeyedExact`
    * `runRefs_keyedExact`
-/

----------
-- lookup_extent_data_ref
----------

namespace BtrfsProgs

namespace ExtentRefs

open OrderedItems

/- The key at which the search for a reference starts. -/
def dataRefKey
    (bytenr offset : Nat) : Key :=
  ⟨bytenr, EXTENT_DATA_REF_KEY, offset⟩

/- `match_extent_data_ref`. -/
def matchExtentDataRef
    (owner : Owner) : Value → Bool
  | .dataRef ref => ref.owner = owner
  | _ => false

section Lookup

variable (firstInLeaf : Key → Bool)

/- The path moves to another leaf to get to the next item. -/
def movesLeaf
    (items : List (Key × Value)) : Bool :=
  match items with
  | [] => false
  | item :: _ => firstInLeaf item.1

/-
  The loop of `lookup_extent_data_ref` over the items from the
  place on: the key that matches, and `recow`.
-/
def matchLoop
    (bytenr : Nat)
    (owner : Owner) :
    List (Key × Value) → Bool → Option (Key × Bool)
  | [], _ => none
  | item :: rest, recow =>
      if item.1.objectid ≠ bytenr ∨
          item.1.type ≠ EXTENT_DATA_REF_KEY then
        none
      else if matchExtentDataRef owner item.2 then
        some (item.1, recow)
      else
        matchLoop bytenr owner rest
          (recow || movesLeaf firstInLeaf rest)

/- The part of `lookup_extent_data_ref` from `again` on. -/
def lookupAgain
    (items : List (Key × Value))
    (bytenr : Nat)
    (owner : Owner) :
    Nat → Key → Option Key
  | 0, _ => none
  | fuel + 1, key =>
      let rest := items.drop (rank key items)
      let recow :=
        (get key items).isNone && movesLeaf firstInLeaf rest
      match matchLoop firstInLeaf bytenr owner rest recow with
      | none => none
      | some (key, true) =>
          lookupAgain items bytenr owner fuel key
      | some (key, false) => some key

/-
  `lookup_extent_data_ref`: the item `path` ends at, or
  `-ENOENT`.  A second search starts at the match itself.
-/
def lookupExtentDataRef
    (items : List (Key × Value))
    (bytenr parent : Nat)
    (owner : Owner) : Option Key :=
  if 0 < parent then
    let shared : Key := ⟨bytenr, SHARED_DATA_REF_KEY, parent⟩
    let old : Key := ⟨bytenr, EXTENT_REF_V0_KEY, parent⟩
    if (get shared items).isSome then some shared
    else if (get old items).isSome then some old
    else none
  else
    lookupAgain firstInLeaf items bytenr owner 2
      (dataRefKey bytenr (hashExtentDataRef owner))

end Lookup

----------
-- insert_extent_data_ref
----------

/-
  The loop of `insert_extent_data_ref`: the offset where it
  ends, and the count of the item that is there.  Every turn
  passes an item.
-/
def probeLoop
    (items : List (Key × Value))
    (bytenr : Nat)
    (owner : Owner) :
    Nat → Nat → Except Stop (Nat × Option Nat)
  | 0, _ => .error .bug
  | fuel + 1, offset =>
      match get (dataRefKey bytenr offset) items with
      | none => .ok (offset, none)
      | some (.dataRef ref) =>
          if ref.owner = owner then
            .ok (offset, some ref.count)
          else
            probeLoop items bytenr owner fuel (offset + 1)
      | some _ => .error .bug

/- `insert_extent_data_ref`: the items after the call. -/
def insertExtentDataRef
    (items : List (Key × Value))
    (bytenr parent : Nat)
    (owner : Owner)
    (refsToAdd : Nat) :
    Except Stop (List (Key × Value)) :=
  if 0 < parent then
    let key : Key := ⟨bytenr, SHARED_DATA_REF_KEY, parent⟩
    match get key items with
    | none =>
        .ok (put key (.sharedDataRef refsToAdd) items)
    | some (.sharedDataRef count) =>
        .ok (put key (.sharedDataRef
          ((count + refsToAdd) % 2 ^ 32)) items)
    | some _ => .error .bug
  else do
    let (offset, count) ←
      probeLoop items bytenr owner (items.length + 1)
        (hashExtentDataRef owner)
    let key := dataRefKey bytenr offset
    match count with
    | none => .ok (put key (.dataRef ⟨owner, refsToAdd⟩) items)
    | some count =>
        .ok (put key (.dataRef
          ⟨owner, (count + refsToAdd) % 2 ^ 32⟩) items)

----------
-- remove_extent_data_ref
----------

/- The count of an item, and the item with another count. -/
def keyedCount : Value → Option (Nat × (Nat → Value))
  | .dataRef ref =>
      some (ref.count, fun n => .dataRef ⟨ref.owner, n⟩)
  | .sharedDataRef count => some (count, .sharedDataRef)
  | .refV0 count => some (count, .refV0)
  | _ => none

/- `remove_extent_data_ref`, for the item `path` is at. -/
def removeExtentDataRef
    (items : List (Key × Value))
    (key : Key)
    (refsToDrop : Nat) :
    Except Stop (List (Key × Value)) :=
  match (get key items).bind keyedCount with
  | none => .error .bug
  | some (count, setCount) =>
      if count < refsToDrop then .error .bug
      else if count - refsToDrop = 0 then
        .ok (erase key items)
      else
        .ok (put key (setCount (count - refsToDrop)) items)

----------
-- Runs
----------

/-
  A call on the keyed references of one extent.  A reference
  is looked up before it is removed, and `firstInLeaf` says
  how the items are spread over leaves at that time.
-/
inductive RefCall where
  | insert (owner : Owner) (refs : Nat)
  | remove
      (owner : Owner) (refs : Nat) (firstInLeaf : Key → Bool)

/- What a call does to the number of references. -/
def RefCall.count
    (counts : Owner → Nat) : RefCall → Owner → Nat
  | .insert owner refs =>
      Function.update counts owner (counts owner + refs)
  | .remove owner refs _ =>
      Function.update counts owner (counts owner - refs)

/- Inserted less removed references of every owner. -/
def countRefs
    (calls : List RefCall) : Owner → Nat :=
  calls.foldl RefCall.count fun _ => 0

section Runs

variable (bytenr : Nat)

def callRef
    (items : List (Key × Value)) :
    RefCall → Except Stop (List (Key × Value))
  | .insert owner refs =>
      insertExtentDataRef items bytenr 0 owner refs
  | .remove owner refs firstInLeaf =>
      match lookupExtentDataRef firstInLeaf items bytenr 0
          owner with
      | none => .error (.err .enoent)
      | some key => removeExtentDataRef items key refs

/- Calls one after the other. -/
def runRefs :
    List RefCall → List (Key × Value) →
      Except Stop (List (Key × Value))
  | [], items => .ok items
  | call :: calls, items =>
      match callRef bytenr items call with
      | .error stop => .error stop
      | .ok items => runRefs calls items

/-
  One item for each owner that has references, with their
  number, and the lookup finds it.
-/
structure KeyedExact
    (items : List (Key × Value))
    (counts : Owner → Nat) : Prop where
  atMostOne :
    ∀ a b refA refB,
      get (dataRefKey bytenr a) items =
          some (.dataRef refA) →
        get (dataRefKey bytenr b) items =
            some (.dataRef refB) →
          refA.owner = refB.owner → a = b
  exactCount :
    ∀ a ref,
      get (dataRefKey bytenr a) items = some (.dataRef ref) →
        ref.count = counts ref.owner
  lookup :
    ∀ firstInLeaf owner,
      (∃ k, lookupExtentDataRef firstInLeaf items bytenr 0
          owner = some k) ↔ 0 < counts owner
  lookupOwn :
    ∀ firstInLeaf owner k,
      lookupExtentDataRef firstInLeaf items bytenr 0 owner =
          some k →
        ∃ ref, get k items = some (.dataRef ref) ∧
          ref.owner = owner

/-
  The offsets from the hash of an owner up to its item are
  taken.
-/
def NoGap
    (items : List (Key × Value))
    (owner : Owner) : Prop :=
  ∀ a ref,
    get (dataRefKey bytenr a) items = some (.dataRef ref) →
      ref.owner = owner →
        ∀ b, hashExtentDataRef owner ≤ b → b < a →
          (get (dataRefKey bytenr b) items).isSome

/- When a call does what it should. -/
def CallOk
    (items : List (Key × Value))
    (counts : Owner → Nat) : RefCall → Prop
  | .insert owner refs =>
      0 < refs ∧ counts owner + refs < 2 ^ 32 ∧
        NoGap bytenr items owner
  | .remove owner refs _ => 0 < refs ∧ refs ≤ counts owner

/- Every call of a run meets its condition. -/
def RunOk :
    List RefCall → List (Key × Value) → (Owner → Nat) → Prop
  | [], _, _ => True
  | call :: calls, items, counts =>
      CallOk bytenr items counts call ∧
        ∀ items',
          callRef bytenr items call = .ok items' →
            RunOk calls items' (call.count counts)

end Runs

----------
-- The Lookup
----------

section Lookups

variable {firstInLeaf : Key → Bool}
variable {bytenr : Nat}
variable {owner : Owner}
variable {items : List (Key × Value)}

theorem matchExtentDataRef_iff
    {value : Value} :
    matchExtentDataRef owner value = true ↔
      ∃ ref, value = .dataRef ref ∧ ref.owner = owner := by
  cases value <;> simp [matchExtentDataRef]

theorem matchLoop_sound
    {recow recow' : Bool}
    {k : Key}
    (hLoop :
      matchLoop firstInLeaf bytenr owner items recow =
        some (k, recow')) :
    ∃ value, (k, value) ∈ items ∧
      matchExtentDataRef owner value = true ∧
      k.objectid = bytenr ∧ k.type = EXTENT_DATA_REF_KEY := by
  induction items generalizing recow with
  | nil => cases hLoop
  | cons item rest ih =>
      unfold matchLoop at hLoop
      split_ifs at hLoop with hKey hMatch
      · rw [not_or, not_ne_iff, not_ne_iff] at hKey
        cases hLoop
        exact ⟨item.2, List.mem_cons_self, hMatch, hKey⟩
      · rcases ih hLoop with ⟨value, hMem, hRest⟩
        exact ⟨value, List.mem_cons_of_mem _ hMem, hRest⟩

/- All items between the place and a match have its type. -/
theorem matchLoop_complete
    (hAsc : Ascending items)
    {start a : Nat}
    (hStart :
      ∀ item ∈ items, dataRefKey bytenr start ≤ item.1)
    {ref : ExtentDataRef}
    (hMem : (dataRefKey bytenr a, .dataRef ref) ∈ items)
    (hOwner : ref.owner = owner)
    (recow : Bool) :
    ∃ k recow',
      matchLoop firstInLeaf bytenr owner items recow =
        some (k, recow') := by
  induction items generalizing recow with
  | nil => cases hMem
  | cons item rest ih =>
      rcases ascending_cons.mp hAsc with ⟨hFirst, hRest⟩
      have hLow := hStart item List.mem_cons_self
      have hHigh : item.1 ≤ dataRefKey bytenr a := by
        rcases List.mem_cons.mp hMem with rfl | hMem
        · exact le_rfl
        · exact (hFirst _ hMem).le
      have hKey :
          item.1.objectid = bytenr ∧
            item.1.type = EXTENT_DATA_REF_KEY := by
        rw [Key.le_iff] at hLow hHigh
        simp only [dataRefKey] at hLow hHigh
        omega
      unfold matchLoop
      rw [if_neg (by simp [hKey])]
      by_cases hMatch : matchExtentDataRef owner item.2 = true
      · rw [if_pos hMatch]
        exact ⟨_, _, rfl⟩
      · rw [if_neg hMatch]
        apply ih hRest
        · intro other hOther
          exact hStart other (List.mem_cons_of_mem _ hOther)
        · rcases List.mem_cons.mp hMem with rfl | hMem
          · exact absurd
              (matchExtentDataRef_iff.mpr ⟨ref, rfl, hOwner⟩)
              hMatch
          · exact hMem

/- The items from the place of a key that is there. -/
theorem drop_rank_of_get
    (hAsc : Ascending items)
    {k : Key}
    {value : Value}
    (hGet : get k items = some value) :
    ∃ rest, items.drop (rank k items) = (k, value) :: rest := by
  have hItem := hAsc.getElem?_rank hGet
  rcases List.getElem?_eq_some_iff.mp hItem with ⟨hLt, hEq⟩
  refine ⟨items.drop (rank k items + 1), ?_⟩
  rw [List.drop_eq_getElem_cons hLt, hEq]

/- A second search ends at its start. -/
theorem lookupAgain_match
    (hAsc : Ascending items)
    {k : Key}
    {value : Value}
    (hGet : get k items = some value)
    (hMatch : matchExtentDataRef owner value = true)
    (hKey :
      k.objectid = bytenr ∧ k.type = EXTENT_DATA_REF_KEY)
    (fuel : Nat) :
    lookupAgain firstInLeaf items bytenr owner (fuel + 1) k =
      some k := by
  rcases drop_rank_of_get hAsc hGet with ⟨rest, hDrop⟩
  unfold lookupAgain
  simp only [hDrop, hGet, Option.isNone_some, Bool.false_and]
  unfold matchLoop
  rw [if_neg (by simp [hKey]), if_pos hMatch]

theorem lookupExtentDataRef_some
    (hAsc : Ascending items)
    {k : Key}
    (hLookup :
      lookupExtentDataRef firstInLeaf items bytenr 0 owner =
        some k) :
    ∃ a ref, k = dataRefKey bytenr a ∧
      get k items = some (.dataRef ref) ∧
      ref.owner = owner := by
  unfold lookupExtentDataRef at hLookup
  rw [if_neg (lt_irrefl 0)] at hLookup
  unfold lookupAgain at hLookup
  simp only at hLookup
  split at hLookup
  case h_1 => cases hLookup
  all_goals
    rename_i hLoop
    rcases matchLoop_sound hLoop with
      ⟨value, hMem, hMatch, hObj, hType⟩
    have hGet := hAsc.get_of_mem (List.mem_of_mem_drop hMem)
    rcases matchExtentDataRef_iff.mp hMatch with
      ⟨ref, rfl, hOwner⟩
  case h_2 =>
    rw [lookupAgain_match hAsc hGet hMatch ⟨hObj, hType⟩]
      at hLookup
    cases hLookup
    exact ⟨k.offset, ref, Key.ext hObj hType rfl, hGet, hOwner⟩
  case h_3 =>
    cases hLookup
    exact ⟨k.offset, ref, Key.ext hObj hType rfl, hGet, hOwner⟩

theorem lookupExtentDataRef_complete
    (hAsc : Ascending items)
    {a : Nat}
    {ref : ExtentDataRef}
    (hGet :
      get (dataRefKey bytenr a) items = some (.dataRef ref))
    (hOwner : ref.owner = owner)
    (hHash : hashExtentDataRef owner ≤ a) :
    ∃ k, lookupExtentDataRef firstInLeaf items bytenr 0 owner =
      some k := by
  unfold lookupExtentDataRef
  rw [if_neg (lt_irrefl 0)]
  have hStart :
      dataRefKey bytenr (hashExtentDataRef owner) ≤
        dataRefKey bytenr a := by
    apply Key.le_iff.mpr
    exact Or.inr ⟨rfl, Or.inr ⟨rfl, hHash⟩⟩
  have hMem :
      (dataRefKey bytenr a, Value.dataRef ref) ∈
        items.drop (rank (dataRefKey bytenr
          (hashExtentDataRef owner)) items) :=
    hAsc.mem_drop_rank.mpr ⟨mem_of_get hGet, hStart⟩
  have hDropAsc :
      Ascending (items.drop (rank (dataRefKey bytenr
        (hashExtentDataRef owner)) items)) :=
    List.Pairwise.sublist (List.drop_sublist _ _) hAsc
  unfold lookupAgain
  simp only
  generalize
    ((get (dataRefKey bytenr (hashExtentDataRef owner))
      items).isNone && movesLeaf firstInLeaf
        (items.drop (rank (dataRefKey bytenr
          (hashExtentDataRef owner)) items))) = recow
  have hFind :
      ∃ k recow',
        matchLoop firstInLeaf bytenr owner
          (items.drop (rank (dataRefKey bytenr
            (hashExtentDataRef owner)) items)) recow =
          some (k, recow') :=
    matchLoop_complete hDropAsc
      (fun item hItem => (hAsc.mem_drop_rank.mp hItem).2)
      hMem hOwner recow
  rcases hFind with ⟨k, recow', hLoop⟩
  rcases matchLoop_sound hLoop with
    ⟨value, hMemK, hMatch, hKey⟩
  have hGetK := hAsc.get_of_mem (List.mem_of_mem_drop hMemK)
  rw [hLoop]
  cases recow' with
  | false => exact ⟨k, rfl⟩
  | true =>
      exact ⟨k, lookupAgain_match hAsc hGetK hMatch hKey 0⟩

end Lookups

----------
-- The Invariant
----------

/-
  What every run keeps.  A reference may stand behind its
  hash, never before it.
-/
structure KeyedInv
    (bytenr : Nat)
    (items : List (Key × Value))
    (counts : Owner → Nat) : Prop where
  ascending : Ascending items
  fits : ∀ item ∈ items, item.2.Fits item.1.type
  hash_le :
    ∀ a ref,
      get (dataRefKey bytenr a) items = some (.dataRef ref) →
        hashExtentDataRef ref.owner ≤ a
  count :
    ∀ a ref,
      get (dataRefKey bytenr a) items = some (.dataRef ref) →
        ref.count = counts ref.owner ∧ 0 < ref.count
  atMostOne :
    ∀ a b refA refB,
      get (dataRefKey bytenr a) items =
          some (.dataRef refA) →
        get (dataRefKey bytenr b) items =
            some (.dataRef refB) →
          refA.owner = refB.owner → a = b
  present :
    ∀ owner, 0 < counts owner →
      ∃ a ref,
        get (dataRefKey bytenr a) items =
            some (.dataRef ref) ∧
          ref.owner = owner

section Steps

variable {bytenr : Nat}
variable {items : List (Key × Value)}
variable {counts : Owner → Nat}
variable {owner : Owner}

theorem dataRefKey_injective
    {a b : Nat}
    (hEq : dataRefKey bytenr a = dataRefKey bytenr b) :
    a = b :=
  congrArg Key.offset hEq

theorem KeyedInv.dataRef_of_get
    (hInv : KeyedInv bytenr items counts)
    {a : Nat}
    {value : Value}
    (hGet : get (dataRefKey bytenr a) items = some value) :
    ∃ ref, value = .dataRef ref := by
  have hFits := hInv.fits _ (mem_of_get hGet)
  cases value with
  | extent item =>
      rcases hFits with h | h
      · cases h
      · cases h
  | dataRef ref => exact ⟨ref, rfl⟩
  | sharedDataRef count => cases hFits
  | refV0 count => cases hFits
  | other => exact absurd rfl hFits.2.2.1

theorem KeyedInv.keyedExact
    (hInv : KeyedInv bytenr items counts) :
    KeyedExact bytenr items counts where
  atMostOne := hInv.atMostOne
  exactCount := fun a ref hGet => (hInv.count a ref hGet).1
  lookup := by
    intro firstInLeaf owner
    constructor
    · rintro ⟨k, hLookup⟩
      rcases lookupExtentDataRef_some hInv.ascending hLookup
        with ⟨a, ref, rfl, hGet, rfl⟩
      have hCount := hInv.count a ref hGet
      omega
    · intro hPos
      rcases hInv.present owner hPos with
        ⟨a, ref, hGet, rfl⟩
      exact lookupExtentDataRef_complete hInv.ascending hGet
        rfl (hInv.hash_le a ref hGet)
  lookupOwn := by
    intro firstInLeaf owner k hLookup
    rcases lookupExtentDataRef_some hInv.ascending hLookup
      with ⟨a, ref, _, hGet, hOwner⟩
    exact ⟨ref, hGet, hOwner⟩

/-
  The invariant with another item for one owner, at a place
  that was free or its own.
-/
theorem KeyedInv.putRef
    (hInv : KeyedInv bytenr items counts)
    {a n : Nat}
    (hPos : 0 < n)
    (hHash : hashExtentDataRef owner ≤ a)
    (hPlace :
      ∀ ref,
        get (dataRefKey bytenr a) items =
            some (.dataRef ref) → ref.owner = owner)
    (hOnly :
      ∀ b ref,
        get (dataRefKey bytenr b) items =
            some (.dataRef ref) → ref.owner = owner → b = a) :
    KeyedInv bytenr
      (put (dataRefKey bytenr a) (.dataRef ⟨owner, n⟩) items)
      (Function.update counts owner n) := by
  have hGet : ∀ b value,
      get (dataRefKey bytenr b)
          (put (dataRefKey bytenr a) (.dataRef ⟨owner, n⟩)
            items) = some value →
        (b = a ∧ value = .dataRef ⟨owner, n⟩) ∨
          (b ≠ a ∧
            get (dataRefKey bytenr b) items =
              some value) := by
    intro b value h
    by_cases hEq : b = a
    · subst hEq
      rw [get_put_self] at h
      cases h
      exact Or.inl ⟨rfl, rfl⟩
    · rw [get_put_of_ne
        (fun h' => hEq (dataRefKey_injective h'))] at h
      exact Or.inr ⟨hEq, h⟩
  refine ⟨hInv.ascending.put _ _, ?_, ?_, ?_, ?_, ?_⟩
  · intro item hItem
    rcases mem_put hItem with rfl | hItem
    · exact Eq.refl EXTENT_DATA_REF_KEY
    · exact hInv.fits item hItem
  · intro b ref h
    rcases hGet b _ h with ⟨rfl, hRef⟩ | ⟨_, h⟩
    · cases hRef
      exact hHash
    · exact hInv.hash_le b ref h
  · intro b ref h
    rcases hGet b _ h with ⟨rfl, hRef⟩ | ⟨hNe, h⟩
    · cases hRef
      exact ⟨(Function.update_self owner n counts).symm, hPos⟩
    · have hOther : ref.owner ≠ owner :=
        fun hEq => hNe (hOnly b ref h hEq)
      rw [Function.update_of_ne hOther]
      exact hInv.count b ref h
  · intro b c refB refC hB hC hEq
    rcases hGet b _ hB with ⟨hb, hRefB⟩ | ⟨_, hOldB⟩
    · rcases hGet c _ hC with ⟨hc, _⟩ | ⟨_, hOldC⟩
      · exact hb.trans hc.symm
      · cases hRefB
        exact hb.trans (hOnly c refC hOldC hEq.symm).symm
    · rcases hGet c _ hC with ⟨hc, hRefC⟩ | ⟨_, hOldC⟩
      · cases hRefC
        exact (hOnly b refB hOldB hEq).trans hc.symm
      · exact hInv.atMostOne b c refB refC hOldB hOldC hEq
  · intro other hCount
    by_cases hEq : other = owner
    · subst hEq
      exact ⟨a, ⟨other, n⟩, get_put_self _ _ _, rfl⟩
    · rw [Function.update_of_ne hEq] at hCount
      rcases hInv.present other hCount with
        ⟨b, ref, hB, hRef⟩
      refine ⟨b, ref, ?_, hRef⟩
      rw [get_put_of_ne]
      · exact hB
      · intro hKey
        rw [dataRefKey_injective hKey] at hB
        exact hEq (hRef.symm.trans (hPlace ref hB))

/- The invariant without the item of an owner. -/
theorem KeyedInv.eraseRef
    (hInv : KeyedInv bytenr items counts)
    {a : Nat}
    {ref : ExtentDataRef}
    (hRef :
      get (dataRefKey bytenr a) items = some (.dataRef ref)) :
    KeyedInv bytenr (erase (dataRefKey bytenr a) items)
      (Function.update counts ref.owner 0) := by
  have hGet : ∀ b value,
      get (dataRefKey bytenr b)
          (erase (dataRefKey bytenr a) items) =
            some value →
        b ≠ a ∧
          get (dataRefKey bytenr b) items = some value := by
    intro b value h
    by_cases hEq : b = a
    · subst hEq
      rw [get_erase_self] at h
      cases h
    · rw [get_erase_of_ne
        (fun h' => hEq (dataRefKey_injective h'))] at h
      exact ⟨hEq, h⟩
  refine ⟨hInv.ascending.erase _, ?_, ?_, ?_, ?_, ?_⟩
  · intro item hItem
    exact hInv.fits item (mem_erase.mp hItem).1
  · intro b ref' h
    exact hInv.hash_le b ref' (hGet b _ h).2
  · intro b ref' h
    rcases hGet b _ h with ⟨hNe, h⟩
    have hOther : ref'.owner ≠ ref.owner :=
      fun hEq => hNe (hInv.atMostOne b a ref' ref h hRef hEq)
    rw [Function.update_of_ne hOther]
    exact hInv.count b ref' h
  · intro b c refB refC hB hC hEq
    exact hInv.atMostOne b c refB refC (hGet b _ hB).2
      (hGet c _ hC).2 hEq
  · intro other hCount
    by_cases hEq : other = ref.owner
    · rw [hEq, Function.update_self] at hCount
      omega
    · rw [Function.update_of_ne hEq] at hCount
      rcases hInv.present other hCount with
        ⟨b, refB, hB, hOwner⟩
      refine ⟨b, refB, ?_, hOwner⟩
      rw [get_erase_of_ne]
      · exact hB
      · intro hKey
        rw [dataRefKey_injective hKey, hRef] at hB
        cases hB
        exact hEq hOwner.symm

----------
-- One Call
----------

/- Where the probing ends. -/
theorem KeyedInv.probeLoop_spec
    (hInv : KeyedInv bytenr items counts)
    (owner : Owner)
    (fuel offset : Nat)
    (hFuel :
      items.length <
        fuel + rank (dataRefKey bytenr offset) items) :
    ∃ last count,
      probeLoop items bytenr owner fuel offset =
          .ok (last, count) ∧
        offset ≤ last ∧
        (∀ b, offset ≤ b → b < last → ∃ ref,
          get (dataRefKey bytenr b) items =
              some (.dataRef ref) ∧
            ref.owner ≠ owner) ∧
        (count = none ∧
            get (dataRefKey bytenr last) items = none ∨
          ∃ ref,
            get (dataRefKey bytenr last) items =
                some (.dataRef ref) ∧
              ref.owner = owner ∧ count = some ref.count) := by
  induction fuel generalizing offset with
  | zero =>
      have hLe :=
        rank_le_length (dataRefKey bytenr offset) items
      omega
  | succ fuel ih =>
      unfold probeLoop
      cases hGet : get (dataRefKey bytenr offset) items with
      | none =>
          refine ⟨offset, none, rfl, le_rfl, ?_,
            Or.inl ⟨rfl, hGet⟩⟩
          intro b hLe hLt
          omega
      | some value =>
          rcases hInv.dataRef_of_get hGet with ⟨ref, rfl⟩
          by_cases hOwner : ref.owner = owner
          · simp only [if_pos hOwner]
            refine ⟨offset, some ref.count, rfl, le_rfl, ?_,
              Or.inr ⟨ref, hGet, hOwner, rfl⟩⟩
            intro b hLe hLt
            omega
          · simp only [if_neg hOwner]
            have hKeys :
                dataRefKey bytenr offset <
                  dataRefKey bytenr (offset + 1) := by
              apply Key.lt_iff.mpr
              exact Or.inr ⟨rfl,
                Or.inr ⟨rfl, Nat.lt_succ_self _⟩⟩
            have hRank := hInv.ascending.rank_lt_rank
              (by rw [hGet]; rfl) hKeys
            rcases ih (offset + 1) (by omega) with
              ⟨last, count, hLoop, hLe, hBetween, hEnd⟩
            refine ⟨last, count, hLoop, by omega, ?_, hEnd⟩
            intro b hLow hHigh
            by_cases hEq : b = offset
            · subst hEq
              exact ⟨ref, hGet, hOwner⟩
            · exact hBetween b (by omega) hHigh

theorem KeyedInv.insert
    (hInv : KeyedInv bytenr items counts)
    {refs : Nat}
    (hOk : CallOk bytenr items counts (.insert owner refs)) :
    ∃ items',
      insertExtentDataRef items bytenr 0 owner refs =
          .ok items' ∧
        KeyedInv bytenr items'
          (RefCall.count counts (.insert owner refs)) := by
  rcases hOk with ⟨hPos, hSmall, hNoGap⟩
  rcases hInv.probeLoop_spec owner (items.length + 1)
    (hashExtentDataRef owner) (by omega) with
    ⟨last, count, hLoop, hHash, hBetween, hEnd⟩
  have hOnly : ∀ b ref,
      get (dataRefKey bytenr b) items = some (.dataRef ref) →
        ref.owner = owner → b ≤ last → b = last := by
    intro b ref hGet hOwner hLe
    by_contra hNe
    have hLow := hInv.hash_le b ref hGet
    rw [hOwner] at hLow
    rcases hBetween b hLow (by omega) with
      ⟨ref', hGet', hOther⟩
    rw [hGet] at hGet'
    cases hGet'
    exact hOther hOwner
  unfold insertExtentDataRef
  rw [if_neg (lt_irrefl 0), hLoop]
  simp only [bind, Except.bind]
  rcases hEnd with ⟨rfl, hFree⟩ | ⟨ref, hGet, hOwner, rfl⟩
  · -- the owner has no item, or there would be a gap
    have hNone : ∀ b ref,
        get (dataRefKey bytenr b) items =
            some (.dataRef ref) → ref.owner ≠ owner := by
      intro b ref hGet hOwner
      by_cases hLe : b ≤ last
      · rw [hOnly b ref hGet hOwner hLe, hFree] at hGet
        cases hGet
      · have hSome :=
          hNoGap b ref hGet hOwner last hHash (by omega)
        rw [hFree] at hSome
        cases hSome
    have hZero : counts owner = 0 := by
      by_contra hNe
      rcases hInv.present owner (Nat.pos_of_ne_zero hNe) with
        ⟨b, ref, hGet, hOwner⟩
      exact hNone b ref hGet hOwner
    refine ⟨_, rfl, ?_⟩
    simp only [RefCall.count]
    rw [hZero, Nat.zero_add]
    apply hInv.putRef hPos hHash
    · intro ref hGet
      rw [hFree] at hGet
      cases hGet
    · intro b ref hGet hOwner
      exact absurd hOwner (hNone b ref hGet)
  · have hCount := hInv.count last ref hGet
    rw [hOwner] at hCount
    refine ⟨_, rfl, ?_⟩
    simp only [RefCall.count]
    rw [hCount.1, Nat.mod_eq_of_lt hSmall]
    apply hInv.putRef (by omega) hHash
    · intro ref' hGet'
      rw [hGet] at hGet'
      cases hGet'
      exact hOwner
    · intro b ref' hGet' hOwner'
      exact hInv.atMostOne b last ref' ref hGet' hGet
        (hOwner'.trans hOwner.symm)

theorem KeyedInv.remove
    (hInv : KeyedInv bytenr items counts)
    {refs : Nat}
    {firstInLeaf : Key → Bool}
    (hOk :
      CallOk bytenr items counts
        (.remove owner refs firstInLeaf)) :
    ∃ items',
      callRef bytenr items (.remove owner refs firstInLeaf) =
          .ok items' ∧
        KeyedInv bytenr items'
          (RefCall.count counts
            (.remove owner refs firstInLeaf)) := by
  rcases hOk with ⟨hPos, hLe⟩
  rcases (hInv.keyedExact.lookup firstInLeaf owner).mpr
    (by omega) with ⟨k, hLookup⟩
  rcases lookupExtentDataRef_some hInv.ascending hLookup with
    ⟨a, ref, rfl, hGet, rfl⟩
  rcases hInv.count a ref hGet with ⟨hCount, _⟩
  simp only [callRef, RefCall.count, hLookup]
  unfold removeExtentDataRef
  rw [hGet]
  simp only [Option.bind_some, keyedCount]
  rw [if_neg (by omega)]
  by_cases hAll : ref.count - refs = 0
  · rw [if_pos hAll, ← hCount, hAll]
    exact ⟨_, rfl, hInv.eraseRef hGet⟩
  · rw [if_neg hAll, ← hCount]
    refine ⟨_, rfl, ?_⟩
    apply hInv.putRef (by omega) (hInv.hash_le a ref hGet)
    · intro ref' hGet'
      rw [hGet] at hGet'
      cases hGet'
      rfl
    · intro b ref' hGet' hOwner
      exact hInv.atMostOne b a ref' ref hGet' hGet hOwner

theorem KeyedInv.callRef
    (hInv : KeyedInv bytenr items counts)
    {call : RefCall}
    (hOk : CallOk bytenr items counts call) :
    ∃ items',
      callRef bytenr items call = .ok items' ∧
        KeyedInv bytenr items' (call.count counts) := by
  cases call with
  | insert owner refs => exact hInv.insert hOk
  | remove owner refs firstInLeaf => exact hInv.remove hOk

----------
-- Whole Runs
----------

theorem KeyedInv.runRefs
    (hInv : KeyedInv bytenr items counts)
    {calls : List RefCall}
    (hRun : RunOk bytenr calls items counts) :
    ∃ items',
      runRefs bytenr calls items = .ok items' ∧
        KeyedInv bytenr items'
          (calls.foldl RefCall.count counts) := by
  induction calls generalizing items counts with
  | nil => exact ⟨items, rfl, hInv⟩
  | cons call calls ih =>
      rcases hInv.callRef hRun.1 with ⟨items', hCall, hNext⟩
      rcases ih hNext (hRun.2 items' hCall) with
        ⟨last, hLast, hInvLast⟩
      refine ⟨last, ?_, hInvLast⟩
      unfold ExtentRefs.runRefs
      rw [hCall]
      exact hLast

end Steps

/- A tree with no keyed data references of the extent. -/
structure NoDataRefs
    (bytenr : Nat)
    (items : List (Key × Value)) : Prop where
  ascending : Ascending items
  fits : ∀ item ∈ items, item.2.Fits item.1.type
  none : ∀ a, get (dataRefKey bytenr a) items = none

theorem NoDataRefs.keyedInv
    {bytenr : Nat}
    {items : List (Key × Value)}
    (hStart : NoDataRefs bytenr items) :
    KeyedInv bytenr items fun _ => 0 where
  ascending := hStart.ascending
  fits := hStart.fits
  hash_le := by
    intro a ref hGet
    rw [hStart.none] at hGet
    cases hGet
  count := by
    intro a ref hGet
    rw [hStart.none] at hGet
    cases hGet
  atMostOne := by
    intro a b refA refB hGet
    rw [hStart.none] at hGet
    cases hGet
  present := by
    intro owner hPos
    exact absurd hPos (lt_irrefl 0)

/-
  A run whose inserts never find a gap before the owner's item
  ends with one item for each owner, its count exact.
-/
theorem runRefs_keyedExact
    {bytenr : Nat}
    {items : List (Key × Value)}
    (hStart : NoDataRefs bytenr items)
    {calls : List RefCall}
    (hRun : RunOk bytenr calls items fun _ => 0) :
    ∃ items',
      runRefs bytenr calls items = .ok items' ∧
        KeyedExact bytenr items' (countRefs calls) := by
  rcases hStart.keyedInv.runRefs hRun with
    ⟨items', hRuns, hInv⟩
  exact ⟨items', hRuns, hInv.keyedExact⟩

/- Two places of one file with the same hash. -/
def firstOwner : Owner := ⟨5, 257, 0⟩

def secondOwner : Owner := ⟨5, 257, 17999258914816⟩

/- The item of the first, and that of the second after it. -/
def firstItem : Key × Value :=
  (dataRefKey 1048576 1007496934145758698,
    .dataRef ⟨firstOwner, 1⟩)

def secondItem : Key × Value :=
  (dataRefKey 1048576 1007496934145758699,
    .dataRef ⟨secondOwner, 1⟩)

theorem runRefs_keyedExact_twice :
    ∃ items',
      runRefs 1048576
          [.insert firstOwner 1, .insert secondOwner 1,
            .insert secondOwner 1] [] = .ok items' ∧
        KeyedExact 1048576 items'
          (countRefs [.insert firstOwner 1,
            .insert secondOwner 1,
            .insert secondOwner 1]) := by
  have hFirst : callRef 1048576 [] (.insert firstOwner 1) =
      .ok [firstItem] := by decide +kernel
  have hSecond : callRef 1048576 [firstItem]
      (.insert secondOwner 1) =
        .ok [firstItem, secondItem] := by decide +kernel
  have hHash : hashExtentDataRef secondOwner =
      1007496934145758698 := by decide +kernel
  refine runRefs_keyedExact
    ⟨List.Pairwise.nil, by simp, fun _ => rfl⟩
    ⟨⟨by decide, by decide, nofun⟩, fun _ hCall => ?_⟩
  cases hFirst.symm.trans hCall
  refine ⟨⟨by decide, by decide, ?_⟩, fun _ hCall => ?_⟩
  · intro a ref hGet hOwner
    cases List.mem_singleton.mp (mem_of_get hGet)
    exact absurd hOwner (by decide)
  cases hSecond.symm.trans hCall
  refine ⟨⟨by decide, by decide, ?_⟩, fun _ _ => trivial⟩
  intro a ref hGet hOwner b hLe hLt
  rw [hHash] at hLe
  rcases List.mem_cons.mp (mem_of_get hGet) with hIs | hIs
  · cases hIs
    exact absurd hOwner (by decide)
  · cases List.mem_singleton.mp hIs
    cases Nat.le_antisymm (Nat.le_of_lt_succ hLt) hLe
    rfl

/-
  The item of the first owner is removed and leaves a gap, so
  that the second owner gets another item.
-/
theorem gap_not_keyedExact :
    ∃ items,
      runRefs 1048576
          [.insert firstOwner 1, .insert secondOwner 1,
            .remove firstOwner 1 fun _ => false,
            .insert secondOwner 1] [] = .ok items ∧
        get (dataRefKey 1048576 1007496934145758698) items =
          some (.dataRef ⟨secondOwner, 1⟩) ∧
        get (dataRefKey 1048576 1007496934145758699) items =
          some (.dataRef ⟨secondOwner, 1⟩) ∧
        countRefs
          [.insert firstOwner 1, .insert secondOwner 1,
            .remove firstOwner 1 fun _ => false,
            .insert secondOwner 1] secondOwner = 2 := by
  refine ⟨[(dataRefKey 1048576 1007496934145758698,
      .dataRef ⟨secondOwner, 1⟩),
    (dataRefKey 1048576 1007496934145758699,
      .dataRef ⟨secondOwner, 1⟩)], ?_, ?_, ?_, ?_⟩
  all_goals decide +kernel

end ExtentRefs

end BtrfsProgs
