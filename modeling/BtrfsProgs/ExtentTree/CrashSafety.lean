import BtrfsProgs.ExtentTree.Reserve
import BtrfsProgs.ExtentTree.Transaction

/-
  Crash safety of a transaction.

  Until the new superblock is written, the blocks that the
  last superblock reaches stay as they are on disk, are not
  changed in memory in a way that would be written, and their
  bytes are not handed out.  What is freed is pinned until
  then, but for blocks of the transaction that were never
  written.

  Main declarations:
    * `Reachable` and `Committed`
    * `Started`
    * `Safe` and `started_safe`
-/

----------
-- What Was Committed
----------

namespace BtrfsProgs

namespace ExtentTree

open Check
open ExtentIo
open RangeTree
open Volumes

section Committed

variable {Body : Type} [DecidableEq Body]

/-
  The blocks that can be read from the roots of a superblock;
  a body points to addresses and lengths.
-/
inductive Reachable
    (pointers : Body → List (Nat × Nat))
    (disk : Disk Body)
    (roots : List (Nat × Nat)) :
    Nat → Nat → TreeBlock Body → Prop where
  | root
      {b n : Nat}
      {block : TreeBlock Body}
      (hRoot : (b, n) ∈ roots)
      (hRead : readTreeBlock disk b n = some block) :
      Reachable pointers disk roots b n block
  | child
      {p m b n : Nat}
      {parent block : TreeBlock Body}
      (hParent : Reachable pointers disk roots p m parent)
      (hPointer : (b, n) ∈ pointers parent.body)
      (hRead : readTreeBlock disk b n = some block) :
      Reachable pointers disk roots b n block

/- A block of the last commit. -/
def Committed
    (pointers : Body → List (Nat × Nat))
    (s₀ : State Body)
    (b n : Nat) : Prop :=
  ∃ block,
    Reachable pointers s₀.disk s₀.superRoots b n block

/- The range meets no block of the last commit. -/
def Clear
    (committed : Nat → Nat → Prop)
    (b n : Nat) : Prop :=
  ∀ c m, committed c m →
    ∀ x, b ≤ x → x < b + n → ¬ (c ≤ x ∧ x < c + m)

/-
  A transaction starts: no call is in progress, nothing is
  dirty, pinned or queued, and the extent tree knows the
  blocks of the last commit, which are older.
-/
structure Started
    (pointers : Body → List (Nat × Nat))
    (s₀ : State Body) : Prop where
  phase : s₀.phase = .running
  ok : s₀.space.Ok
  leafsize_pos : 0 < s₀.space.leafsize
  leafsize_le : s₀.space.leafsize ≤ 65536
  extents :
    ∀ item ∈ s₀.space.items,
      item.key.IsExtent →
        0 < extentLen s₀.space.leafsize item.key ∧
          item.key.extentEnd s₀.space.leafsize < u64Max
  recorded :
    ∀ b n, Committed pointers s₀ b n →
      (∃ item ∈ s₀.space.items,
        IsExtentOf s₀.space.leafsize b n item.key) ∧
      ∀ item ∈ s₀.space.items,
        Apart s₀.space.leafsize b n item.key
  grouped :
    ∀ b n, Committed pointers s₀ b n →
      ∃ g ∈ s₀.space.groups,
        max g.start SUPER_INFO_OFFSET ≤ b ∧ b + n ≤ g.end_
  notFree :
    ∀ b n, Committed pointers s₀ b n →
      ∀ x, b ≤ x → x < b + n →
        ¬ Marked s₀.space.freeSpaceCache x
  older :
    ∀ b n block,
      Reachable pointers s₀.disk s₀.superRoots b n block →
        block.generation < s₀.transid
  clean :
    ∀ eb ∈ s₀.cache,
      eb.dirty = false ∧
        (eb.uptodate = true →
          eb.block.generation < s₀.transid)
  noCalls :
    s₀.reserved = [] ∧ s₀.freeing = [] ∧
      s₀.handedOut = [] ∧ s₀.space.extentIns = []

----------
-- The Invariant
----------

/- The extent of a key is a range of addresses. -/
def ExtentOk
    (leafsize : Nat)
    (key : ExtentKey) : Prop :=
  key.IsExtent →
    0 < extentLen leafsize key ∧
      key.extentEnd leafsize < u64Max

/- The allocator keeps off the last commit. -/
structure SpaceSafe
    (committed : Nat → Nat → Prop)
    (handedOut : List (Nat × Nat))
    (space : Space) : Prop where
  ok : space.Ok
  extents :
    ∀ item ∈ space.items, ExtentOk space.leafsize item.key
  kept : ∀ b n, committed b n → Kept space b n
  grouped :
    ∀ b n, committed b n →
      ∃ g ∈ space.groups, b + n ≤ g.end_
  queued :
    ∀ op ∈ space.extentIns,
      (op.bytenr, op.numBytes) ∈ handedOut

/- The block is the transaction's own and not written. -/
def Own
    (transid : Nat)
    (block : TreeBlock Body) : Prop :=
  block.generation = transid ∧ block.written = false

/- A buffer that may be written or used again. -/
structure BufferSafe
    (committed : Nat → Nat → Prop)
    (transid : Nat)
    (eb : ExtentBuffer Body) : Prop where
  dirty : eb.dirty = true → Own transid eb.block
  clear :
    eb.dirty = true ∨
        (eb.uptodate = true ∧ Own transid eb.block) →
      Clear committed eb.start eb.len

/- A free in progress. -/
structure FreeingSafe
    (committed : Nat → Nat → Prop)
    (space : Space)
    (f : Freeing) : Prop where
  isExtent : f.key.IsExtent
  extent : ExtentOk space.leafsize f.key
  clear :
    f.markFree = true →
      Clear committed f.key.objectid
        (extentLen space.leafsize f.key)
  pinned :
    f.markFree = false →
      ∀ x, f.key.objectid ≤ x →
        x < f.key.objectid + extentLen space.leafsize f.key →
          Marked space.pinnedExtents x

/- What holds until the superblock is written. -/
structure Safe
    (committed : Nat → Nat → Prop)
    (s₀ s : State Body) : Prop where
  transid : s.transid = s₀.transid
  leafsize : s.space.leafsize = s₀.space.leafsize
  space : SpaceSafe committed s.handedOut s.space
  handedOut :
    ∀ r ∈ s.handedOut,
      r.2 = s.space.leafsize ∧ r.1 + r.2 < u64Max ∧
        Clear committed r.1 r.2
  reserved : ∀ r ∈ s.reserved, r ∈ s.handedOut
  cache :
    ∀ eb ∈ s.cache, BufferSafe committed s₀.transid eb
  freeing :
    ∀ f ∈ s.freeing, FreeingSafe committed s.space f
  disk :
    ∀ b n, committed b n →
      ∀ x, b ≤ x → x < b + n → s.disk x = s₀.disk x
  super : s.superRoots = s₀.superRoots

theorem started_safe
    {pointers : Body → List (Nat × Nat)}
    {s₀ : State Body}
    (hStart : Started pointers s₀) :
    Safe (Committed pointers s₀) s₀ s₀ := by
  rcases hStart.noCalls with
    ⟨hReserved, hFreeing, hHanded, hQueued⟩
  refine ⟨rfl, rfl, ⟨hStart.ok, hStart.extents, ?_, ?_, ?_⟩,
    ?_, ?_, ?_, ?_, fun _ _ _ _ _ _ => rfl, rfl⟩
  · intro b n hCommitted
    rcases hStart.recorded b n hCommitted with
      ⟨hItem, hApart⟩
    refine ⟨hApart, ?_, Or.inr
      ⟨hItem, hStart.notFree b n hCommitted⟩⟩
    intro g hg hLow hHigh
    -- a group that meets the block is the group of the block
    rcases hStart.grouped b n hCommitted with
      ⟨own, hOwn, hFrom, hTo⟩
    rcases hStart.ok.groups g hg with ⟨c, hc, hcs, hcz, _⟩
    rcases hStart.ok.groups own hOwn with ⟨d, hd, hds, hdz⟩
    unfold BlockGroup.end_ at hHigh hTo
    rcases hStart.ok.chunks.apart hc hd with h | h | h
    · have : c.start = d.start := congrArg MapLookup.start h
      rw [← hcs, this, hds]
      exact hFrom
    · have : c.start + c.size ≤ d.start := h
      omega
    · have : d.start + d.size ≤ c.start := h
      omega
  · intro b n hCommitted
    rcases hStart.grouped b n hCommitted with ⟨g, hg, _, h⟩
    exact ⟨g, hg, h⟩
  · rw [hQueued]
    intro op hOp
    cases hOp
  · rw [hHanded]
    intro r hr
    cases hr
  · rw [hReserved]
    intro r hr
    cases hr
  · intro eb hEb
    rcases hStart.clean eb hEb with ⟨hClean, hOlder⟩
    constructor
    · intro hDirty
      rw [hClean] at hDirty
      cases hDirty
    · rintro (hDirty | ⟨hUptodate, hOwn, _⟩)
      · rw [hClean] at hDirty
        cases hDirty
      · have := hOlder hUptodate
        omega
  · rw [hFreeing]
    intro f hf
    cases hf

----------
-- Changes to Buffers
----------

section Cache

variable {cache cache' : List (ExtentBuffer Body)}
variable {eb eb' e : ExtentBuffer Body}

omit [DecidableEq Body] in
theorem findExtentBuffer_spec
    {bytenr len : Nat}
    (hFind : findExtentBuffer cache bytenr len = some eb) :
    eb ∈ cache ∧ eb.start = bytenr ∧ eb.len = len := by
  refine ⟨List.mem_of_find?_eq_some hFind, ?_⟩
  simpa using List.find?_some hFind

omit [DecidableEq Body] in
theorem requireBuffer_spec
    {s : State Body}
    {bytenr len : Nat}
    {ok : ExtentBuffer Body → Bool}
    (hRequire : requireBuffer s bytenr len ok = some eb) :
    eb ∈ s.cache ∧ eb.start = bytenr ∧ eb.len = len ∧
      ok eb = true := by
  unfold requireBuffer at hRequire
  rcases Option.filter_eq_some_iff.mp hRequire with
    ⟨hFind, hOk⟩
  rcases findExtentBuffer_spec hFind with ⟨hMem, hAt⟩
  exact ⟨hMem, hAt.1, hAt.2, hOk⟩

theorem mem_setBuffer
    (he : e ∈ setBuffer cache eb eb') :
    e = eb' ∨ e ∈ cache := by
  rcases List.mem_map.mp he with ⟨old, hOld, rfl⟩
  split
  · exact Or.inl rfl
  · exact Or.inr hOld

theorem mem_putBuffer
    (hPut : putBuffer cache eb = some cache')
    (he : e ∈ cache') :
    e = eb ∨ e ∈ cache := by
  unfold putBuffer at hPut
  split at hPut
  case h_1 old _ =>
    cases hPut
    exact mem_setBuffer he
  case h_2 =>
    rcases Option.map_eq_some_iff.mp hPut with ⟨c, hc, rfl⟩
    exact (insert_mem_iff hc e).mp he

end Cache

section Frames

variable {committed : Nat → Nat → Prop}
variable {s₀ s : State Body}

/- Only buffers changed, and those are safe. -/
omit [DecidableEq Body] in
theorem Safe.setCache
    (hSafe : Safe committed s₀ s)
    {cache : List (ExtentBuffer Body)}
    {eb : ExtentBuffer Body}
    (hNew : BufferSafe committed s₀.transid eb)
    (hMem : ∀ e ∈ cache, e = eb ∨ e ∈ s.cache) :
    Safe committed s₀ { s with cache := cache } where
  transid := hSafe.transid
  leafsize := hSafe.leafsize
  space := hSafe.space
  handedOut := hSafe.handedOut
  reserved := hSafe.reserved
  cache := by
    intro e he
    rcases hMem e he with rfl | hOld
    · exact hNew
    · exact hSafe.cache e hOld
  freeing := hSafe.freeing
  disk := hSafe.disk
  super := hSafe.super

/- A free in progress does not mind what becomes pinned. -/
theorem FreeingSafe.mono
    {space space' : Space}
    {f : Freeing}
    (hSafe : FreeingSafe committed space f)
    (hLeaf : space'.leafsize = space.leafsize)
    (hPinned :
      ∀ x, Marked space.pinnedExtents x →
        Marked space'.pinnedExtents x) :
    FreeingSafe committed space' f := by
  refine ⟨hSafe.isExtent, ?_, ?_, ?_⟩
  · rw [hLeaf]
    exact hSafe.extent
  · rw [hLeaf]
    exact hSafe.clear
  · rw [hLeaf]
    intro hMark x hLow hHigh
    exact hPinned x (hSafe.pinned hMark x hLow hHigh)

/- Only what the allocator looks at changed. -/
omit [DecidableEq Body] in
theorem Safe.setSpace
    (hSafe : Safe committed s₀ s)
    {space : Space}
    (hSpace : SpaceSafe committed s.handedOut space)
    (hLeaf : space.leafsize = s.space.leafsize)
    (hPinned :
      ∀ x, Marked s.space.pinnedExtents x →
        Marked space.pinnedExtents x) :
    Safe committed s₀ { s with space := space } where
  transid := hSafe.transid
  leafsize := hLeaf.trans hSafe.leafsize
  space := hSpace
  handedOut := by
    intro r hr
    rw [hLeaf]
    exact hSafe.handedOut r hr
  reserved := hSafe.reserved
  cache := hSafe.cache
  freeing := fun f hf => (hSafe.freeing f hf).mono hLeaf hPinned
  disk := hSafe.disk
  super := hSafe.super

/- A call of `__free_extent` goes on or ends. -/
omit [DecidableEq Body] in
theorem Safe.setFreeing
    (hSafe : Safe committed s₀ s)
    {freeing : List Freeing}
    (hFreeing :
      ∀ f ∈ freeing, FreeingSafe committed s.space f) :
    Safe committed s₀ { s with freeing := freeing } :=
  { hSafe with freeing := hFreeing }

end Frames

----------
-- Changes to the Extent Tree
----------

section Items

variable {committed : Nat → Nat → Prop}
variable {handedOut : List (Nat × Nat)}
variable {space : Space}

/- Other items, with the keys that are left and one more. -/
theorem SpaceSafe.setItems
    (hSafe : SpaceSafe committed handedOut space)
    {items : List ExtentEntry}
    (hSorted :
      items.Pairwise fun a b =>
        a.key.objectid ≤ b.key.objectid)
    (hKeys :
      ∀ item ∈ items,
        (∃ old ∈ space.items, old.key = item.key) ∨
          ExtentOk space.leafsize item.key ∧
            ∀ b n, committed b n →
              Apart space.leafsize b n item.key)
    (hHeld :
      ∀ b n, committed b n →
        ∀ item ∈ space.items,
          IsExtentOf space.leafsize b n item.key →
            (∃ new ∈ items, new.key = item.key) ∨
              ∀ x, b ≤ x → x < b + n →
                Marked space.pinnedExtents x) :
    SpaceSafe committed handedOut
      { space with items := items } where
  ok := { hSafe.ok with sorted := hSorted }
  extents := by
    intro item hItem
    rcases hKeys item hItem with ⟨old, hOld, hSame⟩ | ⟨h, _⟩
    · rw [← hSame]
      exact hSafe.extents old hOld
    · exact h
  kept := by
    intro b n hCommitted
    have hKept := hSafe.kept b n hCommitted
    refine ⟨?_, hKept.group, ?_⟩
    · intro item hItem
      rcases hKeys item hItem with
        ⟨old, hOld, hSame⟩ | ⟨_, h⟩
      · rw [← hSame]
        exact hKept.apart old hOld
      · exact h b n hCommitted
    · rcases hKept.held with hPinned | ⟨⟨item, hItem, hIs⟩, hNot⟩
      · exact Or.inl hPinned
      · rcases hHeld b n hCommitted item hItem hIs with
          ⟨new, hNew, hSame⟩ | hPinned
        · refine Or.inr ⟨⟨new, hNew, ?_⟩, hNot⟩
          rw [hSame]
          exact hIs
        · exact Or.inl hPinned
  grouped := hSafe.grouped
  queued := hSafe.queued

theorem keyLt_objectid
    {a b : ExtentKey}
    (hLt : keyLt a b = true) :
    a.objectid ≤ b.objectid := by
  unfold keyLt at hLt
  simp only [Bool.or_eq_true, decide_eq_true_eq,
    Bool.and_eq_true] at hLt
  omega

theorem not_keyLt_objectid
    {a b : ExtentKey}
    (hLt : ¬ keyLt a b = true) :
    b.objectid ≤ a.objectid := by
  unfold keyLt at hLt
  simp only [Bool.or_eq_true, decide_eq_true_eq,
    Bool.and_eq_true] at hLt
  omega

/- Items behind the place of a key have no smaller address. -/
theorem objectid_le_of_mem_dropWhile
    {items : List ExtentEntry}
    (hSorted :
      items.Pairwise fun a b =>
        a.key.objectid ≤ b.key.objectid)
    (key : ExtentKey) :
    ∀ e ∈ items.dropWhile fun e => keyLt e.key key,
      key.objectid ≤ e.key.objectid := by
  induction items with
  | nil => simp
  | cons first items ih =>
      rcases List.pairwise_cons.mp hSorted with
        ⟨hFirst, hRest⟩
      intro e he
      rw [List.dropWhile_cons] at he
      split at he
      case isTrue => exact ih hRest e he
      case isFalse hStop =>
        have hLow := not_keyLt_objectid hStop
        rcases List.mem_cons.mp he with rfl | he
        · exact hLow
        · exact hLow.trans (hFirst e he)

theorem insertItem_spec
    {items items' : List ExtentEntry}
    {entry : ExtentEntry}
    (hSorted :
      items.Pairwise fun a b =>
        a.key.objectid ≤ b.key.objectid)
    (hInsert : insertItem items entry = some items') :
    (items'.Pairwise fun a b =>
        a.key.objectid ≤ b.key.objectid) ∧
      ∀ e, e ∈ items' ↔ e = entry ∨ e ∈ items := by
  unfold insertItem at hInsert
  split at hInsert
  case isTrue => cases hInsert
  case isFalse =>
    cases hInsert
    have hBefore :
        ∀ e ∈ items.takeWhile
            fun e => keyLt e.key entry.key,
          e.key.objectid ≤ entry.key.objectid := by
      intro e he
      have hLt := List.mem_takeWhile_imp he
      exact keyLt_objectid (by simpa using hLt)
    have hAfter :=
      objectid_le_of_mem_dropWhile hSorted entry.key
    have hSplit :=
      List.takeWhile_append_dropWhile
        (p := fun e : ExtentEntry => keyLt e.key entry.key)
        (l := items)
    constructor
    · refine List.pairwise_append.mpr ⟨?_, ?_, ?_⟩
      · exact hSorted.sublist (List.takeWhile_sublist _)
      · refine List.pairwise_cons.mpr ⟨hAfter, ?_⟩
        exact hSorted.sublist (List.dropWhile_sublist _)
      · intro a ha b hb
        rcases List.mem_cons.mp hb with rfl | hb
        · exact hBefore a ha
        · exact (hBefore a ha).trans (hAfter b hb)
    · intro e
      have hMem :
          e ∈ items ↔
            e ∈ items.takeWhile
                (fun e => keyLt e.key entry.key) ∨
              e ∈ items.dropWhile
                (fun e => keyLt e.key entry.key) := by
        rw [← List.mem_append, hSplit]
      rw [hMem, List.mem_append, List.mem_cons]
      tauto

/- An item for a range that was handed out. -/
theorem SpaceSafe.allocReserved
    (hSafe : SpaceSafe committed handedOut space)
    {skinny : Bool}
    {bytenr level : Nat}
    {space' : Space}
    (hPos : 0 < space.leafsize)
    (hBound : bytenr + space.leafsize < u64Max)
    (hClear : Clear committed bytenr space.leafsize)
    (hAlloc :
      allocReservedTreeBlock space skinny bytenr
        space.leafsize level = some space') :
    space' = { space with items := space'.items } ∧
      SpaceSafe committed handedOut space' := by
  unfold allocReservedTreeBlock at hAlloc
  rcases Option.bind_eq_some_iff.mp hAlloc with
    ⟨items, hInsert, hAlloc⟩
  cases hAlloc
  refine ⟨rfl, ?_⟩
  rcases insertItem_spec hSafe.ok.sorted hInsert with
    ⟨hSorted, hMem⟩
  have hAt :
      (treeBlockKey skinny bytenr space.leafsize
        level).objectid = bytenr := by
    unfold treeBlockKey
    split
    · rfl
    · rfl
  have hEnd :
      (treeBlockKey skinny bytenr space.leafsize
        level).extentEnd space.leafsize =
          bytenr + space.leafsize := by
    unfold treeBlockKey ExtentKey.extentEnd
    cases skinny with
    | true => rfl
    | false => rfl
  apply hSafe.setItems hSorted
  · intro item hItem
    rcases (hMem item).mp hItem with rfl | hOld
    · right
      constructor
      · intro _
        unfold extentLen
        simp only
        rw [hAt, hEnd]
        omega
      · intro b n hCommitted _
        have := hClear b n hCommitted bytenr le_rfl (by omega)
        simp only
        rw [hAt]
        omega
    · exact Or.inl ⟨item, hOld, rfl⟩
  · intro b n _ item hItem _
    exact Or.inl ⟨item, (hMem item).mpr (Or.inr hItem), rfl⟩

/- The number of references is no matter. -/
theorem SpaceSafe.setRefs
    (hSafe : SpaceSafe committed handedOut space)
    (key : ExtentKey)
    (refs : Nat) :
    SpaceSafe committed handedOut
      { space with
        items := ExtentTree.setRefs space.items key refs } := by
  have hKey : ∀ e : ExtentEntry,
      (if e.key = key then { e with refs := refs } else e).key =
        e.key := by
    intro e
    split
    · rfl
    · rfl
  apply hSafe.setItems
  · refine List.pairwise_map.mpr ?_
    simp only [hKey]
    exact hSafe.ok.sorted
  · intro item hItem
    rcases List.mem_map.mp hItem with ⟨old, hOld, rfl⟩
    exact Or.inl ⟨old, hOld, (hKey old).symm⟩
  · intro b n _ item hItem _
    exact Or.inl ⟨_, List.mem_map_of_mem hItem, hKey item⟩

end Items

----------
-- Single Actions
----------

section Actions

variable {pointers : Body → List (Nat × Nat)}
variable {s₀ s s' : State Body}

theorem readTreeBlock_spec
    {disk : Disk Body}
    {b n : Nat}
    {block : TreeBlock Body}
    (hRead : readTreeBlock disk b n = some block)
    {x : Nat}
    (hLow : b ≤ x)
    (hHigh : x < b + n) :
    disk x = some (block, x - b) := by
  unfold readTreeBlock at hRead
  split at hRead
  case h_1 => cases hRead
  case h_2 found i _ =>
    split at hRead
    case isFalse => cases hRead
    case isTrue hAll =>
      cases hRead
      have hByte := hAll.2 (x - b) (by omega)
      rwa [Nat.add_sub_cancel' hLow] at hByte

theorem Reachable.read
    {disk : Disk Body}
    {roots : List (Nat × Nat)}
    {b n : Nat}
    {block : TreeBlock Body}
    (hReach : Reachable pointers disk roots b n block) :
    readTreeBlock disk b n = some block := by
  cases hReach with
  | root _ hRead => exact hRead
  | child _ _ hRead => exact hRead

/-
  A block read from the disk is the transaction's own only
  where nothing was committed: the bytes of a committed block
  are still those of an older one.
-/
theorem Safe.readBuffer
    (hStart : Started pointers s₀)
    (hSafe : Safe (Committed pointers s₀) s₀ s)
    {b n : Nat}
    {block : TreeBlock Body}
    (hRead : readTreeBlock s.disk b n = some block) :
    BufferSafe (Committed pointers s₀) s₀.transid
      ⟨b, n, block, true, false⟩ := by
  constructor
  · intro hDirty
    cases hDirty
  · rintro (hDirty | ⟨_, hOwn⟩)
    · cases hDirty
    · intro c m hCommitted x hLow hHigh hIn
      have hByte := readTreeBlock_spec hRead hLow hHigh
      rw [hSafe.disk c m hCommitted x hIn.1 hIn.2] at hByte
      rcases hCommitted with ⟨old, hOld⟩
      rw [readTreeBlock_spec hOld.read hIn.1 hIn.2] at hByte
      have hSame : old = block := by
        have := Option.some.inj hByte
        exact congrArg Prod.fst this
      have hOlder := hStart.older c m old hOld
      have hGen := hOwn.1
      simp only at hGen
      rw [hSame] at hOlder
      omega

theorem Safe.read
    (hStart : Started pointers s₀)
    (hSafe : Safe (Committed pointers s₀) s₀ s)
    {b n : Nat}
    (hStep : step s (.read b n) = some s') :
    Safe (Committed pointers s₀) s₀ s' := by
  simp only [step] at hStep
  split at hStep
  case h_1 =>
    cases hStep
    exact hSafe
  case h_2 =>
    rcases Option.bind_eq_some_iff.mp hStep with
      ⟨block, hRead, hStep⟩
    rcases Option.bind_eq_some_iff.mp hStep with
      ⟨cache, hPut, hStep⟩
    cases hStep
    exact hSafe.setCache (hSafe.readBuffer hStart hRead)
      fun e he => mem_putBuffer hPut he

variable {committed : Nat → Nat → Prop}

theorem Safe.readFailed
    (hSafe : Safe committed s₀ s)
    {b n : Nat}
    {garbage : TreeBlock Body}
    (hStep : step s (.readFailed b n garbage) = some s') :
    Safe committed s₀ s' := by
  simp only [step] at hStep
  split at hStep
  case h_1 =>
    cases hStep
    exact hSafe
  case h_2 =>
    rcases Option.bind_eq_some_iff.mp hStep with
      ⟨cache, hPut, hStep⟩
    cases hStep
    refine hSafe.setCache ?_ fun e he => mem_putBuffer hPut he
    constructor
    · intro hDirty
      cases hDirty
    · rintro (hDirty | ⟨hUptodate, _⟩)
      · cases hDirty
      · cases hUptodate

theorem Safe.evict
    (hSafe : Safe committed s₀ s)
    {b n : Nat}
    (hStep : step s (.evict b n) = some s') :
    Safe committed s₀ s' := by
  simp only [step] at hStep
  rcases Option.bind_eq_some_iff.mp hStep with
    ⟨eb, hEb, hStep⟩
  cases hStep
  have hOld := (requireBuffer_spec hEb).1
  refine hSafe.setCache (hSafe.cache eb hOld) ?_
  intro e he
  exact Or.inr (List.mem_filter.mp he).1

/- The guard of a `do` block. -/
theorem guard_bind_eq_some
    {α : Type}
    {p : Prop} [Decidable p]
    {f : Unit → Option α}
    {a : α}
    (hBind : (guard p >>= f) = some a) :
    p ∧ f () = some a := by
  by_cases hp : p
  · simp only [guard, hp, if_true] at hBind
    exact ⟨hp, hBind⟩
  · simp only [guard, hp, if_false] at hBind
    cases hBind

theorem Safe.allocChunk
    (hSafe : Safe committed s₀ s)
    {chunk : Chunk}
    {flags : BitVec 64}
    (hStep : step s (.allocChunk chunk flags) = some s') :
    Safe committed s₀ s' := by
  simp only [step] at hStep
  rcases guard_bind_eq_some hStep with ⟨_, hStep⟩
  rcases guard_bind_eq_some hStep with ⟨hSize, hStep⟩
  rcases guard_bind_eq_some hStep with ⟨hFits, hStep⟩
  rcases guard_bind_eq_some hStep with ⟨hLast, hStep⟩
  cases hStep
  have hOk := hSafe.space.ok
  refine hSafe.setSpace ?_ rfl fun _ h => h
  refine ⟨?_, hSafe.space.extents, ?_, ?_, hSafe.space.queued⟩
  · refine { hOk with chunks := ?_, groups := ?_ }
    · refine Ordered.append_iff.mpr ⟨hOk.chunks, ?_, ?_⟩
      · refine Ordered.cons_iff.mpr ⟨?_, Ordered.nil, ?_⟩
        · have : chunk.start < chunk.start + chunk.size := by
            omega
          exact this
        · intro n hn
          cases hn
      · intro a ha b hb
        rcases List.mem_singleton.mp hb with rfl
        exact hLast a ha
    · intro g hg
      rcases List.mem_append.mp hg with h | h
      · rcases hOk.groups g h with ⟨c, hc, hSame⟩
        exact ⟨c, List.mem_append_left _ hc, hSame⟩
      · rcases List.mem_singleton.mp h with rfl
        exact ⟨chunk,
          List.mem_append_right _ (List.mem_singleton_self _),
          rfl, rfl, hFits⟩
  · intro b n hCommitted
    have hKept := hSafe.space.kept b n hCommitted
    refine ⟨hKept.apart, ?_, hKept.held⟩
    intro g hg hLow hHigh
    rcases List.mem_append.mp hg with h | h
    · exact hKept.group g h hLow hHigh
    · -- the new group is behind the group of the block
      rcases List.mem_singleton.mp h with rfl
      rcases hSafe.space.grouped b n hCommitted with
        ⟨own, hOwn, hEnd⟩
      rcases hOk.groups own hOwn with ⟨c, hc, hcs, hcz, _⟩
      have hBehind := hLast c.toMapLookup hc
      unfold BlockGroup.end_ at hEnd
      rw [← hcs, ← hcz] at hEnd
      simp only at hLow
      omega
  · intro b n hCommitted
    rcases hSafe.space.grouped b n hCommitted with ⟨g, hg, h⟩
    exact ⟨g, List.mem_append_left _ hg, h⟩

theorem SpaceSafe.searched
    {handedOut : List (Nat × Nat)}
    {space space' : Space}
    (hSafe : SpaceSafe committed handedOut space)
    (hSearched : Searched space space') :
    SpaceSafe committed handedOut space' where
  ok := hSearched.ok hSafe.ok
  extents := by
    rw [hSearched.items, hSearched.leafsize]
    exact hSafe.extents
  kept := fun b n h =>
    hSearched.kept b n hSafe.ok (hSafe.kept b n h)
  grouped := by
    intro b n hCommitted
    rcases hSafe.grouped b n hCommitted with ⟨g, hg, hEnd⟩
    rcases hSearched.groupsKept g hg with ⟨h, hh, hSame⟩
    exact ⟨h, hh, hEnd.trans hSame.ge⟩
  queued := by
    rw [hSearched.extentIns]
    exact hSafe.queued

theorem Safe.reserve
    (hStart : Started pointers s₀)
    (hSafe : Safe committed s₀ s)
    {req : Request}
    {picks : List (Option Nat)}
    (hStep : step s (.reserve req picks) = some s') :
    Safe committed s₀ s' ∧
      ∃ start,
        s'.handedOut = (start, req.numBytes) :: s.handedOut ∧
        s'.space.pinnedExtents = s.space.pinnedExtents ∧
        Clear committed start req.numBytes ∧
        ∀ x, start ≤ x → x < start + req.numBytes →
          ¬ Marked s.space.pinnedExtents x := by
  simp only [step] at hStep
  rcases guard_bind_eq_some hStep with ⟨_, hStep⟩
  rcases guard_bind_eq_some hStep with ⟨⟨hNum, hEmpty⟩, hStep⟩
  rcases Option.bind_eq_some_iff.mp hStep with
    ⟨⟨space, start⟩, hReserve, hStep⟩
  cases hStep
  have hReq : req.Ok := by
    have hPos := hStart.leafsize_pos
    have hLe := hStart.leafsize_le
    have hLeaf := hSafe.leafsize
    exact ⟨by omega, by omega⟩
  rcases reserveExtent_spec hReq hSafe.space.ok hReserve with
    ⟨hSearched, hBound, hNotPinned, hNotKept⟩
  have hClear : Clear committed start req.numBytes := by
    intro c m hCommitted
    exact hNotKept c m (hSafe.space.kept c m hCommitted)
  have hSpace := hSafe.space.searched hSearched
  have hSame := hSafe.setSpace hSpace hSearched.leafsize
    (by rw [hSearched.pinned]; exact fun _ h => h)
  refine ⟨⟨hSame.transid, hSame.leafsize, ?_, ?_, ?_,
    hSame.cache, hSame.freeing, hSame.disk, hSame.super⟩,
    start, rfl, hSearched.pinned, hClear, hNotPinned⟩
  · exact { hSpace with
      queued := fun op hOp =>
        List.mem_cons_of_mem _ (hSpace.queued op hOp) }
  · intro r hr
    rcases List.mem_cons.mp hr with rfl | hr
    · exact ⟨hNum.trans hSearched.leafsize.symm, hBound, hClear⟩
    · exact hSame.handedOut r hr
  · intro r hr
    rcases List.mem_cons.mp hr with rfl | hr
    · exact List.mem_cons_self
    · exact List.mem_cons_of_mem _ (hSafe.reserved r hr)

theorem SpaceSafe.setQueue
    {handedOut : List (Nat × Nat)}
    {space : Space}
    (hSafe : SpaceSafe committed handedOut space)
    {extentIns : List PendingInsert}
    (hQueued :
      ∀ op ∈ extentIns,
        (op.bytenr, op.numBytes) ∈ handedOut) :
    SpaceSafe committed handedOut
      { space with extentIns := extentIns } where
  ok := { hSafe.ok with }
  extents := hSafe.extents
  kept := fun b n h =>
    let hKept := hSafe.kept b n h
    ⟨hKept.apart, hKept.group, hKept.held⟩
  grouped := hSafe.grouped
  queued := hQueued

theorem Safe.queueInsert
    (hSafe : Safe committed s₀ s)
    {bytenr level : Nat}
    (hStep : step s (.queueInsert bytenr level) = some s') :
    Safe committed s₀ s' := by
  simp only [step] at hStep
  rcases guard_bind_eq_some hStep with ⟨_, hStep⟩
  rcases guard_bind_eq_some hStep with ⟨hReserved, hStep⟩
  cases hStep
  refine hSafe.setSpace ?_ rfl fun _ h => h
  apply hSafe.space.setQueue
  intro op hOp
  rcases List.mem_cons.mp hOp with rfl | hOp
  · exact hSafe.reserved _ hReserved
  · exact hSafe.space.queued op hOp

theorem Safe.insertExtent
    (hStart : Started pointers s₀)
    (hSafe : Safe committed s₀ s)
    {skinny : Bool}
    {bytenr level : Nat}
    (hStep :
      step s (.insertExtent skinny bytenr level) = some s') :
    Safe committed s₀ s' := by
  simp only [step] at hStep
  rcases guard_bind_eq_some hStep with ⟨_, hStep⟩
  rcases guard_bind_eq_some hStep with ⟨hReserved, hStep⟩
  rcases Option.bind_eq_some_iff.mp hStep with
    ⟨space, hAlloc, hStep⟩
  cases hStep
  have hPos := hStart.leafsize_pos
  rw [← hSafe.leafsize] at hPos
  rcases hSafe.handedOut _ (hSafe.reserved _ hReserved) with
    ⟨_, hBound, hClear⟩
  rcases hSafe.space.allocReserved hPos hBound hClear hAlloc
    with ⟨hSame, hSpace⟩
  refine hSafe.setSpace hSpace ?_ ?_
  · rw [hSame]
  · rw [hSame]
    exact fun _ h => h

theorem Safe.insertQueued
    (hStart : Started pointers s₀)
    (hSafe : Safe committed s₀ s)
    {skinny : Bool}
    (hStep : step s (.insertQueued skinny) = some s') :
    Safe committed s₀ s' := by
  simp only [step] at hStep
  rcases guard_bind_eq_some hStep with ⟨_, hStep⟩
  rcases Option.bind_eq_some_iff.mp hStep with
    ⟨op, hOp, hStep⟩
  rcases Option.bind_eq_some_iff.mp hStep with
    ⟨space, hAlloc, hStep⟩
  cases hStep
  have hPos := hStart.leafsize_pos
  rw [← hSafe.leafsize] at hPos
  have hQueued := hSafe.space.queued op (List.mem_of_head? hOp)
  rcases hSafe.handedOut _ hQueued with
    ⟨hLen, hBound, hClear⟩
  simp only at hLen hBound hClear
  rw [hLen] at hBound hClear hAlloc
  rcases hSafe.space.allocReserved hPos hBound hClear hAlloc
    with ⟨hSame, hSpace⟩
  refine hSafe.setSpace ?_ ?_ ?_
  · apply hSpace.setQueue
    intro op' hOp'
    exact hSafe.space.queued op' (List.mem_of_mem_erase hOp')
  · rw [hSame]
  · rw [hSame]
    exact fun _ h => h

theorem Safe.cancelQueued
    (hSafe : Safe committed s₀ s)
    {op : PendingInsert}
    (hStep : step s (.cancelQueued op) = some s') :
    Safe committed s₀ s' := by
  simp only [step] at hStep
  rcases guard_bind_eq_some hStep with ⟨_, hStep⟩
  rcases guard_bind_eq_some hStep with ⟨_, hStep⟩
  cases hStep
  refine hSafe.setSpace ?_ rfl fun _ h => h
  apply hSafe.space.setQueue
  intro op' hOp'
  exact hSafe.space.queued op' (List.mem_of_mem_erase hOp')

theorem Safe.create
    (hSafe : Safe committed s₀ s)
    {bytenr owner : Nat}
    {reloc : Bool}
    {body : Body}
    (hStep :
      step s (.create bytenr owner reloc body) = some s') :
    Safe committed s₀ s' := by
  simp only [step] at hStep
  rcases guard_bind_eq_some hStep with ⟨_, hStep⟩
  rcases guard_bind_eq_some hStep with ⟨hReserved, hStep⟩
  rcases Option.bind_eq_some_iff.mp hStep with
    ⟨cache, hPut, hStep⟩
  cases hStep
  have hClear :=
    (hSafe.handedOut _ (hSafe.reserved _ hReserved)).2.2
  have hNew : BufferSafe committed s₀.transid
      (⟨bytenr, s.space.leafsize,
        ⟨bytenr, owner, s.transid, false, reloc, body⟩,
        true, true⟩ : ExtentBuffer Body) :=
    ⟨fun _ => ⟨hSafe.transid, rfl⟩, fun _ => hClear⟩
  have hSame := hSafe.setCache hNew
    fun e he => mem_putBuffer hPut he
  exact { hSame with
    reserved := fun r hr =>
      hSafe.reserved r (List.mem_of_mem_erase hr) }

/- `should_cow_block` lets only own blocks through. -/
omit [DecidableEq Body] in
theorem own_of_not_shouldCowBlock
    {transid rootObjectid : Nat}
    {block : TreeBlock Body}
    (hCow :
      shouldCowBlock transid rootObjectid block = false) :
    Own transid block := by
  unfold shouldCowBlock at hCow
  split at hCow
  case isTrue h => exact ⟨h.1, h.2.1⟩
  case isFalse => cases hCow

theorem Safe.edit
    (hSafe : Safe committed s₀ s)
    {bytenr len rootObjectid : Nat}
    {body : Body}
    (hStep :
      step s (.edit bytenr len rootObjectid body) =
        some s') :
    Safe committed s₀ s' ∧
      ∃ eb ∈ s.cache,
        eb.start = bytenr ∧ eb.len = len ∧
          Own s.transid eb.block := by
  simp only [step] at hStep
  rcases guard_bind_eq_some hStep with ⟨_, hStep⟩
  rcases Option.bind_eq_some_iff.mp hStep with
    ⟨eb, hEb, hStep⟩
  cases hStep
  rcases requireBuffer_spec hEb with ⟨hMem, hAt, hLen, hOk⟩
  simp only [Bool.and_eq_true, Bool.not_eq_true'] at hOk
  have hOwn := own_of_not_shouldCowBlock hOk.2
  refine ⟨?_, eb, hMem, hAt, hLen, hOwn⟩
  refine hSafe.setCache ?_ fun e he => mem_setBuffer he
  rw [hSafe.transid] at hOwn
  refine ⟨fun _ => ⟨hOwn.1, hOwn.2⟩, fun _ => ?_⟩
  exact (hSafe.cache eb hMem).clear (Or.inr ⟨hOk.1, hOwn⟩)

theorem Safe.setBlockFlags
    (hSafe : Safe committed s₀ s)
    {bytenr len : Nat}
    {body : Body}
    (hStep :
      step s (.setBlockFlags bytenr len body) = some s') :
    Safe committed s₀ s' := by
  simp only [step] at hStep
  rcases guard_bind_eq_some hStep with ⟨_, hStep⟩
  rcases Option.bind_eq_some_iff.mp hStep with
    ⟨eb, hEb, hStep⟩
  cases hStep
  have hOld := hSafe.cache eb (requireBuffer_spec hEb).1
  refine hSafe.setCache ?_ fun e he => mem_setBuffer he
  exact ⟨hOld.dirty, hOld.clear⟩

theorem Safe.cleanTreeBlock
    (hSafe : Safe committed s₀ s)
    {bytenr len : Nat}
    (hStep : step s (.cleanTreeBlock bytenr len) = some s') :
    Safe committed s₀ s' := by
  simp only [step] at hStep
  rcases guard_bind_eq_some hStep with ⟨_, hStep⟩
  rcases Option.bind_eq_some_iff.mp hStep with
    ⟨eb, hEb, hStep⟩
  cases hStep
  have hOld := hSafe.cache eb (requireBuffer_spec hEb).1
  refine hSafe.setCache ?_ fun e he => mem_setBuffer he
  refine ⟨nofun, fun h => hOld.clear (Or.inr ?_)⟩
  exact h.resolve_left nofun

theorem Safe.incRef
    (hSafe : Safe committed s₀ s)
    {key : ExtentKey}
    {refs : Nat}
    (hStep : step s (.incRef key refs) = some s') :
    Safe committed s₀ s' := by
  simp only [step] at hStep
  rcases guard_bind_eq_some hStep with ⟨_, hStep⟩
  rcases Option.bind_eq_some_iff.mp hStep with
    ⟨item, _, hStep⟩
  cases hStep
  exact hSafe.setSpace (hSafe.space.setRefs _ _) rfl
    fun _ h => h

theorem Safe.dropRef
    (hSafe : Safe committed s₀ s)
    {key : ExtentKey}
    {refs : Nat}
    (hStep : step s (.dropRef key refs) = some s') :
    Safe committed s₀ s' := by
  simp only [step] at hStep
  rcases guard_bind_eq_some hStep with ⟨_, hStep⟩
  rcases Option.bind_eq_some_iff.mp hStep with
    ⟨item, _, hStep⟩
  rcases guard_bind_eq_some hStep with ⟨_, hStep⟩
  cases hStep
  exact hSafe.setSpace (hSafe.space.setRefs _ _) rfl
    fun _ h => h

/- More is pinned. -/
theorem SpaceSafe.setPinned
    {handedOut : List (Nat × Nat)}
    {space : Space}
    (hSafe : SpaceSafe committed handedOut space)
    {pinned : ExtentIoTree}
    (hUniform : Uniform EXTENT_DIRTY pinned)
    (hMore :
      ∀ x, Marked space.pinnedExtents x → Marked pinned x) :
    SpaceSafe committed handedOut
      { space with pinnedExtents := pinned } where
  ok := { hSafe.ok with pinned := hUniform }
  extents := hSafe.extents
  kept := by
    intro b n hCommitted
    have hKept := hSafe.kept b n hCommitted
    refine ⟨hKept.apart, hKept.group, ?_⟩
    rcases hKept.held with hPinned | hHeld
    · exact Or.inl fun x hLow hHigh =>
        hMore x (hPinned x hLow hHigh)
    · exact Or.inr hHeld
  grouped := hSafe.grouped
  queued := hSafe.queued

omit [DecidableEq Body] in
theorem reusableBuffer_spec
    {bytenr numBytes : Nat}
    {isData : Bool}
    {eb : ExtentBuffer Body}
    (hReuse :
      reusableBuffer s bytenr numBytes isData = some eb) :
    eb ∈ s.cache ∧ eb.start = bytenr ∧ eb.len = numBytes ∧
      Reusable s.transid eb := by
  unfold reusableBuffer at hReuse
  split at hReuse
  case isTrue => cases hReuse
  case isFalse =>
    rcases Option.filter_eq_some_iff.mp hReuse with
      ⟨hFind, hOk⟩
    rcases findExtentBuffer_spec hFind with ⟨hMem, hAt⟩
    exact ⟨hMem, hAt.1, hAt.2, by simpa using hOk⟩

/-
  `pin_down_bytes`.  Either the range becomes pinned, or it
  is that of an own block that was not written.
-/
theorem Safe.pinDownBytes
    (hSafe : Safe committed s₀ s)
    {bytenr numBytes : Nat}
    {isData markFree : Bool}
    (hPos : 0 < numBytes)
    (hBound : bytenr + numBytes < u64Max)
    (hPin :
      ExtentTree.pinDownBytes s bytenr numBytes isData =
        some (markFree, s')) :
    Safe committed s₀ s' ∧
      s'.space.leafsize = s.space.leafsize ∧
      s'.freeing = s.freeing ∧
      (∀ x, Marked s.space.pinnedExtents x →
        Marked s'.space.pinnedExtents x) ∧
      (markFree = true →
        Clear committed bytenr numBytes ∧
          ∃ eb ∈ s.cache,
            eb.start = bytenr ∧ eb.len = numBytes ∧
              Own s.transid eb.block) ∧
      (markFree = false →
        ∀ x, bytenr ≤ x → x < bytenr + numBytes →
          Marked s'.space.pinnedExtents x) := by
  unfold ExtentTree.pinDownBytes at hPin
  split at hPin
  case h_1 eb hReuse =>
    cases hPin
    rcases reusableBuffer_spec hReuse with
      ⟨hMem, hAt, hLen, hUptodate, _, hGen, hWritten⟩
    have hOwn : Own s.transid eb.block := ⟨hGen, hWritten⟩
    have hOld := hSafe.cache eb hMem
    have hClear : Clear committed eb.start eb.len := by
      apply hOld.clear
      rw [← hSafe.transid]
      exact Or.inr ⟨hUptodate, hOwn⟩
    refine ⟨?_, rfl, rfl, fun _ h => h, ?_, ?_⟩
    · refine hSafe.setCache ?_ fun e he => mem_setBuffer he
      refine ⟨?_, fun _ => hClear⟩
      intro hDirty
      cases hDirty
    · intro _
      rw [← hAt, ← hLen]
      exact ⟨hClear, eb, hMem, rfl, rfl, hOwn⟩
    · intro hMark
      cases hMark
  case h_2 =>
    rcases Option.bind_eq_some_iff.mp hPin with
      ⟨pinned, hSet, hPin⟩
    cases hPin
    rcases setExtentDirty_marked hSafe.space.ok.pinned
      (by omega) (by omega) hSet with ⟨hUniform, hMarked⟩
    have hMore : ∀ x, Marked s.space.pinnedExtents x →
        Marked pinned x :=
      fun x h => (hMarked x).mpr (Or.inl h)
    refine ⟨?_, rfl, rfl, hMore, ?_, ?_⟩
    · exact hSafe.setSpace
        (hSafe.space.setPinned hUniform hMore) rfl hMore
    · intro hMark
      cases hMark
    · intro _ x hLow hHigh
      exact (hMarked x).mpr (Or.inr ⟨hLow, by omega⟩)

/- `__free_extent` begins to free the extent of an item. -/
theorem Safe.pinDown
    (hSafe : Safe committed s₀ s)
    {key : ExtentKey}
    {refs : Nat}
    {isData : Bool}
    (hStep : step s (.pinDown key refs isData) = some s') :
    Safe committed s₀ s' ∧
      (∀ x, Marked s.space.pinnedExtents x →
        Marked s'.space.pinnedExtents x) ∧
      ((∀ x, key.objectid ≤ x →
          x < key.objectid + extentLen s.space.leafsize key →
            Marked s'.space.pinnedExtents x) ∨
        ∃ eb ∈ s.cache,
          eb.start = key.objectid ∧
            eb.len = extentLen s.space.leafsize key ∧
            Own s.transid eb.block) := by
  simp only [step] at hStep
  rcases guard_bind_eq_some hStep with ⟨_, hStep⟩
  rcases guard_bind_eq_some hStep with ⟨hExtent, hStep⟩
  rcases Option.bind_eq_some_iff.mp hStep with
    ⟨item, hItem, hStep⟩
  rcases guard_bind_eq_some hStep with ⟨_, hStep⟩
  rcases Option.bind_eq_some_iff.mp hStep with
    ⟨⟨markFree, next⟩, hPin, hStep⟩
  cases hStep
  have hMem := List.mem_of_find?_eq_some hItem
  have hKey : item.key = key := by
    simpa using List.find?_some hItem
  have hOk := hSafe.space.extents item hMem
  rw [hKey] at hOk
  rcases hOk hExtent with ⟨hPos, hEnd⟩
  have hBound :
      key.objectid + extentLen s.space.leafsize key < u64Max := by
    unfold extentLen at hPos ⊢
    omega
  rcases hSafe.pinDownBytes hPos hBound hPin with
    ⟨hNext, hLeaf, hSame, hMore, hFree, hPinned⟩
  refine ⟨?_, hMore, ?_⟩
  · apply hNext.setFreeing
    intro f hf
    rcases List.mem_cons.mp hf with rfl | hf
    · refine ⟨hExtent, ?_, ?_, ?_⟩
      · rw [hLeaf]
        exact hOk
      · rw [hLeaf]
        exact fun h => (hFree h).1
      · rw [hLeaf]
        exact hPinned
    · rw [hSame] at hf
      exact (hSafe.freeing f hf).mono hLeaf hMore
  · cases markFree with
    | true => exact Or.inr (hFree rfl).2
    | false => exact Or.inl (hPinned rfl)

/- The item of an extent that is pinned, or own, goes. -/
theorem Safe.delItems
    (hSafe : Safe committed s₀ s)
    {key : ExtentKey}
    (hStep : step s (.delItems key) = some s') :
    Safe committed s₀ s' := by
  simp only [step] at hStep
  rcases guard_bind_eq_some hStep with ⟨_, hStep⟩
  rcases Option.bind_eq_some_iff.mp hStep with
    ⟨f, hFind, hStep⟩
  cases hStep
  have hMem := List.mem_of_find?_eq_some hFind
  have hKey : f.key = key ∧ f.deleted = false := by
    simpa using List.find?_some hFind
  have hFree := hSafe.freeing f hMem
  have hSpace :
      SpaceSafe committed s.handedOut
        { s.space with
          items := s.space.items.filter (·.key ≠ key) } := by
    apply hSafe.space.setItems
    · exact hSafe.space.ok.sorted.sublist
        List.filter_sublist
    · intro item hItem
      exact Or.inl ⟨item, (List.mem_filter.mp hItem).1, rfl⟩
    · intro b n hCommitted item hItem hIs
      by_cases hGone : item.key = key
      · right
        intro x hLow hHigh
        -- the range of the item is the range of the block
        rw [hGone, ← hKey.1] at hIs
        have hLen :
            extentLen s.space.leafsize f.key = n := by
          unfold extentLen
          rw [hIs.2.2, hIs.2.1]
          omega
        cases hMark : f.markFree with
        | true =>
            have := hFree.clear hMark b n hCommitted x
              (by rw [hIs.2.1]; exact hLow)
              (by rw [hIs.2.1, hLen]; exact hHigh)
            exact absurd ⟨hLow, hHigh⟩ this
        | false =>
            exact hFree.pinned hMark x
              (by rw [hIs.2.1]; exact hLow)
              (by rw [hIs.2.1, hLen]; exact hHigh)
      · left
        refine ⟨item, List.mem_filter.mpr ⟨hItem, ?_⟩, rfl⟩
        simpa using hGone
  have hNext := hSafe.setSpace hSpace rfl fun _ h => h
  apply hNext.setFreeing
  intro g hg
  rcases List.mem_cons.mp hg with rfl | hg
  · exact ⟨hFree.isExtent, hFree.extent, hFree.clear,
      hFree.pinned⟩
  · exact hNext.freeing g (List.mem_of_mem_erase hg)

theorem lookupBlockGroup_spec
    {space : Space}
    {bytenr : Nat}
    {group : BlockGroup}
    (hLookup : lookupBlockGroup space bytenr = some group) :
    group.start ≤ bytenr ∧ bytenr < group.end_ := by
  unfold lookupBlockGroup at hLookup
  split at hLookup
  case h_1 => cases hLookup
  case h_2 g hFind =>
    split at hLookup
    case isFalse => cases hLookup
    case isTrue hLow =>
      cases hLookup
      exact ⟨hLow, by simpa using List.find?_some hFind⟩

/- The loop marks bytes of the range only. -/
theorem updateBlockGroupLoop_marked
    {space : Space}
    {markFree : Bool}
    {fuel bytenr total : Nat}
    {free free' : ExtentIoTree}
    (hBound : bytenr + total < u64Max)
    (hTree : Uniform EXTENT_DIRTY free)
    (hLoop :
      updateBlockGroupLoop space markFree fuel bytenr total
        free = some free') :
    Uniform EXTENT_DIRTY free' ∧
      ∀ x, Marked free' x →
        Marked free x ∨
          (markFree = true ∧ bytenr ≤ x ∧
            x < bytenr + total) := by
  induction fuel generalizing bytenr total free with
  | zero =>
      cases hLoop
      exact ⟨hTree, fun _ h => Or.inl h⟩
  | succ fuel ih =>
      unfold updateBlockGroupLoop at hLoop
      split at hLoop
      case isTrue =>
        cases hLoop
        exact ⟨hTree, fun _ h => Or.inl h⟩
      case isFalse hTotal =>
        split at hLoop
        case h_1 =>
          cases hLoop
          exact ⟨hTree, fun _ h => Or.inl h⟩
        case h_2 group hLookup =>
          have hIn := lookupBlockGroup_spec hLookup
          rcases Option.bind_eq_some_iff.mp hLoop with
            ⟨next, hSet, hLoop⟩
          generalize hNum :
            min total (group.size - (bytenr - group.start)) =
              num at hSet hLoop
          unfold BlockGroup.end_ at hIn
          split at hSet
          case isTrue hMark =>
            rcases setExtentDirty_marked hTree (by omega)
              (by omega) hSet with ⟨hUniform, hMarked⟩
            rcases ih (by omega) hUniform hLoop with
              ⟨hEnd, hNew⟩
            refine ⟨hEnd, ?_⟩
            intro x hx
            rcases hNew x hx with h | h
            · rcases (hMarked x).mp h with h | h
              · exact Or.inl h
              · exact Or.inr ⟨hMark, by omega⟩
            · exact Or.inr ⟨h.1, by omega⟩
          case isFalse =>
            cases hSet
            rcases ih (by omega) hTree hLoop with
              ⟨hEnd, hNew⟩
            refine ⟨hEnd, ?_⟩
            intro x hx
            rcases hNew x hx with h | h
            · exact Or.inl h
            · exact Or.inr ⟨h.1, by omega⟩

/- `__free_extent` ends. -/
theorem Safe.updateBlockGroup
    (hSafe : Safe committed s₀ s)
    {key : ExtentKey}
    (hStep : step s (.updateBlockGroup key) = some s') :
    Safe committed s₀ s' ∧
      s'.space.pinnedExtents = s.space.pinnedExtents := by
  simp only [step] at hStep
  rcases guard_bind_eq_some hStep with ⟨_, hStep⟩
  rcases Option.bind_eq_some_iff.mp hStep with
    ⟨f, hFind, hStep⟩
  rcases Option.bind_eq_some_iff.mp hStep with
    ⟨space, hUpdate, hStep⟩
  cases hStep
  unfold ExtentTree.updateBlockGroup at hUpdate
  rcases Option.bind_eq_some_iff.mp hUpdate with
    ⟨free, hLoop, hUpdate⟩
  cases hUpdate
  have hKey : f.key = key ∧ f.deleted = true := by
    simpa using List.find?_some hFind
  have hFree := hSafe.freeing f (List.mem_of_find?_eq_some hFind)
  rw [← hKey.1] at hLoop
  rcases hFree.extent hFree.isExtent with ⟨hPos, hEnd⟩
  have hBound :
      f.key.objectid + extentLen s.space.leafsize f.key <
        u64Max := by
    unfold extentLen at hPos ⊢
    omega
  rcases updateBlockGroupLoop_marked hBound hSafe.space.ok.free
    hLoop with ⟨hUniform, hNew⟩
  have hSpace :
      SpaceSafe committed s.handedOut
        { s.space with freeSpaceCache := free } := by
    refine ⟨{ hSafe.space.ok with free := hUniform },
      hSafe.space.extents, ?_, hSafe.space.grouped,
      hSafe.space.queued⟩
    intro b n hCommitted
    have hKept := hSafe.space.kept b n hCommitted
    refine ⟨hKept.apart, hKept.group, ?_⟩
    rcases hKept.held with hPinned | ⟨hItem, hNot⟩
    · exact Or.inl hPinned
    · refine Or.inr ⟨hItem, ?_⟩
      intro x hLow hHigh hMarked
      rcases hNew x hMarked with h | ⟨hMark, hIn⟩
      · exact hNot x hLow hHigh h
      · exact hFree.clear hMark b n hCommitted x hIn.1 hIn.2
          ⟨hLow, hHigh⟩
  have hNext := hSafe.setSpace hSpace rfl fun _ h => h
  refine ⟨?_, rfl⟩
  apply hNext.setFreeing
  intro g hg
  exact hNext.freeing g (List.mem_of_mem_erase hg)

omit [DecidableEq Body] in
theorem writeToDisk_other
    (disk : Disk Body)
    {eb : ExtentBuffer Body}
    {x : Nat}
    (hOther : ¬ (eb.start ≤ x ∧ x < eb.start + eb.len)) :
    writeToDisk disk eb x = disk x := by
  unfold writeToDisk
  rw [if_neg hOther]

/- `write_tree_block` writes where nothing was committed. -/
theorem Safe.writeTreeBlock
    (hSafe : Safe committed s₀ s)
    {bytenr len : Nat}
    (hStep : step s (.writeTreeBlock bytenr len) = some s') :
    Safe committed s₀ s' := by
  simp only [step] at hStep
  rcases guard_bind_eq_some hStep with ⟨_, hStep⟩
  rcases Option.bind_eq_some_iff.mp hStep with
    ⟨eb, hEb, hStep⟩
  cases hStep
  rcases requireBuffer_spec hEb with ⟨hMem, _, _, hOk⟩
  simp only [Bool.and_eq_true] at hOk
  have hOld := hSafe.cache eb hMem
  have hClear := hOld.clear (Or.inl hOk.1)
  have hNew : BufferSafe committed s₀.transid
      { eb with
        dirty := false
        block := { eb.block with written := true } } := by
    constructor
    · intro hDirty
      cases hDirty
    · intro _
      exact hClear
  have hSame := hSafe.setCache hNew
    fun e (he : e ∈ setBuffer s.cache eb _) => mem_setBuffer he
  refine { hSame with disk := ?_ }
  intro b n hCommitted x hLow hHigh
  have hOther : ¬ (eb.start ≤ x ∧ x < eb.start + eb.len) := by
    rintro ⟨hFrom, hTo⟩
    exact hClear b n hCommitted x hFrom hTo ⟨hLow, hHigh⟩
  refine Eq.trans (writeToDisk_other _ ?_)
    (hSafe.disk b n hCommitted x hLow hHigh)
  exact hOther

end Actions

end Committed

end ExtentTree

end BtrfsProgs
