import BtrfsProgs.Key
import BtrfsProgs.Lib.Loop
import BtrfsProgs.Lib.Record

/-
  `__list_subvol_search`, from `btrfs-list.c`.

  The items of the tree of roots come in pages, and the key of
  the next search is the one behind the last item.

  Main declarations:
    * `SearchKey` and `SearchItem`
    * `searchTurn` and `listSubvolSearch`
    * `RootItems` and `Serves`
    * `listSubvolSearch_each_once`
-/

----------
-- Items and Pages
----------

namespace BtrfsProgs

namespace SubvolSearch

open LittleEndian
open Record

def BTRFS_FIRST_FREE_OBJECTID : Nat := 256

def BTRFS_LAST_FREE_OBJECTID : Nat := 2 ^ 64 - 256

def BTRFS_ROOT_ITEM_KEY : Nat := 132

def BTRFS_ROOT_BACKREF_KEY : Nat := 144

/- `struct btrfs_ioctl_search_key`. -/
structure SearchKey where
  tree_id : Nat
  min_objectid : Nat
  max_objectid : Nat
  min_offset : Nat
  max_offset : Nat
  min_transid : Nat
  max_transid : Nat
  min_type : Nat
  max_type : Nat
  nr_items : Nat
deriving Repr, DecidableEq

/- An item behind its `struct btrfs_ioctl_search_header`. -/
structure SearchItem where
  transid : Nat
  key : Key
  data : List UInt8
deriving Repr, DecidableEq

/- `sizeof(struct btrfs_ioctl_search_header)`. -/
def SEARCH_HEADER_SIZE : Nat := 32

/- The item at a place of `args.buf`. -/
def readItem
    (buf : List UInt8)
    (off : Nat) : SearchItem where
  transid := field buf off 8
  key :=
    { objectid := field buf (off + 8) 8
      offset := field buf (off + 16) 8
      type := field buf (off + 24) 4 }
  data :=
    (buf.drop (off + SEARCH_HEADER_SIZE)).take
      (field buf (off + 28) 4)

/- The arguments of a call of `add_root`. -/
structure AddRoot where
  root_id : Nat
  ref_tree : Nat
  root_offset : Nat
  flags : Nat
  dir_id : Nat
  name : Option (List UInt8)
  ogen : Nat
  gen : Nat
  ot : Nat
  uuid : Option (List UInt8)
  puuid : Option (List UInt8)
deriving Repr, DecidableEq

/- `sizeof(struct btrfs_root_item_v0)`. -/
def ROOT_ITEM_V0_SIZE : Nat := 239

def BTRFS_UUID_SIZE : Nat := 16

/- The call for a `struct btrfs_root_ref` and its name. -/
def addBackref
    (sh : SearchItem) : AddRoot where
  root_id := sh.key.objectid
  ref_tree := sh.key.offset
  root_offset := 0
  flags := 0
  dir_id := field sh.data 0 8
  name := some ((sh.data.drop 18).take (field sh.data 16 2))
  ogen := 0
  gen := 0
  ot := 0
  uuid := none
  puuid := none

/- The call for a `struct btrfs_root_item`, old or new. -/
def addRootItem
    (sh : SearchItem) : AddRoot :=
  let new := sh.data.length > ROOT_ITEM_V0_SIZE
  let uuidAt place :=
    if new then (sh.data.drop place).take BTRFS_UUID_SIZE
    else .replicate BTRFS_UUID_SIZE 0
  { root_id := sh.key.objectid
    ref_tree := 0
    root_offset := sh.key.offset
    flags := field sh.data 208 8
    dir_id := 0
    name := none
    ogen := if new then field sh.data 303 8 else 0
    gen := field sh.data 160 8
    ot := if new then field sh.data 339 8 else 0
    uuid := some (uuidAt 247)
    puuid := some (uuidAt 263) }

/- The call of `add_root` for an item, if it has one. -/
def addRootOf
    (sh : SearchItem) : Option AddRoot :=
  if sh.key.type = BTRFS_ROOT_BACKREF_KEY then
    some (addBackref sh)
  else if sh.key.type = BTRFS_ROOT_ITEM_KEY then
    some (addRootItem sh)
  else
    none

----------
-- The Function
----------

/- The variables of the loop through a page. -/
structure PageState where
  sk : SearchKey
  off : Nat
  added : List AddRoot

/- The loop through the items of a page. -/
def pageLoop
    (buf : List UInt8) : Nat → PageState → PageState
  | 0, s => s
  | n + 1, s =>
      let sh := readItem buf s.off
      pageLoop buf n
        { sk :=
            { s.sk with
              min_objectid := sh.key.objectid
              min_type := sh.key.type
              min_offset := sh.key.offset }
          off := s.off + SEARCH_HEADER_SIZE + sh.data.length
          added := s.added ++ (addRootOf sh).toList }

/-
  `BTRFS_IOC_TREE_SEARCH`: for a call, by its number, and a key
  the number of the items in the buffer, or an error.
-/
abbrev TreeSearch :=
  Nat → SearchKey → Except Int (Nat × List UInt8)

/- The variables of the outer loop, with the calls made. -/
structure SearchState where
  sk : SearchKey
  call : Nat
  added : List AddRoot

/- A turn of the outer loop. -/
def searchTurn
    (ioctl : TreeSearch)
    (s : SearchState) : SearchState ⊕ Int × List AddRoot :=
  match ioctl s.call s.sk with
  | .error ret => .inr (ret, s.added)
  | .ok (nr_items, buf) =>
      if nr_items = 0 then .inr (0, s.added)
      else
        let page := pageLoop buf nr_items ⟨s.sk, 0, s.added⟩
        let sk :=
          { page.sk with
            nr_items := 4096
            min_offset := (page.sk.min_offset + 1) % 2 ^ 64 }
        if sk.min_offset ≠ 0 then
          .inl ⟨sk, s.call + 1, page.added⟩
        else
          let sk :=
            { sk with min_type := (sk.min_type + 1) % 2 ^ 32 }
          if sk.min_type > BTRFS_ROOT_BACKREF_KEY then
            let sk :=
              { sk with
                min_type := BTRFS_ROOT_ITEM_KEY
                min_objectid := (sk.min_objectid + 1) % 2 ^ 64 }
            if sk.min_objectid > sk.max_objectid then
              .inr (0, page.added)
            else
              .inl ⟨sk, s.call + 1, page.added⟩
          else
            .inl ⟨sk, s.call + 1, page.added⟩

/- The key of the first search. -/
def firstKey : SearchKey where
  tree_id := 1
  min_objectid := BTRFS_FIRST_FREE_OBJECTID
  max_objectid := BTRFS_LAST_FREE_OBJECTID
  min_offset := 0
  max_offset := 2 ^ 64 - 1
  min_transid := 0
  max_transid := 2 ^ 64 - 1
  min_type := BTRFS_ROOT_ITEM_KEY
  max_type := BTRFS_ROOT_BACKREF_KEY
  nr_items := 4096

/-
  `__list_subvol_search`, for some turns of its loop, with the
  calls of `add_root` that it makes.
-/
def listSubvolSearch
    (ioctl : TreeSearch)
    (fuel : Nat) : Option (Int × List AddRoot) :=
  Loop.run (searchTurn ioctl) fuel ⟨firstKey, 0, []⟩

----------
-- The Search of the Kernel
----------

/- The tree of roots, whose items fit in their headers. -/
structure RootItems where
  items : List SearchItem
  ascending : items.Pairwise fun a b => a.key < b.key
  transid : ∀ item ∈ items, item.transid < 2 ^ 64
  objectid : ∀ item ∈ items, item.key.objectid < 2 ^ 64
  type : ∀ item ∈ items, item.key.type < 2 ^ 8
  offset : ∀ item ∈ items, item.key.offset < 2 ^ 64
  data : ∀ item ∈ items, item.data.length < 2 ^ 32

def SearchKey.min
    (sk : SearchKey) : Key :=
  ⟨sk.min_objectid, sk.min_type, sk.min_offset⟩

def SearchKey.max
    (sk : SearchKey) : Key :=
  ⟨sk.max_objectid, sk.max_type, sk.max_offset⟩

/- Keys returned are at least min and at most max. -/
def SearchKey.has
    (sk : SearchKey)
    (item : SearchItem) : Bool :=
  sk.min ≤ item.key ∧ item.key ≤ sk.max

/- The fields of the header of an item. -/
def SearchItem.header
    (item : SearchItem) : List (Nat × Nat) :=
  [(8, item.transid), (8, item.key.objectid),
    (8, item.key.offset), (4, item.key.type),
    (4, item.data.length)]

/- The items in the buffer, each behind its header. -/
def packPage
    (page : List SearchItem) : List UInt8 :=
  page.flatMap fun item => pack item.header ++ item.data

/-
  Every search in the tree of roots finds the first items in
  its range, as many as it likes but one if there is one.
-/
def Serves
    (ioctl : TreeSearch)
    (tree : RootItems) : Prop :=
  ∀ call sk, sk.tree_id = 1 → ∃ page rest,
    page <+: tree.items.filter sk.has ∧
      (page = [] → tree.items.filter sk.has = []) ∧
      ioctl call sk = .ok (page.length, packPage page ++ rest)

/- The item has an objectid that subvolumes can have. -/
def free
    (item : SearchItem) : Bool :=
  BTRFS_FIRST_FREE_OBJECTID ≤ item.key.objectid ∧
    item.key.objectid ≤ BTRFS_LAST_FREE_OBJECTID

/- One call for each root item and backref, in key order. -/
def eachOnce
    (tree : RootItems) : List AddRoot :=
  (tree.items.filter free).filterMap addRootOf

----------
-- A Page
----------

section Page

variable {tree : RootItems}
variable {item : SearchItem}
variable {page : List SearchItem}
variable {buf rest : List UInt8}

theorem RootItems.header_fits
    (hItem : item ∈ tree.items) :
    Fits item.header := by
  have hType := tree.type item hItem
  unfold SearchItem.header
  refine fits_cons (tree.transid item hItem)
    (fits_cons (tree.objectid item hItem)
      (fits_cons (tree.offset item hItem)
        (fits_cons ?_
          (fits_cons (tree.data item hItem) fits_nil))))
  omega

/- An item is read back from the buffer. -/
theorem readItem_pack
    {off : Nat}
    (hItem : item ∈ tree.items)
    (hBuf : buf.drop off =
      pack item.header ++ (item.data ++ rest)) :
    readItem buf off = item := by
  have hFits := tree.header_fits hItem
  have hField : ∀ i place w v,
      item.header[i]? = some (w, v) →
        space (item.header.take i) = place →
          field buf (off + place) w = v := by
    intro i place w v hAt hPlace
    rw [field_drop, hBuf]
    exact field_pack i place _ hFits hAt hPlace
  have hTransid := hField 0 0 8 item.transid rfl rfl
  have hObjectid := hField 1 8 8 item.key.objectid rfl rfl
  have hOffset := hField 2 16 8 item.key.offset rfl rfl
  have hType := hField 3 24 4 item.key.type rfl rfl
  have hLen := hField 4 28 4 item.data.length rfl rfl
  have hSize : (pack item.header).length =
      SEARCH_HEADER_SIZE := length_pack _
  have hData : buf.drop (off + SEARCH_HEADER_SIZE) =
      item.data ++ rest := by
    rw [← hSize]
    exact drop_of_drop hBuf
  unfold readItem
  rw [Nat.add_zero] at hTransid
  rw [hTransid, hObjectid, hOffset, hType, hLen, hData,
    List.take_left]

/- The key with another item as the first of its range. -/
def SearchKey.from
    (sk : SearchKey)
    (k : Key) : SearchKey :=
  { sk with
    min_objectid := k.objectid
    min_type := k.type
    min_offset := k.offset }

/-
  The loop makes the calls for the items of a page, and leaves
  the key of the last one.
-/
theorem pageLoop_pack
    {x : SearchItem}
    (s : PageState)
    (hItems : ∀ item ∈ page ++ [x], item ∈ tree.items)
    (hBuf : buf.drop s.off = packPage (page ++ [x]) ++ rest) :
    (pageLoop buf (page ++ [x]).length s).sk =
        s.sk.from x.key ∧
      (pageLoop buf (page ++ [x]).length s).added =
        s.added ++ (page ++ [x]).filterMap addRootOf := by
  induction page generalizing s with
  | nil =>
      have hHead : buf.drop s.off =
          pack x.header ++ (x.data ++ rest) := by
        simpa [packPage] using hBuf
      have hRead := readItem_pack
        (hItems x List.mem_cons_self) hHead
      simp only [List.nil_append, List.length_singleton,
        pageLoop]
      rw [hRead]
      refine ⟨rfl, ?_⟩
      cases hCall : addRootOf x with
      | none
      | some call => simp [hCall]
  | cons item page ih =>
      have hBehind : buf.drop s.off = pack item.header ++
          (item.data ++ (packPage (page ++ [x]) ++ rest)) := by
        simpa [packPage] using hBuf
      have hRead := readItem_pack
        (hItems item List.mem_cons_self) hBehind
      have hSize : (pack item.header).length =
          SEARCH_HEADER_SIZE := length_pack _
      simp only [List.cons_append, List.length_cons, pageLoop]
      rw [hRead]
      have hNext := ih
        (s :=
          { sk := s.sk.from item.key
            off := s.off + SEARCH_HEADER_SIZE +
              item.data.length
            added := s.added ++ (addRootOf item).toList })
        (fun other hOther =>
          hItems other (List.mem_cons_of_mem _ hOther))
        (by
          rw [← hSize]
          exact drop_of_drop (drop_of_drop hBehind))
      refine ⟨hNext.1, hNext.2.trans ?_⟩
      cases hCall : addRootOf item with
      | none
      | some call => simp [hCall]

end Page

----------
-- Ordered Items
----------

section Ordered

variable {items page : List SearchItem}
variable {x : SearchItem}

/- What comes up to a key is what comes first, then the rest. -/
theorem filterMap_upto
    {k k' : Key}
    {call : SearchItem → Option AddRoot}
    (hAscending : items.Pairwise fun a b => a.key < b.key)
    (hLe : k ≤ k') :
    (items.filter fun i => i.key < k).filterMap call ++
        (items.filter fun i =>
          k ≤ i.key ∧ i.key < k').filterMap call =
      (items.filter fun i => i.key < k').filterMap call := by
  rw [← List.filterMap_append]
  congr 1
  induction items with
  | nil => rfl
  | cons item items ih =>
      rcases List.pairwise_cons.mp hAscending with
        ⟨hLater, hRest⟩
      by_cases hFirst : item.key < k
      · rw [List.filter_cons_of_pos (by simpa using hFirst),
          List.filter_cons_of_neg (by simp [hFirst]),
          List.filter_cons_of_pos
            (by simpa using hFirst.trans_le hLe),
          List.cons_append, ih hRest]
      · -- what is behind the item is not before the key
        have hNone : (item :: items).filter
            (fun i => decide (i.key < k)) = [] := by
          rw [List.filter_eq_nil_iff]
          intro i hi
          rcases List.mem_cons.mp hi with rfl | hi
          · simpa using hFirst
          · have hMore := hLater i hi
            simp only [decide_eq_true_eq]
            exact fun hLess => hFirst (hMore.trans hLess)
        rw [hNone, List.nil_append]
        apply List.filter_congr
        intro i hi
        have hFrom : k ≤ i.key := by
          rcases List.mem_cons.mp hi with rfl | hi
          · exact not_lt.mp hFirst
          · exact (not_lt.mp hFirst).trans (hLater i hi).le
        simp [hFrom]

/- A page is what there is up to its last item. -/
theorem page_eq_filter
    (hAscending : items.Pairwise fun a b => a.key < b.key)
    (hPage : page ++ [x] <+: items) :
    page ++ [x] = items.filter fun i => i.key ≤ x.key := by
  rcases hPage with ⟨rest, rfl⟩
  rcases List.pairwise_append.mp hAscending with
    ⟨hHere, _, hAcross⟩
  have hBefore := (List.pairwise_append.mp hHere).2.2
  rw [List.filter_append, List.filter_eq_self.mpr,
    List.filter_eq_nil_iff.mpr, List.append_nil]
  · intro i hi
    have hMore := hAcross x
      (List.mem_append_right _ List.mem_cons_self) i hi
    simpa using hMore
  · intro i hi
    rw [decide_eq_true_eq]
    rcases List.mem_append.mp hi with hi | hi
    · exact (hBefore i hi x List.mem_cons_self).le
    · rw [List.mem_singleton.mp hi]

end Ordered

----------
-- A Turn
----------

section Turn

variable {ioctl : TreeSearch}
variable {tree : RootItems}
variable {s : SearchState}
variable {x item : SearchItem}
variable {page : List SearchItem}
variable {k : Key}

/- The call for an item with an objectid of subvolumes. -/
def callOf
    (item : SearchItem) : Option AddRoot :=
  if free item then addRootOf item else none

/- The calls for the items before a key. -/
def callsBefore
    (tree : RootItems)
    (k : Key) : List AddRoot :=
  (tree.items.filter fun i => i.key < k).filterMap callOf

/- The calls made are those for the items before the key. -/
structure SearchState.At
    (tree : RootItems)
    (s : SearchState) : Prop where
  tree_id : s.sk.tree_id = 1
  max_objectid : s.sk.max_objectid = BTRFS_LAST_FREE_OBJECTID
  max_type : s.sk.max_type = BTRFS_ROOT_BACKREF_KEY
  max_offset : s.sk.max_offset = 2 ^ 64 - 1
  first : BTRFS_FIRST_FREE_OBJECTID ≤ s.sk.min_objectid
  added : s.added = callsBefore tree s.sk.min

/- The items whose key is not before that of the search. -/
def SearchState.rank
    (tree : RootItems)
    (s : SearchState) : Nat :=
  (tree.items.filter fun i => s.sk.min ≤ i.key).length

theorem type_of_call
    (hCall : callOf item ≠ none) :
    (item.key.type = 132 ∨ item.key.type = 144) ∧
      256 ≤ item.key.objectid ∧
      item.key.objectid ≤ 2 ^ 64 - 256 := by
  unfold callOf at hCall
  split_ifs at hCall with hFree
  · unfold free at hFree
    rw [decide_eq_true_eq] at hFree
    unfold addRootOf at hCall
    split_ifs at hCall with hBackref hItem
    · exact ⟨.inr hBackref, hFree⟩
    · exact ⟨.inl hItem, hFree⟩
    · exact absurd rfl hCall
  · exact absurd rfl hCall

/- No call is for an item behind a key. -/
theorem callsBefore_all
    (hAll : ∀ i ∈ tree.items, callOf i ≠ none → i.key < k) :
    callsBefore tree k = eachOnce tree := by
  unfold callsBefore eachOnce
  rw [List.filterMap_filter, List.filterMap_filter]
  apply List.filterMap_congr
  intro i hi
  by_cases hCall : callOf i = none
  · have hNone : (if free i = true then addRootOf i
        else none) = none := hCall
    rw [hNone, hCall, ite_self]
  · rw [if_pos (decide_eq_true (hAll i hi hCall))]
    rfl

/- The item is in the range of the search, as the key says. -/
theorem SearchState.At.has_iff
    (hAt : s.At tree) :
    s.sk.has item = true ↔
      s.sk.min ≤ item.key ∧
        item.key ≤ ⟨2 ^ 64 - 256, 144, 2 ^ 64 - 1⟩ := by
  unfold SearchKey.has SearchKey.max
  rw [hAt.max_objectid, hAt.max_type, hAt.max_offset,
    decide_eq_true_eq]
  rfl

/-
  The calls for a page follow those before it, if no call is
  for an item between its last one and the next key.
-/
theorem SearchState.At.calls
    (hAt : s.At tree)
    (hPage : page ++ [x] <+: tree.items.filter s.sk.has)
    (hNext : ∀ i ∈ tree.items, callOf i ≠ none →
      (i.key < k ↔ i.key ≤ x.key))
    (hLater : x.key < k) :
    s.added ++ (page ++ [x]).filterMap addRootOf =
      callsBefore tree k := by
  have hIn : x ∈ tree.items.filter s.sk.has :=
    hPage.subset (List.mem_append_right _ List.mem_cons_self)
  have hRange := hAt.has_iff.mp (List.mem_filter.mp hIn).2
  have hFirst := hAt.first
  have hLow : s.sk.min_objectid ≤ x.key.objectid := by
    have hLe := Key.le_iff.mp hRange.1
    unfold SearchKey.min at hLe
    dsimp only at hLe
    omega
  unfold callsBefore
  rw [hAt.added, callsBefore,
    ← filterMap_upto tree.ascending
      (hRange.1.trans hLater.le)]
  congr 1
  rw [page_eq_filter (tree.ascending.filter _) hPage,
    List.filterMap_filter, List.filterMap_filter,
    List.filterMap_filter]
  apply List.filterMap_congr
  intro i hi
  by_cases hCall : callOf i = none
  · rw [hCall, ite_self]
    -- in the range of the page, no call is no item to add
    split_ifs with hHas hUp
    · have hHere := hAt.has_iff.mp hHas
      have hObjectid : free i = true := by
        have hLe := Key.le_iff.mp hHere.1
        have hGe := Key.le_iff.mp hHere.2
        unfold SearchKey.min at hLe
        dsimp only at hLe hGe
        unfold free
        rw [decide_eq_true_eq]
        unfold BTRFS_LAST_FREE_OBJECTID
        omega
      unfold callOf at hCall
      rw [if_pos hObjectid] at hCall
      exact hCall
    · rfl
    · rfl
  · have hSame : addRootOf i = callOf i := by
      unfold callOf at hCall ⊢
      split_ifs at hCall ⊢ with hFree
      · rfl
      · exact absurd rfl hCall
    have hIff := hNext i hi hCall
    rw [hSame]
    by_cases hUp : i.key ≤ x.key
    · have hMax := hUp.trans hRange.2
      have hLess := hIff.mpr hUp
      by_cases hFrom : s.sk.min ≤ i.key
      · rw [if_pos (hAt.has_iff.mpr ⟨hFrom, hMax⟩),
          if_pos (decide_eq_true hUp),
          if_pos (decide_eq_true ⟨hFrom, hLess⟩)]
      · rw [if_neg fun hHas => hFrom (hAt.has_iff.mp hHas).1,
          if_neg fun hBoth => hFrom (of_decide_eq_true hBoth).1]
    · have hNot : ¬ i.key < k := fun hLess => hUp (hIff.mp hLess)
      have hBehind : ¬ decide (i.key ≤ x.key) = true :=
        fun hHere => hUp (of_decide_eq_true hHere)
      rw [if_neg hBehind, ite_self,
        if_neg fun hBoth => hNot (of_decide_eq_true hBoth).2]

/- The items from a later key on are fewer. -/
theorem rank_lt
    {next : SearchState}
    (hx : x ∈ tree.items)
    (hFrom : s.sk.min ≤ x.key)
    (hLater : x.key < next.sk.min) :
    next.rank tree < s.rank tree := by
  have hSub : tree.items.filter
      (fun i => decide (next.sk.min ≤ i.key)) =
      (tree.items.filter
        fun i => decide (s.sk.min ≤ i.key)).filter
          fun i => decide (next.sk.min ≤ i.key) := by
    rw [List.filter_filter]
    apply List.filter_congr
    intro i _
    by_cases hIs : next.sk.min ≤ i.key
    · have hBoth : s.sk.min ≤ i.key :=
        hFrom.trans (hLater.le.trans hIs)
      simp [hIs, hBoth]
    · simp [hIs]
  unfold SearchState.rank
  rw [hSub]
  apply List.length_filter_lt_length_iff_exists.mpr
  exact ⟨x, List.mem_filter.mpr ⟨hx, decide_eq_true hFrom⟩,
    by simpa using hLater⟩

/- What a page of items leaves, before the key moves on. -/
structure Paged
    (tree : RootItems)
    (s : SearchState)
    (x : SearchItem)
    (page : PageState) : Prop where
  sk : page.sk = s.sk.from x.key
  mem : x ∈ tree.items
  lowest : s.sk.min ≤ x.key
  objectid : x.key.objectid ≤ BTRFS_LAST_FREE_OBJECTID
  calls :
    ∀ k, x.key < k →
      (∀ i ∈ tree.items, callOf i ≠ none →
        (i.key < k ↔ i.key ≤ x.key)) →
      page.added = callsBefore tree k

/- The ioctl finds nothing, or a page that the loop reads. -/
theorem SearchState.At.served
    (hAt : s.At tree)
    (hServes : Serves ioctl tree) :
    (∃ buf, ioctl s.call s.sk = .ok (0, buf) ∧
      tree.items.filter s.sk.has = []) ∨
    ∃ n buf x,
      ioctl s.call s.sk = .ok (n + 1, buf) ∧
        Paged tree s x
          (pageLoop buf (n + 1) ⟨s.sk, 0, s.added⟩) := by
  rcases hServes s.call s.sk hAt.tree_id with
    ⟨found, rest, hPrefix, hSome, hFound⟩
  rcases List.eq_nil_or_concat found with
    rfl | ⟨page, x, rfl⟩
  · exact .inl ⟨_, hFound, hSome rfl⟩
  · rw [List.concat_eq_append] at hPrefix hFound
    have hMem : ∀ item ∈ page ++ [x], item ∈ tree.items :=
      fun item hItem =>
        (List.mem_filter.mp (hPrefix.subset hItem)).1
    have hLast := hPrefix.subset
      (List.mem_append_right page List.mem_cons_self)
    have hRange := hAt.has_iff.mp (List.mem_filter.mp hLast).2
    have hBuf : (packPage (page ++ [x]) ++ rest).drop 0 =
        packPage (page ++ [x]) ++ rest := rfl
    have hLoop := pageLoop_pack ⟨s.sk, 0, s.added⟩ hMem hBuf
    have hLength : (page ++ [x]).length = page.length + 1 :=
      List.length_append
    rw [hLength] at hFound hLoop
    refine .inr ⟨_, _, x, hFound, hLoop.1,
      (List.mem_filter.mp hLast).1, hRange.1, ?_, ?_⟩
    · have hLe := Key.le_iff.mp hRange.2
      unfold BTRFS_LAST_FREE_OBJECTID
      dsimp only at hLe
      omega
    · intro k hLater hNext
      exact hLoop.2.trans (hAt.calls hPrefix hNext hLater)

/- The next key, and the calls made before it. -/
theorem Paged.next
    {page : PageState}
    {sk : SearchKey}
    {call : Nat}
    (hAt : s.At tree)
    (hPaged : Paged tree s x page)
    (hKey : sk.from x.key = { s.sk.from x.key with
      nr_items := sk.nr_items })
    (hLater : x.key < k)
    (hFirst : x.key.objectid ≤ k.objectid)
    (hNext : ∀ i ∈ tree.items, callOf i ≠ none →
      (i.key < k ↔ i.key ≤ x.key)) :
    SearchState.At tree ⟨sk.from k, call, page.added⟩ ∧
      SearchState.rank tree ⟨sk.from k, call, page.added⟩ <
        s.rank tree := by
  have hTree := congrArg SearchKey.tree_id hKey
  have hObjectid := congrArg SearchKey.max_objectid hKey
  have hType := congrArg SearchKey.max_type hKey
  have hOffset := congrArg SearchKey.max_offset hKey
  have hLowest := Key.le_iff.mp hPaged.lowest
  have hStart := hAt.first
  constructor
  · exact
      { tree_id := hTree.trans hAt.tree_id
        max_objectid := hObjectid.trans hAt.max_objectid
        max_type := hType.trans hAt.max_type
        max_offset := hOffset.trans hAt.max_offset
        first := by
          unfold SearchKey.min at hLowest
          unfold SearchKey.from
          dsimp only at hLowest ⊢
          omega
        added := hPaged.calls k hLater hNext }
  · exact rank_lt hPaged.mem hPaged.lowest hLater

/- No item with a call is between a key and the one behind it. -/
def Follows
    (tree : RootItems)
    (x : SearchItem)
    (k : Key) : Prop :=
  x.key < k ∧ x.key.objectid ≤ k.objectid ∧
    ∀ i ∈ tree.items, callOf i ≠ none →
      (i.key < k ↔ i.key ≤ x.key)

theorem follows_offset
    (tree : RootItems)
    (x : SearchItem) :
    Follows tree x
      ⟨x.key.objectid, x.key.type, x.key.offset + 1⟩ := by
  refine ⟨Key.lt_iff.mpr ?_, Nat.le_refl _, ?_⟩
  · dsimp only
    omega
  · intro i _ _
    rw [Key.lt_iff, Key.le_iff]
    dsimp only
    omega

/- The offset was the last one, and the type moves on. -/
theorem follows_type
    (tree : RootItems)
    (hLast : x.key.offset = 2 ^ 64 - 1) :
    Follows tree x ⟨x.key.objectid, x.key.type + 1, 0⟩ := by
  refine ⟨Key.lt_iff.mpr ?_, Nat.le_refl _, ?_⟩
  · dsimp only
    omega
  · intro i hi _
    have hOffset := tree.offset i hi
    rw [Key.lt_iff, Key.le_iff]
    dsimp only
    omega

/- The type was the last one too, and the objectid moves on. -/
theorem follows_objectid
    (tree : RootItems)
    (hLast : x.key.offset = 2 ^ 64 - 1)
    (hType : BTRFS_ROOT_BACKREF_KEY < x.key.type + 1) :
    Follows tree x
      ⟨x.key.objectid + 1, BTRFS_ROOT_ITEM_KEY, 0⟩ := by
  unfold BTRFS_ROOT_BACKREF_KEY at hType
  unfold BTRFS_ROOT_ITEM_KEY
  refine ⟨Key.lt_iff.mpr ?_, Nat.le_succ _, ?_⟩
  · dsimp only
    omega
  · intro i hi hCall
    have hOffset := tree.offset i hi
    have hTypes := type_of_call hCall
    rw [Key.lt_iff, Key.le_iff]
    dsimp only
    omega

/- A turn with a page goes on behind it, or all is done. -/
theorem searchTurn_page
    {n : Nat}
    {buf : List UInt8}
    (hAt : s.At tree)
    (hFound : ioctl s.call s.sk = .ok (n + 1, buf))
    (hPaged : Paged tree s x
      (pageLoop buf (n + 1) ⟨s.sk, 0, s.added⟩)) :
    (∃ s', searchTurn ioctl s = .inl s' ∧ s'.At tree ∧
      s'.rank tree < s.rank tree) ∨
    searchTurn ioctl s = .inr (0, eachOnce tree) := by
  have hType := tree.type x hPaged.mem
  have hOffset := tree.offset x hPaged.mem
  have hObjectid := hPaged.objectid
  unfold BTRFS_LAST_FREE_OBJECTID at hObjectid
  unfold searchTurn
  rw [hFound]
  dsimp only
  rw [if_neg (Nat.succ_ne_zero n)]
  generalize pageLoop buf (n + 1) ⟨s.sk, 0, s.added⟩ = page
    at hPaged ⊢
  rw [hPaged.sk]
  let sk : SearchKey := { s.sk with nr_items := 4096 }
  have hGoesOn : ∀ k, Follows tree x k →
      SearchState.At tree
          ⟨sk.from k, s.call + 1, page.added⟩ ∧
        SearchState.rank tree
            ⟨sk.from k, s.call + 1, page.added⟩ <
          s.rank tree :=
    fun k hFollows => hPaged.next hAt rfl hFollows.1
      hFollows.2.1 hFollows.2.2
  by_cases hMore : x.key.offset + 1 < 2 ^ 64
  · have hMod : (x.key.offset + 1) % 2 ^ 64 =
        x.key.offset + 1 := Nat.mod_eq_of_lt hMore
    unfold SearchKey.from
    dsimp only
    rw [hMod, if_pos (Nat.succ_ne_zero _)]
    exact .inl ⟨_, rfl, hGoesOn _ (follows_offset tree x)⟩
  have hLast : x.key.offset = 2 ^ 64 - 1 := by omega
  have hZero : (x.key.offset + 1) % 2 ^ 64 = 0 := by
    rw [hLast]
    rfl
  have hTypeMod : (x.key.type + 1) % 2 ^ 32 =
      x.key.type + 1 := Nat.mod_eq_of_lt (by omega)
  have hObjectidMod : (x.key.objectid + 1) % 2 ^ 64 =
      x.key.objectid + 1 := Nat.mod_eq_of_lt (by omega)
  unfold SearchKey.from
  dsimp only
  rw [hZero, if_neg (not_not.mpr rfl), hTypeMod, hObjectidMod]
  by_cases hEnd : BTRFS_ROOT_BACKREF_KEY < x.key.type + 1
  · rw [if_pos hEnd]
    have hFollows := follows_objectid tree hLast hEnd
    split_ifs with hOut
    · -- no subvolume has an objectid that is left
      have hCalls := hPaged.calls _ hFollows.1 hFollows.2.2
      rw [callsBefore_all] at hCalls
      · rw [hCalls]
        exact .inr rfl
      · intro i _ hCall
        have hTypes := type_of_call hCall
        rw [hAt.max_objectid] at hOut
        unfold BTRFS_LAST_FREE_OBJECTID at hOut
        apply Key.lt_iff.mpr
        dsimp only
        omega
    · exact .inl ⟨_, rfl, hGoesOn _ hFollows⟩
  · rw [if_neg hEnd]
    exact .inl ⟨_, rfl, hGoesOn _ (follows_type tree hLast)⟩

/- A search that finds nothing ends with every call made. -/
theorem searchTurn_empty
    {buf : List UInt8}
    (hAt : s.At tree)
    (hFound : ioctl s.call s.sk = .ok (0, buf))
    (hNone : tree.items.filter s.sk.has = []) :
    searchTurn ioctl s = .inr (0, eachOnce tree) := by
  unfold searchTurn
  rw [hFound]
  dsimp only
  rw [if_pos rfl, hAt.added, callsBefore_all]
  intro i hi hCall
  by_contra hNot
  have hTypes := type_of_call hCall
  have hOffset := tree.offset i hi
  have hHas : s.sk.has i = true := by
    refine hAt.has_iff.mpr ⟨not_lt.mp hNot, ?_⟩
    apply Key.le_iff.mpr
    dsimp only
    omega
  exact List.filter_eq_nil_iff.mp hNone i hi hHas

theorem SearchState.At.turn
    (hAt : s.At tree)
    (hServes : Serves ioctl tree) :
    (∃ s', searchTurn ioctl s = .inl s' ∧ s'.At tree ∧
      s'.rank tree < s.rank tree) ∨
    searchTurn ioctl s = .inr (0, eachOnce tree) := by
  rcases hAt.served hServes with
    ⟨buf, hFound, hNone⟩ | ⟨n, buf, x, hFound, hPaged⟩
  · exact .inr (searchTurn_empty hAt hFound hNone)
  · exact searchTurn_page hAt hFound hPaged

/- The first search is for every item of a subvolume. -/
theorem firstKey_at
    (tree : RootItems) :
    SearchState.At tree ⟨firstKey, 0, []⟩ where
  tree_id := rfl
  max_objectid := rfl
  max_type := rfl
  max_offset := rfl
  first := Nat.le_refl _
  added := by
    have hNone : ∀ i ∈ tree.items,
        (if decide (i.key < firstKey.min) = true then callOf i
          else none) = none := by
      intro i _
      split_ifs with hLess
      · by_contra hCall
        have hTypes := type_of_call hCall
        have hBefore := Key.lt_iff.mp (of_decide_eq_true hLess)
        unfold SearchKey.min firstKey at hBefore
        unfold BTRFS_FIRST_FREE_OBJECTID at hBefore
        unfold BTRFS_ROOT_ITEM_KEY at hBefore
        dsimp only at hBefore
        omega
      · rfl
    unfold callsBefore
    rw [List.filterMap_filter]
    exact (List.filterMap_eq_nil_iff.mpr hNone).symm

end Turn

/-
  `__list_subvol_search` returns 0 with one call of `add_root`
  for each root item and backref of a subvolume, in key order.
-/
theorem listSubvolSearch_each_once
    (ioctl : TreeSearch)
    (tree : RootItems)
    (hServes : Serves ioctl tree) :
    ∃ fuel,
      listSubvolSearch ioctl fuel = some (0, eachOnce tree) := by
  let Done (_ : SearchState) (w : Int × List AddRoot) : Prop :=
    w = (0, eachOnce tree)
  have hTurn : ∀ s s', SearchState.At tree s →
      searchTurn ioctl s = .inl s' →
        SearchState.At tree s' ∧
          SearchState.rank tree s' < SearchState.rank tree s ∧
          ∀ w, Done s' w → Done s w := by
    intro s s' hAt hTurn
    rcases hAt.turn hServes with
      ⟨next, hNext, hKept, hLess⟩ | hDone
    · rw [hTurn] at hNext
      cases hNext
      exact ⟨hKept, hLess, fun _ hIs => hIs⟩
    · rw [hTurn] at hDone
      cases hDone
  have hEnd : ∀ s w, SearchState.At tree s →
      searchTurn ioctl s = .inr w → Done s w := by
    intro s w hAt hTurn
    rcases hAt.turn hServes with ⟨next, hNext, _⟩ | hDone
    · rw [hTurn] at hNext
      cases hNext
    · rw [hTurn] at hDone
      cases hDone
      rfl
  have hEnds := Loop.ends_of_rank (SearchState.rank tree)
    hTurn hEnd (firstKey_at tree)
  rcases hEnds with ⟨fuel, w, hRun, rfl⟩
  exact ⟨fuel, hRun⟩

/- An ioctl whose pages have one item. -/
def oneByOne
    (tree : RootItems) : TreeSearch :=
  fun _ sk =>
    match tree.items.filter sk.has with
    | [] => .ok (0, [])
    | item :: _ => .ok (1, packPage [item])

theorem oneByOne_serves
    (tree : RootItems) :
    Serves (oneByOne tree) tree := by
  intro call sk _
  unfold oneByOne
  cases tree.items.filter sk.has with
  | nil => exact ⟨[], [], List.nil_prefix, fun h => h, rfl⟩
  | cons item items =>
      refine ⟨[item], [], ⟨items, rfl⟩, ?_, ?_⟩
      · intro hNil
        cases hNil
      · rw [List.append_nil]
        rfl

/- A subvolume, a key at the end of its types, and another. -/
def threeItems : RootItems where
  items :=
    [⟨7, ⟨256, 132, 0⟩, []⟩, ⟨7, ⟨256, 144, 2 ^ 64 - 1⟩, []⟩,
      ⟨8, ⟨257, 132, 9⟩, []⟩]
  ascending := by decide
  transid := by decide
  objectid := by decide
  type := by decide
  offset := by decide
  data := by decide

theorem listSubvolSearch_threeItems :
    ∃ fuel,
      listSubvolSearch (oneByOne threeItems) fuel =
        some (0, eachOnce threeItems) :=
  listSubvolSearch_each_once (oneByOne threeItems) threeItems
    (oneByOne_serves threeItems)

end SubvolSearch

end BtrfsProgs
