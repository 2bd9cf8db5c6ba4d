import BtrfsProgs.Basic
import BtrfsProgs.Key
import BtrfsProgs.Lib.LeafList
import BtrfsProgs.Lib.Loop

/-
  `block_group_remove_all_extent_items`, from
  `chunk-recover.c`.

  The size of an extent that is removed is added to the bytes
  used.

  Main declarations:
    * `ExtentRoot` and `ExtentTree`
    * `scanLoop` and `removeTurn`
    * `blockGroupRemoveAllExtentItems`
    * `Exact`
    * `blockGroupRemoveAllExtentItems_exact_iff`
-/

----------
-- Extent Trees
----------

namespace BtrfsProgs

namespace RemoveExtents

open LeafList

def BTRFS_EXTENT_ITEM_KEY : Nat := 168

def BTRFS_METADATA_ITEM_KEY : Nat := 169

def BTRFS_BLOCK_GROUP_ITEM_KEY : Nat := 192

/- An item of the extent tree. -/
structure ExtentItem where
  key : Key
  data : List UInt8
deriving Repr, DecidableEq

/-
  The extent root, with what `btrfs_del_items` makes of the
  leaves around a leaf that it took items from, and the errors
  of the operations on the tree.
-/
structure ExtentRoot where
  leafsize : Nat
  sectorsize : Nat
  balance :
    List (List ExtentItem) → List ExtentItem →
      List (List ExtentItem) → List (List ExtentItem)
  searchError : List (List ExtentItem) → Key → Option Int
  nextError : List (List ExtentItem) → Key → Option Int
  delError : List (List ExtentItem) → Key → Option Int
  sectorsize_pos : 0 < sectorsize
  balance_flatten :
    ∀ front leaf leaves,
      (balance front leaf leaves).flatten =
        front.flatten ++ leaf ++ leaves.flatten
  balance_nonempty :
    ∀ front leaf leaves,
      ∀ l ∈ balance front leaf leaves, l ≠ []
  negative :
    ∀ leaves key ret,
      searchError leaves key = some ret ∨
          nextError leaves key = some ret ∨
          delError leaves key = some ret →
        ret < 0

/-
  The leaves of an extent tree.  The types are those of extent
  items, of references and of block groups.
-/
structure ExtentTree
    (sectorsize : Nat) where
  leaves : List (List ExtentItem)
  nonempty : ∀ leaf ∈ leaves, leaf ≠ []
  ascending : Ascending ExtentItem.key leaves.flatten
  aligned : ∀ item ∈ leaves.flatten,
    sectorsize ∣ item.key.objectid
  types : ∀ item ∈ leaves.flatten,
    BTRFS_EXTENT_ITEM_KEY ≤ item.key.type ∧
      item.key.type ≤ BTRFS_BLOCK_GROUP_ITEM_KEY

/- `struct block_group_record`, below the end of the space. -/
structure BlockGroupRecord
    (sectorsize : Nat) where
  objectid : Nat
  offset : Nat
  fits : objectid + offset + sectorsize ≤ 2 ^ 64

----------
-- The Removal
----------

/- The variables of the loop over the items of a leaf. -/
structure Scan where
  key : Key
  del_s : Option Nat
  del_nr : Nat
  bytes_used : Nat
deriving Repr, DecidableEq

/- What an extent that is removed adds to `old_val`. -/
def extentSize
    (leafsize : Nat)
    (key : Key) : Nat :=
  if key.type = BTRFS_METADATA_ITEM_KEY then leafsize
  else if key.type = BTRFS_EXTENT_ITEM_KEY then key.offset
  else 0

/- The loop over the items of a leaf from slot `i` on. -/
def scanLoop
    (leafsize ending : Nat) :
    List ExtentItem → Nat → Scan → Scan
  | [], _, s => s
  | item :: items, i, s =>
      let s := { s with key := item.key }
      if item.key.objectid ≥ ending then s
      else if item.key.type = BTRFS_BLOCK_GROUP_ITEM_KEY then
        if s.del_nr = 0 then
          scanLoop leafsize ending items (i + 1) s
        else s
      else
        scanLoop leafsize ending items (i + 1)
          { s with
            del_s := some (s.del_s.getD i)
            del_nr := s.del_nr + 1
            bytes_used :=
              (s.bytes_used + extentSize leafsize item.key) %
                2 ^ 64 }

/- What the jump to `again` keeps. -/
structure RemoveState where
  leaves : List (List ExtentItem)
  key : Key
  bytes_used : Nat
deriving Repr, DecidableEq

/- The end of a turn: the key of the next search, if any. -/
def goAgain
    (sectorsize ending : Nat)
    (s : RemoveState) : RemoveState ⊕ Int × RemoveState :=
  if s.key.objectid < ending then
    if s.key.type = BTRFS_BLOCK_GROUP_ITEM_KEY then
      .inl
        { s with
          key :=
            { objectid :=
                (s.key.objectid + sectorsize) % 2 ^ 64
              type := BTRFS_EXTENT_ITEM_KEY
              offset := 0 } }
    else .inl s
  else .inr (0, s)

/- The code from `again` on. -/
def removeTurn
    (root : ExtentRoot)
    (ending : Nat)
    (s : RemoveState) : RemoveState ⊕ Int × RemoveState :=
  match root.searchError s.leaves s.key with
  | some ret => .inr (ret, s)
  | none =>
      let slot := searchSlot ExtentItem.key s.key s.leaves
      let leaf := slot.passed ++ slot.items
      if leaf.length = 0 then .inr (0, s)
      else if slot.passed.length ≥ leaf.length then
        match root.nextError s.leaves s.key with
        | some ret => .inr (ret, s)
        | none =>
            -- the first item of the next leaf
            match slot.leaves.flatten with
            | [] => .inr (0, s)
            | item :: _ =>
                let s := { s with key := item.key }
                if s.key.objectid ≥ ending then .inr (0, s)
                else .inl s
      else
        let scan := scanLoop root.leafsize ending slot.items
          slot.passed.length ⟨s.key, none, 0, s.bytes_used⟩
        let del_s := scan.del_s.getD 0
        if scan.del_nr ≠ 0 then
          match root.delError s.leaves s.key with
          | some ret =>
              .inr (ret, ⟨s.leaves, scan.key, scan.bytes_used⟩)
          | none =>
              goAgain root.sectorsize ending
                { leaves :=
                    root.balance slot.front
                      (leaf.take del_s ++
                        leaf.drop (del_s + scan.del_nr))
                      slot.leaves
                  key := scan.key
                  bytes_used := scan.bytes_used }
        else
          goAgain root.sectorsize ending
            ⟨s.leaves, scan.key, scan.bytes_used⟩

def blockGroupRemoveAllExtentItems
    (root : ExtentRoot)
    (bg : BlockGroupRecord root.sectorsize)
    (leaves : List (List ExtentItem))
    (bytes_used fuel : Nat) : Option (Int × RemoveState) :=
  Loop.run
    (removeTurn root ((bg.objectid + bg.offset) % 2 ^ 64)) fuel
    ⟨leaves, ⟨bg.objectid, BTRFS_EXTENT_ITEM_KEY, 0⟩,
      bytes_used⟩

----------
-- What Is To Be Removed
----------

/- The item is to be removed with a range. -/
def inRange
    (start ending : Nat)
    (item : ExtentItem) : Bool :=
  start ≤ item.key.objectid ∧ item.key.objectid < ending ∧
    item.key.type ≠ BTRFS_BLOCK_GROUP_ITEM_KEY

def inGroup
    {sectorsize : Nat}
    (bg : BlockGroupRecord sectorsize) : ExtentItem → Bool :=
  inRange bg.objectid (bg.objectid + bg.offset)

/- The size of the extents of some items. -/
def totalSize
    (leafsize : Nat)
    (items : List ExtentItem) : Nat :=
  (items.map fun item => extentSize leafsize item.key).sum

/- The items are removed, and the bytes used are less by them. -/
def Exact
    (root : ExtentRoot)
    (bg : BlockGroupRecord root.sectorsize)
    (leaves : List (List ExtentItem))
    (bytes_used : Nat)
    (out : RemoveState) : Prop :=
  out.leaves.flatten =
      leaves.flatten.filter (fun item => !inGroup bg item) ∧
    out.bytes_used =
      u64Sub bytes_used
        (totalSize root.leafsize
          (leaves.flatten.filter (inGroup bg)) % 2 ^ 64)

----------
-- The Items of a Leaf
----------

section Scans

variable {leafsize ending i : Nat}
variable {items : List ExtentItem}
variable {s : Scan}

theorem totalSize_cons
    (item : ExtentItem)
    (items : List ExtentItem) :
    totalSize leafsize (item :: items) =
      extentSize leafsize item.key + totalSize leafsize items :=
  List.sum_cons

theorem totalSize_append
    (front items : List ExtentItem) :
    totalSize leafsize (front ++ items) =
      totalSize leafsize front + totalSize leafsize items := by
  unfold totalSize
  rw [List.map_append, List.sum_append]

/-
  What the loop over the items of a leaf finds: block groups,
  then a run of items to delete, and where it stops.
-/
structure Scanned
    (leafsize ending i : Nat)
    (items : List ExtentItem)
    (s t : Scan)
    (groups run rest : List ExtentItem) : Prop where
  split : items = groups ++ run ++ rest
  of_groups : ∀ item ∈ groups, item.key.objectid < ending ∧
    item.key.type = BTRFS_BLOCK_GROUP_ITEM_KEY
  of_run : ∀ item ∈ run, item.key.objectid < ending ∧
    item.key.type ≠ BTRFS_BLOCK_GROUP_ITEM_KEY
  first : s.del_nr ≠ 0 → groups = []
  stop : ∀ item ∈ rest.head?, ending ≤ item.key.objectid ∨
    item.key.type = BTRFS_BLOCK_GROUP_ITEM_KEY ∧
      (run ≠ [] ∨ s.del_nr ≠ 0)
  key : t.key =
    ((groups ++ run ++ rest.take 1).getLast?.map
      ExtentItem.key).getD s.key
  del_nr : t.del_nr = s.del_nr + run.length
  del_s : run ≠ [] →
    t.del_s = some (s.del_s.getD (i + groups.length))
  same : run = [] → t.del_s = s.del_s
  bytes_used : t.bytes_used =
    (s.bytes_used + totalSize leafsize run) % 2 ^ 64

theorem scanLoop_spec
    (hBytes : s.bytes_used < 2 ^ 64) :
    ∃ groups run rest,
      Scanned leafsize ending i items s
        (scanLoop leafsize ending items i s) groups run rest := by
  have hSame : s.bytes_used =
      (s.bytes_used + totalSize leafsize []) % 2 ^ 64 :=
    (Nat.mod_eq_of_lt hBytes).symm
  induction items generalizing i s with
  | nil =>
      exact ⟨[], [], [],
        { split := rfl
          of_groups := List.forall_mem_nil _
          of_run := List.forall_mem_nil _
          first := fun _ => rfl
          stop := fun _ hIn => by cases hIn
          key := rfl
          del_nr := rfl
          del_s := fun hNot => absurd rfl hNot
          same := fun _ => rfl
          bytes_used := hSame }⟩
  | cons item items ih =>
      have hStop
          (hHere : ending ≤ item.key.objectid ∨
            item.key.type = BTRFS_BLOCK_GROUP_ITEM_KEY ∧
              s.del_nr ≠ 0) :
          Scanned leafsize ending i (item :: items) s
            { s with key := item.key } [] [] (item :: items) :=
        { split := rfl
          of_groups := List.forall_mem_nil _
          of_run := List.forall_mem_nil _
          first := fun _ => rfl
          stop := fun other hIn => by
            cases hIn
            rcases hHere with hEnd | hGroup
            · exact .inl hEnd
            · exact .inr ⟨hGroup.1, .inr hGroup.2⟩
          key := rfl
          del_nr := rfl
          del_s := fun hNot => absurd rfl hNot
          same := fun _ => rfl
          bytes_used := hSame }
      unfold scanLoop
      dsimp only
      by_cases hEnd : item.key.objectid ≥ ending
      · rw [if_pos hEnd]
        exact ⟨[], [], item :: items, hStop (.inl hEnd)⟩
      · rw [if_neg hEnd]
        have hLess := not_le.mp hEnd
        by_cases hGroup :
            item.key.type = BTRFS_BLOCK_GROUP_ITEM_KEY
        · rw [if_pos hGroup]
          by_cases hFirst : s.del_nr = 0
          · rw [if_pos hFirst]
            rcases ih (i := i + 1)
                (s := { s with key := item.key }) hBytes hSame
              with ⟨groups, run, rest, hRest⟩
            refine ⟨item :: groups, run, rest,
              { split := congrArg (item :: ·) hRest.split
                of_groups := ?_
                of_run := hRest.of_run
                first := fun hNot => absurd hFirst hNot
                stop := hRest.stop
                key := ?_
                del_nr := hRest.del_nr
                del_s := ?_
                same := hRest.same
                bytes_used := hRest.bytes_used }⟩
            · exact List.forall_mem_cons.mpr
                ⟨⟨hLess, hGroup⟩, hRest.of_groups⟩
            · rw [hRest.key, List.cons_append, List.cons_append,
                List.getLast?_cons, Option.map_some,
                Option.getD_some]
              cases (groups ++ run ++ rest.take 1).getLast? with
              | none
              | some last => rfl
            · intro hSome
              rw [hRest.del_s hSome, List.length_cons,
                Nat.add_assoc, Nat.add_comm 1]
          · rw [if_neg hFirst]
            exact ⟨[], [], item :: items,
              hStop (.inr ⟨hGroup, hFirst⟩)⟩
        · rw [if_neg hGroup]
          let s' : Scan :=
            { key := item.key
              del_s := some (s.del_s.getD i)
              del_nr := s.del_nr + 1
              bytes_used :=
                (s.bytes_used + extentSize leafsize item.key) %
                  2 ^ 64 }
          have hBytes' : s'.bytes_used < 2 ^ 64 :=
            Nat.mod_lt _ (by decide)
          rcases ih (i := i + 1) (s := s') hBytes'
              (Nat.mod_eq_of_lt hBytes').symm with
            ⟨groups, run, rest, hRest⟩
          -- behind an item to delete no block group is skipped
          have hNone := hRest.first (Nat.succ_ne_zero _)
          subst hNone
          refine ⟨[], item :: run, rest,
            { split := congrArg (item :: ·) hRest.split
              of_groups := List.forall_mem_nil _
              of_run := ?_
              first := fun _ => rfl
              stop := ?_
              key := ?_
              del_nr := ?_
              del_s := ?_
              same := fun hNil => by cases hNil
              bytes_used := ?_ }⟩
          · exact List.forall_mem_cons.mpr
              ⟨⟨hLess, hGroup⟩, hRest.of_run⟩
          · intro other hOther
            rcases hRest.stop other hOther with hOut | hIs
            · exact .inl hOut
            · exact .inr ⟨hIs.1, .inl (List.cons_ne_nil _ _)⟩
          · rw [hRest.key, List.nil_append, List.nil_append,
              List.cons_append, List.getLast?_cons,
              Option.map_some, Option.getD_some]
            cases (run ++ rest.take 1).getLast? with
            | none => rfl
            | some last => rfl
          · rw [hRest.del_nr, List.length_cons]
            dsimp only [s']
            omega
          · intro _
            by_cases hNil : run = []
            · exact hRest.same hNil
            · exact hRest.del_s hNil
          · rw [hRest.bytes_used, totalSize_cons, ← Nat.add_assoc]
            exact Nat.mod_add_mod _ _ _

/- The loop ends with the key of the item it looks at last. -/
theorem Scanned.stops
    {later groups run rest : List ExtentItem}
    {t : Scan}
    (hScanned :
      Scanned leafsize ending i items s t groups run rest)
    (hSome : items ≠ [])
    (hAscending : Ascending ExtentItem.key (items ++ later)) :
    ∃ item ∈ items, t.key = item.key ∧
      (item ∈ groups ++ run ∧ rest = [] ∨
        rest.head? = some item) ∧
      (∀ other ∈ groups ++ run, other.key ≤ item.key) ∧
      ∀ other ∈ rest ++ later, item.key ≤ other.key := by
  have hKey := hScanned.key
  have hSplit := hScanned.split
  rw [hSplit, List.append_assoc] at hAscending
  rcases List.pairwise_append.mp hAscending with
    ⟨hFront, hBack, hAcross⟩
  cases rest with
  | cons item rest =>
      refine ⟨item, ?_, ?_, .inr rfl, ?_, ?_⟩
      · rw [hSplit]
        exact List.mem_append_right _ List.mem_cons_self
      · rw [hKey, List.take_succ_cons, List.take_zero,
          List.getLast?_append_cons]
        rfl
      · intro other hOther
        exact (hAcross other hOther item
          List.mem_cons_self).le
      · intro other hOther
        rcases List.mem_cons.mp hOther with rfl | hLater
        · exact le_rfl
        · exact (List.rel_of_pairwise_cons hBack hLater).le
  | nil =>
      rw [List.append_nil] at hSplit
      rw [List.take_nil, List.append_nil, ← hSplit] at hKey
      refine ⟨items.getLast hSome, List.getLast_mem hSome, ?_,
        .inl ⟨?_, rfl⟩, ?_, ?_⟩
      · rw [hKey, List.getLast?_eq_some_getLast hSome]
        rfl
      · rw [← hSplit]
        exact List.getLast_mem hSome
      · rw [← hSplit] at hFront ⊢
        intro other hOther
        have hLast := List.dropLast_append_getLast hSome
        rw [← hLast] at hFront hOther
        rcases List.mem_append.mp hOther with hIn | hIs
        · exact ((List.pairwise_append.mp hFront).2.2 other hIn
            _ List.mem_cons_self).le
        · rw [List.mem_singleton.mp hIs]
      · intro other hOther
        rw [← hSplit] at hAcross
        exact (hAcross _ (List.getLast_mem hSome) other
          hOther).le

end Scans

----------
-- What Is Removed So Far
----------

section Removals

variable {root : ExtentRoot}
variable {start ending bytes_used : Nat}
variable {front rest items later groups run tail :
  List ExtentItem}
variable {key : Key}
variable {s : RemoveState}

/- The items of a part are removed, those behind are not. -/
structure Removing
    (root : ExtentRoot)
    (start ending bytes_used : Nat)
    (front rest : List ExtentItem)
    (s : RemoveState) : Prop where
  flatten : s.leaves.flatten =
    front.filter (fun item => !inRange start ending item) ++
      rest
  nonempty : ∀ leaf ∈ s.leaves, leaf ≠ []
  used : s.bytes_used =
    (bytes_used + totalSize root.leafsize
      (front.filter (inRange start ending))) % 2 ^ 64

/- The key of the next search is between the two. -/
structure Between
    (start ending : Nat)
    (front rest : List ExtentItem)
    (key : Key) : Prop where
  from_start : start ≤ key.objectid
  below : ∀ item ∈ front, inRange start ending item = false →
    item.key < key
  above : ∀ item ∈ rest, key ≤ item.key

theorem Removing.pass
    (hRemoving : Removing root start ending bytes_used front
      (items ++ rest) s)
    (hOut : ∀ item ∈ items,
      inRange start ending item = false) :
    Removing root start ending bytes_used (front ++ items)
      rest s where
  flatten := by
    have hAll : items.filter
        (fun item => !inRange start ending item) = items :=
      List.filter_eq_self.mpr fun item hItem => by
        rw [hOut item hItem]
        rfl
    rw [hRemoving.flatten, List.filter_append, hAll,
      List.append_assoc]
  nonempty := hRemoving.nonempty
  used := by
    have hNone : items.filter (inRange start ending) = [] :=
      List.filter_eq_nil_iff.mpr fun item hItem => by
        rw [hOut item hItem]
        exact Bool.false_ne_true
    rw [hRemoving.used, List.filter_append, hNone,
      List.append_nil]

/- A run of items is deleted, and its size counted. -/
theorem Removing.delete
    {leaves : List (List ExtentItem)}
    {key : Key}
    {used : Nat}
    (hRemoving : Removing root start ending bytes_used front
      (run ++ rest) s)
    (hIn : ∀ item ∈ run, inRange start ending item = true)
    (hLeaves : leaves.flatten =
      front.filter (fun item => !inRange start ending item) ++
        rest)
    (hNonempty : ∀ leaf ∈ leaves, leaf ≠ [])
    (hUsed : used =
      (s.bytes_used + totalSize root.leafsize run) % 2 ^ 64) :
    Removing root start ending bytes_used (front ++ run) rest
      ⟨leaves, key, used⟩ where
  flatten := by
    have hNone : run.filter
        (fun item => !inRange start ending item) = [] :=
      List.filter_eq_nil_iff.mpr fun item hItem => by
        rw [hIn item hItem]
        exact Bool.false_ne_true
    rw [List.filter_append, hNone, List.append_nil]
    exact hLeaves
  nonempty := hNonempty
  used := by
    have hAll : run.filter (inRange start ending) = run :=
      List.filter_eq_self.mpr hIn
    rw [List.filter_append, hAll, totalSize_append]
    dsimp only
    rw [hUsed, hRemoving.used, Nat.mod_add_mod, Nat.add_assoc]

variable {item : ExtentItem}

theorem inRange_group
    (hGroup : item.key.type = BTRFS_BLOCK_GROUP_ITEM_KEY) :
    inRange start ending item = false :=
  decide_eq_false fun hIn => hIn.2.2 hGroup

theorem inRange_behind
    (hBehind : ending ≤ item.key.objectid) :
    inRange start ending item = false :=
  decide_eq_false fun hIn => absurd hIn.2.1 (not_lt.mpr hBehind)

/- The next search of a turn. -/
theorem goAgain_cases
    {sectorsize : Nat}
    (hFits : ending + sectorsize ≤ 2 ^ 64) :
    (ending ≤ s.key.objectid ∧
        goAgain sectorsize ending s = .inr (0, s)) ∨
      (s.key.objectid < ending ∧
        s.key.type ≠ BTRFS_BLOCK_GROUP_ITEM_KEY ∧
        goAgain sectorsize ending s = .inl s) ∨
      (s.key.objectid < ending ∧
        s.key.type = BTRFS_BLOCK_GROUP_ITEM_KEY ∧
        goAgain sectorsize ending s =
          .inl { s with
            key := ⟨s.key.objectid + sectorsize,
              BTRFS_EXTENT_ITEM_KEY, 0⟩ }) := by
  unfold goAgain
  by_cases hLess : s.key.objectid < ending
  · rw [if_pos hLess]
    by_cases hGroup : s.key.type = BTRFS_BLOCK_GROUP_ITEM_KEY
    · rw [if_pos hGroup, Nat.mod_eq_of_lt (by omega)]
      exact .inr (.inr ⟨hLess, hGroup, rfl⟩)
    · rw [if_neg hGroup]
      exact .inr (.inl ⟨hLess, hGroup, rfl⟩)
  · rw [if_neg hLess]
    exact .inl ⟨not_lt.mp hLess, rfl⟩

/- The removal is through with the range. -/
def Finished
    (root : ExtentRoot)
    (start ending bytes_used : Nat)
    (tree : List ExtentItem)
    (s : RemoveState) : Prop :=
  ∃ front rest, tree = front ++ rest ∧
    Removing root start ending bytes_used front rest s ∧
    ∀ item ∈ rest, inRange start ending item = false

/- The removal goes on, with fewer items than before ahead. -/
def Proceeds
    (root : ExtentRoot)
    (start ending bytes_used : Nat)
    (tree : List ExtentItem)
    (ahead : Nat)
    (s : RemoveState) : Prop :=
  ∃ front rest, tree = front ++ rest ∧
    Removing root start ending bytes_used front rest s ∧
    Between start ending front rest s.key ∧
    rest.length < ahead

/- The end of a turn, with some items ahead before it. -/
def Goes
    (root : ExtentRoot)
    (start ending bytes_used : Nat)
    (tree : List ExtentItem)
    (ahead : Nat) : RemoveState ⊕ Int × RemoveState → Prop
  | .inl s =>
      Proceeds root start ending bytes_used tree ahead s
  | .inr w =>
      w.1 = 0 →
        Finished root start ending bytes_used tree w.2

/- The items below the next sector are block groups. -/
theorem group_of_below
    {sectorsize : Nat}
    {a b : ExtentItem}
    (tree : ExtentTree sectorsize)
    (ha : a ∈ tree.leaves.flatten)
    (hb : b ∈ tree.leaves.flatten)
    (hGroup : a.key.type = BTRFS_BLOCK_GROUP_ITEM_KEY)
    (hLe : a.key ≤ b.key)
    (hBelow : b.key <
      ⟨a.key.objectid + sectorsize, BTRFS_EXTENT_ITEM_KEY, 0⟩) :
    b.key.type = BTRFS_BLOCK_GROUP_ITEM_KEY := by
  have hTypes := tree.types b hb
  have hLe' := Key.le_iff.mp hLe
  have hBelow' := Key.lt_iff.mp hBelow
  dsimp only at hBelow'
  have hSame : b.key.objectid = a.key.objectid := by
    by_contra hNot
    have hLess : a.key.objectid < b.key.objectid := by omega
    have hFar : sectorsize ≤ b.key.objectid - a.key.objectid :=
      Nat.le_of_dvd (by omega)
        (Nat.dvd_sub (tree.aligned b hb) (tree.aligned a ha))
    omega
  omega

variable {ahead : Nat}

/-
  With the items up to the last one removed, the turn ends the
  removal or goes on behind.
-/
theorem Removing.goes
    (tree : ExtentTree root.sectorsize)
    (hFits : ending + root.sectorsize ≤ 2 ^ 64)
    (hTree : tree.leaves.flatten = front ++ rest)
    (hRemoving :
      Removing root start ending bytes_used front rest s)
    (hItem : item ∈ tree.leaves.flatten)
    (hKey : s.key = item.key)
    (hStart : start ≤ item.key.objectid)
    (hFront : ∀ other ∈ front,
      inRange start ending other = false →
        other.key ≤ item.key)
    (hRest : ∀ other ∈ rest, item.key ≤ other.key)
    (hAhead : rest.length < ahead ∨
      rest.length ≤ ahead ∧ rest.head? = some item ∧
        (ending ≤ item.key.objectid ∨
          item.key.type = BTRFS_BLOCK_GROUP_ITEM_KEY)) :
    Goes root start ending bytes_used tree.leaves.flatten ahead
      (goAgain root.sectorsize ending s) := by
  rcases goAgain_cases hFits with
    ⟨hEnd, hGo⟩ | ⟨hLess, hType, hGo⟩ | ⟨hLess, hType, hGo⟩
  · rw [hGo]
    refine fun _ => ⟨front, rest, hTree, hRemoving, ?_⟩
    intro other hOther
    have hLe := Key.le_iff.mp (hRest other hOther)
    rw [hKey] at hEnd
    exact inRange_behind (by omega)
  · -- the last item was deleted, and is the next key
    rw [hKey] at hLess hType
    have hIn : inRange start ending item = true :=
      decide_eq_true ⟨hStart, hLess, hType⟩
    rw [hGo]
    refine ⟨front, rest, hTree, hRemoving, ?_, ?_⟩
    · rw [hKey]
      refine
        { from_start := hStart
          below := fun other hOther hOut => ?_
          above := hRest }
      refine lt_of_le_of_ne (hFront other hOther hOut) ?_
      intro hSame
      have hBoth : other ∈ tree.leaves.flatten := by
        rw [hTree]
        exact List.mem_append_left _ hOther
      have hEq := tree.ascending.inj hBoth hItem hSame
      rw [hEq, hIn] at hOut
      cases hOut
    · rcases hAhead with hFewer | ⟨_, _, hEnd | hGroup⟩
      · exact hFewer
      · omega
      · exact absurd hGroup hType
  · rw [hKey] at hLess hType hGo
    let next : Key := ⟨item.key.objectid + root.sectorsize,
      BTRFS_EXTENT_ITEM_KEY, 0⟩
    have hNext : item.key < next := by
      have hPos := root.sectorsize_pos
      exact Key.lt_iff.mpr (.inl (by
        unfold next
        dsimp only
        omega))
    let below := rest.takeWhile fun other => other.key < next
    let behind := rest.dropWhile fun other => other.key < next
    have hParts : below ++ behind = rest :=
      List.takeWhile_append_dropWhile
    have hMem : ∀ other ∈ rest,
        other ∈ tree.leaves.flatten := by
      intro other hOther
      rw [hTree]
      exact List.mem_append_right _ hOther
    have hBelow : ∀ other ∈ below, other ∈ rest ∧
        other.key < next := by
      intro other hOther
      refine ⟨?_, by simpa using List.mem_takeWhile_imp hOther⟩
      rw [← hParts]
      exact List.mem_append_left _ hOther
    have hGroups : ∀ other ∈ below,
        inRange start ending other = false := by
      intro other hOther
      rcases hBelow other hOther with ⟨hIn, hUnder⟩
      exact inRange_group (group_of_below tree hItem
        (hMem other hIn) hType (hRest other hIn) hUnder)
    have hSorted : Ascending ExtentItem.key rest := by
      have hAll := tree.ascending
      rw [hTree] at hAll
      exact (List.pairwise_append.mp hAll).2.1
    have hPass : Removing root start ending bytes_used
        (front ++ below) behind { s with key := next } := by
      rw [← hParts] at hRemoving
      have hOver := hRemoving.pass hGroups
      exact ⟨hOver.flatten, hOver.nonempty, hOver.used⟩
    rw [hGo]
    refine ⟨front ++ below, behind, ?_, hPass, ?_, ?_⟩
    · rw [hTree, ← hParts, List.append_assoc]
    · exact
        { from_start := hStart.trans (Nat.le_add_right _ _)
          below := fun other hOther hOut => by
            rcases List.mem_append.mp hOther with hOld | hNew
            · exact (hFront other hOld hOut).trans_lt hNext
            · exact (hBelow other hNew).2
          above := fun other hOther =>
            ((mem_dropWhile_iff hSorted).mp hOther).2 }
    · have hLength := congrArg List.length hParts
      rw [List.length_append] at hLength
      rcases hAhead with hFewer | ⟨hLe, hHead, _⟩
      · omega
      · have hFirst : below ≠ [] := by
          cases rest with
          | nil => cases hHead
          | cons first rest =>
              cases hHead
              unfold below
              rw [List.takeWhile_cons_of_pos (by
                simpa using hNext)]
              exact List.cons_ne_nil _ _
        have hPos := List.length_pos_iff.mpr hFirst
        omega

/- Where the removal is when it comes to `again`. -/
def Underway
    (root : ExtentRoot)
    (start ending bytes_used : Nat)
    (tree : List ExtentItem)
    (s : RemoveState) : Prop :=
  ∃ front rest, tree = front ++ rest ∧
    Removing root start ending bytes_used front rest s ∧
    Between start ending front rest s.key

/- The items ahead, and whether the search is behind a leaf. -/
def rank
    (s : RemoveState) : Nat :=
  let slot := searchSlot ExtentItem.key s.key s.leaves
  2 * (slot.items ++ slot.leaves.flatten).length +
    if slot.items = [] then 1 else 0

/- The place of a search of the removal. -/
structure Found
    (start ending : Nat)
    (front rest : List ExtentItem)
    (slot : Slot ExtentItem) : Prop where
  before : slot.front.flatten ++ slot.passed =
    front.filter fun item => !inRange start ending item
  ahead : slot.items ++ slot.leaves.flatten = rest

theorem Removing.ascending
    (tree : ExtentTree root.sectorsize)
    (hTree : tree.leaves.flatten = front ++ rest)
    (hRemoving :
      Removing root start ending bytes_used front rest s) :
    Ascending ExtentItem.key s.leaves.flatten := by
  have hSorted := tree.ascending
  rw [hTree] at hSorted
  rw [hRemoving.flatten]
  exact hSorted.sublist
    (List.filter_sublist.append (List.Sublist.refl rest))

theorem Removing.found
    (tree : ExtentTree root.sectorsize)
    (hTree : tree.leaves.flatten = front ++ rest)
    (hRemoving :
      Removing root start ending bytes_used front rest s)
    (hBetween : Between start ending front rest s.key) :
    Found start ending front rest
      (searchSlot ExtentItem.key s.key s.leaves) := by
  have hParts := searchSlot_parts hRemoving.nonempty
    (hRemoving.ascending tree hTree) hRemoving.flatten
    (fun item hItem => by
      rcases List.mem_filter.mp hItem with ⟨hIn, hOut⟩
      exact hBetween.below item hIn (by simpa using hOut))
    hBetween.above
  exact ⟨hParts.1, hParts.2⟩

theorem Proceeds.rank
    (tree : ExtentTree root.sectorsize)
    (hProceeds :
      Proceeds root start ending bytes_used
        tree.leaves.flatten ahead s) :
    Underway root start ending bytes_used
        tree.leaves.flatten s ∧
      rank s < 2 * ahead := by
  rcases hProceeds with
    ⟨front, rest, hTree, hRemoving, hBetween, hLess⟩
  have hFound := hRemoving.found tree hTree hBetween
  refine ⟨⟨front, rest, hTree, hRemoving, hBetween⟩, ?_⟩
  unfold RemoveExtents.rank
  dsimp only
  rw [hFound.ahead]
  split_ifs <;> omega

/- What the run of a leaf is once it is deleted from it. -/
theorem Scanned.deleted
    {passed : List ExtentItem}
    {used : Nat}
    {t : Scan}
    (hScanned :
      Scanned root.leafsize ending passed.length items
        ⟨key, none, 0, used⟩ t groups run tail)
    (hRun : run ≠ []) :
    (passed ++ items).take (t.del_s.getD 0) ++
        (passed ++ items).drop (t.del_s.getD 0 + t.del_nr) =
      passed ++ (groups ++ tail) := by
  have hStart : t.del_s.getD 0 = (passed ++ groups).length := by
    rw [hScanned.del_s hRun, Option.getD_some, Option.getD_none,
      List.length_append]
  have hCount : t.del_s.getD 0 + t.del_nr =
      (passed ++ groups ++ run).length := by
    rw [hStart, hScanned.del_nr, Nat.zero_add,
      ← List.length_append]
  have hItems : passed ++ items =
      passed ++ groups ++ run ++ tail := by
    rw [hScanned.split]
    simp only [List.append_assoc]
  rw [hCount, hItems, List.drop_left, hStart,
    List.append_assoc (passed ++ groups), List.take_left,
    List.append_assoc]

/- The turn at a leaf with items ahead. -/
theorem Removing.scan
    {i : Nat}
    {t : Scan}
    (leaves : List (List ExtentItem))
    (tree : ExtentTree root.sectorsize)
    (hFits : ending + root.sectorsize ≤ 2 ^ 64)
    (hTree : tree.leaves.flatten = front ++ (items ++ later))
    (hRemoving : Removing root start ending bytes_used front
      (items ++ later) s)
    (hBetween : Between start ending front (items ++ later)
      s.key)
    (hSome : items ≠ [])
    (hScanned :
      Scanned root.leafsize ending i items
        ⟨s.key, none, 0, s.bytes_used⟩ t groups run tail)
    (hLeaves : leaves.flatten =
      front.filter (fun item => !inRange start ending item) ++
        (groups ++ (tail ++ later)))
    (hNonempty : ∀ leaf ∈ leaves, leaf ≠ []) :
    Goes root start ending bytes_used tree.leaves.flatten
      (items ++ later).length
      (goAgain root.sectorsize ending
        ⟨leaves, t.key, t.bytes_used⟩) := by
  have hSorted : Ascending ExtentItem.key (items ++ later) := by
    have hAll := tree.ascending
    rw [hTree] at hAll
    exact (List.pairwise_append.mp hAll).2.1
  rcases hScanned.stops hSome hSorted with
    ⟨item, hItem, hKey, hAmong, hGreatest, hLeast⟩
  have hAhead := List.mem_append_left later hItem
  have hFrom : s.key ≤ item.key := hBetween.above item hAhead
  have hStart : start ≤ item.key.objectid := by
    have hLow := hBetween.from_start
    have hLe := Key.le_iff.mp hFrom
    omega
  have hGroups : ∀ other ∈ groups,
      inRange start ending other = false :=
    fun other hOther =>
      inRange_group (hScanned.of_groups other hOther).2
  have hRun : ∀ other ∈ run,
      inRange start ending other = true := by
    intro other hOther
    have hHere := hScanned.of_run other hOther
    have hIn : other ∈ items ++ later := by
      rw [hScanned.split]
      simp [hOther]
    have hLow := hBetween.from_start
    have hLe := Key.le_iff.mp (hBetween.above other hIn)
    exact decide_eq_true ⟨by omega, hHere⟩
  have hSplit : items ++ later =
      groups ++ (run ++ (tail ++ later)) := by
    rw [hScanned.split]
    simp only [List.append_assoc]
  have hTree' : tree.leaves.flatten =
      front ++ groups ++ run ++ (tail ++ later) := by
    rw [hTree, hSplit]
    simp only [List.append_assoc]
  have hMem : item ∈ tree.leaves.flatten := by
    rw [hTree]
    exact List.mem_append_right _ hAhead
  have hOver : Removing root start ending bytes_used
      (front ++ groups ++ run) (tail ++ later)
      ⟨leaves, t.key, t.bytes_used⟩ := by
    rw [hSplit] at hRemoving
    have hAll : groups.filter
        (fun item => !inRange start ending item) = groups :=
      List.filter_eq_self.mpr fun other hOther => by
        rw [hGroups other hOther]
        rfl
    refine (hRemoving.pass hGroups).delete hRun ?_ hNonempty
      hScanned.bytes_used
    rw [hLeaves, List.filter_append, hAll, List.append_assoc]
  refine hOver.goes tree hFits hTree' hMem hKey hStart ?_ hLeast
    ?_
  · intro other hOther hOut
    rcases List.mem_append.mp hOther with hEarly | hNow
    · rcases List.mem_append.mp hEarly with hOld | hGroup
      · exact (hBetween.below other hOld hOut).le.trans hFrom
      · exact hGreatest other (List.mem_append_left _ hGroup)
    · exact hGreatest other (List.mem_append_right _ hNow)
  · have hLength : (items ++ later).length =
        groups.length + (run.length + (tail ++ later).length) := by
      rw [hSplit, List.length_append, List.length_append]
    by_cases hFewer :
        (tail ++ later).length < (items ++ later).length
    · exact .inl hFewer
    · -- the loop stopped at its first item
      have hNoGroups : groups = [] :=
        List.length_eq_zero_iff.mp (by omega)
      have hNoRun : run = [] :=
        List.length_eq_zero_iff.mp (by omega)
      rw [hNoGroups, hNoRun] at hAmong
      rcases hAmong with ⟨hIn, _⟩ | hHead
      · cases hIn
      · refine .inr ⟨by omega, ?_, ?_⟩
        · rw [List.head?_append, hHead]
          rfl
        · rcases hScanned.stop item hHead with hEnd | hGroup
          · exact .inl hEnd
          · exact .inr hGroup.1

theorem rank_eq
    {slot : Slot ExtentItem}
    (hSlot : searchSlot ExtentItem.key s.key s.leaves = slot)
    (hFound : Found start ending front rest slot) :
    rank s =
      2 * rest.length + if slot.items = [] then 1 else 0 := by
  unfold rank
  rw [hSlot]
  dsimp only
  rw [hFound.ahead]

/- Behind a leaf the next search is for the next leaf. -/
theorem Removing.nextLeaf
    (tree : ExtentTree root.sectorsize)
    (hTree : tree.leaves.flatten = front ++ item :: rest)
    (hRemoving : Removing root start ending bytes_used front
      (item :: rest) s)
    (hBetween : Between start ending front (item :: rest)
      s.key) :
    Underway root start ending bytes_used tree.leaves.flatten
        { s with key := item.key } ∧
      rank { s with key := item.key } =
        2 * (item :: rest).length := by
  let s' : RemoveState := { s with key := item.key }
  have hFrom := hBetween.above item List.mem_cons_self
  have hSorted : Ascending ExtentItem.key (item :: rest) := by
    have hAll := tree.ascending
    rw [hTree] at hAll
    exact (List.pairwise_append.mp hAll).2.1
  have hRemoving' : Removing root start ending bytes_used front
      (item :: rest) s' :=
    ⟨hRemoving.flatten, hRemoving.nonempty, hRemoving.used⟩
  have hBetween' : Between start ending front (item :: rest)
      s'.key :=
    { from_start := by
        have hLow := hBetween.from_start
        have hLe := Key.le_iff.mp hFrom
        dsimp only [s']
        omega
      below := fun other hOther hOut =>
        (hBetween.below other hOther hOut).trans_le hFrom
      above := fun other hOther => by
        rcases List.mem_cons.mp hOther with rfl | hLater
        · exact le_rfl
        · exact (List.rel_of_pairwise_cons hSorted hLater).le }
  have hFound := hRemoving'.found tree hTree hBetween'
  have hSome := searchSlot_items hRemoving'.nonempty
    (hRemoving'.ascending tree hTree)
    ((searchSlot_from s'.key hRemoving'.nonempty
      (hRemoving'.ascending tree hTree)).symm.trans
        hFound.ahead) rfl
  refine ⟨⟨front, item :: rest, hTree, hRemoving', hBetween'⟩,
    ?_⟩
  rw [rank_eq rfl hFound, if_neg hSome, Nat.add_zero]

/- A turn, with the items ahead as the rank of the state. -/
def Turns
    (root : ExtentRoot)
    (start ending bytes_used : Nat)
    (tree : List ExtentItem)
    (s : RemoveState) : RemoveState ⊕ Int × RemoveState → Prop
  | .inl s' =>
      Underway root start ending bytes_used tree s' ∧
        rank s' < rank s
  | .inr w =>
      w.1 = 0 →
        Finished root start ending bytes_used tree w.2

theorem Goes.turns
    {out : RemoveState ⊕ Int × RemoveState}
    (tree : ExtentTree root.sectorsize)
    (hGoes : Goes root start ending bytes_used
      tree.leaves.flatten ahead out)
    (hAhead : 2 * ahead ≤ rank s) :
    Turns root start ending bytes_used tree.leaves.flatten s
      out := by
  cases out with
  | inl s' =>
      rcases Proceeds.rank tree hGoes with ⟨hOn, hLess⟩
      exact ⟨hOn, hLess.trans_le hAhead⟩
  | inr w => exact hGoes

/- A turn ends the removal, or goes on with fewer items. -/
theorem removeTurn_spec
    (tree : ExtentTree root.sectorsize)
    (hFits : ending + root.sectorsize ≤ 2 ^ 64)
    (hUnderway : Underway root start ending bytes_used
      tree.leaves.flatten s) :
    Turns root start ending bytes_used tree.leaves.flatten s
      (removeTurn root ending s) := by
  rcases hUnderway with
    ⟨front, rest, hTree, hRemoving, hBetween⟩
  have hFound := hRemoving.found tree hTree hBetween
  have hError : ∀ {ret : Int} {s' : RemoveState}, ret < 0 →
      ret = 0 → Finished root start ending bytes_used
        tree.leaves.flatten s' :=
    fun hLess hZero => by omega
  unfold removeTurn
  cases hSearch : root.searchError s.leaves s.key with
  | some ret =>
      exact hError (root.negative _ _ _ (.inl hSearch))
  | none =>
      dsimp only
      have hJoin := fun hSome : s.leaves ≠ [] =>
        searchSlot_join ExtentItem.key s.key hSome
      cases hSlot : searchSlot ExtentItem.key s.key s.leaves with
      | mk before passed items leaves =>
      rw [hSlot] at hFound hJoin
      have hRank := rank_eq hSlot hFound
      have hAhead := hFound.ahead
      dsimp only at hAhead hRank hJoin ⊢
      by_cases hEmpty : (passed ++ items).length = 0
      · rw [if_pos hEmpty]
        -- there is no leaf but an empty root
        have hNone : s.leaves = [] := by
          by_contra hSome
          refine hRemoving.nonempty (passed ++ items) ?_
            (List.length_eq_zero_iff.mp hEmpty)
          rw [← hJoin hSome]
          simp
        have hFlat := hRemoving.flatten
        rw [hNone] at hFlat
        have hRest : rest = [] :=
          (List.append_eq_nil_iff.mp hFlat.symm).2
        refine fun _ => ⟨front, rest, hTree, hRemoving, ?_⟩
        rw [hRest]
        exact List.forall_mem_nil _
      · rw [if_neg hEmpty]
        by_cases hBehind :
            passed.length ≥ (passed ++ items).length
        · rw [if_pos hBehind]
          have hItems : items = [] := by
            rw [List.length_append] at hBehind
            exact List.length_eq_zero_iff.mp (by omega)
          rw [hItems, List.nil_append] at hAhead
          rw [hItems, if_pos rfl] at hRank
          cases hNext : root.nextError s.leaves s.key with
          | some ret =>
              exact hError
                (root.negative _ _ _ (.inr (.inl hNext)))
          | none =>
              dsimp only
              rw [hAhead]
              cases rest with
              | nil =>
                  exact fun _ => ⟨front, [], hTree, hRemoving,
                    List.forall_mem_nil _⟩
              | cons item rest =>
                  dsimp only
                  by_cases hEnd : item.key.objectid ≥ ending
                  · rw [if_pos hEnd]
                    refine fun _ => ⟨front, item :: rest, hTree,
                      ⟨hRemoving.flatten, hRemoving.nonempty,
                        hRemoving.used⟩, ?_⟩
                    intro other hOther
                    have hSorted := tree.ascending
                    rw [hTree] at hSorted
                    have hAfter :=
                      (List.pairwise_append.mp hSorted).2.1
                    apply inRange_behind
                    rcases List.mem_cons.mp hOther with
                      rfl | hLater
                    · exact hEnd
                    · have hLess := Key.lt_iff.mp
                        (List.rel_of_pairwise_cons hAfter
                          hLater)
                      omega
                  · rw [if_neg hEnd]
                    rcases hRemoving.nextLeaf tree hTree
                      hBetween with ⟨hOn, hLess⟩
                    exact ⟨hOn, by omega⟩
        · rw [if_neg hBehind]
          have hItems : items ≠ [] := by
            intro hNil
            rw [hNil, List.append_nil] at hBehind
            exact hBehind le_rfl
          rw [← hAhead] at hTree hRemoving hBetween hRank
          have hBytes : s.bytes_used < 2 ^ 64 := by
            rw [hRemoving.used]
            exact Nat.mod_lt _ (by decide)
          rcases scanLoop_spec (s := ⟨s.key, none, 0,
              s.bytes_used⟩) hBytes with
            ⟨groups, run, tail, hScanned⟩
          generalize scanLoop root.leafsize ending items
            passed.length ⟨s.key, none, 0, s.bytes_used⟩ = t
            at hScanned ⊢
          have hGoes := fun leaves' hLeaves hNonempty =>
            (hRemoving.scan leaves' tree hFits hTree hBetween
              hItems hScanned hLeaves hNonempty).turns
                (s := s) tree (by omega)
          by_cases hRun : run = []
          · have hNone : t.del_nr = 0 := by
              rw [hScanned.del_nr, hRun]
              rfl
            rw [if_neg (not_not.mpr hNone)]
            refine hGoes _ ?_ hRemoving.nonempty
            rw [hRemoving.flatten, hScanned.split, hRun,
              List.append_nil, List.append_assoc]
          · have hSome : t.del_nr ≠ 0 := by
              rw [hScanned.del_nr, Nat.zero_add]
              exact fun hZero =>
                hRun (List.length_eq_zero_iff.mp hZero)
            rw [if_pos hSome]
            cases hDel : root.delError s.leaves s.key with
            | some ret =>
                exact hError
                  (root.negative _ _ _ (.inr (.inr hDel)))
            | none =>
                refine hGoes _ ?_ (root.balance_nonempty _ _ _)
                rw [root.balance_flatten, hScanned.deleted hRun,
                  ← hFound.before]
                simp only [List.append_assoc]

/- The removal begins with the first item of the range. -/
theorem underway_start
    (start : Nat)
    (tree : ExtentTree root.sectorsize)
    (hBytes : bytes_used < 2 ^ 64) :
    Underway root start ending bytes_used tree.leaves.flatten
      ⟨tree.leaves, ⟨start, BTRFS_EXTENT_ITEM_KEY, 0⟩,
        bytes_used⟩ := by
  let key : Key := ⟨start, BTRFS_EXTENT_ITEM_KEY, 0⟩
  let below := tree.leaves.flatten.takeWhile
    fun item => item.key < key
  let behind := tree.leaves.flatten.dropWhile
    fun item => item.key < key
  have hParts : below ++ behind = tree.leaves.flatten :=
    List.takeWhile_append_dropWhile
  have hWhole : Removing root start ending bytes_used []
      (below ++ behind) ⟨tree.leaves, key, bytes_used⟩ :=
    { flatten := hParts.symm
      nonempty := tree.nonempty
      used := (Nat.mod_eq_of_lt hBytes).symm }
  have hBelow : ∀ item ∈ below,
      item ∈ tree.leaves.flatten ∧ item.key < key := by
    intro item hItem
    refine ⟨?_, by simpa using List.mem_takeWhile_imp hItem⟩
    rw [← hParts]
    exact List.mem_append_left _ hItem
  refine ⟨below, behind, hParts.symm, hWhole.pass ?_, ?_⟩
  · intro item hItem
    rcases hBelow item hItem with ⟨hIn, hLess⟩
    have hType := tree.types item hIn
    have hLess' := Key.lt_iff.mp hLess
    refine decide_eq_false fun hRange => ?_
    have hFrom := hRange.1
    unfold key at hLess'
    dsimp only at hLess'
    omega
  · exact
      { from_start := le_rfl
        below := fun item hItem _ => (hBelow item hItem).2
        above := fun item hItem =>
          ((mem_dropWhile_iff tree.ascending).mp hItem).2 }

/- Through with the range, all of it is removed and counted. -/
theorem Finished.counted
    {tree : List ExtentItem}
    (hFinished :
      Finished root start ending bytes_used tree s) :
    s.leaves.flatten =
        tree.filter (fun item => !inRange start ending item) ∧
      s.bytes_used =
        (bytes_used + totalSize root.leafsize
          (tree.filter (inRange start ending))) % 2 ^ 64 := by
  rcases hFinished with
    ⟨front, rest, hTree, hRemoving, hOut⟩
  have hNone : Removing root start ending bytes_used
      (front ++ rest) [] s := by
    rw [← List.append_nil rest] at hRemoving
    exact hRemoving.pass hOut
  have hFlat := hNone.flatten
  rw [List.append_nil, ← hTree] at hFlat
  have hUsed := hNone.used
  rw [← hTree] at hUsed
  exact ⟨hFlat, hUsed⟩

/- The loop ends, through with the range or with an error. -/
theorem removal_ends
    (tree : ExtentTree root.sectorsize)
    (hFits : ending + root.sectorsize ≤ 2 ^ 64)
    (hUnderway : Underway root start ending bytes_used
      tree.leaves.flatten s) :
    Loop.Ends (removeTurn root ending)
      (fun w => w.1 = 0 → Finished root start ending bytes_used
        tree.leaves.flatten w.2) s := by
  have hTurn : ∀ a b, Underway root start ending bytes_used
        tree.leaves.flatten a →
      removeTurn root ending a = .inl b →
        Underway root start ending bytes_used
          tree.leaves.flatten b ∧ rank b < rank a ∧
        ∀ w : Int × RemoveState,
          (w.1 = 0 → Finished root start ending bytes_used
            tree.leaves.flatten w.2) →
          w.1 = 0 → Finished root start ending bytes_used
            tree.leaves.flatten w.2 := by
    intro a b hOn hNext
    have hTurns := removeTurn_spec tree hFits hOn
    rw [hNext] at hTurns
    exact ⟨hTurns.1, hTurns.2, fun _ hEnd => hEnd⟩
  have hEnd : ∀ a w, Underway root start ending bytes_used
        tree.leaves.flatten a →
      removeTurn root ending a = .inr w →
        w.1 = 0 → Finished root start ending bytes_used
          tree.leaves.flatten w.2 := by
    intro a w hOn hLast
    have hTurns := removeTurn_spec tree hFits hOn
    rw [hLast] at hTurns
    exact hTurns
  exact Loop.ends_of_rank rank hTurn hEnd hUnderway

end Removals

----------
-- Exactness
----------

/- Added is taken away only where twice the size is nothing. -/
theorem added_eq_sub_iff
    {used size : Nat}
    (hUsed : used < 2 ^ 64) :
    (used + size) % 2 ^ 64 = u64Sub used (size % 2 ^ 64) ↔
      2 ^ 63 ∣ size := by
  unfold u64Sub
  omega

/-
  The removal ends.  With 0 it has removed what it should, and
  the bytes used are right exactly if the size of the extents
  is a multiple of half the range of the counter.
-/
theorem blockGroupRemoveAllExtentItems_exact_iff
    (root : ExtentRoot)
    (bg : BlockGroupRecord root.sectorsize)
    (tree : ExtentTree root.sectorsize)
    (bytes_used : Nat)
    (hBytes : bytes_used < 2 ^ 64) :
    ∃ fuel ret out,
      blockGroupRemoveAllExtentItems root bg tree.leaves
          bytes_used fuel = some (ret, out) ∧
        (ret = 0 →
          out.leaves.flatten = tree.leaves.flatten.filter
              (fun item => !inGroup bg item) ∧
            (Exact root bg tree.leaves bytes_used out ↔
              2 ^ 63 ∣ totalSize root.leafsize
                (tree.leaves.flatten.filter
                  (inGroup bg)))) := by
  have hFits := bg.fits
  have hPos := root.sectorsize_pos
  let ending := bg.objectid + bg.offset
  have hEnding : (bg.objectid + bg.offset) % 2 ^ 64 = ending :=
    Nat.mod_eq_of_lt (by omega)
  have hEnds := removal_ends tree hFits
    (underway_start bg.objectid tree hBytes)
  rcases hEnds with ⟨fuel, ⟨ret, out⟩, hRun, hFinished⟩
  refine ⟨fuel, ret, out, ?_, fun hZero => ?_⟩
  · unfold blockGroupRemoveAllExtentItems
    rw [hEnding]
    exact hRun
  · rcases (hFinished hZero).counted with ⟨hFlat, hUsed⟩
    refine ⟨hFlat, ?_⟩
    rw [← added_eq_sub_iff hBytes]
    unfold Exact
    dsimp only at hUsed
    rw [hUsed]
    exact and_iff_right hFlat

/- Leaves that are filled as they come, and no errors. -/
def plainRoot : ExtentRoot where
  leafsize := 4096
  sectorsize := 4096
  balance front leaf leaves :=
    (front ++ leaf :: leaves).filter (· ≠ [])
  searchError _ _ := none
  nextError _ _ := none
  delError _ _ := none
  sectorsize_pos := page_pos
  balance_flatten front leaf leaves := by
    rw [List.flatten_filter_ne_nil, List.flatten_append, List.flatten_cons,
      List.append_assoc]
  balance_nonempty front leaf leaves l hl := by
    simpa using (List.mem_filter.mp hl).2
  negative _ _ _ hError := by
    rcases hError with hError | hError | hError <;> cases hError

/- A group of 8 MiB. -/
def smallGroup : BlockGroupRecord plainRoot.sectorsize where
  objectid := 4194304
  offset := 8388608
  fits := by decide

/- Two tree blocks in the group, with its item between. -/
def smallTree : ExtentTree plainRoot.sectorsize where
  leaves :=
    [[⟨⟨4194304, 168, 4096⟩, []⟩, ⟨⟨4194304, 192, 8388608⟩, []⟩],
      [⟨⟨4198400, 169, 0⟩, []⟩, ⟨⟨12582912, 168, 8192⟩, []⟩]]
  nonempty := by decide
  ascending := by decide
  aligned := by decide
  types := by decide

theorem blockGroupRemoveAllExtentItems_smallTree :
    ∃ fuel ret out,
      blockGroupRemoveAllExtentItems plainRoot smallGroup
          smallTree.leaves 16384 fuel = some (ret, out) ∧
        (ret = 0 →
          out.leaves.flatten = smallTree.leaves.flatten.filter
              (fun item => !inGroup smallGroup item) ∧
            (Exact plainRoot smallGroup smallTree.leaves 16384
                out ↔
              2 ^ 63 ∣ totalSize plainRoot.leafsize
                (smallTree.leaves.flatten.filter
                  (inGroup smallGroup)))) :=
  blockGroupRemoveAllExtentItems_exact_iff plainRoot smallGroup
    smallTree 16384 (by decide)

/- The two tree blocks are removed, and counted once more. -/
theorem blockGroupRemoveAllExtentItems_adds :
    ∃ out,
      blockGroupRemoveAllExtentItems plainRoot smallGroup
          smallTree.leaves 16384 8 = some (0, out) ∧
        out.bytes_used = 24576 ∧
        ¬ Exact plainRoot smallGroup smallTree.leaves 16384
          out :=
  ⟨⟨[[⟨⟨4194304, 192, 8388608⟩, []⟩],
        [⟨⟨12582912, 168, 8192⟩, []⟩]],
      ⟨12582912, 168, 8192⟩, 24576⟩, by rfl, rfl, by
    unfold Exact
    decide⟩

end RemoveExtents

end BtrfsProgs
