import BtrfsProgs.Lib.Loop

/-
  The tree of free space of a block group, with its bitmaps,
  from `free-space-cache.c`.

  Main declarations:
    * `Entry` and `Ctl`
    * `treeSearchOffset`
    * `addFreeSpace`
    * `mergeBody`
-/

----------
-- Entries
----------

namespace BtrfsProgs

namespace FreeSpaceCache

/- `CACHE_SECTORSIZE`. -/
def CACHE_SECTORSIZE : Nat := 4096

def BITS_PER_BITMAP : Nat := CACHE_SECTORSIZE * 8

/-
  The sector size, of which a bit of a bitmap is one; the
  bytes of a bitmap are an `int`.
-/
structure SectorSize where
  bytes : Nat
  pos : 0 < bytes
  small : BITS_PER_BITMAP * bytes < 2 ^ 31

/- `struct btrfs_free_space`. -/
structure Entry where
  offset : Nat
  bytes : Nat
  bitmap : Option (List UInt8)
deriving Repr, DecidableEq

/- `struct btrfs_free_space_ctl`, its tree from left to right. -/
structure Ctl where
  entries : List Entry
  freeSpace : Nat
  freeExtents : Int
  totalBitmaps : Nat
deriving Repr, DecidableEq

/-
  How a call ends that does not return: with `BUG_ON`, with
  bytes outside the pages, with an entry that was freed.
-/
inductive Fault where
  | bug
  | outside
  | freed
deriving Repr, DecidableEq

/- Where two entries cannot both stand in the tree. -/
def Entry.SameKey
    (e x : Entry) : Prop :=
  e.offset = x.offset ∧ e.bitmap.isSome = x.bitmap.isSome

instance
    (e x : Entry) : Decidable (e.SameKey x) :=
  inferInstanceAs (Decidable (_ ∧ _))

/- An extent stands before the bitmap of the same offset. -/
def Entry.Before
    (e x : Entry) : Prop :=
  e.offset < x.offset ∨
    e.offset = x.offset ∧ x.bitmap.isSome

instance
    (e x : Entry) : Decidable (e.Before x) :=
  inferInstanceAs (Decidable (_ ∨ _))

/- `tree_insert_offset`; `none` is `-EEXIST`. -/
def treeInsertOffset
    (entries : List Entry)
    (x : Entry) : Option (List Entry) :=
  if ∃ e ∈ entries, e.SameKey x then none
  else
    some (entries.takeWhile (fun e => e.Before x) ++
      x :: entries.dropWhile (fun e => e.Before x))

/- `link_free_space`; `none` is `-EEXIST`. -/
def linkFreeSpace
    (ctl : Ctl)
    (x : Entry) : Except Fault (Option Ctl) :=
  if x.bitmap = none ∧ x.bytes = 0 then .error .bug
  else
    match treeInsertOffset ctl.entries x with
    | none => .ok none
    | some entries =>
        .ok (some { ctl with
          entries := entries
          freeSpace := (ctl.freeSpace + x.bytes) % 2 ^ 64
          freeExtents := ctl.freeExtents + 1 })

/- `unlink_free_space`. -/
def unlinkFreeSpace
    (ctl : Ctl)
    (x : Entry) : Ctl :=
  { ctl with
    entries := ctl.entries.erase x
    freeSpace :=
      (ctl.freeSpace + (2 ^ 64 - x.bytes % 2 ^ 64)) % 2 ^ 64
    freeExtents := ctl.freeExtents - 1 }

----------
-- Searches
----------

/- `rb_prev`. -/
def rbPrev
    (entries : List Entry)
    (e : Entry) : Option Entry :=
  (entries.takeWhile fun x => x ≠ e).getLast?

/- The end of an entry, with 64 bits, is behind an offset. -/
def Entry.Reaches
    (e : Entry)
    (offset : Nat) : Prop :=
  e.bitmap = none ∧ offset < (e.offset + e.bytes) % 2 ^ 64

instance
    (e : Entry)
    (offset : Nat) : Decidable (e.Reaches offset) :=
  inferInstanceAs (Decidable (_ ∧ _))

section Search

/-
  Whether the bitmap or the extent of an offset is met first,
  which depends on the shape of the tree.
-/
variable (bitmapFirst : List Entry → Nat → Bool)
variable (unit : SectorSize)

/- The entry of an offset that is met first. -/
def entryAt
    (entries : List Entry)
    (offset : Nat) : Option Entry :=
  match
    entries.find? (fun e =>
      e.offset = offset ∧ e.bitmap = none),
    entries.find? (fun e =>
      e.offset = offset ∧ e.bitmap.isSome) with
  | some x, some b =>
      if bitmapFirst entries offset then some b else some x
  | some x, none => some x
  | none, b => b

/- `tree_search_offset`, neither for bitmaps nor fuzzy. -/
def treeSearchOffset
    (entries : List Entry)
    (offset : Nat) : Option Entry :=
  match entryAt bitmapFirst entries offset with
  | some e =>
      if e.bitmap.isSome then
        match (rbPrev entries e).filter
            (fun p => p.Reaches offset) with
        | some p => some p
        | none => some e
      else some e
  | none =>
      match (entries.filter fun e =>
          e.offset < offset).getLast? with
      | none => none
      | some e =>
          if e.bitmap.isSome then
            match (rbPrev entries e).filter
                (fun p => p.Reaches offset) with
            | some p => some p
            | none =>
                if offset < (e.offset +
                    BITS_PER_BITMAP * unit.bytes) %
                      2 ^ 64 then
                  some e
                else none
          else if e.Reaches offset then some e
          else none

----------
-- Free Space That Is Added
----------

/- `right_info` and `left_info` of `try_merge_free_space`. -/
def rightInfo
    (entries : List Entry)
    (info : Entry) : Option Entry :=
  treeSearchOffset bitmapFirst unit entries
    ((info.offset + info.bytes) % 2 ^ 64)

def leftInfo
    (entries : List Entry)
    (info : Entry) : Option Entry :=
  match (rightInfo bitmapFirst unit entries info).bind
      (rbPrev entries) with
  | some p => some p
  | none =>
      treeSearchOffset bitmapFirst unit entries
        ((info.offset + (2 ^ 64 - 1)) % 2 ^ 64)

/- The extent behind a new one is joined to it, and freed. -/
def joinRight
    (ctl : Ctl)
    (info : Entry)
    (right : Option Entry) : Ctl × Entry :=
  match right with
  | none => (ctl, info)
  | some r =>
      if r.bitmap.isSome then (ctl, info)
      else
        (unlinkFreeSpace ctl r,
          { info with
            bytes := (info.bytes + r.bytes) % 2 ^ 64 })

/- The left entry is the right one, which has been freed. -/
def FreedLeft
    (entries : List Entry)
    (info : Entry) : Prop :=
  ∃ r, r.bitmap = none ∧
    rightInfo bitmapFirst unit entries info = some r ∧
    leftInfo bitmapFirst unit entries info = some r

instance
    (entries : List Entry)
    (info : Entry) :
    Decidable (FreedLeft bitmapFirst unit entries info) :=
  match h : rightInfo bitmapFirst unit entries info with
  | none => .isFalse (by simp [FreedLeft, h])
  | some r =>
      decidable_of_iff (r.bitmap = none ∧
        leftInfo bitmapFirst unit entries info = some r) (by
          simp [FreedLeft, h])

/- `try_merge_free_space`. -/
def tryMergeFreeSpace
    (ctl : Ctl)
    (info : Entry) : Except Fault (Ctl × Entry) :=
  let joined := joinRight ctl info
    (rightInfo bitmapFirst unit ctl.entries info)
  match leftInfo bitmapFirst unit ctl.entries info with
  | none => .ok joined
  | some l =>
      if FreedLeft bitmapFirst unit ctl.entries info then
        .error .freed
      else if l.bitmap = none ∧
          (l.offset + l.bytes) % 2 ^ 64 = info.offset then
        .ok (unlinkFreeSpace joined.1 l,
          { joined.2 with
            offset := l.offset
            bytes := (joined.2.bytes + l.bytes) % 2 ^ 64 })
      else .ok joined

/- `btrfs_add_free_space`, with its `BUG_ON`. -/
def addFreeSpace
    (ctl : Ctl)
    (offset bytes : Nat) : Except Fault Ctl :=
  match tryMergeFreeSpace bitmapFirst unit ctl
      ⟨offset, bytes, none⟩ with
  | .error f => .error f
  | .ok (ctl, info) =>
      match linkFreeSpace ctl info with
      | .error f => .error f
      | .ok none => .error .bug
      | .ok (some ctl) => .ok ctl

----------
-- Bitmaps
----------

/- A bit of a bitmap. -/
def bitAt
    (e : Entry)
    (i : Nat) : Bool :=
  ((e.bitmap.getD []).getD (i / 8) 0).toNat.testBit (i % 8)

/- The first bit from `i` on that has a value. -/
def findNext
    (e : Entry)
    (value : Bool) : Nat → Nat → Nat
  | 0, i => i
  | left + 1, i =>
      if bitAt e i = value then i
      else findNext e value left (i + 1)

/- `find_next_bit` and `find_next_zero_bit`. -/
def findNextBit
    (e : Entry)
    (value : Bool)
    (i : Nat) : Nat :=
  findNext e value (BITS_PER_BITMAP - i) i

/- `offset_to_bit` of the place where a search starts. -/
def offsetToBit
    (e : Entry)
    (offset : Nat) : Nat :=
  (max offset e.offset - e.offset) / unit.bytes

/-
  The bits that `search_bitmap` finds for one sector: the
  first one that is set, and the clear one behind it.
-/
def foundBits
    (e : Entry)
    (offset : Nat) : Option (Nat × Nat) :=
  let i := findNextBit e true (offsetToBit unit e offset)
  if i < BITS_PER_BITMAP then
    some (i, findNextBit e false i)
  else none

/- `search_bitmap`. -/
def searchBitmap
    (e : Entry)
    (offset : Nat) : Option (Nat × Nat) :=
  (foundBits unit e offset).map fun (i, nextZero) =>
    ((i * unit.bytes + e.offset) % 2 ^ 64,
      (nextZero - i) * unit.bytes)

----------
-- Merging
----------

/- What the loop of `merge_space_tree` over the tree finds. -/
inductive Merges where
  | clean
  | bitmap (e : Entry)
  | pair (prev e : Entry)

def scanTree :
    Option Entry → List Entry → Merges
  | _, [] => .clean
  | prev, e :: entries =>
      if e.bitmap.isSome then .bitmap e
      else
        match prev with
        | none => scanTree (some e) entries
        | some p =>
            if (p.offset + p.bytes) % 2 ^ 64 = e.offset then
              .pair p e
            else scanTree (some e) entries

/- At `again`, or in the loop over the bits of a bitmap. -/
inductive Merge where
  | again (ctl : Ctl)
  | bits (ctl : Ctl) (e : Entry) (offset : Nat)

/-
  `merge_space_tree`.  What `link_free_space` returns for a
  pair is not looked at.
-/
def mergeBody : Merge → Merge ⊕ Except Fault Ctl
  | .again ctl =>
      match scanTree none ctl.entries with
      | .clean => .inr (.ok ctl)
      | .bitmap e =>
          .inl (.bits (unlinkFreeSpace ctl e) e e.offset)
      | .pair p e =>
          let ctl := unlinkFreeSpace (unlinkFreeSpace ctl p) e
          match linkFreeSpace ctl { p with
              bytes := (p.bytes + e.bytes) % 2 ^ 64 } with
          | .error f => .inr (.error f)
          | .ok none => .inl (.again ctl)
          | .ok (some ctl) => .inl (.again ctl)
  | .bits ctl e offset =>
      match searchBitmap unit e offset with
      | none => .inl (.again ctl)
      | some (offset, bytes) =>
          match addFreeSpace bitmapFirst unit ctl offset
              bytes with
          | .error f => .inr (.error f)
          | .ok ctl =>
              let offset := (offset + bytes) % 2 ^ 64
              if (e.offset + BITS_PER_BITMAP * unit.bytes) %
                  2 ^ 64 ≤ offset then
                .inl (.again ctl)
              else .inl (.bits ctl e offset)

end Search

end FreeSpaceCache

end BtrfsProgs
