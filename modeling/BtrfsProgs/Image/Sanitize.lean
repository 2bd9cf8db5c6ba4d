import BtrfsProgs.Image.Collision
import BtrfsProgs.Leaves.Layout

/-
  Tree blocks are copied without file data and names, from
  `btrfs-image.c`.

  Main declarations:
    * `sanitizeDirItem`, `sanitizeInodeRef`, `sanitizeXattr`
    * `zeroItems`
    * `copyBuffer`
-/

----------
-- Blocks
----------

namespace BtrfsProgs

namespace Image

open ByteArea

/- `struct extent_buffer`. -/
structure ExtentBuffer where
  start : Nat
  len : Nat
  data : Area

/- The number in `w` bytes of a block. -/
def number
    (a : Area)
    (p w : Nat) : Nat :=
  LittleEndian.decode (load a p w)

/- `sizeof(struct btrfs_header)`. -/
def BLOCK_HEADER : Nat := 101

/- `sizeof(struct btrfs_key_ptr)`. -/
def KEY_PTR_SIZE : Nat := 33

def INODE_REF_KEY : Nat := 12

def INODE_EXTREF_KEY : Nat := 13

def XATTR_ITEM_KEY : Nat := 24

def DIR_ITEM_KEY : Nat := 84

def DIR_INDEX_KEY : Nat := 96

def EXTENT_DATA_KEY : Nat := 108

def CSUM_ITEM_KEY : Nat := 120

def FILE_EXTENT_INLINE : Nat := 0

/- `btrfs_header_nritems`. -/
def headerNritems
    (a : Area) : Nat :=
  number a 96 4

/- `btrfs_header_level`. -/
def headerLevel
    (a : Area) : Nat :=
  number a 100 1

/- The part of a leaf behind its header. -/
def leafData
    (a : Area) : Area :=
  fun q => a (BLOCK_HEADER + q)

/- The type of the key of an item. -/
def itemType
    (a : Area)
    (slot : Nat) : Nat :=
  (Leaves.itemKey (leafData a) slot).type

/- `btrfs_item_ptr_offset`. -/
def itemPtr
    (a : Area)
    (slot : Nat) : Nat :=
  BLOCK_HEADER + Leaves.itemOffset (leafData a) slot

/- `btrfs_item_size_nr`. -/
def itemSizeNr
    (a : Area)
    (slot : Nat) : Nat :=
  Leaves.itemSize (leafData a) slot

/- `btrfs_item_nr_offset`. -/
def itemNrOffset
    (nr : Nat) : Nat :=
  BLOCK_HEADER + Leaves.ITEM_SIZE * nr

/- `memset(dst + p, 0, n)`. -/
def zero
    (a : Area)
    (p n : Nat) : Area :=
  store a p (List.replicate n 0)

/- `csum_block`, which writes the first four bytes. -/
def csumBlock
    (a : Area)
    (len : Nat) : Area :=
  store a 0 (LittleEndian.encode 4
    (~~~crc32c (-1) (load a 32 (len - 32))).toNat)

/- `has_name`. -/
def hasName
    (type : Nat) : Bool :=
  type = DIR_ITEM_KEY || type = DIR_INDEX_KEY ||
    type = INODE_REF_KEY || type = INODE_EXTREF_KEY ||
    type = XATTR_ITEM_KEY

----------
-- Names
----------

/-
  What the copy of a block uses: the numbers of `rand`, the
  balance of the tree of names, `sanitize_names`, and the
  bytes that stand behind a substitute which is too short.
-/
structure Setting where
  rand : Nat → Nat
  rebalance : SearchTree.Rebalance NameEntry
  sanitizeNames : Nat
  behind : Nat → UInt8

section Names

variable (s : Setting)

/- What is written over a name. -/
def garbageFor
    (md : NameState)
    (name : List UInt8) : Option (List UInt8 × NameState) :=
  if 1 < s.sanitizeNames then
    match findCollision s.rand s.rebalance md name with
    | none => none
    | some (val, md) =>
        some ((List.range name.length).map fun i =>
          val.sub.getD i (s.behind i), md)
  else
    some (generateGarbage s.rand md.draws name.length,
      { md with draws := md.draws + name.length })

/-
  How the entries of an item are laid out: a head of some
  bytes, the name, and data if there are any.
-/
structure EntryKind where
  head : Nat
  nameAt : Nat
  dataAt : Option Nat
  name_in : nameAt + 2 ≤ head
  data_in : ∀ d ∈ dataAt, d + 2 ≤ head

/- `struct btrfs_dir_item`. -/
def dirItem : EntryKind :=
  ⟨30, 27, some 25, by decide, by decide⟩

/- `struct btrfs_inode_ref`. -/
def inodeRef : EntryKind :=
  ⟨10, 8, none, by decide, by decide⟩

/- `struct btrfs_inode_extref`. -/
def inodeExtref : EntryKind :=
  ⟨18, 16, none, by decide, by decide⟩

def EntryKind.nameLen
    (k : EntryKind)
    (a : Area)
    (p : Nat) : Nat :=
  number a (p + k.nameAt) 2

def EntryKind.dataLen
    (k : EntryKind)
    (a : Area)
    (p : Nat) : Nat :=
  match k.dataAt with
  | some at' => number a (p + at') 2
  | none => 0

/-
  The loop over the entries of an item at `ptr`; `none` is a
  loop that goes on, or a name without a substitute.
-/
def sanitizeEntries
    (k : EntryKind)
    (ptr total : Nat) :
    Nat → Nat → Area → NameState → Option (Area × NameState)
  | 0, _, _, _ => none
  | fuel + 1, cur, a, md =>
      if cur < total then
        let p := ptr + cur
        let nameLen := k.nameLen a p
        let thisLen := k.head + nameLen + k.dataLen a p
        let namePtr := p + k.head
        match garbageFor s md (load a namePtr nameLen) with
        | none => none
        | some (garbage, md) =>
            sanitizeEntries k ptr total fuel (cur + thisLen)
              (store a namePtr garbage) md
      else some (a, md)

/- `sanitize_dir_item`. -/
def sanitizeDirItem
    (a : Area)
    (slot : Nat)
    (md : NameState) : Option (Area × NameState) :=
  let totalLen := itemSizeNr a slot
  sanitizeEntries s dirItem (itemPtr a slot) totalLen
    (totalLen + 1) 0 a md

/- `sanitize_inode_ref`. -/
def sanitizeInodeRef
    (a : Area)
    (slot : Nat)
    (ext : Bool)
    (md : NameState) : Option (Area × NameState) :=
  let itemSize := itemSizeNr a slot
  sanitizeEntries s (if ext then inodeExtref else inodeRef)
    (itemPtr a slot) itemSize (itemSize + 1) 0 a md

/- `sanitize_xattr`. -/
def sanitizeXattr
    (a : Area)
    (slot : Nat) : Area :=
  let ptr := itemPtr a slot
  let dataLen := dirItem.dataLen a ptr
  let dataPtr := ptr + dirItem.head + dirItem.nameLen a ptr
  zero a dataPtr dataLen

/- `sanitize_name`. -/
def sanitizeName
    (dst : Area)
    (type slot : Nat)
    (md : NameState) : Option (Area × NameState) :=
  if type = DIR_ITEM_KEY ∨ type = DIR_INDEX_KEY then
    sanitizeDirItem s dst slot md
  else if type = INODE_REF_KEY then
    sanitizeInodeRef s dst slot false md
  else if type = INODE_EXTREF_KEY then
    sanitizeInodeRef s dst slot true md
  else if type = XATTR_ITEM_KEY then
    some (sanitizeXattr dst slot, md)
  else some (dst, md)

----------
-- Copies
----------

/- One turn of the loop of `zero_items`. -/
def zeroItem
    (src : Area)
    (i : Nat)
    (st : Area × NameState) : Option (Area × NameState) :=
  let type := itemType src i
  let ptr := itemPtr src i
  let size := itemSizeNr src i
  if type = CSUM_ITEM_KEY then some (zero st.1 ptr size, st.2)
  else if s.sanitizeNames ≠ 0 ∧ hasName type then
    sanitizeName s st.1 type i st.2
  else if type ≠ EXTENT_DATA_KEY then some st
  else if number src (ptr + 20) 1 ≠ FILE_EXTENT_INLINE then
    some st
  else
    some (zero st.1 (ptr + 21)
      ((size + 2 ^ 32 - 21) % 2 ^ 32), st.2)

/- `zero_items`, up to an item. -/
def zeroItems
    (src : Area) :
    Nat → Area × NameState → Option (Area × NameState)
  | 0, st => some st
  | i + 1, st =>
      match zeroItems src i st with
      | none => none
      | some st => zeroItem s src i st

/- `copy_buffer`: the bytes of the copy. -/
def copyBuffer
    (md : NameState)
    (src : ExtentBuffer) : Option (List UInt8 × NameState) :=
  let dst := src.data
  if src.start = 65536 then some (load dst 0 src.len, md)
  else
    let level := headerLevel src.data
    let nritems := headerNritems src.data
    let copied :=
      if nritems = 0 then
        some (zero dst BLOCK_HEADER (src.len - BLOCK_HEADER),
          md)
      else if level = 0 then
        let size :=
          (itemPtr src.data (nritems - 1) + 2 ^ 64 -
            itemNrOffset nritems) % 2 ^ 64
        zeroItems s src.data nritems
          (zero dst (itemNrOffset nritems) size, md)
      else
        let size := BLOCK_HEADER + KEY_PTR_SIZE * nritems
        some (zero dst size (src.len - size), md)
    copied.map fun (dst, md) =>
      (load (csumBlock dst src.len) 0 src.len, md)

end Names

end Image

end BtrfsProgs
