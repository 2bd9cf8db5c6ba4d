import BtrfsProgs.Basic
import BtrfsProgs.Convert.Acl

/-
  The extended attributes of an ext2 inode, from
  `btrfs-convert.c`.

  Main declarations:
    * `Host` and `Ext2Inode`
    * `checkNames`, `checkBlock`, `checkEntry`
    * `copySingleXattr`
    * `copyExtendedAttrs`
-/

----------
-- Entries
----------

namespace BtrfsProgs

namespace Convert

open LittleEndian Record Checked

def EIO : Int := 5
def ENOMEM : Int := 12
def ERANGE : Int := 34
def EOPNOTSUPP : Int := 95

def EXT2_GOOD_OLD_INODE_SIZE : Nat := 128
def EXT2_EXT_ATTR_MAGIC : Nat := 0xEA020000
def XATTR_NAME_MAX : Nat := 255

/- `EXT2_EXT_IS_LAST_ENTRY`. -/
def isLastEntry
    (buf : List UInt8)
    (entry : Nat) : Except Fault Bool := do
  let word ← read buf entry 4
  return word = 0

/- `EXT2_EXT_ATTR_LEN`. -/
def attrLen
    (nameLen : Nat) : Nat :=
  (nameLen + 3 + 16) / 4 * 4

/- `EXT2_EXT_ATTR_NEXT`. -/
def attrNext
    (buf : List UInt8)
    (entry : Nat) : Except Fault Nat := do
  let nameLen ← read buf entry 1
  return entry + attrLen nameLen

/- `ext2_xattr_check_names`, for at most some turns. -/
def checkNames
    (buf : List UInt8)
    (endp : Nat) : Nat → Nat → Except Fault Int
  | 0, _ => .error .endless
  | turns + 1, entry => do
      let isLast ← isLastEntry buf entry
      if isLast then return 0
      else do
        let next ← attrNext buf entry
        if endp ≤ next then return - EIO
        else checkNames buf endp turns next

/- The first entry of a block, behind its header. -/
def blockFirst : Nat := 32

/- `ext2_xattr_check_block`. -/
def checkBlock
    (buf : List UInt8)
    (size turns : Nat) : Except Fault Int := do
  let magic ← read buf 0 4
  if magic ≠ EXT2_EXT_ATTR_MAGIC then return - EIO
  else do
    let blocks ← read buf 8 4
    if blocks ≠ 1 then return - EIO
    else checkNames buf size turns blockFirst

/- `ext2_xattr_check_entry`. -/
def checkEntry
    (buf : List UInt8)
    (entry size : Nat) : Except Fault Int := do
  let valueSize ← read buf (entry + 8) 4
  let valueBlock ← read buf (entry + 4) 4
  let valueOffs ← read buf (entry + 2) 2
  if valueBlock ≠ 0 ∨ size < valueSize ∨
      size < (valueOffs + valueSize) % 2 ^ 64 then
    return - EIO
  else return 0

----------
-- One Attribute
----------

/-
  What the conversion runs on: the room of a leaf, `malloc`
  with what is in the bytes it gives, what is in the buffer of
  a name before it is written, and `btrfs_insert_xattr_item`
  with its code.
-/
structure Host (σ : Type) where
  leafDataSize : Nat
  malloc : Nat → Option (List UInt8)
  namebuf : List UInt8
  insertXattrItem : σ → List UInt8 → List UInt8 → σ × Int
  malloc_length :
    ∀ n buf, malloc n = some buf → buf.length = n
  namebuf_length : namebuf.length = XATTR_NAME_MAX + 1

/- `xattr_prefix_table`. -/
def xattrPrefixTable : List (Option (List UInt8)) :=
  [none,
    some (ascii "user."),
    some (ascii "system.posix_acl_access"),
    some (ascii "system.posix_acl_default"),
    some (ascii "trusted."),
    none,
    some (ascii "security.")]

section Copies

variable {σ : Type} (h : Host σ)

/-
  The end of `copy_single_xattr`: the name is put together,
  and the item is inserted if it fits in a leaf.
-/
def insertNamed
    (buf : List UInt8)
    (entry : Nat)
    (pre : List UInt8)
    (entryNameLen : Nat)
    (databuf : List UInt8)
    (data datalen : Nat)
    (fs : σ) : Except Fault (σ × Int) := do
  let nameLen := pre.length + entryNameLen
  let namebuf ← write h.namebuf 0
    ((pre ++ List.replicate XATTR_NAME_MAX 0).take
      XATTR_NAME_MAX)
  let stop ← stringEnd namebuf
  let name ← readString buf (entry + 16) entryNameLen
  let namebuf ← write namebuf stop (name ++ [0])
  if toSize (h.leafDataSize - 25 - 30) <
      (nameLen + datalen) % 2 ^ 32 then
    return (fs, 0)
  else do
    let name ← readBytes namebuf 0 (nameLen % 2 ^ 16)
    let value ← readBytes databuf data (datalen % 2 ^ 16)
    return h.insertXattrItem fs name value

/- `copy_single_xattr`. -/
def copySingleXattr
    (buf : List UInt8)
    (entry data datalen : Nat)
    (fs : σ) : Except Fault (σ × Int) := do
  let nameIndex ← read buf (entry + 1) 1
  match (xattrPrefixTable[nameIndex]?).join with
  | none => return (fs, -EOPNOTSUPP)
  | some pre => do
      let entryNameLen ← read buf entry 1
      if XATTR_NAME_MAX + 1 ≤ pre.length + entryNameLen then
        return (fs, -ERANGE)
      else if nameIndex = 2 ∨ nameIndex = 3 then
        let bufsize := aclEaSize (ext2AclCount datalen)
        match h.malloc bufsize with
        | none => return (fs, -ENOMEM)
        | some databuf => do
            let (databuf, ret) ←
              ext2AclToXattr databuf buf data datalen
            if ret ≠ 0 then return (fs, ret)
            else
              insertNamed h buf entry pre entryNameLen
                databuf 0 (bufsize % 2 ^ 32) fs
      else
        insertNamed h buf entry pre entryNameLen buf data
          datalen fs

/-
  The two loops of `copy_extended_attrs`, for at most some
  turns: their values are counted from a place of the buffer
  and have some room.
-/
def copyAttrs
    (buf : List UInt8)
    (base total : Nat) :
    Nat → Nat → σ → Except Fault (σ × Int)
  | 0, _, _ => .error .endless
  | turns + 1, entry, fs => do
      let isLast ← isLastEntry buf entry
      if isLast then return (fs, 0)
      else do
        let ret ← checkEntry buf entry total
        if ret ≠ 0 then return (fs, ret)
        else do
          let valueOffs ← read buf (entry + 2) 2
          let valueSize ← read buf (entry + 8) 4
          let (fs, ret) ← copySingleXattr h buf entry
            (base + valueOffs) valueSize fs
          if ret ≠ 0 then return (fs, ret)
          else do
            let next ← attrNext buf entry
            copyAttrs buf base total turns next fs

----------
-- All Attributes
----------

/-
  What libext2fs has of an inode: the sizes of the filesystem,
  the buffer after `ext2fs_read_inode_full`, which has the old
  size at least, and the blocks that `ext2fs_read_ext_attr`
  reads. `none` is an error.
-/
structure Ext2Inode where
  logBlockSize : Nat
  inodeSize : Nat
  firstIno : Nat
  ino : Nat
  inode : Option (List UInt8)
  extAttr : Nat → Option (List UInt8)
  inodeSize_lt : inodeSize < 2 ^ 16
  blocksize_lt : 1024 * 2 ^ logBlockSize < 2 ^ 32
  inode_length : ∀ buf, inode = some buf →
    buf.length = max EXT2_GOOD_OLD_INODE_SIZE inodeSize
  extAttr_length : ∀ blk buf, extAttr blk = some buf →
    buf.length = 1024 * 2 ^ logBlockSize

def Ext2Inode.blocksize
    (s : Ext2Inode) : Nat :=
  1024 * 2 ^ s.logBlockSize

/-
  Whether the inode has attributes of its own; `none` is for
  an `i_extra_isize` that leaves it.
-/
def inlineEa
    (s : Ext2Inode)
    (inode : List UInt8) : Except Fault (Option Bool) :=
  if s.firstIno < s.ino ∧
      EXT2_GOOD_OLD_INODE_SIZE < s.inodeSize then do
    let extra ← read inode EXT2_GOOD_OLD_INODE_SIZE 2
    if s.inodeSize < EXT2_GOOD_OLD_INODE_SIZE + extra then
      return none
    else if extra ≠ 0 then do
      let magic ← read inode
        (EXT2_GOOD_OLD_INODE_SIZE + extra) 4
      return some (decide (magic = EXT2_EXT_ATTR_MAGIC))
    else return some false
  else return some false

/- `EXT2_XATTR_IFIRST`. -/
def inodeFirst
    (inode : List UInt8) : Except Fault Nat := do
  let extra ← read inode EXT2_GOOD_OLD_INODE_SIZE 2
  return EXT2_GOOD_OLD_INODE_SIZE + extra + 4

/- The attributes in the inode. -/
def copyInline
    (s : Ext2Inode)
    (turns : Nat)
    (inode : List UInt8)
    (fs : σ) : Except Fault (σ × Int) := do
  match ← inlineEa s inode with
  | none => return (fs, - EIO)
  | some false => return (fs, 0)
  | some true => do
      let first ← inodeFirst inode
      let total := toSize (s.inodeSize - first)
      let ret ← checkNames inode s.inodeSize turns first
      if ret ≠ 0 then return (fs, ret)
      else copyAttrs h inode first total turns first fs

/- The attributes in the block. -/
def copyBlock
    (s : Ext2Inode)
    (turns : Nat)
    (inode : List UInt8)
    (fs : σ) : Except Fault (σ × Int) := do
  let fileAcl ← read inode 104 4
  if fileAcl = 0 then return (fs, 0)
  else if (h.malloc s.blocksize).isNone then
    return (fs, -ENOMEM)
  else
    match s.extAttr fileAcl with
    | none => return (fs, -1)
    | some buffer => do
        let ret ← checkBlock buffer s.blocksize turns
        if ret ≠ 0 then return (fs, ret)
        else
          copyAttrs h buffer 0 s.blocksize turns blockFirst fs

/- `copy_extended_attrs`, for at most some turns of each loop. -/
def copyExtendedAttrs
    (s : Ext2Inode)
    (turns : Nat)
    (fs : σ) : Except Fault (σ × Int) :=
  if EXT2_GOOD_OLD_INODE_SIZE < s.inodeSize ∧
      (h.malloc s.inodeSize).isNone then
    return (fs, -ENOMEM)
  else
    match s.inode with
    | none => return (fs, -1)
    | some inode => do
        let (fs, ret) ← copyInline h s turns inode fs
        if ret ≠ 0 then return (fs, ret)
        else copyBlock h s turns inode fs

end Copies

end Convert

end BtrfsProgs
