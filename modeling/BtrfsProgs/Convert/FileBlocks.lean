import BtrfsProgs.Basic
import BtrfsProgs.Volumes.Rmap

/-
  The data blocks of an ext2 file as file extents, from
  `btrfs-convert.c`.

  Block numbers of ext2 have 32 bits, so no position in bytes
  leaves 64 bits.

  Main declarations:
    * `Device` and `Written`
    * `recordFileBlocks`
    * `blockIterateProc` and `blockIterate`
    * `createFileExtents`
-/

----------
-- The Device
----------

namespace BtrfsProgs

namespace Convert

/- `STRIPE_LEN`. -/
def STRIPE_LEN : Nat := 64 * 1024

/- The stripe of a copy of the superblock. -/
def sbStripe
    (i : Nat) : Nat :=
  Volumes.sbOffset i / STRIPE_LEN * STRIPE_LEN

/- `intersect_with_sb`. -/
def intersectWithSb
    (bytenr numBytes : Nat) : Bool :=
  (List.range Volumes.SUPER_MIRROR_MAX).any fun i =>
    bytenr < sbStripe i + STRIPE_LEN ∧
      sbStripe i < bytenr + numBytes

/- A block group, by its key. -/
structure BlockGroup where
  start : Nat
  length : Nat
deriving Repr, DecidableEq

/- Block groups that lie end to end. -/
def Tiles : Nat → List BlockGroup → Prop
  | _, [] => True
  | start, g :: groups =>
      g.start = start ∧ Tiles (g.start + g.length) groups

/-
  What a conversion works on. The block groups tile the
  device, and their ends are ends of blocks.

  `pread` gives the bytes that are read from a position on, at
  most so many: fewer or none behind the end of the device.
  `malloc` is what a new buffer of a size has in it.
-/
structure Device where
  sectorsize : Nat
  maxInline : Nat
  groups : List BlockGroup
  pread : Nat → Nat → Option (List UInt8)
  malloc : Nat → List UInt8
  malloc_length : ∀ n, (malloc n).length = n
  sectorsize_pos : 0 < sectorsize
  sectorsize_dvd : sectorsize ∣ STRIPE_LEN
  tiles : Tiles 0 groups
  aligned : ∀ g ∈ groups, sectorsize ∣ g.length

/- `btrfs_lookup_block_group`. -/
def Device.lookupBlockGroup
    (dev : Device)
    (bytenr : Nat) : Option BlockGroup :=
  dev.groups.find? fun g =>
    g.start ≤ bytenr ∧ bytenr < g.start + g.length

/-
  `read_disk_extent`, with what the buffer has after it. A read
  of no byte at all is no error, and the buffer stays.
-/
def Device.readDiskExtent
    (dev : Device)
    (bytenr numBytes : Nat)
    (buffer : List UInt8) : Except Stop (List UInt8) :=
  match dev.pread bytenr numBytes with
  | none => .error (.err .eperm)
  | some data =>
      if data.length = numBytes ∨ data = [] then
        .ok (data ++ buffer.drop data.length)
      else .error (.err .eperm)

----------
-- Records
----------

/-
  The arguments of `record_file_blocks`, in blocks. Disk block
  0 stands for a hole.
-/
structure FileExtent where
  fileBlock : Nat
  diskBlock : Nat
  numBlocks : Nat
deriving Repr, DecidableEq

/-
  What is added for a file: its extents, its inline data, and
  the blocks that are checksummed, with their bytes.
-/
structure Written where
  extents : List FileExtent
  inline : List (List UInt8)
  csums : List (Nat × List UInt8)

/-
  What the trees answer when something is inserted: an error,
  or none.
-/
abbrev TreeError : Type :=
  Written → Option Errno

section Records

variable (dev : Device)
variable (treeError : TreeError)

/- `btrfs_csum_file_block`. -/
def csumFileBlock
    (bytenr : Nat)
    (data : List UInt8)
    (w : Written) : Except Stop Written :=
  match treeError w with
  | some e => .error (.err e)
  | none => .ok { w with csums := w.csums ++ [(bytenr, data)] }

/-
  The loop of `csum_disk_extent`: some more blocks, all read
  into one buffer.
-/
def csumBlocks
    (diskBytenr : Nat)
    (buffer : List UInt8) :
    Nat → Written → Except Stop Written
  | 0, w => .ok w
  | n + 1, w =>
      match dev.readDiskExtent diskBytenr dev.sectorsize
          buffer with
      | .error e => .error e
      | .ok buffer =>
          match csumFileBlock treeError diskBytenr buffer w with
          | .error e => .error e
          | .ok w =>
              csumBlocks (diskBytenr + dev.sectorsize) buffer
                n w

/- `csum_disk_extent`, of a number of whole blocks. -/
def csumDiskExtent
    (diskBlock numBlocks : Nat)
    (w : Written) : Except Stop Written :=
  csumBlocks dev treeError (diskBlock * dev.sectorsize)
    (dev.malloc dev.sectorsize) numBlocks w

/- `record_file_blocks`. -/
def recordFileBlocks
    (checksum : Bool)
    (e : FileExtent)
    (w : Written) : Except Stop Written :=
  match treeError w with
  | some code => .error (.err code)
  | none =>
      let w := { w with extents := w.extents ++ [e] }
      if ¬ checksum then .ok w
      else
        csumDiskExtent dev treeError e.diskBlock e.numBlocks w

/- One after the other, up to an error. -/
def recordAll
    (checksum : Bool) :
    List FileExtent → Written → Except Stop Written
  | [], w => .ok w
  | e :: es, w =>
      match recordFileBlocks dev treeError checksum e w with
      | .error stop => .error stop
      | .ok w => recordAll checksum es w

----------
-- Runs of Blocks
----------

/- `struct blk_iterate_data`, as far as it changes. -/
structure BlkIterateData where
  firstBlock : Nat
  diskBlock : Nat
  numBlocks : Nat
  boundary : Nat
deriving Repr, DecidableEq

/- The pending run, if there is one. -/
def BlkIterateData.run
    (d : BlkIterateData) : List FileExtent :=
  if 0 < d.numBlocks then
    [⟨d.firstBlock, d.diskBlock, d.numBlocks⟩]
  else []

/- The hole between the pending run and a file block. -/
def BlkIterateData.hole
    (d : BlkIterateData)
    (fileBlock : Nat) : List FileExtent :=
  if d.firstBlock + d.numBlocks < fileBlock then
    [⟨d.firstBlock + d.numBlocks, 0,
      fileBlock - (d.firstBlock + d.numBlocks)⟩]
  else []

/-
  The block up to which a new run may go on: the end of the
  stripe of a superblock, or of the block group.
-/
def newBoundary
    (diskBlock : Nat) : Option Nat :=
  let bytenr := diskBlock * dev.sectorsize
  if intersectWithSb bytenr dev.sectorsize then
    some ((bytenr + (STRIPE_LEN - 1)) / STRIPE_LEN *
      STRIPE_LEN / dev.sectorsize)
  else
    (dev.lookupBlockGroup bytenr).map fun g =>
      (g.start + g.length) / dev.sectorsize

/- The pending run does not go on with a block. -/
def endsRun
    (d : BlkIterateData)
    (diskBlock fileBlock : Nat) : Bool :=
  (0 < d.numBlocks ∧
    (intersectWithSb (diskBlock * dev.sectorsize)
        dev.sectorsize ∨
      d.boundary ≤ diskBlock)) ∨
  d.firstBlock + d.numBlocks < fileBlock ∨
  diskBlock ≠ d.diskBlock + d.numBlocks

/- `block_iterate_proc`. -/
def blockIterateProc
    (checksum : Bool)
    (diskBlock fileBlock : Nat)
    (d : BlkIterateData)
    (w : Written) : Except Stop (BlkIterateData × Written) :=
  if endsRun dev d diskBlock fileBlock then
    match recordAll dev treeError checksum
        (d.run ++ d.hole fileBlock) w with
    | .error stop => .error stop
    | .ok w =>
        match newBoundary dev diskBlock with
        | none => .error .bug
        | some boundary =>
            .ok (⟨fileBlock, diskBlock, 1, boundary⟩, w)
  else .ok ({ d with numBlocks := d.numBlocks + 1 }, w)

/-
  `ext2fs_block_iterate2` with it, for the pairs of a file
  block and its disk block.
-/
def blockIterate
    (checksum : Bool) :
    List (Nat × Nat) → BlkIterateData → Written →
      Except Stop (BlkIterateData × Written)
  | [], d, w => .ok (d, w)
  | (fileBlock, diskBlock) :: pairs, d, w =>
      match blockIterateProc dev treeError checksum diskBlock
          fileBlock d w with
      | .error stop => .error stop
      | .ok (d, w) => blockIterate checksum pairs d w

/- At the start. The boundary is the largest `u64`. -/
def startData : BlkIterateData :=
  ⟨0, 0, 0, 2 ^ 64 - 1⟩

/- `last_block`, a `u32`. -/
def lastBlock
    (inodeSize : Nat) : Nat :=
  (inodeSize + dev.sectorsize - 1) / dev.sectorsize % 2 ^ 32

/- The file is small enough, and begins with a run. -/
def packs
    (packing : Bool)
    (inodeSize : Nat)
    (d : BlkIterateData) : Bool :=
  packing ∧ d.firstBlock = 0 ∧ 0 < d.numBlocks ∧
    inodeSize ≤ dev.maxInline

/-
  The data of a packed file. The number of bytes is cut to a
  `u32` for the read.
-/
def insertInline
    (inodeSize : Nat)
    (d : BlkIterateData)
    (w : Written) : Except Stop Written :=
  let numBytes := d.numBlocks * dev.sectorsize
  match dev.readDiskExtent (d.diskBlock * dev.sectorsize)
      (numBytes % 2 ^ 32) (dev.malloc numBytes) with
  | .error e => .error e
  | .ok buffer =>
      match treeError w with
      | some code => .error (.err code)
      | none =>
          .ok { w with
            inline := w.inline ++ [buffer.take inodeSize] }

/- `create_file_extents`. -/
def createFileExtents
    (datacsum packing : Bool)
    (inodeSize : Nat)
    (pairs : List (Nat × Nat))
    (w : Written) : Except Stop Written :=
  match blockIterate dev treeError datacsum pairs startData
      w with
  | .error stop => .error stop
  | .ok (d, w) =>
      let last :=
        if packs dev packing inodeSize d then
          insertInline dev treeError inodeSize d w
        else recordAll dev treeError datacsum d.run w
      match last with
      | .error stop => .error stop
      | .ok w =>
          recordAll dev treeError datacsum
            (d.hole (lastBlock dev inodeSize)) w

end Records

end Convert

end BtrfsProgs
