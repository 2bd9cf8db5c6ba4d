import BtrfsProgs.Lib.Record

/-
  The file of a metadump, as it is written and read by
  `btrfs-image.c`.

  Main declarations:
    * `addExtent` and `flushPending`
    * `dump`
    * `restoreMetadump`
-/

----------
-- Parts of the File
----------

namespace BtrfsProgs

namespace Image

open Record

def HEADER_MAGIC : Nat := 0xbd5c25e27295668b

def MAX_PENDING_SIZE : Nat := 256 * 1024

def BLOCK_SIZE : Nat := 1024

/- `sizeof(struct meta_cluster_header)`. -/
def HEADER_SIZE : Nat := 21

/- `sizeof(struct meta_cluster_item)`. -/
def ITEM_SIZE : Nat := 12

def ITEMS_PER_CLUSTER : Nat :=
  (BLOCK_SIZE - HEADER_SIZE) / ITEM_SIZE

def SUPER_INFO_OFFSET : Nat := 65536

/- The sizes of the buffers of the readers. -/
def SEARCH_SIZE : Nat := MAX_PENDING_SIZE * 2

def WORKER_SIZE : Nat := MAX_PENDING_SIZE * 4

/- A range of addresses, and whether it has file data. -/
structure Run where
  data : Bool
  start : Nat
  size : Nat
deriving Repr, DecidableEq

/- A call of `add_extent`. -/
structure Extent extends Run where
  in_space : start + size < 2 ^ 64

/- `struct async_work`, with `bufsize` bytes in its buffer. -/
structure AsyncWork where
  start : Nat
  size : Nat
  buffer : List UInt8
deriving Repr, DecidableEq

/-
  A cluster of the file: its header, the index block as it is
  written, the buffers and the zeros behind them.
-/
structure Cluster where
  bytenr : Nat
  compress : Bool
  index : List (Nat × Nat)
  works : List AsyncWork
  zeros : Nat

def Cluster.header
    (c : Cluster) : List (Nat × Nat) :=
  [(8, HEADER_MAGIC), (8, c.bytenr), (4, c.works.length),
    (1, if c.compress then 1 else 0)]

/- The items of an index block. -/
def indexFields
    (index : List (Nat × Nat)) : List (Nat × Nat) :=
  index.flatMap fun item => [(8, item.1), (4, item.2)]

/- The index block, which ends with 7 bytes of its own. -/
def Cluster.indexBlock
    (c : Cluster) : List UInt8 :=
  pack (c.header ++ indexFields c.index) ++
    List.replicate 7 0

def Cluster.encode
    (c : Cluster) : List UInt8 :=
  c.indexBlock ++ c.works.flatMap AsyncWork.buffer ++
    List.replicate c.zeros 0

----------
-- What Is Read and Packed
----------

/-
  The blocks and the file data of the filesystem, as
  `copy_buffer` and `read_data_extent` give them.
-/
structure Source where
  blocksize : Nat
  copyBuffer : Nat → Nat → List UInt8
  readDataExtent : Nat → Nat → List UInt8
  blocksize_pos : 0 < blocksize
  length_copyBuffer :
    ∀ start size, (copyBuffer start size).length = size
  length_readDataExtent :
    ∀ start size, (readDataExtent start size).length = size

/- `compressBound` of zlib. -/
def compressBound
    (n : Nat) : Nat :=
  n + n / 2 ^ 12 + n / 2 ^ 14 + n / 2 ^ 25 + 13

/-
  `compress2` at some level and `uncompress`, which fails if
  the buffer is too small.
-/
structure Zlib where
  compress : List UInt8 → List UInt8
  uncompress : Nat → List UInt8 → Option (List UInt8)
  inverse :
    ∀ bytes room, bytes.length ≤ room →
      uncompress room (compress bytes) = some bytes
  short :
    ∀ bytes room, room < bytes.length →
      uncompress room (compress bytes) = none
  bound :
    ∀ bytes, (compress bytes).length ≤
      compressBound bytes.length
  nonempty : ∀ bytes, compress bytes ≠ []

/- The tree blocks of a range, `blocksize` bytes at a time. -/
def readBlocks
    (src : Source) : Nat → Nat → Nat → List UInt8
  | 0, _, _ => []
  | fuel + 1, start, size =>
      if size = 0 then []
      else
        let thisRead := min src.blocksize size
        src.copyBuffer start thisRead ++
          readBlocks src fuel (start + thisRead)
            (size - thisRead)

/- What `flush_pending` reads for a range. -/
def contents
    (src : Source)
    (r : Run) : List UInt8 :=
  if r.data then src.readDataExtent r.start r.size
  else readBlocks src r.size r.start r.size

----------
-- Writing
----------

/- `struct metadump_struct`, with what was written. -/
structure Metadump where
  headerBytenr : Nat
  index : List (Nat × Nat)
  ordered : List AsyncWork
  pendingStart : Nat
  pendingSize : Nat
  data : Bool
  out : List Cluster

/- `metadump_init`. -/
def Metadump.init : Metadump where
  headerBytenr := 0
  index := List.replicate ITEMS_PER_CLUSTER (0, 0)
  ordered := []
  pendingStart := 2 ^ 64 - 1
  pendingSize := 0
  data := false
  out := []

section Write

variable (src : Source) (z : Zlib) (compress : Bool)

/-
  `write_buffers`, after all buffers are compressed; it gives
  the place of the next cluster.
-/
def writeBuffers
    (md : Metadump) : Metadump × Nat :=
  if md.ordered = [] then (md, 0)
  else
    let index :=
      md.ordered.map (fun async =>
        (async.start, async.buffer.length % 2 ^ 32)) ++
      md.index.drop md.ordered.length
    let bytenr :=
      (md.headerBytenr + BLOCK_SIZE +
        (md.ordered.map fun async =>
          async.buffer.length).sum) % 2 ^ 64
    let zeros :=
      if bytenr % BLOCK_SIZE = 0 then 0
      else BLOCK_SIZE - bytenr % BLOCK_SIZE
    ({ md with
        index := index
        ordered := []
        out := md.out ++
          [⟨md.headerBytenr, compress, index, md.ordered,
            zeros⟩] },
      (bytenr + zeros) % 2 ^ 64)

/- The pending range is read, and its buffer is queued. -/
def queuePending
    (md : Metadump) : Metadump :=
  if md.pendingSize = 0 then md
  else
    let bytes :=
      contents src ⟨md.data, md.pendingStart, md.pendingSize⟩
    { md with
      ordered := md.ordered ++
        [⟨md.pendingStart, md.pendingSize,
          if compress then z.compress bytes else bytes⟩]
      pendingStart := 2 ^ 64 - 1
      pendingSize := 0 }

/-
  `flush_pending`.  `num_items` is the number of buffers that
  are queued.
-/
def flushPending
    (md : Metadump)
    (done : Bool) : Metadump :=
  if md.pendingSize = 0 ∧ done = false then md
  else
    let md := queuePending src z compress md
    if ITEMS_PER_CLUSTER ≤ md.ordered.length ∨ done then
      let (md, start) := writeBuffers compress md
      { md with headerBytenr := start }
    else md

/- `add_extent`. -/
def addExtent
    (md : Metadump)
    (e : Extent) : Metadump :=
  let md :=
    if md.data ≠ e.data ∨
        MAX_PENDING_SIZE < (md.pendingSize + e.size) % 2 ^ 64 ∨
        (md.pendingStart + md.pendingSize) % 2 ^ 64 ≠
          e.start then
      { flushPending src z compress md false with
        pendingStart := e.start }
    else md
  { md with
    pendingSize := (md.pendingSize + e.size) % 2 ^ 64
    data := e.data }

/- Some calls of `add_extent` and the last flush. -/
def dump
    (extents : List Extent) : Metadump :=
  flushPending src z compress
    (extents.foldl (addExtent src z compress) .init) true

end Write

/- The bytes of the file. -/
def fileBytes
    (out : List Cluster) : List UInt8 :=
  out.flatMap Cluster.encode

----------
-- Reading
----------

section Read

variable (z : Zlib)

/- `restore_worker` unpacks a buffer. -/
def workerBuffer
    (compress : Bool)
    (buffer : List UInt8) : Option (List UInt8) :=
  if compress then z.uncompress WORKER_SIZE buffer
  else some buffer

/- `search_for_chunk_blocks` unpacks a buffer. -/
def searchBuffer
    (compress : Bool)
    (buffer : List UInt8) : Option (List UInt8) :=
  if SEARCH_SIZE < buffer.length then none
  else if compress then z.uncompress SEARCH_SIZE buffer
  else some buffer

/-
  `fill_mdres_info`, of which the size of a leaf is kept;
  `none` is an error.
-/
def fillMdresInfo
    (compress : Bool)
    (leafsize : Nat)
    (buffer : List UInt8) : Option Nat :=
  if leafsize ≠ 0 then some leafsize
  else if compress then
    (z.uncompress SEARCH_SIZE buffer).map fun outbuf =>
      field outbuf 152 4
  else some (field buffer 152 4)

/- The items of a cluster that are read one after another. -/
def addItems
    (cluster : List UInt8)
    (compress : Bool) :
    Nat → Nat → List UInt8 → Nat → Nat →
      Option
        (List (Nat × List UInt8) × List UInt8 × Nat × Nat)
  | 0, _, input, bytenr, leafsize =>
      some ([], input, bytenr, leafsize)
  | left + 1, i, input, bytenr, leafsize =>
      let start := field cluster (HEADER_SIZE + ITEM_SIZE * i) 8
      let bufsize :=
        field cluster (HEADER_SIZE + ITEM_SIZE * i + 8) 4
      if bufsize = 0 ∨ input.length < bufsize then none
      else
        let buffer := input.take bufsize
        match
          (if start = SUPER_INFO_OFFSET then
            fillMdresInfo z compress leafsize buffer
          else some leafsize) with
        | none => none
        | some leafsize =>
            (addItems cluster compress left (i + 1)
              (input.drop bufsize)
              ((bytenr + bufsize) % 2 ^ 64) leafsize).map
              fun (items, rest) =>
                ((start, buffer) :: items, rest)

/- `add_cluster`. -/
def addCluster
    (cluster input : List UInt8)
    (leafsize : Nat) :
    Option
      (List (Nat × List UInt8) × List UInt8 × Nat × Nat) :=
  let compress := decide (field cluster 20 1 = 1)
  let bytenr := (field cluster 8 8 + BLOCK_SIZE) % 2 ^ 64
  match addItems z cluster compress (field cluster 16 4) 0
      input bytenr leafsize with
  | none => none
  | some (items, input, bytenr, leafsize) =>
      if bytenr % BLOCK_SIZE = 0 then
        some (items, input, bytenr, leafsize)
      else
        let size := BLOCK_SIZE - bytenr % BLOCK_SIZE
        if input.length < size then none
        else
          some (items, input.drop size,
            (bytenr + size) % 2 ^ 64, leafsize)

/-
  The loop of `__restore_metadump` over the clusters; `none`
  is an error.
-/
def restoreMetadump :
    Nat → List UInt8 → Nat → Nat →
      Option (List (Nat × List UInt8))
  | 0, _, _, _ => none
  | fuel + 1, input, bytenr, leafsize =>
      if input.length < BLOCK_SIZE then some []
      else
        let cluster := input.take BLOCK_SIZE
        if field cluster 0 8 ≠ HEADER_MAGIC ∨
            field cluster 8 8 ≠ bytenr then none
        else
          match addCluster z cluster (input.drop BLOCK_SIZE)
              leafsize with
          | none => none
          | some (items, input, bytenr, leafsize) =>
              (restoreMetadump fuel input bytenr leafsize).map
                fun more => items ++ more

end Read

end Image

end BtrfsProgs
