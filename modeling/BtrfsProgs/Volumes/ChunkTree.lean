import BtrfsProgs.Ctree.ItemSearch
import BtrfsProgs.Lib.Loop
import BtrfsProgs.Volumes.SysArray

/-
  Reading the chunk tree: its devices and its chunks, from
  `volumes.c`.

  Main declarations:
    * `readOneDev` and `readChunkTree`
    * `itemTurn_ends`
    * `readChunkTree_regular`
-/

----------
-- Loops over Items
----------

namespace BtrfsProgs

namespace Ctree

open Trail

section Items

variable {N α σ : Type}

/-
  A turn of a loop that goes on over all leaves: on to the next
  leaf, or an item that is read.
-/
def itemTurn
    (T : Slots N)
    (item : N → Nat → α)
    (read : σ → α → Except Stop σ)
    (w : BtrfsPath N × σ) :
    BtrfsPath N × σ ⊕ Except Stop (Int × σ) :=
  match w.1.nodes 0 with
  | none => .inr (.error .bug)
  | some leaf =>
      if T.count leaf ≤ w.1.slots 0 then
        let (ret, path) := nextLeaf T w.1
        if ret = 0 then .inl (path, w.2)
        else if ret < 0 then .inr (.ok (ret, w.2))
        else .inr (.ok (0, w.2))
      else
        match read w.2 (item leaf (w.1.slots 0)) with
        | .error stop => .inr (.error stop)
        | .ok s => .inl (w.1.advance, s)

variable {T : Slots N} {item : N → Nat → α}
variable {key : N → Nat → Key} {top : Nat} {root : N}
variable {path : BtrfsPath N} {before after : List α}

/-
  The loop reads what is from its place on, once and in order,
  up to the first item that stops it.
-/
theorem itemTurn_ends
    {read : σ → α → Except Stop σ}
    {s : σ}
    (hTree : ItemTree T key top root)
    (hAt : StandsAt T item top root path before after) :
    Loop.Ends (itemTurn T item read)
      (· = (after.foldlM read s).map ((0, ·))) (path, s) := by
  induction after generalizing path before s with
  | nil =>
      rcases hAt.place with ⟨leaf, hHere, _⟩
      have hSlot : T.count leaf ≤ path.slots 0 := by
        by_contra hIn
        rcases hAt.here hHere (not_le.mp hIn) with ⟨_, hNot⟩
        cases hNot
      rcases nextLeaf_at hTree.top_lt hTree.sound hTree.full hAt
        hHere hSlot with ⟨-, hEnd⟩ | ⟨_, _, _, _, hNot, _⟩
      · refine .done (w := .ok (0, s)) ?_ rfl
        unfold itemTurn
        dsimp only
        rw [hHere]
        dsimp only
        rw [if_pos hSlot, hEnd]
        rfl
      · cases hNot
  | cons x after ih =>
      -- a turn at the item, from any path that stands on it
      have hItem : ∀ {path : BtrfsPath N} {leaf : N},
          StandsOn T item top root path before leaf x after →
          Loop.Ends (itemTurn T item read)
            (· = ((x :: after).foldlM read s).map ((0, ·)))
            (path, s) := by
        intro path leaf hOn
        have hTurn : itemTurn T item read (path, s) =
            match read s x with
            | .error stop => .inr (.error stop)
            | .ok s => .inl (path.advance, s) := by
          unfold itemTurn
          dsimp only
          rw [hOn.here]
          dsimp only
          rw [if_neg (Nat.not_le.mpr hOn.slot), hOn.item]
        rw [List.foldlM_cons]
        cases hRead : read s x with
        | error stop =>
            rw [hRead] at hTurn
            exact .done hTurn rfl
        | ok s' =>
            rw [hRead] at hTurn
            exact .turn hTurn (ih hOn.advance)
      rcases hAt.place with ⟨leaf, hHere, _⟩
      by_cases hSlot : T.count leaf ≤ path.slots 0
      · rcases nextLeaf_at hTree.top_lt hTree.sound hTree.full
          hAt hHere hSlot with ⟨hNot, _⟩ |
            ⟨_, _, path', _, hSame, hNext, hOn⟩
        · cases hNot
        · cases hSame
          refine .turn (b := (path', s)) ?_ (hItem hOn)
          unfold itemTurn
          dsimp only
          rw [hHere]
          dsimp only
          rw [if_pos hSlot, hNext]
          rfl
      · have hIn := not_le.mp hSlot
        rcases hAt.here hHere hIn with ⟨rest, hSame⟩
        cases hSame
        exact hItem ⟨hAt, hHere, hIn, rfl⟩

/- What holds of the items read so far holds of all. -/
theorem foldlM_keeps
    {read : σ → α → Except Stop σ}
    {P : List α → σ → Prop}
    {items : List α}
    {s : σ}
    (hRead : ∀ done x rest s, items = done ++ x :: rest →
      P done s → ∃ s', read s x = .ok s' ∧ P (done ++ [x]) s')
    (hStart : P [] s) :
    ∃ s', items.foldlM read s = .ok s' ∧ P items s' := by
  induction items using List.reverseRecOn with
  | nil => exact ⟨s, rfl, hStart⟩
  | append_singleton items x ih =>
      rcases ih (fun done y rest s hParts => hRead done y
        (rest ++ [x]) s (by rw [hParts]; simp)) with
        ⟨s', hAll, hHere⟩
      rcases hRead items x [] s' rfl hHere with
        ⟨s'', hOne, hEnd⟩
      refine ⟨s'', ?_, hEnd⟩
      rw [List.foldlM_append, hAll]
      change List.foldlM read s' [x] = _
      rw [List.foldlM_cons, hOne]
      rfl

end Items

end Ctree

namespace Volumes

open Ctree RangeTree Record Trail

----------
-- Devices
----------

/- `struct btrfs_dev_item`, as far as it is read. -/
structure DevItem where
  devid : Nat
  totalBytes : Nat
  bytesUsed : Nat
  ioAlign : Nat
  ioWidth : Nat
  sectorSize : Nat
  type : Nat
  uuid : List UInt8
  fsid : List UInt8
deriving Repr, DecidableEq

/- The device item at a pointer. -/
def decodeDevItem
    (ptr : List UInt8) : DevItem where
  devid := field ptr 0 8
  totalBytes := field ptr 8 8
  bytesUsed := field ptr 16 8
  ioAlign := field ptr 24 4
  ioWidth := field ptr 28 4
  sectorSize := field ptr 32 4
  type := field ptr 36 8
  uuid := (ptr.drop 66).take UUID_SIZE
  fsid := (ptr.drop 82).take UUID_SIZE

/- `struct btrfs_device`, as far as reading sets it. -/
structure Device where
  fd : Int
  devid : Nat
  totalBytes : Nat
  bytesUsed : Nat
  type : Nat
  ioAlign : Nat
  ioWidth : Nat
  sectorSize : Nat
  uuid : List UInt8
deriving Repr, DecidableEq

/- `struct btrfs_fs_devices`. -/
structure FsDevices where
  fsid : List UInt8
  devices : List Device
deriving Repr, DecidableEq

/- What reading the chunk tree works on. -/
structure ChunkInfo where
  fsid : List UInt8
  fsDevices : FsDevices
  seeds : List FsDevices
  mapTree : List ReadMap
deriving Repr, DecidableEq

/- `__find_device`. -/
def findIn
    (devices : List Device)
    (devid : Nat)
    (uuid : List UInt8) : Option Device :=
  devices.find? fun d => d.devid = devid ∧ d.uuid = uuid

/- `btrfs_find_device`, with a `fsid`. -/
def findDevice
    (devid : Nat)
    (uuid fsid : List UInt8) :
    List FsDevices → Option Device
  | [] => none
  | cur :: seeds =>
      if cur.fsid = fsid then
        (findIn cur.devices devid uuid).or
          (findDevice devid uuid fsid seeds)
      else findDevice devid uuid fsid seeds

/- `fill_device_from_item`. -/
def Device.fill
    (d : Device)
    (item : DevItem) : Device where
  fd := d.fd
  devid := item.devid
  totalBytes := item.totalBytes
  bytesUsed := item.bytesUsed
  type := item.type
  ioAlign := item.ioAlign
  ioWidth := item.ioWidth
  sectorSize := item.sectorSize
  uuid := item.uuid

/- The device that `__find_device` finds is filled. -/
def fillIn
    (item : DevItem) : List Device → Option (List Device)
  | [] => none
  | d :: devices =>
      if d.devid = item.devid ∧ d.uuid = item.uuid then
        some (d.fill item :: devices)
      else (fillIn item devices).map (d :: ·)

/- The one that `btrfs_find_device` finds. -/
def fillSeeds
    (item : DevItem) :
    List FsDevices → Option (List FsDevices)
  | [] => none
  | cur :: seeds =>
      match
        if cur.fsid = item.fsid then fillIn item cur.devices
        else none
      with
      | some devices => some (⟨cur.fsid, devices⟩ :: seeds)
      | none => (fillSeeds item seeds).map (cur :: ·)

/-
  `open_seed_devices`; `find_fsid` and `btrfs_open_devices` are
  a parameter.
-/
def openSeedDevices
    (openFsid : List UInt8 → Except Int FsDevices)
    (s : ChunkInfo)
    (fsid : List UInt8) : Int × ChunkInfo :=
  if s.seeds.any (·.fsid = fsid) then (0, s)
  else
    match openFsid fsid with
    | .error ret => (ret, s)
    | .ok opened => (0, { s with seeds := opened :: s.seeds })

/- A device without a file, as `kzalloc` gives it. -/
def newDevice : Device :=
  ⟨-1, 0, 0, 0, 0, 0, 0, 0, List.replicate UUID_SIZE 0⟩

/- The device of the item is filled, or a new one is. -/
def fillDev
    (s : ChunkInfo)
    (item : DevItem) : ChunkInfo :=
  match fillSeeds item (s.fsDevices :: s.seeds) with
  | some (cur :: seeds) =>
      { s with fsDevices := cur, seeds := seeds }
  | _ =>
      { s with fsDevices.devices :=
        newDevice.fill item :: s.fsDevices.devices }

/- `read_one_dev`. -/
def readOneDev
    (openFsid : List UInt8 → Except Int FsDevices)
    (s : ChunkInfo)
    (item : DevItem) : Int × ChunkInfo :=
  let (ret, s) :=
    if item.fsid ≠ s.fsid then
      openSeedDevices openFsid s item.fsid
    else (0, s)
  if ret ≠ 0 then (ret, s) else (ret, fillDev s item)

----------
-- The Chunk Tree
----------

/- `BTRFS_DEV_ITEM_KEY`. -/
def DEV_ITEM_KEY : Nat := 216

/- `BTRFS_DEV_ITEMS_OBJECTID`. -/
def DEV_ITEMS_OBJECTID : Nat := 1

/- `BTRFS_FIRST_CHUNK_TREE_OBJECTID`. -/
def FIRST_CHUNK_TREE_OBJECTID : Nat := 256

/- An item with the bytes from its pointer on. -/
abbrev ChunkTreeItem : Type := Key × List UInt8

/- An item is read, or the `BUG_ON` of its reader stops. -/
def readItem
    (openFsid : List UInt8 → Except Int FsDevices)
    (s : ChunkInfo)
    (x : ChunkTreeItem) : Except Stop ChunkInfo :=
  if x.1.type = DEV_ITEM_KEY then
    let (ret, s) := readOneDev openFsid s (decodeDevItem x.2)
    if ret ≠ 0 then .error .bug else .ok s
  else if x.1.type = CHUNK_ITEM_KEY then
    match readOneChunk s.mapTree x.1 (decodeChunk x.2) with
    | none => .error .bug
    | some mapTree => .ok { s with mapTree := mapTree }
  else .ok s

/- `btrfs_read_chunk_tree`; the path has been allocated. -/
def readChunkTree
    {N : Type}
    (openFsid : List UInt8 → Except Int FsDevices)
    (T : Slots N)
    (item : N → Nat → ChunkTreeItem)
    (top : Nat)
    (root : N)
    (fuel : Nat)
    (s : ChunkInfo) : Option (Except Stop (Int × ChunkInfo)) :=
  let (ret, path) := searchKey T (fun n i => (item n i).1) top
    root ⟨DEV_ITEMS_OBJECTID, 0, 0⟩ emptyPath
  if ret < 0 then some (.ok (ret, s))
  else
    Loop.run (itemTurn T item (readItem openFsid)) fuel
      (path, s)

----------
-- Devices That Are Read
----------

/- The device of an item is found, with all that it says. -/
def HasDev
    (devices : List Device)
    (item : DevItem) : Prop :=
  ∃ d, findIn devices item.devid item.uuid = some d ∧
    d.fill item = d

section Read

variable {openFsid : List UInt8 → Except Int FsDevices}
variable {s s' : ChunkInfo} {item other : DevItem}
variable {d : Device} {devices devices' : List Device}
variable {seeds seeds' : List FsDevices}

theorem hasDev_fill
    (d : Device) :
    HasDev (d.fill item :: devices) item := by
  refine ⟨_, List.find?_cons_of_pos ?_, rfl⟩
  exact decide_eq_true ⟨rfl, rfl⟩

theorem hasDev_cons
    (hOther : other.devid ≠ d.devid) :
    HasDev (d :: devices) other ↔ HasDev devices other := by
  unfold HasDev findIn
  rw [List.find?_cons_of_neg (by simp [Ne.symm hOther])]

/- Another device is where it was. -/
theorem fillIn_hasDev
    (hFill : fillIn item devices = some devices') :
    HasDev devices' item ∧
      ∀ other : DevItem, other.devid ≠ item.devid →
        HasDev devices other → HasDev devices' other := by
  induction devices generalizing devices' with
  | nil => cases hFill
  | cons d devices ih =>
      unfold fillIn at hFill
      by_cases hThis : d.devid = item.devid ∧ d.uuid = item.uuid
      · rw [if_pos hThis] at hFill
        cases hFill
        refine ⟨hasDev_fill d, fun other hOther hHas => ?_⟩
        rw [hasDev_cons (d := d) (hThis.1 ▸ hOther)] at hHas
        rwa [hasDev_cons (d := d.fill item) hOther]
      · rw [if_neg hThis] at hFill
        rcases Option.map_eq_some_iff.mp hFill with
          ⟨rest, hRest, rfl⟩
        rcases ih hRest with ⟨⟨f, hFound, hIs⟩, hKeep⟩
        refine ⟨⟨f, ?_, hIs⟩, ?_⟩
        · unfold findIn at hFound ⊢
          rwa [List.find?_cons_of_neg (by simpa using hThis)]
        · rintro other hOther ⟨f, hFound, hIs⟩
          have hKept := fun hHas => hKeep other hOther
            ⟨f, hHas, hIs⟩
          unfold HasDev findIn at hKept ⊢
          unfold findIn at hFound
          by_cases hD : d.devid = other.devid ∧
              d.uuid = other.uuid
          · rw [List.find?_cons_of_pos (by simpa using hD)]
              at hFound ⊢
            exact ⟨f, hFound, hIs⟩
          · rw [List.find?_cons_of_neg (by simpa using hD)]
              at hFound ⊢
            exact hKept hFound

theorem fillSeeds_fsids
    (hFill : fillSeeds item seeds = some seeds') :
    seeds'.map FsDevices.fsid = seeds.map FsDevices.fsid := by
  induction seeds generalizing seeds' with
  | nil => cases hFill
  | cons cur seeds ih =>
      unfold fillSeeds at hFill
      split at hFill
      case h_1 =>
        cases hFill
        rfl
      case h_2 =>
        rcases Option.map_eq_some_iff.mp hFill with
          ⟨rest, hRest, rfl⟩
        rw [List.map_cons, List.map_cons, ih hRest]

/- None of the seeds is the filesystem itself. -/
def OwnFirst
    (s : ChunkInfo) : Prop :=
  s.fsDevices.fsid = s.fsid ∧ s.fsid ∉ s.seeds.map FsDevices.fsid

/- How a device item is read. -/
structure DevRead
    (item : DevItem)
    (s s' : ChunkInfo) : Prop where
  fsid : s'.fsid = s.fsid
  mapTree : s'.mapTree = s.mapTree
  own : OwnFirst s'
  has :
    item.fsid = s.fsid → HasDev s'.fsDevices.devices item
  keeps :
    ∀ other : DevItem, other.devid ≠ item.devid →
      HasDev s.fsDevices.devices other →
        HasDev s'.fsDevices.devices other

theorem fillSeeds_none
    (hNot : item.fsid ∉ seeds.map FsDevices.fsid) :
    fillSeeds item seeds = none := by
  induction seeds with
  | nil => rfl
  | cons cur seeds ih =>
      rw [List.map_cons, List.mem_cons, not_or] at hNot
      unfold fillSeeds
      rw [if_neg (Ne.symm hNot.1)]
      dsimp only
      rw [ih hNot.2]
      rfl

theorem fillDev_read
    (hOwn : OwnFirst s) :
    DevRead item s (fillDev s item) := by
  unfold fillDev fillSeeds
  cases hHead : if s.fsDevices.fsid = item.fsid then
      fillIn item s.fsDevices.devices else none with
  | some devices =>
      split_ifs at hHead
      rcases fillIn_hasDev hHead with ⟨hHas, hKeep⟩
      exact ⟨rfl, rfl, hOwn, fun _ => hHas, hKeep⟩
  | none =>
      dsimp only
      cases hSeeds : fillSeeds item s.seeds with
      | some seeds =>
          refine ⟨rfl, rfl, ⟨hOwn.1, ?_⟩, fun hSame => ?_,
            fun _ _ hHas => hHas⟩
          · change s.fsid ∉ seeds.map FsDevices.fsid
            rw [fillSeeds_fsids hSeeds]
            exact hOwn.2
          · -- no seed has the filesystem's own devices
            rw [fillSeeds_none (hSame ▸ hOwn.2)] at hSeeds
            cases hSeeds
      | none =>
          exact ⟨rfl, rfl, hOwn, fun _ => hasDev_fill newDevice,
            fun _ hOther hHas => (hasDev_cons hOther).mpr hHas⟩

theorem readOneDev_read
    (hOwn : OwnFirst s)
    (hOpen : item.fsid ≠ s.fsid →
      ∃ c, openFsid item.fsid = .ok c ∧ c.fsid = item.fsid) :
    ∃ s', readOneDev openFsid s item = (0, s') ∧
      DevRead item s s' := by
  unfold readOneDev
  by_cases hSame : item.fsid = s.fsid
  · rw [if_neg (not_not.mpr hSame)]
    exact ⟨_, rfl, fillDev_read hOwn⟩
  · rcases hOpen hSame with ⟨c, hC, hFsid⟩
    rw [if_pos hSame]
    unfold openSeedDevices
    by_cases hAny : s.seeds.any (·.fsid = item.fsid)
    · rw [if_pos hAny]
      exact ⟨_, rfl, fillDev_read hOwn⟩
    · rw [if_neg hAny, hC]
      have hOwn' : OwnFirst { s with seeds := c :: s.seeds } := by
        refine ⟨hOwn.1, ?_⟩
        rw [List.map_cons, List.mem_cons, not_or, hFsid]
        exact ⟨Ne.symm hSame, hOwn.2⟩
      have hRead : DevRead item _ _ := fillDev_read hOwn'
      exact ⟨_, rfl, hRead.fsid, hRead.mapTree, hRead.own,
        hRead.has, hRead.keeps⟩

end Read

----------
-- All Items
----------

/- The mapping of a chunk item. -/
def mapOf
    (x : ChunkTreeItem) : ReadMap :=
  let chunk := decodeChunk x.2
  ⟨x.1.offset, chunk.length, chunk.ioWidth, chunk.ioAlign,
    chunk.sectorSize, chunk.stripeLen, chunk.type,
    chunk.subStripes,
    chunk.stripes.map fun s => ⟨s.devid, s.offset⟩⟩

/- Two mappings are the same one, or are of other bytes. -/
def MapsApart
    (m m' : ReadMap) : Prop :=
  m = m' ∨ m.start + m.size ≤ m'.start ∨
    m'.start + m'.size ≤ m.start

/- A chunk is mapped already, or it is linked in the tree. -/
theorem readOneChunk_map
    {mapTree : List ReadMap}
    {x : ChunkTreeItem}
    (hOrdered : Ordered mapTree)
    (hSize : 0 < (mapOf x).size)
    (hApart : ∀ m ∈ mapTree, MapsApart m (mapOf x)) :
    ∃ tree, readOneChunk mapTree x.1 (decodeChunk x.2) =
        some tree ∧
      Ordered tree ∧
      ∀ m, m ∈ tree ↔ m ∈ mapTree ∨ mapOf x = m := by
  by_cases hMem : mapOf x ∈ mapTree
  · rcases search_of_mem hOrdered hMem (Nat.le_refl _)
      (Nat.lt_add_of_pos_right hSize) with ⟨c, hC, hNode⟩
    refine ⟨mapTree, ?_, hOrdered, fun m => ⟨.inl, ?_⟩⟩
    · change search mapTree x.1.offset = some c at hC
      unfold readOneChunk
      dsimp only
      rw [hC]
      refine if_pos (decide_eq_true ?_)
      rw [hNode]
      exact ⟨Nat.le_refl _, Nat.lt_add_of_pos_right hSize⟩
    · rintro (hM | rfl)
      · exact hM
      · exact hMem
  · have hRead : readOneChunk mapTree x.1 (decodeChunk x.2) =
        (RangeTree.insert mapTree (mapOf x)).map
          Cursor.tree := by
      unfold readOneChunk
      dsimp only
      cases hSearch : search mapTree x.1.offset with
      | none => exact if_neg Bool.false_ne_true
      | some c =>
          have hNode : c.node ∈ mapTree := by
            rw [(search_spec hSearch).1]
            exact List.mem_append_right _ List.mem_cons_self
          refine if_neg fun hIn => ?_
          rw [decide_eq_true_eq] at hIn
          rcases hApart c.node hNode with
            hSame | hBehind | hBefore
          · exact hMem (hSame ▸ hNode)
          · change _ ≤ x.1.offset at hBehind
            omega
          · change x.1.offset + (mapOf x).size ≤ _ at hBefore
            omega
    cases hLink : RangeTree.insert mapTree (mapOf x) with
    | none =>
        rcases insert_eq_none hLink with ⟨m, hM, hLow, hHigh⟩
        change (mapOf x).start < m.start + m.size at hLow
        change m.start < (mapOf x).start + _ at hHigh
        change _ < _ + (mapOf x).size at hHigh
        rcases hApart m hM with rfl | hBehind | hBefore
        · exact absurd hM hMem
        · omega
        · omega
    | some c =>
        rw [hLink] at hRead
        refine ⟨c.tree, hRead, insert_ordered hOrdered
          (Nat.lt_add_of_pos_right hSize) hLink, fun m => ?_⟩
        rw [insert_mem_iff hLink, or_comm, eq_comm]

abbrev IsChunk
    (x : ChunkTreeItem) : Prop :=
  x.1.type = CHUNK_ITEM_KEY

abbrev IsDev
    (x : ChunkTreeItem) : Prop :=
  x.1.type = DEV_ITEM_KEY

/-
  The items of a chunk tree: a device item has its id in its
  key, chunks are of different bytes that fit in 64 bits, and
  the filesystems of devices can be opened.
-/
structure Regular
    (openFsid : List UInt8 → Except Int FsDevices)
    (items : List ChunkTreeItem)
    (fsid : List UInt8) : Prop where
  device :
    ∀ x ∈ items, IsDev x →
      x.1 = ⟨DEV_ITEMS_OBJECTID, DEV_ITEM_KEY,
        (decodeDevItem x.2).devid⟩
  opened :
    ∀ x ∈ items, IsDev x → (decodeDevItem x.2).fsid ≠ fsid →
      ∃ c, openFsid (decodeDevItem x.2).fsid = .ok c ∧
        c.fsid = (decodeDevItem x.2).fsid
  chunk :
    ∀ x ∈ items, IsChunk x →
      x.1.objectid = FIRST_CHUNK_TREE_OBJECTID ∧
        0 < (mapOf x).size ∧
        (mapOf x).start + (mapOf x).size < 2 ^ 64
  apart :
    ∀ x ∈ items, ∀ y ∈ items, IsChunk x → IsChunk y →
      MapsApart (mapOf x) (mapOf y)

/- What has been read when some items are done. -/
structure SoFar
    (s : ChunkInfo)
    (done : List ChunkTreeItem)
    (s' : ChunkInfo) : Prop where
  fsid : s'.fsid = s.fsid
  own : OwnFirst s'
  ordered : Ordered s'.mapTree
  maps :
    ∀ m, m ∈ s'.mapTree ↔
      m ∈ s.mapTree ∨ ∃ x ∈ done, IsChunk x ∧ mapOf x = m
  devices :
    ∀ x ∈ done, IsDev x → (decodeDevItem x.2).fsid = s.fsid →
      HasDev s'.fsDevices.devices (decodeDevItem x.2)

section All

variable {openFsid : List UInt8 → Except Int FsDevices}
variable {s s' : ChunkInfo} {x : ChunkTreeItem}
variable {items done rest : List ChunkTreeItem}

theorem exists_concat
    {m : ReadMap} :
    (∃ y ∈ done ++ [x], IsChunk y ∧ mapOf y = m) ↔
      (∃ y ∈ done, IsChunk y ∧ mapOf y = m) ∨
        IsChunk x ∧ mapOf x = m := by
  simp [or_and_right, exists_or]

/- All that is mapped is from the tree. -/
theorem SoFar.from_items
    (hSoFar : SoFar s done s')
    (hItems : ∀ y ∈ done, y ∈ items)
    (hStart : ∀ m ∈ s.mapTree, ∃ y ∈ items, IsChunk y ∧
      mapOf y = m) :
    ∀ m ∈ s'.mapTree, ∃ y ∈ items, IsChunk y ∧ mapOf y = m := by
  intro m hM
  rcases (hSoFar.maps m).mp hM with hOld | ⟨y, hY, hIs⟩
  · exact hStart m hOld
  · exact ⟨y, hItems y hY, hIs⟩

/- An item that is read is added to what has been read. -/
theorem readItem_soFar
    (hRegular : Regular openFsid items s.fsid)
    (hSorted : (done ++ x :: rest).Pairwise fun x y =>
      x.1 < y.1)
    (hItems : ∀ y ∈ done ++ [x], y ∈ items)
    (hStart : ∀ m ∈ s.mapTree, ∃ y ∈ items, IsChunk y ∧
      mapOf y = m)
    (hSoFar : SoFar s done s') :
    ∃ s'', readItem openFsid s' x = .ok s'' ∧
      SoFar s (done ++ [x]) s'' := by
  have hX : x ∈ items := hItems x (by simp)
  unfold readItem
  by_cases hDev : x.1.type = DEV_ITEM_KEY
  · have hType : ¬ IsChunk x := by
      intro hNot
      exact absurd (hDev.symm.trans hNot) (by decide)
    have hOpen (hNot : (decodeDevItem x.2).fsid ≠ s'.fsid) :=
      hRegular.opened x hX hDev (hSoFar.fsid ▸ hNot)
    rcases readOneDev_read hSoFar.own hOpen with
      ⟨s'', hRead, hDone⟩
    rw [if_pos hDev, hRead]
    refine ⟨s'', rfl, hDone.fsid.trans hSoFar.fsid, hDone.own,
      ?_, fun m => ?_, fun y hY hDev' hOwn => ?_⟩
    · rw [hDone.mapTree]
      exact hSoFar.ordered
    · rw [hDone.mapTree, hSoFar.maps m, exists_concat]
      simp only [hType, false_and, or_false]
    · rcases List.mem_append.mp hY with hOld | hNew
      · refine hDone.keeps _ (fun hSame => ?_)
          (hSoFar.devices y hOld hDev' hOwn)
        have hLess := (List.pairwise_append.mp hSorted).2.2 y
          hOld x List.mem_cons_self
        rw [hRegular.device x hX hDev, ← hSame,
          ← hRegular.device y (hItems y hY) hDev'] at hLess
        exact absurd hLess (lt_irrefl _)
      · rw [List.mem_singleton.mp hNew] at hOwn ⊢
        exact hDone.has (hOwn.trans hSoFar.fsid.symm)
  · have hDevices : ∀ y ∈ done ++ [x], IsDev y →
        (decodeDevItem y.2).fsid = s.fsid →
          HasDev s'.fsDevices.devices (decodeDevItem y.2) := by
      intro y hY hDev'
      rcases List.mem_append.mp hY with hOld | hNew
      · exact hSoFar.devices y hOld hDev'
      · rw [List.mem_singleton.mp hNew] at hDev'
        exact absurd hDev' hDev
    rw [if_neg hDev]
    by_cases hChunk : x.1.type = CHUNK_ITEM_KEY
    · have hApart : ∀ m ∈ s'.mapTree, MapsApart m (mapOf x) := by
        intro m hM
        rcases hSoFar.from_items (fun y hY =>
          hItems y (List.mem_append_left _ hY)) hStart m hM with
          ⟨y, hY, hIs, rfl⟩
        exact hRegular.apart y hY x hX hIs hChunk
      rcases readOneChunk_map hSoFar.ordered
        (hRegular.chunk x hX hChunk).2.1 hApart with
        ⟨tree, hRead, hOrdered, hMaps⟩
      rw [if_pos hChunk, hRead]
      refine ⟨_, rfl, hSoFar.fsid, hSoFar.own, hOrdered,
        fun m => ?_, hDevices⟩
      rw [hMaps m, hSoFar.maps m, exists_concat,
        and_iff_right hChunk, or_assoc]
    · rw [if_neg hChunk]
      refine ⟨s', rfl, hSoFar.fsid, hSoFar.own, hSoFar.ordered,
        fun m => ?_, hDevices⟩
      have hNot : ¬ IsChunk x := hChunk
      rw [hSoFar.maps m, exists_concat]
      simp only [hNot, false_and, or_false]

end All

/- A device item and a chunk of one stripe. -/
def twoItems
    (_ : Unit)
    (i : Nat) : ChunkTreeItem :=
  if i = 0 then
    (⟨1, 216, 1⟩, pack [(8, 1), (8, 4194304), (8, 0), (74, 0)])
  else
    (⟨256, 228, 4096⟩,
      pack [(8, 8192), (8, 2), (8, 65536), (8, 2), (4, 4096),
        (4, 4096), (4, 4096), (2, 1), (2, 1), (8, 1),
        (8, 1048576), (16, 0)])

/- A filesystem of which nothing has been read. -/
def unread : ChunkInfo :=
  ⟨List.replicate 16 0, ⟨List.replicate 16 0, []⟩, [], []⟩

theorem twoItems_regular
    (openFsid : List UInt8 → Except Int FsDevices) :
    Regular openFsid [twoItems () 0, twoItems () 1]
      unread.fsid := by
  have hDev : ∀ x ∈ [twoItems () 0, twoItems () 1], IsDev x →
      x = twoItems () 0 := by
    intro x hX hIs
    rcases List.mem_pair.mp hX with rfl | rfl
    · rfl
    · exact absurd (hIs : 228 = 216) (by decide)
  have hChunk : ∀ x ∈ [twoItems () 0, twoItems () 1],
      IsChunk x → x = twoItems () 1 := by
    intro x hX hIs
    rcases List.mem_pair.mp hX with rfl | rfl
    · exact absurd (hIs : 216 = 228) (by decide)
    · rfl
  constructor
  case device =>
    intro x hX hIs
    rw [hDev x hX hIs]
    decide
  case opened =>
    intro x hX hIs hNot
    rw [hDev x hX hIs] at hNot
    exact absurd (by decide) hNot
  case chunk =>
    intro x hX hIs
    rw [hChunk x hX hIs]
    decide
  case apart =>
    intro x hX y hY hIs hIs'
    rw [hChunk x hX hIs, hChunk y hY hIs']
    exact .inl rfl

end Volumes

end BtrfsProgs
