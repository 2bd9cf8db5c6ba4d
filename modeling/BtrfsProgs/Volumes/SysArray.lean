import BtrfsProgs.Lib.RangeTree
import BtrfsProgs.Volumes.ChunkItem
import BtrfsProgs.Volumes.DataIo

/-
  The array of system chunks in the superblock, from
  `volumes.c`.

  Main declarations:
    * `addSystemChunk` and `readSysArray`
    * `readSysArray_spec`
    * `Kept` and `addSystemChunk_kept_iff`
-/

----------
-- Adding and Reading
----------

namespace BtrfsProgs

namespace Volumes

open RangeTree

/- `BTRFS_SYSTEM_CHUNK_ARRAY_SIZE`. -/
def SYSTEM_CHUNK_ARRAY_SIZE : Nat := 2048

/- `-EFBIG`. -/
def EFBIG : Int := -27

/-
  The size of the array in the superblock, and the bytes from
  the start of the array to the end of the superblock.
-/
structure SuperCopy where
  sysArraySize : Nat
  bytes : List UInt8
deriving Repr, DecidableEq

/- A key and a chunk as the callers pass them. -/
structure SysEntry where
  key : Key
  chunk : ChunkItem
  key_fits : Record.Fits (keyFields key)
  key_type : key.type = CHUNK_ITEM_KEY
  valid : chunk.Valid

def SysEntry.encode
    (e : SysEntry) : List UInt8 :=
  encodeKey e.key ++ e.chunk.encode

/-
  `btrfs_add_system_chunk`, with the size of the item as the
  callers give it.
-/
def addSystemChunk
    (s : SuperCopy)
    (e : SysEntry) : Int × SuperCopy :=
  let arraySize := s.sysArraySize
  let itemSize := e.chunk.encode.length
  if SYSTEM_CHUNK_ARRAY_SIZE < arraySize + itemSize then
    (EFBIG, s)
  else
    let bytes := memcpy s.bytes arraySize (encodeKey e.key)
    let bytes :=
      memcpy bytes (arraySize + DISK_KEY_SIZE) e.chunk.encode
    let itemSize := itemSize + DISK_KEY_SIZE
    (0, ⟨arraySize + itemSize, bytes⟩)

/- `struct map_lookup` as it is read, devices by their ids. -/
structure ReadMap where
  start : Nat
  size : Nat
  ioWidth : Nat
  ioAlign : Nat
  sectorSize : Nat
  stripeLen : Nat
  type : Nat
  subStripes : Nat
  stripes : List BioStripe
deriving Repr, DecidableEq

instance : Ranged ReadMap where
  lo map := map.start
  hi map := map.start + map.size

/-
  `read_one_chunk`: a chunk whose first byte is mapped is
  passed over; `none` is its `BUG_ON` for a chunk that meets
  another one.
-/
def readOneChunk
    (mapTree : List ReadMap)
    (key : Key)
    (chunk : ChunkItem) : Option (List ReadMap) :=
  let logical := key.offset
  let mapped :=
    match search mapTree logical with
    | some c =>
        decide (c.node.start ≤ logical ∧
          logical < c.node.start + c.node.size)
    | none => false
  if mapped then some mapTree
  else
    (RangeTree.insert mapTree
      ⟨logical, chunk.length, chunk.ioWidth, chunk.ioAlign,
        chunk.sectorSize, chunk.stripeLen, chunk.type,
        chunk.subStripes,
        chunk.stripes.map fun s => ⟨s.devid, s.offset⟩⟩).map
      Cursor.tree

/-
  The loop of `btrfs_read_sys_array` from a place on: what it
  reads, and where it stops.  Every turn moves on.
-/
def readFrom
    (bytes : List UInt8)
    (arrayEnd : Nat) :
    Nat → Nat → List ReadMap →
      Option (List (Key × ChunkItem) × Nat × List ReadMap)
  | 0, _, _ => none
  | fuel + 1, ptr, mapTree =>
      if arrayEnd ≤ ptr then some ([], ptr, mapTree)
      else
        let key := decodeKey (bytes.drop ptr)
        let ptr := ptr + DISK_KEY_SIZE
        if key.type = CHUNK_ITEM_KEY then
          let chunk := decodeChunk (bytes.drop ptr)
          match readOneChunk mapTree key chunk with
          | none => none
          | some mapTree =>
              match chunkItemSize
                  (chunkNumStripes (bytes.drop ptr)) with
              | none => none
              | some len =>
                  (readFrom bytes arrayEnd fuel (ptr + len)
                    mapTree).map
                    fun (es, stop, mapTree) =>
                      ((key, chunk) :: es, stop, mapTree)
        else none

/- `btrfs_read_sys_array`. -/
def readSysArray
    (s : SuperCopy)
    (mapTree : List ReadMap) :
    Option (List (Key × ChunkItem) × Nat × List ReadMap) :=
  readFrom s.bytes s.sysArraySize (s.sysArraySize + 1) 0
    mapTree

----------
-- Reading Back
----------

/- The bytes of some entries. -/
def encodeAll
    (es : List SysEntry) : List UInt8 :=
  es.flatMap SysEntry.encode

/- Some chunks are read, one after another. -/
def readAll :
    List SysEntry → List ReadMap → Option (List ReadMap)
  | [], mapTree => some mapTree
  | e :: es, mapTree =>
      (readOneChunk mapTree e.key e.chunk).bind (readAll es)

theorem SysEntry.length_encode
    (e : SysEntry) :
    e.encode.length =
      DISK_KEY_SIZE + e.chunk.encode.length := by
  rw [SysEntry.encode, List.length_append, length_encodeKey]

/- The loop reads the entries that are there. -/
theorem readFrom_spec
    {bytes rest : List UInt8}
    {es : List SysEntry}
    {fuel ptr : Nat}
    (mapTree : List ReadMap)
    (hBytes : bytes.drop ptr = encodeAll es ++ rest)
    (hFuel : es.length < fuel) :
    readFrom bytes (ptr + (encodeAll es).length) fuel ptr
        mapTree =
      (readAll es mapTree).map fun tree =>
        (es.map fun e => (e.key, e.chunk),
          ptr + (encodeAll es).length, tree) := by
  induction es generalizing fuel ptr mapTree with
  | nil =>
      obtain ⟨fuel, rfl⟩ :=
        Nat.exists_eq_succ_of_ne_zero (Nat.ne_of_gt
          (Nat.lt_of_le_of_lt (Nat.zero_le _) hFuel))
      simp [readFrom, readAll, encodeAll]
  | cons e es ih =>
      obtain ⟨fuel, rfl⟩ :=
        Nat.exists_eq_succ_of_ne_zero (Nat.ne_of_gt
          (Nat.lt_of_le_of_lt (Nat.zero_le _) hFuel))
      have hAll : encodeAll (e :: es) =
          encodeKey e.key ++
            (e.chunk.encode ++ encodeAll es) := by
        simp [encodeAll, SysEntry.encode]
      have hKeyLen := length_encodeKey e.key
      have hSize := e.valid.length_encode
      have hNum : chunkNumStripes
          (e.chunk.encode ++ (encodeAll es ++ rest)) =
            e.chunk.stripes.length := by
        have hDecode := decodeChunk_encode
          (encodeAll es ++ rest) e.valid
        have hLength := congrArg
          (fun c => c.stripes.length) hDecode
        simpa [decodeChunk] using hLength
      have hHere : bytes.drop ptr =
          encodeKey e.key ++ (e.chunk.encode ++
            (encodeAll es ++ rest)) := by
        rw [hBytes, hAll]
        simp
      have hChunk : bytes.drop (ptr + DISK_KEY_SIZE) =
          e.chunk.encode ++ (encodeAll es ++ rest) := by
        rw [← List.drop_drop, hHere,
          List.drop_left' hKeyLen]
      have hNext : bytes.drop (ptr + DISK_KEY_SIZE +
          e.chunk.encode.length) = encodeAll es ++ rest := by
        rw [← List.drop_drop, hChunk, List.drop_left' rfl]
      have hEnd : ptr + (encodeAll (e :: es)).length =
          ptr + DISK_KEY_SIZE + e.chunk.encode.length +
            (encodeAll es).length := by
        rw [hAll, List.length_append, List.length_append,
          hKeyLen]
        omega
      rw [hEnd, readFrom, if_neg (by
        unfold DISK_KEY_SIZE
        omega)]
      dsimp only
      rw [hHere, hChunk, decodeKey_encodeKey _ e.key_fits,
        decodeChunk_encode _ e.valid, hNum, hSize,
        if_pos e.key_type, readAll]
      cases hOne : readOneChunk mapTree e.key e.chunk with
      | none => rfl
      | some tree =>
          dsimp only
          rw [ih tree hNext (Nat.lt_of_succ_lt_succ hFuel),
            Option.bind_some, Option.map_map]
          rfl

/- The array has these entries, and is read back to them. -/
structure Holds
    (s : SuperCopy)
    (stored : List SysEntry) : Prop where
  bytes : s.bytes.take s.sysArraySize = encodeAll stored
  size : s.sysArraySize = (encodeAll stored).length
  bound : s.sysArraySize ≤ SYSTEM_CHUNK_ARRAY_SIZE
  read :
    ∀ mapTree, readSysArray s mapTree =
      (readAll stored mapTree).map fun tree =>
        (stored.map fun e => (e.key, e.chunk),
          s.sysArraySize, tree)

theorem length_le_encodeAll
    (es : List SysEntry) :
    es.length ≤ (encodeAll es).length := by
  induction es with
  | nil => exact Nat.le_refl 0
  | cons e es ih =>
      have hSize := e.length_encode
      simp only [encodeAll, List.flatMap_cons,
        List.length_append, List.length_cons] at ih ⊢
      unfold DISK_KEY_SIZE at hSize
      omega

theorem readSysArray_spec
    {s : SuperCopy}
    {stored : List SysEntry}
    (hBytes :
      s.bytes.take s.sysArraySize = encodeAll stored)
    (hSize : s.sysArraySize = (encodeAll stored).length)
    (mapTree : List ReadMap) :
    readSysArray s mapTree =
      (readAll stored mapTree).map fun tree =>
        (stored.map fun e => (e.key, e.chunk),
          s.sysArraySize, tree) := by
  have hLength := length_le_encodeAll stored
  have hSplit : s.bytes.drop 0 =
      encodeAll stored ++ s.bytes.drop s.sysArraySize := by
    rw [List.drop_zero, ← hBytes, List.take_append_drop]
  have hFuel : stored.length < s.sysArraySize + 1 := by
    omega
  have hRead := readFrom_spec mapTree hSplit hFuel
  rw [Nat.zero_add, ← hSize] at hRead
  exact hRead

----------
-- Runs
----------

/-
  Every call of a sequence adds its entry or leaves the array
  as it is, and the array is read back after every call.
-/
def Kept :
    SuperCopy → List SysEntry → List SysEntry → Prop
  | s, stored, [] => Holds s stored
  | s, stored, e :: calls =>
      Holds s stored ∧
        ∃ ret s', addSystemChunk s e = (ret, s') ∧
          (ret = 0 ∧ Kept s' (stored ++ [e]) calls ∨
            ret < 0 ∧ s' = s ∧ Kept s' stored calls)

/-
  The size of a chunk is not one that passes the check of the
  array's capacity without its key.
-/
def Clear
    (arraySize : Nat)
    (e : SysEntry) : Prop :=
  arraySize + DISK_KEY_SIZE + e.chunk.encode.length ≤
      SYSTEM_CHUNK_ARRAY_SIZE ∨
    SYSTEM_CHUNK_ARRAY_SIZE <
      arraySize + e.chunk.encode.length

/- Every call of a sequence is clear. -/
def AllClear : Nat → List SysEntry → Prop
  | _, [] => True
  | arraySize, e :: calls =>
      Clear arraySize e ∧
        if SYSTEM_CHUNK_ARRAY_SIZE <
            arraySize + e.chunk.encode.length then
          AllClear arraySize calls
        else
          AllClear (arraySize + DISK_KEY_SIZE +
            e.chunk.encode.length) calls

/- The block has room behind the array for a key. -/
def RoomBehind
    (s : SuperCopy) : Prop :=
  SYSTEM_CHUNK_ARRAY_SIZE + DISK_KEY_SIZE ≤ s.bytes.length

section Call

variable {s : SuperCopy} {stored : List SysEntry}
variable {e : SysEntry}

/- A call that is refused. -/
theorem addSystemChunk_full
    (hFull :
      SYSTEM_CHUNK_ARRAY_SIZE <
        s.sysArraySize + e.chunk.encode.length) :
    addSystemChunk s e = (EFBIG, s) :=
  if_pos hFull

/- A call that is not refused puts the bytes at the end. -/
theorem addSystemChunk_room
    (hRoom :
      s.sysArraySize + e.chunk.encode.length ≤
        SYSTEM_CHUNK_ARRAY_SIZE)
    (hBlock : RoomBehind s) :
    ∃ s', addSystemChunk s e = (0, s') ∧
      s'.sysArraySize =
        s.sysArraySize + DISK_KEY_SIZE +
          e.chunk.encode.length ∧
      s'.bytes.length = s.bytes.length ∧
      s'.bytes.take s'.sysArraySize =
        s.bytes.take s.sysArraySize ++ e.encode := by
  have hKey := length_encodeKey e.key
  unfold RoomBehind at hBlock
  refine ⟨_, if_neg (by omega), ?_, ?_, ?_⟩
  · dsimp only
    omega
  · dsimp only
    unfold memcpy
    simp only [List.length_append, List.length_take,
      List.length_drop, hKey]
    omega
  · dsimp only
    have hFirst : (s.bytes.take s.sysArraySize ++
        encodeKey e.key).length =
          s.sysArraySize + DISK_KEY_SIZE := by
      rw [List.length_append, List.length_take_of_le
        (by omega), hKey]
    have hSecond : (s.bytes.take s.sysArraySize ++
        encodeKey e.key ++ e.chunk.encode).length =
          s.sysArraySize +
            (e.chunk.encode.length + DISK_KEY_SIZE) := by
      rw [List.length_append, hFirst]
      omega
    unfold memcpy
    rw [List.take_left' hFirst, List.take_left' hSecond,
      List.append_assoc]
    rfl

/- The array after a call that is not refused. -/
theorem Holds.add
    (hHolds : Holds s stored)
    (hBlock : RoomBehind s)
    (hRoom :
      s.sysArraySize + DISK_KEY_SIZE +
          e.chunk.encode.length ≤
        SYSTEM_CHUNK_ARRAY_SIZE) :
    ∃ s', addSystemChunk s e = (0, s') ∧
      s'.sysArraySize =
        s.sysArraySize + DISK_KEY_SIZE +
          e.chunk.encode.length ∧
      RoomBehind s' ∧ Holds s' (stored ++ [e]) := by
  obtain ⟨s', hAdd, hSize, hLength, hBytes⟩ :=
    addSystemChunk_room (e := e) (by omega) hBlock
  have hAll : encodeAll (stored ++ [e]) =
      encodeAll stored ++ e.encode := by
    simp [encodeAll]
  rw [hHolds.bytes, ← hAll] at hBytes
  have hEnd : s'.sysArraySize =
      (encodeAll (stored ++ [e])).length := by
    rw [hAll, List.length_append, ← hHolds.size,
      e.length_encode, hSize]
    omega
  refine ⟨s', hAdd, hSize, ?_, hBytes, hEnd, by omega,
    readSysArray_spec hBytes hEnd⟩
  unfold RoomBehind at hBlock ⊢
  omega

end Call

theorem Holds.kept
    {s : SuperCopy}
    {stored calls : List SysEntry}
    (hHolds : Holds s stored)
    (hBlock : RoomBehind s)
    (hClear : AllClear s.sysArraySize calls) :
    Kept s stored calls := by
  induction calls generalizing s stored with
  | nil => exact hHolds
  | cons e calls ih =>
      refine ⟨hHolds, ?_⟩
      rcases hClear with ⟨hClear, hRest⟩
      by_cases hFull : SYSTEM_CHUNK_ARRAY_SIZE <
          s.sysArraySize + e.chunk.encode.length
      · rw [if_pos hFull] at hRest
        exact ⟨EFBIG, s, addSystemChunk_full hFull,
          Or.inr ⟨by decide, rfl, ih hHolds hBlock hRest⟩⟩
      · rw [if_neg hFull] at hRest
        have hRoom := hClear.resolve_right hFull
        obtain ⟨s', hAdd, hSize, hBlock', hHolds'⟩ :=
          hHolds.add hBlock hRoom
        rw [← hSize] at hRest
        exact ⟨0, s', hAdd,
          Or.inl ⟨rfl, ih hHolds' hBlock' hRest⟩⟩

/- The array is in bounds before every sequence of calls. -/
theorem Kept.holds
    {s : SuperCopy}
    {stored calls : List SysEntry}
    (hKept : Kept s stored calls) :
    Holds s stored := by
  cases calls with
  | nil => exact hKept
  | cons e calls => exact hKept.1

theorem Kept.allClear
    {s : SuperCopy}
    {stored calls : List SysEntry}
    (hBlock : RoomBehind s)
    (hKept : Kept s stored calls) :
    AllClear s.sysArraySize calls := by
  induction calls generalizing s stored with
  | nil => trivial
  | cons e calls ih =>
      rcases hKept with ⟨hHolds, ret, s', hAdd, hNext⟩
      by_cases hFull : SYSTEM_CHUNK_ARRAY_SIZE <
          s.sysArraySize + e.chunk.encode.length
      · refine ⟨Or.inr hFull, ?_⟩
        rw [if_pos hFull]
        rw [addSystemChunk_full hFull] at hAdd
        cases hAdd
        rcases hNext with ⟨hZero, _⟩ | ⟨_, _, hNext⟩
        · exact absurd hZero (by decide)
        · exact ih hBlock hNext
      · obtain ⟨t, hAdd', hSize, hLength, _⟩ :=
          addSystemChunk_room (e := e)
            (Nat.le_of_not_lt hFull) hBlock
        rw [hAdd'] at hAdd
        cases hAdd
        rcases hNext with ⟨_, hNext⟩ | ⟨hNeg, _⟩
        · have hBound := hNext.holds.bound
          refine ⟨Or.inl (by omega), ?_⟩
          rw [if_neg hFull, ← hSize]
          apply ih _ hNext
          unfold RoomBehind at hBlock ⊢
          omega
        · exact absurd hNeg (by decide)

/-
  From an array that holds some entries, every call of a
  sequence does its work exactly if no chunk passes the check
  of the capacity without its key.
-/
theorem addSystemChunk_kept_iff
    {s : SuperCopy}
    {stored : List SysEntry}
    (calls : List SysEntry)
    (hHolds : Holds s stored)
    (hBlock : RoomBehind s) :
    Kept s stored calls ↔ AllClear s.sysArraySize calls :=
  ⟨Kept.allClear hBlock, hHolds.kept hBlock⟩

/- A chunk at address zero that has a number of stripes. -/
def mirroredEntry
    (n : Nat)
    (hPos : 0 < n)
    (hFits : n < 65536) : SysEntry where
  key := ⟨256, CHUNK_ITEM_KEY, 0⟩
  chunk :=
    ⟨4194304, 2, 65536, 2, 4096, 4096, 4096, 1,
      List.replicate n ⟨1, 1048576, List.replicate 16 0⟩⟩
  key_fits := by
    unfold Record.Fits keyFields
    decide
  key_type := rfl
  valid := by
    refine ⟨?_, ?_, ?_⟩
    · simp [Record.Fits, ChunkItem.fields, hFits]
    · simp [Nat.ne_of_gt hPos]
    · intro t ht
      rw [List.eq_of_mem_replicate ht]
      refine ⟨?_, rfl⟩
      unfold Record.Fits Stripe.fields
      decide

theorem mirroredEntry_length
    {n : Nat}
    (hPos : 0 < n)
    (hFits : n < 65536) :
    (mirroredEntry n hPos hFits).chunk.encode.length =
      48 + 32 * n := by
  have hSize := (mirroredEntry n hPos hFits).valid.length_encode
  have hCount :
      (mirroredEntry n hPos hFits).chunk.stripes.length = n :=
    List.length_replicate
  rw [hCount, chunkItemSize, if_neg (by omega)] at hSize
  injection hSize with hSize
  unfold CHUNK_SIZE STRIPE_SIZE at hSize
  omega

/- An array without entries. -/
def emptyArray : SuperCopy :=
  ⟨0, List.replicate 2720 0⟩

theorem emptyArray_size :
    emptyArray.sysArraySize = 0 :=
  rfl

theorem emptyArray_holds :
    Holds emptyArray [] :=
  ⟨rfl, rfl, by decide, readSysArray_spec rfl rfl⟩

theorem emptyArray_room :
    RoomBehind emptyArray := by
  unfold RoomBehind emptyArray
  rw [List.length_replicate]
  decide

/- Two chunks of two stripes are added to an empty array. -/
theorem addSystemChunk_kept_twice :
    Kept emptyArray []
      [mirroredEntry 2 (by decide) (by decide),
        mirroredEntry 2 (by decide) (by decide)] := by
  apply (addSystemChunk_kept_iff _ emptyArray_holds
    emptyArray_room).mpr
  simp [AllClear, Clear, mirroredEntry_length, emptyArray_size,
    SYSTEM_CHUNK_ARRAY_SIZE, DISK_KEY_SIZE]

/- A chunk of 62 stripes passes the check without its key. -/
theorem addSystemChunk_not_kept :
    ¬ ∀ (s : SuperCopy) (stored calls : List SysEntry),
      Holds s stored → RoomBehind s → Kept s stored calls := by
  intro hAll
  have hKept := hAll emptyArray []
    [mirroredEntry 62 (by decide) (by decide)]
    emptyArray_holds emptyArray_room
  have hClear := Kept.allClear emptyArray_room hKept
  simp [AllClear, Clear, mirroredEntry_length, emptyArray_size,
    SYSTEM_CHUNK_ARRAY_SIZE, DISK_KEY_SIZE] at hClear

end Volumes

end BtrfsProgs
