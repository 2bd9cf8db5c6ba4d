import BtrfsProgs.Crc32c
import BtrfsProgs.Lib.Checked
import BtrfsProgs.Lib.Loop
import BtrfsProgs.Volumes.Layout

/-
  The search for the root of a tree in the metadata chunks,
  from `btrfs-find-root.c`.

  Memory is taken to be there. A read of no bytes leaves
  `read_physical` as it was, so that its loop has no end.

  Main declarations:
    * `Query` and `Fs`
    * `searchIobuf`, `readPhysical` and `findRoot`
    * `Found`, `Overruns` and `searchBlocks_spec`
    * `readLoop_eq`
-/

----------
-- The Functions
----------

namespace BtrfsProgs

namespace FindRoot

open Checked Record RangeTree Volumes

/- The values of the options. -/
structure Query where
  search_objectid : Nat
  search_generation : Nat
  search_level : Nat

def headerBytenr
    (block : List UInt8) : Nat :=
  field block 48 8

def headerGeneration
    (block : List UInt8) : Nat :=
  field block 80 8

def headerOwner
    (block : List UInt8) : Nat :=
  field block 88 8

def headerLevel
    (block : List UInt8) : Nat :=
  field block 100 1

/- `csum_block`, for a checksum of 4 bytes. -/
def csumBlock
    (block : List UInt8) : Int :=
  if block.take 4 = LittleEndian.encode 4
      (~~~crc32c (-1) (block.drop 32)).toNat then 0 else 1

/-
  A turn of the loop of `search_iobuf`: the level to go on
  with, or none at the root.
-/
def searchBlock
    (q : Query)
    (size : Nat)
    (iobuf : List UInt8)
    (offset block_off level : Nat) :
    Except Fault (Option Nat) := do
  let h_byte ← read iobuf (block_off + 48) 8
  let h_owner ← read iobuf (block_off + 88) 8
  let h_level ← read iobuf (block_off + 100) 1
  let h_gen ← read iobuf (block_off + 80) 8
  if h_owner ≠ q.search_objectid then return some level
  else if h_byte ≠ offset + block_off then return some level
  else if h_level < level then return some level
  else do
    let block ← readBytes iobuf block_off size
    if csumBlock block ≠ 0 then return some h_level
    else if h_gen ≠ q.search_generation then
      return some h_level
    else return none

/- The loop from a block on. -/
def searchBlocks
    (q : Query)
    (size : Nat)
    (hSize : 0 < size)
    (iobuf : List UInt8)
    (offset block_off level : Nat) : Except Fault Int :=
  if block_off < iobuf.length then
    match searchBlock q size iobuf offset block_off level with
    | .error fault => .error fault
    | .ok none => .ok 0
    | .ok (some level) =>
        searchBlocks q size hSize iobuf offset
          (block_off + size) level
  else .ok 1
termination_by iobuf.length - block_off

/- A device that is open. -/
structure Device where
  bytes : List UInt8
  short : bytes.length < 2 ^ 63

/- A chunk of the map, and its flag of metadata. -/
structure MapChunk extends Chunk where
  metadata : Bool

instance : Ranged MapChunk where
  lo c := c.start
  hi c := c.start + c.size

/- Of `struct btrfs_fs_info`, with the devices by their ids. -/
structure Fs where
  chunks : List MapChunk
  ordered : Ordered chunks
  nodesize : Nat
  headerFits : 101 ≤ nodesize
  total_bytes : Nat
  device : Nat → Option Device

def Fs.mapping_tree
    (fs : Fs) : List MapLookup :=
  fs.chunks.map (·.toMapLookup)

/- `search_iobuf`. -/
def searchIobuf
    (fs : Fs)
    (q : Query)
    (iobuf : List UInt8)
    (offset : Nat) : Except Fault Int :=
  searchBlocks q fs.nodesize
    (Nat.lt_of_lt_of_le (by decide) fs.headerFits)
    iobuf offset 0 (q.search_level % 256)

/- The most that one `pread64` gives. -/
def MAX_RW_COUNT : Nat := 0x7ffff000

/- `pread64`: of no device, or before its start, it fails. -/
def pread
    (device : Option Device)
    (count offset : Nat) : Option (List UInt8) :=
  match device with
  | none => none
  | some device =>
      if 2 ^ 63 ≤ offset then none
      else some ((device.bytes.drop offset).take
        (min count MAX_RW_COUNT))

/- The loop of `read_physical`, with what is read so far. -/
def readLoop
    (device : Option Device)
    (bytenr len : Nat)
    (iobuf : List UInt8) :
    Except Fault (Option (List UInt8)) :=
  if iobuf.length < len then
    match pread device (len - iobuf.length)
        (bytenr + iobuf.length) with
    | none => .ok none
    | some [] => .error .endless
    | some (first :: rest) =>
        readLoop device bytenr len (iobuf ++ first :: rest)
  else .ok (some iobuf)
termination_by len - iobuf.length
decreasing_by
  rw [List.length_append, List.length_cons]
  omega

def readPhysical
    (fs : Fs)
    (q : Query)
    (dev offset bytenr len : Nat) : Except Fault Int :=
  match readLoop (fs.device dev) bytenr len [] with
  | .error fault => .error fault
  | .ok none => .ok (-1)
  | .ok (some iobuf) => searchIobuf fs q iobuf offset

/- `btrfs_next_metadata`. -/
def nextMetadata
    (fs : Fs)
    (logical : Nat) : Option MapChunk :=
  match search fs.chunks logical with
  | none => none
  | some ce => ce.after.find? (·.metadata)

/- The variables of the loop of `find_root`. -/
structure State where
  offset : Nat
  metadata_offset : Nat
  metadata_size : Nat

/- On to the next chunk at the end of one. -/
def enter
    (fs : Fs)
    (s : State) : Option State :=
  if s.metadata_offset + s.metadata_size ≤ s.offset then
    (nextMetadata fs s.metadata_offset).map fun c =>
      ⟨c.start, c.start, c.size⟩
  else some s

/- The flag of the chunk that is mapped. -/
def typeMetadata
    (fs : Fs)
    (logical : Nat) : Bool :=
  (search fs.chunks logical).any (·.node.metadata)

/- A turn of the loop of `find_root`. -/
def findRootTurn
    (fs : Fs)
    (q : Query)
    (s : State) : State ⊕ Except Fault Int :=
  if fs.total_bytes < s.offset then .inr (.ok 1)
  else
    match enter fs s with
    | none => .inr (.ok 1)
    | some s =>
        match mapBlock fs.mapping_tree .READ s.offset 0
            false with
        | .error .bug => .inr (.error .assertion)
        | .error (.err _) =>
            .inl { s with offset := s.offset + 4096 }
        | .ok r =>
            let next :=
              { s with offset := s.offset + r.length }
            if typeMetadata fs s.offset = false then .inl next
            else
              match r.stripes with
              | [] => .inr (.error .outside)
              | stripe :: _ =>
                  match readPhysical fs q stripe.dev s.offset
                      stripe.physical r.length with
                  | .error fault => .inr (.error fault)
                  | .ok err =>
                      if err ≤ 0 then .inr (.ok err)
                      else .inl next

/- `find_root`, for some turns of its loop. -/
def findRoot
    (fs : Fs)
    (q : Query)
    (fuel : Nat) : Option (Except Fault Int) :=
  match nextMetadata fs 0 with
  | none => some (.ok 1)
  | some c =>
      Loop.run (findRootTurn fs q) fuel
        ⟨c.start, c.start, c.size⟩

----------
-- Blocks of a Buffer
----------

/- A block with the owner, at its own address. -/
def Own
    (q : Query)
    (addr : Nat)
    (block : List UInt8) : Prop :=
  headerOwner block = q.search_objectid ∧
    headerBytenr block = addr

/- A block that is looked for, from some level up. -/
structure Valid
    (q : Query)
    (level addr : Nat)
    (block : List UInt8) : Prop where
  own : Own q addr block
  high : level ≤ headerLevel block
  csum : csumBlock block = 0
  generation : headerGeneration block = q.search_generation

/-
  No block with the owner before another one has a level that
  is higher, of those from some level up.
-/
def Unhidden
    (q : Query)
    (addr : Nat → Nat)
    (block : Nat → List UInt8)
    (level k j : Nat) : Prop :=
  ∀ i, k ≤ i → i < j → Own q (addr i) (block i) →
    level ≤ headerLevel (block i) →
      headerLevel (block i) ≤ headerLevel (block j)

/-
  A block with the owner at its own address, of some level or
  higher, that no block from a place on hides.
-/
def Shown
    (q : Query)
    (addr : Nat → Nat)
    (block : Nat → List UInt8)
    (level k j : Nat) : Prop :=
  Own q (addr j) (block j) ∧ level ≤ headerLevel (block j) ∧
    Unhidden q addr block level k j

/- A block from a place on that is shown is the root. -/
def Found
    (q : Query)
    (addr : Nat → Nat)
    (block : Nat → List UInt8)
    (m k level : Nat) : Prop :=
  ∃ j, k ≤ j ∧ j < m ∧ Shown q addr block level k j ∧
    csumBlock (block j) = 0 ∧
    headerGeneration (block j) = q.search_generation

/-
  Behind the last whole block there are some bytes more: too
  few for a header, or those of a block that is shown.
-/
def Overruns
    (q : Query)
    (addr : Nat → Nat)
    (block : Nat → List UInt8)
    (m k level rest : Nat) : Prop :=
  0 < rest ∧ (rest < 101 ∨ Shown q addr block level k m)

section Blocks

variable {q : Query}
variable {addr : Nat → Nat} {block : Nat → List UInt8}
variable {m k j level level' size offset rest : Nat}
variable {iobuf : List UInt8}

/- No candidate: the search goes on with the level it has. -/
theorem shown_skip
    (hNot : ¬ (Own q (addr k) (block k) ∧
      level ≤ headerLevel (block k)))
    (j : Nat) :
    Shown q addr block level k j ↔
      Shown q addr block level (k + 1) j := by
  refine and_congr_right fun _ => and_congr_right fun _ => ?_
  constructor
  · exact fun hShown i hi => hShown i (by omega)
  · intro hShown i hi hBefore hOwn hHigh
    rcases Nat.eq_or_lt_of_le hi with rfl | hLater
    · exact absurd ⟨hOwn, hHigh⟩ hNot
    · exact hShown i hLater hBefore hOwn hHigh

/- A candidate that is rejected raises the level. -/
theorem shown_raise
    (hOwn : Own q (addr k) (block k))
    (hHigh : level ≤ headerLevel (block k))
    (j : Nat)
    (hLater : k < j) :
    Shown q addr block level k j ↔
      Shown q addr block (headerLevel (block k)) (k + 1)
        j := by
  constructor
  · rintro ⟨hHere, hLevel, hShown⟩
    exact ⟨hHere,
      hShown k (Nat.le_refl k) hLater hOwn hHigh,
      fun i hi hBefore hOther hMore =>
        hShown i (by omega) hBefore hOther (by omega)⟩
  · rintro ⟨hHere, hLevel, hShown⟩
    refine ⟨hHere, by omega, ?_⟩
    intro i hi hBefore hOther hMore
    rcases Nat.eq_or_lt_of_le hi with rfl | hNext
    · exact hLevel
    · by_cases hRaised :
          headerLevel (block k) ≤ headerLevel (block i)
      · exact hShown i hNext hBefore hOther hRaised
      · omega

/- One block on, with what is shown behind it. -/
theorem found_step
    (hNext : ∀ j, k < j →
      (Shown q addr block level k j ↔
        Shown q addr block level' (k + 1) j))
    (hNot : ¬ (Shown q addr block level k k ∧
      csumBlock (block k) = 0 ∧
      headerGeneration (block k) = q.search_generation)) :
    Found q addr block m k level ↔
      Found q addr block m (k + 1) level' := by
  constructor
  · rintro ⟨j, hFrom, hTo, hShown, hRoot⟩
    have hNe : k ≠ j := by
      rintro rfl
      exact hNot ⟨hShown, hRoot⟩
    exact ⟨j, by omega, hTo,
      (hNext j (by omega)).mp hShown, hRoot⟩
  · rintro ⟨j, hFrom, hTo, hShown, hRoot⟩
    exact ⟨j, by omega, hTo,
      (hNext j (by omega)).mpr hShown, hRoot⟩

theorem overruns_step
    (hNext : ∀ j, k < j →
      (Shown q addr block level k j ↔
        Shown q addr block level' (k + 1) j))
    (hMore : k < m) :
    Overruns q addr block m k level rest ↔
      Overruns q addr block m (k + 1) level' rest := by
  unfold Overruns
  rw [hNext m hMore]

theorem field_take
    {bytes : List UInt8}
    {place w n : Nat}
    (hLe : place + w ≤ n) :
    field (bytes.take n) place w = field bytes place w := by
  unfold field
  rw [List.drop_take, List.take_take,
    Nat.min_eq_left (by omega)]

/- A block of a buffer. -/
def blockOf
    (iobuf : List UInt8)
    (size k : Nat) : List UInt8 :=
  (iobuf.drop (k * size)).take size

/- A field of the header of a block, if it is there. -/
theorem read_header
    {place w : Nat}
    (hHeader : 101 ≤ size)
    (hIn : k * size + 101 ≤ iobuf.length)
    (hLe : place + w ≤ 101) :
    read iobuf (k * size + place) w =
      .ok (field (blockOf iobuf size k) place w) := by
  unfold blockOf
  rw [read_eq (by omega), field_take (by omega), field_drop]

/-
  A turn on a block with its header in the buffer; the rest of
  it is read for the checksum only.
-/
theorem searchBlock_eq
    (hHeader : 101 ≤ size)
    (hIn : k * size + 101 ≤ iobuf.length) :
    searchBlock q size iobuf offset (k * size) level =
      if headerOwner (blockOf iobuf size k) ≠
          q.search_objectid then .ok (some level)
      else if headerBytenr (blockOf iobuf size k) ≠
          offset + k * size then .ok (some level)
      else if headerLevel (blockOf iobuf size k) < level then
        .ok (some level)
      else if iobuf.length < k * size + size then
        .error .outside
      else if csumBlock (blockOf iobuf size k) ≠ 0 then
        .ok (some (headerLevel (blockOf iobuf size k)))
      else if headerGeneration (blockOf iobuf size k) ≠
          q.search_generation then
        .ok (some (headerLevel (blockOf iobuf size k)))
      else .ok none := by
  have hField : ∀ place w, place + w ≤ 101 →
      read iobuf (k * size + place) w =
        .ok (field (blockOf iobuf size k) place w) :=
    fun place w hLe => read_header hHeader hIn hLe
  have hBytes : readBytes iobuf (k * size) size =
      if iobuf.length < k * size + size then .error .outside
      else .ok (blockOf iobuf size k) := by
    unfold readBytes
    by_cases hCut : iobuf.length < k * size + size
    · rw [if_pos hCut, if_neg (not_le.mpr hCut)]
    · rw [if_neg hCut, if_pos (not_lt.mp hCut)]
      rfl
  unfold searchBlock
  rw [hField 48 8 (by decide), hField 88 8 (by decide),
    hField 100 1 (by decide), hField 80 8 (by decide), hBytes]
  unfold headerOwner headerBytenr headerLevel
    headerGeneration
  by_cases hCut : iobuf.length < k * size + size
  · rw [if_pos hCut, if_pos hCut]
    rfl
  · rw [if_neg hCut, if_neg hCut]
    rfl

/- A turn on bytes that are too few for a header. -/
theorem searchBlock_short
    (hShort : iobuf.length < k * size + 101) :
    searchBlock q size iobuf offset (k * size) level =
      .error .outside := by
  have hLevel : read iobuf (k * size + 100) 1 =
      .error .outside :=
    Checked.read_outside (by omega)
  have hEither : ∀ place w,
      (∃ n, read iobuf place w = .ok n) ∨
        read iobuf place w = .error .outside := by
    intro place w
    unfold Checked.read
    split
    · exact .inl ⟨_, rfl⟩
    · exact .inr rfl
  unfold searchBlock
  rcases hEither (k * size + 48) 8 with ⟨n, hByte⟩ | hNone
  · rcases hEither (k * size + 88) 8 with ⟨n, hOwner⟩ | hNone
    · rw [hByte, hOwner, hLevel]
      rfl
    · rw [hByte, hNone]
      rfl
  · rw [hNone]
    rfl

/-
  The loop returns 0 exactly where it comes to the root, and
  leaves the buffer where a block that is cut off overruns it.
-/
theorem searchBlocks_spec
    (q : Query)
    (offset level : Nat)
    (hSize : 0 < size)
    (hHeader : 101 ≤ size)
    (hLen : iobuf.length = m * size + rest)
    (hRest : rest < size)
    (hFrom : k ≤ m) :
    let addr := fun i => offset + i * size
    let run := searchBlocks q size hSize iobuf offset
      (k * size) level
    let found := Found q addr (blockOf iobuf size) m k level
    let overruns :=
      Overruns q addr (blockOf iobuf size) m k level rest
    found ∧ run = .ok 0 ∨
      ¬ found ∧ overruns ∧ run = .error .outside ∨
      ¬ found ∧ ¬ overruns ∧ run = .ok 1 := by
  dsimp only
  induction hLeft : m - k generalizing k level with
  | zero =>
      have hEnd : k = m := by omega
      subst hEnd
      have hNone : ¬ Found q (fun i => offset + i * size)
          (blockOf iobuf size) k k level := by
        rintro ⟨j, hLow, hHigh, -⟩
        omega
      have hBehind : ∀ level,
          searchBlocks q size hSize iobuf offset
            (k * size + size) level = .ok 1 := by
        intro level
        rw [searchBlocks, if_neg (by omega)]
      refine .inr ?_
      by_cases hMore : 0 < rest
      swap
      · refine .inr ⟨hNone, fun hOver => hMore hOver.1, ?_⟩
        rw [searchBlocks, if_neg (by omega)]
      rw [searchBlocks, if_pos (by omega)]
      by_cases hShort : rest < 101
      · rw [searchBlock_short (by omega)]
        exact .inl ⟨hNone, ⟨hMore, .inl hShort⟩, rfl⟩
      rw [searchBlock_eq hHeader (by omega)]
      by_cases hCandidate :
          Own q (offset + k * size) (blockOf iobuf size k) ∧
            level ≤ headerLevel (blockOf iobuf size k)
      · rcases hCandidate with ⟨hOwn, hHigh⟩
        rw [if_neg (not_not.mpr hOwn.1),
          if_neg (not_not.mpr hOwn.2),
          if_neg (not_lt.mpr hHigh), if_pos (by omega)]
        exact .inl ⟨hNone, ⟨hMore, .inr ⟨hOwn, hHigh,
          fun i hi hBefore => by omega⟩⟩, rfl⟩
      · refine .inr ⟨hNone, ?_, ?_⟩
        · rintro ⟨-, hFew | ⟨hOwn, hHigh, -⟩⟩
          · exact hShort hFew
          · exact hCandidate ⟨hOwn, hHigh⟩
        · by_cases hOwner :
              headerOwner (blockOf iobuf size k) =
                q.search_objectid
          · rw [if_neg (not_not.mpr hOwner)]
            by_cases hByte :
                headerBytenr (blockOf iobuf size k) =
                  offset + k * size
            · rw [if_neg (not_not.mpr hByte), if_pos]
              · exact hBehind level
              · exact not_le.mp fun hHigh =>
                  hCandidate ⟨⟨hOwner, hByte⟩, hHigh⟩
            · rw [if_pos hByte]
              exact hBehind level
          · rw [if_pos hOwner]
            exact hBehind level
  | succ left ih =>
      have hHere : k < m := by omega
      have hMore : (k + 1) * size ≤ m * size :=
        Nat.mul_le_mul_right size hHere
      rw [Nat.succ_mul] at hMore
      have hNext := fun level =>
        @ih (k + 1) level (by omega) (by omega)
      simp only [Nat.succ_mul] at hNext
      rw [searchBlocks, if_pos (by omega),
        searchBlock_eq hHeader (by omega)]
      by_cases hCandidate :
          Own q (offset + k * size) (blockOf iobuf size k) ∧
            level ≤ headerLevel (blockOf iobuf size k)
      · rcases hCandidate with ⟨hOwn, hHigh⟩
        have hShown : Shown q (fun i => offset + i * size)
            (blockOf iobuf size) level k k :=
          ⟨hOwn, hHigh, fun i hi hBefore => by omega⟩
        have hRaise : ∀ j, k < j → (Shown q
            (fun i => offset + i * size) (blockOf iobuf size)
            level k j ↔ Shown q (fun i => offset + i * size)
              (blockOf iobuf size)
              (headerLevel (blockOf iobuf size k)) (k + 1) j) :=
          shown_raise hOwn hHigh
        rw [if_neg (not_not.mpr hOwn.1),
          if_neg (not_not.mpr hOwn.2),
          if_neg (not_lt.mpr hHigh), if_neg (by omega)]
        by_cases hCsum : csumBlock (blockOf iobuf size k) = 0
        · by_cases hGen :
              headerGeneration (blockOf iobuf size k) =
                q.search_generation
          · rw [if_neg (not_not.mpr hCsum),
              if_neg (not_not.mpr hGen)]
            exact .inl ⟨⟨k, Nat.le_refl k, hHere, hShown,
              hCsum, hGen⟩, rfl⟩
          · rw [if_neg (not_not.mpr hCsum), if_pos hGen,
              found_step hRaise fun h => hGen h.2.2,
              overruns_step hRaise hHere]
            exact hNext _
        · rw [if_pos hCsum,
            found_step hRaise fun h => hCsum h.2.1,
            overruns_step hRaise hHere]
          exact hNext _
      · have hSkip : ∀ j, k < j → (Shown q
            (fun i => offset + i * size) (blockOf iobuf size)
            level k j ↔ Shown q (fun i => offset + i * size)
              (blockOf iobuf size) level (k + 1) j) :=
          fun j _ => shown_skip hCandidate j
        rw [found_step hSkip fun h =>
            hCandidate ⟨h.1.1, h.1.2.1⟩,
          overruns_step hSkip hHere]
        by_cases hOwner :
            headerOwner (blockOf iobuf size k) =
              q.search_objectid
        · rw [if_neg (not_not.mpr hOwner)]
          by_cases hByte :
              headerBytenr (blockOf iobuf size k) =
                offset + k * size
          · rw [if_neg (not_not.mpr hByte), if_pos]
            · exact hNext level
            · exact not_le.mp fun hHigh =>
                hCandidate ⟨⟨hOwner, hByte⟩, hHigh⟩
          · rw [if_pos hByte]
            exact hNext level
        · rw [if_pos hOwner]
          exact hNext level

end Blocks

----------
-- Reading
----------

section Reading

variable {device : Device} {bytenr len : Nat}

/-
  Within the device, the loop reads what is asked for. A
  device that ends before holds it for ever.
-/
theorem readLoop_device
    {n : Nat}
    (hStart : bytenr < 2 ^ 63)
    (hLen : 0 < len)
    (hRead : n ≤ len)
    (hIn : n ≤ device.bytes.length - bytenr) :
    readLoop (some device) bytenr len
        ((device.bytes.drop bytenr).take n) =
      if bytenr + len ≤ device.bytes.length then
        .ok (some ((device.bytes.drop bytenr).take len))
      else .error .endless := by
  induction hLeft : len - n using Nat.strong_induction_on
    generalizing n with
  | _ left ih =>
      have hBound := device.short
      have hLength :
          ((device.bytes.drop bytenr).take n).length = n := by
        rw [List.length_take, List.length_drop]
        omega
      rw [readLoop, hLength]
      by_cases hMore : n < len
      · let given := (device.bytes.drop (bytenr + n)).take
          (min (len - n) MAX_RW_COUNT)
        have hGiven : given.length =
            min (min (len - n) MAX_RW_COUNT)
              (device.bytes.length - (bytenr + n)) := by
          rw [List.length_take, List.length_drop]
        have hPread : pread (some device) (len - n)
            (bytenr + n) = some given := by
          unfold pread
          dsimp only
          rw [if_neg (by omega)]
        rw [if_pos hMore, hPread]
        cases hCases : given with
        | nil =>
            rw [hCases, List.length_nil] at hGiven
            have hEnd :
                device.bytes.length - (bytenr + n) = 0 := by
              unfold MAX_RW_COUNT at hGiven
              omega
            rw [if_neg (by omega)]
        | cons first rest =>
            have hSome : 0 < given.length := by
              rw [hCases]
              exact Nat.succ_pos _
            have hTake : given =
                ((device.bytes.drop bytenr).drop n).take
                  given.length := by
              rw [List.drop_drop, hGiven, ← List.length_drop,
                ← List.take_eq_take_min]
            have hNext := ih (len - (n + given.length))
              (by omega) (n := n + given.length) (by omega)
              (by omega) rfl
            rw [List.take_add, ← hTake] at hNext
            dsimp only
            rw [← hCases]
            exact hNext
      · rw [if_neg hMore, if_pos (by omega)]
        have hAll : n = len := by omega
        rw [hAll]

/- The loop from its start. -/
theorem readLoop_eq
    (device : Device)
    (hStart : bytenr < 2 ^ 63)
    (hLen : 0 < len) :
    readLoop (some device) bytenr len [] =
      if bytenr + len ≤ device.bytes.length then
        .ok (some ((device.bytes.drop bytenr).take len))
      else .error .endless :=
  readLoop_device hStart hLen (Nat.zero_le len)
    (Nat.zero_le _)

end Reading

end FindRoot

end BtrfsProgs
