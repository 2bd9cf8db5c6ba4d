import BtrfsProgs.Image.Metadump

/-
  The clusters of a metadump are read back.

  Main declarations:
    * `Cluster.Sound` and `Chained`
    * `addCluster_spec`
    * `restoreMetadump_spec`
-/

----------
-- Index Blocks
----------

namespace BtrfsProgs

namespace Image

open Record

/- The items of the index block fit in their fields. -/
def IndexFits
    (index : List (Nat × Nat)) : Prop :=
  index.length = ITEMS_PER_CLUSTER ∧
    ∀ item ∈ index, item.1 < 2 ^ 64 ∧ item.2 < 2 ^ 32

/- The item of the index block for a buffer. -/
def AsyncWork.item
    (async : AsyncWork) : Nat × Nat :=
  (async.start, async.buffer.length % 2 ^ 32)

/- The bytes of some buffers. -/
def buffersSize
    (works : List AsyncWork) : Nat :=
  (works.map fun async => async.buffer.length).sum

/- The zeros up to the next block. -/
def zerosAt
    (bytenr : Nat) : Nat :=
  if bytenr % BLOCK_SIZE = 0 then 0
  else BLOCK_SIZE - bytenr % BLOCK_SIZE

/- A cluster as `write_buffers` leaves it. -/
structure Cluster.Sound
    (c : Cluster) : Prop where
  bytenr_lt : c.bytenr < 2 ^ 64
  count : c.works.length ≤ ITEMS_PER_CLUSTER
  index : IndexFits c.index
  items :
    c.index.take c.works.length = c.works.map AsyncWork.item
  zeros :
    c.zeros = zerosAt
      ((c.bytenr + BLOCK_SIZE + buffersSize c.works) % 2 ^ 64)

/- Clusters that stand one after another from an offset on. -/
def Chained : Nat → List Cluster → Prop
  | _, [] => True
  | offset, c :: cs =>
      c.bytenr = offset % 2 ^ 64 ∧ c.Sound ∧
        Chained (offset + c.encode.length) cs

theorem space_append
    (fs gs : List (Nat × Nat)) :
    space (fs ++ gs) = space fs + space gs := by
  simp [space]

theorem space_indexFields
    (index : List (Nat × Nat)) :
    space (indexFields index) = ITEM_SIZE * index.length := by
  induction index with
  | nil => rfl
  | cons item index ih =>
      have hCons : indexFields (item :: index) =
          [(8, item.1), (4, item.2)] ++ indexFields index :=
        rfl
      rw [hCons, space_append, ih, List.length_cons]
      unfold space ITEM_SIZE
      simp only [List.map_cons, List.map_nil, List.sum_cons,
        List.sum_nil]
      omega

theorem length_indexFields
    (index : List (Nat × Nat)) :
    (indexFields index).length = 2 * index.length := by
  induction index with
  | nil => rfl
  | cons item index ih =>
      have hCons : indexFields (item :: index) =
          [(8, item.1), (4, item.2)] ++ indexFields index :=
        rfl
      rw [hCons, List.length_append, ih, List.length_cons]
      simp only [List.length_cons, List.length_nil]
      omega

section Sound

variable {c : Cluster}

theorem Cluster.Sound.fits
    (hSound : c.Sound) :
    Fits (c.header ++ indexFields c.index) := by
  have hCount := hSound.count
  have hItems : ITEMS_PER_CLUSTER = 83 := rfl
  intro f hf
  rcases List.mem_append.mp hf with hf | hf
  · unfold Cluster.header at hf
    simp only [List.mem_cons, List.not_mem_nil, or_false]
      at hf
    rcases hf with rfl | rfl | rfl | rfl
    · decide
    · exact hSound.bytenr_lt
    · change c.works.length < 256 ^ 4
      omega
    · change (if c.compress then 1 else 0) < 256 ^ 1
      split <;> decide
  · obtain ⟨item, hIn, hf⟩ := List.mem_flatMap.mp hf
    have hItem := hSound.index.2 item hIn
    simp only [List.mem_cons, List.not_mem_nil, or_false]
      at hf
    rcases hf with rfl | rfl
    · exact hItem.1
    · exact hItem.2

theorem Cluster.Sound.length_indexBlock
    (hSound : c.Sound) :
    c.indexBlock.length = BLOCK_SIZE := by
  rw [Cluster.indexBlock, List.length_append, length_pack,
    space_append, space_indexFields, hSound.index.1]
  rfl

/- A field of the header. -/
theorem Cluster.Sound.header_field
    (hSound : c.Sound)
    {w v : Nat}
    (i place : Nat)
    (hAt : c.header[i]? = some (w, v))
    (hPlace : space (c.header.take i) = place) :
    field c.indexBlock place w = v := by
  obtain ⟨hLt, _⟩ := List.getElem?_eq_some_iff.mp hAt
  apply field_pack i place _ hSound.fits
  · rw [List.getElem?_append_left hLt, hAt]
  · rw [List.take_append_of_le_length (Nat.le_of_lt hLt),
      hPlace]

/- The items of the index block before one of them. -/
theorem indexFields_split
    {index before after : List (Nat × Nat)}
    {item : Nat × Nat}
    (hIndex : index = before ++ item :: after) :
    indexFields index =
      indexFields before ++
        ((8, item.1) :: (4, item.2) :: indexFields after) := by
  rw [hIndex]
  simp [indexFields]

/- An item of the index block. -/
theorem Cluster.Sound.item_fields
    (hSound : c.Sound)
    {before after : List AsyncWork}
    {async : AsyncWork}
    (hWorks : c.works = before ++ async :: after) :
    field c.indexBlock
        (HEADER_SIZE + ITEM_SIZE * before.length) 8 =
      async.start ∧
    field c.indexBlock
        (HEADER_SIZE + ITEM_SIZE * before.length + 8) 4 =
      async.buffer.length % 2 ^ 32 := by
  have hIndex : c.index =
      before.map AsyncWork.item ++ (async.item ::
        (after.map AsyncWork.item ++
          c.index.drop c.works.length)) := by
    have hParts := List.take_append_drop c.works.length
      c.index
    rw [hSound.items] at hParts
    conv_lhs => rw [← hParts]
    rw [hWorks]
    simp
  have hSplit := indexFields_split hIndex
  have hAt : ∀ k f, ([(8, async.item.1), (4, async.item.2)] :
      List (Nat × Nat))[k]? = some f →
      (c.header ++ indexFields c.index)[4 + 2 *
        before.length + k]? = some f := by
    intro k f hk
    have hHeader : c.header.length = 4 := rfl
    have hPlace : 4 + 2 * before.length + k -
        c.header.length - (indexFields (before.map
          AsyncWork.item)).length = k := by
      rw [length_indexFields, List.length_map, hHeader]
      omega
    rw [List.getElem?_append_right (by omega), hSplit,
      List.getElem?_append_right (by
        rw [length_indexFields, List.length_map]
        omega), hPlace]
    match k, hk with
    | 0, hk => exact hk
    | 1, hk => exact hk
  have hSpace : space ((c.header ++ indexFields c.index).take
      (4 + 2 * before.length)) =
        HEADER_SIZE + ITEM_SIZE * before.length := by
    have hLength : (c.header ++ indexFields (before.map
        AsyncWork.item)).length = 4 + 2 * before.length := by
      rw [List.length_append, length_indexFields,
        List.length_map]
      rfl
    rw [hSplit, ← List.append_assoc, List.take_left' hLength,
      space_append, space_indexFields, List.length_map]
    rfl
  constructor
  · exact field_pack (4 + 2 * before.length) _ _ hSound.fits
      (hAt 0 _ rfl) hSpace
  · apply field_pack (4 + 2 * before.length + 1) _ _
      hSound.fits (hAt 1 _ rfl)
    have hFirst := hAt 0 _ rfl
    rw [Nat.add_zero] at hFirst
    obtain ⟨hLt, hGet⟩ :=
      List.getElem?_eq_some_iff.mp hFirst
    rw [List.take_succ_eq_append_getElem hLt, space_append,
      hSpace, hGet]
    rfl

theorem length_buffers
    (works : List AsyncWork) :
    (works.flatMap AsyncWork.buffer).length =
      buffersSize works := by
  simp [buffersSize, List.length_flatMap]

theorem Cluster.Sound.length_encode
    (hSound : c.Sound) :
    c.encode.length =
      BLOCK_SIZE + buffersSize c.works + c.zeros := by
  rw [Cluster.encode, List.length_append, List.length_append,
    hSound.length_indexBlock, length_buffers,
    List.length_replicate]

/- A cluster that starts at a block ends at a block. -/
theorem Cluster.Sound.aligned
    (hSound : c.Sound)
    (hStart : c.bytenr % BLOCK_SIZE = 0) :
    c.encode.length % BLOCK_SIZE = 0 := by
  have hZeros := hSound.zeros
  rw [hSound.length_encode, hZeros]
  unfold zerosAt
  unfold BLOCK_SIZE at *
  split <;> omega

end Sound

----------
-- Reading Back
----------

section Read

variable {z : Zlib} {compress : Bool}

/- A buffer that the readers can unpack. -/
structure Readable
    (z : Zlib)
    (compress : Bool)
    (async : AsyncWork) : Prop where
  nonempty : async.buffer ≠ []
  unpacked :
    ∃ bytes, searchBuffer z compress async.buffer = some bytes

/- What is read for a buffer. -/
def AsyncWork.read
    (async : AsyncWork) : Nat × List UInt8 :=
  (async.start, async.buffer)

theorem Readable.length_lt
    {async : AsyncWork}
    (hReadable : Readable z compress async) :
    async.buffer.length < 2 ^ 32 := by
  obtain ⟨bytes, hBytes⟩ := hReadable.unpacked
  have hSize : SEARCH_SIZE = 524288 := rfl
  unfold searchBuffer at hBytes
  by_cases hLarge : SEARCH_SIZE < async.buffer.length
  · rw [if_pos hLarge] at hBytes
    cases hBytes
  · omega

/- The superblock can be looked at. -/
theorem Readable.fillMdresInfo
    {async : AsyncWork}
    (hReadable : Readable z compress async)
    (leafsize : Nat) :
    ∃ leafsize',
      fillMdresInfo z compress leafsize async.buffer =
        some leafsize' := by
  obtain ⟨bytes, hBytes⟩ := hReadable.unpacked
  unfold searchBuffer at hBytes
  unfold Image.fillMdresInfo
  split
  · exact ⟨_, rfl⟩
  · cases compress with
    | false => exact ⟨_, rfl⟩
    | true =>
        by_cases hLarge : SEARCH_SIZE < async.buffer.length
        · rw [if_pos hLarge] at hBytes
          cases hBytes
        · rw [if_neg hLarge, if_pos rfl] at hBytes
          rw [if_pos rfl, hBytes]
          exact ⟨_, rfl⟩

theorem addItems_spec
    {c : Cluster}
    {works : List AsyncWork}
    (before : List AsyncWork)
    (rest : List UInt8)
    (bytenr leafsize : Nat)
    (hSound : c.Sound)
    (hWorks : c.works = before ++ works)
    (hReadable : ∀ async ∈ works, Readable z compress async) :
    ∃ leafsize',
      addItems z c.indexBlock compress works.length
          before.length
          (works.flatMap AsyncWork.buffer ++ rest)
          (bytenr % 2 ^ 64) leafsize =
        some (works.map AsyncWork.read, rest,
          (bytenr + buffersSize works) % 2 ^ 64,
          leafsize') := by
  induction works generalizing before bytenr leafsize with
  | nil => exact ⟨leafsize, rfl⟩
  | cons async works ih =>
      have hHere := hReadable async List.mem_cons_self
      obtain ⟨hStart, hSize⟩ := hSound.item_fields hWorks
      rw [Nat.mod_eq_of_lt hHere.length_lt] at hSize
      have hPos := List.length_pos_of_ne_nil hHere.nonempty
      have hInput : (async :: works).flatMap
          AsyncWork.buffer ++ rest = async.buffer ++
            (works.flatMap AsyncWork.buffer ++ rest) := by
        simp
      obtain ⟨middle, hMiddle⟩ : ∃ middle,
          (if async.start = SUPER_INFO_OFFSET then
            fillMdresInfo z compress leafsize async.buffer
          else some leafsize) = some middle := by
        split
        · exact hHere.fillMdresInfo leafsize
        · exact ⟨_, rfl⟩
      obtain ⟨leafsize', hRest⟩ :=
        ih (before ++ [async])
          (bytenr + async.buffer.length) middle
          (by simpa using hWorks)
          (fun a ha => hReadable a
            (List.mem_cons_of_mem _ ha))
      refine ⟨leafsize', ?_⟩
      have hEnough : ¬ (async.buffer.length = 0 ∨
          (async.buffer ++ (works.flatMap AsyncWork.buffer ++
            rest)).length < async.buffer.length) := by
        rw [List.length_append]
        omega
      rw [List.length_append] at hRest
      rw [List.length_cons, addItems, hInput]
      dsimp only
      rw [hStart, hSize, if_neg hEnough,
        List.take_left' rfl, List.drop_left' rfl, hMiddle,
        Nat.mod_add_mod]
      dsimp only
      rw [show before.length + 1 =
        before.length + [async].length from rfl, hRest]
      simp [AsyncWork.read, buffersSize, Nat.add_assoc]

theorem addCluster_spec
    {c : Cluster}
    (rest : List UInt8)
    (leafsize : Nat)
    (hSound : c.Sound)
    (hReadable :
      ∀ async ∈ c.works, Readable z c.compress async) :
    ∃ leafsize',
      addCluster z c.indexBlock
          (c.works.flatMap AsyncWork.buffer ++
            (List.replicate c.zeros 0 ++ rest)) leafsize =
        some (c.works.map AsyncWork.read, rest,
          (c.bytenr + c.encode.length) % 2 ^ 64,
          leafsize') := by
  have hBytenr := hSound.header_field 1 8 rfl rfl
  have hCount := hSound.header_field 2 16 rfl rfl
  have hCompress : decide (field c.indexBlock 20 1 = 1) =
      c.compress := by
    rw [hSound.header_field 3 20 rfl rfl]
    cases c.compress <;> rfl
  obtain ⟨leafsize', hItems⟩ := addItems_spec []
    (List.replicate c.zeros 0 ++ rest)
    (c.bytenr + BLOCK_SIZE) leafsize hSound rfl hReadable
  refine ⟨leafsize', ?_⟩
  have hZeros := hSound.zeros
  have hEnd := hSound.length_encode
  unfold addCluster
  dsimp only
  rw [hCompress, hBytenr, hCount]
  rw [List.length_nil] at hItems
  rw [hItems]
  dsimp only
  unfold zerosAt at hZeros
  split
  · rename_i hAligned
    rw [if_pos hAligned] at hZeros
    rw [hZeros, List.replicate_zero, List.nil_append, hEnd,
      hZeros, Nat.add_zero, Nat.add_assoc]
  · rename_i hAligned
    rw [if_neg hAligned] at hZeros
    rw [← hZeros, if_neg (by simp),
      List.drop_left' List.length_replicate, hEnd,
      Nat.mod_add_mod, ← Nat.add_assoc, ← Nat.add_assoc]

/- The loop reads every buffer of the clusters. -/
theorem restoreMetadump_spec
    {out : List Cluster}
    {offset fuel : Nat}
    (leafsize : Nat)
    (hChained : Chained offset out)
    (hReadable :
      ∀ c ∈ out, ∀ async ∈ c.works,
        Readable z c.compress async)
    (hFuel : out.length < fuel) :
    restoreMetadump z fuel (fileBytes out)
        (offset % 2 ^ 64) leafsize =
      some ((out.flatMap Cluster.works).map
        AsyncWork.read) := by
  induction out generalizing offset fuel leafsize with
  | nil =>
      obtain ⟨fuel, rfl⟩ :=
        Nat.exists_eq_succ_of_ne_zero (Nat.ne_of_gt
          (Nat.lt_of_le_of_lt (Nat.zero_le _) hFuel))
      rfl
  | cons c out ih =>
      obtain ⟨fuel, rfl⟩ :=
        Nat.exists_eq_succ_of_ne_zero (Nat.ne_of_gt
          (Nat.lt_of_le_of_lt (Nat.zero_le _) hFuel))
      obtain ⟨hAt, hSound, hNext⟩ := hChained
      have hLength := hSound.length_indexBlock
      have hInput : fileBytes (c :: out) = c.indexBlock ++
          (c.works.flatMap AsyncWork.buffer ++
            (List.replicate c.zeros 0 ++ fileBytes out)) := by
        simp [fileBytes, Cluster.encode]
      obtain ⟨leafsize', hAdd⟩ := addCluster_spec
        (fileBytes out) leafsize hSound
        (hReadable c List.mem_cons_self)
      have hRest := ih leafsize' hNext
        (fun d hd => hReadable d (List.mem_cons_of_mem _ hd))
        (Nat.lt_of_succ_lt_succ hFuel)
      rw [hAt, Nat.mod_add_mod] at hAdd
      have hMagic := hSound.header_field 0 0 rfl rfl
      have hBytenr := hSound.header_field 1 8 rfl rfl
      rw [hAt] at hBytenr
      rw [restoreMetadump, hInput, if_neg (by
        rw [List.length_append, hLength]
        omega)]
      dsimp only
      rw [List.take_left' hLength, List.drop_left' hLength,
        hMagic, hBytenr, if_neg (by simp), hAdd]
      dsimp only
      rw [hRest]
      simp

end Read

----------
-- Chains
----------

theorem Chained.append
    {offset : Nat}
    {out : List Cluster}
    {c : Cluster}
    (hChained : Chained offset out)
    (hAt :
      c.bytenr = (offset + (fileBytes out).length) % 2 ^ 64)
    (hSound : c.Sound) :
    Chained offset (out ++ [c]) := by
  induction out generalizing offset with
  | nil => exact ⟨hAt, hSound, trivial⟩
  | cons d out ih =>
      obtain ⟨hFirst, hSound', hRest⟩ := hChained
      refine ⟨hFirst, hSound', ih hRest ?_⟩
      rw [hAt]
      simp [fileBytes, Nat.add_assoc]

theorem Chained.length_le
    {offset : Nat}
    {out : List Cluster}
    (hChained : Chained offset out) :
    out.length ≤ (fileBytes out).length := by
  induction out generalizing offset with
  | nil => exact Nat.zero_le _
  | cons c out ih =>
      have hHere := hChained.2.1.length_encode
      have hRest := ih hChained.2.2
      have hBytes : (fileBytes (c :: out)).length =
          c.encode.length + (fileBytes out).length := by
        simp [fileBytes]
      unfold BLOCK_SIZE at hHere
      rw [List.length_cons, hBytes]
      omega

/- Every header has the offset of its cluster. -/
theorem Chained.at
    {offset : Nat}
    {before after : List Cluster}
    {c : Cluster}
    (hChained : Chained offset (before ++ c :: after)) :
    c.bytenr = (offset + (fileBytes before).length) % 2 ^ 64 ∧
      c.Sound := by
  induction before generalizing offset with
  | nil => exact ⟨hChained.1, hChained.2.1⟩
  | cons d before ih =>
      have hHere := ih hChained.2.2
      refine ⟨?_, hHere.2⟩
      rw [hHere.1]
      simp [fileBytes, Nat.add_assoc]

end Image

end BtrfsProgs
