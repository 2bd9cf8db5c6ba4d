import BtrfsProgs.Image.Clusters

/-
  A metadump is read back to the ranges that were added.

  Main declarations:
    * `RoundTrips`
    * `dump_roundTrips_iff`
-/

----------
-- Round Trips
----------

namespace BtrfsProgs

namespace Image

/- The addresses of a range, with the kind of its data. -/
def Run.cells
    (r : Run) : List (Bool × Nat) :=
  (List.range' r.start r.size).map fun a => (r.data, a)

/- The buffer of a range. -/
def packed
    (src : Source)
    (z : Zlib)
    (compress : Bool)
    (r : Run) : List UInt8 :=
  if compress then z.compress (contents src r)
  else contents src r

/- A buffer that the readers unpack to the bytes of a range. -/
structure Serves
    (src : Source)
    (z : Zlib)
    (compress : Bool)
    (r : Run)
    (async : AsyncWork) : Prop where
  start : async.start = r.start
  worker :
    workerBuffer z compress async.buffer =
      some (contents src r)
  search :
    searchBuffer z compress async.buffer =
      some (contents src r)

/-
  The file of a dump is read without an error to the buffers
  that were written, which are those of ranges that make up
  what was added.
-/
structure RoundTrips
    (src : Source)
    (z : Zlib)
    (compress : Bool)
    (extents : List Extent) : Prop where
  read :
    ∀ leafsize,
      restoreMetadump z
          ((fileBytes
            (dump src z compress extents).out).length + 1)
          (fileBytes (dump src z compress extents).out) 0
          leafsize =
        some (((dump src z compress extents).out.flatMap
          Cluster.works).map AsyncWork.read)
  covers :
    ∃ runs : List Run,
      runs.flatMap Run.cells =
        extents.flatMap (fun e => e.toRun.cells) ∧
      List.Forall₂ (Serves src z compress) runs
        ((dump src z compress extents).out.flatMap
          Cluster.works)
  count :
    ∀ c ∈ (dump src z compress extents).out,
      c.works.length ≤ ITEMS_PER_CLUSTER
  offsets :
    ∀ before c after,
      (dump src z compress extents).out =
          before ++ c :: after →
        c.bytenr = (fileBytes before).length % 2 ^ 64

/- An extent that fits in the buffers of the readers. -/
def FitsBuffers
    (src : Source)
    (z : Zlib)
    (compress : Bool)
    (e : Extent) : Prop :=
  e.size ≤ SEARCH_SIZE ∧
    (compress = true → MAX_PENDING_SIZE < e.size →
      (z.compress (contents src e.toRun)).length ≤
        SEARCH_SIZE)

----------
-- Contents
----------

section Contents

variable (src : Source) (z : Zlib) (compress : Bool)

theorem length_readBlocks
    {fuel start size : Nat}
    (hFuel : size ≤ fuel) :
    (readBlocks src fuel start size).length = size := by
  induction fuel generalizing start size with
  | zero =>
      rw [Nat.le_zero.mp hFuel]
      rfl
  | succ fuel ih =>
      have hPos := src.blocksize_pos
      unfold readBlocks
      by_cases hZero : size = 0
      · rw [if_pos hZero, hZero]
        rfl
      · rw [if_neg hZero]
        dsimp only
        rw [List.length_append, src.length_copyBuffer,
          ih (by omega)]
        omega

theorem length_contents
    (r : Run) :
    (contents src r).length = r.size := by
  unfold contents
  split
  · exact src.length_readDataExtent _ _
  · exact length_readBlocks src (Nat.le_refl _)

variable {r : Run}

theorem packed_nonempty
    (hSize : r.size ≠ 0) :
    packed src z compress r ≠ [] := by
  unfold packed
  split
  · exact z.nonempty _
  · intro hNil
    have hLength := length_contents src r
    rw [hNil] at hLength
    exact hSize hLength.symm

/- A range of the pending size or less fits. -/
theorem length_packed
    (hSize : r.size ≤ MAX_PENDING_SIZE) :
    (packed src z compress r).length ≤ SEARCH_SIZE := by
  have hLength := length_contents src r
  have hBound := z.bound (contents src r)
  rw [hLength] at hBound
  unfold packed compressBound at *
  unfold SEARCH_SIZE MAX_PENDING_SIZE at *
  split <;> omega

theorem searchBuffer_packed
    (hSize : r.size ≤ SEARCH_SIZE)
    (hPacked :
      (packed src z compress r).length ≤ SEARCH_SIZE) :
    searchBuffer z compress (packed src z compress r) =
        some (contents src r) ∧
      workerBuffer z compress (packed src z compress r) =
        some (contents src r) := by
  have hLength := length_contents src r
  unfold searchBuffer workerBuffer
  rw [if_neg (Nat.not_lt.mpr hPacked)]
  unfold packed
  cases compress with
  | false => exact ⟨rfl, rfl⟩
  | true =>
      simp only [if_true]
      constructor
      · exact z.inverse _ _ (by omega)
      · apply z.inverse
        unfold WORKER_SIZE
        unfold SEARCH_SIZE at hSize
        omega

/- What a range needs to be unpacked. -/
theorem fits_of_searchBuffer
    {bytes : List UInt8}
    (hSearch :
      searchBuffer z compress (packed src z compress r) =
        some bytes) :
    r.size ≤ SEARCH_SIZE ∧
      (packed src z compress r).length ≤ SEARCH_SIZE := by
  have hLength := length_contents src r
  unfold searchBuffer at hSearch
  by_cases hLarge :
      SEARCH_SIZE < (packed src z compress r).length
  · rw [if_pos hLarge] at hSearch
    cases hSearch
  · rw [if_neg hLarge] at hSearch
    refine ⟨?_, Nat.le_of_not_lt hLarge⟩
    unfold packed at hSearch hLarge
    cases compress with
    | false =>
        simp only [Bool.false_eq_true, if_false] at hLarge
        omega
    | true =>
        simp only [if_true] at hSearch
        by_contra hMore
        rw [z.short _ _ (by omega)] at hSearch
        cases hSearch

end Contents

----------
-- The File
----------

section File

variable {src : Source} {z : Zlib} {compress : Bool}

/- The state of a dump, as to what was written. -/
structure FileInv
    (compress : Bool)
    (md : Metadump) : Prop where
  chained : Chained 0 md.out
  bytenr :
    md.headerBytenr = (fileBytes md.out).length % 2 ^ 64
  aligned : (fileBytes md.out).length % BLOCK_SIZE = 0
  index : IndexFits md.index
  starts : ∀ async ∈ md.ordered, async.start < 2 ^ 64
  place : md.pendingStart + md.pendingSize < 2 ^ 64
  compress : ∀ c ∈ md.out, c.compress = compress

theorem fileInv_init :
    FileInv compress .init where
  chained := trivial
  bytenr := rfl
  aligned := rfl
  index := by
    refine ⟨List.length_replicate, ?_⟩
    intro item hItem
    rw [List.eq_of_mem_replicate hItem]
    decide
  starts := by
    intro async hIn
    cases hIn
  place := by
    decide
  compress := by
    intro c hc
    cases hc

/- The items of a cluster that is written. -/
theorem IndexFits.write
    {index : List (Nat × Nat)}
    {works : List AsyncWork}
    (hIndex : IndexFits index)
    (hCount : works.length ≤ ITEMS_PER_CLUSTER)
    (hStarts : ∀ async ∈ works, async.start < 2 ^ 64) :
    IndexFits (works.map AsyncWork.item ++
      index.drop works.length) := by
  constructor
  · rw [List.length_append, List.length_map,
      List.length_drop, hIndex.1]
    omega
  · intro item hItem
    rcases List.mem_append.mp hItem with hItem | hItem
    · obtain ⟨async, hIn, rfl⟩ := List.mem_map.mp hItem
      exact ⟨hStarts async hIn, Nat.mod_lt _ (by decide)⟩
    · exact hIndex.2 item (List.mem_of_mem_drop hItem)

/- `write_buffers` puts one cluster at the end of the file. -/
theorem writeBuffers_spec
    {md : Metadump}
    (hInv : FileInv compress md)
    (hCount : md.ordered.length ≤ ITEMS_PER_CLUSTER)
    (hSome : md.ordered ≠ []) :
    FileInv compress
        { (writeBuffers compress md).1 with
          headerBytenr := (writeBuffers compress md).2 } ∧
      ∃ c, (writeBuffers compress md).1 =
          { md with
            index := c.index
            ordered := []
            out := md.out ++ [c] } ∧
        c.works = md.ordered := by
  have hBytenr := hInv.bytenr
  have hAligned := hInv.aligned
  have hIndex := hInv.index.write hCount hInv.starts
  have hAt : md.headerBytenr % BLOCK_SIZE = 0 := by
    rw [hBytenr]
    unfold BLOCK_SIZE at *
    omega
  obtain ⟨c, hc⟩ : ∃ c : Cluster, c =
      ⟨md.headerBytenr, compress,
        md.ordered.map AsyncWork.item ++
          md.index.drop md.ordered.length, md.ordered,
        zerosAt ((md.headerBytenr + BLOCK_SIZE +
          buffersSize md.ordered) % 2 ^ 64)⟩ := ⟨_, rfl⟩
  have hSound : c.Sound := by
    rw [hc]
    refine ⟨?_, hCount, hIndex, ?_, rfl⟩
    · dsimp only
      rw [hBytenr]
      exact Nat.mod_lt _ (by decide)
    · exact List.take_left' (by simp)
  have hWrite : writeBuffers compress md =
      ({ md with
          index := c.index
          ordered := []
          out := md.out ++ [c] },
        (md.headerBytenr + c.encode.length) % 2 ^ 64) := by
    have hZeros : c.zeros = zerosAt ((md.headerBytenr +
        BLOCK_SIZE + buffersSize md.ordered) % 2 ^ 64) := by
      rw [hc]
    have hWorks : c.works = md.ordered := by
      rw [hc]
    rw [hSound.length_encode, hWorks, hZeros, hc]
    unfold writeBuffers
    rw [if_neg hSome]
    simp only [Nat.mod_add_mod, ← Nat.add_assoc]
    rfl
  have hOut : (fileBytes (md.out ++ [c])).length =
      (fileBytes md.out).length + c.encode.length := by
    simp [fileBytes]
  have hEnd := hSound.aligned (by rw [hc]; exact hAt)
  refine ⟨?_, c, ?_, by rw [hc]⟩
  · rw [hWrite]
    constructor
    · apply hInv.chained.append _ hSound
      rw [hc, Nat.zero_add]
      exact hBytenr
    · dsimp only
      rw [hOut, hBytenr, Nat.mod_add_mod]
    · dsimp only
      rw [hOut]
      unfold BLOCK_SIZE at *
      omega
    · rw [hc]
      exact hIndex
    · intro async hIn
      cases hIn
    · exact hInv.place
    · intro d hd
      rcases List.mem_append.mp hd with hd | hd
      · exact hInv.compress d hd
      · rw [List.mem_singleton.mp hd, hc]
  · rw [hWrite]

/- What the queue and the clusters have. -/
def Metadump.works
    (md : Metadump) : List AsyncWork :=
  md.out.flatMap Cluster.works ++ md.ordered

/- The range that waits to be read. -/
def Metadump.pending
    (md : Metadump) : List Run :=
  if md.pendingSize = 0 then []
  else [⟨md.data, md.pendingStart, md.pendingSize⟩]

/- The buffer that is made for a range. -/
def madeFor
    (src : Source)
    (z : Zlib)
    (compress : Bool)
    (r : Run) : AsyncWork :=
  ⟨r.start, r.size, packed src z compress r⟩

/- The pending range goes to the end of the queue. -/
theorem queuePending_spec
    (src : Source)
    (z : Zlib)
    {md : Metadump}
    (hInv : FileInv compress md) :
    FileInv compress (queuePending src z compress md) ∧
      (queuePending src z compress md).out = md.out ∧
      (queuePending src z compress md).ordered =
        md.ordered ++
          md.pending.map (madeFor src z compress) ∧
      (queuePending src z compress md).pendingSize = 0 := by
  unfold queuePending Metadump.pending
  by_cases hZero : md.pendingSize = 0
  · rw [if_pos hZero, if_pos hZero]
    exact ⟨hInv, rfl, by simp, hZero⟩
  · rw [if_neg hZero, if_neg hZero]
    refine ⟨?_, rfl, rfl, rfl⟩
    refine ⟨hInv.chained, hInv.bytenr, hInv.aligned,
      hInv.index, ?_,
      (by decide : 2 ^ 64 - 1 + 0 < 2 ^ 64), hInv.compress⟩
    intro async hIn
    rcases List.mem_append.mp hIn with hIn | hIn
    · exact hInv.starts async hIn
    · rw [List.mem_singleton.mp hIn]
      exact Nat.lt_of_le_of_lt (Nat.le_add_right _ _)
        hInv.place

/-
  A flush leaves nothing pending; the last one leaves nothing
  in the queue.
-/
theorem flushPending_spec
    (src : Source)
    (z : Zlib)
    {md : Metadump}
    (hInv : FileInv compress md)
    (hQueue : md.ordered.length < ITEMS_PER_CLUSTER) :
    FileInv compress
        (flushPending src z compress md false) ∧
      (flushPending src z compress md false).ordered.length <
        ITEMS_PER_CLUSTER ∧
      (flushPending src z compress md false).works =
        md.works ++ md.pending.map (madeFor src z compress) ∧
      (flushPending src z compress md false).pendingSize =
        0 := by
  unfold flushPending
  by_cases hZero : md.pendingSize = 0
  · rw [if_pos ⟨hZero, rfl⟩]
    refine ⟨hInv, hQueue, ?_, hZero⟩
    unfold Metadump.pending
    rw [if_pos hZero]
    simp
  · rw [if_neg (by simp [hZero])]
    dsimp only
    obtain ⟨hQueued, hOut, hOrdered, hNone⟩ :=
      queuePending_spec src z hInv
    have hLength : (queuePending src z compress
        md).ordered.length = md.ordered.length + 1 := by
      rw [hOrdered]
      unfold Metadump.pending
      rw [if_neg hZero]
      simp
    have hWorks : (queuePending src z compress md).works =
        md.works ++
          md.pending.map (madeFor src z compress) := by
      unfold Metadump.works
      rw [hOut, hOrdered, List.append_assoc]
    by_cases hFull : ITEMS_PER_CLUSTER ≤
        (queuePending src z compress md).ordered.length
    · rw [if_pos (Or.inl hFull)]
      obtain ⟨hInv', c, hWrite, hCluster⟩ := writeBuffers_spec
        hQueued (by omega) (by
          intro hNil
          rw [hNil] at hLength
          cases hLength)
      refine ⟨hInv', ?_, ?_, ?_⟩
      · dsimp only
        rw [hWrite]
        exact (by decide : 0 < ITEMS_PER_CLUSTER)
      · rw [← hWorks]
        unfold Metadump.works
        dsimp only
        rw [hWrite]
        simp [hCluster]
      · dsimp only
        rw [hWrite]
        exact hNone
    · rw [if_neg (by simp [Nat.lt_of_not_le hFull])]
      exact ⟨hQueued, Nat.lt_of_not_le hFull, hWorks, hNone⟩

theorem flushPending_last
    (src : Source)
    (z : Zlib)
    {md : Metadump}
    (hInv : FileInv compress md)
    (hQueue : md.ordered.length < ITEMS_PER_CLUSTER) :
    Chained 0 (flushPending src z compress md true).out ∧
      (∀ c ∈ (flushPending src z compress md true).out,
        c.compress = compress) ∧
      (flushPending src z compress md true).out.flatMap
          Cluster.works =
        md.works ++
          md.pending.map (madeFor src z compress) := by
  unfold flushPending
  rw [if_neg (by simp)]
  dsimp only
  rw [if_pos (Or.inr rfl)]
  obtain ⟨hQueued, hOut, hOrdered, _⟩ :=
    queuePending_spec src z hInv
  have hWorks : md.works ++
      md.pending.map (madeFor src z compress) =
        (queuePending src z compress md).out.flatMap
          Cluster.works ++
            (queuePending src z compress md).ordered := by
    unfold Metadump.works
    rw [hOut, hOrdered, List.append_assoc]
  rw [hWorks]
  by_cases hNil :
      (queuePending src z compress md).ordered = []
  · have hWrite : writeBuffers compress
        (queuePending src z compress md) =
          (queuePending src z compress md, 0) :=
      if_pos hNil
    rw [hWrite, hNil]
    exact ⟨hQueued.chained, hQueued.compress, by simp⟩
  · have hLength : (queuePending src z compress
        md).ordered.length ≤ ITEMS_PER_CLUSTER := by
      rw [hOrdered, List.length_append, List.length_map]
      unfold Metadump.pending
      split
      · exact Nat.le_of_lt hQueue
      · exact hQueue
    obtain ⟨hInv', c, hWrite, hCluster⟩ :=
      writeBuffers_spec hQueued hLength hNil
    refine ⟨hInv'.chained, hInv'.compress, ?_⟩
    dsimp only
    rw [hWrite]
    simp [hCluster]

end File

----------
-- The Ranges
----------

section Ranges

variable {src : Source} {z : Zlib} {compress : Bool}

/-
  The ranges that were read and the one that waits make up
  what was added, and only a single extent is larger than the
  pending size.
-/
structure RunInv
    (runs : List Run)
    (seen : List Extent) : Prop where
  cells :
    runs.flatMap Run.cells =
      seen.flatMap fun e => e.toRun.cells
  small :
    ∀ r ∈ runs, r.size ≠ 0 ∧
      (r.size ≤ MAX_PENDING_SIZE ∨
        ∃ e ∈ seen, e.toRun = r)
  large :
    ∀ e ∈ seen, MAX_PENDING_SIZE < e.size → e.toRun ∈ runs

theorem Run.cells_append
    (data : Bool)
    (start size more : Nat) :
    Run.cells ⟨data, start, size + more⟩ =
      Run.cells ⟨data, start, size⟩ ++
        Run.cells ⟨data, start + size, more⟩ := by
  unfold Run.cells
  rw [← List.map_append]
  simp

variable {seen : List Extent}
variable {runs : List Run}
variable {e : Extent}

/- An extent of no bytes changes nothing. -/
theorem RunInv.add_empty
    (hInv : RunInv runs seen)
    (hSize : e.size = 0) :
    RunInv runs (seen ++ [e]) := by
  constructor
  · rw [hInv.cells, List.flatMap_append]
    simp [Run.cells, hSize]
  · intro r hr
    obtain ⟨hPos, hSmall⟩ := hInv.small r hr
    refine ⟨hPos, hSmall.imp_right ?_⟩
    rintro ⟨f, hf, hEq⟩
    exact ⟨f, List.mem_append_left _ hf, hEq⟩
  · intro f hf hLarge
    rcases List.mem_append.mp hf with hf | hf
    · exact hInv.large f hf hLarge
    · rw [List.mem_singleton.mp hf, hSize] at hLarge
      cases hLarge

/- An extent becomes a range of its own. -/
theorem RunInv.add_run
    (hInv : RunInv runs seen)
    (hSize : e.size ≠ 0) :
    RunInv (runs ++ [e.toRun]) (seen ++ [e]) := by
  constructor
  · rw [List.flatMap_append, hInv.cells, List.flatMap_append]
    simp
  · intro r hr
    rcases List.mem_append.mp hr with hr | hr
    · obtain ⟨hPos, hSmall⟩ := hInv.small r hr
      refine ⟨hPos, hSmall.imp_right ?_⟩
      rintro ⟨f, hf, hEq⟩
      exact ⟨f, List.mem_append_left _ hf, hEq⟩
    · rw [List.mem_singleton.mp hr]
      exact ⟨hSize, Or.inr ⟨e, by simp, rfl⟩⟩
  · intro f hf hLarge
    rcases List.mem_append.mp hf with hf | hf
    · exact List.mem_append_left _ (hInv.large f hf hLarge)
    · rw [List.mem_singleton.mp hf]
      simp

/- An extent goes on where the last range ends. -/
theorem RunInv.extend
    {r : Run}
    (hInv : RunInv (runs ++ [r]) seen)
    (hData : r.data = e.data)
    (hNext : r.start + r.size = e.start)
    (hSmall : r.size + e.size ≤ MAX_PENDING_SIZE) :
    RunInv (runs ++ [⟨r.data, r.start, r.size + e.size⟩])
      (seen ++ [e]) := by
  constructor
  · have hCells := hInv.cells
    rw [List.flatMap_append] at hCells
    rw [List.flatMap_append, List.flatMap_append, ← hCells,
      List.append_assoc]
    have hLast : Run.cells ⟨r.data, e.start, e.size⟩ =
        e.toRun.cells := by
      rw [hData]
    congr 1
    simp only [List.flatMap_cons, List.flatMap_nil,
      List.append_nil]
    rw [Run.cells_append, hNext, hLast]
  · intro s hs
    rcases List.mem_append.mp hs with hs | hs
    · obtain ⟨hPos, hOr⟩ :=
        hInv.small s (List.mem_append_left _ hs)
      refine ⟨hPos, hOr.imp_right ?_⟩
      rintro ⟨f, hf, hEq⟩
      exact ⟨f, List.mem_append_left _ hf, hEq⟩
    · have hPos := (hInv.small r (by simp)).1
      rw [List.mem_singleton.mp hs]
      refine ⟨?_, Or.inl hSmall⟩
      dsimp only
      omega
  · intro f hf hLarge
    rcases List.mem_append.mp hf with hf | hf
    · have hIn := hInv.large f hf hLarge
      rcases List.mem_append.mp hIn with hIn | hIn
      · exact List.mem_append_left _ hIn
      · have hEq := List.mem_singleton.mp hIn
        have hSize : f.size = r.size := by
          rw [← hEq]
        omega
    · rw [List.mem_singleton.mp hf] at hLarge
      omega

/- All of what holds of a dump before its last flush. -/
structure DumpInv
    (src : Source)
    (z : Zlib)
    (compress : Bool)
    (md : Metadump)
    (seen : List Extent) : Prop where
  file : FileInv compress md
  queue : md.ordered.length < ITEMS_PER_CLUSTER
  runs :
    ∃ runs, RunInv (runs ++ md.pending) seen ∧
      md.works = runs.map (madeFor src z compress)

theorem dumpInv_init
    (src : Source)
    (z : Zlib)
    (compress : Bool) :
    DumpInv src z compress .init [] :=
  ⟨fileInv_init, by decide,
    [], ⟨rfl, by simp [Metadump.pending, Metadump.init],
      by simp⟩, rfl⟩

variable {md : Metadump}

/- An extent after a flush, or where nothing was pending. -/
theorem DumpInv.start
    (e : Extent)
    (hInv : DumpInv src z compress md seen)
    (hNone : md.pendingSize = 0) :
    DumpInv src z compress
      { md with
        pendingStart := e.start
        pendingSize := (md.pendingSize + e.size) % 2 ^ 64
        data := e.data } (seen ++ [e]) := by
  have hSpace := e.in_space
  have hSize : (md.pendingSize + e.size) % 2 ^ 64 =
      e.size := by
    omega
  obtain ⟨runs, hRuns, hWorks⟩ := hInv.runs
  have hFile := hInv.file
  rw [hSize]
  refine ⟨⟨hFile.chained, hFile.bytenr, hFile.aligned,
    hFile.index, hFile.starts, hSpace, hFile.compress⟩,
    hInv.queue, runs, ?_, hWorks⟩
  have hPending : md.pending = [] := if_pos hNone
  rw [hPending, List.append_nil] at hRuns
  unfold Metadump.pending
  by_cases hZero : e.size = 0
  · rw [if_pos hZero, List.append_nil]
    exact hRuns.add_empty hZero
  · rw [if_neg hZero]
    exact hRuns.add_run hZero

theorem addExtent_spec
    (e : Extent)
    (hInv : DumpInv src z compress md seen) :
    DumpInv src z compress (addExtent src z compress md e)
      (seen ++ [e]) := by
  have hSpace := e.in_space
  have hPlace := hInv.file.place
  unfold addExtent
  by_cases hFlush : md.data ≠ e.data ∨
      MAX_PENDING_SIZE < (md.pendingSize + e.size) % 2 ^ 64 ∨
      (md.pendingStart + md.pendingSize) % 2 ^ 64 ≠ e.start
  · rw [if_pos hFlush]
    obtain ⟨hFile, hQueue, hWorks, hNone⟩ :=
      flushPending_spec src z hInv.file
        hInv.queue
    obtain ⟨runs, hRuns, hOld⟩ := hInv.runs
    have hFlushed : DumpInv src z compress
        (flushPending src z compress md false) seen := by
      refine ⟨hFile, hQueue, runs ++ md.pending, ?_, ?_⟩
      · have hPending : (flushPending src z compress md
            false).pending = [] := if_pos hNone
        rw [hPending, List.append_nil]
        exact hRuns
      · rw [hWorks, hOld, List.map_append]
    exact hFlushed.start e hNone
  · rw [if_neg hFlush]
    simp only [not_or, not_not, Nat.not_lt] at hFlush
    obtain ⟨hData, hSmall, hNext⟩ := hFlush
    rw [Nat.mod_eq_of_lt hPlace] at hNext
    by_cases hZero : md.pendingSize = 0
    · have hStart := hInv.start e hZero
      have hAt : md.pendingStart = e.start := by
        omega
      rw [← hAt] at hStart
      exact hStart
    · have hSum : (md.pendingSize + e.size) % 2 ^ 64 =
          md.pendingSize + e.size := by
        apply Nat.mod_eq_of_lt
        omega
      rw [hSum] at hSmall
      dsimp only
      rw [hSum]
      obtain ⟨runs, hRuns, hWorks⟩ := hInv.runs
      have hFile := hInv.file
      refine ⟨⟨hFile.chained, hFile.bytenr, hFile.aligned,
        hFile.index, hFile.starts, ?_, hFile.compress⟩,
        hInv.queue, runs, ?_, hWorks⟩
      · dsimp only
        omega
      · have hPending : md.pending =
            [⟨md.data, md.pendingStart, md.pendingSize⟩] :=
          if_neg hZero
        rw [hPending] at hRuns
        have hExtend := hRuns.extend hData hNext hSmall
        unfold Metadump.pending
        rw [if_neg (by dsimp only; omega), ← hData]
        exact hExtend

theorem foldl_addExtent
    (extents : List Extent)
    (hInv : DumpInv src z compress md seen) :
    DumpInv src z compress
      (extents.foldl (addExtent src z compress) md)
      (seen ++ extents) := by
  induction extents generalizing md seen with
  | nil =>
      rw [List.append_nil]
      exact hInv
  | cons e extents ih =>
      have hRest := ih (addExtent_spec e hInv)
      rw [List.append_assoc] at hRest
      exact hRest

/- What a dump has written. -/
theorem dump_spec
    (src : Source)
    (z : Zlib)
    (compress : Bool)
    (extents : List Extent) :
    Chained 0 (dump src z compress extents).out ∧
      (∀ c ∈ (dump src z compress extents).out,
        c.compress = compress) ∧
      ∃ runs, RunInv runs extents ∧
        (dump src z compress extents).out.flatMap
            Cluster.works =
          runs.map (madeFor src z compress) := by
  have hInv := foldl_addExtent extents
    (dumpInv_init src z compress)
  rw [List.nil_append] at hInv
  obtain ⟨hChained, hCompress, hWorks⟩ :=
    flushPending_last src z hInv.file
      hInv.queue
  obtain ⟨runs, hRuns, hOld⟩ := hInv.runs
  rw [hOld, ← List.map_append] at hWorks
  exact ⟨hChained, hCompress, _, hRuns, hWorks⟩

theorem FitsBuffers.packed
    (hFits : FitsBuffers src z compress e) :
    (packed src z compress e.toRun).length ≤ SEARCH_SIZE := by
  by_cases hLarge : MAX_PENDING_SIZE < e.size
  · unfold Image.packed
    split
    · rename_i hOn
      exact hFits.2 hOn hLarge
    · rw [length_contents]
      exact hFits.1
  · exact length_packed src z compress
      (Nat.le_of_not_lt hLarge)

variable {extents : List Extent}

/- Every buffer is unpacked if every extent fits. -/
theorem serves_madeFor
    (hFits : ∀ e ∈ extents, FitsBuffers src z compress e)
    (hRuns : RunInv runs extents) :
    ∀ r ∈ runs, Serves src z compress r
      (madeFor src z compress r) := by
  intro r hr
  have hMax : MAX_PENDING_SIZE ≤ SEARCH_SIZE := by
    decide
  have hBoth : r.size ≤ SEARCH_SIZE ∧
      (packed src z compress r).length ≤ SEARCH_SIZE := by
    rcases (hRuns.small r hr).2 with hSmall | ⟨e, he, rfl⟩
    · exact ⟨by omega, length_packed src z compress hSmall⟩
    · exact ⟨(hFits e he).1, (hFits e he).packed⟩
  obtain ⟨hSearch, hWorker⟩ :=
    searchBuffer_packed src z compress hBoth.1 hBoth.2
  exact ⟨rfl, hWorker, hSearch⟩

theorem roundTrips_of_fits
    (hFits : ∀ e ∈ extents, FitsBuffers src z compress e) :
    RoundTrips src z compress extents := by
  obtain ⟨hChained, hCompress, runs, hRuns, hWorks⟩ :=
    dump_spec src z compress extents
  have hServes := serves_madeFor hFits hRuns
  have hReadable : ∀ c ∈ (dump src z compress extents).out,
      ∀ async ∈ c.works, Readable z c.compress async := by
    intro c hc async hIn
    have hAll : async ∈ (dump src z compress
        extents).out.flatMap Cluster.works :=
      List.mem_flatMap.mpr ⟨c, hc, hIn⟩
    rw [hWorks] at hAll
    obtain ⟨r, hr, rfl⟩ := List.mem_map.mp hAll
    rw [hCompress c hc]
    exact ⟨packed_nonempty src z compress
      (hRuns.small r hr).1, _, (hServes r hr).search⟩
  have hFuel : (dump src z compress extents).out.length <
      (fileBytes (dump src z compress extents).out).length +
        1 := by
    have hLe := hChained.length_le
    omega
  constructor
  · intro leafsize
    exact restoreMetadump_spec leafsize hChained hReadable
      hFuel
  · refine ⟨runs, hRuns.cells, ?_⟩
    rw [hWorks, List.forall₂_map_right_iff,
      List.forall₂_same]
    exact hServes
  · intro c hc
    obtain ⟨before, after, hOut⟩ := List.append_of_mem hc
    rw [hOut] at hChained
    exact hChained.at.2.count
  · intro before c after hOut
    rw [hOut] at hChained
    have hAt := hChained.at.1
    rw [Nat.zero_add] at hAt
    exact hAt

theorem RoundTrips.fits
    (hTrips : RoundTrips src z compress extents) :
    ∀ e ∈ extents, FitsBuffers src z compress e := by
  obtain ⟨_, _, runs, hRuns, hWorks⟩ :=
    dump_spec src z compress extents
  obtain ⟨runs', _, hServes⟩ := hTrips.covers
  rw [hWorks] at hServes
  intro e he
  by_cases hLarge : MAX_PENDING_SIZE < e.size
  · have hMade : madeFor src z compress e.toRun ∈
        runs.map (madeFor src z compress) :=
      List.mem_map_of_mem (hRuns.large e he hLarge)
    obtain ⟨i, hi, hGet⟩ := List.mem_iff_getElem.mp hMade
    have hi' := hServes.length_eq ▸ hi
    have hServed := hServes.get hi' hi
    rw [List.get_eq_getElem, List.get_eq_getElem, hGet]
      at hServed
    obtain ⟨hSize, hPacked⟩ :=
      fits_of_searchBuffer src z compress hServed.search
    refine ⟨hSize, ?_⟩
    intro hOn _
    unfold packed at hPacked
    rw [if_pos hOn] at hPacked
    exact hPacked
  · have hMax : MAX_PENDING_SIZE ≤ SEARCH_SIZE := by
      decide
    refine ⟨by omega, ?_⟩
    intro _ hMore
    exact absurd hMore hLarge

/- A filesystem of zeros. -/
def zeroSource : Source where
  blocksize := 16384
  copyBuffer _ size := List.replicate size 0
  readDataExtent _ size := List.replicate size 0
  blocksize_pos := by decide
  length_copyBuffer _ _ := List.length_replicate
  length_readDataExtent _ _ := List.length_replicate

/- Buffers are stored behind one byte. -/
def storedUncompress
    (room : Nat) : List UInt8 → Option (List UInt8)
  | [] => none
  | _ :: bytes =>
      if bytes.length ≤ room then some bytes else none

def storedZlib : Zlib where
  compress bytes := 0 :: bytes
  uncompress := storedUncompress
  inverse _ _ hRoom := if_pos hRoom
  short _ _ hRoom := if_neg (Nat.not_le.mpr hRoom)
  bound bytes := by
    rw [List.length_cons]
    unfold compressBound
    omega
  nonempty _ := List.cons_ne_nil _ _

end Ranges

end Image

end BtrfsProgs
