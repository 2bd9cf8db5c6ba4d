import BtrfsProgs.Convert.Coalesce

/-
  Which blocks of the disk `create_file_extents` adds
  checksums for.

  A hole is recorded as an extent at disk block 0, and its
  checksums are those of the first blocks of the disk. A block
  behind the end of the device gives no bytes, and its checksum
  is that of whatever the buffer has in it.

  Main declarations:
    * `Summed` and `ExactCsums`
    * `HoleFree` and `OneRun`
    * `createFileExtents_csums_iff`
-/

----------
-- Checksums of Extents
----------

namespace BtrfsProgs

namespace Convert

/- The bytes of a block on the disk. -/
def Device.Holds
    (dev : Device)
    (bytenr : Nat)
    (data : List UInt8) : Prop :=
  dev.pread bytenr dev.sectorsize = some data ∧
    data.length = dev.sectorsize

/- A read of the block gives no byte, and no error. -/
def Device.Behind
    (dev : Device)
    (bytenr : Nat) : Prop :=
  dev.pread bytenr dev.sectorsize = some []

theorem Device.holds_not_behind
    {dev : Device}
    {bytenr : Nat}
    {data : List UInt8}
    (hHolds : dev.Holds bytenr data) :
    ¬ dev.Behind bytenr := by
  intro hBehind
  rcases hHolds with ⟨hData, hLength⟩
  rw [hBehind] at hData
  rw [← Option.some.inj hData] at hLength
  exact absurd hLength (Nat.ne_of_lt dev.sectorsize_pos)

/- A checksum of a block of an extent. -/
def Device.SumAt
    (dev : Device)
    (e : FileExtent)
    (c : Nat × List UInt8) : Prop :=
  ∃ k, k < e.numBlocks ∧
    c.1 = (e.diskBlock + k) * dev.sectorsize

/- A checksum for each block. -/
def Device.HasSums
    (dev : Device)
    (e : FileExtent)
    (cs : List (Nat × List UInt8)) : Prop :=
  ∀ k, k < e.numBlocks →
    ∃ data,
      ((e.diskBlock + k) * dev.sectorsize, data) ∈ cs

/-
  The checksums of all extents, holes or not, with or without
  bytes on the disk.
-/
structure Summed
    (dev : Device)
    (es : List FileExtent)
    (cs : List (Nat × List UInt8)) : Prop where
  only : ∀ c ∈ cs, ∃ e ∈ es, dev.SumAt e c
  bytes : ∀ c ∈ cs, dev.Holds c.1 c.2 ∨ dev.Behind c.1
  all : ∀ e ∈ es, dev.HasSums e cs

/- Those of the data extents, from the bytes that are there. -/
structure ExactCsums
    (dev : Device)
    (es : List FileExtent)
    (cs : List (Nat × List UInt8)) : Prop where
  only :
    ∀ c ∈ cs, ∃ e ∈ es, e.diskBlock ≠ 0 ∧ dev.SumAt e c
  bytes : ∀ c ∈ cs, dev.Holds c.1 c.2
  all :
    ∀ e ∈ es, e.diskBlock ≠ 0 → dev.HasSums e cs

section Sums

variable {dev : Device}
variable {treeError : TreeError}
variable {w w' : Written}

theorem summed_nil
    (dev : Device) :
    Summed dev [] [] := by
  refine ⟨?_, ?_, ?_⟩
  · intro c hMem
    cases hMem
  · intro c hMem
    cases hMem
  · intro e hMem
    cases hMem

theorem Summed.append
    {xs ys : List FileExtent}
    {cs ds : List (Nat × List UInt8)}
    (hLeft : Summed dev xs cs)
    (hRight : Summed dev ys ds) :
    Summed dev (xs ++ ys) (cs ++ ds) := by
  refine ⟨?_, ?_, ?_⟩
  · intro c hMem
    rcases List.mem_append.mp hMem with hMem | hMem
    · rcases hLeft.only c hMem with ⟨e, hIn, hSum⟩
      exact ⟨e, List.mem_append_left _ hIn, hSum⟩
    · rcases hRight.only c hMem with ⟨e, hIn, hSum⟩
      exact ⟨e, List.mem_append_right _ hIn, hSum⟩
  · intro c hMem
    rcases List.mem_append.mp hMem with hMem | hMem
    · exact hLeft.bytes c hMem
    · exact hRight.bytes c hMem
  · intro e hMem k hK
    rcases List.mem_append.mp hMem with hMem | hMem
    · rcases hLeft.all e hMem k hK with ⟨data, hIn⟩
      exact ⟨data, List.mem_append_left _ hIn⟩
    · rcases hRight.all e hMem k hK with ⟨data, hIn⟩
      exact ⟨data, List.mem_append_right _ hIn⟩

/- A block that is read, or the buffer as it was. -/
theorem Device.readDiskExtent_block
    {bytenr : Nat}
    {buffer buffer' : List UInt8}
    (hSize : buffer.length = dev.sectorsize)
    (hRead :
      dev.readDiskExtent bytenr dev.sectorsize buffer =
        .ok buffer') :
    buffer'.length = dev.sectorsize ∧
      (dev.Holds bytenr buffer' ∨ dev.Behind bytenr) := by
  unfold Device.readDiskExtent at hRead
  split at hRead
  · cases hRead
  · rename_i data hData
    split at hRead
    · rename_i hGiven
      cases hRead
      rcases hGiven with hWhole | hNone
      · have hRest : buffer.drop data.length = [] :=
          List.drop_eq_nil_of_le (by omega)
        rw [hRest, List.append_nil]
        exact ⟨hWhole, .inl ⟨hData, hWhole⟩⟩
      · rw [hNone] at hData ⊢
        exact ⟨hSize, .inr hData⟩
    · cases hRead

theorem csumBlocks_summed
    (fileBlock : Nat)
    {diskBlock n : Nat}
    {buffer : List UInt8}
    (hSize : buffer.length = dev.sectorsize)
    (hRun :
      csumBlocks dev treeError (diskBlock * dev.sectorsize)
        buffer n w = .ok w') :
    ∃ cs, w'.csums = w.csums ++ cs ∧
      Summed dev [⟨fileBlock, diskBlock, n⟩] cs := by
  induction n generalizing diskBlock buffer w with
  | zero =>
      cases hRun
      refine ⟨[], (List.append_nil _).symm, ?_, ?_, ?_⟩
      · intro c hMem
        cases hMem
      · intro c hMem
        cases hMem
      · intro e hMem k hK
        rw [List.mem_singleton.mp hMem] at hK
        exact absurd hK (Nat.not_lt_zero k)
  | succ n ih =>
      unfold csumBlocks csumFileBlock at hRun
      split at hRun
      · cases hRun
      · rename_i data hRead
        have hBlock := dev.readDiskExtent_block hSize hRead
        split at hRun
        · cases hRun
        · rename_i w₁ hCsum
          have hNext :
              diskBlock * dev.sectorsize + dev.sectorsize =
                (diskBlock + 1) * dev.sectorsize :=
            (Nat.succ_mul ..).symm
          rw [hNext] at hRun
          rcases ih hBlock.1 hRun with ⟨cs, hCs, hSummed⟩
          split at hCsum
          · cases hCsum
          · cases hCsum
            refine ⟨(diskBlock * dev.sectorsize, data) :: cs,
              ?_, ?_, ?_, ?_⟩
            · rw [hCs, List.append_assoc]
              rfl
            · intro c hMem
              refine ⟨_, List.mem_singleton_self _, ?_⟩
              rcases List.mem_cons.mp hMem with hHead | hTail
              · rw [hHead]
                exact ⟨0, Nat.succ_pos n, rfl⟩
              · rcases hSummed.only c hTail with
                  ⟨e, hIn, k, hK, hAt⟩
                rw [List.mem_singleton.mp hIn] at hK hAt
                refine ⟨k + 1, Nat.succ_lt_succ hK, ?_⟩
                have hSame :
                    diskBlock + (k + 1) =
                      diskBlock + 1 + k := by
                  omega
                dsimp only at hAt ⊢
                rw [hAt, hSame]
            · intro c hMem
              rcases List.mem_cons.mp hMem with hHead | hTail
              · rw [hHead]
                exact hBlock.2
              · exact hSummed.bytes c hTail
            · intro e hMem k hK
              rw [List.mem_singleton.mp hMem] at hK ⊢
              cases k with
              | zero => exact ⟨data, List.mem_cons_self ..⟩
              | succ k =>
                  rcases hSummed.all _
                      (List.mem_singleton_self _) k
                      (Nat.lt_of_succ_lt_succ hK) with
                    ⟨data', hIn⟩
                  refine ⟨data', List.mem_cons_of_mem _ ?_⟩
                  have hSame :
                      diskBlock + (k + 1) =
                        diskBlock + 1 + k := by
                    omega
                  dsimp only at hIn ⊢
                  rw [hSame]
                  exact hIn

variable {es : List FileExtent}

theorem recordAll_summed
    (hRun : recordAll dev treeError true es w = .ok w') :
    ∃ cs, w'.csums = w.csums ++ cs ∧ Summed dev es cs := by
  induction es generalizing w with
  | nil =>
      cases hRun
      exact ⟨[], (List.append_nil _).symm, summed_nil dev⟩
  | cons e es ih =>
      unfold recordAll at hRun
      split at hRun
      · cases hRun
      · rename_i w₁ hFirst
        rcases ih hRun with ⟨rest, hRest, hSummed⟩
        unfold recordFileBlocks csumDiskExtent at hFirst
        split at hFirst
        · cases hFirst
        · rcases csumBlocks_summed e.fileBlock
              (dev.malloc_length _) hFirst with
            ⟨cs, hCs, hHead⟩
          refine ⟨cs ++ rest, ?_, hHead.append hSummed⟩
          rw [hRest, hCs, List.append_assoc]

variable {pairs : List (Nat × Nat)}

theorem blockIterate_summed
    {d d' : BlkIterateData}
    (hRun :
      blockIterate dev treeError true pairs d w =
        .ok (d', w')) :
    ∃ es cs, w'.extents = w.extents ++ es ∧
      w'.csums = w.csums ++ cs ∧ Summed dev es cs := by
  induction pairs generalizing d w with
  | nil =>
      cases hRun
      exact ⟨[], [], (List.append_nil _).symm,
        (List.append_nil _).symm, summed_nil dev⟩
  | cons p pairs ih =>
      unfold blockIterate at hRun
      split at hRun
      · cases hRun
      · rename_i d₁ w₁ hCall
        rcases ih hRun with ⟨es, cs, hEs, hCs, hRest⟩
        unfold blockIterateProc at hCall
        split at hCall
        · split at hCall
          · cases hCall
          · rename_i hRecord
            split at hCall
            · cases hCall
            · cases hCall
              have hFirst := recordAll_extents hRecord
              rcases recordAll_summed hRecord with
                ⟨first, hSums, hSummed⟩
              refine ⟨_, _, ?_, ?_, hSummed.append hRest⟩
              · rw [hEs, hFirst.1, List.append_assoc]
              · rw [hCs, hSums, List.append_assoc]
        · cases hCall
          exact ⟨es, cs, hEs, hCs, hRest⟩

/- A block of an extent is on the disk, or nowhere. -/
def Device.OnDisk
    (dev : Device)
    (diskBlock : Nat) : Prop :=
  ¬ dev.Behind (diskBlock * dev.sectorsize)

/-
  The checksums are exact just when there is no hole and all
  blocks are on the disk.
-/
theorem Summed.exact_iff
    {cs : List (Nat × List UInt8)}
    (hSummed : Summed dev es cs)
    (hSome : ∀ e ∈ es, 0 < e.numBlocks) :
    ExactCsums dev es cs ↔
      (∀ e ∈ es, e.diskBlock ≠ 0) ∧
        ∀ e ∈ es, ∀ k < e.numBlocks,
          dev.OnDisk (e.diskBlock + k) := by
  constructor
  · intro hExact
    constructor
    · intro e hMem hHole
      rcases hSummed.all e hMem 0 (hSome e hMem) with
        ⟨data, hIn⟩
      rcases hExact.only _ hIn with
        ⟨e', _, hDisk, k, _, hAt⟩
      rw [hHole, Nat.zero_add, Nat.zero_mul] at hAt
      rcases Nat.mul_eq_zero.mp hAt.symm with hZero | hZero
      · omega
      · exact absurd hZero (Nat.ne_of_gt dev.sectorsize_pos)
    · intro e hMem k hK
      rcases hSummed.all e hMem k hK with ⟨data, hIn⟩
      exact dev.holds_not_behind (hExact.bytes _ hIn)
  · rintro ⟨hData, hBytes⟩
    refine ⟨?_, ?_, fun e hMem _ => hSummed.all e hMem⟩
    · intro c hMem
      rcases hSummed.only c hMem with ⟨e, hIn, hSum⟩
      exact ⟨e, hIn, hData e hIn, hSum⟩
    · intro c hMem
      rcases hSummed.only c hMem with ⟨e, hIn, k, hK, hAt⟩
      rcases hSummed.bytes c hMem with hHolds | hBehind
      · exact hHolds
      · rw [hAt] at hBehind
        exact absurd hBehind (hBytes e hIn k hK)

----------
-- Holes
----------

/- Each block up to the last one of the file is given. -/
structure HoleFree
    (dev : Device)
    (inodeSize : Nat)
    (pairs : List (Nat × Nat)) : Prop where
  between : ∀ p ∈ pairs, ∀ f < p.1, ∃ q ∈ pairs, q.1 = f
  tail :
    ∀ f < lastBlock dev inodeSize, ∃ q ∈ pairs, q.1 = f

/- A hole has a block 0, and a data extent has none. -/
theorem hole_iff
    {start stop : Nat}
    (hFiles : Consecutive start es stop) :
    (∃ e ∈ es, e.diskBlock = 0) ↔ 0 ∈ cells es := by
  induction es generalizing start with
  | nil => simp [cells]
  | cons e es ih =>
      have hRest := ih hFiles.2.2
      have hHead : e.diskBlock = 0 ↔ 0 ∈ e.cells := by
        unfold FileExtent.cells
        split
        · rename_i hHole
          have hSome : e.numBlocks ≠ 0 :=
            Nat.ne_of_gt hFiles.2.1
          simp [hHole, hSome]
        · rename_i hData
          simp only [hData, false_iff, List.mem_range'_1,
            not_and, not_lt]
          omega
      unfold cells at hRest ⊢
      rw [List.flatMap_cons, List.mem_append, ← hHead, ← hRest]
      simp

/- There is a gap between the blocks that are given. -/
theorem gap_iff
    (hAll : Ascends 0 pairs)
    (hDisk : ∀ p ∈ pairs, p.2 ≠ 0) :
    0 ∈ placeAll pairs [] ↔
      ∃ p ∈ pairs, ∃ f < p.1, ∀ q ∈ pairs, q.1 ≠ f := by
  have hStart : Ascends ([] : List Nat).length pairs := hAll
  rcases placeAll_spec hStart with ⟨hPlaced, hHoles, hLast⟩
  constructor
  · intro hMem
    rcases List.mem_iff_getElem?.mp hMem with ⟨f, hAt⟩
    rcases List.getElem?_eq_some_iff.mp hAt with ⟨hIn, _⟩
    have hNone : ∀ q ∈ pairs, q.1 ≠ f := by
      intro q hQ hSame
      have hQAt := hPlaced q hQ
      rw [hSame, hAt] at hQAt
      exact hDisk q hQ (Option.some.inj hQAt).symm
    rcases hLast (Nat.lt_of_le_of_lt (Nat.zero_le f) hIn) with
      ⟨p, hP, hEnd⟩
    have hNot := hNone p hP
    exact ⟨p, hP, f, by omega, hNone⟩
  · rintro ⟨p, hP, f, hLess, hNone⟩
    rcases List.getElem?_eq_some_iff.mp (hPlaced p hP) with
      ⟨hIn, _⟩
    exact List.mem_iff_getElem?.mpr
      ⟨f, hHoles f (Nat.zero_le f) (by omega) hNone⟩

variable {d : BlkIterateData}
variable {inodeSize : Nat}

/- No hole is recorded. -/
theorem noHole_iff
    (hFollows : Follows dev es d (placeAll pairs []))
    (hAll : Ascends 0 pairs)
    (hDisk : ∀ p ∈ pairs, p.2 ≠ 0) :
    (∀ e ∈ es ++ d.hole (lastBlock dev inodeSize),
        e.diskBlock ≠ 0) ↔
      HoleFree dev inodeSize pairs := by
  have hStart : Ascends ([] : List Nat).length pairs := hAll
  rcases placeAll_spec hStart with ⟨hPlaced, _, _⟩
  have hFiles := hFollows.files.append (consecutive_run d)
  have hEs :
      (∀ e ∈ es, e.diskBlock ≠ 0) ↔
        0 ∉ placeAll pairs [] := by
    rw [← hFollows.cells, ← hole_iff hFiles]
    constructor
    · rintro hData ⟨e, hMem, hHole⟩
      rcases List.mem_append.mp hMem with hMem | hMem
      · exact hData e hMem hHole
      · unfold BlkIterateData.run at hMem
        split at hMem
        · rename_i hSome
          rw [List.mem_singleton.mp hMem] at hHole
          exact (hFollows.run hSome).disk hHole
        · cases hMem
    · intro hNone e hMem hHole
      exact hNone ⟨e, List.mem_append_left _ hMem, hHole⟩
  have hTail :
      (∀ e ∈ d.hole (lastBlock dev inodeSize),
          e.diskBlock ≠ 0) ↔
        lastBlock dev inodeSize ≤
          (placeAll pairs []).length := by
    rw [← hFollows.length]
    unfold BlkIterateData.hole
    split
    · rename_i hGap
      simp only [List.mem_singleton, forall_eq, ne_eq,
        not_true_eq_false, false_iff]
      omega
    · rename_i hNone
      simp only [List.not_mem_nil, false_implies,
        implies_true, true_iff]
      omega
  have hIn : ∀ q ∈ pairs,
      q.1 < (placeAll pairs []).length := by
    intro q hQ
    exact (List.getElem?_eq_some_iff.mp (hPlaced q hQ)).1
  rw [List.forall_mem_append, hEs, hTail, gap_iff hAll hDisk]
  constructor
  · rintro ⟨hNoGap, hShort⟩
    have hBetween : ∀ p ∈ pairs, ∀ f < p.1,
        ∃ q ∈ pairs, q.1 = f := by
      intro p hP f hLess
      by_contra hNone
      exact hNoGap ⟨p, hP, f, hLess, fun q hQ hSame =>
        hNone ⟨q, hQ, hSame⟩⟩
    refine ⟨hBetween, ?_⟩
    intro f hLess
    rcases (placeAll_spec hStart).2.2 (by
        simp only [List.length_nil]
        omega) with ⟨p, hP, hEnd⟩
    by_cases hLast : f = p.1
    · exact ⟨p, hP, hLast.symm⟩
    · exact hBetween p hP f (by omega)
  · rintro ⟨hBetween, hGiven⟩
    constructor
    · rintro ⟨p, hP, f, hLess, hNone⟩
      rcases hBetween p hP f hLess with ⟨q, hQ, hSame⟩
      exact hNone q hQ hSame
    · by_contra hLong
      rcases hGiven (placeAll pairs []).length (by omega) with
        ⟨q, hQ, hSame⟩
      have hLess := hIn q hQ
      omega

/- The disk blocks that are placed. -/
theorem mem_placeAll
    {b : Nat}
    (hAll : Ascends 0 pairs)
    (hData : b ≠ 0) :
    b ∈ placeAll pairs [] ↔ ∃ p ∈ pairs, p.2 = b := by
  have hStart : Ascends ([] : List Nat).length pairs := hAll
  rcases placeAll_spec hStart with ⟨hPlaced, hHoles, _⟩
  constructor
  · intro hMem
    rcases List.mem_iff_getElem?.mp hMem with ⟨f, hAt⟩
    rcases List.getElem?_eq_some_iff.mp hAt with ⟨hIn, _⟩
    by_contra hNone
    have hHole := hHoles f (Nat.zero_le f) hIn
    rw [hAt] at hHole
    refine hData (Option.some.inj (hHole ?_))
    intro p hP hSame
    have hPAt := hPlaced p hP
    rw [hSame, hAt] at hPAt
    exact hNone ⟨p, hP, (Option.some.inj hPAt).symm⟩
  · rintro ⟨p, hP, hSame⟩
    rw [← hSame]
    exact List.mem_iff_getElem?.mpr ⟨p.1, hPlaced p hP⟩

/- The disk blocks of data extents. -/
theorem mem_cells
    {b : Nat}
    (hData : b ≠ 0) :
    b ∈ cells es ↔
      ∃ e ∈ es, e.diskBlock ≠ 0 ∧
        ∃ k < e.numBlocks, e.diskBlock + k = b := by
  have hHere (e : FileExtent) :
      b ∈ e.cells ↔
        e.diskBlock ≠ 0 ∧
          ∃ k < e.numBlocks, e.diskBlock + k = b := by
    unfold FileExtent.cells
    split
    · rename_i hHole
      simp only [List.mem_replicate, hData, and_false,
        hHole, ne_eq, not_true_eq_false, false_and]
    · rename_i hDisk
      rw [List.mem_range'_1]
      constructor
      · intro hIn
        exact ⟨hDisk, b - e.diskBlock, by omega, by omega⟩
      · rintro ⟨_, k, hK, hSame⟩
        omega
  unfold cells
  simp only [List.mem_flatMap, hHere]

/- The blocks of the extents are those that are given. -/
theorem onDisk_iff
    (hFollows : Follows dev es d (placeAll pairs []))
    (hAll : Ascends 0 pairs)
    (hDisk : ∀ p ∈ pairs, p.2 ≠ 0) :
    (∀ e ∈ es ++ d.run, e.diskBlock ≠ 0 →
        ∀ k < e.numBlocks, dev.OnDisk (e.diskBlock + k)) ↔
      ∀ p ∈ pairs, dev.OnDisk p.2 := by
  constructor
  · intro hExtents p hP
    have hMem : p.2 ∈ cells (es ++ d.run) := by
      rw [hFollows.cells]
      exact (mem_placeAll hAll (hDisk p hP)).mpr ⟨p, hP, rfl⟩
    rcases (mem_cells (hDisk p hP)).mp hMem with
      ⟨e, hIn, hData, k, hK, hSame⟩
    rw [← hSame]
    exact hExtents e hIn hData k hK
  · intro hPairs e hIn hData k hK
    have hSome : e.diskBlock + k ≠ 0 := by omega
    have hMem : e.diskBlock + k ∈ cells (es ++ d.run) :=
      (mem_cells hSome).mpr ⟨e, hIn, hData, k, hK, rfl⟩
    rw [hFollows.cells] at hMem
    rcases (mem_placeAll hAll hSome).mp hMem with
      ⟨p, hP, hSame⟩
    rw [← hSame]
    exact hPairs p hP

----------
-- Packed Files
----------

/- Blocks that follow one on the other, up to a boundary. -/
def GoesOn
    (dev : Device)
    (boundary : Nat) :
    Nat → Nat → List (Nat × Nat) → Prop
  | _, _, [] => True
  | fileBlock, diskBlock, p :: pairs =>
      p = (fileBlock, diskBlock) ∧ ¬ dev.InSb diskBlock ∧
        diskBlock < boundary ∧
        GoesOn dev boundary (fileBlock + 1) (diskBlock + 1)
          pairs

/- The blocks of the file are one run from its start. -/
def OneRun
    (dev : Device) :
    List (Nat × Nat) → Prop
  | [] => False
  | (fileBlock, diskBlock) :: pairs =>
      fileBlock = 0 ∧ ∃ boundary,
        newBoundary dev diskBlock = some boundary ∧
          GoesOn dev boundary 1 (diskBlock + 1) pairs

/- The file is packed into the tree. -/
structure Packed
    (dev : Device)
    (packing : Bool)
    (inodeSize : Nat)
    (pairs : List (Nat × Nat)) : Prop where
  asked : packing = true
  small : inodeSize ≤ dev.maxInline
  run : OneRun dev pairs

theorem endsRun_false_iff
    (dev : Device)
    (diskBlock : Nat)
    {fileBlock : Nat}
    (hSome : 0 < d.numBlocks)
    (hLater : d.firstBlock + d.numBlocks ≤ fileBlock) :
    endsRun dev d diskBlock fileBlock = false ↔
      (fileBlock, diskBlock) =
          (d.firstBlock + d.numBlocks,
            d.diskBlock + d.numBlocks) ∧
        ¬ dev.InSb diskBlock ∧ diskBlock < d.boundary := by
  unfold endsRun Device.InSb
  simp only [decide_eq_false_iff_not, not_or, not_and,
    not_lt, not_not, Prod.mk.injEq, hSome, true_implies,
    not_le]
  constructor
  · rintro ⟨hClear, hFile, hSame⟩
    exact ⟨⟨Nat.le_antisymm hFile hLater, hSame⟩, hClear⟩
  · rintro ⟨⟨hFile, hSame⟩, hClear⟩
    exact ⟨hClear, Nat.le_of_eq hFile, hSame⟩

/- The run that is pending at the end is the first one. -/
theorem blockIterate_firstBlock
    {checksum : Bool}
    {d d' : BlkIterateData}
    (hSome : 0 < d.numBlocks)
    (hAll : Ascends (d.firstBlock + d.numBlocks) pairs)
    (hRun :
      blockIterate dev treeError checksum pairs d w =
        .ok (d', w')) :
    0 < d'.numBlocks ∧
      (d'.firstBlock = 0 ↔
        d.firstBlock = 0 ∧
          GoesOn dev d.boundary (d.firstBlock + d.numBlocks)
            (d.diskBlock + d.numBlocks) pairs) := by
  induction pairs generalizing d w with
  | nil =>
      cases hRun
      exact ⟨hSome, fun hZero => ⟨hZero, trivial⟩,
        fun hBoth => hBoth.1⟩
  | cons p pairs ih =>
      have hLater := hAll.after p (List.mem_cons_self ..)
      have hEnds :=
        endsRun_false_iff dev p.2 hSome hLater
      unfold blockIterate at hRun
      split at hRun
      · cases hRun
      · rename_i d₁ w₁ hCall
        unfold blockIterateProc at hCall
        split at hCall
        · rename_i hEnd
          split at hCall
          · cases hCall
          · split at hCall
            · cases hCall
            · cases hCall
              rcases ih Nat.zero_lt_one hAll.tail hRun with
                ⟨hMore, hFirst⟩
              refine ⟨hMore, ?_⟩
              rw [hFirst]
              dsimp only
              constructor
              · rintro ⟨hZero, _⟩
                omega
              · rintro ⟨_, hHere, hSb, hBound, _⟩
                rw [hEnds.mpr ⟨hHere, by
                  rw [hHere]
                  exact ⟨hSb, hBound⟩⟩] at hEnd
                cases hEnd
        · rename_i hOn
          cases hCall
          rcases hEnds.mp (Bool.not_eq_true _ ▸ hOn) with
            ⟨hHere, hSb, hBound⟩
          have hTail : Ascends
              (d.firstBlock + (d.numBlocks + 1)) pairs := by
            rw [← Nat.add_assoc,
              ← (Prod.mk.inj hHere).1]
            exact hAll.tail
          rcases ih (Nat.succ_pos _) hTail hRun with
            ⟨hMore, hFirst⟩
          refine ⟨hMore, ?_⟩
          rw [hFirst]
          rw [(Prod.mk.inj hHere).2] at hSb hBound
          constructor
          · rintro ⟨hZero, hRest⟩
            exact ⟨hZero, hHere, hSb, hBound, hRest⟩
          · rintro ⟨hZero, _, _, _, hRest⟩
            exact ⟨hZero, hRest⟩

/- The file is packed just when its blocks are one run. -/
theorem packs_iff
    (packing : Bool)
    (inodeSize : Nat)
    (hAll : Ascends 0 pairs)
    (hDisk : ∀ p ∈ pairs, p.2 ≠ 0)
    (hRun :
      blockIterate dev treeError true pairs startData w =
        .ok (d, w')) :
    packs dev packing inodeSize d = true ↔
      Packed dev packing inodeSize pairs := by
  have hOne :
      d.firstBlock = 0 ∧ 0 < d.numBlocks ↔ OneRun dev pairs := by
    cases pairs with
    | nil =>
        cases hRun
        exact ⟨fun h => absurd h.2 (Nat.lt_irrefl 0),
          False.elim⟩
    | cons p pairs =>
        have hData := hDisk p (List.mem_cons_self ..)
        have hEnds :
            endsRun dev startData p.2 p.1 = true := by
          unfold endsRun
          rw [decide_eq_true_eq]
          exact .inr (.inr hData)
        unfold blockIterate blockIterateProc at hRun
        rw [if_pos hEnds] at hRun
        split at hRun
        · cases hRun
        · rename_i d₁ w₁ hCall
          split at hCall
          · cases hCall
          · split at hCall
            · cases hCall
            · rename_i boundary hBoundary
              cases hCall
              rcases blockIterate_firstBlock Nat.zero_lt_one
                  hAll.tail hRun with ⟨hMore, hFirst⟩
              unfold OneRun
              rw [and_iff_left hMore, hFirst]
              dsimp only
              constructor
              · rintro ⟨hZero, hRest⟩
                rw [hZero] at hRest
                exact ⟨hZero, boundary, hBoundary, hRest⟩
              · rintro ⟨hZero, boundary', hSame, hRest⟩
                rw [hBoundary] at hSame
                cases hSame
                rw [hZero]
                exact ⟨rfl, hRest⟩
  unfold packs
  rw [decide_eq_true_eq]
  constructor
  · rintro ⟨hAsked, hZero, hSome, hSmall⟩
    exact ⟨hAsked, hSmall, hOne.mp ⟨hZero, hSome⟩⟩
  · intro hPacked
    rcases hOne.mpr hPacked.run with ⟨hZero, hSome⟩
    exact ⟨hPacked.asked, hZero, hSome, hPacked.small⟩

theorem Consecutive.some
    {start stop : Nat}
    (hFiles : Consecutive start es stop) :
    ∀ e ∈ es, 0 < e.numBlocks := by
  induction es generalizing start with
  | nil =>
      intro e hMem
      cases hMem
  | cons x es ih =>
      intro e hMem
      rcases List.mem_cons.mp hMem with hHead | hTail
      · rw [hHead]
        exact hFiles.2.1
      · exact ih hFiles.2.2 e hTail

theorem hole_some
    (d : BlkIterateData)
    (fileBlock : Nat) :
    ∀ e ∈ d.hole fileBlock, 0 < e.numBlocks := by
  intro e hMem
  unfold BlkIterateData.hole at hMem
  split at hMem
  · rename_i hGap
    rw [List.mem_singleton.mp hMem]
    exact Nat.sub_pos_of_lt hGap
  · cases hMem

/-
  The last steps of `create_file_extents`: the pending run, or
  its data in the tree, and the hole at the end.
-/
theorem lastRecords_summed
    {packing : Bool}
    (hRun :
      createFileExtents dev treeError true packing inodeSize
        pairs w = .ok w') :
    ∃ d w₁ last cs,
      blockIterate dev treeError true pairs startData w =
          .ok (d, w₁) ∧
        last =
          (if packs dev packing inodeSize d then []
          else d.run) ∧
        w'.extents = w₁.extents ++
          (last ++ d.hole (lastBlock dev inodeSize)) ∧
        w'.csums = w₁.csums ++ cs ∧
        Summed dev
          (last ++ d.hole (lastBlock dev inodeSize)) cs := by
  unfold createFileExtents at hRun
  split at hRun
  · cases hRun
  · rename_i d w₁ hIterate
    dsimp only at hRun
    split at hRun
    · cases hRun
    · rename_i w₂ hLast
      have hHole := recordAll_extents hRun
      rcases recordAll_summed hRun with ⟨cs, hCs, hSummed⟩
      split at hLast
      · rename_i hPacks
        unfold insertInline at hLast
        dsimp only at hLast
        split at hLast
        · cases hLast
        · split at hLast
          · cases hLast
          · cases hLast
            exact ⟨d, w₁, [], cs, hIterate,
              (if_pos hPacks).symm, hHole.1, hCs, hSummed⟩
      · rename_i hPacks
        have hPending := recordAll_extents hLast
        rcases recordAll_summed hLast with
          ⟨cs', hCs', hSummed'⟩
        refine ⟨d, w₁, d.run, cs' ++ cs, hIterate,
          (if_neg hPacks).symm, ?_, ?_,
          hSummed'.append hSummed⟩
        · rw [hHole.1, hPending.1, List.append_assoc]
        · rw [hCs, hCs', List.append_assoc]

end Sums

/-
  With checksums, those of exactly the data extents are added
  just when the file has no hole and, unless it is packed, each
  of its blocks is on the disk.
-/
theorem createFileExtents_csums_iff
    (dev : Device)
    (treeError : TreeError)
    (packing : Bool)
    (inodeSize : Nat)
    (pairs : List (Nat × Nat))
    (w w' : Written)
    (hFiles : pairs.Pairwise fun p q => p.1 < q.1)
    (hDisk : ∀ p ∈ pairs, p.2 ≠ 0 ∧ dev.Has p.2)
    (hRun :
      createFileExtents dev treeError true packing inodeSize
        pairs w = .ok w') :
    ∃ es cs, w'.extents = w.extents ++ es ∧
      w'.csums = w.csums ++ cs ∧
      (ExactCsums dev es cs ↔
        HoleFree dev inodeSize pairs ∧
          (Packed dev packing inodeSize pairs ∨
            ∀ p ∈ pairs, dev.OnDisk p.2)) := by
  rcases lastRecords_summed hRun with
    ⟨d, w₁, last, cs, hIterate, hLast, hExtents, hCsums,
      hSummed⟩
  have hAll : Ascends ([] : List Nat).length pairs :=
    ⟨hFiles, fun _ _ => Nat.zero_le _⟩
  rcases blockIterate_follows (follows_start dev) hAll hDisk
      hIterate with
    ⟨es, hEs, _, hFollows⟩
  rw [List.nil_append] at hFollows
  rcases blockIterate_summed hIterate with
    ⟨es', cs', hEs', hCs', hSummed'⟩
  have hSame : es' = es :=
    List.append_cancel_left (hEs'.symm.trans hEs)
  rw [hSame] at hSummed'
  have hWhole := hSummed'.append hSummed
  refine ⟨es ++ (last ++ d.hole (lastBlock dev inodeSize)),
    cs' ++ cs, ?_, ?_, ?_⟩
  · rw [hExtents, hEs, List.append_assoc]
  · rw [hCsums, hCs', List.append_assoc]
  · have hRunData : ∀ e ∈ d.run,
        e.diskBlock ≠ 0 ∧ 0 < e.numBlocks := by
      intro e hMem
      unfold BlkIterateData.run at hMem
      split at hMem
      · rename_i hSome
        rw [List.mem_singleton.mp hMem]
        exact ⟨(hFollows.run hSome).disk, hSome⟩
      · cases hMem
    have hLastData : ∀ e ∈ last,
        e.diskBlock ≠ 0 ∧ 0 < e.numBlocks := by
      rw [hLast]
      split
      · intro e hMem
        cases hMem
      · exact hRunData
    have hSome : ∀ e ∈ es ++
        (last ++ d.hole (lastBlock dev inodeSize)),
        0 < e.numBlocks := by
      intro e hMem
      rcases List.mem_append.mp hMem with hMem | hMem
      · exact hFollows.files.some e hMem
      · rcases List.mem_append.mp hMem with hMem | hMem
        · exact (hLastData e hMem).2
        · exact hole_some d _ e hMem
    have hData : ∀ p ∈ pairs, p.2 ≠ 0 :=
      fun p hMem => (hDisk p hMem).1
    have hOnDisk := onDisk_iff hFollows hAll hData
    have hPacks :=
      packs_iff packing inodeSize hAll hData hIterate
    rw [hWhole.exact_iff hSome,
      ← noHole_iff hFollows hAll hData]
    simp only [List.forall_mem_append] at hOnDisk ⊢
    constructor
    · rintro ⟨⟨hFirst, _, hHole⟩, hRead, hReadLast, _⟩
      refine ⟨⟨hFirst, hHole⟩, ?_⟩
      by_cases hPack : packs dev packing inodeSize d = true
      · exact .inl (hPacks.mp hPack)
      · rw [hLast, if_neg hPack] at hReadLast
        exact .inr (hOnDisk.mp
          ⟨fun e hMem _ => hRead e hMem,
            fun e hMem _ => hReadLast e hMem⟩)
    · rintro ⟨⟨hFirst, hHole⟩, hRead⟩
      refine ⟨⟨hFirst, fun e hMem => (hLastData e hMem).1,
        hHole⟩, ?_⟩
      have hNoTail : ∀ e ∈ d.hole (lastBlock dev inodeSize),
          ∀ k < e.numBlocks,
            dev.OnDisk (e.diskBlock + k) := by
        intro e hMem
        have hZero : e.diskBlock = 0 := by
          unfold BlkIterateData.hole at hMem
          split at hMem
          · rw [List.mem_singleton.mp hMem]
          · cases hMem
        exact absurd hZero (hHole e hMem)
      rcases hRead with hPacked | hPairs
      · have hPack := hPacks.mpr hPacked
        have hNone : last = [] := hLast.trans (if_pos hPack)
        -- The pending run is from block 0: none is before it.
        have hNoneBefore : es = [] := by
          have hZero : d.firstBlock = 0 := by
            unfold packs at hPack
            rw [decide_eq_true_eq] at hPack
            exact hPack.2.1
          have hBefore := hFollows.files
          rw [hZero] at hBefore
          cases es with
          | nil => rfl
          | cons e es =>
              have hEnd := hBefore.2.2.length
              have hHead := hBefore.2.1
              omega
        rw [hNone, hNoneBefore]
        exact ⟨fun e hMem => absurd hMem List.not_mem_nil,
          fun e hMem => absurd hMem List.not_mem_nil, hNoTail⟩
      · have hBlocks := hOnDisk.mpr hPairs
        refine ⟨fun e hMem => hBlocks.1 e hMem (hFirst e hMem),
          ?_, hNoTail⟩
        intro e hMem
        have hSomeLast := (hLastData e hMem).1
        rw [hLast] at hMem
        split at hMem
        · cases hMem
        · exact hBlocks.2 e hMem hSomeLast

----------
-- A Sparse File
----------

/- A device of 64 blocks in one group. -/
def smallDevice : Device where
  sectorsize := 4096
  maxInline := 3916
  groups := [⟨0, 262144⟩]
  pread := fun bytenr n =>
    some (List.replicate n (UInt8.ofNat (bytenr / 4096)))
  malloc := fun n => List.replicate n 0
  malloc_length := twoGroups.malloc_length
  sectorsize_pos := page_pos
  sectorsize_dvd := twoGroups.sectorsize_dvd
  tiles := ⟨rfl, trivial⟩
  aligned := by decide

/- Two blocks, the first of them a hole. -/
def sparseBlocks : List (Nat × Nat) := [(1, 40)]

def sparseWritten : Written where
  extents := [⟨0, 0, 1⟩, ⟨1, 40, 1⟩]
  inline := []
  csums :=
    [(0, List.replicate 4096 0),
      (163840, List.replicate 4096 40)]

/- Each block of the device is read whole. -/
theorem smallDevice_records
    (f b : Nat)
    (w : Written) :
    recordFileBlocks smallDevice (fun _ => none) true
        ⟨f, b, 1⟩ w =
      .ok ⟨w.extents ++ [⟨f, b, 1⟩], w.inline,
        w.csums ++ [(b * 4096,
          List.replicate 4096
            (UInt8.ofNat (b * 4096 / 4096)))]⟩ := by
  have hRead : smallDevice.readDiskExtent (b * 4096) 4096
      (smallDevice.malloc 4096) =
        .ok (List.replicate 4096
          (UInt8.ofNat (b * 4096 / 4096))) := by
    unfold Device.readDiskExtent smallDevice
    dsimp only
    rw [if_pos (.inl List.length_replicate),
      List.length_replicate, List.drop_eq_nil_of_le
        (Nat.le_of_eq List.length_replicate), List.append_nil]
  have hSector : smallDevice.sectorsize = 4096 := rfl
  unfold recordFileBlocks csumDiskExtent csumBlocks
    csumFileBlock
  dsimp only
  rw [hSector, hRead]
  rfl

theorem sparse_written :
    createFileExtents smallDevice (fun _ => none) true false
        8192 sparseBlocks ⟨[], [], []⟩ = .ok sparseWritten := by
  have hIterate :
      blockIterate smallDevice (fun _ => none) true sparseBlocks
          startData ⟨[], [], []⟩ =
        .ok (⟨1, 40, 1, 64⟩,
          ⟨[⟨0, 0, 1⟩], [], [(0, List.replicate 4096 0)]⟩) := by
    unfold sparseBlocks blockIterate blockIterateProc
    rw [if_pos (by decide)]
    have hHole : startData.run ++ startData.hole 1 =
        [⟨0, 0, 1⟩] := rfl
    rw [hHole]
    unfold recordAll
    rw [smallDevice_records]
    rfl
  unfold createFileExtents
  rw [hIterate]
  dsimp only
  rw [if_neg (by decide)]
  have hRun :
      (⟨1, 40, 1, 64⟩ : BlkIterateData).run =
        [⟨1, 40, 1⟩] := rfl
  rw [hRun]
  unfold recordAll
  rw [smallDevice_records]
  rfl

/- There is a checksum of the first block of the disk. -/
theorem sparse_not_exact :
    createFileExtents smallDevice (fun _ => none) true false
        8192 sparseBlocks ⟨[], [], []⟩ = .ok sparseWritten ∧
      ¬ ExactCsums smallDevice sparseWritten.extents
        sparseWritten.csums := by
  refine ⟨sparse_written, ?_⟩
  intro hExact
  rcases hExact.only (0, List.replicate 4096 0)
      (List.mem_cons_self ..) with
    ⟨e, hMem, hDisk, k, _, hAt⟩
  rcases Nat.mul_eq_zero.mp hAt.symm with hZero | hZero
  · omega
  · exact absurd hZero (by decide)

/- The result is an instance of this file. -/
theorem sparse_csums :
    ∃ es cs,
      sparseWritten.extents = ([] : List FileExtent) ++ es ∧
      sparseWritten.csums =
        ([] : List (Nat × List UInt8)) ++ cs ∧
      (ExactCsums smallDevice es cs ↔
        HoleFree smallDevice 8192 sparseBlocks ∧
          (Packed smallDevice false 8192 sparseBlocks ∨
            ∀ p ∈ sparseBlocks, smallDevice.OnDisk p.2)) := by
  refine createFileExtents_csums_iff smallDevice
    (fun _ => none) false 8192 sparseBlocks ⟨[], [], []⟩
    sparseWritten (by decide) ?_ sparse_written
  intro p hMem
  rw [List.mem_singleton.mp hMem]
  exact ⟨by decide, ⟨0, 262144⟩, List.mem_singleton_self _,
    by decide, by decide⟩

end Convert

end BtrfsProgs
