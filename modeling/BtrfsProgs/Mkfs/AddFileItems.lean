import BtrfsProgs.Basic
import BtrfsProgs.Lib.Loop

/-
  `add_file_items`, from `mkfs.c`, and what it stores of a file
  when it returns 0.

  A read that fails leaves the variable of the result as the
  step before set it.

  Main declarations:
    * `addFileItems`
    * `Chain` and `Whole`
    * `addFileItems_whole_iff`
-/

----------
-- The Function
----------

namespace BtrfsProgs

namespace Mkfs

namespace FileItems

/-
  A regular file, and the results of the steps for each file
  position. `left` is what `malloc` leaves in a buffer, `pread`
  the number of the bytes that are read. A sector is a divisor
  of the longest extent, and no data is at the address 0.
-/
structure Source where
  size : Nat
  content : Nat → UInt8
  sectorsize : Nat
  maxInline : Nat
  left : Nat → UInt8
  opens : Bool
  allocs : Bool
  pread : Nat → Nat → Option Nat
  insertInline : Int
  reserve : Nat → Int × Nat
  csum : Nat → Int
  write : Nat → Int
  insertHole : Nat → Int
  insertData : Nat → Int
  insertExtent : Nat → Int
  updateGroup : Nat → Int
  incRef : Nat → Int
  sectorsize_pos : 0 < sectorsize
  sectorsize_dvd : sectorsize ∣ 1024 * 1024
  reserve_ne : ∀ pos, (reserve pos).1 = 0 → (reserve pos).2 ≠ 0

/- A sector that is written, and the one of its checksum. -/
structure Sector where
  data : List UInt8
  sum : List UInt8
deriving Repr, DecidableEq

/- A file extent, with what was written to it, in order. -/
structure Extent where
  filePos : Nat
  diskBytenr : Nat
  numBytes : Nat
  sectors : List Sector
deriving Repr, DecidableEq

inductive Items where
  | inline (bytes : List UInt8)
  | regular (extents : List Extent)
deriving Repr, DecidableEq

/- `blocks`, an `int`. -/
def Source.blocks
    (f : Source) : Int :=
  let blocks :=
    Int.bmod (f.size / f.sectorsize : Nat) (2 ^ 32)
  if f.size % f.sectorsize = 0 then blocks
  else Int.bmod (blocks + 1) (2 ^ 32)

/- `(u64)blocks * sectorsize` -/
def Source.totalBytes
    (f : Source) : Nat :=
  (f.blocks * f.sectorsize % 2 ^ 64).toNat

/- The buffer of an inline extent after a read. -/
def Source.buffer
    (f : Source)
    (n : Nat) : List UInt8 :=
  (List.range f.size).map fun i =>
    if i < n then f.content i else f.left i

/- A zeroed sector after a read. -/
def Source.sector
    (f : Source)
    (offset n : Nat) : List UInt8 :=
  (List.range f.sectorsize).map fun i =>
    if i < n then f.content (offset + i) else 0

/-
  `btrfs_record_file_extent`: its result, and whether the file
  extent was inserted.
-/
def recordFileExtent
    (f : Source)
    (filePos diskBytenr : Nat) : Int × Bool :=
  if diskBytenr = 0 then
    (f.insertHole filePos, f.insertHole filePos = 0)
  else if f.insertData filePos ≠ 0 then
    (f.insertData filePos, false)
  else if f.insertExtent filePos = 0 ∧
      f.updateGroup filePos ≠ 0 then
    (f.updateGroup filePos, true)
  else if f.insertExtent filePos ≠ 0 ∧
      f.insertExtent filePos ≠ -17 then
    (f.insertExtent filePos, true)
  else (f.incRef filePos, true)

/-
  The variables of the loops; `inner` is false at `again`. The
  sectors are those written for the extent at hand.
-/
structure Import where
  filePos : Nat
  totalBytes : Nat
  inner : Bool
  ret : Int
  curBytes : Nat
  firstBlock : Nat
  bytesRead : Nat
  sectors : List Sector
  extents : List Extent

/- From `again` to the inner loop, and a turn of that. -/
def turn
    (f : Source)
    (s : Import) : Import ⊕ (Int × List Extent) :=
  if ¬ s.inner then
    let (ret, firstBlock) := f.reserve s.filePos
    if ret ≠ 0 then .inr (ret, s.extents)
    else
      .inl { s with
        inner := true
        ret := ret
        curBytes := min s.totalBytes (1024 * 1024)
        firstBlock := firstBlock
        bytesRead := 0
        sectors := [] }
  else if s.bytesRead < s.curBytes then
    let offset := s.filePos + s.bytesRead
    match f.pread offset f.sectorsize with
    | none => .inr (s.ret, s.extents)
    | some n =>
        let data := f.sector offset n
        if f.csum offset ≠ 0 then .inr (f.csum offset, s.extents)
        else if f.write offset ≠ 0 then
          .inr (f.write offset, s.extents)
        else
          .inl { s with
            ret := f.write offset
            bytesRead := s.bytesRead + f.sectorsize
            sectors := s.sectors ++ [⟨data, data⟩] }
  else
    let (ret, added) :=
      if s.bytesRead = 0 then (s.ret, false)
      else recordFileExtent f s.filePos s.firstBlock
    let extents :=
      if added then
        s.extents ++
          [⟨s.filePos, s.firstBlock, s.curBytes, s.sectors⟩]
      else s.extents
    if ret ≠ 0 then .inr (ret, extents)
    else if s.totalBytes = s.curBytes then .inr (ret, extents)
    else
      .inl { s with
        filePos := s.filePos + s.curBytes
        totalBytes := s.totalBytes - s.curBytes
        inner := false
        ret := ret
        extents := extents }

def Source.start
    (f : Source) : Import where
  filePos := 0
  totalBytes := f.totalBytes
  inner := false
  ret := -1
  curBytes := 0
  firstBlock := 0
  bytesRead := 0
  sectors := []
  extents := []

/- `add_file_items`: its result, and the items it inserted. -/
def addFileItems
    (fuel : Nat)
    (f : Source) : Option (Int × Items) :=
  if ¬ f.opens then some (-1, .regular [])
  else if f.size ≤ f.maxInline then
    match f.pread 0 f.size with
    | none => some (-1, .regular [])
    | some n =>
        if f.insertInline = 0 then some (0, .inline (f.buffer n))
        else some (f.insertInline, .regular [])
  else if ¬ f.allocs then some (-12, .regular [])
  else
    (Loop.run (turn f) fuel f.start).map fun result =>
      (result.1, .regular result.2)

----------
-- What Is to Be Stored
----------

/- The size rounded up to the sector size. -/
def Source.rounded
    (f : Source) : Nat :=
  (f.size + f.sectorsize - 1) / f.sectorsize * f.sectorsize

/- The bytes of a sector, padded with zeros. -/
def Source.padded
    (f : Source)
    (offset : Nat) : List UInt8 :=
  f.sector offset (f.size - offset)

/- Sectors from an offset with a property, checksums included. -/
def Sectors
    (f : Source)
    (p : Nat → List UInt8 → Prop)
    (offset : Nat)
    (sectors : List Sector) : Prop :=
  ∀ i sector, sectors[i]? = some sector →
    sector.sum = sector.data ∧
      p (offset + i * f.sectorsize) sector.data

/- Extents from an offset to an offset, one after another. -/
def Chain
    (f : Source)
    (p : Nat → List UInt8 → Prop) :
    Nat → List Extent → Nat → Prop
  | start, [], stop => start = stop
  | start, extent :: extents, stop =>
      extent.filePos = start ∧ extent.diskBytenr ≠ 0 ∧
        0 < extent.numBytes ∧ extent.numBytes ≤ 1024 * 1024 ∧
          extent.sectors.length * f.sectorsize =
              extent.numBytes ∧
            Sectors f p start extent.sectors ∧
              Chain f p (start + extent.numBytes) extents stop

/- The data is that of the file at the offset. -/
def Source.Right
    (f : Source)
    (offset : Nat)
    (data : List UInt8) : Prop :=
  data = f.padded offset

/- All of the file is stored. -/
def Whole
    (f : Source) : Items → Prop
  | .inline bytes => bytes = (List.range f.size).map f.content
  | .regular extents => Chain f f.Right 0 extents f.rounded

/- It ends, and with 0 only if all of the file is stored. -/
def Stores
    (f : Source) : Prop :=
  ∃ fuel ret items, addFileItems fuel f = some (ret, items) ∧
    (ret = 0 → Whole f items)

/- A turn that reads. -/
def Import.Reads
    (s : Import) : Prop :=
  s.inner = true ∧ s.bytesRead < s.curBytes

/- A step other than a read has an error. -/
def StepFails
    (f : Source)
    (s : Import) : Prop :=
  if ¬ s.inner then (f.reserve s.filePos).1 ≠ 0
  else if s.bytesRead < s.curBytes then
    (f.pread (s.filePos + s.bytesRead) f.sectorsize).isSome ∧
      (f.csum (s.filePos + s.bytesRead) ≠ 0 ∨
        f.write (s.filePos + s.bytesRead) ≠ 0)
  else
    s.bytesRead ≠ 0 ∧
      (recordFileExtent f s.filePos s.firstBlock).1 ≠ 0

/- A read gives the bytes of the sector, but for zeros. -/
def ReadsRight
    (f : Source)
    (offset : Nat) : Prop :=
  ∃ n, f.pread offset f.sectorsize = some n ∧
    f.sector offset n = f.padded offset

/-
  For regular extents: a step other than a read fails, or the
  reads before the rounded size are right and the extents end
  there.
-/
def Loops
    (f : Source) : Prop :=
  (∃ s, Loop.Comes (turn f) f.start s ∧ StepFails f s) ∨
    (∀ offset, f.sectorsize ∣ offset → offset < f.rounded →
      ReadsRight f offset) ∧
      (f.totalBytes = f.rounded ∨
        ∃ s, Loop.Comes (turn f) f.start s ∧ s.Reads ∧
          s.filePos = f.rounded ∧
            f.pread (s.filePos + s.bytesRead) f.sectorsize =
              none)

/- When the file is stored. -/
def Met
    (f : Source) : Prop :=
  f.opens = true →
    if f.size ≤ f.maxInline then
      ∀ n, f.pread 0 f.size = some n → f.insertInline = 0 →
        f.buffer n = (List.range f.size).map f.content
    else f.allocs = true → Loops f

----------
-- Extents in a Row
----------

section Chains

variable {f : Source} {p q : Nat → List UInt8 → Prop}

theorem chain_append
    (extent : Extent)
    (hDisk : extent.diskBytenr ≠ 0)
    (hPos : 0 < extent.numBytes)
    (hMost : extent.numBytes ≤ 1024 * 1024)
    (hLength : extent.sectors.length * f.sectorsize =
      extent.numBytes)
    (hSectors : Sectors f p extent.filePos extent.sectors)
    (extents : List Extent)
    (start : Nat)
    (hChain : Chain f p start extents extent.filePos) :
    Chain f p start (extents ++ [extent])
      (extent.filePos + extent.numBytes) := by
  induction extents generalizing start with
  | nil =>
      change start = extent.filePos at hChain
      subst hChain
      exact ⟨rfl, hDisk, hPos, hMost, hLength, hSectors, rfl⟩
  | cons first extents ih =>
      rcases hChain with
        ⟨hAt, hFirst, hSome, hLe, hWhole, hGood, hRest⟩
      exact ⟨hAt, hFirst, hSome, hLe, hWhole, hGood,
        ih _ hRest⟩

variable {extents : List Extent}

/- The extents have one end. -/
theorem Chain.stop
    {start stop stop' : Nat}
    (hChain : Chain f p start extents stop)
    (hOther : Chain f q start extents stop') :
    stop = stop' := by
  induction extents generalizing start with
  | nil => exact hChain.symm.trans hOther
  | cons extent extents ih =>
      exact ih hChain.2.2.2.2.2.2 hOther.2.2.2.2.2.2

theorem Chain.le
    {start stop : Nat}
    (hChain : Chain f p start extents stop) :
    start ≤ stop := by
  induction extents generalizing start with
  | nil => exact Nat.le_of_eq hChain
  | cons extent extents ih =>
      have hRest := ih hChain.2.2.2.2.2.2
      omega

/- The sectors before the end may have another property. -/
theorem Chain.imp
    {start stop : Nat}
    (hChain : Chain f p start extents stop)
    (hStart : f.sectorsize ∣ start)
    (hImp : ∀ offset data, f.sectorsize ∣ offset →
      offset < stop → p offset data → q offset data) :
    Chain f q start extents stop := by
  induction extents generalizing start with
  | nil => exact hChain
  | cons extent extents ih =>
      rcases hChain with
        ⟨hAt, hDisk, hSome, hLe, hWhole, hGood, hRest⟩
      have hEnd := hRest.le
      have hNext : f.sectorsize ∣ start + extent.numBytes :=
        Nat.dvd_add hStart (Dvd.intro_left _ hWhole)
      refine ⟨hAt, hDisk, hSome, hLe, hWhole, ?_,
        ih hRest hNext⟩
      intro i sector hSector
      rcases hGood i sector hSector with ⟨hSum, hData⟩
      have hIn := (List.getElem?_eq_some_iff.mp hSector).1
      have hLess := Nat.mul_lt_mul_of_pos_right hIn
        f.sectorsize_pos
      exact ⟨hSum, hImp _ _
        (Nat.dvd_add hStart (Dvd.intro_left i rfl)) (by omega) hData⟩

/- Each sector before the end is one of an extent. -/
theorem Chain.sector
    {start stop offset : Nat}
    (hChain : Chain f p start extents stop)
    (hOther : Chain f q start extents stop)
    (hFrom : start ≤ offset)
    (hLess : offset < stop)
    (hDvd : f.sectorsize ∣ offset - start) :
    ∃ data, p offset data ∧ q offset data := by
  induction extents generalizing start with
  | nil =>
      change start = stop at hChain
      omega
  | cons extent extents ih =>
      rcases hChain with ⟨_, _, _, _, hWhole, hGood, hRest⟩
      rcases hOther with ⟨_, _, _, _, _, hSame, hMore⟩
      by_cases hHere : offset < start + extent.numBytes
      · rcases hDvd with ⟨i, hi⟩
        rw [Nat.mul_comm] at hi
        have hOffset : offset = start + i * f.sectorsize := by
          omega
        have hIn : i < extent.sectors.length := by
          refine Nat.lt_of_mul_lt_mul_right
            (a := f.sectorsize) ?_
          omega
        have hSector := List.getElem?_eq_getElem hIn
        rw [hOffset]
        exact ⟨_, (hGood i _ hSector).2, (hSame i _ hSector).2⟩
      · refine ih hRest hMore (not_lt.mp hHere) ?_
        rw [← Nat.sub_sub]
        exact Nat.dvd_sub hDvd (Dvd.intro_left _ hWhole)

end Chains

----------
-- The Loops
----------

section Run

variable {f : Source} {s : Import}

/- What was read at an offset. -/
def Source.Read
    (f : Source)
    (offset : Nat)
    (data : List UInt8) : Prop :=
  ∃ n, f.pread offset f.sectorsize = some n ∧
    data = f.sector offset n

/-
  The extents are in a row up to the file position, and hold
  what was read; so do the sectors of the extent at hand.
-/
structure Inv
    (f : Source)
    (s : Import) : Prop where
  chain : Chain f f.Read 0 s.extents s.filePos
  total : s.filePos + s.totalBytes = f.totalBytes
  dvd : f.sectorsize ∣ s.totalBytes
  ret : s.inner = true → s.ret = 0
  first : s.inner = true → s.firstBlock ≠ 0
  cur :
    s.inner = true →
      s.curBytes = min s.totalBytes (1024 * 1024)
  read :
    s.inner = true →
      s.bytesRead = s.sectors.length * f.sectorsize ∧
        s.bytesRead ≤ s.curBytes
  sectors :
    s.inner = true → Sectors f f.Read s.filePos s.sectors

theorem start_inv
    (f : Source) :
    Inv f f.start := by
  have hDvd : f.sectorsize ∣ f.totalBytes := by
    have hPow : (f.sectorsize : Int) ∣ 2 ^ 64 := by
      have hBig : (1024 * 1024 : Nat) ∣ 2 ^ 64 := by decide
      exact_mod_cast f.sectorsize_dvd.trans hBig
    have hMod : (f.sectorsize : Int) ∣
        f.blocks * f.sectorsize % 2 ^ 64 := by
      rw [Int.emod_def]
      exact Int.dvd_sub (Dvd.intro_left _ rfl)
        (Dvd.dvd.mul_right hPow _)
    have hPos : 0 ≤ f.blocks * f.sectorsize % 2 ^ 64 :=
      Int.emod_nonneg _ (by decide)
    rw [← Int.natCast_dvd_natCast]
    unfold Source.totalBytes
    rwa [Int.toNat_of_nonneg hPos]
  exact ⟨rfl, Nat.zero_add _, hDvd, nofun, nofun, nofun, nofun,
    nofun⟩

/- The extent is there if the result is 0. -/
theorem recorded
    {filePos diskBytenr : Nat}
    (hZero : (recordFileExtent f filePos diskBytenr).1 = 0) :
    (recordFileExtent f filePos diskBytenr).2 = true := by
  unfold recordFileExtent at hZero ⊢
  split_ifs at hZero ⊢ with hHole hData
  · exact decide_eq_true hZero
  · exact absurd hZero hData
  · rfl
  · rfl
  · rfl

/- What is left of the loops. -/
def rank
    (s : Import) : Nat :=
  3 * s.totalBytes +
    if s.inner then s.curBytes - s.bytesRead
    else 1024 * 1024 + 1

/- The results: an error of a step, of a read, or the end. -/
def Result
    (f : Source)
    (s : Import)
    (w : Int × List Extent) : Prop :=
  (w.1 ≠ 0 ∧ StepFails f s) ∨
    (w = (0, s.extents) ∧ s.Reads ∧
      f.pread (s.filePos + s.bytesRead) f.sectorsize = none) ∨
    w.1 = 0 ∧ Chain f f.Read 0 w.2 f.totalBytes

/- A turn keeps the extents in a row. -/
def Kept
    (f : Source)
    (s : Import) :
    Import ⊕ (Int × List Extent) → Prop
  | .inl b => Inv f b ∧ rank b < rank s
  | .inr w => Result f s w

theorem Inv.reserves
    (hInv : Inv f s)
    (hAgain : s.inner = false) :
    Kept f s (turn f s) := by
  unfold turn
  rw [if_pos (by simp [hAgain])]
  dsimp only
  by_cases hZero : (f.reserve s.filePos).1 = 0
  · rw [if_neg (not_not.mpr hZero)]
    refine ⟨⟨hInv.chain, hInv.total, hInv.dvd, fun _ => hZero,
      fun _ => f.reserve_ne _ hZero, fun _ => rfl,
      fun _ => ⟨by simp, Nat.zero_le _⟩, ?_⟩, ?_⟩
    · intro _ i sector hSector
      cases hSector
    · unfold rank
      simp only [hAgain, if_true, Bool.false_eq_true, if_false]
      omega
  · rw [if_pos hZero]
    refine .inl ⟨hZero, ?_⟩
    unfold StepFails
    rwa [if_pos (by simp [hAgain])]

theorem Inv.reads
    (hInv : Inv f s)
    (hReads : s.Reads) :
    Kept f s (turn f s) := by
  rcases hReads with ⟨hInner, hLess⟩
  have hZero := hInv.ret hInner
  have hCur := hInv.cur hInner
  have hRead := hInv.read hInner
  have hFails : StepFails f s ↔
      (f.pread (s.filePos + s.bytesRead) f.sectorsize).isSome ∧
        (f.csum (s.filePos + s.bytesRead) ≠ 0 ∨
          f.write (s.filePos + s.bytesRead) ≠ 0) := by
    unfold StepFails
    rw [if_neg (by simp [hInner]), if_pos hLess]
  unfold turn
  rw [if_neg (by simp [hInner]), if_pos hLess]
  dsimp only
  cases hData :
      f.pread (s.filePos + s.bytesRead) f.sectorsize with
  | none =>
      refine .inr (.inl ⟨?_, ⟨hInner, hLess⟩, hData⟩)
      rw [hZero]
  | some n =>
      rw [hData] at hFails
      dsimp only
      by_cases hCsum : f.csum (s.filePos + s.bytesRead) = 0
      · rw [if_neg (not_not.mpr hCsum)]
        by_cases hWrite : f.write (s.filePos + s.bytesRead) = 0
        · rw [if_neg (not_not.mpr hWrite)]
          have hCurDvd : f.sectorsize ∣ s.curBytes := by
            rw [hCur]
            rcases min_choice s.totalBytes (1024 * 1024) with
              hMin | hMin
            · rw [hMin]
              exact hInv.dvd
            · rw [hMin]
              exact f.sectorsize_dvd
          have hNext : s.bytesRead + f.sectorsize ≤
              s.curBytes := by
            have hSub : f.sectorsize ∣
                s.curBytes - s.bytesRead :=
              Nat.dvd_sub hCurDvd
                (Dvd.intro_left _ hRead.1.symm)
            have hLe := Nat.le_of_dvd (by omega) hSub
            omega
          have hPos := f.sectorsize_pos
          refine ⟨⟨hInv.chain, hInv.total, hInv.dvd,
            fun _ => hWrite, hInv.first, hInv.cur,
            fun _ => ⟨?_, hNext⟩, ?_⟩, ?_⟩
          · rw [List.length_append, List.length_singleton,
              Nat.add_mul, Nat.one_mul, ← hRead.1]
          · intro _ i sector hSector
            dsimp only at hSector ⊢
            rw [List.getElem?_append] at hSector
            split at hSector
            · exact hInv.sectors hInner i sector hSector
            · rw [List.getElem?_singleton] at hSector
              split at hSector
              · cases hSector
                have hIs : i = s.sectors.length := by omega
                rw [hIs, ← hRead.1]
                exact ⟨rfl, n, hData, rfl⟩
              · cases hSector
          · unfold rank
            simp only [hInner, if_true]
            omega
        · rw [if_pos hWrite]
          exact .inl ⟨hWrite, hFails.mpr ⟨rfl, .inr hWrite⟩⟩
      · rw [if_pos hCsum]
        exact .inl ⟨hCsum, hFails.mpr ⟨rfl, .inl hCsum⟩⟩

theorem Inv.records
    (hInv : Inv f s)
    (hInner : s.inner = true)
    (hDone : ¬ s.bytesRead < s.curBytes) :
    Kept f s (turn f s) := by
  have hZero := hInv.ret hInner
  have hCur := hInv.cur hInner
  have hRead := hInv.read hInner
  have hTotal := hInv.total
  have hFull : s.bytesRead = s.curBytes := by omega
  unfold turn
  rw [if_neg (by simp [hInner]), if_neg hDone]
  by_cases hNone : s.bytesRead = 0
  · simp only [if_pos hNone, hZero]
    have hEnd : s.totalBytes = 0 := by omega
    rw [if_neg (by simp), if_pos (by omega)]
    refine .inr (.inr ⟨rfl, ?_⟩)
    have hChain := hInv.chain
    rwa [show s.filePos = f.totalBytes by omega] at hChain
  · simp only [if_neg hNone]
    by_cases hRet :
        (recordFileExtent f s.filePos s.firstBlock).1 = 0
    · have hChain := chain_append
        ⟨s.filePos, s.firstBlock, s.curBytes, s.sectors⟩
        (hInv.first hInner) (by dsimp only; omega)
        (by dsimp only; omega) (by dsimp only; omega)
        (hInv.sectors hInner) s.extents 0 hInv.chain
      simp only [recorded hRet, if_true, hRet, ne_eq,
        not_true_eq_false, if_false]
      by_cases hLast : s.totalBytes = s.curBytes
      · rw [if_pos hLast]
        refine .inr (.inr ⟨rfl, ?_⟩)
        rwa [← hTotal, hLast]
      · rw [if_neg hLast]
        refine ⟨⟨hChain, ?_, ?_, nofun, nofun, nofun, nofun,
          nofun⟩, ?_⟩
        · dsimp only
          omega
        · exact Nat.dvd_sub hInv.dvd
            (Dvd.intro_left _ (hRead.1.symm.trans hFull))
        · unfold rank
          simp only [hInner, if_true, Bool.false_eq_true,
            if_false]
          omega
    · rw [if_pos hRet]
      refine .inl ⟨hRet, ?_⟩
      unfold StepFails
      rw [if_neg (by simp [hInner]), if_neg hDone]
      exact ⟨hNone, hRet⟩

theorem Inv.turn
    (hInv : Inv f s) :
    Kept f s (turn f s) := by
  cases hInner : s.inner with
  | false => exact hInv.reserves hInner
  | true =>
      by_cases hReads : s.bytesRead < s.curBytes
      · exact hInv.reads ⟨hInner, hReads⟩
      · exact hInv.records hInner hReads

/- An error of a step is the result. -/
theorem fails_ends
    (hFails : StepFails f s) :
    ∃ w, FileItems.turn f s = .inr w ∧ w.1 ≠ 0 := by
  unfold StepFails at hFails
  unfold FileItems.turn
  by_cases hAgain : ¬ s.inner = true
  · rw [if_pos hAgain] at hFails ⊢
    exact ⟨_, if_pos hFails, hFails⟩
  rw [if_neg hAgain] at hFails ⊢
  by_cases hReads : s.bytesRead < s.curBytes
  · rw [if_pos hReads] at hFails ⊢
    rcases Option.isSome_iff_exists.mp hFails.1 with ⟨n, hData⟩
    dsimp only
    rw [hData]
    dsimp only
    by_cases hCsum : f.csum (s.filePos + s.bytesRead) = 0
    · rw [if_neg (not_not.mpr hCsum)]
      have hWrite := hFails.2.resolve_left (not_not.mpr hCsum)
      exact ⟨_, if_pos hWrite, hWrite⟩
    · exact ⟨_, if_pos hCsum, hCsum⟩
  · rw [if_neg hReads] at hFails ⊢
    simp only [if_neg hFails.1]
    exact ⟨_, if_pos hFails.2, hFails.2⟩

/- Every state of the loops. -/
theorem comes_inv
    (hComes : Loop.Comes (FileItems.turn f) f.start s) :
    Inv f s := by
  refine hComes.keeps ?_ (start_inv f)
  intro a b hInv hTurn
  have hKept := hInv.turn
  rw [hTurn] at hKept
  exact hKept.1

/- The loops end, in a state that they come to. -/
theorem loops_end
    (f : Source) :
    ∃ fuel w s, Loop.run (FileItems.turn f) fuel f.start = some w ∧
      Loop.Comes (FileItems.turn f) f.start s ∧
        FileItems.turn f s = .inr w ∧ Result f s w := by
  have hEnds : Loop.Ends (FileItems.turn f) (fun _ => True)
      f.start := by
    refine @Loop.ends_of_rank _ _ _ (Inv f) (fun _ _ => True)
      rank ?_ (fun _ _ _ _ => trivial) _ (start_inv f)
    intro a b hInv hTurn
    have hKept := hInv.turn
    rw [hTurn] at hKept
    exact ⟨hKept.1, hKept.2, fun _ _ => trivial⟩
  rcases hEnds with ⟨fuel, w, hRun, _⟩
  rcases Loop.comes_of_run hRun with ⟨s, hComes, hEnd⟩
  have hKept := (comes_inv hComes).turn
  rw [hEnd] at hKept
  exact ⟨fuel, w, s, hRun, hComes, hEnd, hKept⟩

/- A read that fails ends them with the result before it. -/
theorem read_ends
    (hInv : Inv f s)
    (hReads : s.Reads)
    (hFails :
      f.pread (s.filePos + s.bytesRead) f.sectorsize = none) :
    FileItems.turn f s = .inr (0, s.extents) := by
  unfold FileItems.turn
  rw [if_neg (by simp [hReads.1]), if_pos hReads.2]
  dsimp only
  rw [hFails, hInv.ret hReads.1]

/- It reads sectors of the bytes that it takes for the file. -/
theorem Inv.offset
    (hInv : Inv f s)
    (hReads : s.Reads) :
    f.sectorsize ∣ s.filePos + s.bytesRead ∧
      s.filePos + s.bytesRead < f.totalBytes := by
  have hTotal := hInv.total
  have hCur := hInv.cur hReads.1
  have hLess := hReads.2
  have hWhole : f.sectorsize ∣ f.totalBytes - s.totalBytes :=
    Nat.dvd_sub ((start_inv f).dvd) hInv.dvd
  rw [show f.totalBytes - s.totalBytes = s.filePos by omega]
    at hWhole
  exact ⟨Nat.dvd_add hWhole
    (Dvd.intro_left _ (hInv.read hReads.1).1.symm), by omega⟩

/- What is stored right was read right. -/
theorem reads_right
    {extents : List Extent}
    (hChain : Chain f f.Read 0 extents f.rounded)
    (hWhole : Chain f f.Right 0 extents f.rounded)
    (offset : Nat)
    (hDvd : f.sectorsize ∣ offset)
    (hLess : offset < f.rounded) :
    ReadsRight f offset := by
  rcases hChain.sector hWhole (Nat.zero_le _) hLess hDvd with
    ⟨data, ⟨n, hRead, hIs⟩, hRight⟩
  exact ⟨n, hRead, hIs.symm.trans hRight⟩

/- The sectors that are read right are the file's. -/
theorem Chain.right
    {extents : List Extent}
    (hChain : Chain f f.Read 0 extents f.rounded)
    (hRight : ∀ offset, f.sectorsize ∣ offset →
      offset < f.rounded → ReadsRight f offset) :
    Chain f f.Right 0 extents f.rounded := by
  refine hChain.imp (Nat.dvd_zero _) ?_
  intro offset data hDvd hLess hRead
  rcases hRead with ⟨n, hData, rfl⟩
  rcases hRight offset hDvd hLess with ⟨m, hSame, hPadded⟩
  rw [hData] at hSame
  cases hSame
  exact hPadded

/- The loops store the file just when the condition holds. -/
theorem loops_iff
    (f : Source) :
    (∃ fuel w, Loop.run (FileItems.turn f) fuel f.start = some w ∧
      (w.1 = 0 → Chain f f.Right 0 w.2 f.rounded)) ↔
        Loops f := by
  rcases loops_end f with
    ⟨fuel, w, s, hRun, hComes, hEnd, hResult⟩
  constructor
  · intro hStores
    rcases hStores with ⟨fuel', w', hRun', hWhole⟩
    cases Loop.run_unique hRun hRun'
    rcases hResult with ⟨_, hFails⟩ | ⟨rfl, hReads, hNone⟩ |
      ⟨hZero, hChain⟩
    · exact .inl ⟨s, hComes, hFails⟩
    all_goals right
    · have hChain := (comes_inv hComes).chain
      have hStop := hChain.stop (hWhole rfl)
      rw [hStop] at hChain
      refine ⟨?_, .inr ⟨s, hComes, hReads, hStop, hNone⟩⟩
      exact reads_right hChain (hWhole rfl)
    · have hStop := hChain.stop (hWhole hZero)
      rw [hStop] at hChain
      exact ⟨reads_right hChain (hWhole hZero), .inl hStop⟩
  · intro hLoops
    refine ⟨fuel, w, hRun, ?_⟩
    intro hZero
    rcases hLoops with ⟨b, hTo, hFails⟩ | ⟨hRight, hStop⟩
    · rcases fails_ends hFails with ⟨v, hTurn, hError⟩
      rw [Loop.run_of_comes hRun hTo hTurn] at hZero
      exact absurd hZero hError
    · rcases hStop with hFits | ⟨b, hTo, hReads, hAt, hNone⟩
      · rcases hResult with ⟨hError, _⟩ | ⟨rfl, hReads, hNone⟩ |
          ⟨_, hChain⟩
        · exact absurd hZero hError
        · have hAt := (comes_inv hComes).offset hReads
          rw [hFits] at hAt
          rcases hRight _ hAt.1 hAt.2 with ⟨n, hSome, _⟩
          rw [hNone] at hSome
          cases hSome
        · rw [hFits] at hChain
          exact hChain.right hRight
      · have hInv := comes_inv hTo
        cases Loop.run_of_comes hRun hTo
          (read_ends hInv hReads hNone)
        have hChain := hInv.chain
        rw [hAt] at hChain
        exact hChain.right hRight

end Run

theorem stores_iff
    {f : Source}
    {ret : Int}
    {items : Items}
    (hRun : ∀ fuel, addFileItems fuel f = some (ret, items)) :
    Stores f ↔ (ret = 0 → Whole f items) := by
  constructor
  · intro hStores
    rcases hStores with ⟨fuel, ret', items', hIs, hWhole⟩
    rw [hRun] at hIs
    cases hIs
    exact hWhole
  · exact fun hWhole => ⟨0, ret, items, hRun 0, hWhole⟩

/-
  It ends, with 0 only if the file is stored, just when the
  condition holds.
-/
theorem addFileItems_whole_iff
    (f : Source) :
    Stores f ↔ Met f := by
  unfold Met
  cases hOpens : f.opens with
  | false =>
      rw [stores_iff fun fuel => by
        unfold addFileItems
        rw [if_pos (by simp [hOpens])]]
      simp
  | true =>
      have hOpen : ¬ ¬ f.opens = true := not_not.mpr hOpens
      rw [forall_prop_of_true rfl]
      by_cases hInline : f.size ≤ f.maxInline
      · rw [if_pos hInline]
        cases hRead : f.pread 0 f.size with
        | none =>
            rw [stores_iff fun fuel => by
              unfold addFileItems
              rw [if_neg hOpen, if_pos hInline, hRead]]
            simp
        | some n =>
            by_cases hZero : f.insertInline = 0
            · rw [stores_iff fun fuel => by
                unfold addFileItems
                rw [if_neg hOpen, if_pos hInline, hRead]
                exact if_pos hZero]
              unfold Whole
              simp [hZero]
            · rw [stores_iff fun fuel => by
                unfold addFileItems
                rw [if_neg hOpen, if_pos hInline, hRead]
                exact if_neg hZero]
              simp [hZero]
      · rw [if_neg hInline]
        cases hAllocs : f.allocs with
        | false =>
            rw [stores_iff fun fuel => by
              unfold addFileItems
              rw [if_neg hOpen, if_neg hInline,
                if_pos (by simp [hAllocs])]]
            simp
        | true =>
            rw [forall_prop_of_true rfl, ← loops_iff]
            have hRun : ∀ fuel, addFileItems fuel f =
                (Loop.run (turn f) fuel f.start).map
                  fun result =>
                    (result.1, .regular result.2) := by
              intro fuel
              unfold addFileItems
              rw [if_neg hOpen, if_neg hInline,
                if_neg (by simp [hAllocs])]
            constructor
            · intro hStores
              rcases hStores with ⟨fuel, ret, items, hIs, hAll⟩
              rw [hRun] at hIs
              rcases Option.map_eq_some_iff.mp hIs with
                ⟨w, hLoop, hSame⟩
              cases hSame
              exact ⟨fuel, w, hLoop, hAll⟩
            · intro hLoops
              rcases hLoops with ⟨fuel, w, hLoop, hAll⟩
              refine ⟨fuel, w.1, .regular w.2, ?_, hAll⟩
              rw [hRun, hLoop]
              rfl

----------
-- A Read Error
----------

/- A file of two sectors whose first read fails. -/
def unreadable : Source where
  size := 8192
  content _ := 97
  sectorsize := 4096
  maxInline := 3925
  left _ := 0
  opens := true
  allocs := true
  pread _ _ := none
  insertInline := 0
  reserve _ := (0, 8388608)
  csum _ := 0
  write _ := 0
  insertHole _ := 0
  insertData _ := 0
  insertExtent _ := 0
  updateGroup _ := 0
  incRef _ := 0
  sectorsize_pos := page_pos
  sectorsize_dvd := by decide
  reserve_ne _ _ := by decide

/- The result is 0, and nothing is stored. -/
theorem addFileItems_unread :
    (∀ fuel, addFileItems (fuel + 2) unreadable =
      some (0, .regular [])) ∧
    ¬ Stores unreadable := by
  have hRun : ∀ fuel, addFileItems (fuel + 2) unreadable =
      some (0, .regular []) := fun fuel => rfl
  refine ⟨hRun, ?_⟩
  intro hStores
  rcases hStores with ⟨fuel, ret, items, hIs, hWhole⟩
  match fuel with
  | 0 => cases hIs
  | 1 => cases hIs
  | fuel + 2 =>
      rw [hRun] at hIs
      cases hIs
      have hEmpty : 0 = unreadable.rounded := hWhole rfl
      exact absurd hEmpty (by decide)

end FileItems

end Mkfs

end BtrfsProgs
