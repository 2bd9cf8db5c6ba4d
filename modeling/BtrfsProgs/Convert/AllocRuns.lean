import BtrfsProgs.Convert.AllocExtent

/-
  `cache_free_extents`, from `btrfs-convert.c`, and the calls
  of `custom_alloc_extent` after it.

  Main declarations:
    * `Ext2` and `cacheFreeExtents`
    * `State`, `Step` and `Sound`
    * `Step.sound` and `Step.apart`
    * `customAlloc_safe`
-/

----------
-- The Free Blocks
----------

namespace BtrfsProgs

namespace Convert

open ExtentIo

/-
  The superblock of an ext2 filesystem, and its block bitmap.
  Block numbers have 32 bits, and a block at most 64 KiB.
-/
structure Ext2 where
  blocksize : Nat
  firstDataBlock : Nat
  blocksCount : Nat
  used : Nat → Bool
  blocksize_pos : 0 < blocksize
  blocksize_le : blocksize ≤ 2 ^ 16
  blocksCount_lt : blocksCount < 2 ^ 32

/- The bytes of the filesystem. -/
def Ext2.size
    (fs : Ext2) : Nat :=
  fs.blocksize * fs.blocksCount

/- The first loop of `cache_free_extents`, over blocks. -/
def cacheBlocks
    (fs : Ext2) :
    List Nat → ExtentIoTree → Option ExtentIoTree
  | [], free => some free
  | block :: blocks, free =>
      if fs.used block then cacheBlocks fs blocks free
      else
        let bytenr := block * fs.blocksize
        match setExtentDirty free bytenr
            (bytenr + fs.blocksize - 1) with
        | none => none
        | some free => cacheBlocks fs blocks free

/- The second, over the copies of the superblock. -/
def clearStripes
    (fs : Ext2) :
    List Nat → ExtentIoTree → Option ExtentIoTree
  | [], free => some free
  | i :: copies, free =>
      let bytenr := sbStripe i
      if fs.size ≤ bytenr then some free
      else
        match clearExtentDirty free bytenr
            (bytenr + STRIPE_LEN - 1) with
        | none => none
        | some free => clearStripes fs copies free

/- `cache_free_extents`. -/
def cacheFreeExtents
    (fs : Ext2)
    (free : ExtentIoTree) : Option ExtentIoTree :=
  match cacheBlocks fs
      (List.range' fs.firstDataBlock
        (fs.blocksCount - fs.firstDataBlock)) free with
  | none => none
  | some free =>
      match clearStripes fs
          (List.range Volumes.SUPER_MIRROR_MAX) free with
      | none => none
      | some free =>
          clearExtentDirty free 0
            (Volumes.SUPER_INFO_OFFSET - 1)

/- The byte is one of the block. -/
def Ext2.InBlock
    (fs : Ext2)
    (block x : Nat) : Prop :=
  block * fs.blocksize ≤ x ∧
    x < block * fs.blocksize + fs.blocksize

/- The byte is one of the stripe of a superblock. -/
def InStripe
    (i x : Nat) : Prop :=
  sbStripe i ≤ x ∧ x < sbStripe i + STRIPE_LEN

/- A byte that is safe to be handed out. -/
structure Ext2.SafeByte
    (fs : Ext2)
    (x : Nat) : Prop where
  block :
    ∃ block, fs.firstDataBlock ≤ block ∧
      block < fs.blocksCount ∧ fs.used block = false ∧
      fs.InBlock block x
  stripe : ∀ i, i < Volumes.SUPER_MIRROR_MAX → ¬ InStripe i x
  low : Volumes.SUPER_INFO_OFFSET ≤ x

section Cache

variable {fs : Ext2}
variable {free : ExtentIoTree}

/- A block ends within the filesystem. -/
theorem Ext2.block_end
    (fs : Ext2)
    {block : Nat}
    (hBlock : block < fs.blocksCount) :
    block * fs.blocksize + fs.blocksize ≤ fs.size := by
  unfold Ext2.size
  rw [← Nat.succ_mul, Nat.mul_comm fs.blocksize]
  exact Nat.mul_le_mul_right _ hBlock

/- The filesystem is far from the end of 64 bits. -/
theorem Ext2.size_lt
    (fs : Ext2) : fs.size < u64Max := by
  have hCount := fs.blocksCount_lt
  have hBlock := fs.blocksize_le
  have hSize : fs.size ≤ 2 ^ 16 * 2 ^ 32 :=
    Nat.mul_le_mul hBlock (Nat.le_of_lt hCount)
  have hMax : 2 ^ 16 * 2 ^ 32 < u64Max := by decide
  exact Nat.lt_of_le_of_lt hSize hMax

theorem cacheBlocks_spec
    {blocks : List Nat}
    (hBlocks : ∀ block ∈ blocks, block < fs.blocksCount)
    (hFree : Uniform EXTENT_DIRTY free) :
    ∃ free', cacheBlocks fs blocks free = some free' ∧
      Uniform EXTENT_DIRTY free' ∧
      ∀ x, Marked free' x ↔ Marked free x ∨
        ∃ block ∈ blocks, fs.used block = false ∧
          fs.InBlock block x := by
  induction blocks generalizing free with
  | nil =>
      refine ⟨free, rfl, hFree, fun x => ?_⟩
      simp only [List.not_mem_nil, false_and, exists_false,
        or_false]
  | cons block blocks ih =>
      have hRest : ∀ b ∈ blocks, b < fs.blocksCount :=
        fun b hB => hBlocks b (List.mem_cons_of_mem _ hB)
      unfold cacheBlocks
      cases hUsed : fs.used block with
      | true =>
          rcases ih hRest hFree with
            ⟨free', hCache, hUniform, hMarks⟩
          refine ⟨free', hCache, hUniform, fun x => ?_⟩
          rw [hMarks x, List.exists_mem_cons_iff, hUsed]
          simp only [Bool.true_eq_false, false_and, false_or]
      | false =>
          have hEnd := fs.block_end
            (hBlocks block List.mem_cons_self)
          have hSize := fs.size_lt
          have hPos := fs.blocksize_pos
          have hRange : block * fs.blocksize ≤
              block * fs.blocksize + fs.blocksize - 1 := by
            omega
          rcases hFree.setExtentBits EXTENT_DIRTY_ne_zero
              hRange (by omega) with
            ⟨first, hSet, hFirst, hMarksFirst⟩
          rcases ih hRest hFirst with
            ⟨free', hCache, hUniform, hMarks⟩
          refine ⟨free', ?_, hUniform, fun x => ?_⟩
          · rw [if_neg Bool.false_ne_true]
            dsimp only
            unfold setExtentDirty
            rw [hSet]
            exact hCache
          · rw [hMarks x, hMarksFirst x,
              List.exists_mem_cons_iff, hUsed, or_assoc]
            unfold Ext2.InBlock
            have hSame :
                (block * fs.blocksize ≤ x ∧
                  x ≤ block * fs.blocksize +
                    fs.blocksize - 1) ↔
                (block * fs.blocksize ≤ x ∧
                  x < block * fs.blocksize +
                    fs.blocksize) := by omega
            rw [hSame]
            simp only [true_and]

theorem clearDirty_spec
    (hFree : Uniform EXTENT_DIRTY free)
    (start : Nat)
    {length : Nat}
    (hPos : 0 < length) :
    ∃ free', clearExtentDirty free start
        (start + length - 1) = some free' ∧
      Uniform EXTENT_DIRTY free' ∧
      ∀ x, Marked free' x ↔
        Marked free x ∧ ¬ InRange start length x := by
  have hRange : start ≤ start + length - 1 := by omega
  rcases hFree.clearExtentBits EXTENT_DIRTY_ne_zero hRange
    with ⟨found, free', hClear, hUniform, hMarks⟩
  refine ⟨free', ?_, hUniform, fun x => ?_⟩
  · unfold clearExtentDirty
    rw [hClear]
    rfl
  · rw [hMarks x]
    unfold InRange
    have hSame : (start ≤ x ∧ x ≤ start + length - 1) ↔
        (start ≤ x ∧ x < start + length) := by omega
    rw [hSame]

/- The stripes are in order, so that the rest may be left. -/
theorem clearStripes_spec
    {copies : List Nat}
    (hSorted : copies.Pairwise (sbStripe · ≤ sbStripe ·))
    (hFree : Uniform EXTENT_DIRTY free)
    (hInside : ∀ x, Marked free x → x < fs.size) :
    ∃ free', clearStripes fs copies free = some free' ∧
      Uniform EXTENT_DIRTY free' ∧
      ∀ x, Marked free' x ↔ Marked free x ∧
        ∀ i ∈ copies, ¬ InStripe i x := by
  induction copies generalizing free with
  | nil =>
      refine ⟨free, rfl, hFree, fun x => ?_⟩
      simp only [List.not_mem_nil, false_implies, implies_true,
        and_true]
  | cons i copies ih =>
      rcases List.pairwise_cons.mp hSorted with
        ⟨hFirst, hRest⟩
      unfold clearStripes
      dsimp only
      by_cases hPast : fs.size ≤ sbStripe i
      · rw [if_pos hPast]
        refine ⟨free, rfl, hFree, fun x => ?_⟩
        refine ⟨fun hMarked => ⟨hMarked, ?_⟩, fun h => h.1⟩
        intro j hJ hIn
        have hLow := hIn.1
        have hHigh := hInside x hMarked
        rcases List.mem_cons.mp hJ with hHere | hLater
        · rw [hHere] at hLow
          omega
        · have hOrder := hFirst j hLater
          omega
      · rw [if_neg hPast]
        have hLength : 0 < STRIPE_LEN := by decide
        rcases clearDirty_spec hFree (sbStripe i) hLength with
          ⟨first, hClear, hUniform, hMarksFirst⟩
        rw [hClear]
        dsimp only
        rcases ih hRest hUniform
            (fun x hMarked =>
              hInside x ((hMarksFirst x).mp hMarked).1) with
          ⟨free', hStripes, hUniform', hMarks⟩
        refine ⟨free', hStripes, hUniform', fun x => ?_⟩
        rw [hMarks x, hMarksFirst x, List.forall_mem_cons,
          and_assoc]
        rfl

/- The cache holds the bytes that are safe. -/
theorem cacheFreeExtents_spec
    (fs : Ext2) :
    ∃ free, cacheFreeExtents fs [] = some free ∧
      Uniform EXTENT_DIRTY free ∧
      ∀ x, Marked free x ↔ fs.SafeByte x := by
  have hEmpty := Uniform.nil EXTENT_DIRTY
  have hRange : ∀ block ∈ List.range' fs.firstDataBlock
      (fs.blocksCount - fs.firstDataBlock),
      block < fs.blocksCount := by
    intro block hBlock
    rcases List.mem_range'_1.mp hBlock with ⟨hLow, hHigh⟩
    omega
  rcases cacheBlocks_spec hRange hEmpty with
    ⟨blocks, hBlocks, hUniform, hMarks⟩
  have hInside : ∀ x, Marked blocks x → x < fs.size := by
    intro x hMarked
    rcases (hMarks x).mp hMarked with hNo | ⟨block, hB, _, hIn⟩
    · rcases hNo with ⟨s, hS, _⟩
      cases hS
    · exact Nat.lt_of_lt_of_le hIn.2
        (fs.block_end (hRange block hB))
  have hSorted : (List.range Volumes.SUPER_MIRROR_MAX).Pairwise
      (sbStripe · ≤ sbStripe ·) := by decide
  rcases clearStripes_spec hSorted hUniform hInside with
    ⟨stripes, hStripes, hUniform', hMarks'⟩
  have hLength : 0 < Volumes.SUPER_INFO_OFFSET := by decide
  rcases clearDirty_spec hUniform' 0 hLength with
    ⟨free, hClear, hUniform'', hMarks''⟩
  refine ⟨free, ?_, hUniform'', fun x => ?_⟩
  · unfold cacheFreeExtents
    rw [hBlocks]
    dsimp only
    rw [hStripes]
    rw [Nat.zero_add] at hClear
    exact hClear
  · rw [hMarks'' x, hMarks' x, hMarks x]
    unfold InRange
    constructor
    · rintro ⟨⟨hNo | ⟨block, hB, hUsed, hIn⟩, hNoStripe⟩,
        hHigh⟩
      · rcases hNo with ⟨s, hS, _⟩
        cases hS
      · refine ⟨⟨block, ?_, hRange block hB, hUsed, hIn⟩, ?_,
          by omega⟩
        · exact (List.mem_range'_1.mp hB).1
        · exact fun i hI =>
            hNoStripe i (List.mem_range.mpr hI)
    · rintro ⟨⟨block, hFirst, hCount, hUsed, hIn⟩, hNoStripe,
        hLow⟩
      refine ⟨⟨.inr ⟨block, ?_, hUsed, hIn⟩, ?_⟩, by omega⟩
      · exact List.mem_range'_1.mpr ⟨hFirst, by omega⟩
      · exact fun i hI => hNoStripe i (List.mem_range.mp hI)

end Cache

----------
-- Runs
----------

/-
  The two trees, and the bytes that have been returned and not
  since freed.
-/
structure State where
  space : Space
  taken : Nat → Prop

/-
  What may happen: a call that finds a range or does not, bytes
  that are freed after they were returned, and whatever is
  pinned or no longer.
-/
inductive Step
    (layout : Layout) : State → State → Prop where
  | alloc
      (σ : State)
      (numBytes hintByte fuel start : Nat)
      (free : ExtentIoTree)
      (hCall :
        customAllocExtent layout σ.space numBytes hintByte
            fuel = some (.extent start free)) :
      Step layout σ
        ⟨⟨free, σ.space.pinned⟩, fun x =>
          σ.taken x ∨ InRange start numBytes x⟩
  | free
      (σ : State)
      (start numBytes : Nat)
      (free : ExtentIoTree)
      (hPos : 0 < numBytes)
      (hTaken : ∀ x, InRange start numBytes x → σ.taken x)
      (hCall :
        setExtentDirty σ.space.free start
            (start + numBytes - 1) = some free) :
      Step layout σ
        ⟨⟨free, σ.space.pinned⟩, fun x =>
          σ.taken x ∧ ¬ InRange start numBytes x⟩
  | pin
      (σ : State)
      (pinned : ExtentIoTree)
      (hPinned : Uniform EXTENT_DIRTY pinned) :
      Step layout σ ⟨⟨σ.space.free, pinned⟩, σ.taken⟩

/- All the steps of a run. -/
abbrev Reaches
    (layout : Layout) : State → State → Prop :=
  Relation.ReflTransGen (Step layout)

/- After `cache_free_extents`. -/
def startState
    (free : ExtentIoTree) : State where
  space := ⟨free, []⟩
  taken := fun _ => False

/- Free bytes are safe, and those taken are safe and not free. -/
structure Sound
    (fs : Ext2)
    (layout : Layout)
    (σ : State) : Prop where
  ready : Ready layout σ.space
  free : ∀ x, Marked σ.space.free x → fs.SafeByte x
  taken :
    ∀ x, σ.taken x →
      fs.SafeByte x ∧ ¬ Marked σ.space.free x

/- The block groups reach over the whole filesystem. -/
def Layout.Covers
    (layout : Layout)
    (fs : Ext2) : Prop :=
  ∀ x, x < fs.size → ∃ g ∈ layout.groups, g.Has x

section Runs

variable {fs : Ext2}
variable {layout : Layout}
variable {σ τ : State}

theorem Ext2.SafeByte.lt_size
    {x : Nat}
    (hSafe : fs.SafeByte x) : x < fs.size := by
  rcases hSafe.block with ⟨block, _, hCount, _, hIn⟩
  exact Nat.lt_of_lt_of_le hIn.2 (fs.block_end hCount)

theorem Ext2.SafeByte.pos
    {x : Nat}
    (hSafe : fs.SafeByte x) : 0 < x :=
  Nat.lt_of_lt_of_le (by decide) hSafe.low

theorem ready_of_safe
    {space : Space}
    (hCovers : layout.Covers fs)
    (hFree : Uniform EXTENT_DIRTY space.free)
    (hPinned : Uniform EXTENT_DIRTY space.pinned)
    (hSafe : ∀ x, Marked space.free x → fs.SafeByte x) :
    Ready layout space where
  free := hFree
  pinned := hPinned
  pos := fun x hMarked => (hSafe x hMarked).pos
  inGroup := fun x hMarked =>
    hCovers x (hSafe x hMarked).lt_size

/- A range that a call returns. -/
theorem Sound.given
    (hSound : Sound fs layout σ)
    {numBytes hintByte fuel start : Nat}
    {free : ExtentIoTree}
    (hCall :
      customAllocExtent layout σ.space numBytes hintByte fuel =
        some (.extent start free)) :
    Given layout σ.space numBytes start free := by
  rcases customAllocExtent_right hSound.ready numBytes hintByte
    with ⟨enough, result, hRun, hRight⟩
  rcases Loop.comes_of_run hCall with ⟨b, hComes, hEnd⟩
  have hSame := Loop.run_of_comes hRun hComes hEnd
  rw [hSame] at hRight
  exact hRight

/- The bytes of a usable range are free. -/
theorem Usable.free
    {space : Space}
    {numBytes start x : Nat}
    (hUsable : Usable layout space numBytes start)
    (hIn : InRange start numBytes x) :
    Marked space.free x := by
  rcases hUsable.state with ⟨s, hS, hLow, _, hFits⟩
  have hFrom := hIn.1
  have hTo := hIn.2
  exact ⟨s, hS, by omega, by omega⟩

theorem Step.sound
    (hCovers : layout.Covers fs)
    (hStep : Step layout σ τ)
    (hSound : Sound fs layout σ) : Sound fs layout τ := by
  cases hStep with
  | alloc numBytes hintByte fuel start free hCall =>
      have hGiven := hSound.given hCall
      have hFree : ∀ x, Marked free x → fs.SafeByte x :=
        fun x hMarked =>
          hSound.free x ((hGiven.marks x).mp hMarked).1
      refine ⟨ready_of_safe hCovers hGiven.uniform
        hSound.ready.pinned hFree, hFree, ?_⟩
      intro x hTaken
      rcases hTaken with hOld | hNew
      · rcases hSound.taken x hOld with ⟨hSafe, hNot⟩
        exact ⟨hSafe, fun hMarked =>
          hNot ((hGiven.marks x).mp hMarked).1⟩
      · exact ⟨hSound.free x (hGiven.usable.free hNew),
          fun hMarked =>
            ((hGiven.marks x).mp hMarked).2 hNew⟩
  | free start numBytes free hPos hTaken hCall =>
      have hLast := (hSound.taken (start + numBytes - 1)
        (hTaken _ ⟨by omega, by omega⟩)).1.lt_size
      have hSize := fs.size_lt
      have hRange : start ≤ start + numBytes - 1 := by omega
      rcases hSound.ready.free.setExtentBits
          EXTENT_DIRTY_ne_zero hRange (by omega) with
        ⟨free', hSet, hUniform, hMarks⟩
      unfold setExtentDirty at hCall
      rw [hSet] at hCall
      cases hCall
      have hFree : ∀ x, Marked free x → fs.SafeByte x := by
        intro x hMarked
        rcases (hMarks x).mp hMarked with hOld | hNew
        · exact hSound.free x hOld
        · exact (hSound.taken x
            (hTaken x ⟨hNew.1, by omega⟩)).1
      refine ⟨ready_of_safe hCovers hUniform
        hSound.ready.pinned hFree, hFree, ?_⟩
      rintro x ⟨hOld, hNot⟩
      rcases hSound.taken x hOld with ⟨hSafe, hNotFree⟩
      refine ⟨hSafe, fun hMarked => ?_⟩
      rcases (hMarks x).mp hMarked with hWas | hNow
      · exact hNotFree hWas
      · exact hNot ⟨hNow.1, by omega⟩
  | pin pinned hPinned =>
      exact ⟨ready_of_safe hCovers hSound.ready.free hPinned
        hSound.free, hSound.free, hSound.taken⟩

theorem Reaches.sound
    (hCovers : layout.Covers fs)
    (hReaches : Reaches layout σ τ)
    (hSound : Sound fs layout σ) : Sound fs layout τ := by
  induction hReaches with
  | refl => exact hSound
  | tail _ hStep ih => exact hStep.sound hCovers ih

/- A step that pins no free byte and frees no pinned one. -/
def Careful
    (σ τ : State) : Prop :=
  (∀ x, Marked τ.space.pinned x →
    Marked σ.space.pinned x ∨ ¬ Marked σ.space.free x) ∧
  ∀ x, Marked τ.space.free x →
    Marked σ.space.free x ∨ ¬ Marked σ.space.pinned x

/- Such steps keep what is free and what is pinned apart. -/
theorem Step.apart
    (hStep : Step layout σ τ)
    (hCareful : Careful σ τ)
    (hApart : Apart σ.space) : Apart τ.space := by
  intro x hFree hPinned
  cases hStep with
  | alloc numBytes hintByte fuel start free hCall
  | free start numBytes free hPos hTaken hCall =>
      rcases hCareful.2 x hFree with hOld | hNot
      · exact hApart x hOld hPinned
      · exact hNot hPinned
  | pin pinned hUniform =>
      rcases hCareful.1 x hPinned with hOld | hNot
      · exact hApart x hFree hOld
      · exact hNot hFree

theorem Reaches.apart
    (hReaches :
      Relation.ReflTransGen
        (fun σ τ => Step layout σ τ ∧ Careful σ τ) σ τ)
    (hApart : Apart σ.space) : Apart τ.space := by
  induction hReaches with
  | refl => exact hApart
  | tail _ hStep ih => exact hStep.1.apart hStep.2 ih

/- What a call may return in a state. -/
def Allocated.Safe
    (fs : Ext2)
    (layout : Layout)
    (σ : State)
    (numBytes : Nat) : Allocated → Prop
  | .extent start _ =>
      (∀ x, InRange start numBytes x →
        fs.SafeByte x ∧ ¬ Marked σ.space.pinned x ∧
          ¬ σ.taken x) ∧
      ∃ g ∈ layout.groups, layout.system g = false ∧
        g.start ≤ start ∧
          start + numBytes ≤ g.start + g.length
  | .noSpace =>
      Apart σ.space → ∀ start,
        ¬ Usable layout σ.space numBytes start
  | .bug => False

theorem Allocated.Right.safe
    {numBytes : Nat}
    {result : Allocated}
    (hSound : Sound fs layout σ)
    (hRight : result.Right layout σ.space numBytes) :
    result.Safe fs layout σ numBytes := by
  cases result with
  | noSpace => exact hRight
  | bug => exact hRight
  | extent start free =>
      refine ⟨fun x hIn => ?_, ?_⟩
      · have hFree := hRight.usable.free hIn
        exact ⟨hSound.free x hFree,
          hRight.usable.unpinned x hIn,
          fun hTaken => (hSound.taken x hTaken).2 hFree⟩
      · rcases hRight.usable.group with
          ⟨g, hG, hSystem, hHas, hFits⟩
        exact ⟨g, hG, hSystem, hHas.1, hFits⟩

/-
  After `cache_free_extents` every call of a run returns, with
  space that is safe, or because there is none, as long as no
  byte is free and pinned; and that is kept by steps that pin
  no free byte.
-/
theorem customAlloc_safe
    (hCovers : layout.Covers fs) :
    ∃ free, cacheFreeExtents fs [] = some free ∧
      (∀ σ, Reaches layout (startState free) σ →
        ∀ numBytes hintByte, ∃ fuel result,
          customAllocExtent layout σ.space numBytes hintByte
              fuel = some result ∧
            result.Safe fs layout σ numBytes) ∧
      ∀ σ, Relation.ReflTransGen
          (fun σ τ => Step layout σ τ ∧ Careful σ τ)
          (startState free) σ →
        Apart σ.space := by
  rcases cacheFreeExtents_spec fs with
    ⟨free, hCache, hUniform, hMarks⟩
  have hNone : ∀ x, ¬ Marked ([] : ExtentIoTree) x := by
    rintro x ⟨s, hS, _⟩
    cases hS
  have hEmpty := Uniform.nil EXTENT_DIRTY
  have hStart : Sound fs layout (startState free) := by
    refine ⟨ready_of_safe hCovers hUniform hEmpty ?_, ?_, ?_⟩
    · exact fun x => (hMarks x).mp
    · exact fun x => (hMarks x).mp
    · exact fun x hTaken => hTaken.elim
  refine ⟨free, hCache, ?_, ?_⟩
  · intro σ hReaches numBytes hintByte
    have hSound := hReaches.sound hCovers hStart
    rcases customAllocExtent_right hSound.ready numBytes
        hintByte with ⟨fuel, result, hRun, hRight⟩
    exact ⟨fuel, result, hRun, hRight.safe hSound⟩
  · intro σ hReaches
    exact Reaches.apart hReaches fun x _ => hNone x

end Runs

----------
-- Three Free Blocks
----------

/- The last three blocks are free. -/
def sampleFs : Ext2 where
  blocksize := 4096
  firstDataBlock := 0
  blocksCount := 35
  used := fun block => block < 32
  blocksize_pos := page_pos
  blocksize_le := by decide
  blocksCount_lt := by decide

/- One block group, for all of the device. -/
def sampleLayout : Layout where
  groups := [⟨0, 143360⟩]
  system := fun _ => false
  tiles := ⟨rfl, trivial⟩

theorem sampleLayout_covers :
    sampleLayout.Covers sampleFs := by
  intro x hIn
  exact ⟨⟨0, 143360⟩, List.mem_cons_self, Nat.zero_le x, hIn⟩

theorem customAlloc_safe_sample :
    ∃ free, cacheFreeExtents sampleFs [] = some free ∧
      (∀ σ, Reaches sampleLayout (startState free) σ →
        ∀ numBytes hintByte, ∃ fuel result,
          customAllocExtent sampleLayout σ.space numBytes
              hintByte fuel = some result ∧
            result.Safe sampleFs sampleLayout σ numBytes) ∧
      ∀ σ, Relation.ReflTransGen
          (fun σ τ => Step sampleLayout σ τ ∧ Careful σ τ)
          (startState free) σ →
        Apart σ.space :=
  customAlloc_safe sampleLayout_covers

/- The free blocks, and the first of them pinned. -/
def sampleSpace : Space where
  free := [⟨131072, 143359, EXTENT_DIRTY, 0⟩]
  pinned := [⟨131072, 135167, EXTENT_DIRTY, 0⟩]

theorem sampleSpace_pinned :
    Uniform EXTENT_DIRTY sampleSpace.pinned := by
  have hOnly : ∀ s ∈ sampleSpace.pinned,
      s = ⟨131072, 135167, EXTENT_DIRTY, 0⟩ :=
    fun s hS => List.mem_singleton.mp hS
  refine ⟨⟨⟨?_, List.pairwise_singleton _ _⟩, ?_⟩, ?_⟩
  · intro s hS
    rw [hOnly s hS]
    decide
  · intro s hS
    rw [hOnly s hS]
    decide
  · intro s hS
    rw [hOnly s hS]

/- The two blocks behind a pinned one are not found. -/
theorem customAlloc_skips :
    cacheFreeExtents sampleFs [] = some sampleSpace.free ∧
      Reaches sampleLayout (startState sampleSpace.free)
        ⟨sampleSpace, fun _ => False⟩ ∧
      customAllocExtent sampleLayout sampleSpace 8192 0 8 =
        some .noSpace ∧
      Usable sampleLayout sampleSpace 8192 135168 := by
  refine ⟨by decide +kernel, ?_, rfl, ?_⟩
  · exact Relation.ReflTransGen.single
      (.pin _ sampleSpace.pinned sampleSpace_pinned)
  · refine ⟨⟨_, List.mem_cons_self, by decide, by decide,
      by decide⟩, ?_, ⟨0, 143360⟩, List.mem_cons_self, rfl,
      by decide, by decide⟩
    rintro x hIn ⟨s, hS, _, hHigh⟩
    rw [List.mem_singleton.mp hS] at hHigh
    have hLow := hIn.1
    dsimp only at hHigh
    omega

end Convert

end BtrfsProgs
