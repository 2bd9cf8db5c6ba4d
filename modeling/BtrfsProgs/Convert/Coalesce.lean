import BtrfsProgs.Convert.FileBlocks

/-
  The runs that `block_iterate_proc` records for the blocks of
  a file.

  Main declarations:
    * `cells` and `Consecutive`
    * `Device.Safe`
    * `Follows` and `blockIterateProc_follows`
    * `recordRuns`, `Coalesced` and `recordRuns_coalesces`
-/

----------
-- Extents as Blocks
----------

namespace BtrfsProgs

namespace Convert

/- The disk block of each file block, 0 in a hole. -/
def FileExtent.cells
    (e : FileExtent) : List Nat :=
  if e.diskBlock = 0 then List.replicate e.numBlocks 0
  else List.range' e.diskBlock e.numBlocks

def cells
    (es : List FileExtent) : List Nat :=
  es.flatMap FileExtent.cells

/- Extents one after the other, and none of them empty. -/
def Consecutive : Nat → List FileExtent → Nat → Prop
  | start, [], stop => start = stop
  | start, e :: es, stop =>
      e.fileBlock = start ∧ 0 < e.numBlocks ∧
        Consecutive (start + e.numBlocks) es stop

theorem FileExtent.length_cells
    (e : FileExtent) :
    e.cells.length = e.numBlocks := by
  unfold FileExtent.cells
  split
  · exact List.length_replicate
  · exact List.length_range'

theorem cells_append
    (xs ys : List FileExtent) :
    cells (xs ++ ys) = cells xs ++ cells ys :=
  List.flatMap_append

theorem cells_single
    (e : FileExtent) :
    cells [e] = e.cells :=
  List.append_nil _

theorem Consecutive.append
    {xs ys : List FileExtent}
    {start middle stop : Nat}
    (hLeft : Consecutive start xs middle)
    (hRight : Consecutive middle ys stop) :
    Consecutive start (xs ++ ys) stop := by
  induction xs generalizing start with
  | nil =>
      cases hLeft
      exact hRight
  | cons x xs ih =>
      exact ⟨hLeft.1, hLeft.2.1, ih hLeft.2.2⟩

theorem Consecutive.length
    {es : List FileExtent}
    {start stop : Nat}
    (hEs : Consecutive start es stop) :
    start + (cells es).length = stop := by
  induction es generalizing start with
  | nil => exact hEs
  | cons e es ih =>
      have hRest := ih hEs.2.2
      unfold cells at hRest ⊢
      rw [List.flatMap_cons, List.length_append,
        e.length_cells]
      omega

----------
-- Boundaries
----------

/- A position inside an extent of the disk. -/
def Device.Crosses
    (dev : Device)
    (e : FileExtent)
    (x : Nat) : Prop :=
  e.diskBlock * dev.sectorsize < x ∧
    x < (e.diskBlock + e.numBlocks) * dev.sectorsize

/- No end of a group or of a superblock's stripe is inside. -/
structure Device.Safe
    (dev : Device)
    (e : FileExtent) : Prop where
  groups :
    ∀ g ∈ dev.groups,
      ¬ dev.Crosses e g.start ∧
        ¬ dev.Crosses e (g.start + g.length)
  stripes :
    ∀ i, i < Volumes.SUPER_MIRROR_MAX →
      ¬ dev.Crosses e (sbStripe i) ∧
        ¬ dev.Crosses e (sbStripe i + STRIPE_LEN)

/- The block is one of the device. -/
def Device.Has
    (dev : Device)
    (diskBlock : Nat) : Prop :=
  ∃ g ∈ dev.groups,
    g.start ≤ diskBlock * dev.sectorsize ∧
      diskBlock * dev.sectorsize < g.start + g.length

/- The block is in the stripe of a superblock. -/
def Device.InSb
    (dev : Device)
    (diskBlock : Nat) : Prop :=
  intersectWithSb (diskBlock * dev.sectorsize)
    dev.sectorsize = true

variable {groups : List BlockGroup}

theorem tiles_aligned
    {start n : Nat}
    (hTiles : Tiles start groups)
    (hStart : n ∣ start)
    (hLength : ∀ g ∈ groups, n ∣ g.length)
    {g : BlockGroup}
    (hMem : g ∈ groups) :
    n ∣ g.start := by
  induction groups generalizing start with
  | nil => cases hMem
  | cons h groups ih =>
      rcases hTiles with ⟨hHere, hRest⟩
      have hHead : n ∣ h.start := by
        rw [hHere]
        exact hStart
      rcases List.mem_cons.mp hMem with hSame | hTail
      · rw [hSame]
        exact hHead
      · exact ih hRest
          (Nat.dvd_add hHead (hLength h (List.mem_cons_self ..)))
          (fun k hIn => hLength k (List.mem_cons_of_mem _ hIn))
          hTail

/- Tiles begin where they are, or later. -/
theorem tiles_start
    {start : Nat}
    (hTiles : Tiles start groups)
    {g : BlockGroup}
    (hMem : g ∈ groups) :
    start ≤ g.start := by
  induction groups generalizing start with
  | nil => cases hMem
  | cons h groups ih =>
      rcases hTiles with ⟨hHere, hRest⟩
      rcases List.mem_cons.mp hMem with hSame | hTail
      · rw [hSame]
        exact Nat.le_of_eq hHere.symm
      · have hLater := ih hRest hTail
        omega

/- Two tiles are the same or one is before the other. -/
theorem tiles_apart
    {start : Nat}
    (hTiles : Tiles start groups)
    {g h : BlockGroup}
    (hG : g ∈ groups)
    (hH : h ∈ groups) :
    g = h ∨ g.start + g.length ≤ h.start ∨
      h.start + h.length ≤ g.start := by
  induction groups generalizing start with
  | nil => cases hG
  | cons k groups ih =>
      rcases hTiles with ⟨_, hRest⟩
      rcases List.mem_cons.mp hG with hG | hG
      · rcases List.mem_cons.mp hH with hH | hH
        · exact .inl (hG.trans hH.symm)
        · rw [hG]
          exact .inr (.inl (tiles_start hRest hH))
      · rcases List.mem_cons.mp hH with hH | hH
        · rw [hH]
          exact .inr (.inr (tiles_start hRest hG))
        · exact ih hRest hG hH

theorem sbStripe_dvd
    (dev : Device)
    (i : Nat) :
    dev.sectorsize ∣ sbStripe i :=
  Nat.dvd_mul_left_of_dvd dev.sectorsize_dvd _

variable {e : FileExtent}

/- What divides the ends of blocks is an end of a block. -/
theorem Device.crosses_block
    {dev : Device}
    {x : Nat}
    (hCrosses : dev.Crosses e x)
    (hDvd : dev.sectorsize ∣ x) :
    ∃ c, x = c * dev.sectorsize ∧
      e.diskBlock < c ∧ c < e.diskBlock + e.numBlocks := by
  rcases hDvd with ⟨c, hSame⟩
  rw [Nat.mul_comm] at hSame
  rcases hCrosses with ⟨hLow, hHigh⟩
  rw [hSame] at hLow hHigh
  exact ⟨c, hSame, Nat.lt_of_mul_lt_mul_right hLow,
    Nat.lt_of_mul_lt_mul_right hHigh⟩

theorem Device.inSb_iff
    {dev : Device}
    {c : Nat} :
    dev.InSb c ↔
      ∃ i, i < Volumes.SUPER_MIRROR_MAX ∧
        c * dev.sectorsize < sbStripe i + STRIPE_LEN ∧
          sbStripe i < (c + 1) * dev.sectorsize := by
  unfold Device.InSb intersectWithSb
  rw [List.any_eq_true, Nat.succ_mul]
  simp only [List.mem_range, decide_eq_true_eq]

/- The blocks of a stripe lie in it. -/
theorem Device.inSb_bounds
    {dev : Device}
    {c i : Nat}
    (hLow : sbStripe i < (c + 1) * dev.sectorsize)
    (hHigh : c * dev.sectorsize < sbStripe i + STRIPE_LEN) :
    sbStripe i ≤ c * dev.sectorsize ∧
      (c + 1) * dev.sectorsize ≤ sbStripe i + STRIPE_LEN := by
  rcases sbStripe_dvd dev i with ⟨s, hStart⟩
  rcases Nat.dvd_add (sbStripe_dvd dev i) dev.sectorsize_dvd
    with ⟨t, hEnd⟩
  rw [hEnd] at hHigh ⊢
  rw [hStart] at hLow ⊢
  rw [Nat.mul_comm dev.sectorsize] at hLow hHigh ⊢
  rw [Nat.mul_comm dev.sectorsize]
  have hFirst := Nat.lt_of_mul_lt_mul_right hLow
  have hLast := Nat.lt_of_mul_lt_mul_right hHigh
  exact ⟨Nat.mul_le_mul_right _ (Nat.lt_succ_iff.mp hFirst),
    Nat.mul_le_mul_right _ hLast⟩

/- An extent that is a block, or outside of all stripes. -/
theorem Device.stripes_safe
    {dev : Device}
    (hApart :
      e.numBlocks = 1 ∨
        ∀ k < e.numBlocks, ¬ dev.InSb (e.diskBlock + k))
    {i : Nat}
    (hMirror : i < Volumes.SUPER_MIRROR_MAX) :
    ¬ dev.Crosses e (sbStripe i) ∧
      ¬ dev.Crosses e (sbStripe i + STRIPE_LEN) := by
  have hPos := dev.sectorsize_pos
  constructor
  · intro hCrosses
    rcases dev.crosses_block hCrosses (sbStripe_dvd dev i) with
      ⟨c, hAt, hLow, hHigh⟩
    rcases hApart with hOne | hClear
    · omega
    · refine hClear (c - e.diskBlock) (by omega) ?_
      rw [Nat.add_sub_cancel' (Nat.le_of_lt hLow)]
      refine Device.inSb_iff.mpr ⟨i, hMirror, ?_, ?_⟩
      · rw [hAt]
        exact Nat.lt_add_of_pos_right (by decide)
      · rw [hAt]
        exact Nat.mul_lt_mul_of_pos_right
          (Nat.lt_add_one c) hPos
  · intro hCrosses
    rcases dev.crosses_block hCrosses
        (Nat.dvd_add (sbStripe_dvd dev i) dev.sectorsize_dvd)
      with ⟨c, hAt, hLow, hHigh⟩
    rcases hApart with hOne | hClear
    · omega
    · obtain ⟨b, rfl⟩ : ∃ b, c = b + 1 :=
        ⟨c - 1, by omega⟩
      refine hClear (b - e.diskBlock) (by omega) ?_
      rw [Nat.add_sub_cancel' (by omega)]
      refine Device.inSb_iff.mpr ⟨i, hMirror, ?_, ?_⟩
      · rw [hAt]
        exact Nat.mul_lt_mul_of_pos_right
          (Nat.lt_add_one b) hPos
      · rw [← hAt]
        exact Nat.lt_add_of_pos_right (by decide)

/- An extent within a group. -/
theorem Device.groups_safe
    {dev : Device}
    {g h : BlockGroup}
    (hG : g ∈ dev.groups)
    (hLow : g.start ≤ e.diskBlock * dev.sectorsize)
    (hHigh :
      (e.diskBlock + e.numBlocks) * dev.sectorsize ≤
        g.start + g.length)
    (hH : h ∈ dev.groups) :
    ¬ dev.Crosses e h.start ∧
      ¬ dev.Crosses e (h.start + h.length) := by
  unfold Device.Crosses
  rcases tiles_apart dev.tiles hG hH with
    hSame | hBefore | hAfter
  · rw [← hSame]
    omega
  · omega
  · omega

/- A block of a group ends in it. -/
theorem Device.block_in_group
    {dev : Device}
    {g : BlockGroup}
    {c : Nat}
    (hG : g ∈ dev.groups)
    (hIn : c * dev.sectorsize < g.start + g.length) :
    (c + 1) * dev.sectorsize ≤ g.start + g.length := by
  have hStart : dev.sectorsize ∣ g.start :=
    tiles_aligned dev.tiles (Nat.dvd_zero _) dev.aligned hG
  rcases Nat.dvd_add hStart (dev.aligned g hG) with ⟨t, hEnd⟩
  rw [hEnd, Nat.mul_comm dev.sectorsize] at hIn ⊢
  exact Nat.mul_le_mul_right _
    (Nat.lt_of_mul_lt_mul_right hIn)

----------
-- The Pending Run
----------

/- What is true of the pending run. -/
structure RunOk
    (dev : Device)
    (d : BlkIterateData) : Prop where
  disk : d.diskBlock ≠ 0
  group :
    ∃ g ∈ dev.groups,
      g.start ≤ d.diskBlock * dev.sectorsize ∧
        (d.diskBlock + d.numBlocks) * dev.sectorsize ≤
          g.start + g.length ∧
        (¬ dev.InSb d.diskBlock →
          d.boundary * dev.sectorsize = g.start + g.length)
  apart :
    d.numBlocks = 1 ∨
      ∀ k < d.numBlocks, ¬ dev.InSb (d.diskBlock + k)
  next :
    dev.InSb d.diskBlock → ¬ dev.InSb (d.diskBlock + 1) →
      d.boundary ≤ d.diskBlock + 1

theorem RunOk.safe
    {dev : Device}
    {d : BlkIterateData}
    (hRun : RunOk dev d) :
    dev.Safe ⟨d.firstBlock, d.diskBlock, d.numBlocks⟩ := by
  rcases hRun.group with ⟨g, hG, hLow, hHigh, _⟩
  exact ⟨fun h hH => Device.groups_safe hG hLow hHigh hH,
    fun i hMirror => Device.stripes_safe hRun.apart hMirror⟩

/- A run that goes on. -/
theorem RunOk.more
    {dev : Device}
    {d : BlkIterateData}
    (hRun : RunOk dev d)
    (hSome : 0 < d.numBlocks)
    (hSb : ¬ dev.InSb (d.diskBlock + d.numBlocks))
    (hBoundary : d.diskBlock + d.numBlocks < d.boundary) :
    RunOk dev { d with numBlocks := d.numBlocks + 1 } := by
  have hFirst : ¬ dev.InSb d.diskBlock := by
    intro hIn
    rcases hRun.apart with hOne | hClear
    · rw [hOne] at hSb hBoundary
      have hEnd := hRun.next hIn hSb
      omega
    · exact hClear 0 hSome hIn
  rcases hRun.group with ⟨g, hG, hLow, _, hEnd⟩
  refine ⟨hRun.disk, ⟨g, hG, hLow, ?_, hEnd⟩, .inr ?_,
    fun hIn => absurd hIn hFirst⟩
  · rw [← hEnd hFirst]
    exact Nat.mul_le_mul_right _ hBoundary
  · intro k hK
    rcases Nat.lt_succ_iff_lt_or_eq.mp hK with hBefore | hLast
    · rcases hRun.apart with hOne | hClear
      · have hZero : k = 0 := by omega
        rw [hZero]
        exact hFirst
      · exact hClear k hBefore
    · rw [hLast]
      exact hSb

/- A run that begins. -/
theorem newBoundary_runOk
    {dev : Device}
    {diskBlock fileBlock boundary : Nat}
    (hDisk : diskBlock ≠ 0)
    (hHas : dev.Has diskBlock)
    (hNew : newBoundary dev diskBlock = some boundary) :
    RunOk dev ⟨fileBlock, diskBlock, 1, boundary⟩ := by
  unfold newBoundary at hNew
  dsimp only at hNew
  split at hNew
  · rename_i hIn
    cases hNew
    rcases hHas with ⟨g, hG, hLow, hHigh⟩
    refine ⟨hDisk, ⟨g, hG, hLow, dev.block_in_group hG hHigh,
      fun hNot => absurd hIn hNot⟩, .inl rfl, ?_⟩
    intro _ hNext
    rcases Device.inSb_iff.mp hIn with
      ⟨i, hMirror, hBelow, hAbove⟩
    have hBounds := Device.inSb_bounds hAbove hBelow
    -- The next block is not in the stripe, so this one ends it.
    have hLast :
        sbStripe i + STRIPE_LEN ≤
          (diskBlock + 1) * dev.sectorsize := by
      by_contra hShort
      refine hNext (Device.inSb_iff.mpr
        ⟨i, hMirror, Nat.lt_of_not_le hShort, ?_⟩)
      dsimp only
      have hMore : (diskBlock + 1) * dev.sectorsize ≤
          (diskBlock + 1 + 1) * dev.sectorsize :=
        Nat.mul_le_mul_right _ (Nat.le_succ _)
      omega
    have hEnd :
        (diskBlock + 1) * dev.sectorsize =
          sbStripe i + STRIPE_LEN :=
      Nat.le_antisymm hBounds.2 hLast
    have hRound :
        (diskBlock * dev.sectorsize + (STRIPE_LEN - 1)) /
            STRIPE_LEN * STRIPE_LEN ≤
          (diskBlock + 1) * dev.sectorsize := by
      rw [hEnd]
      unfold sbStripe at hBelow ⊢
      unfold STRIPE_LEN at hBelow ⊢
      omega
    have hDiv := Nat.div_le_div_right (c := dev.sectorsize)
      hRound
    rw [Nat.mul_div_cancel _ dev.sectorsize_pos] at hDiv
    exact hDiv
  · rename_i hNot
    rcases Option.map_eq_some_iff.mp hNew with
      ⟨g, hFind, hEnd⟩
    have hG := List.mem_of_find?_eq_some hFind
    have hIn := List.find?_some hFind
    rw [decide_eq_true_eq] at hIn
    have hStart : dev.sectorsize ∣ g.start :=
      tiles_aligned dev.tiles (Nat.dvd_zero _) dev.aligned hG
    refine ⟨hDisk, ⟨g, hG, hIn.1,
      dev.block_in_group hG hIn.2, fun _ => ?_⟩, .inl rfl,
      fun hSb => absurd hSb hNot⟩
    rw [← hEnd]
    exact Nat.div_mul_cancel
      (Nat.dvd_add hStart (dev.aligned g hG))

theorem newBoundary_some
    {dev : Device}
    {diskBlock : Nat}
    (hHas : dev.Has diskBlock) :
    ∃ boundary, newBoundary dev diskBlock = some boundary := by
  unfold newBoundary
  dsimp only
  split
  · exact ⟨_, rfl⟩
  · rcases hHas with ⟨g, hG, hIn⟩
    cases hFind : dev.lookupBlockGroup
        (diskBlock * dev.sectorsize) with
    | some h => exact ⟨_, rfl⟩
    | none =>
        have hNone := List.find?_eq_none.mp hFind g hG
        rw [decide_eq_true_eq] at hNone
        exact absurd hIn hNone

----------
-- Records
----------

section Records

variable {dev : Device}
variable {treeError : TreeError}
variable {checksum : Bool}
variable {w w' : Written}

/- Checksums leave the extents as they are. -/
theorem csumBlocks_extents
    {diskBytenr n : Nat}
    {buffer : List UInt8}
    (hRun :
      csumBlocks dev treeError diskBytenr buffer n w =
        .ok w') :
    w'.extents = w.extents ∧ w'.inline = w.inline := by
  induction n generalizing diskBytenr buffer w with
  | zero =>
      cases hRun
      exact ⟨rfl, rfl⟩
  | succ n ih =>
      unfold csumBlocks csumFileBlock at hRun
      split at hRun
      · cases hRun
      · split at hRun
        · cases hRun
        · rename_i hCsum
          have hRest := ih hRun
          split at hCsum
          · cases hCsum
          · cases hCsum
            exact hRest

theorem recordFileBlocks_extents
    {e : FileExtent}
    (hRun :
      recordFileBlocks dev treeError checksum e w = .ok w') :
    w'.extents = w.extents ++ [e] ∧ w'.inline = w.inline := by
  unfold recordFileBlocks at hRun
  split at hRun
  · cases hRun
  · dsimp only at hRun
    split at hRun
    · cases hRun
      exact ⟨rfl, rfl⟩
    · exact csumBlocks_extents hRun

theorem recordAll_extents
    {es : List FileExtent}
    (hRun : recordAll dev treeError checksum es w = .ok w') :
    w'.extents = w.extents ++ es ∧ w'.inline = w.inline := by
  induction es generalizing w with
  | nil =>
      cases hRun
      exact ⟨(List.append_nil _).symm, rfl⟩
  | cons e es ih =>
      unfold recordAll at hRun
      split at hRun
      · cases hRun
      · rename_i hFirst
        have hRest := ih hRun
        have hHead := recordFileBlocks_extents hFirst
        rw [hHead.1, hHead.2, List.append_assoc] at hRest
        exact hRest

/- A read is no `BUG_ON`. -/
theorem Device.readDiskExtent_ne_bug
    (dev : Device)
    (bytenr numBytes : Nat)
    (buffer : List UInt8) :
    dev.readDiskExtent bytenr numBytes buffer ≠
      .error .bug := by
  unfold Device.readDiskExtent
  intro hBug
  split at hBug
  · cases hBug
  · split at hBug
    · cases hBug
    · cases hBug

/- No `BUG_ON` is in the records. -/
theorem recordAll_ne_bug
    (dev : Device)
    (treeError : TreeError)
    (checksum : Bool)
    (es : List FileExtent)
    (w : Written) :
    recordAll dev treeError checksum es w ≠ .error .bug := by
  have hCsums : ∀ n diskBytenr buffer w,
      csumBlocks dev treeError diskBytenr buffer n w ≠
        .error .bug := by
    intro n
    induction n with
    | zero =>
        intro diskBytenr buffer w hBug
        cases hBug
    | succ n ih =>
        intro diskBytenr buffer w
        unfold csumBlocks csumFileBlock
        split
        · rename_i hRead
          intro hBug
          cases hBug
          exact dev.readDiskExtent_ne_bug _ _ _ hRead
        · split
          · rename_i hCsum
            split at hCsum
            · cases hCsum
              intro hBug
              cases hBug
            · cases hCsum
          · exact ih _ _ _
  induction es generalizing w with
  | nil =>
      intro hBug
      cases hBug
  | cons e es ih =>
      unfold recordAll
      split
      · rename_i hFirst
        unfold recordFileBlocks at hFirst
        intro hBug
        cases hBug
        split at hFirst
        · cases hFirst
        · dsimp only at hFirst
          split at hFirst
          · cases hFirst
          · exact hCsums _ _ _ _ hFirst
      · exact ih _

/- Each block can be read whole. -/
def Device.Readable
    (dev : Device) : Prop :=
  ∀ bytenr, ∃ data,
    dev.pread bytenr dev.sectorsize = some data ∧
      data.length = dev.sectorsize

theorem Device.Readable.readDiskExtent
    (hRead : dev.Readable)
    (bytenr : Nat)
    (buffer : List UInt8) :
    ∃ buffer', dev.readDiskExtent bytenr dev.sectorsize
      buffer = .ok buffer' := by
  rcases hRead bytenr with ⟨data, hData, hLength⟩
  unfold Device.readDiskExtent
  rw [hData]
  dsimp only
  rw [if_pos (.inl hLength)]
  exact ⟨_, rfl⟩

/- With no error from the trees or the disk all is recorded. -/
theorem recordAll_ok
    (hTree : ∀ w, treeError w = none)
    (hRead : checksum = false ∨ dev.Readable)
    (es : List FileExtent)
    (w : Written) :
    ∃ w', recordAll dev treeError checksum es w = .ok w' := by
  have hCsums (hReadable : dev.Readable) :
      ∀ n diskBytenr buffer w, ∃ w',
        csumBlocks dev treeError diskBytenr buffer n w =
          .ok w' := by
    intro n
    induction n with
    | zero => exact fun _ _ w => ⟨w, rfl⟩
    | succ n ih =>
        intro diskBytenr buffer w
        rcases hReadable.readDiskExtent diskBytenr buffer with
          ⟨buffer', hData⟩
        unfold csumBlocks csumFileBlock
        rw [hData, hTree w]
        exact ih _ _ _
  induction es generalizing w with
  | nil => exact ⟨w, rfl⟩
  | cons e es ih =>
      unfold recordAll recordFileBlocks
      rw [hTree w]
      dsimp only
      rcases hRead with hNone | hReadable
      · rw [hNone, if_pos Bool.false_ne_true]
        rw [hNone] at ih
        exact ih _
      · cases hChecksum : checksum with
        | false =>
            rw [if_pos Bool.false_ne_true]
            rw [hChecksum] at ih
            exact ih _
        | true =>
            rw [if_neg (not_not_intro rfl)]
            unfold csumDiskExtent
            rcases hCsums hReadable e.numBlocks
                (e.diskBlock * dev.sectorsize)
                (dev.malloc dev.sectorsize)
                { w with extents := w.extents ++ [e] } with
              ⟨w₁, hFirst⟩
            rw [hFirst]
            rw [hChecksum] at ih
            exact ih _

----------
-- Runs
----------

/-
  The extents that are recorded and the pending run are those
  of some blocks, one for each file block so far.
-/
structure Follows
    (dev : Device)
    (es : List FileExtent)
    (d : BlkIterateData)
    (done : List Nat) : Prop where
  cells : cells (es ++ d.run) = done
  files : Consecutive 0 es d.firstBlock
  safe : ∀ e ∈ es, e.diskBlock ≠ 0 → dev.Safe e
  run : 0 < d.numBlocks → RunOk dev d
  start : d.numBlocks = 0 → d.diskBlock = 0

/- One more block, with a hole before it. -/
def place
    (done : List Nat)
    (fileBlock diskBlock : Nat) : List Nat :=
  done ++ List.replicate (fileBlock - done.length) 0 ++
    [diskBlock]

variable {es : List FileExtent}
variable {d d' : BlkIterateData}
variable {done : List Nat}

theorem consecutive_run
    (d : BlkIterateData) :
    Consecutive d.firstBlock d.run
      (d.firstBlock + d.numBlocks) := by
  unfold BlkIterateData.run
  split
  · rename_i hSome
    exact ⟨rfl, hSome, rfl⟩
  · have hNone : d.numBlocks = 0 := by omega
    rw [hNone]
    rfl

theorem consecutive_hole
    (d : BlkIterateData)
    {fileBlock : Nat}
    (hLater : d.firstBlock + d.numBlocks ≤ fileBlock) :
    Consecutive (d.firstBlock + d.numBlocks)
      (d.hole fileBlock) fileBlock := by
  unfold BlkIterateData.hole
  split
  · rename_i hGap
    exact ⟨rfl, Nat.sub_pos_of_lt hGap,
      Nat.add_sub_cancel' hLater⟩
  · rename_i hNone
    exact Nat.le_antisymm hLater (Nat.le_of_not_lt hNone)

theorem cells_hole
    (d : BlkIterateData)
    (fileBlock : Nat) :
    cells (d.hole fileBlock) =
      List.replicate
        (fileBlock - (d.firstBlock + d.numBlocks)) 0 := by
  unfold BlkIterateData.hole
  split
  · rw [cells_single]
    rfl
  · have hNone :
        fileBlock - (d.firstBlock + d.numBlocks) = 0 := by
      omega
    rw [hNone]
    rfl

theorem Follows.length
    (hFollows : Follows dev es d done) :
    d.firstBlock + d.numBlocks = done.length := by
  have hAll := hFollows.files.append (consecutive_run d)
  rw [← hAll.length, hFollows.cells, Nat.zero_add]

theorem Follows.runSafe
    (hFollows : Follows dev es d done) :
    ∀ e ∈ d.run, e.diskBlock ≠ 0 → dev.Safe e := by
  intro e hMem _
  unfold BlkIterateData.run at hMem
  split at hMem
  · rename_i hSome
    rw [List.mem_singleton.mp hMem]
    exact (hFollows.run hSome).safe
  · cases hMem

theorem holeSafe
    (dev : Device)
    (d : BlkIterateData)
    (fileBlock : Nat) :
    ∀ e ∈ d.hole fileBlock,
      e.diskBlock ≠ 0 → dev.Safe e := by
  intro e hMem hDisk
  unfold BlkIterateData.hole at hMem
  split at hMem
  · rw [List.mem_singleton.mp hMem] at hDisk
    exact absurd rfl hDisk
  · cases hMem

variable {diskBlock fileBlock : Nat}

/- A block with which the pending run goes on. -/
theorem Follows.more
    (hFollows : Follows dev es d done)
    (hNew : diskBlock ≠ 0)
    (hLater : done.length ≤ fileBlock)
    (hOn : endsRun dev d diskBlock fileBlock = false) :
    Follows dev es { d with numBlocks := d.numBlocks + 1 }
      (place done fileBlock diskBlock) := by
  unfold endsRun at hOn
  simp only [decide_eq_false_iff_not, not_or, not_and,
    not_lt, not_not] at hOn
  rcases hOn with ⟨hBarrier, hFile, hDisk⟩
  have hLength := hFollows.length
  have hSome : 0 < d.numBlocks := by
    by_contra hNone
    have hZero : d.numBlocks = 0 := by omega
    rw [hFollows.start hZero, hZero] at hDisk
    exact hNew hDisk
  have hClear := hBarrier hSome
  have hRun := hFollows.run hSome
  refine ⟨?_, hFollows.files, hFollows.safe, fun _ => ?_, ?_⟩
  · have hGap : fileBlock - done.length = 0 := by omega
    have hCells :
        Convert.cells es ++ Convert.cells d.run = done :=
      (cells_append es d.run).symm.trans hFollows.cells
    unfold place
    rw [hGap, ← hCells, cells_append]
    unfold BlkIterateData.run
    rw [if_pos hSome, if_pos (Nat.succ_pos _), cells_single,
      cells_single]
    unfold FileExtent.cells
    dsimp only
    rw [if_neg hRun.disk, if_neg hRun.disk,
      List.range'_concat, hDisk]
    simp
  · refine hRun.more hSome ?_ ?_
    · rw [← hDisk]
      exact hClear.1
    · rw [← hDisk]
      exact Nat.lt_of_not_le hClear.2
  · intro hZero
    exact absurd hZero (Nat.succ_ne_zero _)

/- A block with which a new run begins. -/
theorem Follows.fresh
    {diskBlock fileBlock boundary : Nat}
    (hFollows : Follows dev es d done)
    (hNew : diskBlock ≠ 0)
    (hHas : dev.Has diskBlock)
    (hLater : done.length ≤ fileBlock)
    (hBoundary : newBoundary dev diskBlock = some boundary) :
    Follows dev (es ++ (d.run ++ d.hole fileBlock))
      ⟨fileBlock, diskBlock, 1, boundary⟩
      (place done fileBlock diskBlock) := by
  have hLength := hFollows.length
  have hRun : RunOk dev ⟨fileBlock, diskBlock, 1, boundary⟩ :=
    newBoundary_runOk hNew hHas hBoundary
  refine ⟨?_, ?_, ?_, fun _ => hRun, ?_⟩
  · have hCells := hFollows.cells
    unfold place
    rw [← List.append_assoc, cells_append, cells_append,
      hCells, cells_hole, hLength]
    unfold BlkIterateData.run
    rw [if_pos Nat.zero_lt_one, cells_single]
    unfold FileExtent.cells
    dsimp only
    rw [if_neg hNew]
    rfl
  · exact hFollows.files.append
      ((consecutive_run d).append
        (consecutive_hole d (by omega)))
  · intro e hMem
    rcases List.mem_append.mp hMem with hMem | hMem
    · exact hFollows.safe e hMem
    · rcases List.mem_append.mp hMem with hMem | hMem
      · exact hFollows.runSafe e hMem
      · exact holeSafe dev d fileBlock e hMem
  · intro hZero
    cases hZero

/- What a call does. -/
theorem blockIterateProc_follows
    (hFollows : Follows dev es d done)
    (hNew : diskBlock ≠ 0)
    (hHas : dev.Has diskBlock)
    (hLater : done.length ≤ fileBlock)
    (hRun :
      blockIterateProc dev treeError checksum diskBlock
        fileBlock d w = .ok (d', w')) :
    ∃ more, w'.extents = w.extents ++ more ∧
      w'.inline = w.inline ∧
      Follows dev (es ++ more) d'
        (place done fileBlock diskBlock) := by
  unfold blockIterateProc at hRun
  split at hRun
  · split at hRun
    · cases hRun
    · rename_i hRecord
      have hWritten := recordAll_extents hRecord
      split at hRun
      · cases hRun
      · rename_i hBoundary
        cases hRun
        exact ⟨_, hWritten.1, hWritten.2,
          hFollows.fresh hNew hHas hLater hBoundary⟩
  · rename_i hOn
    cases hRun
    refine ⟨[], (List.append_nil _).symm, rfl, ?_⟩
    rw [List.append_nil]
    exact hFollows.more hNew hLater (Bool.not_eq_true _ ▸ hOn)

theorem blockIterateProc_ne_bug
    (hHas : dev.Has diskBlock) :
    blockIterateProc dev treeError checksum diskBlock
      fileBlock d w ≠ .error .bug := by
  unfold blockIterateProc
  split
  · split
    · rename_i hRecord
      intro hBug
      cases hBug
      exact recordAll_ne_bug _ _ _ _ _ hRecord
    · rcases newBoundary_some hHas with ⟨boundary, hSome⟩
      rw [hSome]
      intro hBug
      cases hBug
  · intro hBug
    cases hBug

/- All blocks of a file. -/
def placeAll :
    List (Nat × Nat) → List Nat → List Nat
  | [], done => done
  | (fileBlock, diskBlock) :: pairs, done =>
      placeAll pairs (place done fileBlock diskBlock)

/- File blocks that ascend, from some one on. -/
structure Ascends
    (start : Nat)
    (pairs : List (Nat × Nat)) : Prop where
  apart : pairs.Pairwise fun p q => p.1 < q.1
  after : ∀ p ∈ pairs, start ≤ p.1

variable {pairs : List (Nat × Nat)}

theorem Ascends.tail
    {start : Nat}
    {p : Nat × Nat}
    (hAll : Ascends start (p :: pairs)) :
    Ascends (p.1 + 1) pairs := by
  have hPairs := List.pairwise_cons.mp hAll.apart
  exact ⟨hPairs.2, hPairs.1⟩

theorem length_place
    {fileBlock : Nat}
    (hLater : done.length ≤ fileBlock)
    (diskBlock : Nat) :
    (place done fileBlock diskBlock).length =
      fileBlock + 1 := by
  unfold place
  simp only [List.length_append, List.length_replicate,
    List.length_singleton]
  omega

/- What has been placed stays. -/
theorem placeAll_keeps
    (pairs : List (Nat × Nat))
    (done : List Nat) :
    ∃ more, placeAll pairs done = done ++ more := by
  induction pairs generalizing done with
  | nil => exact ⟨[], (List.append_nil done).symm⟩
  | cons p pairs ih =>
      rcases ih (place done p.1 p.2) with ⟨more, hMore⟩
      refine ⟨List.replicate (p.1 - done.length) 0 ++
        [p.2] ++ more, ?_⟩
      unfold placeAll
      rw [hMore]
      unfold place
      simp only [List.append_assoc]

/- Each block is in its place, and 0 in all other places. -/
theorem placeAll_spec
    (hAll : Ascends done.length pairs) :
    (∀ p ∈ pairs,
      (placeAll pairs done)[p.1]? = some p.2) ∧
    (∀ f, done.length ≤ f →
      f < (placeAll pairs done).length →
      (∀ p ∈ pairs, p.1 ≠ f) →
        (placeAll pairs done)[f]? = some 0) ∧
    (done.length < (placeAll pairs done).length →
      ∃ p ∈ pairs,
        p.1 + 1 = (placeAll pairs done).length) := by
  induction pairs generalizing done with
  | nil =>
      refine ⟨?_, ?_, ?_⟩
      · intro p hMem
        cases hMem
      · intro f hLow hHigh
        exact absurd hHigh (Nat.not_lt.mpr hLow)
      · intro hLess
        exact absurd hLess (Nat.lt_irrefl _)
  | cons p pairs ih =>
      have hLater := hAll.after p (List.mem_cons_self ..)
      have hLength := length_place hLater p.2
      have hTail := hAll.tail
      rw [← hLength] at hTail
      rcases ih hTail with ⟨hPlaced, hHoles, hLast⟩
      rcases placeAll_keeps pairs (place done p.1 p.2) with
        ⟨more, hMore⟩
      have hHere :
          (placeAll (p :: pairs) done) =
            place done p.1 p.2 ++ more := hMore
      have hWhole :
          placeAll pairs (place done p.1 p.2) =
            placeAll (p :: pairs) done := rfl
      rw [hWhole] at hPlaced hHoles hLast
      refine ⟨?_, ?_, ?_⟩
      · intro q hMem
        rcases List.mem_cons.mp hMem with hHead | hIn
        · rw [hHead, hHere, List.getElem?_append_left
            (by omega)]
          unfold place
          rw [List.getElem?_append_right (by
            simp only [List.length_append,
              List.length_replicate]
            omega)]
          simp only [List.length_append,
            List.length_replicate]
          rw [Nat.add_sub_cancel' hLater, Nat.sub_self]
          rfl
        · exact hPlaced q hIn
      · intro f hLow hHigh hNone
        by_cases hAfter : p.1 < f
        · exact hHoles f (by omega) hHigh
            (fun q hIn => hNone q (List.mem_cons_of_mem _ hIn))
        · have hNot := hNone p (List.mem_cons_self ..)
          rw [hHere, List.getElem?_append_left (by omega)]
          unfold place
          rw [List.getElem?_append_left (by
              simp only [List.length_append,
                List.length_replicate]
              omega),
            List.getElem?_append_right hLow,
            List.getElem?_replicate]
          exact if_pos (by omega)
      · intro _
        by_cases hMorePairs :
            (place done p.1 p.2).length <
              (placeAll (p :: pairs) done).length
        · rcases hLast hMorePairs with ⟨q, hIn, hEnd⟩
          exact ⟨q, List.mem_cons_of_mem _ hIn, hEnd⟩
        · refine ⟨p, List.mem_cons_self .., ?_⟩
          have hLe := congrArg List.length hHere
          rw [List.length_append] at hLe
          omega

/- What the iteration does. -/
theorem blockIterate_follows
    (hFollows : Follows dev es d done)
    (hAll : Ascends done.length pairs)
    (hDisk : ∀ p ∈ pairs, p.2 ≠ 0 ∧ dev.Has p.2)
    (hRun :
      blockIterate dev treeError checksum pairs d w =
        .ok (d', w')) :
    ∃ more, w'.extents = w.extents ++ more ∧
      w'.inline = w.inline ∧
      Follows dev (es ++ more) d' (placeAll pairs done) := by
  induction pairs generalizing es d done w with
  | nil =>
      cases hRun
      refine ⟨[], (List.append_nil _).symm, rfl, ?_⟩
      rw [List.append_nil]
      exact hFollows
  | cons p pairs ih =>
      unfold blockIterate at hRun
      split at hRun
      · cases hRun
      · rename_i hCall
        have hHead := hDisk p (List.mem_cons_self ..)
        have hLater := hAll.after p (List.mem_cons_self ..)
        rcases blockIterateProc_follows hFollows hHead.1
            hHead.2 hLater hCall with
          ⟨first, hFirst, hInline, hNext⟩
        have hTail := hAll.tail
        rw [← length_place hLater p.2] at hTail
        rcases ih hNext hTail
            (fun q hIn => hDisk q (List.mem_cons_of_mem _ hIn))
            hRun with
          ⟨rest, hRest, hInlineRest, hEnd⟩
        refine ⟨first ++ rest, ?_, ?_, ?_⟩
        · rw [hRest, hFirst, List.append_assoc]
        · rw [hInlineRest, hInline]
        · rw [← List.append_assoc]
          exact hEnd

theorem blockIterate_ne_bug
    (hDisk : ∀ p ∈ pairs, dev.Has p.2) :
    blockIterate dev treeError checksum pairs d w ≠
      .error .bug := by
  induction pairs generalizing d w with
  | nil =>
      intro hBug
      cases hBug
  | cons p pairs ih =>
      unfold blockIterate
      split
      · rename_i hCall
        intro hBug
        cases hBug
        exact blockIterateProc_ne_bug
          (hDisk p (List.mem_cons_self ..)) hCall
      · exact ih fun q hIn =>
          hDisk q (List.mem_cons_of_mem _ hIn)

theorem blockIterate_ok
    (hTree : ∀ w, treeError w = none)
    (hRead : checksum = false ∨ dev.Readable)
    {pairs : List (Nat × Nat)}
    (hDisk : ∀ p ∈ pairs, dev.Has p.2)
    (d : BlkIterateData)
    (w : Written) :
    ∃ d' w', blockIterate dev treeError checksum pairs d w =
      .ok (d', w') := by
  induction pairs generalizing d w with
  | nil => exact ⟨d, w, rfl⟩
  | cons p pairs ih =>
      have hRest := ih fun q hIn =>
        hDisk q (List.mem_cons_of_mem _ hIn)
      unfold blockIterate blockIterateProc
      split
      · rename_i hCall
        split at hCall
        · rcases recordAll_ok hTree hRead (d.run ++ d.hole p.1)
            w with ⟨w₁, hAll⟩
          rcases newBoundary_some
            (hDisk p (List.mem_cons_self ..)) with
            ⟨boundary, hSome⟩
          rw [hAll] at hCall
          dsimp only at hCall
          rw [hSome] at hCall
          cases hCall
        · cases hCall
      · exact hRest _ _

/- Nothing has been recorded, and no run is pending. -/
theorem follows_start
    (dev : Device) :
    Follows dev [] startData [] := by
  refine ⟨rfl, rfl, ?_, ?_, fun _ => rfl⟩
  · intro e hMem
    cases hMem
  · intro hSome
    exact absurd hSome (Nat.lt_irrefl 0)

end Records

----------
-- All Blocks of a File
----------

/- The blocks of a file, and then the pending run. -/
def recordRuns
    (dev : Device)
    (treeError : TreeError)
    (checksum : Bool)
    (pairs : List (Nat × Nat))
    (w : Written) : Except Stop Written :=
  match blockIterate dev treeError checksum pairs startData
      w with
  | .error stop => .error stop
  | .ok (d, w) => recordAll dev treeError checksum d.run w

/-
  The extents follow one on the other from block 0. They give
  each block of the file its disk block and are holes between
  them, and the data extents cross no boundary.
-/
structure Coalesced
    (dev : Device)
    (pairs : List (Nat × Nat))
    (es : List FileExtent)
    (stop : Nat) : Prop where
  files : Consecutive 0 es stop
  given : ∀ p ∈ pairs, (cells es)[p.1]? = some p.2
  holes :
    ∀ f, f < stop → (∀ p ∈ pairs, p.1 ≠ f) →
      (cells es)[f]? = some 0
  last : 0 < stop → ∃ p ∈ pairs, p.1 + 1 = stop
  safe : ∀ e ∈ es, e.diskBlock ≠ 0 → dev.Safe e

/-
  The blocks of a file are coalesced. There is no `BUG_ON`, and
  all is recorded where the trees and the disk give no error.
-/
theorem recordRuns_coalesces
    (dev : Device)
    (treeError : TreeError)
    (checksum : Bool)
    (pairs : List (Nat × Nat))
    (w : Written)
    (hFiles : pairs.Pairwise fun p q => p.1 < q.1)
    (hDisk : ∀ p ∈ pairs, p.2 ≠ 0 ∧ dev.Has p.2) :
    recordRuns dev treeError checksum pairs w ≠
      .error .bug ∧
    ((∀ w, treeError w = none) →
      (checksum = false ∨ dev.Readable) →
        ∃ w', recordRuns dev treeError checksum pairs w =
          .ok w') ∧
    ∀ w', recordRuns dev treeError checksum pairs w = .ok w' →
      ∃ es stop, w'.extents = w.extents ++ es ∧
        Coalesced dev pairs es stop := by
  refine ⟨?_, ?_, ?_⟩
  · unfold recordRuns
    split
    · rename_i hIterate
      intro hBug
      cases hBug
      exact blockIterate_ne_bug
        (fun p hMem => (hDisk p hMem).2) hIterate
    · exact recordAll_ne_bug _ _ _ _ _
  · intro hTree hRead
    unfold recordRuns
    rcases blockIterate_ok hTree hRead
        (fun p hMem => (hDisk p hMem).2) startData w with
      ⟨d, w₁, hIterate⟩
    rw [hIterate]
    exact recordAll_ok hTree hRead _ _
  · intro w' hRun
    unfold recordRuns at hRun
    split at hRun
    · cases hRun
    · rename_i d w₁ hIterate
      have hAll : Ascends ([] : List Nat).length pairs :=
        ⟨hFiles, fun _ _ => Nat.zero_le _⟩
      rcases blockIterate_follows (follows_start dev) hAll
          hDisk hIterate with
        ⟨es, hEs, _, hFollows⟩
      have hLast := recordAll_extents hRun
      rw [List.nil_append] at hFollows
      rcases placeAll_spec hAll with ⟨hPlaced, hHoles, hEnd⟩
      have hStop := hFollows.length
      refine ⟨es ++ d.run, d.firstBlock + d.numBlocks, ?_,
        hFollows.files.append (consecutive_run d), ?_, ?_,
        ?_, ?_⟩
      · rw [hLast.1, hEs, List.append_assoc]
      · rw [hFollows.cells]
        exact hPlaced
      · rw [hFollows.cells, hStop]
        exact fun f hIn => hHoles f (Nat.zero_le f) hIn
      · rw [hStop]
        exact hEnd
      · intro e hMem
        rcases List.mem_append.mp hMem with hMem | hMem
        · exact hFollows.safe e hMem
        · exact hFollows.runSafe e hMem

/- A device of 64 blocks in two groups. -/
def twoGroups : Device where
  sectorsize := 4096
  maxInline := 3916
  groups := [⟨0, 131072⟩, ⟨131072, 131072⟩]
  pread := fun _ n => some (List.replicate n 0)
  malloc := fun n => List.replicate n 0
  malloc_length := fun _ => List.length_replicate
  sectorsize_pos := page_pos
  sectorsize_dvd := by decide
  tiles := ⟨rfl, rfl, trivial⟩
  aligned := by decide

/- The blocks of a file that crosses both boundaries. -/
def crossing : List (Nat × Nat) :=
  [(0, 14), (1, 15), (2, 16), (4, 31), (5, 32)]

/- Its blocks are coalesced, with checksums. -/
theorem recordRuns_twoGroups :
    ∃ w', recordRuns twoGroups (fun _ => none) true crossing
        ⟨[], [], []⟩ = .ok w' ∧
      ∃ es stop, w'.extents = ([] : List FileExtent) ++ es ∧
        Coalesced twoGroups crossing es stop := by
  have hHas : ∀ p ∈ crossing,
      p.2 ≠ 0 ∧ ∃ g ∈ twoGroups.groups,
        g.start ≤ p.2 * 4096 ∧
          p.2 * 4096 < g.start + g.length := by
    decide
  rcases recordRuns_coalesces twoGroups (fun _ => none) true
      crossing ⟨[], [], []⟩ (by decide) hHas with
    ⟨_, hRecords, hCoalesced⟩
  rcases hRecords (fun _ => rfl)
      (.inr fun _ => ⟨_, rfl, List.length_replicate⟩) with
    ⟨w', hRun⟩
  exact ⟨w', hRun, hCoalesced w' hRun⟩

end Convert

end BtrfsProgs
