import BtrfsProgs.ExtentIo.Uniform
import BtrfsProgs.ExtentTree.Alloc
import BtrfsProgs.Lib.Loop

/-
  `btrfs_make_block_groups`, from `extent-tree.c`, which the
  converter cuts a device into block groups with.

  The state bit is chosen for the first group only, so all
  groups behind it get that of a system group.

  Main declarations:
    * `blockGroupStateBits`
    * `makeTurn` and `makeBlockGroups`
    * `Consecutive` and `CarriesOwn`
    * `makeBlockGroups_tiles_iff`
-/

----------
-- The Groups
----------

namespace BtrfsProgs

namespace ExtentTree

open ExtentIo

/- `BTRFS_BLOCK_GROUP_DATA` and the other types. -/
def BTRFS_BLOCK_GROUP_DATA : BitVec 64 := 1

def BTRFS_BLOCK_GROUP_SYSTEM : BitVec 64 := 2

def BTRFS_BLOCK_GROUP_METADATA : BitVec 64 := 4

/- `BLOCK_GROUP_DATA` and the other state bits. -/
def BLOCK_GROUP_DATA : BitVec 64 := EXTENT_WRITEBACK

def BLOCK_GROUP_METADATA : BitVec 64 := 4

def BLOCK_GROUP_SYSTEM : BitVec 64 := 16

/- `block_group_state_bits`. -/
def blockGroupStateBits
    (flags : BitVec 64) : BitVec 64 :=
  (if flags &&& BTRFS_BLOCK_GROUP_DATA ≠ 0 then
      BLOCK_GROUP_DATA else 0) |||
    (if flags &&& BTRFS_BLOCK_GROUP_METADATA ≠ 0 then
      BLOCK_GROUP_METADATA else 0) |||
    if flags &&& BTRFS_BLOCK_GROUP_SYSTEM ≠ 0 then
      BLOCK_GROUP_SYSTEM else 0

/- `v & ~(align - 1)`, of a `u64`. -/
def alignDown
    (align v : Nat) : Nat :=
  v &&& (2 ^ 64 - align)

def MiB : Nat := 1024 * 1024

def GiB : Nat := 1024 * MiB

/- The variables of the first loop, and what it makes. -/
structure MakeState where
  cur_start : Nat
  bit : BitVec 64
  total_data : Nat
  total_metadata : Nat
  groups : List BlockGroup
  block_group_cache : ExtentIoTree
deriving Repr, DecidableEq

/- The end of a turn: the group is made and its bits set. -/
def addGroup
    (s : MakeState)
    (group_type : BitVec 64)
    (group_size : Nat) : Option MakeState :=
  (setExtentBits s.block_group_cache s.cur_start
    (s.cur_start + group_size - 1)
    (s.bit ||| EXTENT_LOCKED)).map fun tree =>
      { s with
        cur_start := s.cur_start + group_size
        groups := s.groups ++
          [⟨s.cur_start, group_size, group_type, false, false⟩]
        block_group_cache := tree }

/- The size of the system group. -/
def systemSize
    (total_bytes group_align : Nat) : Nat :=
  let group_size := min (total_bytes / 12) total_bytes
  let group_size := alignDown group_align (group_size / 4)
  min (max group_size (8 * MiB)) (32 * MiB)

/- A group that leaves little behind it takes that too. -/
def mergeTail
    (rest group_size : Nat) : Nat :=
  if rest * 4 % 2 ^ 64 < group_size * 5 then rest
  else group_size

/- A turn of the first loop. -/
def makeTurn
    (total_bytes group_align : Nat)
    (s : MakeState) : MakeState ⊕ Option MakeState :=
  if total_bytes ≤ s.cur_start then .inr (some s)
  else
    let made :=
      if s.cur_start = 0 then
        addGroup { s with bit := BLOCK_GROUP_SYSTEM }
          BTRFS_BLOCK_GROUP_SYSTEM
          (systemSize total_bytes group_align)
      else
        let rest := total_bytes - s.cur_start
        let group_size :=
          alignDown group_align (min (total_bytes / 12) rest)
        if s.total_metadata * 2 ≤ s.total_data then
          let group_size := min group_size (1 * GiB)
          addGroup
            { s with
              total_metadata := s.total_metadata + group_size }
            BTRFS_BLOCK_GROUP_METADATA
            (mergeTail rest group_size)
        else
          let group_size := min group_size (5 * GiB)
          addGroup
            { s with total_data := s.total_data + group_size }
            BTRFS_BLOCK_GROUP_DATA (mergeTail rest group_size)
    match made with
    | none => .inr none
    | some s => .inl s

/- Nothing is there before the first turn. -/
def makeStart : MakeState where
  cur_start := 0
  bit := 0
  total_data := 0
  total_metadata := 0
  groups := []
  block_group_cache := []

/-
  The first loop of `btrfs_make_block_groups`, for some turns;
  `none` inside is a failed `BUG_ON`.
-/
def makeBlockGroups
    (total_bytes sectorsize fuel : Nat) :
    Option (Option MakeState) :=
  Loop.run (makeTurn total_bytes (64 * sectorsize)) fuel
    makeStart

----------
-- Tiles
----------

/- The groups are not empty, and cover from `a` up to `b`. -/
def Consecutive
    (b : Nat) : Nat → List BlockGroup → Prop
  | a, [] => a = b
  | a, group :: groups =>
      group.start = a ∧ 0 < group.size ∧
        Consecutive b group.end_ groups

/- The bytes of every group have the bits of its own type. -/
def CarriesOwn
    (tree : ExtentIoTree)
    (groups : List BlockGroup) : Prop :=
  ∀ g ∈ groups, ∀ x, g.start ≤ x → x < g.end_ →
    bitsAt tree x &&& blockGroupStateBits g.flags =
      blockGroupStateBits g.flags

section Tiles

variable {groups : List BlockGroup}
variable {a b : Nat}

theorem Consecutive.append
    (group : BlockGroup)
    (hGroups : Consecutive b a groups)
    (hStart : group.start = b)
    (hSize : 0 < group.size) :
    Consecutive group.end_ a (groups ++ [group]) := by
  induction groups generalizing a with
  | nil => exact ⟨hStart.trans hGroups.symm, hSize, rfl⟩
  | cons first rest ih =>
      rcases hGroups with ⟨hFirst, hPos, hRest⟩
      exact ⟨hFirst, hPos, ih hRest⟩

/- Every byte is in one of them. -/
theorem Consecutive.covers
    {x : Nat}
    (hGroups : Consecutive b a groups)
    (hLow : a ≤ x)
    (hHigh : x < b) :
    ∃ g ∈ groups, g.start ≤ x ∧ x < g.end_ := by
  induction groups generalizing a with
  | nil =>
      have hSame : a = b := hGroups
      omega
  | cons first rest ih =>
      rcases hGroups with ⟨hFirst, _, hRest⟩
      by_cases hHere : x < first.end_
      · exact ⟨first, List.mem_cons_self, by omega, hHere⟩
      · rcases ih hRest (by omega) with ⟨g, hg, hIn⟩
        exact ⟨g, List.mem_cons_of_mem _ hg, hIn⟩

end Tiles

----------
-- What the Turns Keep
----------

/- The bits that all bytes get. -/
def madeBits : BitVec 64 :=
  BLOCK_GROUP_SYSTEM ||| EXTENT_LOCKED

/- The state between two turns. -/
structure Made
    (total_bytes : Nat)
    (s : MakeState) : Prop where
  tiles : Consecutive s.cur_start 0 s.groups
  within : s.cur_start ≤ total_bytes
  uniform : Uniform madeBits s.block_group_cache
  marked : ∀ x, Marked s.block_group_cache x ↔ x < s.cur_start
  bit : s.cur_start ≠ 0 → s.bit = BLOCK_GROUP_SYSTEM
  first : ∀ g ∈ s.groups, g.start = 0 →
    g.end_ ≤ max (total_bytes / 48) (8 * MiB)
  later : ∀ g ∈ s.groups, g.start ≠ 0 →
    madeBits &&& blockGroupStateBits g.flags ≠
      blockGroupStateBits g.flags

section Turns

variable {total_bytes group_align : Nat}
variable {s s' : MakeState}

theorem alignDown_le
    (align v : Nat) :
    alignDown align v ≤ v :=
  Nat.and_le_left

theorem systemSize_le
    (total_bytes group_align : Nat) :
    systemSize total_bytes group_align ≤
      max (total_bytes / 48) (8 * MiB) := by
  have hLess := alignDown_le group_align
    (min (total_bytes / 12) total_bytes / 4)
  unfold systemSize
  dsimp only
  omega

theorem systemSize_pos
    (total_bytes group_align : Nat) :
    8 * MiB ≤ systemSize total_bytes group_align := by
  unfold systemSize MiB
  dsimp only
  omega

theorem mergeTail_le
    {rest size : Nat}
    (hSize : size ≤ rest) :
    mergeTail rest size ≤ rest := by
  unfold mergeTail
  split
  · exact Nat.le_refl rest
  · exact hSize

/- The group that a turn adds. -/
theorem Made.addGroup
    (group_type : BitVec 64)
    (group_size : Nat)
    (hMade : Made total_bytes s)
    (hBit : s.bit = BLOCK_GROUP_SYSTEM)
    (hFits : total_bytes < 2 ^ 64)
    (hPos : 0 < group_size)
    (hWithin : s.cur_start + group_size ≤ total_bytes)
    (hFirst : s.cur_start = 0 →
      group_size ≤ max (total_bytes / 48) (8 * MiB))
    (hLater : s.cur_start ≠ 0 →
      madeBits &&& blockGroupStateBits group_type ≠
        blockGroupStateBits group_type) :
    ∃ s', addGroup s group_type group_size = some s' ∧
      s'.cur_start = s.cur_start + group_size ∧
        s'.groups = s.groups ++
          [⟨s.cur_start, group_size, group_type, false,
            false⟩] ∧
          Made total_bytes s' := by
  rcases hMade.uniform.setExtentBits (by decide)
    (show s.cur_start ≤ s.cur_start + group_size - 1 by omega)
    (show s.cur_start + group_size - 1 < u64Max by
      unfold u64Max
      omega) with ⟨tree, hSet, hUniform, hMarked⟩
  let s' : MakeState :=
    { s with
      cur_start := s.cur_start + group_size
      groups := s.groups ++
        [⟨s.cur_start, group_size, group_type, false, false⟩]
      block_group_cache := tree }
  refine ⟨s', ?_, rfl, rfl, ?_⟩
  · unfold ExtentTree.addGroup
    rw [hBit]
    unfold madeBits at hSet
    rw [hSet]
    dsimp only [Option.map_some]
    rw [← hBit]
  constructor
  case tiles =>
    exact hMade.tiles.append
      ⟨s.cur_start, group_size, group_type, false, false⟩ rfl
      hPos
  case within => exact hWithin
  case uniform => exact hUniform
  case marked =>
    intro x
    rw [hMarked x, hMade.marked x]
    change _ ↔ x < s.cur_start + group_size
    omega
  case bit =>
    intro _
    exact hBit
  case first =>
    intro g hg hStart
    rcases List.mem_append.mp hg with hg | hg
    · exact hMade.first g hg hStart
    · rw [List.mem_singleton.mp hg] at hStart ⊢
      have hZero : s.cur_start = 0 := hStart
      have hSize := hFirst hZero
      change s.cur_start + group_size ≤ _
      omega
  case later =>
    intro g hg hStart
    rcases List.mem_append.mp hg with hg | hg
    · exact hMade.later g hg hStart
    · rw [List.mem_singleton.mp hg] at hStart ⊢
      exact hLater hStart

/- An empty group behind others fails a `BUG_ON`. -/
theorem Made.addGroup_empty
    (group_type : BitVec 64)
    (hMade : Made total_bytes s)
    (hStart : s.cur_start ≠ 0) :
    ExtentTree.addGroup s group_type 0 = none := by
  have hSearch :
      RangeTree.search s.block_group_cache s.cur_start =
        none := by
    cases hFound :
        RangeTree.search s.block_group_cache s.cur_start with
    | none => rfl
    | some c =>
        exfalso
        have hSpec := RangeTree.search_spec hFound
        have hMem : c.node ∈ s.block_group_cache := by
          rw [hSpec.1]
          exact List.mem_append_right _ List.mem_cons_self
        have hBehind : s.cur_start < c.node.end_ + 1 :=
          hSpec.2.2
        have hNode : c.node.start < c.node.end_ + 1 :=
          hMade.uniform.wellFormed.ordered.nonempty _ hMem
        have hIn := (hMade.marked c.node.end_).mp
          ⟨c.node, hMem, by omega, Nat.le_refl _⟩
        omega
  unfold ExtentTree.addGroup setExtentBits
  rw [show 2 * (s.cur_start + 0 - 1 + 1 - s.cur_start) + 1 = 1
    by omega]
  unfold setExtentBitsLoop setExtentBitsPass insertState
  rw [hSearch]
  dsimp only
  rw [if_pos (by omega)]
  rfl

theorem makeStart_made
    (total_bytes : Nat) :
    Made total_bytes makeStart where
  tiles := rfl
  within := Nat.zero_le _
  uniform := ⟨⟨RangeTree.Ordered.nil, by simp [makeStart]⟩,
    fun s hs => by cases hs⟩
  marked := by
    intro x
    constructor
    · intro hMarked
      rcases hMarked with ⟨s, hs, _⟩
      cases hs
    · intro hLess
      cases hLess
  bit := fun hStart => absurd rfl hStart
  first := by
    intro g hg
    cases hg
  later := by
    intro g hg
    cases hg

/- A group behind the first one is of another type. -/
theorem madeBits_not_own
    {group_type : BitVec 64}
    (hType : group_type = BTRFS_BLOCK_GROUP_METADATA ∨
      group_type = BTRFS_BLOCK_GROUP_DATA) :
    madeBits &&& blockGroupStateBits group_type ≠
      blockGroupStateBits group_type := by
  rcases hType with rfl | rfl
  · decide
  · decide

/- What a turn that goes on has added. -/
theorem makeTurn_cases
    (hTurn : makeTurn total_bytes group_align s = .inl s') :
    s.cur_start < total_bytes ∧
      ∃ bit data metadata group_type size,
        addGroup
            { s with
              bit := bit
              total_data := data
              total_metadata := metadata }
            group_type size = some s' ∧
          (s.cur_start = 0 ∧ bit = BLOCK_GROUP_SYSTEM ∧
              size = systemSize total_bytes group_align ∨
            s.cur_start ≠ 0 ∧ bit = s.bit ∧
              (group_type = BTRFS_BLOCK_GROUP_METADATA ∨
                group_type = BTRFS_BLOCK_GROUP_DATA) ∧
                size ≤ total_bytes - s.cur_start) := by
  unfold makeTurn at hTurn
  by_cases hEnd : total_bytes ≤ s.cur_start
  · rw [if_pos hEnd] at hTurn
    cases hTurn
  rw [if_neg hEnd] at hTurn
  refine ⟨Nat.lt_of_not_le hEnd, ?_⟩
  have hDown := alignDown_le group_align
    (min (total_bytes / 12) (total_bytes - s.cur_start))
  dsimp only at hTurn
  generalize hMade : (if s.cur_start = 0 then _ else _) = made
    at hTurn
  cases made with
  | none => cases hTurn
  | some t =>
      cases hTurn
      split_ifs at hMade with hZero hData
      · exact ⟨_, _, _, _, _, hMade,
          Or.inl ⟨hZero, rfl, rfl⟩⟩
      · exact ⟨_, _, _, _, _, hMade, Or.inr ⟨hZero, rfl,
          Or.inl rfl, mergeTail_le (by omega)⟩⟩
      · exact ⟨_, _, _, _, _, hMade, Or.inr ⟨hZero, rfl,
          Or.inr rfl, mergeTail_le (by omega)⟩⟩

/- What is made in a turn that goes on is in order. -/
theorem Made.turn
    (hMade : Made total_bytes s)
    (hFits : total_bytes < 2 ^ 64)
    (hMin : 8 * MiB ≤ total_bytes)
    (hTurn : makeTurn total_bytes group_align s = .inl s') :
    Made total_bytes s' := by
  rcases makeTurn_cases hTurn with
    ⟨hEnd, bit, data, metadata, group_type, size, hAdd, hCase⟩
  have hBit : bit = BLOCK_GROUP_SYSTEM := by
    rcases hCase with ⟨_, hBit, _⟩ | ⟨hStart, hBit, _⟩
    · exact hBit
    · rw [hBit]
      exact hMade.bit hStart
  have hBefore : Made total_bytes
      { s with
        bit := bit
        total_data := data
        total_metadata := metadata } :=
    { hMade with bit := fun _ => hBit }
  have hSystem := systemSize_le total_bytes group_align
  have hSystemPos := systemSize_pos total_bytes group_align
  have hPos : 0 < size := by
    rcases hCase with ⟨_, _, hSize⟩ | ⟨hStart, _⟩
    · unfold MiB at hSystemPos
      omega
    · rw [Nat.pos_iff_ne_zero]
      rintro rfl
      rw [hBefore.addGroup_empty group_type hStart] at hAdd
      cases hAdd
  have hWithin : s.cur_start + size ≤ total_bytes := by
    rcases hCase with ⟨hZero, _, hSize⟩ | ⟨_, _, _, hSize⟩
    · omega
    · omega
  have hFirst : s.cur_start = 0 →
      size ≤ max (total_bytes / 48) (8 * MiB) := by
    intro hZero
    rcases hCase with ⟨_, _, hSize⟩ | ⟨hStart, _⟩
    · rw [hSize]
      exact hSystem
    · exact absurd hZero hStart
  have hLater : s.cur_start ≠ 0 →
      madeBits &&& blockGroupStateBits group_type ≠
        blockGroupStateBits group_type := by
    intro hStart
    rcases hCase with ⟨hZero, _⟩ | ⟨_, _, hType, _⟩
    · exact absurd hZero hStart
    · exact madeBits_not_own hType
  rcases hBefore.addGroup group_type size hBit hFits hPos
    hWithin hFirst hLater with ⟨t, hAdd', _, _, hNext⟩
  rw [hAdd] at hAdd'
  cases hAdd'
  exact hNext

/- A run that ends has cut all of the device. -/
theorem Made.run
    {fuel : Nat}
    (hMade : Made total_bytes s)
    (hFits : total_bytes < 2 ^ 64)
    (hMin : 8 * MiB ≤ total_bytes)
    (hRun :
      Loop.run (makeTurn total_bytes group_align) fuel s =
        some (some s')) :
    Made total_bytes s' ∧ s'.cur_start = total_bytes := by
  rcases Loop.comes_of_run hRun with ⟨last, hComes, hEnd⟩
  have hLast := hComes.keeps
    (fun a b hA hTurn => hA.turn hFits hMin hTurn) hMade
  have hWithin := hLast.within
  unfold makeTurn at hEnd
  by_cases hDone : total_bytes ≤ last.cur_start
  · rw [if_pos hDone] at hEnd
    cases hEnd
    exact ⟨hLast, by omega⟩
  · rw [if_neg hDone] at hEnd
    dsimp only at hEnd
    generalize (if last.cur_start = 0 then _ else _) = made
      at hEnd
    cases made with
    | none => cases hEnd
    | some t => cases hEnd

----------
-- The Bits of the Groups
----------

/- Behind the first group the bits are not those of the type. -/
theorem Made.not_carries
    (hMade : Made total_bytes s)
    (hAll : s.cur_start = total_bytes)
    (hMore : 8 * MiB < total_bytes) :
    ¬ CarriesOwn s.block_group_cache s.groups := by
  intro hCarries
  have hTiles := hMade.tiles
  rw [hAll] at hTiles
  rcases hTiles.covers (x := total_bytes - 1) (Nat.zero_le _)
    (by omega) with ⟨g, hg, hLow, hHigh⟩
  have hStart : g.start ≠ 0 := by
    intro hZero
    have hSize := hMade.first g hg hZero
    unfold MiB at hSize hMore
    omega
  have hOwn := hCarries g hg (total_bytes - 1) hLow hHigh
  have hMarked := (hMade.marked (total_bytes - 1)).mpr
    (by omega)
  rw [hMade.uniform.bitsAt_eq, if_pos hMarked] at hOwn
  exact hMade.later g hg hStart hOwn

/- A device of 8 MiB is one system group. -/
theorem makeBlockGroups_single
    (sectorsize : Nat) :
    ∃ s, (∀ fuel, 2 ≤ fuel →
        makeBlockGroups (8 * MiB) sectorsize fuel =
          some (some s)) ∧
      Consecutive (8 * MiB) 0 s.groups ∧
        CarriesOwn s.block_group_cache s.groups := by
  have hSize : systemSize (8 * MiB) (64 * sectorsize) =
      8 * MiB := by
    have hLess := alignDown_le (64 * sectorsize)
      (min (8 * MiB / 12) (8 * MiB) / 4)
    unfold systemSize
    unfold MiB at hLess ⊢
    dsimp only
    omega
  have hBefore : Made (8 * MiB)
      { makeStart with bit := BLOCK_GROUP_SYSTEM } :=
    { makeStart_made (8 * MiB) with bit := fun _ => rfl }
  rcases hBefore.addGroup BTRFS_BLOCK_GROUP_SYSTEM (8 * MiB)
    rfl (by decide) (by decide) (Nat.le_refl _)
    (fun _ => Nat.le_max_right _ _)
    (fun hNot => absurd rfl hNot) with
    ⟨s, hAdd, hEnd, hGroups, hMade⟩
  rw [show makeStart.cur_start = 0 from rfl,
    Nat.zero_add] at hEnd
  have hFirst : makeTurn (8 * MiB) (64 * sectorsize) makeStart =
      .inl s := by
    unfold makeTurn
    rw [if_neg (by decide)]
    dsimp only
    rw [if_pos (show makeStart.cur_start = 0 from rfl), hSize,
      hAdd]
  have hLast : makeTurn (8 * MiB) (64 * sectorsize) s =
      .inr (some s) := by
    unfold makeTurn
    rw [if_pos hEnd.ge]
  have hRun : makeBlockGroups (8 * MiB) sectorsize 2 =
      some (some s) := by
    unfold makeBlockGroups Loop.run
    rw [hFirst]
    dsimp only
    unfold Loop.run
    rw [hLast]
  refine ⟨s, ?_, ?_, ?_⟩
  · intro fuel hFuel
    exact Loop.run_mono hRun hFuel
  · have hTiles := hMade.tiles
    rw [hEnd] at hTiles
    exact hTiles
  · intro g hg x hLow hHigh
    rw [hGroups] at hg
    have hGroup := List.mem_singleton.mp hg
    rw [hGroup] at hHigh ⊢
    have hMarked := (hMade.marked x).mpr (by
      rw [hEnd]
      exact hHigh)
    rw [hMade.uniform.bitsAt_eq, if_pos hMarked]
    decide

/-
  Whenever the first loop ends, the groups tile the device.
  That it ends, and that the bytes of the groups have the bits
  of their own types, is so for a device of 8 MiB only.
-/
theorem makeBlockGroups_tiles_iff
    (total_bytes sectorsize : Nat)
    (hMin : 8 * MiB ≤ total_bytes)
    (hFits : total_bytes < 2 ^ 64) :
    (∀ fuel s,
      makeBlockGroups total_bytes sectorsize fuel =
          some (some s) →
        Consecutive total_bytes 0 s.groups) ∧
      ((∃ enough s,
        (∀ fuel, enough ≤ fuel →
          makeBlockGroups total_bytes sectorsize fuel =
            some (some s)) ∧
          Consecutive total_bytes 0 s.groups ∧
            CarriesOwn s.block_group_cache s.groups) ↔
        total_bytes = 8 * MiB) := by
  refine ⟨?_, ?_, ?_⟩
  · intro fuel s hRun
    rcases (makeStart_made total_bytes).run hFits hMin hRun with
      ⟨hMade, hEnd⟩
    rw [← hEnd]
    exact hMade.tiles
  · intro hAll
    rcases hAll with ⟨enough, s, hRun, _, hCarries⟩
    rcases (makeStart_made total_bytes).run hFits hMin
      (hRun enough (Nat.le_refl _)) with ⟨hMade, hEnd⟩
    by_contra hNot
    exact hMade.not_carries hEnd (by omega) hCarries
  · rintro rfl
    rcases makeBlockGroups_single sectorsize with
      ⟨s, hRun, hTiles, hCarries⟩
    exact ⟨2, s, hRun, hTiles, hCarries⟩

theorem makeBlockGroups_tiles_small :
    ∃ enough s,
      (∀ fuel, enough ≤ fuel →
        makeBlockGroups (8 * MiB) 4096 fuel =
          some (some s)) ∧
        Consecutive (8 * MiB) 0 s.groups ∧
          CarriesOwn s.block_group_cache s.groups :=
  (makeBlockGroups_tiles_iff (8 * MiB) 4096 (Nat.le_refl _)
    (by decide)).2.mpr rfl

/- The groups and the bits of their first bytes, of 16 MiB. -/
theorem makeBlockGroups_second :
    (makeBlockGroups (16 * MiB) 4096 9).map (fun made =>
      made.map fun s => s.groups[1]?.map fun g =>
        (decide (g.start < g.end_),
          decide (bitsAt s.block_group_cache g.start &&&
              blockGroupStateBits g.flags =
            blockGroupStateBits g.flags))) =
      some (some (some (true, false))) := by
  decide +kernel

/- 16 MiB, in sectors of 4 KiB, are more than one group. -/
theorem makeBlockGroups_not_own :
    ¬ ∀ total_bytes sectorsize,
      8 * MiB ≤ total_bytes → total_bytes < 2 ^ 64 →
        sectorsize ∣ total_bytes →
          ∃ enough s,
            (∀ fuel, enough ≤ fuel →
              makeBlockGroups total_bytes sectorsize fuel =
                some (some s)) ∧
              Consecutive total_bytes 0 s.groups ∧
                CarriesOwn s.block_group_cache s.groups := by
  intro hAll
  rcases hAll (16 * MiB) 4096 (by decide) (by decide)
    (by decide) with ⟨enough, s, hRun, _, hCarries⟩
  rcases Option.map_eq_some_iff.mp makeBlockGroups_second with
    ⟨made, hMade, hSome⟩
  rcases Option.map_eq_some_iff.mp hSome with ⟨t, rfl, hGroup⟩
  rcases Option.map_eq_some_iff.mp hGroup with
    ⟨g, hSecond, hBits⟩
  have hSame := Loop.run_unique hMade
    (hRun enough (Nat.le_refl _))
  cases hSame
  rw [Prod.mk.injEq, decide_eq_true_eq,
    decide_eq_false_iff_not] at hBits
  apply hBits.2
  exact hCarries g (List.mem_of_getElem? hSecond) g.start
    (Nat.le_refl _) hBits.1

end Turns

end ExtentTree

end BtrfsProgs
