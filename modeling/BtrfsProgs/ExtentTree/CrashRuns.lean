import BtrfsProgs.ExtentTree.CrashSafety

/-
  Crash safety of whole transactions.

  Main declarations:
    * `step_safe` and `run_safe`
    * `CrashSafe` and `StepSafe`
    * `run_crashSafe`
-/

----------
-- Steps and Runs
----------

namespace BtrfsProgs

namespace ExtentTree

open Check
open ExtentIo

section Runs

variable {Body : Type} [DecidableEq Body]
variable {pointers : Body → List (Nat × Nat)}
variable {s₀ s s' : State Body}

/- An action before the superblock write keeps off it all. -/
theorem step_safe
    (hStart : Started pointers s₀)
    (hSafe : Safe (Committed pointers s₀) s₀ s)
    {a : Action Body}
    (hStep : step s a = some s')
    (hBefore : s'.phase ≠ .superWritten) :
    Safe (Committed pointers s₀) s₀ s' := by
  cases a with
  | read b n => exact hSafe.read hStart hStep
  | readFailed b n garbage => exact hSafe.readFailed hStep
  | evict b n => exact hSafe.evict hStep
  | allocChunk chunk flags => exact hSafe.allocChunk hStep
  | reserve req picks => exact (hSafe.reserve hStart hStep).1
  | queueInsert b level => exact hSafe.queueInsert hStep
  | insertExtent skinny b level =>
      exact hSafe.insertExtent hStart hStep
  | insertQueued skinny =>
      exact hSafe.insertQueued hStart hStep
  | cancelQueued op => exact hSafe.cancelQueued hStep
  | create b owner reloc body => exact hSafe.create hStep
  | edit b n root body => exact (hSafe.edit hStep).1
  | setBlockFlags b n body => exact hSafe.setBlockFlags hStep
  | cleanTreeBlock b n => exact hSafe.cleanTreeBlock hStep
  | incRef key refs => exact hSafe.incRef hStep
  | dropRef key refs => exact hSafe.dropRef hStep
  | pinDown key refs isData => exact (hSafe.pinDown hStep).1
  | delItems key => exact hSafe.delItems hStep
  | updateBlockGroup key =>
      exact (hSafe.updateBlockGroup hStep).1
  | startWriting =>
      simp only [step] at hStep
      rcases guard_bind_eq_some hStep with ⟨_, hStep⟩
      cases hStep
      exact { hSafe with }
  | writeTreeBlock b n => exact hSafe.writeTreeBlock hStep
  | writeSuper roots =>
      simp only [step] at hStep
      rcases guard_bind_eq_some hStep with ⟨_, hStep⟩
      rcases guard_bind_eq_some hStep with ⟨_, hStep⟩
      cases hStep
      exact absurd rfl hBefore
  | finishExtentCommit =>
      simp only [step] at hStep
      rcases guard_bind_eq_some hStep with ⟨hPhase, hStep⟩
      rcases Option.bind_eq_some_iff.mp hStep with
        ⟨space, _, hStep⟩
      cases hStep
      exact absurd hPhase hBefore

/- Nothing goes back behind the superblock write. -/
theorem step_superWritten
    {a : Action Body}
    (hStep : step s a = some s')
    (hPhase : s.phase = .superWritten) :
    s'.phase = .superWritten := by
  cases a with
  | read b n =>
      simp only [step] at hStep
      split at hStep
      case h_1 =>
        cases hStep
        exact hPhase
      case h_2 =>
        rcases Option.bind_eq_some_iff.mp hStep with
          ⟨block, _, hStep⟩
        rcases Option.bind_eq_some_iff.mp hStep with
          ⟨cache, _, hStep⟩
        cases hStep
        exact hPhase
  | readFailed b n garbage =>
      simp only [step] at hStep
      split at hStep
      case h_1 =>
        cases hStep
        exact hPhase
      case h_2 =>
        rcases Option.bind_eq_some_iff.mp hStep with
          ⟨cache, _, hStep⟩
        cases hStep
        exact hPhase
  | evict b n =>
      simp only [step] at hStep
      rcases Option.bind_eq_some_iff.mp hStep with
        ⟨eb, _, hStep⟩
      cases hStep
      exact hPhase
  | finishExtentCommit =>
      simp only [step] at hStep
      rcases guard_bind_eq_some hStep with ⟨_, hStep⟩
      rcases Option.bind_eq_some_iff.mp hStep with
        ⟨space, _, hStep⟩
      cases hStep
      exact hPhase
  | _ =>
      -- all others ask for an earlier phase
      simp only [step] at hStep
      have hGuard := (guard_bind_eq_some hStep).1
      rw [hPhase] at hGuard
      cases hGuard

theorem run_superWritten
    {actions : List (Action Body)}
    (hRun : run s actions = some s')
    (hPhase : s.phase = .superWritten) :
    s'.phase = .superWritten := by
  induction actions generalizing s with
  | nil =>
      cases hRun
      exact hPhase
  | cons a actions ih =>
      unfold run at hRun
      rcases Option.bind_eq_some_iff.mp hRun with
        ⟨next, hStep, hRun⟩
      exact ih hRun (step_superWritten hStep hPhase)

/- The invariant along a run. -/
theorem run_safe
    (hStart : Started pointers s₀)
    (hSafe : Safe (Committed pointers s₀) s₀ s)
    {actions : List (Action Body)}
    (hRun : run s actions = some s')
    (hBefore : s'.phase ≠ .superWritten) :
    Safe (Committed pointers s₀) s₀ s' := by
  induction actions generalizing s with
  | nil =>
      cases hRun
      exact hSafe
  | cons a actions ih =>
      unfold run at hRun
      rcases Option.bind_eq_some_iff.mp hRun with
        ⟨next, hStep, hRun⟩
      have hNext : next.phase ≠ .superWritten :=
        fun h => hBefore (run_superWritten hRun h)
      exact ih (step_safe hStart hSafe hStep hNext) hRun

----------
-- Crash Safety
----------

/-
  What a crash would find, and what would be written or
  handed out next.
-/
structure CrashSafe
    (pointers : Body → List (Nat × Nat))
    (s₀ s : State Body) : Prop where
  super : s.superRoots = s₀.superRoots
  readable :
    ∀ b n block,
      Reachable pointers s₀.disk s₀.superRoots b n block →
        Reachable pointers s.disk s.superRoots b n block
  untouched :
    ∀ b n, Committed pointers s₀ b n →
      ∀ x, b ≤ x → x < b + n → s.disk x = s₀.disk x
  dirty :
    ∀ eb ∈ s.cache,
      eb.dirty = true →
        Own s.transid eb.block ∧
          Clear (Committed pointers s₀) eb.start eb.len
  handedOut :
    ∀ r ∈ s.handedOut, Clear (Committed pointers s₀) r.1 r.2

/-
  What one action may do: hand out ranges that are neither
  committed nor pinned, change only own blocks that are not
  written, and free a range by pinning it, an own block that
  was not written apart.  What is pinned stays pinned.
-/
structure StepSafe
    (pointers : Body → List (Nat × Nat))
    (s₀ s : State Body)
    (a : Action Body)
    (s' : State Body) : Prop where
  allocated :
    ∀ r ∈ s'.handedOut,
      r ∈ s.handedOut ∨
        (Clear (Committed pointers s₀) r.1 r.2 ∧
          ∀ x, r.1 ≤ x → x < r.1 + r.2 →
            ¬ Marked s.space.pinnedExtents x)
  edited :
    ∀ bytenr len rootObjectid body,
      a = .edit bytenr len rootObjectid body →
        ∃ eb ∈ s.cache,
          eb.start = bytenr ∧ eb.len = len ∧
            Own s.transid eb.block
  freed :
    ∀ key refs isData,
      a = .pinDown key refs isData →
        (∀ x, key.objectid ≤ x →
          x < key.objectid + extentLen s.space.leafsize key →
            Marked s'.space.pinnedExtents x) ∨
        ∃ eb ∈ s.cache,
          eb.start = key.objectid ∧
            eb.len = extentLen s.space.leafsize key ∧
            Own s.transid eb.block
  pinned :
    ∀ x, Marked s.space.pinnedExtents x →
      Marked s'.space.pinnedExtents x

/- What is readable depends on the bytes of the blocks. -/
theorem Reachable.same
    {disk disk' : Disk Body}
    {roots : List (Nat × Nat)}
    (hSame :
      ∀ b n block,
        Reachable pointers disk roots b n block →
          ∀ x, b ≤ x → x < b + n → disk' x = disk x)
    (hNonempty :
      ∀ b n block,
        Reachable pointers disk roots b n block → 0 < n)
    {b n : Nat}
    {block : TreeBlock Body}
    (hReach : Reachable pointers disk roots b n block) :
    Reachable pointers disk' roots b n block := by
  have hRead :
      ∀ {b n block},
        Reachable pointers disk roots b n block →
          readTreeBlock disk' b n = some block := by
    intro b n block hReach
    have hBytes := hSame b n block hReach
    have hPos := hNonempty b n block hReach
    have hOld := hReach.read
    unfold readTreeBlock at hOld ⊢
    rw [hBytes b le_rfl (by omega)]
    split at hOld
    case h_1 => cases hOld
    case h_2 found i hFound =>
      split at hOld
      case isFalse => cases hOld
      case isTrue hAll =>
        have hAll' : found.bytenr = b ∧
            ∀ i < n, disk' (b + i) = some (found, i) := by
          refine ⟨hAll.1, ?_⟩
          intro i hi
          rw [hBytes (b + i) (by omega) (by omega)]
          exact hAll.2 i hi
        rw [if_pos hAll']
        exact hOld
  induction hReach with
  | root hRoot hOld =>
      exact .root hRoot (hRead (.root hRoot hOld))
  | child hParent hPointer hOld ih =>
      exact .child ih hPointer
        (hRead (.child hParent hPointer hOld))

/- A committed block has an extent item, so is not empty. -/
theorem Started.pos
    (hStart : Started pointers s₀)
    {b n : Nat}
    (hCommitted : Committed pointers s₀ b n) :
    0 < n := by
  rcases (hStart.recorded b n hCommitted).1 with
    ⟨item, hItem, hExtent, hAt, hEnd⟩
  have hPos := (hStart.extents item hItem hExtent).1
  unfold extentLen at hPos
  omega

theorem Safe.crashSafe
    (hStart : Started pointers s₀)
    (hSafe : Safe (Committed pointers s₀) s₀ s) :
    CrashSafe pointers s₀ s where
  super := hSafe.super
  readable := by
    intro b n block hReach
    rw [hSafe.super]
    refine Reachable.same ?_ ?_ hReach
    · intro c m old hOld
      exact hSafe.disk c m ⟨old, hOld⟩
    · intro c m old hOld
      exact hStart.pos ⟨old, hOld⟩
  untouched := hSafe.disk
  dirty := by
    intro eb hEb hDirty
    have hOne := hSafe.cache eb hEb
    rw [hSafe.transid]
    exact ⟨hOne.dirty hDirty, hOne.clear (Or.inl hDirty)⟩
  handedOut := fun r hr => (hSafe.handedOut r hr).2.2

/- What stays in most actions. -/
structure Frame
    (s s' : State Body) : Prop where
  handedOut : s'.handedOut = s.handedOut
  pinned : s'.space.pinnedExtents = s.space.pinnedExtents

theorem allocReservedTreeBlock_pinned
    {space space' : Space}
    {skinny : Bool}
    {bytenr numBytes level : Nat}
    (hAlloc :
      allocReservedTreeBlock space skinny bytenr numBytes
        level = some space') :
    space'.pinnedExtents = space.pinnedExtents := by
  unfold allocReservedTreeBlock at hAlloc
  rcases Option.bind_eq_some_iff.mp hAlloc with
    ⟨items, _, hAlloc⟩
  cases hAlloc
  rfl

/-
  Only `btrfs_reserve_extent` hands out, only
  `pin_down_bytes` pins before the superblock write.
-/
theorem step_frame
    {a : Action Body}
    (hReserve : ∀ req picks, a ≠ .reserve req picks)
    (hPin : ∀ key refs isData, a ≠ .pinDown key refs isData)
    (hFinish : a ≠ .finishExtentCommit)
    (hStep : step s a = some s') :
    Frame s s' := by
  cases a with
  | read b n =>
      simp only [step] at hStep
      split at hStep
      case h_1 =>
        cases hStep
        exact ⟨rfl, rfl⟩
      case h_2 =>
        rcases Option.bind_eq_some_iff.mp hStep with
          ⟨block, _, hStep⟩
        rcases Option.bind_eq_some_iff.mp hStep with
          ⟨cache, _, hStep⟩
        cases hStep
        exact ⟨rfl, rfl⟩
  | readFailed b n garbage =>
      simp only [step] at hStep
      split at hStep
      case h_1 =>
        cases hStep
        exact ⟨rfl, rfl⟩
      case h_2 =>
        rcases Option.bind_eq_some_iff.mp hStep with
          ⟨cache, _, hStep⟩
        cases hStep
        exact ⟨rfl, rfl⟩
  | evict b n =>
      simp only [step] at hStep
      rcases Option.bind_eq_some_iff.mp hStep with
        ⟨eb, _, hStep⟩
      cases hStep
      exact ⟨rfl, rfl⟩
  | reserve req picks => exact absurd rfl (hReserve req picks)
  | pinDown key refs isData =>
      exact absurd rfl (hPin key refs isData)
  | finishExtentCommit => exact absurd rfl hFinish
  | allocChunk chunk flags =>
      simp only [step] at hStep
      rcases guard_bind_eq_some hStep with ⟨_, hStep⟩
      rcases guard_bind_eq_some hStep with ⟨_, hStep⟩
      rcases guard_bind_eq_some hStep with ⟨_, hStep⟩
      rcases guard_bind_eq_some hStep with ⟨_, hStep⟩
      cases hStep
      exact ⟨rfl, rfl⟩
  | queueInsert b level
  | cancelQueued op
  | writeSuper roots =>
      simp only [step] at hStep
      rcases guard_bind_eq_some hStep with ⟨_, hStep⟩
      rcases guard_bind_eq_some hStep with ⟨_, hStep⟩
      cases hStep
      exact ⟨rfl, rfl⟩
  | insertExtent skinny b level =>
      simp only [step] at hStep
      rcases guard_bind_eq_some hStep with ⟨_, hStep⟩
      rcases guard_bind_eq_some hStep with ⟨_, hStep⟩
      rcases Option.bind_eq_some_iff.mp hStep with
        ⟨space, hAlloc, hStep⟩
      cases hStep
      exact ⟨rfl, allocReservedTreeBlock_pinned hAlloc⟩
  | insertQueued skinny =>
      simp only [step] at hStep
      rcases guard_bind_eq_some hStep with ⟨_, hStep⟩
      rcases Option.bind_eq_some_iff.mp hStep with
        ⟨op, _, hStep⟩
      rcases Option.bind_eq_some_iff.mp hStep with
        ⟨space, hAlloc, hStep⟩
      cases hStep
      have hPinned := allocReservedTreeBlock_pinned hAlloc
      exact ⟨rfl, hPinned⟩
  | create b owner reloc body =>
      simp only [step] at hStep
      rcases guard_bind_eq_some hStep with ⟨_, hStep⟩
      rcases guard_bind_eq_some hStep with ⟨_, hStep⟩
      rcases Option.bind_eq_some_iff.mp hStep with
        ⟨cache, _, hStep⟩
      cases hStep
      exact ⟨rfl, rfl⟩
  | edit b n root body
  | cleanTreeBlock b n
  | setBlockFlags b n body
  | incRef key refs
  | delItems key
  | writeTreeBlock b n =>
      simp only [step] at hStep
      rcases guard_bind_eq_some hStep with ⟨_, hStep⟩
      rcases Option.bind_eq_some_iff.mp hStep with
        ⟨_, _, hStep⟩
      cases hStep
      exact ⟨rfl, rfl⟩
  | dropRef key refs =>
      simp only [step] at hStep
      rcases guard_bind_eq_some hStep with ⟨_, hStep⟩
      rcases Option.bind_eq_some_iff.mp hStep with
        ⟨_, _, hStep⟩
      rcases guard_bind_eq_some hStep with ⟨_, hStep⟩
      cases hStep
      exact ⟨rfl, rfl⟩
  | updateBlockGroup key =>
      simp only [step] at hStep
      rcases guard_bind_eq_some hStep with ⟨_, hStep⟩
      rcases Option.bind_eq_some_iff.mp hStep with
        ⟨_, _, hStep⟩
      rcases Option.bind_eq_some_iff.mp hStep with
        ⟨space, hUpdate, hStep⟩
      cases hStep
      rcases Option.bind_eq_some_iff.mp hUpdate with
        ⟨free, _, hUpdate⟩
      cases hUpdate
      exact ⟨rfl, rfl⟩
  | startWriting =>
      simp only [step] at hStep
      rcases guard_bind_eq_some hStep with ⟨_, hStep⟩
      cases hStep
      exact ⟨rfl, rfl⟩

theorem pinDownBytes_handedOut
    {bytenr numBytes : Nat}
    {isData markFree : Bool}
    (hPin :
      pinDownBytes s bytenr numBytes isData =
        some (markFree, s')) :
    s'.handedOut = s.handedOut := by
  unfold pinDownBytes at hPin
  split at hPin
  case h_1 =>
    cases hPin
    rfl
  case h_2 =>
    rcases Option.bind_eq_some_iff.mp hPin with
      ⟨pinned, _, hPin⟩
    cases hPin
    rfl

theorem step_pinDown_handedOut
    {key : ExtentKey}
    {refs : Nat}
    {isData : Bool}
    (hStep : step s (.pinDown key refs isData) = some s') :
    s'.handedOut = s.handedOut := by
  simp only [step] at hStep
  rcases guard_bind_eq_some hStep with ⟨_, hStep⟩
  rcases guard_bind_eq_some hStep with ⟨_, hStep⟩
  rcases Option.bind_eq_some_iff.mp hStep with
    ⟨item, _, hStep⟩
  rcases guard_bind_eq_some hStep with ⟨_, hStep⟩
  rcases Option.bind_eq_some_iff.mp hStep with
    ⟨⟨markFree, next⟩, hPin, hStep⟩
  cases hStep
  have hSame := pinDownBytes_handedOut hPin
  exact hSame

/- The two actions that are not in the frame. -/
theorem Safe.stepSafe
    (hStart : Started pointers s₀)
    (hSafe : Safe (Committed pointers s₀) s₀ s)
    {a : Action Body}
    (hBefore : s.phase ≠ .superWritten)
    (hStep : step s a = some s') :
    StepSafe pointers s₀ s a s' := by
  by_cases hReserve : ∃ req picks, a = .reserve req picks
  · rcases hReserve with ⟨req, picks, rfl⟩
    rcases (hSafe.reserve hStart hStep).2 with
      ⟨start, hHanded, hPinned, hClear, hNotPinned⟩
    refine ⟨?_, ?_, ?_, ?_⟩
    · rw [hHanded]
      intro r hr
      rcases List.mem_cons.mp hr with rfl | hr
      · exact Or.inr ⟨hClear, hNotPinned⟩
      · exact Or.inl hr
    · intro b n root body hEdit
      cases hEdit
    · intro key refs isData hPin
      cases hPin
    · rw [hPinned]
      exact fun _ h => h
  by_cases hPin :
      ∃ key refs isData, a = .pinDown key refs isData
  · rcases hPin with ⟨key, refs, isData, rfl⟩
    rcases (hSafe.pinDown hStep).2 with ⟨hMore, hFreed⟩
    refine ⟨?_, ?_, ?_, hMore⟩
    · intro r hr
      rw [step_pinDown_handedOut hStep] at hr
      exact Or.inl hr
    · intro b n root body hEdit
      cases hEdit
    · intro key' refs' isData' hSame
      cases hSame
      exact hFreed
  have hFinish : a ≠ .finishExtentCommit := by
    rintro rfl
    simp only [step] at hStep
    exact hBefore (guard_bind_eq_some hStep).1
  have hFrame := step_frame
    (fun req picks h => hReserve ⟨req, picks, h⟩)
    (fun key refs isData h => hPin ⟨key, refs, isData, h⟩)
    hFinish hStep
  refine ⟨?_, ?_, ?_, ?_⟩
  · intro r hr
    rw [hFrame.handedOut] at hr
    exact Or.inl hr
  · rintro b n root body rfl
    exact (hSafe.edit hStep).2
  · rintro key refs isData rfl
    exact absurd ⟨key, refs, isData, rfl⟩ hPin
  · rw [hFrame.pinned]
    exact fun _ h => h

end Runs

----------
-- A Small Filesystem
----------

/- The root of the last commit, with one leaf below it. -/
def committedRoot : TreeBlock (List (Nat × Nat)) :=
  ⟨131072, 1, 7, true, false, [(135168, 4096)]⟩

def committedLeaf : TreeBlock (List (Nat × Nat)) :=
  ⟨135168, 1, 7, true, false, []⟩

/- Transaction 8 on a filesystem of one chunk. -/
def crashStart : State (List (Nat × Nat)) where
  space :=
    { mapTree := [Check.firstChunk.toMapLookup]
      leafsize := 4096
      stripesize := 4096
      items :=
        [⟨⟨131072, EXTENT_ITEM_KEY, 4096⟩, 1⟩,
          ⟨⟨135168, EXTENT_ITEM_KEY, 4096⟩, 1⟩]
      groups := [⟨0, 1048576, 4, false, false⟩]
      freeSpaceCache := []
      pinnedExtents := []
      extentIns := [] }
  transid := 8
  phase := .running
  cache := []
  disk :=
    writeToDisk
      (writeToDisk (fun _ => none)
        ⟨131072, 4096, committedRoot, true, false⟩)
      ⟨135168, 4096, committedLeaf, true, false⟩
  superRoots := [(131072, 4096)]
  reserved := []
  freeing := []
  handedOut := []

theorem crashStart_reachable
    {b n : Nat}
    {block : TreeBlock (List (Nat × Nat))}
    (hReach :
      Reachable id crashStart.disk crashStart.superRoots b n
        block) :
    n = 4096 ∧
      ((b = 131072 ∧ block = committedRoot) ∨
        (b = 135168 ∧ block = committedLeaf)) := by
  have hFirst :
      ∀ {b n block},
        readTreeBlock crashStart.disk b n = some block →
          ∃ i, crashStart.disk b = some (block, i) := by
    intro b n block hRead
    unfold readTreeBlock at hRead
    split at hRead
    case h_1 => cases hRead
    case h_2 found i hFound =>
      split_ifs at hRead
      cases hRead
      exact ⟨i, hFound⟩
  induction hReach with
  | root hRoot hRead =>
      rcases hFirst hRead with ⟨i, hByte⟩
      cases List.mem_singleton.mp hRoot
      refine ⟨rfl, Or.inl ⟨rfl, ?_⟩⟩
      have hHere :
          crashStart.disk 131072 = some (committedRoot, 0) := by
        decide
      rw [hHere] at hByte
      cases hByte
      rfl
  | child hParent hPointer hRead ih =>
      rcases hFirst hRead with ⟨i, hByte⟩
      rcases ih.2 with ⟨_, rfl⟩ | ⟨_, rfl⟩
      · cases List.mem_singleton.mp hPointer
        refine ⟨rfl, Or.inr ⟨rfl, ?_⟩⟩
        have hHere :
            crashStart.disk 135168 =
              some (committedLeaf, 0) := by
          decide
        rw [hHere] at hByte
        cases hByte
        rfl
      · cases hPointer

theorem crashStart_started :
    Started id crashStart := by
  have hUniform := Uniform.nil EXTENT_DIRTY
  refine ⟨rfl, ⟨hUniform, hUniform, by decide, ?_, ?_⟩,
    by decide, by decide, by decide, ?_, ?_, ?_, ?_, ?_,
    ⟨rfl, rfl, rfl, rfl⟩⟩
  · exact RangeTree.Ordered.cons_iff.mpr
      ⟨by decide, RangeTree.Ordered.nil, by simp⟩
  · intro g hg
    cases List.mem_singleton.mp hg
    exact ⟨firstChunk, List.mem_singleton_self _, rfl, rfl,
      by decide⟩
  · rintro b n ⟨block, hReach⟩
    rcases crashStart_reachable hReach with
      ⟨rfl, ⟨rfl, _⟩ | ⟨rfl, _⟩⟩
    · decide
    · decide
  · rintro b n ⟨block, hReach⟩
    refine ⟨_, List.mem_singleton_self _, ?_⟩
    rcases crashStart_reachable hReach with
      ⟨rfl, ⟨rfl, _⟩ | ⟨rfl, _⟩⟩
    · decide
    · decide
  · rintro b n _ x _ _ ⟨s, hs, _⟩
    cases hs
  · intro b n block hReach
    rcases crashStart_reachable hReach with
      ⟨_, ⟨_, rfl⟩ | ⟨_, rfl⟩⟩
    · decide
    · decide
  · intro eb hEb
    cases hEb

/- A block is allocated and gets its item and its buffer. -/
def allocActions : List (Action (List (Nat × Nat))) :=
  [.reserve ⟨4096, 0, 0, 0, 0, 4⟩ [none],
    .insertExtent false 139264 0,
    .create 139264 1 false []]

/- It is freed again, up to `update_block_group`. -/
def freeActions : List (Action (List (Nat × Nat))) :=
  allocActions ++
    [.pinDown ⟨139264, EXTENT_ITEM_KEY, 4096⟩ 1 false,
      .delItems ⟨139264, EXTENT_ITEM_KEY, 4096⟩]

/- The phase, and whether the block is in the free space. -/
def freeAgain
    (s : State (List (Nat × Nat))) : Phase × Bool :=
  (s.phase, decide (Marked s.space.freeSpaceCache 139264))

/- The new block is written, the superblock is not. -/
def writeActions : List (Action (List (Nat × Nat))) :=
  allocActions ++ [.startWriting, .writeTreeBlock 139264 4096]

theorem writeActions_run :
    (run crashStart writeActions).isSome = true := by
  decide +kernel

theorem writeActions_phase :
    ((run crashStart writeActions).get
      writeActions_run).phase = .writing := by
  decide +kernel

end ExtentTree

end BtrfsProgs
