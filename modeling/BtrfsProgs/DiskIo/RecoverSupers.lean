import BtrfsProgs.Basic
import BtrfsProgs.DiskIo.Copies

/-
  Recovery of superblocks, from `super-recover.c`.

  A read that fails leaves the buffer as it was, which is then
  checked in place of the copy, and no good copy at all leaves
  the head of the list as the one to use.

  Main declarations:
    * `checkSuper`
    * `readDevSupers` and `readFsSupers`
    * `recoverSuperblocks`
    * `Classified` and `SuperRegular`
    * `readFsSupers_sound_iff`
-/

----------
-- Reading the Copies
----------

namespace BtrfsProgs

namespace SuperRecover

open Record DiskIo

/- `btrfs_csum_sizes`. -/
def btrfsCsumSizes : List Nat := [4, 0]

def superCsumType
    (sb : List UInt8) : Nat :=
  field sb 196 2

/-
  `check_super`: the checksum is put into as many bytes as its
  type has.
-/
def checkSuper
    (bytenr : Nat)
    (sb : List UInt8) : Except Stop Bool :=
  match btrfsCsumSizes[superCsumType sb]? with
  | none => .error .bug
  | some csum_size =>
      if superBytenr sb ≠ bytenr then .ok false
      else if superMagic sb ≠ BTRFS_MAGIC then .ok false
      else if csum_size < 4 then .error .bug
      else .ok (field sb 0 4 = sectorCsum sb)

/- `struct super_block_record`. -/
structure SuperRecord where
  device_name : List UInt8
  sb : List UInt8
  bytenr : Nat
deriving Repr, DecidableEq

/- The lists of `struct btrfs_recover_superblock`. -/
structure RecoverSuperblock where
  good_supers : List SuperRecord := []
  bad_supers : List SuperRecord := []
  max_generation : Nat := 0
deriving Repr, DecidableEq

/-
  A device: the error of its `open` and of the reads of its
  copies, 0 for none, and what the buffer holds at the start.
-/
structure RecoverDevice where
  name : List UInt8
  device : Device
  openErrno : Nat
  readErrno : Nat → Nat
  stale : List UInt8

/- What is done with a buffer that was checked. -/
def RecoverSuperblock.add
    (recover : RecoverSuperblock)
    (record : SuperRecord)
    (good : Bool) : RecoverSuperblock :=
  if good then
    let max_gen := superGeneration record.sb
    { recover with
      good_supers := recover.good_supers ++ [record]
      max_generation :=
        if max_gen > recover.max_generation then max_gen
        else recover.max_generation }
  else
    { recover with
      bad_supers := recover.bad_supers ++ [record] }

/-
  The loop of `read_dev_supers`. As `size_t` the -1 of a read
  that fails is not below the size of the buffer.
-/
def readDevSupers
    (dev : RecoverDevice)
    (mirrors : List Nat)
    (buf : List UInt8)
    (errno : Nat)
    (recover : RecoverSuperblock) :
    Except Stop (Int × RecoverSuperblock) :=
  match mirrors with
  | [] => .ok (0, recover)
  | i :: rest =>
      let bytenr := Volumes.sbOffset i
      let check (buf : List UInt8) (errno : Nat) :=
        match checkSuper bytenr buf with
        | .error stop => .error stop
        | .ok good =>
            readDevSupers dev rest buf errno
              (recover.add ⟨dev.name, buf, bytenr⟩ good)
      if dev.readErrno i ≠ 0 then check buf (dev.readErrno i)
      else
        match pread dev.device bytenr SECTOR with
        | none => .ok (-errno, recover)
        | some buf => check buf errno

/- The first loop of `read_fs_supers`. -/
def readDevices :
    List RecoverDevice → RecoverSuperblock →
      Except Stop (Int × RecoverSuperblock)
  | [], recover => .ok (0, recover)
  | dev :: rest, recover =>
      if dev.openErrno ≠ 0 then .ok (-dev.openErrno, recover)
      else
        match readDevSupers dev mirrors dev.stale 0 recover with
        | .error stop => .error stop
        | .ok (ret, recover) =>
            if ret ≠ 0 then .ok (ret, recover)
            else readDevices rest recover

def SuperRecord.generation
    (record : SuperRecord) : Nat :=
  superGeneration record.sb

/- Its second one. -/
def RecoverSuperblock.moveOld
    (recover : RecoverSuperblock) : RecoverSuperblock :=
  let old (record : SuperRecord) : Bool :=
    record.generation < recover.max_generation
  { recover with
    good_supers := recover.good_supers.filter (!old ·)
    bad_supers :=
      recover.bad_supers ++ recover.good_supers.filter old }

/- `read_fs_supers`. -/
def readFsSupers
    (devices : List RecoverDevice) :
    Except Stop (Int × RecoverSuperblock) :=
  match readDevices devices {} with
  | .error stop => .error stop
  | .ok (ret, recover) =>
      if ret ≠ 0 then .ok (ret, recover)
      else .ok (0, recover.moveOld)

/- What it comes to: nothing to do, or a record to use. -/
inductive Recovery where
  | noRecover (ret : Int)
  | uses (record : Option SuperRecord)
deriving Repr, DecidableEq

/-
  `btrfs_recover_superblocks` up to `open_ctree`, for the
  devices of a scan. The entry of an empty list is `none`.
-/
def recoverSuperblocks
    (devices : List RecoverDevice)
    (yes : Bool) : Except Stop Recovery :=
  match readFsSupers devices with
  | .error stop => .error stop
  | .ok (ret, recover) =>
      if ret ≠ 0 then .ok (.noRecover 1)
      else if recover.bad_supers = [] then
        .ok (.noRecover 0)
      else if yes = false then .ok (.noRecover 4)
      else .ok (.uses recover.good_supers.head?)

----------
-- The Copies
----------

def SuperRecord.passes
    (record : SuperRecord) : Bool :=
  match checkSuper record.bytenr record.sb with
  | .ok good => good
  | .error _ => false

/- The copies of a device that can be read. -/
def readableOf
    (dev : RecoverDevice)
    (mirrors : List Nat) : List SuperRecord :=
  mirrors.filterMap fun i =>
    if dev.readErrno i ≠ 0 then none
    else
      (pread dev.device (Volumes.sbOffset i) SECTOR).map
        fun sb => ⟨dev.name, sb, Volumes.sbOffset i⟩

def readable
    (devices : List RecoverDevice) : List SuperRecord :=
  devices.flatMap (readableOf · mirrors)

/- What the buffer holds after each read that fails. -/
def leftoverOf
    (dev : RecoverDevice) :
    List Nat → List UInt8 → List SuperRecord
  | [], _ => []
  | i :: rest, buf =>
      if dev.readErrno i ≠ 0 then
        ⟨dev.name, buf, Volumes.sbOffset i⟩ ::
          leftoverOf dev rest buf
      else
        match pread dev.device (Volumes.sbOffset i) SECTOR with
        | none => []
        | some buf => leftoverOf dev rest buf

def leftover
    (devices : List RecoverDevice) : List SuperRecord :=
  devices.flatMap fun dev => leftoverOf dev mirrors dev.stale

/- Of the highest generation among those that pass. -/
def Best
    (records : List SuperRecord)
    (record : SuperRecord) : Prop :=
  record.passes = true ∧
    ∀ other ∈ records, other.passes = true →
      other.generation ≤ record.generation

instance
    (records : List SuperRecord)
    (record : SuperRecord) : Decidable (Best records record) :=
  inferInstanceAs (Decidable (_ ∧ ∀ _ ∈ records, _))

/- A record of a copy whose read fails. -/
def Unreadable
    (devices : List RecoverDevice)
    (record : SuperRecord) : Prop :=
  ∃ dev ∈ devices, ∃ i ∈ mirrors, dev.readErrno i ≠ 0 ∧
    record.device_name = dev.name ∧
      record.bytenr = Volumes.sbOffset i

/-
  Every copy that can be read is on one of the lists, once, and
  the good ones are the best of them.
-/
def Classified
    (devices : List RecoverDevice)
    (recover : RecoverSuperblock) : Prop :=
  (recover.good_supers.Perm
    ((readable devices).filter
      (Best (readable devices) ·))) ∧
    ∃ others, (∀ record ∈ others, Unreadable devices record) ∧
      (recover.good_supers ++ recover.bad_supers).Perm
        (readable devices ++ others)

/- The record that is used is a good one. -/
def UsesGood
    (devices : List RecoverDevice)
    (yes : Bool)
    (recover : RecoverSuperblock) : Prop :=
  ∀ used, recoverSuperblocks devices yes = .ok (.uses used) →
    ∃ record ∈ recover.good_supers, used = some record

/-
  What a failed read leaves does not pass, or is older than a
  copy that passes; and where the supers are rewritten a copy
  passes.
-/
def SuperRegular
    (devices : List RecoverDevice)
    (yes : Bool) : Prop :=
  (∀ record ∈ leftover devices, record.passes = true →
    ∃ copy ∈ readable devices, copy.passes = true ∧
      record.generation < copy.generation) ∧
    (yes = true →
      (∃ copy ∈ readable devices, copy.passes = true) ∨
        readable devices ++ leftover devices = [])

----------
-- The Lists
----------

section Lists

variable {dev : RecoverDevice} {devices : List RecoverDevice}
variable {recover recover' : RecoverSuperblock}
variable {records : List SuperRecord} {record : SuperRecord}
variable {slots : List Nat} {buf : List UInt8} {errno : Nat}
variable {ret : Int}

/- The lists hold these records, apart by the check. -/
structure Lists
    (records : List SuperRecord)
    (recover : RecoverSuperblock) : Prop where
  good : recover.good_supers = records.filter (·.passes)
  bad : recover.bad_supers = records.filter (!·.passes)
  bound : ∀ record ∈ records, record.passes = true →
    record.generation ≤ recover.max_generation
  reached : recover.max_generation = 0 ∨
    ∃ record ∈ records, record.passes = true ∧
      record.generation = recover.max_generation

theorem add_good :
    recover.add record true =
      { recover with
        good_supers := recover.good_supers ++ [record]
        max_generation :=
          max recover.max_generation record.generation } := by
  have hMax : (if superGeneration record.sb >
      recover.max_generation then superGeneration record.sb
      else recover.max_generation) =
        max recover.max_generation record.generation := by
    show _ = max _ (superGeneration record.sb)
    by_cases hMore : superGeneration record.sb >
        recover.max_generation
    · rw [if_pos hMore]
      omega
    · rw [if_neg hMore]
      omega
  rw [← hMax]
  rfl

theorem add_bad :
    recover.add record false =
      { recover with
        bad_supers := recover.bad_supers ++ [record] } :=
  rfl

theorem Lists.add
    (hLists : Lists records recover) :
    Lists (records ++ [record])
      (recover.add record record.passes) := by
  cases hPass : record.passes with
  | false =>
      rw [add_bad]
      refine ⟨?_, ?_, ?_, ?_⟩
      · simpa [hPass] using hLists.good
      · simp [hPass, hLists.bad]
      · intro r hIn hR
        rcases List.mem_append.mp hIn with hOld | hNew
        · exact hLists.bound r hOld hR
        · rw [List.mem_singleton.mp hNew, hPass] at hR
          cases hR
      · rcases hLists.reached with hZero | ⟨r, hIn, hR⟩
        · exact .inl hZero
        · exact .inr ⟨r, List.mem_append_left _ hIn, hR⟩
  | true =>
      rw [add_good]
      refine ⟨?_, ?_, ?_, ?_⟩
      · simp [hPass, hLists.good]
      · simpa [hPass] using hLists.bad
      · intro r hIn hR
        rcases List.mem_append.mp hIn with hOld | hNew
        · exact (hLists.bound r hOld hR).trans
            (Nat.le_max_left _ _)
        · rw [List.mem_singleton.mp hNew]
          exact Nat.le_max_right _ _
      · dsimp only
        rcases Nat.le_total record.generation
          recover.max_generation with hLe | hLe
        · rw [Nat.max_eq_left hLe]
          rcases hLists.reached with hZero | ⟨r, hIn, hR⟩
          · exact .inl hZero
          · exact .inr ⟨r, List.mem_append_left _ hIn, hR⟩
        · rw [Nat.max_eq_right hLe]
          exact .inr ⟨record, by simp, hPass, rfl⟩

/- The good ones are the best of all records. -/
theorem Lists.moveOld
    (hLists : Lists records recover) :
    recover.moveOld.good_supers =
        records.filter (Best records ·) ∧
      (recover.moveOld.good_supers ++
        recover.moveOld.bad_supers).Perm records := by
  unfold RecoverSuperblock.moveOld
  dsimp only
  constructor
  · rw [hLists.good, List.filter_filter]
    apply List.filter_congr
    intro r hIn
    rw [Bool.eq_iff_iff, Bool.and_eq_true, Bool.not_eq_true',
      decide_eq_false_iff_not, decide_eq_true_iff, not_lt,
      and_comm]
    refine and_congr_right fun hPass => ?_
    constructor
    · intro hLe other hOther hOtherPass
      exact (hLists.bound other hOther hOtherPass).trans hLe
    · intro hAll
      rcases hLists.reached with hZero | ⟨m, hM, hPassM, hIs⟩
      · rw [hZero]
        exact Nat.zero_le _
      · rw [← hIs]
        exact hAll m hM hPassM
  · have hSplit := (List.filter_append_perm
      (fun r : SuperRecord =>
        !decide (r.generation < recover.max_generation))
      recover.good_supers)
    have hWhole := (List.filter_append_perm
      (fun r : SuperRecord => r.passes) records)
    simp only [Bool.not_not] at hSplit
    rw [← hLists.good, ← hLists.bad] at hWhole
    refine List.Perm.trans ?_ hWhole
    refine List.Perm.trans ?_
      (hSplit.append_right recover.bad_supers)
    rw [List.append_assoc]
    exact List.Perm.append_left _ List.perm_append_comm

/- The records of a device, of all buffers that are checked. -/
def recordsOf
    (dev : RecoverDevice) :
    List Nat → List UInt8 → List SuperRecord
  | [], _ => []
  | i :: rest, buf =>
      if dev.readErrno i ≠ 0 then
        ⟨dev.name, buf, Volumes.sbOffset i⟩ ::
          recordsOf dev rest buf
      else
        match pread dev.device (Volumes.sbOffset i) SECTOR with
        | none => []
        | some buf =>
            ⟨dev.name, buf, Volumes.sbOffset i⟩ ::
              recordsOf dev rest buf

theorem passes_of_check
    {good : Bool}
    (hCheck : checkSuper record.bytenr record.sb = .ok good) :
    record.passes = good := by
  unfold SuperRecord.passes
  rw [hCheck]

theorem readDevSupers_lists
    (hLists : Lists records recover)
    (hRun : readDevSupers dev slots buf errno recover =
      .ok (ret, recover')) :
    Lists (records ++ recordsOf dev slots buf) recover' := by
  induction slots generalizing buf errno recover records with
  | nil =>
      cases hRun
      rw [recordsOf, List.append_nil]
      exact hLists
  | cons i rest ih =>
      -- a buffer that is checked is a record
      have hNext : ∀ {b : List UInt8} {e : Nat},
          (match checkSuper (Volumes.sbOffset i) b with
          | .error stop => .error stop
          | .ok good =>
              readDevSupers dev rest b e (recover.add
                ⟨dev.name, b, Volumes.sbOffset i⟩ good)) =
            Except.ok (ret, recover') →
          Lists (records ++ ⟨dev.name, b, Volumes.sbOffset i⟩ ::
            recordsOf dev rest b) recover' := by
        intro b e hOn
        cases hCheck : checkSuper (Volumes.sbOffset i) b with
        | error stop =>
            rw [hCheck] at hOn
            cases hOn
        | ok good =>
            rw [hCheck] at hOn
            have hPass : SuperRecord.passes
                ⟨dev.name, b, Volumes.sbOffset i⟩ = good :=
              passes_of_check hCheck
            have hDone := ih (hPass ▸ hLists.add) hOn
            rw [List.append_assoc, List.singleton_append]
              at hDone
            exact hDone
      unfold readDevSupers at hRun
      unfold recordsOf
      dsimp only at hRun
      by_cases hFails : dev.readErrno i ≠ 0
      · rw [if_pos hFails] at hRun ⊢
        exact hNext hRun
      · rw [if_neg hFails] at hRun ⊢
        cases hRead : pread dev.device (Volumes.sbOffset i)
            SECTOR with
        | none =>
            rw [hRead] at hRun
            cases hRun
            rw [List.append_nil]
            exact hLists
        | some b =>
            rw [hRead] at hRun
            exact hNext hRun

def recordsOfAll
    (devices : List RecoverDevice) : List SuperRecord :=
  devices.flatMap fun dev => recordsOf dev mirrors dev.stale

theorem readDevices_lists
    (hLists : Lists records recover)
    (hRun : readDevices devices recover = .ok (0, recover')) :
    Lists (records ++ recordsOfAll devices) recover' := by
  induction devices generalizing recover records with
  | nil =>
      cases hRun
      rw [recordsOfAll, List.flatMap_nil, List.append_nil]
      exact hLists
  | cons dev rest ih =>
      unfold readDevices at hRun
      by_cases hOpen : dev.openErrno ≠ 0
      · rw [if_pos hOpen] at hRun
        have hRet := congrArg Prod.fst (Except.ok.inj hRun)
        dsimp only at hRet
        omega
      rw [if_neg hOpen] at hRun
      cases hDev : readDevSupers dev mirrors dev.stale 0
          recover with
      | error stop =>
          rw [hDev] at hRun
          cases hRun
      | ok result =>
          rcases result with ⟨ret, next⟩
          rw [hDev] at hRun
          dsimp only at hRun
          by_cases hRet : ret ≠ 0
          · rw [if_pos hRet] at hRun
            cases hRun
            exact absurd rfl hRet
          · rw [if_neg hRet] at hRun
            have hNext := ih (readDevSupers_lists hLists hDev)
              hRun
            rw [recordsOfAll, List.flatMap_cons,
              ← List.append_assoc]
            exact hNext

/- The records are the readable copies and what is left. -/
theorem recordsOf_perm
    (hSorted : slots.Pairwise (· < ·))
    (hSlots : ∀ i ∈ slots, i < Volumes.SUPER_MIRROR_MAX) :
    (recordsOf dev slots buf).Perm
      (readableOf dev slots ++ leftoverOf dev slots buf) := by
  induction slots generalizing buf with
  | nil => exact .nil
  | cons i rest ih =>
      have hCons := List.pairwise_cons.mp hSorted
      have hRest : ∀ j ∈ rest, j < Volumes.SUPER_MIRROR_MAX :=
        fun j hIn => hSlots j (List.mem_cons_of_mem i hIn)
      unfold recordsOf leftoverOf readableOf
      rw [List.filterMap_cons]
      by_cases hFails : dev.readErrno i ≠ 0
      · rw [if_pos hFails, if_pos hFails, if_pos hFails]
        exact ((ih hCons.2 hRest).cons _).trans
          List.perm_middle.symm
      rw [if_neg hFails, if_neg hFails, if_neg hFails]
      cases hRead : pread dev.device (Volumes.sbOffset i)
          SECTOR with
      | some b => exact (ih hCons.2 hRest).cons _
      | none =>
          -- behind the end of the device nothing is read
          have hNone : readableOf dev rest = [] := by
            unfold readableOf
            rw [List.filterMap_eq_nil_iff]
            intro j hIn
            have hApart := sbOffset_apart i
              (hSlots i List.mem_cons_self) j
              (hRest j hIn) (hCons.1 j hIn)
            unfold pread at hRead ⊢
            by_cases hFits : Volumes.sbOffset i + SECTOR ≤
                dev.device.size
            · rw [if_pos hFits] at hRead
              cases hRead
            · rw [if_neg (show ¬Volumes.sbOffset j + SECTOR ≤
                dev.device.size by omega), Option.map_none,
                ite_self]
          unfold readableOf at hNone
          rw [Option.map_none, hNone]
          exact .nil

theorem recordsOfAll_perm
    (devices : List RecoverDevice) :
    (recordsOfAll devices).Perm
      (readable devices ++ leftover devices) := by
  induction devices with
  | nil => exact .nil
  | cons dev rest ih =>
      have hDev : (recordsOf dev mirrors dev.stale).Perm
          (readableOf dev mirrors ++
            leftoverOf dev mirrors dev.stale) :=
        recordsOf_perm mirrors_sorted fun i hIn =>
          mem_mirrors.mp hIn
      unfold recordsOfAll readable leftover at ih ⊢
      rw [List.flatMap_cons, List.flatMap_cons,
        List.flatMap_cons]
      refine (hDev.append ih).trans ?_
      rw [List.append_assoc, List.append_assoc]
      refine List.Perm.append_left _ ?_
      rw [← List.append_assoc, ← List.append_assoc]
      exact List.Perm.append_right _ List.perm_append_comm

theorem unreadable_leftoverOf
    (hIn : record ∈ leftoverOf dev slots buf) :
    ∃ i ∈ slots, dev.readErrno i ≠ 0 ∧
      record.device_name = dev.name ∧
        record.bytenr = Volumes.sbOffset i := by
  induction slots generalizing buf with
  | nil => cases hIn
  | cons i rest ih =>
      unfold leftoverOf at hIn
      by_cases hFails : dev.readErrno i ≠ 0
      · rw [if_pos hFails] at hIn
        rcases List.mem_cons.mp hIn with rfl | hRest
        · exact ⟨i, List.mem_cons_self, hFails, rfl, rfl⟩
        · rcases ih hRest with ⟨j, hJ, hIs⟩
          exact ⟨j, List.mem_cons_of_mem i hJ, hIs⟩
      rw [if_neg hFails] at hIn
      cases hRead : pread dev.device (Volumes.sbOffset i)
          SECTOR with
      | none =>
          rw [hRead] at hIn
          cases hIn
      | some b =>
          rw [hRead] at hIn
          rcases ih hIn with ⟨j, hJ, hIs⟩
          exact ⟨j, List.mem_cons_of_mem i hJ, hIs⟩

theorem unreadable_leftover
    (hIn : record ∈ leftover devices) :
    Unreadable devices record := by
  rcases List.mem_flatMap.mp hIn with ⟨dev, hDev, hLeft⟩
  exact ⟨dev, hDev, unreadable_leftoverOf hLeft⟩

----------
-- The Best of Them
----------

variable {copies others : List SuperRecord}

/- What is left is older than what passes. -/
def Older
    (copies others : List SuperRecord) : Prop :=
  ∀ record ∈ others, record.passes = true →
    ∃ copy ∈ copies, copy.passes = true ∧
      record.generation < copy.generation

/- One of the records that pass is the best one. -/
theorem exists_best
    (hIn : record ∈ records)
    (hPass : record.passes = true) :
    ∃ best ∈ records, Best records best ∧
      record.generation ≤ best.generation := by
  have hSome : ((records.filter (·.passes)).toFinset).Nonempty :=
    ⟨record, List.mem_toFinset.mpr
      (List.mem_filter.mpr ⟨hIn, hPass⟩)⟩
  rcases Finset.exists_max_image _ SuperRecord.generation hSome
    with ⟨best, hBest, hMax⟩
  rw [List.mem_toFinset, List.mem_filter] at hBest
  have hAll : ∀ other ∈ records, other.passes = true →
      other.generation ≤ best.generation :=
    fun other hOther hPasses => hMax other
      (List.mem_toFinset.mpr
        (List.mem_filter.mpr ⟨hOther, hPasses⟩))
  exact ⟨best, hBest.1, ⟨hBest.2, hAll⟩,
    hAll record hIn hPass⟩

theorem best_congr
    (hPerm : records.Perm (copies ++ others)) :
    Best records record ↔ Best (copies ++ others) record := by
  unfold Best
  refine and_congr_right fun _ => ?_
  simp only [hPerm.mem_iff]

/- The best of all are the best copies if the rest is older. -/
theorem filter_best_iff
    (hPerm : records.Perm (copies ++ others)) :
    (records.filter (Best records ·)).Perm
        (copies.filter (Best copies ·)) ↔
      Older copies others := by
  have hAll : (records.filter (Best records ·)).Perm
      (copies.filter (Best (copies ++ others) ·) ++
        others.filter (Best (copies ++ others) ·)) := by
    rw [← List.filter_append]
    refine List.Perm.trans ?_ (hPerm.filter _)
    apply List.Perm.of_eq
    apply List.filter_congr
    intro r _
    exact decide_eq_decide.mpr (best_congr hPerm)
  constructor
  · intro hSame record hIn hPass
    by_contra hNot
    -- then a record of the rest is among the best of all
    have hRest : ∃ r ∈ others, Best (copies ++ others) r := by
      rcases exists_best (List.mem_append_right copies hIn)
        hPass with ⟨best, hBest, hIs, hLe⟩
      rcases List.mem_append.mp hBest with hCopy | hOther
      · refine ⟨record, hIn, hPass, fun other hO hP => ?_⟩
        refine (hIs.2 other hO hP).trans ?_
        by_contra hLess
        exact hNot ⟨best, hCopy, hIs.1, not_le.mp hLess⟩
      · exact ⟨best, hOther, hIs⟩
    rcases hRest with ⟨r, hR, hBest⟩
    have hMem : r ∈ others.filter
        (Best (copies ++ others) ·) :=
      List.mem_filter.mpr ⟨hR, decide_eq_true hBest⟩
    have hCopies := hAll.symm.trans hSame
    have hThere := hCopies.mem_iff.mp
      (List.mem_append_right _ hMem)
    have hCopy := List.mem_filter.mp hThere
    have hFilter : copies.filter (Best copies ·) =
        copies.filter (Best (copies ++ others) ·) := by
      apply List.filter_congr
      intro c hC
      refine decide_eq_decide.mpr ⟨fun hIs => ⟨hIs.1, ?_⟩,
        fun hIs => ⟨hIs.1, fun o hO =>
          hIs.2 o (List.mem_append_left _ hO)⟩⟩
      intro o hO hP
      exact (hBest.2 o hO hP).trans
        (hIs.2 r hCopy.1 hBest.1)
    rw [hFilter] at hCopies
    have hLength := hCopies.length_eq
    rw [List.length_append] at hLength
    have hSome := List.length_pos_of_mem hMem
    omega
  · intro hOlder
    have hNone : others.filter (Best (copies ++ others) ·) =
        [] := by
      rw [List.filter_eq_nil_iff]
      intro r hR hIs
      have hBest := of_decide_eq_true hIs
      rcases hOlder r hR hBest.1 with ⟨c, hC, hPass, hLess⟩
      have hLe := hBest.2 c (List.mem_append_left _ hC) hPass
      omega
    rw [hNone, List.append_nil] at hAll
    refine hAll.trans (.of_eq ?_)
    apply List.filter_congr
    intro c hC
    refine decide_eq_decide.mpr ⟨fun hIs => ⟨hIs.1, fun o hO =>
      hIs.2 o (List.mem_append_left _ hO)⟩,
      fun hIs => ⟨hIs.1, ?_⟩⟩
    intro o hO hP
    rcases List.mem_append.mp hO with hCopy | hOther
    · exact hIs.2 o hCopy hP
    · rcases hOlder o hOther hP with ⟨d, hD, hPass, hLess⟩
      exact hLess.le.trans (hIs.2 d hD hPass)

/- What `read_fs_supers` leaves on its lists. -/
theorem readFsSupers_lists
    (hRun : readFsSupers devices = .ok (0, recover)) :
    recover.good_supers =
        (recordsOfAll devices).filter
          (Best (recordsOfAll devices) ·) ∧
      (recover.good_supers ++ recover.bad_supers).Perm
        (recordsOfAll devices) := by
  unfold readFsSupers at hRun
  cases hDevices : readDevices devices {} with
  | error stop =>
      rw [hDevices] at hRun
      cases hRun
  | ok result =>
      rcases result with ⟨ret, lists⟩
      rw [hDevices] at hRun
      dsimp only at hRun
      by_cases hRet : ret ≠ 0
      · rw [if_pos hRet] at hRun
        cases hRun
        exact absurd rfl hRet
      rw [if_neg hRet] at hRun
      rw [not_not] at hRet
      rw [hRet] at hDevices
      cases hRun
      have hStart : Lists [] {} :=
        ⟨rfl, rfl, by simp, .inl rfl⟩
      exact (readDevices_lists hStart hDevices).moveOld

theorem classified_iff
    (hRun : readFsSupers devices = .ok (0, recover)) :
    Classified devices recover ↔
      Older (readable devices) (leftover devices) := by
  rcases readFsSupers_lists hRun with ⟨hGood, hAll⟩
  have hPerm := recordsOfAll_perm devices
  unfold Classified
  rw [hGood, filter_best_iff hPerm]
  refine ⟨And.left, fun hOlder => ⟨hOlder, leftover devices,
    fun _ => unreadable_leftover, ?_⟩⟩
  rw [← hGood]
  exact hAll.trans hPerm

/- The head of the list is used where no record is good. -/
theorem usesGood_iff
    (hRun : readFsSupers devices = .ok (0, recover))
    (yes : Bool) :
    UsesGood devices yes recover ↔
      (yes = true → recover.good_supers ≠ [] ∨
        recover.bad_supers = []) := by
  unfold UsesGood recoverSuperblocks
  rw [hRun]
  dsimp only
  rw [if_neg (by simp)]
  by_cases hBad : recover.bad_supers = []
  · rw [if_pos hBad]
    refine iff_of_true (fun used hUses => ?_)
      fun _ => .inr hBad
    cases hUses
  rw [if_neg hBad]
  cases yes with
  | false =>
      rw [if_pos rfl]
      refine iff_of_true (fun used hUses => ?_)
        fun hYes => absurd hYes (by simp)
      cases hUses
  | true =>
      rw [if_neg (by simp)]
      cases hGood : recover.good_supers with
      | nil =>
          refine iff_of_false (fun hAll => ?_) (by simp [hBad])
          rcases hAll none rfl with ⟨_, hIn, _⟩
          cases hIn
      | cons first rest =>
          refine iff_of_true (fun used hUses => ?_) (by simp)
          cases hUses
          exact ⟨first, List.mem_cons_self, rfl⟩

end Lists

/-
  The lists are right and a good record is used exactly where
  what failed reads leave is older, and a copy passes.
-/
theorem readFsSupers_sound_iff
    {devices : List RecoverDevice}
    {recover : RecoverSuperblock}
    (hRun : readFsSupers devices = .ok (0, recover))
    (yes : Bool) :
    Classified devices recover ∧
        UsesGood devices yes recover ↔
      SuperRegular devices yes := by
  rw [classified_iff hRun, usesGood_iff hRun]
  refine and_congr_right fun hOlder => ?_
  refine imp_congr_right fun _ => ?_
  rcases readFsSupers_lists hRun with ⟨hGood, hAll⟩
  have hPerm := recordsOfAll_perm devices
  have hSame := (filter_best_iff hPerm).mpr hOlder
  rw [← hGood] at hSame
  have hSome : recover.good_supers ≠ [] ↔
      ∃ copy ∈ readable devices, copy.passes = true := by
    constructor
    · intro hNot
      rcases List.exists_mem_of_ne_nil _ hNot with ⟨c, hC⟩
      have hBest := List.mem_filter.mp (hSame.mem_iff.mp hC)
      exact ⟨c, hBest.1, (of_decide_eq_true hBest.2).1⟩
    · rintro ⟨c, hC, hPass⟩
      rcases exists_best hC hPass with ⟨best, hIn, hBest, _⟩
      exact List.ne_nil_of_mem (hSame.mem_iff.mpr
        (List.mem_filter.mpr ⟨hIn, decide_eq_true hBest⟩))
  rw [hSome]
  refine or_congr_right' fun hNone => ?_
  have hNil : recover.good_supers = [] := by
    by_contra hNot
    exact hNone (hSome.mp hNot)
  rw [hNil, List.nil_append] at hAll
  constructor
  · intro hBad
    rw [hBad] at hAll
    exact (hAll.trans hPerm).nil_eq.symm
  · intro hEmpty
    rw [hEmpty] at hPerm
    exact (hAll.trans hPerm).eq_nil

----------
-- A Device with a Damaged Copy
----------

/- A superblock of generation 1. -/
def wholeSuper : List UInt8 :=
  setField (setField (setField (List.replicate SECTOR 0)
    64 8 BTRFS_MAGIC) 72 8 1) 48 8 (Volumes.sbOffset 0)

/- The checksum is one too many. -/
def damagedSuper : List UInt8 :=
  setField wholeSuper 0 4 ((sectorCsum wholeSuper + 1) % 256 ^ 4)

/- A device with room for that copy only. -/
def damaged : RecoverDevice where
  name := ascii "/dev/sdb"
  device := pwrite ⟨Volumes.SUPER_INFO_OFFSET + SECTOR,
    fun _ => 0⟩ (Volumes.sbOffset 0) damagedSuper
  openErrno := 0
  readErrno _ := 0
  stale := []

def damagedRecord : SuperRecord :=
  ⟨ascii "/dev/sdb", damagedSuper, Volumes.sbOffset 0⟩

theorem length_wholeSuper :
    wholeSuper.length = SECTOR :=
  length_setField_eq (length_setField_eq (length_setField_eq
    List.length_replicate (by decide)) (by decide)) (by decide)

theorem length_damagedSuper :
    damagedSuper.length = SECTOR :=
  length_setField_eq length_wholeSuper (by decide)

theorem superCsumType_damagedSuper :
    superCsumType damagedSuper = 0 :=
  rfl

theorem csum_damagedSuper :
    field damagedSuper 0 4 ≠ sectorCsum damagedSuper := by
  have hSize : SECTOR = 4096 := rfl
  have hWhole := length_wholeSuper
  have hDamaged := length_damagedSuper
  have hField : field damagedSuper 0 4 =
      (sectorCsum wholeSuper + 1) % 256 ^ 4 :=
    field_setField_same (by omega)
      (Nat.mod_lt _ (by decide))
  have hDrop : damagedSuper.drop 32 = wholeSuper.drop 32 := by
    have hRun : (damagedSuper.drop 32).take SECTOR =
        (wholeSuper.drop 32).take SECTOR :=
      run_setField _ (by omega) (.inr (by omega))
    rwa [List.take_of_length_le, List.take_of_length_le]
      at hRun
    · rw [List.length_drop]
      omega
    · rw [List.length_drop]
      omega
  have hLess : sectorCsum wholeSuper < 2 ^ 32 :=
    (~~~ crc32c (-1) (wholeSuper.drop 32)).isLt
  have hSame : sectorCsum damagedSuper =
      sectorCsum wholeSuper := by
    unfold sectorCsum
    rw [hDrop]
  rw [hField, hSame]
  omega

theorem checkSuper_damaged :
    checkSuper (Volumes.sbOffset 0) damagedSuper =
      .ok false := by
  unfold checkSuper
  rw [superCsumType_damagedSuper]
  show (if superBytenr damagedSuper ≠ Volumes.sbOffset 0
    then _ else _) = _
  by_cases hPlace : superBytenr damagedSuper ≠
      Volumes.sbOffset 0
  · rw [if_pos hPlace]
  rw [if_neg hPlace]
  by_cases hMagic : superMagic damagedSuper ≠ BTRFS_MAGIC
  · rw [if_pos hMagic]
  rw [if_neg hMagic, if_neg (by decide),
    decide_eq_false csum_damagedSuper]

theorem pread_damaged :
    pread damaged.device (Volumes.sbOffset 0) SECTOR =
        some damagedSuper ∧
      pread damaged.device (Volumes.sbOffset 1) SECTOR =
        none := by
  constructor
  · unfold pread
    have hFits : Volumes.sbOffset 0 + SECTOR ≤
        damaged.device.size := by
      show _ ≤ Volumes.SUPER_INFO_OFFSET + SECTOR
      decide
    rw [if_pos hFits]
    have hLoad : ByteArea.load damaged.device.bytes
        (Volumes.sbOffset 0) SECTOR =
          damagedSuper.take SECTOR :=
      load_pwrite_same length_damagedSuper (le_refl _)
    rw [hLoad, List.take_of_length_le length_damagedSuper.le]
  · exact if_neg (show ¬Volumes.sbOffset 1 + SECTOR ≤
      Volumes.SUPER_INFO_OFFSET + SECTOR by decide)

theorem readFsSupers_damaged :
    readFsSupers [damaged] =
      .ok (0, { bad_supers := [damagedRecord] }) := by
  have hOpens : ¬damaged.openErrno ≠ 0 := not_not.mpr rfl
  have hReads : ∀ i, ¬damaged.readErrno i ≠ 0 :=
    fun _ => not_not.mpr rfl
  have hMirrors : mirrors = [0, 1, 2] := rfl
  have hDev : readDevSupers damaged mirrors damaged.stale 0 {} =
      .ok (0, { bad_supers := [damagedRecord] }) := by
    rw [hMirrors, readDevSupers]
    dsimp only
    rw [if_neg (hReads 0), pread_damaged.1]
    dsimp only
    rw [checkSuper_damaged]
    dsimp only
    rw [readDevSupers]
    dsimp only
    rw [if_neg (hReads 1), pread_damaged.2]
    rfl
  unfold readFsSupers readDevices
  rw [if_neg hOpens, hDev]
  rfl

/- With the bad copy left as it is the lists are right. -/
theorem readFsSupers_sound_damaged :
    Classified [damaged] { bad_supers := [damagedRecord] } ∧
      UsesGood [damaged] false
        { bad_supers := [damagedRecord] } := by
  refine (readFsSupers_sound_iff readFsSupers_damaged
    false).mpr ⟨?_, fun hYes => absurd hYes (by decide)⟩
  intro record hIn
  rcases unreadable_leftover hIn with ⟨dev, hDev, i, _, hFails, _⟩
  rw [List.mem_singleton.mp hDev] at hFails
  exact absurd rfl hFails

/- The head of the empty list is used as a record. -/
theorem damaged_uses_head :
    recoverSuperblocks [damaged] true = .ok (.uses none) ∧
      ¬UsesGood [damaged] true
        { bad_supers := [damagedRecord] } := by
  have hUses : recoverSuperblocks [damaged] true =
      .ok (.uses none) := by
    unfold recoverSuperblocks
    rw [readFsSupers_damaged]
    rfl
  refine ⟨hUses, fun hGood => ?_⟩
  rcases hGood none hUses with ⟨_, hIn, _⟩
  cases hIn

end SuperRecover

end BtrfsProgs
