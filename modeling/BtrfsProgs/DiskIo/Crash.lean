import BtrfsProgs.DiskIo.Copies

/-
  What is read after the superblock was written, in part or
  as a whole.

  Main declarations:
    * `returnsBest_iff`
    * `Update` and `Torn`
    * `readDevSuper_crash_safe_iff`
-/

----------
-- What Is Returned for Any Contents
----------

namespace BtrfsProgs

namespace DiskIo

open Record ByteArea FirstBest

/- The sector of a copy has its checksum. -/
def CsumRight
    (d : Device)
    (i : Nat) : Prop :=
  Fits d i ∧
    field (load d.bytes (Volumes.sbOffset i) SECTOR) 0 4 =
      sectorCsum (load d.bytes (Volumes.sbOffset i) SECTOR)

/-
  What is returned is a copy with its own place, the magic and
  its checksum, and none of the same file system that has them
  is of a higher generation.
-/
def ReturnsBest
    (d : Device) : Prop :=
  ∀ sb, readDevSuper d Volumes.SUPER_INFO_OFFSET = some sb →
    ∃ i < Volumes.SUPER_MIRROR_MAX,
      copyAt d i = some sb ∧ LooksRight i sb ∧
      CsumRight d i ∧
      ∀ j < Volumes.SUPER_MIRROR_MAX, ∀ b,
        copyAt d j = some b → LooksRight j b →
        CsumRight d j → superFsid b = superFsid sb →
        superGeneration b ≤ superGeneration sb

/-
  The first of the copies of the highest generation, among
  those with place and magic and the fsid of the first of
  them.
-/
structure FirstHighest
    (d : Device)
    (i : Nat)
    (buf : List UInt8) : Prop where
  slot : i < Volumes.SUPER_MIRROR_MAX
  kept : ¬ Removed d
  copy : copyAt d i = some buf
  place : superBytenr buf = Volumes.sbOffset i
  generation : 0 < superGeneration buf
  first :
    ∃ before behind,
      candidates d mirrors none = before ++ buf :: behind ∧
      (∀ b ∈ before,
        superGeneration b < superGeneration buf) ∧
      ∀ b ∈ behind, superGeneration b ≤ superGeneration buf

theorem mem_candidates
    {d : Device}
    {buf : List UInt8}
    (hBuf : buf ∈ candidates d mirrors none)
    {b : List UInt8} :
    b ∈ candidates d mirrors none ↔
      ∃ i ∈ mirrors, copyAt d i = some b ∧ LooksRight i b ∧
        superFsid b = superFsid buf :=
  mem_candidates_none mirrors_sorted
    (fun _ hi => mem_mirrors.mp hi) hBuf

theorem firstHighest_iff
    (d : Device)
    (buf : List UInt8) :
    (∃ i, FirstHighest d i buf) ↔
      readDevSuper d Volumes.SUPER_INFO_OFFSET =
        some buf := by
  constructor
  · rintro ⟨i, hFirst⟩
    rcases hFirst.first with
      ⟨before, behind, hSplit, hBefore, hBehind⟩
    rw [readDevSuper_eq_bestOf hFirst.kept,
      bestOf_eq_some_iff]
    exact ⟨before, behind, hSplit, hFirst.generation,
      hBefore, hBehind⟩
  · intro hRead
    by_cases hKept : Removed d
    · rw [readDevSuper_removed hKept] at hRead
      cases hRead
    · rw [readDevSuper_eq_bestOf hKept,
        bestOf_eq_some_iff] at hRead
      rcases hRead with
        ⟨before, behind, hSplit, hPos, hBefore, hBehind⟩
      have hIn : buf ∈ candidates d mirrors none := by
        rw [hSplit]
        exact List.mem_append_right _ List.mem_cons_self
      rcases (mem_candidates hIn).mp hIn with
        ⟨i, hi, hCopy, hRight, _⟩
      exact ⟨i, mem_mirrors.mp hi, hKept, hCopy, hRight.1,
        hPos, before, behind, hSplit, hBefore, hBehind⟩

theorem returnsBest_iff
    (d : Device) :
    ReturnsBest d ↔
      ∀ i buf, FirstHighest d i buf → CsumRight d i := by
  constructor
  · intro hBest i buf hFirst
    rcases hBest buf ((firstHighest_iff d buf).mp
      ⟨i, hFirst⟩) with ⟨j, hj, _, hRight, hCsum, _⟩
    have hSame : j = i := by
      apply sbOffset_injective hj hFirst.slot
      rw [← hRight.1, hFirst.place]
    rw [← hSame]
    exact hCsum
  · intro hCsum sb hRead
    rcases (firstHighest_iff d sb).mpr hRead with ⟨i, hFirst⟩
    rcases hFirst.first with
      ⟨before, behind, hSplit, hBefore, hBehind⟩
    have hIn : sb ∈ candidates d mirrors none := by
      rw [hSplit]
      exact List.mem_append_right _ List.mem_cons_self
    have hRight : LooksRight i sb := by
      rcases (mem_candidates hIn).mp hIn with
        ⟨j, _, _, hLooks, _⟩
      exact ⟨hFirst.place, hLooks.2⟩
    refine ⟨i, hFirst.slot, hFirst.copy, hRight,
      hCsum i sb hFirst, ?_⟩
    intro j hj b hb hLooks _ hFsid
    have hOther : b ∈ candidates d mirrors none :=
      (mem_candidates hIn).mpr
        ⟨j, mem_mirrors.mpr hj, hb, hLooks, hFsid⟩
    rw [hSplit, List.mem_append, List.mem_cons] at hOther
    rcases hOther with hb | rfl | hb
    · exact Nat.le_of_lt (hBefore b hb)
    · exact Nat.le_refl _
    · exact hBehind b hb

----------
-- Crashes
----------

/- The copy of a superblock, as it is read. -/
def copyOf
    (sb : List UInt8)
    (i : Nat) : List UInt8 :=
  (stamp (Volumes.sbOffset i) sb).take SUPER_SIZE

/-
  A device all of whose copies are those of `old`, and the
  superblock of the same file system that is written to it.
-/
structure Update
    (d : Device)
    (old new : List UInt8) : Prop where
  length_old : old.length = SECTOR
  length_new : new.length = SECTOR
  magic_old : superMagic old = BTRFS_MAGIC
  magic_new : superMagic new = BTRFS_MAGIC
  fsid : superFsid new = superFsid old
  generation_old : 0 < superGeneration old
  generation_new : 0 < superGeneration new
  present : (copyAt d 0).isSome
  copies :
    ∀ i < Volumes.SUPER_MIRROR_MAX, ∀ buf,
      copyAt d i = some buf → buf = copyOf old i

/- A mixture of the bytes of the old and the new copy. -/
structure Torn
    (k : Nat)
    (old new torn : List UInt8) : Prop where
  length : torn.length = SECTOR
  mixed :
    ∀ j : Nat,
      torn[j]? = (stamp (Volumes.sbOffset k) old)[j]? ∨
      torn[j]? = (stamp (Volumes.sbOffset k) new)[j]?

/- The complete old or the complete new superblock is read. -/
def Recovers
    (old new : List UInt8)
    (d : Device) : Prop :=
  ∃ sb, readDevSuper d Volumes.SUPER_INFO_OFFSET = some sb ∧
    ∃ i < Volumes.SUPER_MIRROR_MAX,
      sb = copyOf old i ∨ sb = copyOf new i

/-
  The copy that is being written is not of use: nothing is
  written, it is as a whole old or new, it comes behind a new
  one and is not of a higher generation, or an old one behind
  it is.
-/
def Harmless
    (d : Device)
    (old new : List UInt8)
    (k : Nat)
    (torn : List UInt8) : Prop :=
  ¬ (k < Volumes.SUPER_MIRROR_MAX ∧ Fits d k) ∨
    torn.take SUPER_SIZE = copyOf old k ∨
    torn.take SUPER_SIZE = copyOf new k ∨
    (0 < k ∧ superGeneration torn ≤ superGeneration new) ∨
    (k + 1 < Volumes.SUPER_MIRROR_MAX ∧
      (copyAt d (k + 1)).isSome ∧
      superGeneration torn < superGeneration old)

theorem run_take
    (bytes : List UInt8)
    {q n m : Nat}
    (hFits : q + n ≤ m) :
    ((bytes.take m).drop q).take n = (bytes.drop q).take n := by
  rw [List.drop_take, List.take_take,
    Nat.min_eq_left (by omega)]

theorem superGeneration_take
    (bytes : List UInt8) :
    superGeneration (bytes.take SUPER_SIZE) =
      superGeneration bytes := by
  unfold superGeneration field
  rw [run_take _ (by decide)]

section CopyOf

variable {sb : List UInt8} (hSector : sb.length = SECTOR)
variable {i : Nat} (hi : i < Volumes.SUPER_MIRROR_MAX)

include hSector

theorem run_copyOf
    {q n : Nat}
    (hLow : 4 ≤ q)
    (hBeside : q + n ≤ 48 ∨ 56 ≤ q)
    (hHigh : q + n ≤ SUPER_SIZE) :
    ((copyOf sb i).drop q).take n = (sb.drop q).take n := by
  unfold copyOf
  rw [run_take _ hHigh, run_stamp hSector _ hLow hBeside]

theorem superFsid_copyOf :
    superFsid (copyOf sb i) = superFsid sb :=
  run_copyOf hSector (by decide) (by decide) (by decide)

theorem superMagic_copyOf :
    superMagic (copyOf sb i) = superMagic sb := by
  unfold superMagic field
  rw [run_copyOf hSector (by decide) (by decide) (by decide)]

theorem superGeneration_copyOf :
    superGeneration (copyOf sb i) = superGeneration sb := by
  unfold superGeneration field
  rw [run_copyOf hSector (by decide) (by decide) (by decide)]

include hi

theorem superBytenr_copyOf :
    superBytenr (copyOf sb i) = Volumes.sbOffset i := by
  have hBytenr := superBytenr_stamp hSector (sbOffset_lt i hi)
  unfold superBytenr field at hBytenr ⊢
  unfold copyOf
  rw [run_take _ (by decide)]
  exact hBytenr

end CopyOf

/- Where old and new bytes agree, a mixture has them. -/
theorem Torn.run
    {k : Nat}
    {old new torn : List UInt8}
    (hTorn : Torn k old new torn)
    {q n : Nat}
    (hSame :
      ((stamp (Volumes.sbOffset k) old).drop q).take n =
        ((stamp (Volumes.sbOffset k) new).drop q).take n) :
    (torn.drop q).take n =
      ((stamp (Volumes.sbOffset k) old).drop q).take n := by
  apply List.ext_getElem?
  intro j
  have hAt := congrArg (fun l : List UInt8 => l[j]?) hSame
  rw [List.getElem?_take, List.getElem?_take] at hAt
  rw [List.getElem?_take, List.getElem?_take]
  split
  · rename_i hj
    rw [if_pos hj, if_pos hj, List.getElem?_drop,
      List.getElem?_drop] at hAt
    rw [List.getElem?_drop, List.getElem?_drop]
    rcases hTorn.mixed (q + j) with hOld | hNew
    · exact hOld
    · rw [hNew, hAt]
  · rfl

section Crash

variable {d : Device} {old new torn : List UInt8} {k : Nat}
variable (hUpdate : Update d old new)
variable (hTorn : Torn k old new torn)

include hUpdate

/- Two numbers of one width have the same bytes. -/
theorem Update.magic_run :
    (old.drop 64).take 8 = (new.drop 64).take 8 := by
  have hOld := hUpdate.magic_old
  have hNew := hUpdate.magic_new
  have hLength := hUpdate.length_old
  have hLength' := hUpdate.length_new
  have hSize : SECTOR = 4096 := rfl
  unfold superMagic field at hOld hNew
  have hEncode := LittleEndian.encode_decode
    ((old.drop 64).take 8)
  have hEncode' := LittleEndian.encode_decode
    ((new.drop 64).take 8)
  rw [hOld, List.length_take, List.length_drop,
    Nat.min_eq_left (by omega)] at hEncode
  rw [hNew, List.length_take, List.length_drop,
    Nat.min_eq_left (by omega)] at hEncode'
  rw [← hEncode, ← hEncode']

include hTorn

theorem torn_fsid :
    superFsid (torn.take SUPER_SIZE) = superFsid old := by
  have hOld := run_stamp hUpdate.length_old
    (Volumes.sbOffset k) (show 4 ≤ 32 by decide)
    (show 32 + 16 ≤ 48 ∨ 56 ≤ 32 by decide)
  have hNew := run_stamp hUpdate.length_new
    (Volumes.sbOffset k) (show 4 ≤ 32 by decide)
    (show 32 + 16 ≤ 48 ∨ 56 ≤ 32 by decide)
  have hFsid := hUpdate.fsid
  unfold superFsid at hFsid ⊢
  rw [run_take _ (by decide), hTorn.run, hOld]
  rw [hOld, hNew, hFsid]

theorem torn_looksRight
    (hk : k < Volumes.SUPER_MIRROR_MAX) :
    LooksRight k (torn.take SUPER_SIZE) := by
  have hBytenr := superBytenr_stamp hUpdate.length_old
    (sbOffset_lt k hk)
  have hBytenr' := superBytenr_stamp hUpdate.length_new
    (sbOffset_lt k hk)
  have hOld := run_stamp hUpdate.length_old
    (Volumes.sbOffset k) (show 4 ≤ 64 by decide)
    (show 64 + 8 ≤ 48 ∨ 56 ≤ 64 by decide)
  have hNew := run_stamp hUpdate.length_new
    (Volumes.sbOffset k) (show 4 ≤ 64 by decide)
    (show 64 + 8 ≤ 48 ∨ 56 ≤ 64 by decide)
  have hMagic := hUpdate.magic_old
  refine ⟨?_, ?_⟩
  · unfold superBytenr field at hBytenr hBytenr' ⊢
    rw [run_take _ (by decide), hTorn.run, hBytenr]
    have hLengths : (((stamp (Volumes.sbOffset k)
        old).drop 48).take 8).length =
          (((stamp (Volumes.sbOffset k)
            new).drop 48).take 8).length := by
      simp only [List.length_take, List.length_drop,
        length_stamp hUpdate.length_old,
        length_stamp hUpdate.length_new]
    rw [← LittleEndian.encode_decode
        (((stamp (Volumes.sbOffset k) old).drop 48).take 8),
      ← LittleEndian.encode_decode
        (((stamp (Volumes.sbOffset k) new).drop 48).take 8),
      hBytenr, hBytenr', hLengths]
  · unfold superMagic field at hMagic ⊢
    rw [run_take _ (by decide), hTorn.run, hOld, hMagic]
    rw [hOld, hNew, hUpdate.magic_run]

/- What each copy is after the interruption. -/
theorem copy_cases
    {i : Nat}
    (hi : i < Volumes.SUPER_MIRROR_MAX)
    {buf : List UInt8}
    (hCopy : copyAt (interrupted k torn new d) i = some buf) :
    (buf = copyOf new i ∧ i < k) ∨
      (buf = torn.take SUPER_SIZE ∧ i = k ∧ Fits d k) ∨
      buf = copyOf old i := by
  rw [copyAt_interrupted hUpdate.length_new hTorn.length hi]
    at hCopy
  split at hCopy
  · rename_i hBefore
    cases hCopy
    exact Or.inl ⟨rfl, hBefore.2⟩
  · split at hCopy
    · rename_i hHere
      cases hCopy
      refine Or.inr (Or.inl ⟨rfl, hHere.2, ?_⟩)
      rw [← hHere.2]
      exact hHere.1
    · exact Or.inr (Or.inr (hUpdate.copies i hi buf hCopy))

/- All copies look right and are of one file system. -/
theorem copy_right
    {i : Nat}
    (hi : i < Volumes.SUPER_MIRROR_MAX)
    {buf : List UInt8}
    (hCopy : copyAt (interrupted k torn new d) i = some buf) :
    LooksRight i buf ∧ superFsid buf = superFsid old := by
  rcases copy_cases hUpdate hTorn hi hCopy with
    ⟨rfl, _⟩ | ⟨rfl, rfl, _⟩ | rfl
  · refine ⟨⟨superBytenr_copyOf hUpdate.length_new hi, ?_⟩,
      ?_⟩
    · rw [superMagic_copyOf hUpdate.length_new,
        hUpdate.magic_new]
    · rw [superFsid_copyOf hUpdate.length_new, hUpdate.fsid]
  · exact ⟨torn_looksRight hUpdate hTorn hi,
      torn_fsid hUpdate hTorn⟩
  · refine ⟨⟨superBytenr_copyOf hUpdate.length_old hi, ?_⟩,
      superFsid_copyOf hUpdate.length_old⟩
    rw [superMagic_copyOf hUpdate.length_old,
      hUpdate.magic_old]

theorem interrupted_kept :
    ¬ Removed (interrupted k torn new d) := by
  rintro ⟨buf, hCopy, _, hMagic⟩
  have hRight := (copy_right hUpdate hTorn (by decide)
    hCopy).1.2
  rw [hMagic] at hRight
  exact absurd hRight (by decide)

end Crash

/- Copies that all look right are all candidates. -/
theorem candidates_eq_filterMap
    {d : Device}
    {slots : List Nat}
    {fsid : List UInt8}
    (hSorted : slots.Pairwise (· < ·))
    (hSlots : ∀ i ∈ slots, i < Volumes.SUPER_MIRROR_MAX)
    (hRight :
      ∀ i ∈ slots, ∀ buf, copyAt d i = some buf →
        LooksRight i buf ∧ superFsid buf = fsid)
    {anchor : Option (List UInt8)}
    (hAnchor : anchor = none ∨ anchor = some fsid) :
    candidates d slots anchor =
      slots.filterMap (copyAt d) := by
  induction slots generalizing anchor with
  | nil => rfl
  | cons i slots ih =>
      have hCons := List.pairwise_cons.mp hSorted
      unfold candidates
      cases hCopy : copyAt d i with
      | none =>
          have hNone : ∀ j ∈ i :: slots,
              copyAt d j = none := by
            intro j hj
            rcases List.mem_cons.mp hj with rfl | hj'
            · exact hCopy
            · by_contra hSome
              have hThere := copyAt_isSome_of_le
                (Nat.le_of_lt (hCons.1 j hj')) (hSlots j hj)
                (Option.isSome_iff_ne_none.mpr hSome)
              rw [hCopy] at hThere
              cases hThere
          exact (List.filterMap_eq_nil_iff.mpr hNone).symm
      | some first =>
          have hFirst := hRight i List.mem_cons_self first
            hCopy
          dsimp only
          rw [List.filterMap_cons_some hCopy, hFirst.2,
            if_pos ⟨hFirst.1, hAnchor⟩]
          rw [ih hCons.2
            (fun j hj => hSlots j (List.mem_cons_of_mem i hj))
            (fun j hj => hRight j (List.mem_cons_of_mem i hj))
            (Or.inr rfl)]

section Recover

variable {d : Device} {old new torn : List UInt8} {k : Nat}
variable (hUpdate : Update d old new)
variable (hTorn : Torn k old new torn)

include hUpdate

/- The copies behind the one that is torn. -/
theorem behind_old
    {b : List UInt8}
    (hb : b ∈ (mirrors.drop (k + 1)).filterMap (copyAt d)) :
    superGeneration b = superGeneration old ∧
      k + 1 < Volumes.SUPER_MIRROR_MAX ∧
      (copyAt d (k + 1)).isSome := by
  rcases List.mem_filterMap.mp hb with ⟨i, hi, hCopy⟩
  have hBehind := mem_drop_mirrors.mp hi
  refine ⟨?_, by omega, ?_⟩
  · rw [hUpdate.copies i hBehind.2 b hCopy,
      superGeneration_copyOf hUpdate.length_old]
  · apply copyAt_isSome_of_le hBehind.1 hBehind.2
    rw [hCopy]
    rfl

include hTorn

theorem readDevSuper_interrupted :
    readDevSuper (interrupted k torn new d)
        Volumes.SUPER_INFO_OFFSET =
      bestOf superGeneration
        (mirrors.filterMap
          (copyAt (interrupted k torn new d))) := by
  rw [readDevSuper_eq_bestOf (interrupted_kept hUpdate hTorn)]
  congr 1
  exact candidates_eq_filterMap mirrors_sorted
    (fun _ hi => mem_mirrors.mp hi)
    (fun i hi buf hCopy =>
      copy_right hUpdate hTorn (mem_mirrors.mp hi) hCopy)
    (Or.inl rfl)

/- The copies before and behind the one that is torn. -/
theorem copies_split
    (hk : k < Volumes.SUPER_MIRROR_MAX)
    (hFits : Fits d k) :
    mirrors.filterMap (copyAt (interrupted k torn new d)) =
      (mirrors.take k).map (copyOf new) ++
        torn.take SUPER_SIZE ::
          (mirrors.drop (k + 1)).filterMap (copyAt d) := by
  have hLength : k < mirrors.length := by
    unfold mirrors
    rw [List.length_range]
    exact hk
  have hSplit : mirrors =
      mirrors.take k ++ k :: mirrors.drop (k + 1) := by
    conv_lhs => rw [← List.take_append_drop k mirrors,
      List.drop_eq_getElem_cons hLength]
    simp [mirrors]
  have hAt := fun {i : Nat}
      (hi : i < Volumes.SUPER_MIRROR_MAX) =>
    copyAt_interrupted (d := d) (k := k) hUpdate.length_new
      hTorn.length hi
  have hHere : copyAt (interrupted k torn new d) k =
      some (torn.take SUPER_SIZE) := by
    rw [hAt hk, if_neg (fun h => Nat.lt_irrefl k h.2),
      if_pos ⟨hFits, rfl⟩]
  conv_lhs => rw [hSplit]
  rw [List.filterMap_append, List.filterMap_cons_some hHere]
  congr 1
  · rw [← List.filterMap_eq_map]
    apply List.filterMap_congr
    intro i hi
    have hBefore := mem_take_mirrors.mp hi
    rw [hAt hBefore.2, if_pos
      ⟨hFits.of_le (Nat.le_of_lt hBefore.1) hk, hBefore.1⟩]
    rfl
  · congr 1
    apply List.filterMap_congr
    intro i hi
    have hBehind := mem_drop_mirrors.mp hi
    rw [hAt hBehind.2, if_neg (by omega), if_neg (by omega)]

/- A copy that is not torn is complete. -/
theorem recovers_of_not_torn
    {sb : List UInt8}
    (hRead :
      readDevSuper (interrupted k torn new d)
        Volumes.SUPER_INFO_OFFSET = some sb)
    (hNot :
      k < Volumes.SUPER_MIRROR_MAX → Fits d k →
        sb ≠ torn.take SUPER_SIZE) :
    Recovers old new (interrupted k torn new d) := by
  have hBest := hRead
  rw [readDevSuper_interrupted hUpdate hTorn,
    bestOf_eq_some_iff] at hBest
  rcases hBest with ⟨before, behind, hSplit, _⟩
  have hIn : sb ∈ mirrors.filterMap
      (copyAt (interrupted k torn new d)) := by
    rw [hSplit]
    exact List.mem_append_right _ List.mem_cons_self
  rcases List.mem_filterMap.mp hIn with ⟨i, hi, hCopy⟩
  have hSlot := mem_mirrors.mp hi
  refine ⟨sb, hRead, i, hSlot, ?_⟩
  rcases copy_cases hUpdate hTorn hSlot hCopy with
    ⟨hNew, _⟩ | ⟨hHere, rfl, hFits⟩ | hOld
  · exact Or.inr hNew
  · exact absurd hHere (hNot hSlot hFits)
  · exact Or.inl hOld

/- Some copy has a generation. -/
theorem reads_of_copy
    {i : Nat}
    (hi : i < Volumes.SUPER_MIRROR_MAX)
    {buf : List UInt8}
    (hCopy : copyAt (interrupted k torn new d) i = some buf)
    (hPos : 0 < superGeneration buf) :
    ∃ sb, readDevSuper (interrupted k torn new d)
      Volumes.SUPER_INFO_OFFSET = some sb := by
  rw [readDevSuper_interrupted hUpdate hTorn]
  exact exists_bestOf (List.mem_filterMap.mpr
    ⟨i, mem_mirrors.mpr hi, hCopy⟩) hPos

theorem torn_ne_copyOf
    (hk : k < Volumes.SUPER_MIRROR_MAX)
    {sb : List UInt8}
    (hSector : sb.length = SECTOR)
    {i : Nat}
    (hi : i < Volumes.SUPER_MIRROR_MAX)
    (hOther : i ≠ k) :
    torn.take SUPER_SIZE ≠ copyOf sb i := by
  intro hSame
  have hPlace := (torn_looksRight hUpdate hTorn hk).1
  rw [hSame, superBytenr_copyOf hSector hi] at hPlace
  exact hOther (sbOffset_injective hi hk hPlace)

/- A torn copy that is beaten is not what is read. -/
theorem ne_torn_of_beaten
    (hk : k < Volumes.SUPER_MIRROR_MAX)
    (hFits : Fits d k)
    (hBeaten :
      (0 < k ∧ superGeneration torn ≤ superGeneration new) ∨
      (k + 1 < Volumes.SUPER_MIRROR_MAX ∧
        (copyAt d (k + 1)).isSome ∧
        superGeneration torn < superGeneration old))
    {sb : List UInt8}
    (hRead :
      readDevSuper (interrupted k torn new d)
        Volumes.SUPER_INFO_OFFSET = some sb) :
    sb ≠ torn.take SUPER_SIZE := by
  rintro rfl
  rw [readDevSuper_interrupted hUpdate hTorn,
    copies_split hUpdate hTorn hk hFits,
    bestOf_eq_some_iff] at hRead
  rcases hRead with
    ⟨before, behind, hSplit, hPos, hBefore, hBehind⟩
  have hApart : torn.take SUPER_SIZE ∉
      (mirrors.take k).map (copyOf new) := by
    intro hIn
    rcases List.mem_map.mp hIn with ⟨i, hi, hSame⟩
    have hSlot := mem_take_mirrors.mp hi
    have hOther := torn_ne_copyOf hUpdate hTorn hk
      hUpdate.length_new hSlot.2 (by omega)
    exact hOther hSame.symm
  have hApart' : torn.take SUPER_SIZE ∉
      (mirrors.drop (k + 1)).filterMap (copyAt d) := by
    intro hIn
    rcases List.mem_filterMap.mp hIn with ⟨i, hi, hCopy⟩
    have hSlot := mem_drop_mirrors.mp hi
    have hOther := torn_ne_copyOf hUpdate hTorn hk
      hUpdate.length_old hSlot.2 (by omega)
    exact hOther (hUpdate.copies i hSlot.2 _ hCopy)
  have hSame := (List.append_cons_inj_of_notMem hApart
    hApart').mp hSplit
  rw [superGeneration_take] at hBefore hBehind
  rcases hBeaten with ⟨hFirst, hLow⟩ | ⟨hSlot, hThere, hLow⟩
  · have hIn : copyOf new 0 ∈ before := by
      rw [← hSame.1]
      exact List.mem_map_of_mem
        (mem_take_mirrors.mpr ⟨hFirst, by decide⟩)
    have hLess := hBefore _ hIn
    rw [superGeneration_copyOf hUpdate.length_new] at hLess
    omega
  · rcases Option.isSome_iff_exists.mp hThere with
      ⟨buf, hCopy⟩
    have hIn : buf ∈ behind := by
      rw [← hSame.2.2]
      exact List.mem_filterMap.mpr
        ⟨k + 1, mem_drop_mirrors.mpr ⟨by omega, hSlot⟩,
          hCopy⟩
    have hLess := hBehind buf hIn
    rw [hUpdate.copies (k + 1) hSlot buf hCopy,
      superGeneration_copyOf hUpdate.length_old] at hLess
    omega

/- A torn copy that is complete does no harm. -/
theorem recovers_of_whole
    (hk : k < Volumes.SUPER_MIRROR_MAX)
    (hFits : Fits d k)
    (hWhole :
      torn.take SUPER_SIZE = copyOf old k ∨
        torn.take SUPER_SIZE = copyOf new k) :
    Recovers old new (interrupted k torn new d) := by
  have hCopy : copyAt (interrupted k torn new d) k =
      some (torn.take SUPER_SIZE) := by
    rw [copyAt_interrupted hUpdate.length_new hTorn.length hk,
      if_neg (fun h => Nat.lt_irrefl k h.2),
      if_pos ⟨hFits, rfl⟩]
  have hPos : 0 < superGeneration (torn.take SUPER_SIZE) := by
    rcases hWhole with hOld | hNew
    · rw [hOld, superGeneration_copyOf hUpdate.length_old]
      exact hUpdate.generation_old
    · rw [hNew, superGeneration_copyOf hUpdate.length_new]
      exact hUpdate.generation_new
  rcases reads_of_copy hUpdate hTorn hk hCopy hPos with
    ⟨sb, hRead⟩
  by_cases hHere : sb = torn.take SUPER_SIZE
  · refine ⟨sb, hRead, k, hk, ?_⟩
    rw [hHere]
    exact hWhole
  · exact recovers_of_not_torn hUpdate hTorn hRead
      (fun _ _ => hHere)

theorem recovers_of_harmless
    (hHarmless : Harmless d old new k torn) :
    Recovers old new (interrupted k torn new d) := by
  have hAt := fun {i : Nat}
      (hi : i < Volumes.SUPER_MIRROR_MAX) =>
    copyAt_interrupted (d := d) (k := k) hUpdate.length_new
      hTorn.length hi
  have hOldPos : ∀ i, 0 < superGeneration (copyOf old i) := by
    intro i
    rw [superGeneration_copyOf hUpdate.length_old]
    exact hUpdate.generation_old
  have hNewPos : ∀ i, 0 < superGeneration (copyOf new i) := by
    intro i
    rw [superGeneration_copyOf hUpdate.length_new]
    exact hUpdate.generation_new
  by_cases hStop : k < Volumes.SUPER_MIRROR_MAX ∧ Fits d k
  · rcases hHarmless with hNo | hOld | hNew | hBeaten
    · exact absurd hStop hNo
    · exact recovers_of_whole hUpdate hTorn hStop.1 hStop.2
        (Or.inl hOld)
    · exact recovers_of_whole hUpdate hTorn hStop.1 hStop.2
        (Or.inr hNew)
    · have hReads : ∃ sb,
          readDevSuper (interrupted k torn new d)
            Volumes.SUPER_INFO_OFFSET = some sb := by
        rcases hBeaten with ⟨hFirst, _⟩ | ⟨hSlot, hThere, _⟩
        · have hZero : Fits d 0 ∧ 0 < k :=
            ⟨hStop.2.of_le (Nat.zero_le k) hStop.1, hFirst⟩
          have hCopy := hAt (show 0 < _ by decide)
          rw [if_pos hZero] at hCopy
          exact reads_of_copy hUpdate hTorn (by decide) hCopy
            (hNewPos 0)
        · rcases Option.isSome_iff_exists.mp hThere with
            ⟨buf, hBuf⟩
          have hCopy := hAt hSlot
          rw [if_neg (by omega), if_neg (by omega), hBuf,
            hUpdate.copies (k + 1) hSlot buf hBuf] at hCopy
          exact reads_of_copy hUpdate hTorn hSlot hCopy
            (hOldPos (k + 1))
      rcases hReads with ⟨sb, hRead⟩
      exact recovers_of_not_torn hUpdate hTorn hRead
        (fun _ _ => ne_torn_of_beaten hUpdate hTorn hStop.1
          hStop.2 hBeaten hRead)
  · rcases Option.isSome_iff_exists.mp hUpdate.present with
      ⟨buf, hBuf⟩
    have hCopy := hAt (show 0 < _ by decide)
    have hReads : ∃ sb,
        readDevSuper (interrupted k torn new d)
          Volumes.SUPER_INFO_OFFSET = some sb := by
      by_cases hFirst : Fits d 0 ∧ 0 < k
      · rw [if_pos hFirst] at hCopy
        exact reads_of_copy hUpdate hTorn (by decide) hCopy
          (hNewPos 0)
      · have hNotHere : ¬ (Fits d 0 ∧ 0 = k) := by
          rintro ⟨hFits, rfl⟩
          exact hStop ⟨by decide, hFits⟩
        rw [if_neg hFirst, if_neg hNotHere, hBuf,
          hUpdate.copies 0 (by decide) buf hBuf] at hCopy
        exact reads_of_copy hUpdate hTorn (by decide) hCopy
          (hOldPos 0)
    rcases hReads with ⟨sb, hRead⟩
    exact recovers_of_not_torn hUpdate hTorn hRead
      (fun hk hFits => absurd ⟨hk, hFits⟩ hStop)

/-
  A torn copy that is neither complete nor beaten is what is
  read, or nothing is.
-/
theorem harmless_of_recovers
    (hRecovers :
      Recovers old new (interrupted k torn new d)) :
    Harmless d old new k torn := by
  by_contra hHarm
  unfold Harmless at hHarm
  rw [not_or, not_or, not_or, not_or, not_not] at hHarm
  rcases hHarm with
    ⟨⟨hk, hFits⟩, hNotOld, hNotNew, hFirst, hLast⟩
  have hOthers : (∀ b ∈ (mirrors.take k).map (copyOf new),
      superGeneration b < superGeneration torn) ∧
      ∀ b ∈ (mirrors.drop (k + 1)).filterMap (copyAt d),
        superGeneration b ≤ superGeneration torn := by
    constructor
    · intro b hb
      rcases List.mem_map.mp hb with ⟨i, hi, rfl⟩
      have hSlot := mem_take_mirrors.mp hi
      rw [superGeneration_copyOf hUpdate.length_new]
      by_contra hHigh
      exact hFirst ⟨by omega, by omega⟩
    · intro b hb
      rcases behind_old hUpdate hb with
        ⟨hGeneration, hSlot, hThere⟩
      rw [hGeneration]
      by_contra hHigh
      exact hLast ⟨hSlot, hThere, by omega⟩
  rcases hRecovers with ⟨sb, hRead, i, hi, hComplete⟩
  rw [readDevSuper_interrupted hUpdate hTorn,
    copies_split hUpdate hTorn hk hFits] at hRead
  by_cases hPos : 0 < superGeneration torn
  · have hTaken := superGeneration_take torn
    have hBest : bestOf superGeneration
        ((mirrors.take k).map (copyOf new) ++
          torn.take SUPER_SIZE ::
            (mirrors.drop (k + 1)).filterMap (copyAt d)) =
        some (torn.take SUPER_SIZE) := by
      rw [bestOf_eq_some_iff]
      refine ⟨_, _, rfl, ?_⟩
      rw [hTaken]
      exact ⟨hPos, hOthers⟩
    rw [hBest] at hRead
    have hSame := Option.some.inj hRead
    by_cases hSlot : i = k
    · subst hSlot
      rcases hComplete with hOld | hNew
      · exact hNotOld (hSame.trans hOld)
      · exact hNotNew (hSame.trans hNew)
    · rcases hComplete with hOld | hNew
      · exact torn_ne_copyOf hUpdate hTorn hk
          hUpdate.length_old hi hSlot (hSame.trans hOld)
      · exact torn_ne_copyOf hUpdate hTorn hk
          hUpdate.length_new hi hSlot (hSame.trans hNew)
  · rcases bestOf_eq_some_iff.mp hRead with
      ⟨before, behind, hSplit, hRank, _⟩
    have hIn : sb ∈ (mirrors.take k).map (copyOf new) ++
        torn.take SUPER_SIZE ::
          (mirrors.drop (k + 1)).filterMap (copyAt d) := by
      rw [hSplit]
      exact List.mem_append_right _ List.mem_cons_self
    rw [List.mem_append, List.mem_cons] at hIn
    rcases hIn with hb | rfl | hb
    · have hLess := hOthers.1 sb hb
      omega
    · rw [superGeneration_take] at hRank
      omega
    · have hLess := hOthers.2 sb hb
      omega

end Recover

/-
  A crash leaves the old or the new superblock to be read
  exactly if the torn copy is harmless; and what is read of any
  copies is the best exactly if the first of the highest
  generation has its checksum.
-/
theorem readDevSuper_crash_safe_iff
    {d : Device}
    {old new torn : List UInt8}
    {k : Nat}
    (hUpdate : Update d old new)
    (hTorn : Torn k old new torn) :
    (Recovers old new (interrupted k torn new d) ↔
      Harmless d old new k torn) ∧
    ∀ other : Device, ReturnsBest other ↔
      ∀ i buf, FirstHighest other i buf →
        CsumRight other i :=
  ⟨⟨harmless_of_recovers hUpdate hTorn,
    recovers_of_harmless hUpdate hTorn⟩, returnsBest_iff⟩

----------
-- A Device with One Copy
----------

/- A superblock with a generation and a root. -/
def sampleSuper
    (generation root : Nat) : List UInt8 :=
  setField (setField (setField (List.replicate SECTOR 0)
    64 8 BTRFS_MAGIC) 72 8 generation) 80 8 root

/- A device that has room for the first copy only. -/
def oneCopy : Device :=
  pwrite ⟨Volumes.SUPER_INFO_OFFSET + SECTOR, fun _ => 0⟩
    (Volumes.sbOffset 0)
    (stamp (Volumes.sbOffset 0) (sampleSuper 1 1))

/- The old copy with the generation of the new one. -/
def halfWritten : List UInt8 :=
  setField (stamp (Volumes.sbOffset 0) (sampleSuper 1 1))
    72 8 2

theorem length_sampleSuper
    (generation root : Nat) :
    (sampleSuper generation root).length = SECTOR :=
  length_setField_eq (length_setField_eq (length_setField_eq
    List.length_replicate (by decide)) (by decide)) (by decide)

/- The bytes of its fields. -/
theorem run_sampleSuper
    (generation root : Nat) :
    ((sampleSuper generation root).drop 64).take 8 =
        LittleEndian.encode 8 BTRFS_MAGIC ∧
      ((sampleSuper generation root).drop 72).take 8 =
        LittleEndian.encode 8 generation ∧
      ((sampleSuper generation root).drop 80).take 8 =
        LittleEndian.encode 8 root :=
  ⟨rfl, rfl, rfl⟩

theorem superMagic_sampleSuper
    (generation root : Nat) :
    superMagic (sampleSuper generation root) =
      BTRFS_MAGIC := by
  unfold superMagic field
  rw [(run_sampleSuper generation root).1]
  exact LittleEndian.decode_encode_of_lt (by decide)

theorem superGeneration_sampleSuper
    {generation : Nat}
    (root : Nat)
    (hFits : generation < 256 ^ 8) :
    superGeneration (sampleSuper generation root) =
      generation := by
  unfold superGeneration field
  rw [(run_sampleSuper generation root).2.1]
  exact LittleEndian.decode_encode_of_lt hFits

theorem root_sampleSuper
    (generation : Nat)
    {root : Nat}
    (hFits : root < 256 ^ 8) :
    field (sampleSuper generation root) 80 8 = root := by
  unfold field
  rw [(run_sampleSuper generation root).2.2]
  exact LittleEndian.decode_encode_of_lt hFits

theorem fits_oneCopy
    {i : Nat}
    (hi : i < Volumes.SUPER_MIRROR_MAX)
    (hThere : (copyAt oneCopy i).isSome) :
    i = 0 := by
  have hNone : ∀ i < Volumes.SUPER_MIRROR_MAX, i ≠ 0 →
      ¬ Volumes.sbOffset i + SUPER_SIZE ≤
        Volumes.SUPER_INFO_OFFSET + SECTOR := by
    decide
  by_contra hOther
  unfold copyAt pread at hThere
  have hSize : oneCopy.size =
      Volumes.SUPER_INFO_OFFSET + SECTOR := rfl
  rw [hSize, if_neg (hNone i hi hOther)] at hThere
  cases hThere

theorem copyAt_oneCopy :
    copyAt oneCopy 0 = some (copyOf (sampleSuper 1 1) 0) := by
  have hRoom : Volumes.sbOffset 0 + SUPER_SIZE ≤
      oneCopy.size := by
    show _ ≤ Volumes.SUPER_INFO_OFFSET + SECTOR
    decide
  unfold copyAt pread
  rw [if_pos hRoom, oneCopy, load_pwrite_same
    (length_stamp (length_sampleSuper 1 1) _) (by decide)]
  rfl

theorem update_oneCopy :
    Update oneCopy (sampleSuper 1 1) (sampleSuper 2 2) where
  length_old := length_sampleSuper 1 1
  length_new := length_sampleSuper 2 2
  magic_old := superMagic_sampleSuper 1 1
  magic_new := superMagic_sampleSuper 2 2
  fsid := rfl
  generation_old := by
    rw [superGeneration_sampleSuper 1 (by decide)]
    decide
  generation_new := by
    rw [superGeneration_sampleSuper 2 (by decide)]
    decide
  present := by
    rw [copyAt_oneCopy]
    rfl
  copies := by
    intro i hi buf hBuf
    have hFirst := fits_oneCopy hi (by rw [hBuf]; rfl)
    subst hFirst
    rw [copyAt_oneCopy] at hBuf
    exact (Option.some.inj hBuf).symm

theorem torn_halfWritten :
    Torn 0 (sampleSuper 1 1) (sampleSuper 2 2)
      halfWritten := by
  have hSize : SECTOR = 4096 := rfl
  have hOld := length_stamp (length_sampleSuper 1 1)
    (Volumes.sbOffset 0)
  have hNew := length_stamp (length_sampleSuper 2 2)
    (Volumes.sbOffset 0)
  refine ⟨?_, ?_⟩
  · exact length_setField_eq hOld (by decide)
  · intro j
    unfold halfWritten
    rw [getElem?_setField _ (by omega)]
    split
    · right
      -- the generation of the new copy, byte by byte
      have hRun : ((stamp (Volumes.sbOffset 0)
          (sampleSuper 2 2)).drop 72).take 8 =
            LittleEndian.encode 8 2 := by
        rw [run_stamp (length_sampleSuper 2 2) _ (by decide)
          (by decide)]
        decide +kernel
      have hAt := congrArg
        (fun l : List UInt8 => l[j - 72]?) hRun
      rw [← hAt, List.getElem?_take, if_pos (by omega),
        List.getElem?_drop]
      congr 1
      omega
    · exact Or.inl rfl

/- The only copy of a device is half written. -/
theorem readDevSuper_crash_safe_oneCopy :
    (Recovers (sampleSuper 1 1) (sampleSuper 2 2)
        (interrupted 0 halfWritten (sampleSuper 2 2)
          oneCopy) ↔
      Harmless oneCopy (sampleSuper 1 1) (sampleSuper 2 2) 0
        halfWritten) ∧
    ∀ other : Device, ReturnsBest other ↔
      ∀ i buf, FirstHighest other i buf →
        CsumRight other i :=
  readDevSuper_crash_safe_iff update_oneCopy torn_halfWritten

theorem halfWritten_harms :
    ¬ Harmless oneCopy (sampleSuper 1 1) (sampleSuper 2 2) 0
      halfWritten := by
  have hSize : SECTOR = 4096 := rfl
  have hOld := length_stamp (length_sampleSuper 1 1)
    (Volumes.sbOffset 0)
  have hGeneration : superGeneration halfWritten = 2 :=
    field_setField_same (by omega) (by decide)
  have hRoot : field (halfWritten.take SUPER_SIZE) 80 8 =
      1 := by
    have hOldRoot := root_sampleSuper 1
      (show 1 < 256 ^ 8 by decide)
    unfold field halfWritten at *
    rw [run_take _ (by decide), run_setField _ (by omega)
      (by decide), run_stamp (length_sampleSuper 1 1) _
      (by decide) (by decide)]
    exact hOldRoot
  have hNewRoot : field (copyOf (sampleSuper 2 2) 0) 80 8 =
      2 := by
    have hSample := root_sampleSuper 2
      (show 2 < 256 ^ 8 by decide)
    unfold field at *
    rw [run_copyOf (length_sampleSuper 2 2) (by decide)
      (by decide) (by decide)]
    exact hSample
  rintro (hNone | hWhole | hWhole | ⟨hFirst, _⟩ |
    ⟨_, hThere, _⟩)
  · apply hNone
    refine ⟨by decide, ?_⟩
    show Volumes.sbOffset 0 + SECTOR ≤
      Volumes.SUPER_INFO_OFFSET + SECTOR
    decide
  · have hSame := congrArg superGeneration hWhole
    rw [superGeneration_take, hGeneration,
      superGeneration_copyOf (length_sampleSuper 1 1),
      superGeneration_sampleSuper 1 (by decide)] at hSame
    cases hSame
  · rw [hWhole, hNewRoot] at hRoot
    cases hRoot
  · exact Nat.lt_irrefl 0 hFirst
  · have hFirst := fits_oneCopy (by decide) hThere
    cases hFirst

/- The half of a copy is read as a superblock. -/
theorem readDevSuper_returns_torn :
    ∃ d old new k torn, Update d old new ∧
      Torn k old new torn ∧
      ¬ Recovers old new (interrupted k torn new d) :=
  ⟨oneCopy, sampleSuper 1 1, sampleSuper 2 2, 0, halfWritten,
    update_oneCopy, torn_halfWritten, fun hRecovers =>
      halfWritten_harms (harmless_of_recovers update_oneCopy
        torn_halfWritten hRecovers)⟩

end DiskIo

end BtrfsProgs
