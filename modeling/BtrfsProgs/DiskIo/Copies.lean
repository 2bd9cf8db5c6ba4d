import BtrfsProgs.DiskIo.Supers

/-
  The copies of the superblock: which of them the reader
  chooses, and what a write, interrupted or not, leaves of
  them.

  Main declarations:
    * `candidates` and `readDevSuper_eq_bestOf`
    * `stamp_stamp`
    * `copyAt_interrupted`
-/

----------
-- What the Reader Chooses
----------

namespace BtrfsProgs

namespace DiskIo

open Record ByteArea FirstBest

/- A copy that has its own place and the magic. -/
def LooksRight
    (i : Nat)
    (buf : List UInt8) : Prop :=
  superBytenr buf = Volumes.sbOffset i ∧
    superMagic buf = BTRFS_MAGIC

instance
    (i : Nat)
    (buf : List UInt8) : Decidable (LooksRight i buf) :=
  inferInstanceAs (Decidable (_ ∧ _))

/- The copies that are compared by their generation. -/
def candidates
    (d : Device) :
    List Nat → Option (List UInt8) → List (List UInt8)
  | [], _ => []
  | i :: slots, fsid =>
      match copyAt d i with
      | none => []
      | some buf =>
          if LooksRight i buf ∧
              (fsid = none ∨ fsid = some (superFsid buf)) then
            buf :: candidates d slots (some (superFsid buf))
          else candidates d slots fsid

/- The first copy has its place and no magic. -/
def Removed
    (d : Device) : Prop :=
  ∃ buf, copyAt d 0 = some buf ∧
    superBytenr buf = Volumes.sbOffset 0 ∧ superMagic buf = 0

theorem readMirrors_eq
    {d : Device}
    {slots : List Nat}
    (hKept : ¬ Removed d)
    (fsid sb : Option (List UInt8)) :
    readMirrors d slots fsid sb =
      (candidates d slots fsid).foldl
        (better superGeneration) sb := by
  induction slots generalizing fsid sb with
  | nil => rfl
  | cons i slots ih =>
      unfold readMirrors candidates
      cases hCopy : copyAt d i with
      | none => rfl
      | some buf =>
          dsimp only
          by_cases hPlace :
              superBytenr buf = Volumes.sbOffset i
          · rw [if_neg (not_not_intro hPlace)]
            have hHere : ¬ (superMagic buf = 0 ∧ i = 0) := by
              rintro ⟨hMagic, rfl⟩
              exact hKept ⟨buf, hCopy, hPlace, hMagic⟩
            rw [if_neg hHere]
            by_cases hMagic : superMagic buf = BTRFS_MAGIC
            · rw [if_neg (not_not_intro hMagic)]
              by_cases hFsid : fsid = none ∨
                  fsid = some (superFsid buf)
              · rw [if_neg (by tauto),
                  if_pos ⟨⟨hPlace, hMagic⟩, hFsid⟩, ih]
                rfl
              · rw [if_pos (by tauto), if_neg (by tauto), ih]
            · rw [if_pos hMagic,
                if_neg (fun h => hMagic h.1.2), ih]
          · rw [if_pos hPlace,
              if_neg (fun h => hPlace h.1.1), ih]

theorem readDevSuper_removed
    {d : Device}
    (hRemoved : Removed d) :
    readDevSuper d Volumes.SUPER_INFO_OFFSET = none := by
  rcases hRemoved with ⟨buf, hCopy, hPlace, hMagic⟩
  have hMirrors : mirrors = [0, 1, 2] := rfl
  unfold readDevSuper
  rw [if_neg (not_not_intro rfl), hMirrors, readMirrors, hCopy]
  dsimp only
  rw [if_neg (not_not_intro hPlace), if_pos ⟨hMagic, rfl⟩]

/- The reader returns the first copy of the best generation. -/
theorem readDevSuper_eq_bestOf
    {d : Device}
    (hKept : ¬ Removed d) :
    readDevSuper d Volumes.SUPER_INFO_OFFSET =
      bestOf superGeneration
        (candidates d mirrors none) := by
  unfold readDevSuper
  rw [if_neg (not_not_intro rfl), readMirrors_eq hKept]
  rfl

----------
-- Places of the Copies
----------

theorem sbOffset_apart :
    ∀ i < Volumes.SUPER_MIRROR_MAX,
      ∀ j < Volumes.SUPER_MIRROR_MAX, i < j →
        Volumes.sbOffset i + SECTOR ≤
          Volumes.sbOffset j := by
  decide

theorem sbOffset_lt :
    ∀ i < Volumes.SUPER_MIRROR_MAX,
      Volumes.sbOffset i < 256 ^ 8 := by
  decide

theorem sbOffset_injective
    {i j : Nat}
    (hi : i < Volumes.SUPER_MIRROR_MAX)
    (hj : j < Volumes.SUPER_MIRROR_MAX)
    (hEq : Volumes.sbOffset i = Volumes.sbOffset j) :
    i = j := by
  have hSector : SECTOR = 4096 := rfl
  rcases Nat.lt_trichotomy i j with hLt | rfl | hGt
  · have hApart := sbOffset_apart i hi j hj hLt
    omega
  · rfl
  · have hApart := sbOffset_apart j hj i hi hGt
    omega

theorem mem_mirrors
    {i : Nat} :
    i ∈ mirrors ↔ i < Volumes.SUPER_MIRROR_MAX := by
  unfold mirrors
  exact List.mem_range

theorem mirrors_sorted :
    mirrors.Pairwise (· < ·) := by
  unfold mirrors
  exact List.pairwise_lt_range

/- A copy that is there has those before it. -/
theorem copyAt_isSome_of_le
    {d : Device}
    {i j : Nat}
    (hLe : i ≤ j)
    (hj : j < Volumes.SUPER_MIRROR_MAX)
    (hThere : (copyAt d j).isSome) :
    (copyAt d i).isSome := by
  rcases Nat.eq_or_lt_of_le hLe with rfl | hLt
  · exact hThere
  · have hApart := sbOffset_apart i (by omega) j hj hLt
    have hSector : SECTOR = 4096 := rfl
    have hSize : SUPER_SIZE = 3531 := rfl
    unfold copyAt pread at hThere ⊢
    split at hThere
    · rw [if_pos (by omega)]
      rfl
    · cases hThere

section Candidates

variable {d : Device} {slots : List Nat}
variable (hSorted : slots.Pairwise (· < ·))
variable (hSlots : ∀ i ∈ slots, i < Volumes.SUPER_MIRROR_MAX)

include hSorted hSlots

theorem mem_candidates_some
    {fsid buf : List UInt8} :
    buf ∈ candidates d slots (some fsid) ↔
      ∃ i ∈ slots, copyAt d i = some buf ∧
        LooksRight i buf ∧ superFsid buf = fsid := by
  induction slots with
  | nil => simp [candidates]
  | cons i slots ih =>
      have hCons := List.pairwise_cons.mp hSorted
      have hIh := ih hCons.2 fun j hj =>
        hSlots j (List.mem_cons_of_mem i hj)
      unfold candidates
      cases hCopy : copyAt d i with
      | none =>
          constructor
          · intro hIn
            cases hIn
          · rintro ⟨j, hj, hb, _⟩
            have hLe : i ≤ j := by
              rcases List.mem_cons.mp hj with rfl | hj
              · exact Nat.le_refl j
              · exact Nat.le_of_lt (hCons.1 j hj)
            have hThere := copyAt_isSome_of_le hLe
              (hSlots j hj) (by rw [hb]; rfl)
            rw [hCopy] at hThere
            cases hThere
      | some first =>
          dsimp only
          by_cases hTake : LooksRight i first ∧
              superFsid first = fsid
          · rw [if_pos ⟨hTake.1, Or.inr (by rw [hTake.2])⟩,
              hTake.2, List.mem_cons, hIh]
            simp only [List.mem_cons, exists_eq_or_imp, hCopy,
              Option.some.injEq]
            constructor
            · rintro (rfl | hBehind)
              · exact Or.inl ⟨rfl, hTake⟩
              · exact Or.inr hBehind
            · rintro (⟨rfl, _⟩ | hBehind)
              · exact Or.inl rfl
              · exact Or.inr hBehind
          · have hLeave : ¬ (LooksRight i first ∧
                (some fsid = none ∨
                  some fsid = some (superFsid first))) := by
              rintro ⟨hRight, hNone | hSame⟩
              · cases hNone
              · exact hTake ⟨hRight,
                  (Option.some.inj hSame).symm⟩
            rw [if_neg hLeave, hIh]
            simp only [List.mem_cons, exists_eq_or_imp, hCopy,
              Option.some.injEq]
            constructor
            · exact Or.inr
            · rintro (⟨rfl, hHere⟩ | hBehind)
              · exact absurd hHere hTake
              · exact hBehind

/- The candidates are the copies with the fsid of any one. -/
theorem mem_candidates_none
    {buf : List UInt8}
    (hBuf : buf ∈ candidates d slots none)
    {b : List UInt8} :
    b ∈ candidates d slots none ↔
      ∃ i ∈ slots, copyAt d i = some b ∧ LooksRight i b ∧
        superFsid b = superFsid buf := by
  induction slots with
  | nil => cases hBuf
  | cons i slots ih =>
      have hCons := List.pairwise_cons.mp hSorted
      have hRest : ∀ j ∈ slots,
          j < Volumes.SUPER_MIRROR_MAX := fun j hj =>
        hSlots j (List.mem_cons_of_mem i hj)
      unfold candidates at hBuf ⊢
      cases hCopy : copyAt d i with
      | none =>
          rw [hCopy] at hBuf
          cases hBuf
      | some first =>
          rw [hCopy] at hBuf
          dsimp only at hBuf ⊢
          by_cases hRight : LooksRight i first
          · have hTake : LooksRight i first ∧
                ((none : Option (List UInt8)) = none ∨
                  none = some (superFsid first)) :=
              ⟨hRight, Or.inl rfl⟩
            have hKnown : ∀ b,
                b ∈ candidates d slots
                    (some (superFsid first)) ↔
                  ∃ i ∈ slots, copyAt d i = some b ∧
                    LooksRight i b ∧
                    superFsid b = superFsid first :=
              fun b => mem_candidates_some hCons.2 hRest
            rw [if_pos hTake] at hBuf ⊢
            have hFsid : superFsid buf = superFsid first := by
              rcases List.mem_cons.mp hBuf with rfl | hBehind
              · rfl
              · rcases (hKnown buf).mp hBehind with
                  ⟨_, _, _, _, hSame⟩
                exact hSame
            rw [List.mem_cons, hKnown, hFsid]
            simp only [List.mem_cons, exists_eq_or_imp, hCopy,
              Option.some.injEq]
            constructor
            · rintro (rfl | hBehind)
              · exact Or.inl ⟨rfl, hRight, rfl⟩
              · exact Or.inr hBehind
            · rintro (⟨rfl, _⟩ | hBehind)
              · exact Or.inl rfl
              · exact Or.inr hBehind
          · have hLeave : ¬ (LooksRight i first ∧
                ((none : Option (List UInt8)) = none ∨
                  none = some (superFsid first))) :=
              fun h => hRight h.1
            rw [if_neg hLeave] at hBuf ⊢
            rw [ih hCons.2 hRest hBuf]
            simp only [List.mem_cons, exists_eq_or_imp, hCopy,
              Option.some.injEq]
            constructor
            · exact Or.inr
            · rintro (⟨rfl, hHere, _⟩ | hBehind)
              · exact absurd hHere hRight
              · exact hBehind

end Candidates

----------
-- Stamps
----------

theorem getElem?_setField
    {sb : List UInt8}
    {place w : Nat}
    (v : Nat)
    (hFits : place + w ≤ sb.length)
    (j : Nat) :
    (setField sb place w v)[j]? =
      if place ≤ j ∧ j < place + w then
        (LittleEndian.encode w v)[j - place]?
      else sb[j]? := by
  have hLength := LittleEndian.length_encode w v
  unfold setField
  rw [List.append_assoc, List.getElem?_append,
    List.length_take, Nat.min_eq_left (by omega)]
  split
  · rw [if_neg (by omega), List.getElem?_take,
      if_pos (by omega)]
  · rw [List.getElem?_append, hLength]
    split
    · rw [if_pos (by omega)]
    · rw [if_neg (by omega), List.getElem?_drop]
      congr 1
      omega

theorem length_setField
    {sb : List UInt8}
    {place w : Nat}
    (v : Nat)
    (hFits : place + w ≤ sb.length) :
    (setField sb place w v).length = sb.length := by
  have hLength := LittleEndian.length_encode w v
  unfold setField
  rw [List.length_append, List.length_append,
    List.length_take, List.length_drop, hLength]
  omega

theorem length_setField_eq
    {sb : List UInt8}
    {place w n : Nat}
    {v : Nat}
    (hLength : sb.length = n)
    (hFits : place + w ≤ n) :
    (setField sb place w v).length = n :=
  (length_setField v (hLength ▸ hFits)).trans hLength

/- The bytes beside a field that is set. -/
theorem run_setField
    {sb : List UInt8}
    {place w q n : Nat}
    (v : Nat)
    (hFits : place + w ≤ sb.length)
    (hBeside : q + n ≤ place ∨ place + w ≤ q) :
    ((setField sb place w v).drop q).take n =
      (sb.drop q).take n := by
  apply List.ext_getElem?
  intro j
  rw [List.getElem?_take, List.getElem?_take]
  split
  · rw [List.getElem?_drop, List.getElem?_drop,
      getElem?_setField v hFits, if_neg (by omega)]
  · rfl

theorem field_setField_same
    {sb : List UInt8}
    {place w v : Nat}
    (hFits : place + w ≤ sb.length)
    (hv : v < 256 ^ w) :
    field (setField sb place w v) place w = v := by
  have hLength := LittleEndian.length_encode w v
  have hRun : ((setField sb place w v).drop place).take w =
      LittleEndian.encode w v := by
    apply List.ext_getElem?
    intro j
    rw [List.getElem?_take]
    split
    · rw [List.getElem?_drop, getElem?_setField v hFits,
        if_pos (by omega)]
      congr 1
      omega
    · rw [List.getElem?_eq_none (by omega)]
  unfold field
  rw [hRun, LittleEndian.decode_encode_of_lt hv]

section Stamp

variable {sb : List UInt8} (hSector : sb.length = SECTOR)

include hSector

theorem length_stamp
    (bytenr : Nat) :
    (stamp bytenr sb).length = SECTOR :=
  length_setField_eq (length_setField_eq hSector (by decide))
    (by decide)

/- A stamp changes the checksum and the place only. -/
theorem run_stamp
    (bytenr : Nat)
    {q n : Nat}
    (hLow : 4 ≤ q)
    (hBeside : q + n ≤ 48 ∨ 56 ≤ q) :
    ((stamp bytenr sb).drop q).take n =
      (sb.drop q).take n := by
  have hSize : SECTOR = 4096 := rfl
  unfold stamp
  rw [run_setField _ (by
      rw [length_setField _ (by omega)]
      omega) (by omega),
    run_setField _ (by omega) (by omega)]

theorem superBytenr_stamp
    {bytenr : Nat}
    (hFits : bytenr < 256 ^ 8) :
    superBytenr (stamp bytenr sb) = bytenr := by
  have hSize : SECTOR = 4096 := rfl
  have hPlace := field_setField_same
    (show 48 + 8 ≤ sb.length by omega) hFits
  unfold superBytenr stamp field at *
  rw [run_setField _ (by
    rw [length_setField _ (by omega)]
    omega) (by omega)]
  exact hPlace

/- The stamp of one copy is replaced by that of the next. -/
theorem stamp_stamp
    (bytenr bytenr' : Nat) :
    stamp bytenr' (stamp bytenr sb) = stamp bytenr' sb := by
  have hSize : SECTOR = 4096 := rfl
  have hInner : 48 + 8 ≤ sb.length := by omega
  have hLength := length_setField bytenr hInner
  have hLength' := length_setField bytenr' hInner
  have hStamp := length_stamp hSector bytenr
  have hBody : ∀ j, 4 ≤ j →
      (setField (stamp bytenr sb) 48 8 bytenr')[j]? =
        (setField sb 48 8 bytenr')[j]? := by
    intro j hj
    rw [getElem?_setField _ (by omega),
      getElem?_setField _ hInner]
    split
    · rfl
    · unfold stamp
      rw [getElem?_setField _ (by omega), if_neg (by omega),
        getElem?_setField _ hInner, if_neg (by omega)]
  have hCsum : sectorCsum
      (setField (stamp bytenr sb) 48 8 bytenr') =
        sectorCsum (setField sb 48 8 bytenr') := by
    have hDrop : (setField (stamp bytenr sb) 48 8
        bytenr').drop 32 =
          (setField sb 48 8 bytenr').drop 32 := by
      apply List.ext_getElem?
      intro j
      rw [List.getElem?_drop, List.getElem?_drop]
      exact hBody (32 + j) (by omega)
    unfold sectorCsum
    rw [hDrop]
  have hOuter : (setField (stamp bytenr sb) 48 8
      bytenr').length = SECTOR :=
    length_setField_eq hStamp (by decide)
  rw [stamp, stamp.eq_def bytenr' sb]
  dsimp only
  rw [hCsum]
  apply List.ext_getElem?
  intro j
  have hRoom : 0 + 4 ≤
      (setField (stamp bytenr sb) 48 8 bytenr').length := by
    omega
  have hRoom' : 0 + 4 ≤
      (setField sb 48 8 bytenr').length := by
    omega
  rw [getElem?_setField _ hRoom, getElem?_setField _ hRoom']
  split
  · rfl
  · exact hBody j (by omega)

end Stamp

----------
-- What an Interrupted Write Leaves
----------

theorem size_writeMirrors
    (slots : List Nat)
    (sb : List UInt8)
    (d : Device) :
    (writeMirrors slots sb d).size = d.size := by
  induction slots generalizing sb d with
  | nil => rfl
  | cons i slots ih =>
      unfold writeMirrors
      split
      · exact ih _ _
      · rfl

theorem Fits.of_le
    {d : Device}
    {i j : Nat}
    (hLe : i ≤ j)
    (hj : j < Volumes.SUPER_MIRROR_MAX)
    (hFits : Fits d j) :
    Fits d i := by
  rcases Nat.eq_or_lt_of_le hLe with rfl | hLt
  · exact hFits
  · have hApart := sbOffset_apart i (by omega) j hj hLt
    unfold Fits at hFits ⊢
    omega

/- A copy that is written does not touch the others. -/
theorem load_pwrite_other
    {d : Device}
    {i j n : Nat}
    {bytes : List UInt8}
    (hi : i < Volumes.SUPER_MIRROR_MAX)
    (hj : j < Volumes.SUPER_MIRROR_MAX)
    (hOther : i ≠ j)
    (hBytes : bytes.length = SECTOR)
    (hn : n ≤ SECTOR) :
    load (pwrite d (Volumes.sbOffset j) bytes).bytes
        (Volumes.sbOffset i) n =
      load d.bytes (Volumes.sbOffset i) n := by
  apply load_store_of_disjoint
  rcases Nat.lt_or_gt_of_ne hOther with hLt | hGt
  · have hApart := sbOffset_apart i hi j hj hLt
    omega
  · have hApart := sbOffset_apart j hj i hi hGt
    omega

theorem load_pwrite_same
    {d : Device}
    {i n : Nat}
    {bytes : List UInt8}
    (hBytes : bytes.length = SECTOR)
    (hn : n ≤ SECTOR) :
    load (pwrite d (Volumes.sbOffset i) bytes).bytes
        (Volumes.sbOffset i) n =
      bytes.take n := by
  have hWhole := load_store d.bytes (Volumes.sbOffset i) bytes
  rw [hBytes] at hWhole
  have hPart := take_load
    (pwrite d (Volumes.sbOffset i) bytes).bytes
    (Volumes.sbOffset i) hn
  rw [← hPart]
  exact congrArg (List.take n) hWhole

theorem load_writeMirrors
    {slots : List Nat}
    (hSorted : slots.Pairwise (· < ·))
    (hSlots : ∀ i ∈ slots, i < Volumes.SUPER_MIRROR_MAX)
    {sb : List UInt8}
    (hSector : sb.length = SECTOR)
    {d : Device}
    {i n : Nat}
    (hi : i < Volumes.SUPER_MIRROR_MAX)
    (hn : n ≤ SECTOR) :
    load (writeMirrors slots sb d).bytes
        (Volumes.sbOffset i) n =
      if i ∈ slots ∧ Fits d i then
        (stamp (Volumes.sbOffset i) sb).take n
      else load d.bytes (Volumes.sbOffset i) n := by
  induction slots generalizing sb d with
  | nil => simp [writeMirrors]
  | cons j slots ih =>
      have hCons := List.pairwise_cons.mp hSorted
      have hRest : ∀ i ∈ slots,
          i < Volumes.SUPER_MIRROR_MAX := fun k hk =>
        hSlots k (List.mem_cons_of_mem j hk)
      have hj := hSlots j List.mem_cons_self
      have hStamp := length_stamp hSector
        (Volumes.sbOffset j)
      unfold writeMirrors
      by_cases hFits : Fits d j
      · have hSame : Fits (pwrite d (Volumes.sbOffset j)
            (stamp (Volumes.sbOffset j) sb)) i ↔ Fits d i :=
          Iff.rfl
        rw [if_pos hFits]
        dsimp only
        rw [ih hCons.2 hRest hStamp, stamp_stamp hSector]
        simp only [hSame]
        by_cases hLater : i ∈ slots ∧ Fits d i
        · rw [if_pos hLater, if_pos
            ⟨List.mem_cons_of_mem j hLater.1, hLater.2⟩]
        · rw [if_neg hLater]
          by_cases hHere : i = j
          · subst hHere
            rw [load_pwrite_same hStamp hn,
              if_pos ⟨List.mem_cons_self, hFits⟩]
          · rw [load_pwrite_other hi hj hHere hStamp hn]
            rw [if_neg]
            rintro ⟨hIn, hThere⟩
            rcases List.mem_cons.mp hIn with hEq | hIn
            · exact hHere hEq
            · exact hLater ⟨hIn, hThere⟩
      · rw [if_neg hFits, if_neg]
        rintro ⟨hIn, hThere⟩
        have hLe : j ≤ i := by
          rcases List.mem_cons.mp hIn with rfl | hIn
          · exact Nat.le_refl i
          · exact Nat.le_of_lt (hCons.1 i hIn)
        exact hFits (hThere.of_le hLe hi)

theorem mem_take_mirrors
    {i k : Nat} :
    i ∈ mirrors.take k ↔
      i < k ∧ i < Volumes.SUPER_MIRROR_MAX := by
  unfold mirrors
  rw [List.take_range, List.mem_range]
  omega

theorem mem_drop_mirrors
    {i k : Nat} :
    i ∈ mirrors.drop (k + 1) ↔
      k < i ∧ i < Volumes.SUPER_MIRROR_MAX := by
  unfold mirrors
  rw [List.mem_drop_iff_getElem]
  constructor
  · rintro ⟨j, hj, rfl⟩
    rw [List.length_range] at hj
    rw [List.getElem_range]
    omega
  · rintro ⟨hLow, hHigh⟩
    refine ⟨i - (k + 1), ?_, ?_⟩
    · rw [List.length_range]
      omega
    · rw [List.getElem_range]
      omega

section Interrupted

variable {d : Device} {new torn : List UInt8} {k : Nat}

theorem size_interrupted :
    (interrupted k torn new d).size = d.size := by
  have hOld := size_writeMirrors (mirrors.take k) new d
  unfold interrupted
  dsimp only
  split
  · exact hOld
  · exact hOld

variable (hNew : new.length = SECTOR)
variable (hTorn : torn.length = SECTOR)

include hNew hTorn

theorem load_interrupted
    {i n : Nat}
    (hi : i < Volumes.SUPER_MIRROR_MAX)
    (hn : n ≤ SECTOR) :
    load (interrupted k torn new d).bytes
        (Volumes.sbOffset i) n =
      if Fits d i ∧ i < k then
        (stamp (Volumes.sbOffset i) new).take n
      else if Fits d i ∧ i = k then torn.take n
      else load d.bytes (Volumes.sbOffset i) n := by
  have hPrefix := load_writeMirrors
    (mirrors_sorted.sublist (List.take_sublist k mirrors))
    (fun j hj => (mem_take_mirrors.mp hj).2) hNew
    (d := d) hi hn
  have hSlots : (i ∈ mirrors.take k ∧ Fits d i) ↔
      (Fits d i ∧ i < k) := by
    rw [mem_take_mirrors]
    tauto
  have hFitsSame : Fits (writeMirrors (mirrors.take k) new d)
      k ↔ Fits d k := by
    unfold Fits
    rw [size_writeMirrors]
  simp only [hSlots] at hPrefix
  unfold interrupted
  dsimp only
  by_cases hStop : k < Volumes.SUPER_MIRROR_MAX ∧
      Fits (writeMirrors (mirrors.take k) new d) k
  · rw [if_pos hStop]
    by_cases hHere : i = k
    · subst hHere
      have hBoth : Fits d i ∧ i = i :=
        ⟨hFitsSame.mp hStop.2, rfl⟩
      have hNotBefore : ¬ (Fits d i ∧ i < i) :=
        fun h => Nat.lt_irrefl i h.2
      rw [load_pwrite_same hTorn hn, if_neg hNotBefore,
        if_pos hBoth]
    · have hNotHere : ¬ (Fits d i ∧ i = k) :=
        fun h => hHere h.2
      rw [load_pwrite_other hi hStop.1 hHere hTorn hn,
        hPrefix, if_neg hNotHere]
  · have hNotHere : ¬ (Fits d i ∧ i = k) := by
      rintro ⟨hFits, rfl⟩
      exact hStop ⟨hi, hFitsSame.mpr hFits⟩
    rw [if_neg hStop, hPrefix, if_neg hNotHere]

/- The copies after an interruption. -/
theorem copyAt_interrupted
    {i : Nat}
    (hi : i < Volumes.SUPER_MIRROR_MAX) :
    copyAt (interrupted k torn new d) i =
      if Fits d i ∧ i < k then
        some ((stamp (Volumes.sbOffset i) new).take
          SUPER_SIZE)
      else if Fits d i ∧ i = k then
        some (torn.take SUPER_SIZE)
      else copyAt d i := by
  have hLe : SUPER_SIZE ≤ SECTOR := by decide
  have hThere : Fits d i →
      Volumes.sbOffset i + SUPER_SIZE ≤ d.size := by
    unfold Fits
    omega
  have hLoad := load_interrupted (d := d) (k := k) hNew hTorn
    hi hLe
  unfold copyAt pread
  rw [size_interrupted, hLoad]
  by_cases hBefore : Fits d i ∧ i < k
  · rw [if_pos hBefore, if_pos hBefore,
      if_pos (hThere hBefore.1)]
  · rw [if_neg hBefore, if_neg hBefore]
    by_cases hHere : Fits d i ∧ i = k
    · rw [if_pos hHere, if_pos hHere, if_pos (hThere hHere.1)]
    · rw [if_neg hHere, if_neg hHere]

end Interrupted

end DiskIo

end BtrfsProgs
