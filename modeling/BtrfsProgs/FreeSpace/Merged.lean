import BtrfsProgs.FreeSpace.Added

/-
  What `merge_space_tree` makes of a tree: extents in order
  with gaps between them, that hold the same bytes.

  Main declarations:
    * `searchBitmap_spec`
    * `scanTree_spec`
    * `Going`, `Merge.Free` and `Merge.rank`
    * `mergeSpaceTree_normalises`
-/

----------
-- Bits of a Bitmap
----------

namespace BtrfsProgs

namespace FreeSpaceCache

variable {unit : SectorSize}
variable {bitmapFirst : List Entry → Nat → Bool}
variable {entries : List Entry} {ctl more : Ctl}
variable {e p : Entry} {value : Bool} {b i j k z : Nat}

theorem findNext_spec
    (e : Entry)
    (value : Bool)
    (left i : Nat) :
    i ≤ findNext e value left i ∧
      findNext e value left i ≤ i + left ∧
      (∀ j, i ≤ j → j < findNext e value left i →
        bitAt e j ≠ value) ∧
      (findNext e value left i < i + left →
        bitAt e (findNext e value left i) = value) := by
  induction left generalizing i with
  | zero =>
      unfold findNext
      refine ⟨Nat.le_refl _, Nat.le_refl _, ?_, ?_⟩
      · intro j hLow hHigh
        omega
      · intro h
        omega
  | succ left ih =>
      obtain ⟨hLow, hHigh, hNone, hEnd⟩ := ih (i + 1)
      unfold findNext
      by_cases hHere : bitAt e i = value
      · rw [if_pos hHere]
        refine ⟨Nat.le_refl _, by omega, ?_, fun _ => hHere⟩
        intro j hJ hLess
        omega
      · rw [if_neg hHere]
        refine ⟨by omega, by omega, ?_, fun h =>
          hEnd (by omega)⟩
        intro j hJ hLess
        rcases hJ.lt_or_eq with hMore | rfl
        · exact hNone j hMore hLess
        · exact hHere

theorem findNextBit_spec
    (e : Entry)
    (value : Bool)
    (hI : i ≤ BITS_PER_BITMAP) :
    i ≤ findNextBit e value i ∧
      findNextBit e value i ≤ BITS_PER_BITMAP ∧
      (∀ j, i ≤ j → j < findNextBit e value i →
        bitAt e j ≠ value) ∧
      (findNextBit e value i < BITS_PER_BITMAP →
        bitAt e (findNextBit e value i) = value) := by
  have hSpec := findNext_spec e value (BITS_PER_BITMAP - i) i
  rw [Nat.add_sub_cancel' hI] at hSpec
  exact hSpec

/- The bit of a byte, and the bytes of a bit. -/
theorem le_bit_iff
    (hLow : e.offset ≤ b) :
    i ≤ (b - e.offset) / unit.bytes ↔
      e.offset + i * unit.bytes ≤ b := by
  rw [Nat.le_div_iff_mul_le unit.pos]
  omega

theorem bit_lt_iff
    (hLow : e.offset ≤ b) :
    (b - e.offset) / unit.bytes < i ↔
      b < e.offset + i * unit.bytes := by
  have hLe : i ≤ (b - e.offset) / unit.bytes ↔
      e.offset + i * unit.bytes ≤ b := le_bit_iff hLow
  omega

theorem offsetToBit_eq :
    offsetToBit unit e (e.offset + k * unit.bytes) = k := by
  unfold offsetToBit
  rw [max_eq_left (Nat.le_add_right _ _),
    Nat.add_sub_cancel_left, Nat.mul_div_cancel _ unit.pos]

/- The bits from `i` on and below `z` are set. -/
structure BitRun
    (e : Entry)
    (k i z : Nat) : Prop where
  behind : k ≤ i
  some : i < z
  inside : z ≤ BITS_PER_BITMAP
  clear : ∀ j, k ≤ j → j < i → bitAt e j = false
  set : ∀ j, i ≤ j → j < z → bitAt e j = true

/- The next run of bits, or no bit that is set. -/
theorem searchBitmap_spec
    (hOk : e.Ok unit)
    (hBitmap : e.bitmap.isSome)
    (hK : k ≤ BITS_PER_BITMAP) :
    match searchBitmap unit e (e.offset + k * unit.bytes) with
    | none =>
        ∀ j, k ≤ j → j < BITS_PER_BITMAP →
          bitAt e j = false
    | some (offset, bytes) =>
        ∃ i z, BitRun e k i z ∧
          offset = e.offset + i * unit.bytes ∧
          bytes = (z - i) * unit.bytes := by
  obtain ⟨hBehind, hInside, hClear, hSet⟩ :=
    findNextBit_spec e true hK
  unfold searchBitmap foundBits
  rw [offsetToBit_eq]
  dsimp only
  generalize findNextBit e true k = i at *
  by_cases hFound : i < BITS_PER_BITMAP
  · rw [if_pos hFound]
    obtain ⟨hLow, hHigh, hOnes, hZero⟩ :=
      findNextBit_spec e false hInside
    generalize findNextBit e false i = z at *
    have hBit := hSet hFound
    have hSome : i < z := by
      rcases hLow.lt_or_eq with hLess | hSame
      · exact hLess
      · subst hSame
        rw [hZero hFound] at hBit
        cases hBit
    have hFits := hOk.bitmap hBitmap
    have hLess := Nat.mul_lt_mul_of_pos_right hFound unit.pos
    refine ⟨i, z, ⟨hBehind, hSome, hHigh, ?_, ?_⟩, ?_, rfl⟩
    · exact fun j hJ hLess => by simpa using hClear j hJ hLess
    · exact fun j hJ hLess => by simpa using hOnes j hJ hLess
    · change (i * unit.bytes + e.offset) % 2 ^ 64 = _
      rw [Nat.mod_eq_of_lt (by omega), Nat.add_comm]
  · rw [if_neg hFound]
    intro j hJ hLess
    simpa using hClear j hJ (by omega)

/- The bytes of a run are free by the bitmap. -/
theorem BitRun.holds
    (hRun : BitRun e k i z)
    (hBitmap : e.bitmap.isSome)
    (hLow : e.offset + i * unit.bytes ≤ b)
    (hHigh : b < e.offset + z * unit.bytes) :
    e.Holds unit b := by
  have hStart : e.offset ≤ b := (Nat.le_add_right _ _).trans hLow
  have hBit := (le_bit_iff hStart).mpr hLow
  have hLess := (bit_lt_iff hStart).mpr hHigh
  exact (holds_bitmap hBitmap).mpr ⟨hStart,
    hLess.trans_le hRun.inside, hRun.set _ hBit hLess⟩

/- What the bitmap holds from its start is in or behind it. -/
theorem BitRun.rest
    (hRun : BitRun e k i z)
    (hBitmap : e.bitmap.isSome)
    (hHolds : e.Holds unit b)
    (hLow : e.offset + k * unit.bytes ≤ b) :
    e.offset + i * unit.bytes ≤ b := by
  obtain ⟨hStart, -, hSet⟩ := (holds_bitmap hBitmap).mp hHolds
  rw [← le_bit_iff hStart] at hLow ⊢
  by_contra hBefore
  have hClear := hRun.clear _ hLow (Nat.lt_of_not_le hBefore)
  rw [hClear] at hSet
  cases hSet

----------
-- The Loop over the Tree
----------

/- There is a byte between an entry and one behind it. -/
def Gap
    (e x : Entry) : Prop :=
  e.offset + e.bytes < x.offset

/- The first bitmap, or the first extent that goes on. -/
theorem scanTree_spec
    (prev : Option Entry)
    (entries : List Entry)
    (hPrev : ∀ p ∈ prev, p.bitmap = none)
    (hSorted : Sorted (prev.toList ++ entries))
    (hFine : Fine unit (prev.toList ++ entries)) :
    match scanTree prev entries with
    | .clean =>
        (∀ e ∈ entries, e.bitmap = none) ∧
          (prev.toList ++ entries).Pairwise Gap
    | .bitmap e => e ∈ entries ∧ e.bitmap.isSome
    | .pair p e =>
        p ∈ prev.toList ++ entries ∧ e ∈ entries ∧ p ≠ e ∧
          p.bitmap = none ∧ e.bitmap = none ∧
          p.offset + p.bytes = e.offset := by
  induction entries generalizing prev with
  | nil =>
      unfold scanTree
      refine ⟨by simp, ?_⟩
      cases prev with
      | none => exact .nil
      | some p => exact List.pairwise_singleton _ _
  | cons e rest ih =>
      unfold scanTree
      by_cases hBitmap : e.bitmap.isSome
      · rw [if_pos hBitmap]
        exact ⟨List.mem_cons_self, hBitmap⟩
      rw [if_neg hBitmap]
      have hExtent : e.bitmap = none := by simpa using hBitmap
      have hE : ∀ p ∈ some e, p.bitmap = none := by
        rintro p ⟨rfl⟩
        exact hExtent
      cases prev with
      | none =>
          have hRest := ih (some e) hE hSorted hFine
          dsimp only
          split at hRest
          case h_1 =>
            refine ⟨fun x hX => ?_, hRest.2⟩
            rcases List.mem_cons.mp hX with rfl | hX
            · exact hExtent
            · exact hRest.1 x hX
          case h_2 x _ =>
            exact ⟨List.mem_cons_of_mem _ hRest.1, hRest.2⟩
          case h_3 q x _ =>
            obtain ⟨hQ, hX, hMore⟩ := hRest
            exact ⟨hQ, List.mem_cons_of_mem _ hX, hMore⟩
      | some p =>
          have hP := hPrev p rfl
          obtain ⟨hAbove, hTail⟩ := List.pairwise_cons.mp hSorted
          obtain ⟨hOkP, hApart, hFineTail⟩ := fine_cons.mp hFine
          have hHere := hAbove e List.mem_cons_self
          obtain ⟨-, hSome⟩ := (hFineTail.ok e
            List.mem_cons_self).extent hExtent
          have hEnds := (hApart e List.mem_cons_self).le hP
            hExtent hSome hHere.le
          obtain ⟨hFits, -⟩ := hOkP.extent hP
          dsimp only
          rw [Nat.mod_eq_of_lt hFits]
          by_cases hNext : p.offset + p.bytes = e.offset
          · rw [if_pos hNext]
            exact ⟨List.mem_cons_self, List.mem_cons_self,
              hHere.ne, hP, hExtent, hNext⟩
          rw [if_neg hNext]
          have hGap : Gap p e := hEnds.lt_of_ne hNext
          have hRest := ih (some e) hE hTail hFineTail
          split at hRest
          case h_1 =>
            obtain ⟨hAll, hGaps⟩ := hRest
            refine ⟨fun x hX => ?_,
              List.pairwise_cons.mpr ⟨fun x hX => ?_, hGaps⟩⟩
            · rcases List.mem_cons.mp hX with rfl | hX
              · exact hExtent
              · exact hAll x hX
            · rcases List.mem_cons.mp hX with rfl | hX
              · exact hGap
              · have hFar : Gap e x :=
                  (List.pairwise_cons.mp hGaps).1 x hX
                unfold Gap at hGap hFar ⊢
                omega
          case h_2 x _ =>
            exact ⟨List.mem_cons_of_mem _ hRest.1, hRest.2⟩
          case h_3 q x _ =>
            obtain ⟨hQ, hX, hMore⟩ := hRest
            exact ⟨List.mem_cons_of_mem _ hQ,
              List.mem_cons_of_mem _ hX, hMore⟩

----------
-- Turns
----------

variable (unit) in
/-
  At a bitmap that has been taken out, from an offset on: what
  it holds there is not in the tree.
-/
structure AtBits
    (ctl : Ctl)
    (e : Entry)
    (offset k : Nat) : Prop where
  ok : ctl.Ok unit
  entry : e.Ok unit
  bitmap : e.bitmap.isSome
  place : offset = e.offset + k * unit.bytes
  inside : k ≤ BITS_PER_BITMAP
  apart :
    ∀ x ∈ ctl.entries, ∀ b, offset ≤ b →
      e.Holds unit b → ¬ x.Holds unit b

variable (unit) in
/- What holds at `again` and in the loop over the bits. -/
def Going : Merge → Prop
  | .again ctl => ctl.Ok unit
  | .bits ctl e offset => ∃ k, AtBits unit ctl e offset k

variable (unit) in
/- The byte is free, in the tree or by the rest of a bitmap. -/
def Merge.Free
    (b : Nat) : Merge → Prop
  | .again ctl => Holding unit ctl.entries b
  | .bits ctl e offset =>
      Holding unit ctl.entries b ∨
        e.Holds unit b ∧ offset ≤ b

/- More than all turns for one bitmap count. -/
def bitmapRank : Nat :=
  4 * BITS_PER_BITMAP + 2

variable (unit) in
/- It falls: with bitmaps, with bits and with entries. -/
def Merge.rank : Merge → Nat
  | .again ctl =>
      2 * ctl.entries.length +
        bitmaps ctl.entries * bitmapRank
  | .bits ctl e offset =>
      2 * ctl.entries.length +
        bitmaps ctl.entries * bitmapRank +
        4 * (BITS_PER_BITMAP -
          (offset - e.offset) / unit.bytes) + 1

variable (unit) in
/- What a turn comes to, from some state. -/
def TurnOk
    (a : Merge) : Merge ⊕ Except Fault Ctl → Prop
  | .inl next =>
      Going unit next ∧ next.rank unit < a.rank unit ∧
        ∀ b, next.Free unit b ↔ a.Free unit b
  | .inr result =>
      ∃ ctl, result = .ok ctl ∧ a = .again ctl ∧
        (∀ e ∈ ctl.entries, e.bitmap = none) ∧
        ctl.entries.Pairwise Gap

/- A bitmap is taken out. -/
theorem turn_bitmap
    (hOk : ctl.Ok unit)
    (hMem : e ∈ ctl.entries)
    (hBitmap : e.bitmap.isSome) :
    TurnOk unit (.again ctl)
      (.inl (.bits (unlinkFreeSpace ctl e) e e.offset)) := by
  have hPerm := List.perm_cons_erase hMem
  obtain ⟨hEntry, hApart, -⟩ :=
    fine_cons.mp (hOk.fine.perm hPerm)
  refine ⟨⟨0, hOk.unlink hMem, hEntry, hBitmap, by simp,
    Nat.zero_le _, fun x hX b _ hHolds => hApart x hX b hHolds⟩,
    ?_, fun b => ?_⟩
  · have hLength := hPerm.length_eq
    have hCount : bitmaps ctl.entries =
        bitmaps (ctl.entries.erase e) + 1 := by
      unfold bitmaps
      rw [hPerm.countP_eq,
        List.countP_cons_of_pos (by simpa using hBitmap)]
    unfold Merge.rank
    dsimp only
    rw [hCount, Nat.add_mul, hLength, List.length_cons,
      Nat.sub_self, Nat.zero_div, Nat.sub_zero]
    unfold bitmapRank unlinkFreeSpace
    dsimp only
    omega
  · change Holding unit (ctl.entries.erase e) b ∨ _ ↔
      Holding unit ctl.entries b
    rw [holding_perm hPerm, holding_cons, or_comm]
    exact or_congr_left (and_iff_left_of_imp fun hHolds =>
      ((holds_bitmap hBitmap).mp hHolds).1)

/- Two extents are joined. -/
theorem turn_pair
    (hOk : ctl.Ok unit)
    (hP : p ∈ ctl.entries)
    (hE : e ∈ ctl.entries)
    (hOther : p ≠ e)
    (hFirst : p.bitmap = none)
    (hSecond : e.bitmap = none)
    (hNext : p.offset + p.bytes = e.offset) :
    ∃ more,
      linkFreeSpace
          (unlinkFreeSpace (unlinkFreeSpace ctl p) e)
          { p with bytes := (p.bytes + e.bytes) % 2 ^ 64 } =
        .ok (some more) ∧
      TurnOk unit (.again ctl) (.inl (.again more)) := by
  have hStill : e ∈ (unlinkFreeSpace ctl p).entries :=
    (List.mem_erase_of_ne hOther.symm).mpr hE
  have hPerm : ctl.entries.Perm
      (p :: e :: (unlinkFreeSpace (unlinkFreeSpace ctl p)
        e).entries) :=
    (List.perm_cons_erase hP).trans
      ((List.perm_cons_erase hStill).cons p)
  obtain ⟨hFine, hKept⟩ :=
    (hOk.fine.perm hPerm).join hFirst hSecond hNext
  obtain ⟨hFits, -⟩ :=
    (hFine.ok _ List.mem_cons_self).extent rfl
  have hBytes : (p.bytes + e.bytes) % 2 ^ 64 =
      p.bytes + e.bytes := by
    change p.offset + (p.bytes + e.bytes) < _ at hFits
    exact Nat.mod_eq_of_lt (by omega)
  have hEntry : { p with
      bytes := (p.bytes + e.bytes) % 2 ^ 64 } = join p e := by
    rw [hBytes]
    unfold join
    rw [← hFirst]
  obtain ⟨more, hLink, hMore, hLinked⟩ :=
    ((hOk.unlink hP).unlink hStill).link rfl hFine
  have hAll : Kept unit ctl.entries more.entries :=
    ((Kept.of_perm hPerm).trans hKept).trans
      (.of_perm hLinked.symm)
  refine ⟨more, hEntry ▸ hLink, hMore, ?_, hAll.holding⟩
  have hBefore := hPerm.length_eq
  have hAfter := hLinked.length_eq
  rw [List.length_cons, List.length_cons] at hBefore
  rw [List.length_cons] at hAfter
  unfold Merge.rank
  dsimp only
  rw [hAll.bitmaps]
  omega

/- No bit is left. -/
theorem turn_end
    {offset : Nat}
    (hAt : AtBits unit ctl e offset k)
    (hNone : ∀ j, k ≤ j → j < BITS_PER_BITMAP →
      bitAt e j = false) :
    TurnOk unit (.bits ctl e offset) (.inl (.again ctl)) := by
  refine ⟨hAt.ok, ?_, fun b => ?_⟩
  · unfold Merge.rank
    dsimp only
    omega
  · change _ ↔ _ ∨ _
    refine (or_iff_left ?_).symm
    rintro ⟨hHolds, hLow⟩
    obtain ⟨hStart, hIn, hSet⟩ :=
      (holds_bitmap hAt.bitmap).mp hHolds
    rw [hAt.place, ← le_bit_iff hStart] at hLow
    rw [hNone _ hLow hIn] at hSet
    cases hSet

variable (bitmapFirst) in
/- The extent of a run, and what is left behind it. -/
theorem turn_run
    {offset : Nat}
    (hAt : AtBits unit ctl e offset k)
    (hRun : BitRun e k i z) :
    ∃ more,
      addFreeSpace bitmapFirst unit ctl
          (e.offset + i * unit.bytes)
          ((z - i) * unit.bytes) = .ok more ∧
        TurnOk unit (.bits ctl e offset)
          (.inl (if z = BITS_PER_BITMAP then .again more
            else .bits more e (e.offset + z * unit.bytes))) := by
  have hFits := hAt.entry.bitmap hAt.bitmap
  have hTop := Nat.mul_le_mul_right unit.bytes hRun.inside
  have hSize : (z - i) * unit.bytes + i * unit.bytes =
      z * unit.bytes := by
    rw [← Nat.add_mul, Nat.sub_add_cancel hRun.some.le]
  have hPos : 0 < (z - i) * unit.bytes :=
    Nat.mul_pos (Nat.sub_pos_of_lt hRun.some) unit.pos
  have hAhead := Nat.mul_le_mul_right unit.bytes hRun.behind
  generalize hInfo : (⟨e.offset + i * unit.bytes,
    (z - i) * unit.bytes, none⟩ : Entry) = info
  have hExtent : ∀ b, info.Holds unit b ↔
      e.offset + i * unit.bytes ≤ b ∧
        b < e.offset + z * unit.bytes := by
    intro b
    rw [← hInfo, holds_extent rfl]
    dsimp only
    omega
  have hApart : ∀ x ∈ ctl.entries, Apart unit info x := by
    intro x hX b hHolds
    obtain ⟨hLow, hHigh⟩ := (hExtent b).mp hHolds
    refine hAt.apart x hX b ?_
      (hRun.holds hAt.bitmap hLow hHigh)
    rw [hAt.place]
    omega
  have hOkInfo : info.Ok unit := by
    rw [← hInfo]
    refine ⟨?_, fun _ => hPos⟩
    change e.offset + i * unit.bytes +
      (z - i) * unit.bytes < 2 ^ 64
    omega
  have hFine := fine_cons.mpr ⟨hOkInfo, hApart, hAt.ok.fine⟩
  rw [← hInfo] at hFine
  obtain ⟨more, hAdd, hMore, hKept⟩ :=
    addFreeSpace_spec bitmapFirst hAt.ok hFine
  rw [hInfo] at hKept
  refine ⟨more, hAdd, ?_⟩
  -- a byte of the bitmap is in the run, or behind it
  have hParts : ∀ b, e.Holds unit b ∧ offset ≤ b ↔
      info.Holds unit b ∨
        e.Holds unit b ∧ e.offset + z * unit.bytes ≤ b := by
    intro b
    rw [hExtent, hAt.place]
    constructor
    · rintro ⟨hHolds, hLow⟩
      have hBehind := hRun.rest hAt.bitmap hHolds hLow
      rcases Nat.lt_or_ge b (e.offset + z * unit.bytes) with
        hIn | hOut
      · exact .inl ⟨hBehind, hIn⟩
      · exact .inr ⟨hHolds, hOut⟩
    · rintro (⟨hLow, hHigh⟩ | ⟨hHolds, hLow⟩)
      · exact ⟨hRun.holds hAt.bitmap hLow hHigh, by omega⟩
      · exact ⟨hHolds, by omega⟩
  have hFree : ∀ b,
      Holding unit more.entries b ∨
          e.Holds unit b ∧ e.offset + z * unit.bytes ≤ b ↔
        (Merge.bits ctl e offset).Free unit b := by
    intro b
    change _ ↔ Holding unit ctl.entries b ∨ _
    rw [hKept.holding, holding_cons, hParts, or_assoc]
    exact or_left_comm
  have hLength := hKept.length
  rw [List.length_cons] at hLength
  have hBitmaps : bitmaps more.entries = bitmaps ctl.entries := by
    rw [hKept.bitmaps, ← hInfo]
    exact List.countP_cons_of_neg (by simp)
  have hK : (offset - e.offset) / unit.bytes = k := by
    rw [hAt.place, Nat.add_sub_cancel_left,
      Nat.mul_div_cancel _ unit.pos]
  have hOrder := hRun.behind
  have hSome := hRun.some
  have hInside := hRun.inside
  split
  case isTrue hLast =>
    refine ⟨hMore, ?_, fun b => ?_⟩
    · unfold Merge.rank
      dsimp only
      rw [hBitmaps, hK]
      omega
    · rw [← hFree]
      refine (or_iff_left ?_).symm
      rintro ⟨hHolds, hLow⟩
      obtain ⟨hStart, hIn, -⟩ :=
        (holds_bitmap hAt.bitmap).mp hHolds
      rw [bit_lt_iff hStart, ← hLast] at hIn
      omega
  case isFalse hNot =>
    refine ⟨⟨z, hMore, hAt.entry, hAt.bitmap, rfl, hInside, ?_⟩,
      ?_, hFree⟩
    · intro x hX b hLow hHolds hAlso
      have hThere : Holding unit more.entries b :=
        ⟨x, hX, hAlso⟩
      rw [hKept.holding, holding_cons] at hThere
      rcases hThere with hIn | ⟨y, hY, hOld⟩
      · have hHigh := ((hExtent b).mp hIn).2
        omega
      · refine hAt.apart y hY b ?_ hHolds hOld
        rw [hAt.place]
        omega
    · unfold Merge.rank
      dsimp only
      rw [hBitmaps, hK, Nat.add_sub_cancel_left,
        Nat.mul_div_cancel _ unit.pos]
      omega

variable (bitmapFirst) in
/- Every turn goes on, or ends with extents and gaps. -/
theorem mergeBody_turn
    {a : Merge}
    (hGoing : Going unit a) :
    TurnOk unit a (mergeBody bitmapFirst unit a) := by
  cases a with
  | again ctl =>
      have hOk : ctl.Ok unit := hGoing
      have hScan := scanTree_spec none ctl.entries (by simp)
        hOk.sorted hOk.fine
      unfold mergeBody
      dsimp only
      cases hFound : scanTree none ctl.entries with
      | clean =>
          rw [hFound] at hScan
          exact ⟨ctl, rfl, rfl, hScan.1, hScan.2⟩
      | bitmap e =>
          rw [hFound] at hScan
          exact turn_bitmap hOk hScan.1 hScan.2
      | pair p e =>
          rw [hFound] at hScan
          obtain ⟨hP, hE, hOther, hFirst, hSecond, hNext⟩ :=
            hScan
          obtain ⟨more, hLink, hTurn⟩ := turn_pair hOk hP hE
            hOther hFirst hSecond hNext
          dsimp only
          rw [hLink]
          exact hTurn
  | bits ctl e offset =>
      obtain ⟨k, hAt⟩ := hGoing
      have hFound := searchBitmap_spec hAt.entry hAt.bitmap
        hAt.inside
      unfold mergeBody
      dsimp only
      rw [← hAt.place] at hFound
      cases hSearch : searchBitmap unit e offset with
      | none =>
          rw [hSearch] at hFound
          exact turn_end hAt hFound
      | some found =>
          obtain ⟨start, bytes⟩ := found
          rw [hSearch] at hFound
          obtain ⟨i, z, hRun, rfl, rfl⟩ := hFound
          obtain ⟨more, hAdd, hTurn⟩ :=
            turn_run bitmapFirst hAt hRun
          have hFits := hAt.entry.bitmap hAt.bitmap
          have hTop :=
            Nat.mul_le_mul_right unit.bytes hRun.inside
          have hEnd : e.offset + i * unit.bytes +
              (z - i) * unit.bytes =
                e.offset + z * unit.bytes := by
            rw [Nat.add_assoc, ← Nat.add_mul,
              Nat.add_sub_cancel' hRun.some.le]
          have hLast :
              e.offset + BITS_PER_BITMAP * unit.bytes ≤
                  e.offset + z * unit.bytes ↔
                z = BITS_PER_BITMAP := by
            rw [Nat.add_le_add_iff_left,
              Nat.mul_le_mul_right_iff unit.pos]
            exact ⟨hRun.inside.antisymm, fun h => h.ge⟩
          dsimp only
          rw [hAdd]
          dsimp only
          rw [hEnd, Nat.mod_eq_of_lt hFits,
            Nat.mod_eq_of_lt (hFits.trans_le' (by omega))]
          simp only [hLast]
          split
          case isTrue hWhole =>
            rw [if_pos hWhole] at hTurn
            exact hTurn
          case isFalse hNot =>
            rw [if_neg hNot] at hTurn
            exact hTurn

----------
-- The Whole Run
----------

/- Extents with gaps between them have room in 64 bits. -/
theorem sum_lt
    (start : Nat)
    (hFits : ∀ e ∈ entries, e.offset + e.bytes < 2 ^ 64)
    (hGaps : entries.Pairwise Gap)
    (hStart : start < 2 ^ 64)
    (hBehind : ∀ e ∈ entries, start ≤ e.offset) :
    start + (entries.map Entry.bytes).sum < 2 ^ 64 := by
  induction entries generalizing start with
  | nil => exact hStart
  | cons e rest ih =>
      obtain ⟨hHere, hRest⟩ := List.pairwise_cons.mp hGaps
      have hTail := ih (e.offset + e.bytes)
        (fun x hX => hFits x (List.mem_cons_of_mem _ hX)) hRest
        (hFits e List.mem_cons_self)
        fun x hX => (hHere x hX).le
      have hLow := hBehind e List.mem_cons_self
      rw [List.map_cons, List.sum_cons]
      omega

variable (unit) in
/-
  A tree that has been merged: extents that are not empty, in
  order, with gaps between them, and counters to match; free
  are the same bytes.
-/
structure Merged
    (ctl more : Ctl) : Prop where
  extents : ∀ e ∈ more.entries, e.bitmap = none ∧ 0 < e.bytes
  gaps : more.entries.Pairwise Gap
  free :
    ∀ b, Holding unit more.entries b ↔ Holding unit ctl.entries b
  space : more.freeSpace = (more.entries.map Entry.bytes).sum
  count : more.freeExtents = more.entries.length

variable (unit bitmapFirst) in
/- `merge_space_tree`, for at most some turns. -/
def mergeSpaceTree
    (fuel : Nat)
    (ctl : Ctl) : Option (Except Fault Ctl) :=
  Loop.run (mergeBody bitmapFirst unit) fuel (.again ctl)

theorem merged_of_gaps
    (hOk : more.Ok unit)
    (hExtents : ∀ e ∈ more.entries, e.bitmap = none)
    (hGaps : more.entries.Pairwise Gap)
    (hFree : ∀ b, Holding unit more.entries b ↔
      Holding unit ctl.entries b) :
    Merged unit ctl more := by
  have hEntry := fun e hE =>
    (hOk.fine.ok e hE).extent (hExtents e hE)
  have hSum := sum_lt 0 (fun e hE => (hEntry e hE).1) hGaps (by decide)
    fun _ _ => Nat.zero_le _
  rw [Nat.zero_add] at hSum
  exact ⟨fun e hE => ⟨hExtents e hE, (hEntry e hE).2⟩, hGaps,
    hFree, hOk.space.trans (Nat.mod_eq_of_lt hSum), hOk.extents⟩

/-
  With enough turns the tree is merged, whatever shape it has:
  no call ends with `BUG_ON`, and no freed entry is used.
-/
theorem mergeSpaceTree_normalises
    (unit : SectorSize)
    (bitmapFirst : List Entry → Nat → Bool)
    {ctl : Ctl}
    (hOk : ctl.Ok unit) :
    ∃ enough, ∀ fuel, enough ≤ fuel →
      ∃ more,
        mergeSpaceTree unit bitmapFirst fuel ctl =
            some (.ok more) ∧
          Merged unit ctl more := by
  let result (a : Merge) (w : Except Fault Ctl) : Prop :=
    ∃ more, w = .ok more ∧ more.Ok unit ∧
      (∀ e ∈ more.entries, e.bitmap = none) ∧
      more.entries.Pairwise Gap ∧
      ∀ b, Holding unit more.entries b ↔ a.Free unit b
  have hEnds : Loop.Ends (mergeBody bitmapFirst unit)
      (result (.again ctl)) (.again ctl) := by
    refine Loop.ends_of_rank (P := Going unit) (R := result)
      (Merge.rank unit) ?_ ?_ hOk
    · intro a next hGoing hBody
      have hTurn := mergeBody_turn bitmapFirst hGoing
      rw [hBody] at hTurn
      obtain ⟨hNext, hLess, hFree⟩ := hTurn
      refine ⟨hNext, hLess, ?_⟩
      rintro w ⟨more, hDone, hMore, hExtents, hGaps, hSame⟩
      exact ⟨more, hDone, hMore, hExtents, hGaps, fun b =>
        (hSame b).trans (hFree b)⟩
    · intro a w hGoing hBody
      have hTurn := mergeBody_turn bitmapFirst hGoing
      rw [hBody] at hTurn
      obtain ⟨more, hDone, rfl, hExtents, hGaps⟩ := hTurn
      exact ⟨more, hDone, hGoing, hExtents, hGaps, fun _ =>
        Iff.rfl⟩
  obtain ⟨enough, w, hRun, more, rfl, hMore, hExtents, hGaps,
    hFree⟩ := hEnds
  refine ⟨enough, fun fuel hFuel => ⟨more,
    Loop.run_mono hRun hFuel, ?_⟩⟩
  exact merged_of_gaps hMore hExtents hGaps hFree

----------
-- An Extent and a Bitmap
----------

def pageSectors : SectorSize :=
  ⟨4096, by decide, by decide⟩

/- A bitmap whose first two bits go on from an extent. -/
def bitmapBehind : Ctl :=
  ⟨[⟨0, 4096, none⟩, ⟨4096, 8192, some [3]⟩], 12288, 2, 1⟩

theorem bitmapBehind_ok : bitmapBehind.Ok pageSectors := by
  refine ⟨?_, ⟨?_, ?_⟩, by decide, rfl⟩
  · refine List.pairwise_pair.mpr (.inl ?_)
    decide
  · intro e hE
    rcases List.mem_pair.mp hE with rfl | rfl
    · exact ⟨by decide, fun _ => by decide⟩
    · exact ⟨by decide, fun h => by cases h⟩
  · refine List.pairwise_pair.mpr fun b hFirst hSecond => ?_
    have hHigh : b < 0 + 4096 := ((holds_extent rfl).mp hFirst).2
    have hLow : 4096 ≤ b := ((holds_bitmap rfl).mp hSecond).1
    omega

theorem mergeSpaceTree_normalises_bitmap :
    ∃ enough, ∀ fuel, enough ≤ fuel →
      ∃ more,
        mergeSpaceTree pageSectors (fun _ _ => true) fuel
            bitmapBehind = some (.ok more) ∧
          Merged pageSectors bitmapBehind more :=
  mergeSpaceTree_normalises pageSectors (fun _ _ => true)
    bitmapBehind_ok

end FreeSpaceCache

end BtrfsProgs
