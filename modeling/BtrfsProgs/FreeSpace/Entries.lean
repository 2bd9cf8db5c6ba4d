import BtrfsProgs.FreeSpace.Tree

/-
  The bytes that the entries of the tree of free space hold,
  and what linking and unlinking entries keeps.

  Main declarations:
    * `Entry.Holds` and `Holding`
    * `Fine` and `Fine.join`
    * `Ctl.Ok`, `Ctl.Ok.unlink` and `Ctl.Ok.link`
    * `Kept`
-/

----------
-- Bytes of an Entry
----------

namespace BtrfsProgs

namespace FreeSpaceCache

variable (unit : SectorSize)

/- The byte is free by an extent, or by a bit of a bitmap. -/
def Entry.Holds
    (e : Entry)
    (b : Nat) : Prop :=
  match e.bitmap with
  | none => e.offset ≤ b ∧ b < e.offset + e.bytes
  | some _ =>
      e.offset ≤ b ∧
        (b - e.offset) / unit.bytes < BITS_PER_BITMAP ∧
        bitAt e ((b - e.offset) / unit.bytes) = true

/- The bytes that an entry may be about. -/
def Entry.size
    (e : Entry) : Nat :=
  match e.bitmap with
  | none => e.bytes
  | some _ => BITS_PER_BITMAP * unit.bytes

/- It ends at an offset of 64 bits; an extent is not empty. -/
structure Entry.Ok
    (e : Entry) : Prop where
  fits : e.offset + e.size unit < 2 ^ 64
  some : e.bitmap = none → 0 < e.bytes

/- No byte is in both. -/
def Apart
    (e x : Entry) : Prop :=
  ∀ b, e.Holds unit b → ¬ x.Holds unit b

/- The byte is free. -/
def Holding
    (entries : List Entry)
    (b : Nat) : Prop :=
  ∃ e ∈ entries, e.Holds unit b

/- Entries that are in order, no two over a byte. -/
structure Fine
    (entries : List Entry) : Prop where
  ok : ∀ e ∈ entries, e.Ok unit
  apart : entries.Pairwise (Apart unit)

variable {unit : SectorSize}
variable {e x a c : Entry} {b : Nat}
variable {entries rest old new : List Entry}

theorem holds_extent
    (hExtent : e.bitmap = none) :
    e.Holds unit b ↔ e.offset ≤ b ∧ b < e.offset + e.bytes := by
  unfold Entry.Holds
  rw [hExtent]

theorem holds_bitmap
    (hBitmap : e.bitmap.isSome) :
    e.Holds unit b ↔
      e.offset ≤ b ∧
        (b - e.offset) / unit.bytes < BITS_PER_BITMAP ∧
        bitAt e ((b - e.offset) / unit.bytes) = true := by
  obtain ⟨bits, hBits⟩ := Option.isSome_iff_exists.mp hBitmap
  unfold Entry.Holds
  rw [hBits]

theorem Entry.Ok.extent
    (hOk : e.Ok unit)
    (hExtent : e.bitmap = none) :
    e.offset + e.bytes < 2 ^ 64 ∧ 0 < e.bytes := by
  have hFits := hOk.fits
  unfold Entry.size at hFits
  rw [hExtent] at hFits
  exact ⟨hFits, hOk.some hExtent⟩

theorem Entry.Ok.bitmap
    (hOk : e.Ok unit)
    (hBitmap : e.bitmap.isSome) :
    e.offset + BITS_PER_BITMAP * unit.bytes < 2 ^ 64 := by
  obtain ⟨bits, hBits⟩ := Option.isSome_iff_exists.mp hBitmap
  have hFits := hOk.fits
  unfold Entry.size at hFits
  rw [hBits] at hFits
  exact hFits

theorem Apart.symm
    (hApart : Apart unit e x) :
    Apart unit x e :=
  fun b hX hE => hApart b hE hX

/- Of extents that are apart the lower one ends first. -/
theorem Apart.le
    (hApart : Apart unit e x)
    (hE : e.bitmap = none)
    (hX : x.bitmap = none)
    (hSome : 0 < x.bytes)
    (hLow : e.offset ≤ x.offset) :
    e.offset + e.bytes ≤ x.offset := by
  by_contra hOver
  refine hApart x.offset ((holds_extent hE).mpr ⟨hLow, ?_⟩)
    ((holds_extent hX).mpr ⟨Nat.le_refl _, ?_⟩)
  · exact Nat.lt_of_not_le hOver
  · omega

/- An extent that holds the end of another starts there. -/
theorem Apart.start
    (hApart : Apart unit e x)
    (hE : e.bitmap = none)
    (hX : x.bitmap = none)
    (hSome : 0 < e.bytes)
    (hHolds : x.Holds unit (e.offset + e.bytes)) :
    x.offset = e.offset + e.bytes := by
  obtain ⟨hLow, hHigh⟩ := (holds_extent hX).mp hHolds
  by_contra hOther
  refine hApart (e.offset + e.bytes - 1)
    ((holds_extent hE).mpr ⟨?_, ?_⟩)
    ((holds_extent hX).mpr ⟨?_, ?_⟩) <;> omega

----------
-- Entries in Any Order
----------

theorem fine_cons :
    Fine unit (e :: rest) ↔
      e.Ok unit ∧ (∀ x ∈ rest, Apart unit e x) ∧
        Fine unit rest := by
  constructor
  · rintro ⟨hOk, hApart⟩
    obtain ⟨hHere, hRest⟩ := List.pairwise_cons.mp hApart
    exact ⟨hOk e List.mem_cons_self, hHere,
      fun x hX => hOk x (List.mem_cons_of_mem _ hX), hRest⟩
  · rintro ⟨hE, hHere, hOk, hRest⟩
    refine ⟨fun x hX => ?_,
      List.pairwise_cons.mpr ⟨hHere, hRest⟩⟩
    rcases List.mem_cons.mp hX with rfl | hX
    · exact hE
    · exact hOk x hX

theorem Fine.perm
    (hFine : Fine unit old)
    (hPerm : old.Perm new) :
    Fine unit new :=
  ⟨fun e he => hFine.ok e (hPerm.mem_iff.mpr he),
    hFine.apart.perm hPerm Apart.symm⟩

theorem Fine.sublist
    (hFine : Fine unit old)
    (hSub : new.Sublist old) :
    Fine unit new :=
  ⟨fun e he => hFine.ok e (hSub.subset he),
    hFine.apart.sublist hSub⟩

theorem holding_cons :
    Holding unit (e :: rest) b ↔
      e.Holds unit b ∨ Holding unit rest b := by
  unfold Holding
  simp only [List.mem_cons, exists_eq_or_imp]

theorem holding_perm
    (hPerm : old.Perm new) :
    Holding unit old b ↔ Holding unit new b := by
  unfold Holding
  simp only [hPerm.mem_iff]

/- How many bitmaps there are. -/
def bitmaps
    (entries : List Entry) : Nat :=
  entries.countP (·.bitmap.isSome)

variable (unit) in
/- The same bytes are free, with as many bitmaps. -/
structure Kept
    (old new : List Entry) : Prop where
  holding : ∀ b, Holding unit new b ↔ Holding unit old b
  bitmaps : bitmaps new = bitmaps old
  length : new.length ≤ old.length

theorem Kept.of_perm
    (hPerm : old.Perm new) :
    Kept unit old new :=
  ⟨fun _ => (holding_perm hPerm).symm,
    (hPerm.countP_eq _).symm, hPerm.length_eq.ge⟩

theorem Kept.trans
    (hFirst : Kept unit old entries)
    (hSecond : Kept unit entries new) :
    Kept unit old new :=
  ⟨fun b => (hSecond.holding b).trans (hFirst.holding b),
    hSecond.bitmaps.trans hFirst.bitmaps,
    hSecond.length.trans hFirst.length⟩

/- An extent and the one behind it as one. -/
def join
    (a c : Entry) : Entry :=
  ⟨a.offset, a.bytes + c.bytes, none⟩

theorem holds_join
    (hA : a.bitmap = none)
    (hC : c.bitmap = none)
    (hEnd : a.offset + a.bytes = c.offset) :
    (join a c).Holds unit b ↔
      a.Holds unit b ∨ c.Holds unit b := by
  rw [holds_extent hA, holds_extent hC, holds_extent rfl]
  unfold join
  dsimp only
  omega

theorem Fine.join
    (hFine : Fine unit (a :: c :: rest))
    (hA : a.bitmap = none)
    (hC : c.bitmap = none)
    (hEnd : a.offset + a.bytes = c.offset) :
    Fine unit (join a c :: rest) ∧
      Kept unit (a :: c :: rest) (join a c :: rest) := by
  obtain ⟨hOkA, hApartA, hFine⟩ := fine_cons.mp hFine
  obtain ⟨hOkC, hApartC, hFine⟩ := fine_cons.mp hFine
  obtain ⟨-, hSome⟩ := hOkA.extent hA
  obtain ⟨hFits, -⟩ := hOkC.extent hC
  have hOk : (FreeSpaceCache.join a c).Ok unit := by
    refine ⟨?_, fun _ => ?_⟩
    · change a.offset + (a.bytes + c.bytes) < 2 ^ 64
      omega
    · change 0 < a.bytes + c.bytes
      omega
  refine ⟨fine_cons.mpr ⟨hOk, ?_, hFine⟩, ?_, ?_, ?_⟩
  · intro x hX b hJoin
    rcases (holds_join hA hC hEnd).mp hJoin with hHolds | hHolds
    · exact hApartA x (List.mem_cons_of_mem _ hX) b hHolds
    · exact hApartC x hX b hHolds
  · intro b
    rw [holding_cons, holding_cons, holding_cons,
      holds_join hA hC hEnd, or_assoc]
  · unfold FreeSpaceCache.bitmaps
    rw [List.countP_cons_of_neg (by simp [FreeSpaceCache.join]),
      List.countP_cons_of_neg (by simp [hA]),
      List.countP_cons_of_neg (by simp [hC])]
  · rw [List.length_cons, List.length_cons, List.length_cons]
    omega

----------
-- The Tree
----------

/- The order of the tree, from left to right. -/
def Entry.Above
    (e x : Entry) : Prop :=
  e.offset < x.offset ∨
    e.offset = x.offset ∧ e.bitmap = none ∧ x.bitmap.isSome

theorem Entry.Above.ne
    (hAbove : e.Above x) :
    e ≠ x := by
  rintro rfl
  rcases hAbove with hLess | ⟨-, hNone, hSome⟩
  · exact absurd hLess (Nat.lt_irrefl _)
  · rw [hNone] at hSome
    cases hSome

theorem Entry.Above.le
    (hAbove : e.Above x) :
    e.offset ≤ x.offset := by
  rcases hAbove with hLess | ⟨hSame, -⟩
  · exact Nat.le_of_lt hLess
  · exact hSame.le

theorem Entry.Above.trans
    (hFirst : a.Above e)
    (hSecond : e.Above x) :
    a.Above x := by
  rcases hFirst with hLess | ⟨hSame, hNone, hSome⟩
  · exact .inl (hLess.trans_le hSecond.le)
  rcases hSecond with hLess | ⟨-, hNone', -⟩
  · exact .inl (hSame.trans_lt hLess)
  · rw [hNone'] at hSome
    cases hSome

def Sorted
    (entries : List Entry) : Prop :=
  entries.Pairwise Entry.Above

variable (unit) in
/-
  A control structure as the functions of this file leave it:
  the tree is in order, its entries fit and share no byte, and
  the counters are those of its entries.
-/
structure Ctl.Ok
    (ctl : Ctl) : Prop where
  sorted : Sorted ctl.entries
  fine : Fine unit ctl.entries
  space :
    ctl.freeSpace = (ctl.entries.map Entry.bytes).sum % 2 ^ 64
  extents : ctl.freeExtents = ctl.entries.length

variable {ctl : Ctl}

/- A term is taken from a sum with 64 bits. -/
theorem sub_mod
    (n m : Nat) :
    ((m + n) % 2 ^ 64 + (2 ^ 64 - m % 2 ^ 64)) % 2 ^ 64 =
      n % 2 ^ 64 := by
  omega

theorem Ctl.Ok.unlink
    (hOk : ctl.Ok unit)
    (hMem : x ∈ ctl.entries) :
    (unlinkFreeSpace ctl x).Ok unit := by
  have hPerm := List.perm_cons_erase hMem
  refine ⟨?_, ?_, ?_, ?_⟩
  · exact hOk.sorted.sublist List.erase_sublist
  · exact hOk.fine.sublist List.erase_sublist
  · change (ctl.freeSpace + _) % 2 ^ 64 = _
    rw [hOk.space, (hPerm.map Entry.bytes).sum_eq,
      List.map_cons, List.sum_cons]
    exact sub_mod _ _
  · change ctl.freeExtents - 1 = _
    have hLength := hPerm.length_eq
    rw [List.length_cons] at hLength
    rw [hOk.extents, hLength]
    change ((ctl.entries.erase x).length + 1 : Nat) - (1 : Int) =
      ((ctl.entries.erase x).length : Int)
    omega

theorem before_iff
    (hX : x.bitmap = none) :
    e.Before x ↔ e.offset < x.offset := by
  unfold Entry.Before
  rw [hX]
  simp

/- An extent goes between those before it and the others. -/
theorem treeInsertOffset_spec
    (hSorted : Sorted entries)
    (hX : x.bitmap = none)
    (hNew : ∀ e ∈ entries, ¬ e.SameKey x) :
    ∃ more, treeInsertOffset entries x = some more ∧
      more.Perm (x :: entries) ∧ Sorted more := by
  unfold treeInsertOffset
  rw [if_neg (by simpa using hNew)]
  refine ⟨_, rfl, ?_, ?_⟩
  · refine List.perm_middle.trans ?_
    rw [List.takeWhile_append_dropWhile]
  · induction entries with
    | nil => exact List.pairwise_singleton _ _
    | cons e rest ih =>
        obtain ⟨hFirst, hRest⟩ := List.pairwise_cons.mp hSorted
        have hHere := hNew e List.mem_cons_self
        by_cases hBefore : e.Before x
        · rw [List.takeWhile_cons_of_pos (by simpa using hBefore),
            List.dropWhile_cons_of_pos (by simpa using hBefore)]
          refine List.pairwise_cons.mpr ⟨?_, ih hRest fun y hY =>
            hNew y (List.mem_cons_of_mem _ hY)⟩
          intro y hY
          have hMem := (List.perm_middle.trans (by
            rw [List.takeWhile_append_dropWhile])).mem_iff.mp hY
          rcases List.mem_cons.mp hMem with rfl | hMem
          · exact .inl ((before_iff hX).mp hBefore)
          · exact hFirst y hMem
        · rw [List.takeWhile_cons_of_neg (by simpa using hBefore),
            List.dropWhile_cons_of_neg (by simpa using hBefore)]
          have hAbove : x.Above e := by
            rw [before_iff hX] at hBefore
            rcases (Nat.le_of_not_lt hBefore).lt_or_eq with
              hLess | hSame
            · exact .inl hLess
            · refine .inr ⟨hSame, hX, ?_⟩
              by_contra hNone
              refine hHere ⟨hSame.symm, ?_⟩
              rw [hX]
              simpa using hNone
          refine List.pairwise_cons.mpr ⟨?_, hSorted⟩
          intro y hY
          rcases List.mem_cons.mp hY with rfl | hY
          · exact hAbove
          · exact hAbove.trans (hFirst y hY)

theorem Ctl.Ok.link
    (hOk : ctl.Ok unit)
    (hX : x.bitmap = none)
    (hFine : Fine unit (x :: ctl.entries)) :
    ∃ more, linkFreeSpace ctl x = .ok (some more) ∧
      more.Ok unit ∧ more.entries.Perm (x :: ctl.entries) := by
  obtain ⟨hOkX, hApart, -⟩ := fine_cons.mp hFine
  obtain ⟨-, hSome⟩ := hOkX.extent hX
  have hNew : ∀ e ∈ ctl.entries, ¬ e.SameKey x := by
    rintro e hE ⟨hSame, hKind⟩
    have hExtent : e.bitmap = none := by
      rw [hX] at hKind
      simpa using hKind
    obtain ⟨-, hMore⟩ := (hOk.fine.ok e hE).extent hExtent
    refine hApart e hE x.offset ((holds_extent hX).mpr
      ⟨Nat.le_refl _, by omega⟩)
      ((holds_extent hExtent).mpr ⟨hSame.le, by omega⟩)
  obtain ⟨more, hInsert, hPerm, hSorted⟩ :=
    treeInsertOffset_spec hOk.sorted hX hNew
  unfold linkFreeSpace
  rw [if_neg (fun h => absurd h.2 (Nat.ne_of_gt hSome)), hInsert]
  refine ⟨_, rfl, ⟨hSorted, hFine.perm hPerm.symm, ?_, ?_⟩,
    hPerm⟩
  · dsimp only
    rw [hOk.space, (hPerm.map Entry.bytes).sum_eq,
      List.map_cons, List.sum_cons, Nat.mod_add_mod,
      Nat.add_comm]
  · dsimp only
    rw [hOk.extents, hPerm.length_eq, List.length_cons]
    rfl

end FreeSpaceCache

end BtrfsProgs
