import BtrfsProgs.Key

/-
  How `delete_duplicate_records` chooses the record that it
  keeps, and what it deletes for it.

  Main declarations:
    * `findGood` and `deleteRecords`
    * `deleteDuplicateRecords`
    * `Safe` and `Lapped`
    * `deleteDuplicateRecords_safe_iff`
-/

----------
-- The Repair
----------

namespace BtrfsProgs

namespace Check

namespace Duplicates

def EXTENT_ITEM_KEY : Nat := 168

def EINVAL : Int := 22

/- An extent record, less its lists. -/
structure ExtentRecord where
  start : Nat
  nr : Nat
  found_rec : Nat
  metadata : Bool
  num_duplicates : Nat
deriving DecidableEq

/- The key of the item of a record. -/
def ExtentRecord.key
    (rec : ExtentRecord) : Key :=
  ⟨rec.start, EXTENT_ITEM_KEY, rec.nr⟩

/- A sum of two values of 64 bits. -/
def sum
    (a b : Nat) : Nat :=
  (a + b) % 2 ^ 64

/-
  The pass over the duplicates, which come with their places:
  the good record and its place, none for `rec`; nothing at
  all where it aborts.
-/
def findGood
    (good : ExtentRecord)
    (place : Option Nat) :
    List (ExtentRecord × Nat) →
      Option (ExtentRecord × Option Nat)
  | [] => some (good, place)
  | (tmp, i) :: rest =>
      if good.start < tmp.start then findGood good place rest
      else if good.nr > tmp.nr then findGood good place rest
      else if sum tmp.start tmp.nr < sum good.start good.nr then
        none
      else findGood tmp (some i) rest

/- What is put on the list, with `rec` in front. -/
def deleteList
    (rec : ExtentRecord)
    (dups : List ExtentRecord) :
    Option Nat → List ExtentRecord
  | none => dups
  | some i => rec :: dups.eraseIdx i

/-
  What a search for a key and a deletion there return, after
  the deletion of some items.
-/
structure ExtentTree where
  searchSlot : List Key → Key → Int
  delItem : List Key → Key → Int

/-
  What comes of a call: the record that is kept, those that
  are dropped for it, the deleted ones of them, and what is
  returned, with the number of duplicates of `rec`; none is
  returned after `abort`.
-/
structure Outcome where
  kept : Option ExtentRecord
  dropped : List ExtentRecord
  deleted : List ExtentRecord
  ret : Option (Int × Nat)

/- The deletion of what is on the list, after some others. -/
def deleteRecords
    (tree : ExtentTree) :
    List ExtentRecord → List ExtentRecord →
      Option Int × List ExtentRecord
  | [], deleted => (some 0, deleted)
  | tmp :: rest, deleted =>
      if tmp.found_rec = 0 then deleteRecords tree rest deleted
      else if tmp.metadata then (none, deleted)
      else
        let keys := deleted.map ExtentRecord.key
        let found := tree.searchSlot keys tmp.key
        if found ≠ 0 then
          (some (if found > 0 then - EINVAL else found), deleted)
        else
          let ret := tree.delItem keys tmp.key
          if ret ≠ 0 then (some ret, deleted)
          else deleteRecords tree rest (deleted ++ [tmp])

/- The return value, and what `rec` has then. -/
def returned
    (rec : ExtentRecord)
    (ret : Int)
    (nr_del : Nat) : Int × Nat :=
  (if ret ≠ 0 then ret else nr_del,
    if ret = 0 ∧ nr_del = 0 then 0 else rec.num_duplicates)

def deleteDuplicateRecords
    (tree : ExtentTree)
    (rec : ExtentRecord)
    (dups : List ExtentRecord) : Outcome :=
  match findGood rec none dups.zipIdx with
  | none => ⟨none, [], [], none⟩
  | some (good, place) =>
      let dropped := deleteList rec dups place
      let (ret, deleted) := deleteRecords tree dropped []
      ⟨some good, dropped, deleted,
        ret.map (returned rec · deleted.length)⟩

----------
-- Cover
----------

def ExtentRecord.Covers
    (a b : ExtentRecord) : Prop :=
  a.start ≤ b.start ∧ b.start + b.nr ≤ a.start + a.nr

instance
    (a b : ExtentRecord) : Decidable (a.Covers b) :=
  inferInstanceAs (Decidable (_ ∧ _))

/- What is kept covers all that is dropped. -/
def Outcome.Covered
    (o : Outcome) : Prop :=
  ∃ good ∈ o.kept, ∀ r ∈ o.dropped, good.Covers r

/- An error is returned. -/
def Outcome.Fails
    (o : Outcome) : Prop :=
  ∃ r ∈ o.ret, r.1 < 0

/-
  Something is deleted only for a record that covers all that
  is dropped; where there is none, an error is returned.
-/
def Safe
    (o : Outcome) : Prop :=
  (o.deleted ≠ [] → o.Covered) ∧
    (¬ o.Covered → o.Fails ∧ o.deleted = [])

/- A duplicate takes the place of a record. -/
def Takes
    (good tmp : ExtentRecord) : Prop :=
  tmp.start ≤ good.start ∧ good.nr ≤ tmp.nr

instance
    (good tmp : ExtentRecord) : Decidable (Takes good tmp) :=
  inferInstanceAs (Decidable (_ ∧ _))

/-
  From a record on, some duplicate that takes the place of the
  last one that did ends before it.
-/
def Lapped
    (good : ExtentRecord) : List ExtentRecord → Prop
  | [] => False
  | tmp :: rest =>
      if Takes good tmp then
        sum tmp.start tmp.nr < sum good.start good.nr ∨
          Lapped tmp rest
      else Lapped good rest

section Cover

variable {rec good big : ExtentRecord}
variable {dups rest : List ExtentRecord}
variable {place : Option Nat} {n : Nat}

theorem ExtentRecord.Covers.refl
    (r : ExtentRecord) :
    r.Covers r :=
  ⟨Nat.le_refl _, Nat.le_refl _⟩

theorem ExtentRecord.Covers.trans
    {a b c : ExtentRecord}
    (hFirst : a.Covers b)
    (hSecond : b.Covers c) :
    a.Covers c :=
  ⟨hFirst.1.trans hSecond.1, hSecond.2.trans hFirst.2⟩

theorem ExtentRecord.Covers.takes
    (hCovers : big.Covers good) :
    Takes good big := by
  obtain ⟨hStart, hEnd⟩ := hCovers
  exact ⟨hStart, by omega⟩

/- A turn of the pass, with its two tests taken as one. -/
theorem findGood_cons
    (tmp : ExtentRecord)
    (i : Nat)
    (more : List (ExtentRecord × Nat)) :
    findGood good place ((tmp, i) :: more) =
      if Takes good tmp then
        if sum tmp.start tmp.nr < sum good.start good.nr then
          none
        else findGood tmp (some i) more
      else findGood good place more := by
  rw [findGood]
  by_cases hStart : good.start < tmp.start
  · have hNot : ¬ Takes good tmp := fun h =>
      absurd h.1 (Nat.not_le_of_lt hStart)
    rw [if_pos hStart, if_neg hNot]
  rw [if_neg hStart]
  by_cases hNr : good.nr > tmp.nr
  · have hNot : ¬ Takes good tmp := fun h =>
      absurd h.2 (Nat.not_le_of_lt hNr)
    rw [if_pos hNr, if_neg hNot]
  · have hTakes : Takes good tmp :=
      ⟨Nat.le_of_not_lt hStart, Nat.le_of_not_lt hNr⟩
    rw [if_neg hNr, if_pos hTakes]

theorem findGood_eq_none_iff :
    findGood good place (dups.zipIdx n) = none ↔
      Lapped good dups := by
  induction dups generalizing good place n with
  | nil => simp [findGood, Lapped]
  | cons tmp rest ih =>
      rw [List.zipIdx_cons, findGood_cons]
      unfold Lapped
      by_cases hTakes : Takes good tmp
      · rw [if_pos hTakes, if_pos hTakes]
        by_cases hEnds : sum tmp.start tmp.nr <
            sum good.start good.nr
        · rw [if_pos hEnds]
          exact iff_of_true rfl (.inl hEnds)
        · rw [if_neg hEnds, or_iff_right hEnds]
          exact ih
      · rw [if_neg hTakes, if_neg hTakes]
        exact ih

/- The good record comes from its place. -/
theorem findGood_place
    {p : Option Nat}
    (hFound : findGood rec place (dups.zipIdx n) =
      some (good, p)) :
    p = place ∧ good = rec ∨
      ∃ i, p = some (n + i) ∧ dups[i]? = some good := by
  induction dups generalizing rec place n with
  | nil =>
      rw [List.zipIdx_nil, findGood, Option.some.injEq,
        Prod.mk.injEq] at hFound
      exact .inl ⟨hFound.2.symm, hFound.1.symm⟩
  | cons tmp rest ih =>
      have hLater : ∀ i, rest[i]? = some good →
          (tmp :: rest)[i + 1]? = some good := fun _ h => h
      rw [List.zipIdx_cons, findGood_cons] at hFound
      split at hFound
      · split at hFound
        · cases hFound
        rcases ih hFound with ⟨rfl, rfl⟩ | ⟨i, rfl, hI⟩
        · exact .inr ⟨0, rfl, rfl⟩
        · exact .inr ⟨i + 1, by congr 1; omega, hLater i hI⟩
      · rcases ih hFound with hHere | ⟨i, rfl, hI⟩
        · exact .inl hHere
        · exact .inr ⟨i + 1, by congr 1; omega, hLater i hI⟩

/-
  Where one record covers all, one with its range is good in
  the end: nothing but another such one takes its place.
-/
theorem findGood_covers
    {p : Option Nat}
    (hFound : findGood rec place (dups.zipIdx n) =
      some (good, p))
    (hBig : rec.Covers big ∨ ∃ d ∈ dups, d.Covers big)
    (hRec : big.Covers rec)
    (hDups : ∀ d ∈ dups, big.Covers d) :
    good.Covers big := by
  induction dups generalizing rec place n with
  | nil =>
      rw [List.zipIdx_nil, findGood, Option.some.injEq,
        Prod.mk.injEq] at hFound
      rw [← hFound.1]
      exact hBig.resolve_right (by simp)
  | cons tmp rest ih =>
      have hTmp := hDups tmp List.mem_cons_self
      have hRest : ∀ d ∈ rest, big.Covers d := fun d hD =>
        hDups d (List.mem_cons_of_mem _ hD)
      rw [List.zipIdx_cons, findGood_cons] at hFound
      split at hFound
      case isTrue hTakes =>
        split at hFound
        · cases hFound
        refine ih hFound ?_ hTmp hRest
        rcases hBig with hBig | ⟨d, hD, hBig⟩
        · -- it has the same range
          obtain ⟨hStart, hNr⟩ := hTakes
          unfold ExtentRecord.Covers at hBig hRec hTmp ⊢
          left
          omega
        · rcases List.mem_cons.mp hD with rfl | hD
          · exact .inl hBig
          · exact .inr ⟨d, hD, hBig⟩
      case isFalse hNot =>
        refine ih hFound ?_ hRec hRest
        rcases hBig with hBig | ⟨d, hD, hBig⟩
        · exact .inl hBig
        rcases List.mem_cons.mp hD with rfl | hD
        · exact absurd (hBig.trans hRec).takes hNot
        · exact .inr ⟨d, hD, hBig⟩

/- All but the good record are on the list. -/
theorem deleteList_perm
    {p : Option Nat}
    (hFound : findGood rec none dups.zipIdx =
      some (good, p)) :
    (rec :: dups).Perm (good :: deleteList rec dups p) := by
  rcases findGood_place hFound with
    ⟨rfl, rfl⟩ | ⟨i, rfl, hI⟩
  · exact .refl _
  · obtain ⟨hLess, hGood⟩ := List.getElem?_eq_some_iff.mp hI
    rw [Nat.zero_add]
    unfold deleteList
    refine (List.Perm.cons rec ?_).trans (.swap good rec _)
    rw [← hGood]
    exact (List.getElem_cons_eraseIdx_perm hLess).symm

----------
-- Deletions
----------

/- An extent tree in which every item is found and deleted. -/
def ExtentTree.sound : ExtentTree where
  searchSlot := fun _ _ => 0
  delItem := fun _ _ => 0

theorem deleteRecords_sound
    (records deleted : List ExtentRecord) :
    (deleteRecords .sound records deleted).1 = none ∨
      (deleteRecords .sound records deleted).1 = some 0 := by
  induction records generalizing deleted with
  | nil => exact .inr rfl
  | cons tmp rest ih =>
      unfold deleteRecords
      split
      · exact ih deleted
      split
      · exact .inl rfl
      · exact ih (deleted ++ [tmp])

/- Then no error is returned. -/
theorem deleteDuplicateRecords_sound
    (rec : ExtentRecord)
    (dups : List ExtentRecord) :
    ¬ (deleteDuplicateRecords .sound rec dups).Fails := by
  rintro ⟨⟨ret, left⟩, hRet, hError⟩
  unfold deleteDuplicateRecords at hRet
  split at hRet
  · cases hRet
  case h_2 good place _ =>
    dsimp only at hRet
    rcases deleteRecords_sound (deleteList rec dups place) []
      with hNone | hZero
    · rw [hNone] at hRet
      cases hRet
    · rw [hZero] at hRet
      obtain ⟨rfl, -⟩ := Prod.mk.inj (Option.some.inj hRet)
      simp at hError
      omega

/- The coverage does not depend on the extent tree. -/
theorem covered_iff
    (tree : ExtentTree) :
    (deleteDuplicateRecords tree rec dups).Covered ↔
      ∃ good p,
        findGood rec none dups.zipIdx = some (good, p) ∧
          ∀ r ∈ deleteList rec dups p, good.Covers r := by
  unfold deleteDuplicateRecords Outcome.Covered
  rcases findGood rec none dups.zipIdx with _ | ⟨good, p⟩
  · simp
  · constructor
    · rintro ⟨_, ⟨rfl⟩, hAll⟩
      exact ⟨_, p, rfl, hAll⟩
    · rintro ⟨_, _, ⟨rfl⟩, hAll⟩
      exact ⟨good, rfl, hAll⟩

/- The call is safe, whatever is in the tree, if it covers. -/
theorem safe_iff_covered :
    (∀ tree, Safe (deleteDuplicateRecords tree rec dups)) ↔
      ∃ good p,
        findGood rec none dups.zipIdx = some (good, p) ∧
          ∀ r ∈ deleteList rec dups p, good.Covers r := by
  constructor
  · intro hSafe
    rw [← covered_iff .sound]
    by_contra hNot
    exact deleteDuplicateRecords_sound rec dups
      ((hSafe .sound).2 hNot).1
  · intro hAll tree
    have hCovered := (covered_iff tree).mpr hAll
    exact ⟨fun _ => hCovered, fun h => absurd hCovered h⟩

/-
  Nothing is dropped that is not covered exactly if one of the
  records covers all, and none that takes the place of another
  ends before it.
-/
theorem deleteDuplicateRecords_safe_iff
    (rec : ExtentRecord)
    (dups : List ExtentRecord) :
    (∀ tree, Safe (deleteDuplicateRecords tree rec dups)) ↔
      (∃ big ∈ rec :: dups, ∀ r ∈ rec :: dups,
        big.Covers r) ∧ ¬ Lapped rec dups := by
  rw [safe_iff_covered]
  constructor
  · rintro ⟨good, p, hFound, hAll⟩
    have hPerm := deleteList_perm hFound
    refine ⟨⟨good, hPerm.mem_iff.mpr List.mem_cons_self,
      fun r hR => ?_⟩, fun hLapped => ?_⟩
    · rcases List.mem_cons.mp (hPerm.mem_iff.mp hR) with
        rfl | hR
      · exact .refl r
      · exact hAll r hR
    · have hNone : findGood rec none dups.zipIdx = none :=
        findGood_eq_none_iff.mpr hLapped
      rw [hNone] at hFound
      cases hFound
  · rintro ⟨⟨big, hMem, hBig⟩, hNot⟩
    rcases hFound : findGood rec none dups.zipIdx with
      _ | ⟨good, p⟩
    · exact absurd (findGood_eq_none_iff.mp hFound) hNot
    refine ⟨good, p, rfl, fun r hR => ?_⟩
    have hSame : rec.Covers big ∨ ∃ d ∈ dups, d.Covers big := by
      rcases List.mem_cons.mp hMem with rfl | hMem
      · exact .inl (.refl big)
      · exact .inr ⟨big, hMem, .refl big⟩
    have hGood := findGood_covers hFound hSame
      (hBig rec List.mem_cons_self)
      fun d hD => hBig d (List.mem_cons_of_mem _ hD)
    have hR : r ∈ rec :: dups :=
      (deleteList_perm hFound).mem_iff.mpr
        (List.mem_cons_of_mem _ hR)
    exact hGood.trans (hBig r hR)

end Cover

----------
-- A Longer Duplicate
----------

/- A record of ten bytes, and one that goes on behind it. -/
def shortRecord : ExtentRecord :=
  ⟨100, 10, 1, false, 1⟩

def longerRecord : ExtentRecord :=
  ⟨105, 100, 1, false, 0⟩

/- The longer one is deleted, and is not covered. -/
theorem deleteDuplicateRecords_uncovered :
    ∃ tree,
      (deleteDuplicateRecords tree shortRecord
          [longerRecord]).deleted = [longerRecord] ∧
        (deleteDuplicateRecords tree shortRecord
            [longerRecord]).kept = some shortRecord ∧
          ¬ Safe (deleteDuplicateRecords tree shortRecord
            [longerRecord]) := by
  have hDeleted : (deleteDuplicateRecords .sound shortRecord
      [longerRecord]).deleted = [longerRecord] := rfl
  refine ⟨.sound, hDeleted, rfl, fun hSafe => ?_⟩
  have hSome : (deleteDuplicateRecords .sound shortRecord
      [longerRecord]).deleted ≠ [] := by
    rw [hDeleted]
    simp
  obtain ⟨_, ⟨rfl⟩, hAll⟩ := hSafe.1 hSome
  exact absurd (hAll longerRecord List.mem_cons_self)
    (by decide)

end Duplicates

end Check

end BtrfsProgs
