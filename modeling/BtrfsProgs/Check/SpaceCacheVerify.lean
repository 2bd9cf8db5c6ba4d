import BtrfsProgs.Check.SpaceCacheRange
import BtrfsProgs.Volumes.Reverse

/-
  What `verify_space_cache` verifies.

  The loop takes the gaps between the extents out of the
  cache, so the cache is right when every check succeeds and
  nothing is left.  The error of a gap in the middle is lost
  when the tail check succeeds; only a cache that lists the
  whole rest of the group, behind such a gap, has that effect.

  Main declarations:
    * `GroupExtents` and `Required`
    * `verifyFrom_exact`
    * `verifySpaceCache_exact`
-/

----------
-- Free Bytes of a Block Group
----------

namespace BtrfsProgs

namespace Check

open Volumes
open RangeTree

/- An extent of the extent tree holds the byte. -/
def Allocated
    (leafsize : Nat)
    (keys : List ExtentKey)
    (x : Nat) : Prop :=
  ∃ key ∈ keys,
    key.IsExtent ∧ key.objectid ≤ x ∧
      x < key.extentEnd leafsize

instance
    (leafsize : Nat)
    (keys : List ExtentKey)
    (x : Nat) :
    Decidable (Allocated leafsize keys x) := by
  unfold Allocated
  infer_instance

/-
  The keys of an extent tree around a group: in order, with
  extents that are not empty, do not overlap and do not cross
  the first or the last byte that is checked.
-/
structure GroupExtents
    (leafsize first groupEnd : Nat)
    (keys : List ExtentKey) : Prop where
  sorted : keys.Pairwise fun a b => a.objectid ≤ b.objectid
  nonempty :
    ∀ key ∈ keys,
      key.IsExtent → key.objectid < key.extentEnd leafsize
  disjoint :
    keys.Pairwise fun a b =>
      a.IsExtent → b.IsExtent →
        a.extentEnd leafsize ≤ b.objectid
  inside :
    ∀ key ∈ keys,
      key.IsExtent →
        key.extentEnd leafsize ≤ first ∨
          (first ≤ key.objectid ∧
            key.extentEnd leafsize ≤ groupEnd) ∨
          groupEnd ≤ key.objectid

/- The bytes that the cache has to list. -/
def Required
    (leafsize first groupEnd : Nat)
    (keys : List ExtentKey)
    (stripes : List (Nat × Nat))
    (x : Nat) : Prop :=
  first ≤ x ∧ x < groupEnd ∧
    ¬ Allocated leafsize keys x ∧ ¬ Reserved stripes x

/-
  The cache is right up to an extent behind a gap, and from
  there on lists all of the group but superblock stripes.
-/
def ListsRest
    (leafsize first groupEnd : Nat)
    (keys : List ExtentKey)
    (stripes : List (Nat × Nat))
    (ctl : FreeSpaceCtl) : Prop :=
  ∃ key ∈ keys,
    key.IsExtent ∧ first < key.objectid ∧
      key.objectid < groupEnd ∧
      ∀ x, Free ctl x ↔
        (Required leafsize first groupEnd keys stripes x ∧
          x < key.objectid) ∨
        (key.objectid ≤ x ∧ x < groupEnd ∧
          ¬ Reserved stripes x)

theorem allocated_cons_iff
    {leafsize : Nat}
    {key : ExtentKey}
    {keys : List ExtentKey}
    {x : Nat} :
    Allocated leafsize (key :: keys) x ↔
      (key.IsExtent ∧ key.objectid ≤ x ∧
        x < key.extentEnd leafsize) ∨
      Allocated leafsize keys x := by
  unfold Allocated
  simp only [List.mem_cons, exists_eq_or_imp]

theorem Normal.eq_nil_iff
    {ctl : FreeSpaceCtl}
    (hNormal : Normal ctl) :
    ctl = [] ↔ ∀ x, ¬ Free ctl x := by
  constructor
  · rintro rfl x ⟨e, he, _⟩
    cases he
  · intro hNone
    cases ctl with
    | nil => rfl
    | cons e ctl =>
        exfalso
        have hPos := hNormal.nonempty e List.mem_cons_self
        exact hNone e.offset
          ⟨e, List.mem_cons_self, le_rfl, by omega⟩

----------
-- The Loop
----------

/- The end of `verify_space_cache`, after its loop. -/
def verifyEnd
    (check :
      Nat → Nat → FreeSpaceCtl → Option Errno × FreeSpaceCtl)
    (groupEnd : Nat) :
    Option Errno × Nat × FreeSpaceCtl → Option Errno
  | (ret, last, ctl) =>
      let (ret, ctl) :=
        if last < groupEnd then
          check last (groupEnd - last) ctl
        else
          (ret, ctl)
      match ret with
      | some e => some e
      | none => if ctl = [] then none else some .einval

/-
  The loop has stopped at a gap that is refused, and the tail
  check then succeeds: its result replaces the error.
-/
def Overwritten
    (check :
      Nat → Nat → FreeSpaceCtl → Option Errno × FreeSpaceCtl)
    (groupEnd : Nat)
    (loop : Option Errno × Nat × FreeSpaceCtl) : Prop :=
  loop.1 ≠ none ∧ loop.2.1 < groupEnd ∧
    (check loop.2.1 (groupEnd - loop.2.1) loop.2.2).1 = none

/- The error of a gap is overwritten in `verify_space_cache`. -/
def RetOverwritten
    (mapTree : List MapLookup)
    (leafsize : Nat)
    (keys : List ExtentKey)
    (groupStart groupSize : Nat)
    (ctl : FreeSpaceCtl) : Prop :=
  let check := checkCacheRange (superStripes mapTree groupStart)
  let first := max groupStart SUPER_INFO_OFFSET
  Overwritten check (groupStart + groupSize)
    (verifyLoop check leafsize (groupStart + groupSize)
      (keys.dropWhile fun key => key.Before first) first ctl)

instance
    (mapTree : List MapLookup)
    (leafsize : Nat)
    (keys : List ExtentKey)
    (groupStart groupSize : Nat)
    (ctl : FreeSpaceCtl) :
    Decidable (RetOverwritten mapTree leafsize keys groupStart
      groupSize ctl) :=
  inferInstanceAs (Decidable (_ ∧ _ ∧ _))

theorem verifySpaceCache_eq
    (mapTree : List MapLookup)
    (leafsize : Nat)
    (keys : List ExtentKey)
    (groupStart groupSize : Nat)
    (ctl : FreeSpaceCtl) :
    verifySpaceCache mapTree leafsize keys groupStart groupSize
        ctl =
      verifyEnd
        (checkCacheRange (superStripes mapTree groupStart))
        (groupStart + groupSize)
        (verifyLoop
          (checkCacheRange (superStripes mapTree groupStart))
          leafsize (groupStart + groupSize)
          (keys.dropWhile fun key =>
            key.Before (max groupStart SUPER_INFO_OFFSET))
          (max groupStart SUPER_INFO_OFFSET) ctl) := by
  calc
    verifySpaceCache mapTree leafsize keys groupStart groupSize
        ctl =
      verifyEnd
        (checkCacheRange (superStripes mapTree groupStart))
        (groupStart + groupSize)
        (verifyLoop
          (checkCacheRange (superStripes mapTree groupStart))
          leafsize (groupSize + groupStart)
          (keys.dropWhile fun key =>
            key.Before (max groupStart SUPER_INFO_OFFSET))
          (max groupStart SUPER_INFO_OFFSET) ctl) := rfl
    _ = _ := by rw [Nat.add_comm groupSize groupStart]

section Loop

variable {stripes : List (Nat × Nat)}
variable {check :
  Nat → Nat → FreeSpaceCtl → Option Errno × FreeSpaceCtl}
variable {leafsize groupEnd : Nat}

/- The check of every range does what it should. -/
def CheckOk
    (stripes : List (Nat × Nat))
    (check : Nat → Nat → FreeSpaceCtl →
      Option Errno × FreeSpaceCtl) : Prop :=
  ∀ offset bytes ctl, 0 < bytes → Normal ctl →
    Checked (Reserved stripes) offset bytes ctl
      (check offset bytes ctl)

/- The tail is all that is left to check. -/
theorem verifyEnd_tail
    (hCheck : CheckOk stripes check)
    {ret : Option Errno}
    {last : Nat}
    {ctl : FreeSpaceCtl}
    (hNormal : Normal ctl)
    (hRet : groupEnd ≤ last → ret = none) :
    verifyEnd check groupEnd (ret, last, ctl) = none ↔
      ∀ x, Free ctl x ↔
        last ≤ x ∧ x < groupEnd ∧ ¬ Reserved stripes x := by
  unfold verifyEnd
  by_cases hLast : last < groupEnd
  · have hChecked := hCheck last (groupEnd - last) ctl
      (by omega) hNormal
    have hEnd : last + (groupEnd - last) = groupEnd := by
      omega
    simp only [if_pos hLast]
    generalize check last (groupEnd - last) ctl = result
      at hChecked ⊢
    rcases result with ⟨ret', ctl'⟩
    have hLeft := (hNormal.sublist hChecked.sub).eq_nil_iff
    constructor
    · intro hNone x
      cases ret' with
      | some e => cases hNone
      | none =>
          have hNil : ctl' = [] := by
            by_contra hNe
            simp [hNe] at hNone
          constructor
          · intro hFree
            have hIn := hChecked.removed x hFree
              (hLeft.mp hNil x)
            rw [hEnd] at hIn
            exact hIn
          · rintro ⟨hLow, hHigh, hNot⟩
            exact (hChecked.exact rfl x hLow (by omega)
              hNot).1
    · intro hExact
      have hNone : ret' = none := by
        apply hChecked.complete
        · intro x hLow hHigh
          rw [hExact x]
          exact ⟨fun h => h.2.2,
            fun h => ⟨hLow, by omega, h⟩⟩
        · intro x hx hFree
          have := ((hExact x).mp hFree).1
          omega
        · rw [hEnd]
          intro hFree
          have := ((hExact _).mp hFree).2.1
          omega
      have hNil : ctl' = [] := by
        apply hLeft.mpr
        intro x hFree
        rcases (hExact x).mp (hFree.mono hChecked.sub) with
          ⟨hLow, hHigh, hNot⟩
        exact (hChecked.exact hNone x hLow (by omega)
          hNot).2 hFree
      simp [hNone, hNil]
  · simp only [if_neg hLast, hRet (by omega)]
    constructor
    · intro hNone x
      have hNil : ctl = [] := by
        by_contra hNe
        simp [hNe] at hNone
      constructor
      · intro hFree
        exact absurd hFree (hNormal.eq_nil_iff.mp hNil x)
      · omega
    · intro hExact
      have hNil : ctl = [] := by
        apply hNormal.eq_nil_iff.mpr
        intro x hFree
        have := (hExact x).mp hFree
        omega
      simp [hNil]

/-
  What holds at every turn of the loop: the extents ahead
  begin at `last` or later and end within the group or begin
  behind it.
-/
structure Ahead
    (leafsize groupEnd last : Nat)
    (keys : List ExtentKey) : Prop where
  sorted : keys.Pairwise fun a b => a.objectid ≤ b.objectid
  nonempty :
    ∀ key ∈ keys,
      key.IsExtent → key.objectid < key.extentEnd leafsize
  disjoint :
    keys.Pairwise fun a b =>
      a.IsExtent → b.IsExtent →
        a.extentEnd leafsize ≤ b.objectid
  low : ∀ key ∈ keys, key.IsExtent → last ≤ key.objectid
  high :
    ∀ key ∈ keys,
      key.IsExtent →
        key.extentEnd leafsize ≤ groupEnd ∨
          groupEnd ≤ key.objectid

theorem Ahead.skip
    {last : Nat}
    {key : ExtentKey}
    {keys : List ExtentKey}
    (hAhead : Ahead leafsize groupEnd last (key :: keys)) :
    Ahead leafsize groupEnd last keys where
  sorted := (List.pairwise_cons.mp hAhead.sorted).2
  nonempty := fun k hk =>
    hAhead.nonempty k (List.mem_cons_of_mem _ hk)
  disjoint := (List.pairwise_cons.mp hAhead.disjoint).2
  low := fun k hk => hAhead.low k (List.mem_cons_of_mem _ hk)
  high := fun k hk => hAhead.high k (List.mem_cons_of_mem _ hk)

theorem Ahead.pass
    {last : Nat}
    {key : ExtentKey}
    {keys : List ExtentKey}
    (hAhead : Ahead leafsize groupEnd last (key :: keys))
    (hExtent : key.IsExtent) :
    Ahead leafsize groupEnd (key.extentEnd leafsize) keys where
  sorted := hAhead.skip.sorted
  nonempty := hAhead.skip.nonempty
  disjoint := hAhead.skip.disjoint
  low := fun k hk hk' =>
    (List.pairwise_cons.mp hAhead.disjoint).1 k hk hExtent hk'
  high := hAhead.skip.high

/- Nothing is allocated before `last`. -/
theorem Ahead.le_of_allocated
    {last : Nat}
    {keys : List ExtentKey}
    (hAhead : Ahead leafsize groupEnd last keys)
    {x : Nat}
    (hAllocated : Allocated leafsize keys x) :
    last ≤ x := by
  rcases hAllocated with ⟨key, hKey, hExtent, hLow, _⟩
  exact le_trans (hAhead.low key hKey hExtent) hLow

/- Passing an extent passes its bytes and the gap before it. -/
theorem Ahead.required_pass_iff
    {last : Nat}
    {key : ExtentKey}
    {keys : List ExtentKey}
    (hAhead : Ahead leafsize groupEnd last (key :: keys))
    (hExtent : key.IsExtent)
    (hInside : key.objectid < groupEnd)
    (x : Nat) :
    Required leafsize last groupEnd (key :: keys) stripes x ↔
      (last ≤ x ∧ x < key.objectid ∧ ¬ Reserved stripes x) ∨
      Required leafsize (key.extentEnd leafsize) groupEnd keys
        stripes x := by
  have hLow := hAhead.low key List.mem_cons_self hExtent
  have hLess := hAhead.nonempty key List.mem_cons_self hExtent
  have hPast : Allocated leafsize keys x →
      key.extentEnd leafsize ≤ x :=
    (hAhead.pass hExtent).le_of_allocated
  unfold Required
  rw [allocated_cons_iff]
  constructor
  · rintro ⟨hl, hh, hNot, hr⟩
    rw [not_or] at hNot
    rcases Nat.lt_or_ge x key.objectid with hGap | hGap
    · exact Or.inl ⟨hl, hGap, hr⟩
    · have hBehind : key.extentEnd leafsize ≤ x := by
        by_contra hIn
        exact hNot.1 ⟨hExtent, hGap, by omega⟩
      exact Or.inr ⟨hBehind, hh, hNot.2, hr⟩
  · rintro (⟨hl, hh, hr⟩ | ⟨hl, hh, hNot, hr⟩)
    · refine ⟨hl, by omega, ?_, hr⟩
      rintro (⟨_, hIn, _⟩ | hIn)
      · omega
      · have := hPast hIn
        omega
    · refine ⟨by omega, hh, ?_, hr⟩
      rintro (⟨_, _, hIn⟩ | hIn)
      · omega
      · exact hNot hIn

/- A gap was taken out of the cache. -/
theorem verifyFrom_gap_passed
    {last gapEnd next : Nat}
    {ctl ctl' : FreeSpaceCtl}
    {required : Nat → Prop}
    (hChecked :
      Checked (Reserved stripes) last (gapEnd - last) ctl
        (none, ctl'))
    (hGap : last < gapEnd)
    (hNext : gapEnd ≤ next)
    (hRequired : ∀ x, required x → next ≤ x) :
    (∀ x, Free ctl' x ↔ required x) ↔
      ∀ x, Free ctl x ↔
        (last ≤ x ∧ x < gapEnd ∧ ¬ Reserved stripes x) ∨
          required x := by
  have hEnd : last + (gapEnd - last) = gapEnd := by
    omega
  constructor
  · intro hExact x
    rw [← hExact x]
    constructor
    · intro hFree
      by_cases hKept : Free ctl' x
      · exact Or.inr hKept
      · have hIn := hChecked.removed x hFree hKept
        rw [hEnd] at hIn
        exact Or.inl hIn
    · rintro (⟨hl, hh, hNot⟩ | hKept)
      · exact (hChecked.exact rfl x hl (by omega) hNot).1
      · exact hKept.mono hChecked.sub
  · intro hExact x
    constructor
    · intro hKept
      rcases (hExact x).mp (hKept.mono hChecked.sub) with
        ⟨hl, hh, hNot⟩ | hIn
      · have hGone := (hChecked.exact rfl x hl (by omega)
          hNot).2
        exact absurd hKept hGone
      · exact hIn
    · intro hIn
      have hBehind := hRequired x hIn
      rw [hChecked.free_iff_of_outside (by omega)]
      exact (hExact x).mpr (Or.inr hIn)

section Refused

variable {last : Nat}
variable {key : ExtentKey}
variable {keys : List ExtentKey}
variable {ctl ctl' : FreeSpaceCtl}
variable {e : Errno}

/- A gap that was refused is not listed exactly. -/
theorem not_exact_of_refused
    (hAhead : Ahead leafsize groupEnd last (key :: keys))
    (hExtent : key.IsExtent)
    (hInside : key.objectid < groupEnd)
    (hGap : last < key.objectid)
    (hChecked :
      Checked (Reserved stripes) last (key.objectid - last) ctl
        (some e, ctl')) :
    ¬ ∀ x, Free ctl x ↔
      Required leafsize last groupEnd (key :: keys) stripes
        x := by
  intro hExact
  have hEnd : last + (key.objectid - last) = key.objectid := by
    omega
  have hAllocated :
      Allocated leafsize (key :: keys) key.objectid :=
    ⟨key, List.mem_cons_self, hExtent, le_rfl,
      hAhead.nonempty key List.mem_cons_self hExtent⟩
  have hNone : some e = none := by
    apply hChecked.complete
    · intro x hl hh
      rw [hExact, hAhead.required_pass_iff hExtent hInside]
      constructor
      · intro h
        rcases h with hIn | hIn
        · exact hIn.2.2
        · exact hIn.2.2.2
      · exact fun h => Or.inl ⟨hl, by omega, h⟩
    · intro x hx hFree
      have hFirst := ((hExact x).mp hFree).1
      omega
    · rw [hEnd]
      intro hFree
      exact ((hExact _).mp hFree).2.2.1 hAllocated
  cases hNone

/- If the tail check succeeds, the cache lists the rest. -/
theorem listsRest_of_refused
    (hCheck : CheckOk stripes check)
    (hNormal : Normal ctl)
    (hAhead : Ahead leafsize groupEnd last (key :: keys))
    (hExtent : key.IsExtent)
    (hInside : key.objectid < groupEnd)
    (hGap : last < key.objectid)
    (hChecked :
      Checked (Reserved stripes) last (key.objectid - last) ctl
        (some e, ctl'))
    (hNone : verifyEnd check groupEnd (some e, last, ctl') =
      none) :
    ListsRest leafsize last groupEnd (key :: keys) stripes
      ctl := by
  have hRest := (verifyEnd_tail hCheck
    (hNormal.sublist hChecked.sub) (by omega)).mp hNone
  -- Nothing was taken out before the check gave up.
  have hSame : ∀ x, Free ctl x ↔ Free ctl' x := by
    intro x
    refine ⟨?_, fun h => h.mono hChecked.sub⟩
    intro hFree
    by_contra hGone
    rcases hChecked.removed x hFree hGone with ⟨hl, hh, hr⟩
    exact hGone ((hRest x).mpr ⟨hl, by omega, hr⟩)
  refine ⟨key, List.mem_cons_self, hExtent, hGap, hInside, ?_⟩
  intro x
  have hLess := hAhead.nonempty key List.mem_cons_self hExtent
  rw [hSame, hRest, hAhead.required_pass_iff hExtent hInside]
  constructor
  · intro h
    rcases h with ⟨hl, hh, hr⟩
    by_cases hBefore : x < key.objectid
    · exact Or.inl ⟨Or.inl ⟨hl, hBefore, hr⟩, hBefore⟩
    · exact Or.inr ⟨by omega, hh, hr⟩
  · intro h
    rcases h with ⟨hIn | hIn, hBefore⟩ | ⟨hl, hh, hr⟩
    · exact ⟨hIn.1, by omega, hIn.2.2⟩
    · have hFirst := hIn.1
      omega
    · exact ⟨by omega, hh, hr⟩

end Refused

/- Nothing of the group is held by a key behind it. -/
theorem Ahead.not_allocated_behind
    {last : Nat}
    {key : ExtentKey}
    {keys : List ExtentKey}
    (hAhead : Ahead leafsize groupEnd last (key :: keys))
    (hBehind : groupEnd ≤ key.objectid)
    {x : Nat}
    (hx : x < groupEnd) :
    ¬ Allocated leafsize (key :: keys) x := by
  intro hHeld
  rcases hHeld with ⟨k, hk, _, hl, _⟩
  have hLater : key.objectid ≤ k.objectid := by
    rcases List.mem_cons.mp hk with rfl | hk
    · exact le_rfl
    · exact (List.pairwise_cons.mp hAhead.sorted).1 k hk
  omega

theorem Ahead.required_behind_iff
    {last : Nat}
    {key : ExtentKey}
    {keys : List ExtentKey}
    (hAhead : Ahead leafsize groupEnd last (key :: keys))
    (hBehind : groupEnd ≤ key.objectid)
    (x : Nat) :
    Required leafsize last groupEnd (key :: keys) stripes x ↔
      last ≤ x ∧ x < groupEnd ∧ ¬ Reserved stripes x := by
  unfold Required
  constructor
  · exact fun h => ⟨h.1, h.2.1, h.2.2.2⟩
  · exact fun h => ⟨h.1, h.2.1,
      hAhead.not_allocated_behind hBehind h.2.1, h.2.2⟩

theorem required_skip_iff
    {last : Nat}
    {key : ExtentKey}
    {keys : List ExtentKey}
    (hExtent : ¬ key.IsExtent)
    (x : Nat) :
    Required leafsize last groupEnd (key :: keys) stripes x ↔
      Required leafsize last groupEnd keys stripes x := by
  unfold Required
  rw [allocated_cons_iff]
  simp only [hExtent, false_and, false_or]

/-
  The loop and what follows it, from any turn of the loop: 0
  is returned for the right cache only, unless an error is
  overwritten.
-/
theorem verifyFrom_exact
    (hCheck : CheckOk stripes check)
    (hBound : groupEnd ≤ 2 ^ 64)
    {keys : List ExtentKey}
    {last : Nat}
    {ctl : FreeSpaceCtl}
    (hNormal : Normal ctl)
    (hAhead : Ahead leafsize groupEnd last keys)
    (hKept :
      ¬ Overwritten check groupEnd
        (verifyLoop check leafsize groupEnd keys last ctl)) :
    verifyEnd check groupEnd
        (verifyLoop check leafsize groupEnd keys last ctl) =
          none ↔
      ∀ x, Free ctl x ↔
        Required leafsize last groupEnd keys stripes x := by
  induction keys generalizing last ctl with
  | nil =>
      unfold verifyLoop
      rw [verifyEnd_tail hCheck hNormal (fun _ => rfl)]
      simp [Required, Allocated]
  | cons key keys ih =>
      unfold verifyLoop at hKept ⊢
      split_ifs at hKept ⊢ with hBehind hExtent hAt
      · rw [verifyEnd_tail hCheck hNormal (fun _ => rfl)]
        simp only [hAhead.required_behind_iff hBehind]
      · rw [ih hNormal (hAhead.pass hExtent) hKept]
        apply forall_congr'
        intro x
        rw [hAhead.required_pass_iff hExtent (by omega)]
        rw [or_iff_right]
        intro h
        rcases h with ⟨hl, hh, _⟩
        omega
      · have hLow := hAhead.low key List.mem_cons_self hExtent
        have hLess := hAhead.nonempty key List.mem_cons_self
          hExtent
        have hSub : u64Sub key.objectid last =
            key.objectid - last := by
          unfold u64Sub
          omega
        rw [hSub] at hKept ⊢
        have hChecked := hCheck last (key.objectid - last) ctl
          (by omega) hNormal
        generalize check last (key.objectid - last) ctl = gap
          at hChecked hKept ⊢
        rcases gap with ⟨_ | e, ctl'⟩
        · rw [ih (hNormal.sublist hChecked.sub)
            (hAhead.pass hExtent) hKept,
            verifyFrom_gap_passed hChecked (by omega)
              (le_of_lt hLess) (fun x h => h.1)]
          apply forall_congr'
          intro x
          rw [hAhead.required_pass_iff hExtent (by omega)]
        · refine iff_of_false ?_ (not_exact_of_refused hAhead
            hExtent (by omega) (by omega) hChecked)
          -- the tail check gives an error of its own
          intro hNone
          apply hKept
          refine ⟨nofun, show last < groupEnd by omega, ?_⟩
          unfold verifyEnd at hNone
          simp only [if_pos (show last < groupEnd by omega)]
            at hNone ⊢
          generalize check last (groupEnd - last) ctl' = tail
            at hNone ⊢
          rcases tail with ⟨_ | e', ctl''⟩
          · rfl
          · cases hNone
      · simp only [required_skip_iff hExtent]
        exact ih hNormal hAhead.skip hKept

/- Passing an extent, the rest that is listed stays. -/
theorem ListsRest.pass
    {last : Nat}
    {key : ExtentKey}
    {keys : List ExtentKey}
    {ctl ctl' : FreeSpaceCtl}
    (hAhead : Ahead leafsize groupEnd last (key :: keys))
    (hExtent : key.IsExtent)
    (hInside : key.objectid < groupEnd)
    (hLists :
      ListsRest leafsize (key.extentEnd leafsize) groupEnd keys
        stripes ctl')
    (hGap : ∀ required : Nat → Prop,
      (∀ x, required x → key.extentEnd leafsize ≤ x) →
      (∀ x, Free ctl' x ↔ required x) →
      ∀ x, Free ctl x ↔
        (last ≤ x ∧ x < key.objectid ∧ ¬ Reserved stripes x) ∨
          required x) :
    ListsRest leafsize last groupEnd (key :: keys) stripes
      ctl := by
  rcases hLists with ⟨k, hk, hk', hFirst, hTop, hFree⟩
  have hLow := hAhead.low key List.mem_cons_self hExtent
  have hLess := hAhead.nonempty key List.mem_cons_self hExtent
  refine ⟨k, List.mem_cons_of_mem _ hk, hk', by omega, hTop,
    ?_⟩
  have hAll := hGap (fun x =>
    (Required leafsize (key.extentEnd leafsize) groupEnd keys
        stripes x ∧ x < k.objectid) ∨
      (k.objectid ≤ x ∧ x < groupEnd ∧
        ¬ Reserved stripes x))
    (by
      intro x h
      rcases h with h | h
      · exact h.1.1
      · omega)
    hFree
  intro x
  rw [hAll x, hAhead.required_pass_iff hExtent hInside]
  constructor
  · intro h
    rcases h with h | h | h
    · exact Or.inl ⟨Or.inl h, by omega⟩
    · exact Or.inl ⟨Or.inr h.1, h.2⟩
    · exact Or.inr h
  · intro h
    rcases h with ⟨h | h, hx⟩ | h
    · exact Or.inl h
    · exact Or.inr (Or.inl ⟨h, hx⟩)
    · exact Or.inr (Or.inr h)

/- Else 0 is returned for a cache that lists the rest only. -/
theorem verifyFrom_lists
    (hCheck : CheckOk stripes check)
    (hBound : groupEnd ≤ 2 ^ 64)
    {keys : List ExtentKey}
    {last : Nat}
    {ctl : FreeSpaceCtl}
    (hNormal : Normal ctl)
    (hAhead : Ahead leafsize groupEnd last keys)
    (hOver :
      Overwritten check groupEnd
        (verifyLoop check leafsize groupEnd keys last ctl))
    (hNone :
      verifyEnd check groupEnd
        (verifyLoop check leafsize groupEnd keys last ctl) =
          none) :
    ListsRest leafsize last groupEnd keys stripes ctl := by
  induction keys generalizing last ctl with
  | nil => exact absurd rfl hOver.1
  | cons key keys ih =>
      unfold verifyLoop at hOver hNone
      split_ifs at hOver hNone with hBehind hExtent hAt
      · exact absurd rfl hOver.1
      · apply ListsRest.pass hAhead hExtent (by omega)
          (ih hNormal (hAhead.pass hExtent) hOver hNone)
        intro required _ hFree x
        rw [hFree x]
        exact (or_iff_right (by omega)).symm
      · have hLow := hAhead.low key List.mem_cons_self hExtent
        have hLess := hAhead.nonempty key List.mem_cons_self
          hExtent
        have hSub : u64Sub key.objectid last =
            key.objectid - last := by
          unfold u64Sub
          omega
        rw [hSub] at hOver hNone
        have hChecked := hCheck last (key.objectid - last) ctl
          (by omega) hNormal
        generalize check last (key.objectid - last) ctl = gap
          at hChecked hOver hNone
        rcases gap with ⟨_ | e, ctl'⟩
        · apply ListsRest.pass hAhead hExtent (by omega)
            (ih (hNormal.sublist hChecked.sub)
              (hAhead.pass hExtent) hOver hNone)
          intro required hRequired
          exact (verifyFrom_gap_passed hChecked (by omega)
            (le_of_lt hLess) hRequired).mp
        · exact listsRest_of_refused hCheck hNormal hAhead
            hExtent (by omega) (by omega) hChecked hNone
      · rcases ih hNormal hAhead.skip hOver hNone with
          ⟨k, hk, hRest⟩
        refine ⟨k, List.mem_cons_of_mem _ hk, ?_⟩
        simp only [required_skip_iff hExtent]
        exact hRest

/- The checks begin at the first extent of the group. -/
theorem GroupExtents.ahead
    {first : Nat}
    {keys : List ExtentKey}
    (hExtents : GroupExtents leafsize first groupEnd keys) :
    Ahead leafsize groupEnd first
      (keys.dropWhile fun key => key.Before first) := by
  have hSub :
      (keys.dropWhile fun key => key.Before first).Sublist
        keys :=
    List.dropWhile_sublist _
  have hSorted := hExtents.sorted.sublist hSub
  have hLow :
      ∀ key ∈ keys.dropWhile fun key => key.Before first,
        first ≤ key.objectid := by
    intro key hKey
    generalize hDrop :
      (keys.dropWhile fun key => key.Before first) = rest
      at hKey hSorted
    cases rest with
    | nil => cases hKey
    | cons k rest =>
        have hHead : ¬ k.Before first := by
          have hNe :
              (keys.dropWhile fun key => key.Before first) ≠
                [] := by
            simp [hDrop]
          have := List.head_dropWhile_not _ hNe
          simpa [hDrop] using this
        have hFirst : first ≤ k.objectid := by
          by_contra hLess
          exact hHead (Or.inl (by omega))
        rcases List.mem_cons.mp hKey with rfl | hKey
        · exact hFirst
        · exact le_trans hFirst
            ((List.pairwise_cons.mp hSorted).1 key hKey)
  refine ⟨hSorted, ?_, hExtents.disjoint.sublist hSub, ?_, ?_⟩
  · exact fun key hKey =>
      hExtents.nonempty key (hSub.subset hKey)
  · exact fun key hKey _ => hLow key hKey
  · intro key hKey hExtent
    have hFirst := hLow key hKey
    have hLess := hExtents.nonempty key (hSub.subset hKey)
      hExtent
    rcases hExtents.inside key (hSub.subset hKey) hExtent with
      hBefore | hIn | hBehind
    · omega
    · exact Or.inl hIn.2
    · exact Or.inr hBehind

/- The keys that the search passes hold no byte checked. -/
theorem GroupExtents.allocated_dropWhile_iff
    {first : Nat}
    {keys : List ExtentKey}
    (hExtents : GroupExtents leafsize first groupEnd keys)
    {x : Nat}
    (hLow : first ≤ x)
    (hHigh : x < groupEnd) :
    Allocated leafsize
        (keys.dropWhile fun key => key.Before first) x ↔
      Allocated leafsize keys x := by
  constructor
  · rintro ⟨key, hKey, hIn⟩
    exact ⟨key, List.dropWhile_subset _ hKey, hIn⟩
  · rintro ⟨key, hKey, hExtent, hl, hh⟩
    refine ⟨key, ?_, hExtent, hl, hh⟩
    rw [← List.takeWhile_append_dropWhile
      (p := fun key => decide (key.Before first)) (l := keys)]
      at hKey
    rcases List.mem_append.mp hKey with hPassed | hLeft
    · exfalso
      have hBefore : key.Before first := by
        simpa using List.mem_takeWhile_imp hPassed
      have hMem := List.takeWhile_subset _ hPassed
      rcases hBefore with hBefore | ⟨_, hType⟩
      · rcases hExtents.inside key hMem hExtent with h | h | h
        · omega
        · omega
        · omega
      · unfold ExtentKey.IsExtent METADATA_ITEM_KEY at hExtent
        unfold EXTENT_ITEM_KEY at hExtent hType
        omega
    · exact hLeft

theorem GroupExtents.required_dropWhile_iff
    {first : Nat}
    {keys : List ExtentKey}
    (hExtents : GroupExtents leafsize first groupEnd keys)
    {x : Nat} :
    Required leafsize first groupEnd
        (keys.dropWhile fun key => key.Before first) stripes x ↔
      Required leafsize first groupEnd keys stripes x := by
  unfold Required
  constructor
  · rintro ⟨hl, hh, hNot, hr⟩
    rw [hExtents.allocated_dropWhile_iff hl hh] at hNot
    exact ⟨hl, hh, hNot, hr⟩
  · rintro ⟨hl, hh, hNot, hr⟩
    rw [← hExtents.allocated_dropWhile_iff hl hh] at hNot
    exact ⟨hl, hh, hNot, hr⟩

end Loop

----------
-- The Verifier
----------

/- A superblock stripe is not empty. -/
theorem superStripes_pos
    {mapTree : List MapLookup}
    (hOrdered : Ordered mapTree)
    {chunk : Chunk}
    (hChunk : chunk.toMapLookup ∈ mapTree)
    (hFits : chunk.FullFits) :
    ∀ s ∈ superStripes mapTree chunk.start, 0 < s.2 := by
  intro s hs
  have hSize : chunk.start < chunk.start + chunk.size :=
    hOrdered.nonempty _ hChunk
  rcases search_holds hOrdered hChunk ⟨le_rfl, hSize⟩ with
    ⟨c, hSearch, hNode⟩
  unfold superStripes at hs
  rcases List.mem_flatMap.mp hs with ⟨i, _, hs⟩
  simp only [rmapBlock, hSearch, hNode] at hs
  rcases List.mem_map.mp hs with ⟨l, _, rfl⟩
  exact chunk.rmapLen_pos hFits

/-
  The verifier is exact.  For the block group of a chunk, the
  extents around it and a cache in normal form, it returns 0
  if and only if the cache lists exactly the bytes from 64K
  on that are neither allocated nor in a superblock stripe,
  unless the error of a gap is overwritten; and where one is
  and 0 is returned, the cache lists the rest of the group.
-/
theorem verifySpaceCache_exact
    {mapTree : List MapLookup}
    (hOrdered : Ordered mapTree)
    (chunk : Chunk)
    (hChunk : chunk.toMapLookup ∈ mapTree)
    (hFits : chunk.FullFits)
    (leafsize : Nat)
    (keys : List ExtentKey)
    (hExtents :
      GroupExtents leafsize (max chunk.start SUPER_INFO_OFFSET)
        (chunk.start + chunk.size) keys)
    (ctl : FreeSpaceCtl)
    (hNormal : Normal ctl) :
    (¬ RetOverwritten mapTree leafsize keys chunk.start
        chunk.size ctl →
      (verifySpaceCache mapTree leafsize keys chunk.start
          chunk.size ctl = none ↔
        ∀ x, Free ctl x ↔
          Required leafsize (max chunk.start SUPER_INFO_OFFSET)
            (chunk.start + chunk.size) keys
            (superStripes mapTree chunk.start) x)) ∧
    (RetOverwritten mapTree leafsize keys chunk.start
        chunk.size ctl →
      verifySpaceCache mapTree leafsize keys chunk.start
          chunk.size ctl = none →
      ListsRest leafsize (max chunk.start SUPER_INFO_OFFSET)
        (chunk.start + chunk.size) keys
        (superStripes mapTree chunk.start) ctl) := by
  have hCheck :
      CheckOk (superStripes mapTree chunk.start)
        (checkCacheRange (superStripes mapTree chunk.start)) := by
    intro offset bytes ctl hPos hNormal
    exact checkCacheRange_checked
      (superStripes_pos hOrdered hChunk hFits) hPos hNormal
  have hBound : chunk.start + chunk.size ≤ 2 ^ 64 := by
    have hTop := chunk.start_bound
    unfold RAID5_P_STRIPE at hTop
    omega
  rw [verifySpaceCache_eq]
  constructor
  · intro hKept
    rw [verifyFrom_exact hCheck hBound hNormal hExtents.ahead
      hKept]
    simp only [hExtents.required_dropWhile_iff]
  · intro hOver hNone
    rcases verifyFrom_lists hCheck hBound hNormal
        hExtents.ahead hOver hNone with ⟨key, hKey, hLists⟩
    refine ⟨key, List.dropWhile_subset _ hKey, ?_⟩
    simp only [hExtents.required_dropWhile_iff] at hLists
    exact hLists

/- The first chunk of a filesystem, on one device. -/
def firstChunk : Chunk where
  start := 0
  size := 1048576
  type := .single
  stripeLen := 65536
  numStripes := 1
  subStripes := 0
  stripes := [⟨1, 0⟩]
  calcSize := 1048576
  stripeLen_pos := raid10Example.stripeLen_pos
  stripeLen_dvd := by decide
  size_eq := by decide
  stripesOk := by decide
  stripes_length := by decide
  start_bound := by decide
  physical_bound := by decide
  disjoint := by decide

/- A data extent with a back reference, and a tree block. -/
def firstExtents : List ExtentKey :=
  [⟨196608, EXTENT_ITEM_KEY, 16384⟩,
    ⟨196608, 178, 77⟩,
    ⟨524288, METADATA_ITEM_KEY, 0⟩]

/- Lists the data extent as free. -/
def badCache : FreeSpaceCtl :=
  [⟨131072, 393216⟩, ⟨540672, 507904⟩]

theorem verifySpaceCache_exact_allocated :
    Free badCache 196608 ∧
      Allocated 16384 firstExtents 196608 ∧
      verifySpaceCache [firstChunk.toMapLookup] 16384
        firstExtents 0 1048576 badCache ≠ none := by
  have hFree : Free badCache 196608 := by
    decide
  have hAllocated : Allocated 16384 firstExtents 196608 := by
    decide
  refine ⟨hFree, hAllocated, ?_⟩
  intro hNone
  have hExact := ((verifySpaceCache_exact
    (show Ordered [firstChunk.toMapLookup] from
      ⟨by decide, by decide⟩)
    firstChunk (by decide) (by decide) 16384 firstExtents
    ⟨by decide, by decide, by decide, by decide⟩
    badCache ⟨by decide, by decide⟩).1
    (by decide +kernel)).mp hNone
  exact ((hExact 196608).mp hFree).2.2.1 hAllocated

/-
  A cache that lists all of the group while nothing is
  allocated is refused: the first 64K and the superblock
  stripe are not to be listed.
-/
theorem verifySpaceCache_full_group :
    (∀ x, Free [⟨0, 1048576⟩] x ↔
      firstChunk.start ≤ x ∧
        x < firstChunk.start + firstChunk.size ∧
        ¬ Allocated 16384 [] x) ∧
    verifySpaceCache [firstChunk.toMapLookup] 16384 []
        firstChunk.start firstChunk.size [⟨0, 1048576⟩] =
      some .einval := by
  refine ⟨?_, by decide +kernel⟩
  intro x
  simp [Free, FreeSpace.Has, Allocated, firstChunk]

end Check

end BtrfsProgs
