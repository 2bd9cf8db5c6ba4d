import BtrfsProgs.Check.SpaceCache

/-
  What `check_cache_range` checks.

  The free bytes of a cache in normal form determine its
  entries.  A successful check of a range takes out of the
  cache exactly the bytes of the range that no superblock
  stripe covers; a check succeeds when these bytes are free,
  and free bytes do not run on past either end.

  Main declarations:
    * `Normal`, `Free` and `mem_of_run`
    * `Checked`
    * `checkCacheRange_checked`
-/

----------
-- Caches in Normal Form
----------

namespace BtrfsProgs

namespace Check

/- The byte is in the extent of the entry. -/
def FreeSpace.Has
    (e : FreeSpace)
    (x : Nat) : Prop :=
  e.offset ≤ x ∧ x < e.offset + e.bytes

/- The cache says that the byte is free. -/
def Free
    (ctl : FreeSpaceCtl)
    (x : Nat) : Prop :=
  ∃ e ∈ ctl, e.Has x

instance
    (ctl : FreeSpaceCtl)
    (x : Nat) :
    Decidable (Free ctl x) := by
  unfold Free FreeSpace.Has
  infer_instance

/- A superblock stripe covers the byte. -/
def Reserved
    (stripes : List (Nat × Nat))
    (x : Nat) : Prop :=
  ∃ s ∈ stripes, s.1 ≤ x ∧ x < s.1 + s.2

instance
    (stripes : List (Nat × Nat))
    (x : Nat) :
    Decidable (Reserved stripes x) := by
  unfold Reserved
  infer_instance

/-
  Entries are non-empty, in order, and neither overlap nor
  touch.
-/
structure Normal
    (ctl : FreeSpaceCtl) : Prop where
  nonempty : ∀ e ∈ ctl, 0 < e.bytes
  sorted :
    ctl.Pairwise fun a b => a.offset + a.bytes < b.offset

theorem Normal.sublist
    {ctl ctl' : FreeSpaceCtl}
    (hNormal : Normal ctl)
    (hSub : ctl'.Sublist ctl) :
    Normal ctl' where
  nonempty := fun e he => hNormal.nonempty e (hSub.subset he)
  sorted := hNormal.sorted.sublist hSub

theorem Free.mono
    {ctl ctl' : FreeSpaceCtl}
    (hSub : ctl'.Sublist ctl)
    {x : Nat}
    (hFree : Free ctl' x) :
    Free ctl x := by
  rcases hFree with ⟨e, he, hHas⟩
  exact ⟨e, hSub.subset he, hHas⟩

variable {ctl : FreeSpaceCtl}

/- Two entries are the same or apart. -/
theorem Normal.apart
    (hNormal : Normal ctl)
    {e f : FreeSpace}
    (he : e ∈ ctl)
    (hf : f ∈ ctl) :
    e = f ∨ e.offset + e.bytes < f.offset ∨
      f.offset + f.bytes < e.offset := by
  by_cases hSame : e = f
  · exact Or.inl hSame
  · right
    have hEither :
        ctl.Pairwise fun a b =>
          a.offset + a.bytes < b.offset ∨
            b.offset + b.bytes < a.offset :=
      hNormal.sorted.imp fun h => Or.inl h
    have : Std.Symm fun a b : FreeSpace =>
        a.offset + a.bytes < b.offset ∨
          b.offset + b.bytes < a.offset :=
      ⟨fun _ _ h => h.symm⟩
    exact hEither.forall he hf hSame

theorem Normal.nodup
    (hNormal : Normal ctl) :
    ctl.Nodup := by
  apply hNormal.sorted.imp
  intro a b hLess hSame
  subst hSame
  omega

/- The byte after an entry is not free. -/
theorem Normal.not_free_end
    (hNormal : Normal ctl)
    {e : FreeSpace}
    (he : e ∈ ctl) :
    ¬ Free ctl (e.offset + e.bytes) := by
  intro hFree
  rcases hFree with ⟨f, hf, hHas⟩
  unfold FreeSpace.Has at hHas
  rcases hNormal.apart he hf with rfl | hFar | hFar <;> omega

/- A maximal run of free bytes is an entry. -/
theorem mem_of_run
    (hNormal : Normal ctl)
    {offset bytes : Nat}
    (hPos : 0 < bytes)
    (hFree :
      ∀ x, offset ≤ x → x < offset + bytes → Free ctl x)
    (hBefore : ∀ x, x + 1 = offset → ¬ Free ctl x)
    (hAfter : ¬ Free ctl (offset + bytes)) :
    (⟨offset, bytes⟩ : FreeSpace) ∈ ctl := by
  rcases hFree offset le_rfl (by omega) with ⟨e, he, hHas⟩
  have hNonempty := hNormal.nonempty e he
  have hEnd := hNormal.not_free_end he
  unfold FreeSpace.Has at hHas
  have hOffset : e.offset = offset := by
    by_contra hNe
    apply hBefore (offset - 1) (by omega)
    exact ⟨e, he, by unfold FreeSpace.Has; omega⟩
  have hBytes : e.bytes = bytes := by
    by_contra hNe
    rcases Nat.lt_or_gt_of_ne hNe with hLess | hMore
    · exact hEnd (hFree _ (by omega) (by omega))
    · apply hAfter
      exact ⟨e, he, by unfold FreeSpace.Has; omega⟩
  rw [← hOffset, ← hBytes]
  exact he

/- Taking an entry out takes its bytes out. -/
theorem free_erase_iff
    (hNormal : Normal ctl)
    {e : FreeSpace}
    (he : e ∈ ctl)
    (x : Nat) :
    Free (ctl.erase e) x ↔ Free ctl x ∧ ¬ e.Has x := by
  constructor
  · intro hFree
    rcases hFree with ⟨f, hf, hHas⟩
    rcases hNormal.nodup.mem_erase_iff.mp hf with ⟨hNe, hMem⟩
    refine ⟨⟨f, hMem, hHas⟩, ?_⟩
    intro hBoth
    unfold FreeSpace.Has at hHas hBoth
    rcases hNormal.apart hMem he with hSame | hFar | hFar
    · exact hNe hSame
    · omega
    · omega
  · intro hFree
    rcases hFree with ⟨⟨f, hf, hHas⟩, hNot⟩
    refine ⟨f, ?_, hHas⟩
    apply hNormal.nodup.mem_erase_iff.mpr
    refine ⟨?_, hf⟩
    intro hSame
    exact hNot (hSame ▸ hHas)

/- The search finds an entry at its offset. -/
theorem treeSearchOffset_of_mem
    (hNormal : Normal ctl)
    {e : FreeSpace}
    (he : e ∈ ctl) :
    treeSearchOffset ctl e.offset = some e := by
  rcases List.append_of_mem he with ⟨before, after, rfl⟩
  have hAfter :
      after.filter (fun f => f.offset ≤ e.offset) = [] := by
    apply List.filter_eq_nil_iff.mpr
    intro f hf
    rcases List.pairwise_append.mp hNormal.sorted with
      ⟨_, hRight, _⟩
    have hFar := (List.pairwise_cons.mp hRight).1 f hf
    simp only [decide_eq_true_eq]
    omega
  have hLast :
      ((before ++ e :: after).filter
        fun f => f.offset ≤ e.offset).getLast? = some e := by
    rw [List.filter_append, List.filter_cons_of_pos (by simp),
      hAfter, List.getLast?_append]
    rfl
  unfold treeSearchOffset
  rw [hLast]
  simp

theorem mem_of_treeSearchOffset
    {offset : Nat}
    {e : FreeSpace}
    (hFound : treeSearchOffset ctl offset = some e) :
    e ∈ ctl := by
  unfold treeSearchOffset at hFound
  split at hFound
  case h_1 => cases hFound
  case h_2 f hLast =>
    split at hFound
    case isTrue =>
      cases hFound
      exact List.mem_of_mem_filter
        (List.mem_of_getLast? hLast)
    case isFalse => cases hFound

----------
-- What a Check Does
----------

/-
  What the check of a range makes of a cache.  It only takes
  bytes of the range outside the superblock stripes, all of
  them when it succeeds, and it succeeds when they are the
  free bytes of the range and free bytes do not run on past
  its ends.
-/
structure Checked
    (reserved : Nat → Prop)
    (offset bytes : Nat)
    (ctl : FreeSpaceCtl)
    (result : Option Errno × FreeSpaceCtl) : Prop where
  sub : result.2.Sublist ctl
  removed :
    ∀ x,
      Free ctl x →
      ¬ Free result.2 x →
      offset ≤ x ∧ x < offset + bytes ∧ ¬ reserved x
  exact :
    result.1 = none →
      ∀ x,
        offset ≤ x →
        x < offset + bytes →
        ¬ reserved x →
        Free ctl x ∧ ¬ Free result.2 x
  complete :
    (∀ x,
      offset ≤ x →
      x < offset + bytes →
      (Free ctl x ↔ ¬ reserved x)) →
    (∀ x, x + 1 = offset → ¬ Free ctl x) →
    ¬ Free ctl (offset + bytes) →
    result.1 = none

variable {reserved : Nat → Prop}
variable {result : Option Errno × FreeSpaceCtl}
variable {offset bytes : Nat}

/- Bytes outside the range keep their state. -/
theorem Checked.free_iff_of_outside
    (hChecked : Checked reserved offset bytes ctl result)
    {x : Nat}
    (hOutside : x < offset ∨ offset + bytes ≤ x) :
    Free result.2 x ↔ Free ctl x := by
  constructor
  · intro hFree
    exact hFree.mono hChecked.sub
  · intro hFree
    by_contra hGone
    rcases hChecked.removed x hFree hGone with ⟨hLow, hHigh, _⟩
    omega

/- The entry of a range free of superblock stripes. -/
theorem checkEntry_checked
    (hNormal : Normal ctl)
    (hPos : 0 < bytes)
    (hClear :
      ∀ x, offset ≤ x → x < offset + bytes → ¬ reserved x) :
    Checked reserved offset bytes ctl
      (checkEntry offset bytes ctl) := by
  by_cases hMem : (⟨offset, bytes⟩ : FreeSpace) ∈ ctl
  · have hResult :
        checkEntry offset bytes ctl =
          (none, ctl.erase ⟨offset, bytes⟩) := by
      unfold checkEntry
      rw [treeSearchOffset_of_mem hNormal hMem]
      simp [unlinkFreeSpace]
    rw [hResult]
    have hErase := free_erase_iff hNormal hMem
    refine ⟨List.erase_sublist, ?_, ?_, fun _ _ _ => rfl⟩
    · intro x hFree hGone
      have hHas : FreeSpace.Has ⟨offset, bytes⟩ x := by
        by_contra hNot
        exact hGone ((hErase x).mpr ⟨hFree, hNot⟩)
      exact ⟨hHas.1, hHas.2, hClear x hHas.1 hHas.2⟩
    · intro _ x hLow hHigh _
      refine ⟨⟨_, hMem, hLow, hHigh⟩, ?_⟩
      intro hFree
      exact ((hErase x).mp hFree).2 ⟨hLow, hHigh⟩
  · have hResult :
        checkEntry offset bytes ctl = (some .einval, ctl) := by
      unfold checkEntry
      split
      case h_1 => rfl
      case h_2 e hFound =>
        have he := mem_of_treeSearchOffset hFound
        split
        case isTrue => rfl
        case isFalse hOffset =>
          split
          case isTrue => rfl
          case isFalse hBytes =>
            rw [not_not] at hOffset hBytes
            subst hOffset hBytes
            exact absurd he hMem
    rw [hResult]
    refine ⟨List.Sublist.refl _, ?_, ?_, ?_⟩
    · intro x hFree hGone
      exact absurd hFree hGone
    · intro hNone
      cases hNone
    · intro hExact hBefore hAfter
      exfalso
      apply hMem
      refine mem_of_run hNormal hPos ?_ hBefore hAfter
      intro x hLow hHigh
      exact (hExact x hLow hHigh).mpr (hClear x hLow hHigh)

/- A range inside superblock stripes needs no entry. -/
theorem checked_of_reserved
    (hAll :
      ∀ x, offset ≤ x → x < offset + bytes → reserved x) :
    Checked reserved offset bytes ctl (none, ctl) := by
  refine ⟨List.Sublist.refl _, ?_, ?_, fun _ _ _ => rfl⟩
  · intro x hFree hGone
    exact absurd hFree hGone
  · intro _ x hLow hHigh hNot
    exact absurd (hAll x hLow hHigh) hNot

/- What is cut off a range lies in superblock stripes. -/
theorem Checked.widen
    {offset bytes offset' bytes' : Nat}
    (hChecked : Checked reserved offset' bytes' ctl result)
    (hLow : offset ≤ offset')
    (hHigh : offset' + bytes' ≤ offset + bytes)
    (hLeft : ∀ x, offset ≤ x → x < offset' → reserved x)
    (hRight :
      ∀ x,
        offset' + bytes' ≤ x →
        x < offset + bytes →
        reserved x) :
    Checked reserved offset bytes ctl result := by
  refine ⟨hChecked.sub, ?_, ?_, ?_⟩
  · intro x hFree hGone
    rcases hChecked.removed x hFree hGone with ⟨hl, hh, hr⟩
    exact ⟨by omega, by omega, hr⟩
  · intro hNone x hl hh hNot
    have hl' : offset' ≤ x := by
      by_contra hLess
      exact hNot (hLeft x hl (by omega))
    have hh' : x < offset' + bytes' := by
      by_contra hMore
      exact hNot (hRight x (by omega) hh)
    exact hChecked.exact hNone x hl' hh' hNot
  · intro hExact hBefore hAfter
    apply hChecked.complete
    · intro x hl hh
      exact hExact x (by omega) (by omega)
    · intro x hx hFree
      by_cases hl : offset ≤ x
      · have hNot := (hExact x hl (by omega)).mp hFree
        exact hNot (hLeft x hl (by omega))
      · exact hBefore x (by omega) hFree
    · intro hFree
      by_cases hh : offset' + bytes' < offset + bytes
      · have hNot := (hExact _ (by omega) hh).mp hFree
        exact hNot (hRight _ le_rfl hh)
      · have hSame : offset' + bytes' = offset + bytes := by
          omega
        exact hAfter (hSame ▸ hFree)

/- A failed check of the left side fails the whole range. -/
theorem Checked.left_failed
    {offset bytes mid : Nat}
    {ctl ctl' : FreeSpaceCtl}
    {e : Errno}
    (hLeft :
      Checked reserved offset (mid - offset) ctl (some e, ctl'))
    (hLow : offset < mid)
    (hHigh : mid < offset + bytes)
    (hMid : reserved mid) :
    Checked reserved offset bytes ctl (some e, ctl') := by
  have hEnd : offset + (mid - offset) = mid := by
    omega
  refine ⟨hLeft.sub, ?_, ?_, ?_⟩
  · intro x hFree hGone
    rcases hLeft.removed x hFree hGone with ⟨hl, hh, hr⟩
    exact ⟨hl, by omega, hr⟩
  · intro hNone
    cases hNone
  · intro hExact hBefore _
    apply hLeft.complete
    · intro x hl hh
      exact hExact x hl (by omega)
    · exact hBefore
    · rw [hEnd]
      intro hFree
      exact (hExact mid (by omega) hHigh).mp hFree hMid

/- The left side, a superblock stripe, and the right side. -/
theorem Checked.trans
    {offset bytes mid right : Nat}
    {ctl ctl' : FreeSpaceCtl}
    (hLeft :
      Checked reserved offset (mid - offset) ctl (none, ctl'))
    (hRight :
      Checked reserved right (offset + bytes - right) ctl'
        result)
    (hLow : offset < mid)
    (hMid : mid < right)
    (hHigh : right < offset + bytes)
    (hStripe : ∀ x, mid ≤ x → x < right → reserved x) :
    Checked reserved offset bytes ctl result := by
  have hEnd : offset + (mid - offset) = mid := by
    omega
  have hEnd' : right + (offset + bytes - right) =
      offset + bytes := by
    omega
  refine ⟨hRight.sub.trans hLeft.sub, ?_, ?_, ?_⟩
  · intro x hFree hGone
    by_cases hKept : Free ctl' x
    · rcases hRight.removed x hKept hGone with ⟨hl, hh, hr⟩
      exact ⟨by omega, by omega, hr⟩
    · rcases hLeft.removed x hFree hKept with ⟨hl, hh, hr⟩
      exact ⟨hl, by omega, hr⟩
  · intro hNone x hl hh hNot
    rcases Nat.lt_or_ge x mid with hSide | hSide
    · rcases hLeft.exact rfl x hl (by omega) hNot with
        ⟨hFree, hGone⟩
      exact ⟨hFree, fun h => hGone (h.mono hRight.sub)⟩
    · have hSide' : right ≤ x := by
        by_contra hInside
        exact hNot (hStripe x hSide (by omega))
      rcases hRight.exact hNone x hSide' (by omega) hNot with
        ⟨hFree, hGone⟩
      exact ⟨hFree.mono hLeft.sub, hGone⟩
  · intro hExact hBefore hAfter
    apply hRight.complete
    · intro x hl hh
      rw [hLeft.free_iff_of_outside (by omega)]
      exact hExact x (by omega) (by omega)
    · intro x hx hFree
      have hIn := (hExact x (by omega) (by omega)).mp
        (hFree.mono hLeft.sub)
      exact hIn (hStripe x (by omega) (by omega))
    · rw [hEnd']
      intro hFree
      exact hAfter (hFree.mono hLeft.sub)

/-
  The loops over the stripes.  The stripes already passed
  have no byte in what is left of the range.
-/
theorem cutStripes_checked
    {left :
      Nat → Nat → FreeSpaceCtl → Option Errno × FreeSpaceCtl}
    {reserved : Nat → Prop}
    {limit : Nat}
    (hLeft :
      ∀ offset bytes ctl,
        0 < bytes →
        bytes < limit →
        Normal ctl →
        Checked reserved offset bytes ctl
          (left offset bytes ctl))
    {stripes : List (Nat × Nat)}
    (hLen : ∀ s ∈ stripes, 0 < s.2)
    (hStripes : ∀ x, Reserved stripes x → reserved x)
    {offset bytes : Nat}
    {ctl : FreeSpaceCtl}
    (hRest :
      ∀ x,
        offset ≤ x →
        x < offset + bytes →
        reserved x →
        Reserved stripes x)
    (hPos : 0 < bytes)
    (hLimit : bytes ≤ limit)
    (hNormal : Normal ctl) :
    Checked reserved offset bytes ctl
      (cutStripes left stripes offset bytes ctl) := by
  induction stripes generalizing offset bytes ctl with
  | nil =>
      apply checkEntry_checked hNormal hPos
      intro x hl hh hReserved
      rcases hRest x hl hh hReserved with ⟨s, hs, _⟩
      cases hs
  | cons stripe stripes ih =>
      rcases stripe with ⟨logical, len⟩
      have hLenPos : 0 < len := hLen _ List.mem_cons_self
      have hHere : ∀ x, logical ≤ x → x < logical + len →
          reserved x := by
        intro x hl hh
        apply hStripes
        exact ⟨_, List.mem_cons_self, hl, hh⟩
      have hStep :
          ∀ {offset' bytes' : Nat} {ctl' : FreeSpaceCtl},
            offset ≤ offset' →
            offset' + bytes' ≤ offset + bytes →
            logical + len ≤ offset' ∨
              offset' + bytes' ≤ logical →
            0 < bytes' →
            Normal ctl' →
            Checked reserved offset' bytes' ctl'
              (cutStripes left stripes offset' bytes' ctl') := by
        intro offset' bytes' ctl' hl hh hClear hPos' hNormal'
        apply ih
        · exact fun s hs => hLen s (List.mem_cons_of_mem _ hs)
        · rintro x ⟨s, hs, hIn⟩
          exact hStripes x ⟨s, List.mem_cons_of_mem _ hs, hIn⟩
        · intro x hx hx' hReserved
          rcases hRest x (by omega) (by omega) hReserved with
            ⟨s, hs, hIn⟩
          rcases List.mem_cons.mp hs with rfl | hs
          · dsimp only at hIn
            omega
          · exact ⟨s, hs, hIn⟩
        · exact hPos'
        · omega
        · exact hNormal'
      unfold cutStripes
      split_ifs with hBelow hAbove hAt hCovers hBefore
        hCovers hEnds
      · exact hStep le_rfl le_rfl (Or.inl hBelow) hPos hNormal
      · exact hStep le_rfl le_rfl (Or.inr hAbove) hPos hNormal
      · apply checked_of_reserved
        intro x hl hh
        exact hHere x (by omega) (by omega)
      · refine Checked.widen
          (hStep (by omega) (by omega) (Or.inl (by omega))
            (by omega) hNormal)
          (by omega) (by omega) ?_ ?_
        · intro x hl hh
          exact hHere x (by omega) (by omega)
        · intro x hl hh
          omega
      · apply checked_of_reserved
        intro x hl hh
        exact hHere x (by omega) (by omega)
      · refine Checked.widen
          (hStep (by omega) (by omega) (Or.inl (by omega))
            (by omega) hNormal)
          (by omega) (by omega) ?_ ?_
        · intro x hl hh
          exact hHere x (by omega) (by omega)
        · intro x hl hh
          omega
      · refine Checked.widen
          (hStep (by omega) (by omega) (Or.inr (by omega))
            (by omega) hNormal)
          (by omega) (by omega) ?_ ?_
        · intro x hl hh
          omega
        · intro x hl hh
          exact hHere x (by omega) (by omega)
      · have hSide := hLeft offset (logical - offset) ctl
          (by omega) (by omega) hNormal
        split
        case h_1 e ctl' hCall =>
          rw [hCall] at hSide
          exact hSide.left_failed (by omega) (by omega)
            (hHere _ le_rfl (by omega))
        case h_2 ctl' hCall =>
          rw [hCall] at hSide
          refine hSide.trans
            (hStep (by omega) (by omega) (Or.inl (by omega))
              (by omega) (hNormal.sublist hSide.sub))
            (by omega) (by omega) (by omega) ?_
          intro x hl hh
          exact hHere x hl hh

theorem checkCacheRangeFuel_checked
    {stripes : List (Nat × Nat)}
    (hLen : ∀ s ∈ stripes, 0 < s.2)
    {fuel offset bytes : Nat}
    {ctl : FreeSpaceCtl}
    (hFuel : bytes < fuel)
    (hPos : 0 < bytes)
    (hNormal : Normal ctl) :
    Checked (Reserved stripes) offset bytes ctl
      (checkCacheRangeFuel stripes fuel offset bytes ctl) := by
  induction fuel generalizing offset bytes ctl with
  | zero => omega
  | succ fuel ih =>
      unfold checkCacheRangeFuel
      refine cutStripes_checked ?_ hLen (fun _ h => h)
        (fun _ _ _ h => h) hPos le_rfl hNormal
      intro offset' bytes' ctl' hPos' hLess hNormal'
      exact ih (by omega) hPos' hNormal'

theorem checkCacheRange_checked
    {stripes : List (Nat × Nat)}
    (hLen : ∀ s ∈ stripes, 0 < s.2)
    {offset bytes : Nat}
    {ctl : FreeSpaceCtl}
    (hPos : 0 < bytes)
    (hNormal : Normal ctl) :
    Checked (Reserved stripes) offset bytes ctl
      (checkCacheRange stripes offset bytes ctl) :=
  checkCacheRangeFuel_checked hLen (by omega) hPos hNormal

end Check

end BtrfsProgs
