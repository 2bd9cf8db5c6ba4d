import BtrfsProgs.Lib.CountIn

/-
  What the loop of `count_csum_range` counts, over the ranges
  of the csum items that it meets.

  Where the loop skips a gap it moves its start and keeps the
  length, so that the end moves on with the gap.

  Main declarations:
    * `countRanges`
    * `Stays` and `countRanges_iff`
    * `EndKept` and `stays_iff`
-/

----------
-- The Loop
----------

namespace BtrfsProgs

namespace CsumCheck

/- A range by its first byte and the one behind its last. -/
abbrev Range : Type := Nat × Nat

def Range.Has
    (r : Range)
    (b : Nat) : Prop :=
  r.1 ≤ b ∧ b < r.2

instance
    (r : Range)
    (b : Nat) : Decidable (r.Has b) :=
  inferInstanceAs (Decidable (_ ∧ _))

/- What is found from a start on, for a length. -/
def countRanges : List Range → Nat → Nat → Nat
  | [], _, _ => 0
  | r :: rest, start, len =>
      if len = 0 then 0
      else if (start + len) % 2 ^ 64 ≤ r.1 then 0
      else
        let start := if start < r.1 then r.1 else start
        if start < r.2 then
          let size := min (r.2 - start) len
          size + countRanges rest (start + size) (len - size)
        else
          countRanges rest start len

/- Ranges with bytes in them, one after the other. -/
structure Ranges
    (ranges : List Range) : Prop where
  some : ∀ r ∈ ranges, r.1 < r.2
  bounded : ∀ r ∈ ranges, r.2 < 2 ^ 64
  ordered : ranges.Pairwise fun a b => a.2 ≤ b.1

theorem Ranges.tail
    {r : Range}
    {rest : List Range}
    (hRanges : Ranges (r :: rest)) :
    Ranges rest ∧ ∀ a ∈ rest, r.2 ≤ a.1 := by
  have hOrder := List.pairwise_cons.mp hRanges.ordered
  exact ⟨⟨fun a ha => hRanges.some a (List.mem_cons_of_mem _ ha),
    fun a ha => hRanges.bounded a (List.mem_cons_of_mem _ ha),
    hOrder.2⟩, hOrder.1⟩

/-
  The end stays where it was, for the ranges from a place on,
  after some bytes that were skipped.
-/
def Stays
    (stop : Nat) : List Range → Nat → Nat → Prop
  | [], _, _ => True
  | r :: rest, place, skipped =>
      if r.1 < stop then
        stop + skipped < 2 ^ 64 ∧
          if r.2 ≤ stop then
            Stays stop rest r.2 (skipped + (r.1 - place))
          else
            skipped + (r.1 - place) = 0
      else
        2 ^ 64 ≤ stop + skipped ∨ stop + skipped ≤ r.1

section Places

variable {P : Nat → Prop}
variable {place : Nat}
variable {ranges rest : List Range}

/- From a place on the bytes are those of some ranges. -/
def From
    (P : Nat → Prop)
    (place : Nat)
    (ranges : List Range) : Prop :=
  ∀ b, place ≤ b → (P b ↔ ∃ r ∈ ranges, r.Has b)

theorem From.tail
    {r : Range}
    (hFrom : From P place (r :: rest))
    (hPlace : place ≤ r.2) :
    From P r.2 rest := by
  intro b hB
  rw [hFrom b (by omega)]
  constructor
  · rintro ⟨a, ha, hHas⟩
    rcases List.mem_cons.mp ha with rfl | ha
    · have hEnd := hHas.2
      omega
    · exact ⟨a, ha, hHas⟩
  · rintro ⟨a, ha, hHas⟩
    exact ⟨a, List.mem_cons_of_mem _ ha, hHas⟩

/- The bytes up to the end of the first range. -/
theorem From.head
    {r : Range}
    (hRanges : Ranges (r :: rest))
    (hFrom : From P place (r :: rest)) :
    (∀ b, place ≤ b → b < r.1 → ¬ P b) ∧
      ∀ b, place ≤ b → r.1 ≤ b → b < r.2 → P b := by
  refine ⟨?_, ?_⟩
  · intro b hLow hHigh hP
    obtain ⟨a, ha, hHas⟩ := (hFrom b hLow).mp hP
    have hStart := hHas.1
    rcases List.mem_cons.mp ha with rfl | ha
    · omega
    · have hAfter := hRanges.tail.2 a ha
      have hSome := hRanges.some r List.mem_cons_self
      omega
  · intro b hLow hStart hEnd
    exact (hFrom b hLow).mpr
      ⟨r, List.mem_cons_self, hStart, hEnd⟩

end Places

section Count

variable {P : Nat → Prop} [DecidablePred P]
variable {stop place skipped start : Nat}
variable {ranges rest : List Range}

/- No byte is before the ranges. -/
theorem From.none_before
    (hFrom : From P place ranges)
    (hAfter : ∀ r ∈ ranges, stop ≤ r.1) :
    countIn P place stop = 0 := by
  apply countIn_none
  intro b hLow hHigh hP
  obtain ⟨r, hr, hHas⟩ := (hFrom b hLow).mp hP
  have hStart := hHas.1
  have hFar := hAfter r hr
  omega

variable {r : Range}

/- The bytes from a place up to one in the first range. -/
theorem From.countIn_head
    {mid : Nat}
    (hRanges : Ranges (r :: rest))
    (hFrom : From P place (r :: rest))
    (hMid : max place r.1 ≤ mid)
    (hEnd : mid ≤ r.2) :
    countIn P place mid = mid - max place r.1 := by
  obtain ⟨hGap, hIn⟩ := hFrom.head hRanges
  rw [countIn_split (le_max_left place r.1) hMid,
    countIn_none, Nat.zero_add]
  · apply countIn_all
    intro b hLow hHigh
    have hBoth := max_le_iff.mp hLow
    exact hIn b hBoth.1 hBoth.2 (by omega)
  · intro b hLow hHigh
    exact hGap b hLow (by omega)

theorem countRanges_zero
    (ranges : List Range)
    (place : Nat) :
    countRanges ranges place 0 = 0 := by
  cases ranges with
  | nil => rfl
  | cons r rest =>
      unfold countRanges
      rw [if_pos rfl]

variable {len : Nat}

/- A turn of the loop that meets a range. -/
theorem countRanges_met
    (hSome : r.1 < r.2)
    (hEnd : place < r.2)
    (hLen : len ≠ 0)
    (hMet : r.1 < (place + len) % 2 ^ 64) :
    countRanges (r :: rest) place len =
      min (r.2 - max place r.1) len +
        countRanges rest
          (max place r.1 + min (r.2 - max place r.1) len)
          (len - min (r.2 - max place r.1) len) := by
  have hStart : (if place < r.1 then r.1 else place) =
      max place r.1 := by
    split <;> omega
  rw [countRanges, if_neg hLen, if_neg (by omega)]
  dsimp only
  rw [hStart, if_pos (by omega)]

theorem countRanges_missed
    (hMissed : (place + len) % 2 ^ 64 ≤ r.1) :
    countRanges (r :: rest) place len = 0 := by
  rw [countRanges, if_pos hMissed, ite_self]

/- A range that ends at or before the start is passed. -/
theorem countRanges_passed
    (hSome : r.1 < r.2)
    (hPassed : r.2 ≤ place)
    (hStop : place + len < 2 ^ 64) :
    countRanges (r :: rest) place len =
      countRanges rest place len := by
  by_cases hLen : len = 0
  · rw [hLen, countRanges_zero, countRanges_zero]
  · rw [countRanges, if_neg hLen, Nat.mod_eq_of_lt hStop,
      if_neg (by omega)]
    dsimp only
    have hStart : (if place < r.1 then r.1 else place) =
        place := if_neg (by omega)
    rw [hStart, if_neg (by omega)]

/- The case of a range that starts behind the end. -/
theorem countRanges_behind
    (hRanges : Ranges (r :: rest))
    (hStop : stop < 2 ^ 64)
    (hPlace : place ≤ stop)
    (hSkipped : skipped ≤ place)
    (hBehind : stop ≤ r.1) :
    countRanges (r :: rest) place (stop + skipped - place) =
        0 ↔
      2 ^ 64 ≤ stop + skipped ∨ stop + skipped ≤ r.1 := by
  have hSome := hRanges.some r List.mem_cons_self
  have hSum : place + (stop + skipped - place) =
      stop + skipped := by omega
  by_cases hNone : stop + skipped - place = 0
  · rw [hNone, countRanges_zero]
    exact iff_of_true rfl (by omega)
  · by_cases hMissed : (stop + skipped) % 2 ^ 64 ≤ r.1
    · rw [countRanges_missed (by rw [hSum]; exact hMissed)]
      exact iff_of_true rfl (by omega)
    · rw [countRanges_met hSome (by omega) hNone
        (by rw [hSum]; omega)]
      exact iff_of_false (by omega) (by omega)

/-
  What the loop counts is what there is up to the end if and
  only if the end stays.
-/
theorem countRanges_iff
    (hRanges : Ranges ranges)
    (hFrom : From P place ranges)
    (hStop : stop < 2 ^ 64)
    (hPlace : place ≤ stop)
    (hSkipped : skipped ≤ place)
    (hAhead : ∀ r ∈ ranges, place < r.2)
    (hWhole : skipped = 0 ∨ ∀ r ∈ ranges, place ≤ r.1) :
    countRanges ranges place (stop + skipped - place) =
        countIn P place stop ↔
      Stays stop ranges place skipped := by
  induction ranges generalizing place skipped with
  | nil =>
      rw [hFrom.none_before (by simp)]
      exact iff_of_true rfl trivial
  | cons r rest ih =>
      obtain ⟨hTail, hNext⟩ := hRanges.tail
      have hSome := hRanges.some r List.mem_cons_self
      have hBound := hRanges.bounded r List.mem_cons_self
      have hEnd := hAhead r List.mem_cons_self
      have hSum : place + (stop + skipped - place) =
          stop + skipped := by omega
      have hBefore : skipped = 0 ∨ place ≤ r.1 :=
        hWhole.imp id fun h => h r List.mem_cons_self
      unfold Stays
      by_cases hBehind : stop ≤ r.1
      · rw [if_neg (by omega), hFrom.none_before]
        · exact countRanges_behind hRanges hStop hPlace
            hSkipped hBehind
        · intro a ha
          rcases List.mem_cons.mp ha with rfl | ha
          · exact hBehind
          · have hFar := hNext a ha
            omega
      rw [if_pos (by omega)]
      by_cases hHere : place = stop
      · -- nothing is left, and the range reaches over the end
        have hNone : skipped = 0 := by omega
        rw [hHere, hNone, Nat.add_zero, Nat.sub_self,
          countRanges_zero, countIn_empty (Nat.le_refl _),
          if_neg (by omega)]
        exact iff_of_true rfl ⟨by omega, by omega⟩
      by_cases hWrap : stop + skipped < 2 ^ 64
      · have hMod : (stop + skipped) % 2 ^ 64 =
            stop + skipped := Nat.mod_eq_of_lt hWrap
        rw [countRanges_met hSome hEnd (by omega)
          (by rw [hSum, hMod]; omega)]
        by_cases hOver : r.2 ≤ stop
        · have hSize : min (r.2 - max place r.1)
              (stop + skipped - place) =
                r.2 - max place r.1 := by omega
          have hLeft : stop + skipped - place -
              (r.2 - max place r.1) =
                stop + (skipped + (r.1 - place)) - r.2 := by
            omega
          have hPos : max place r.1 + (r.2 - max place r.1) =
              r.2 := by omega
          have hRest : countRanges rest r.2
              (stop + (skipped + (r.1 - place)) - r.2) =
                countIn P r.2 stop ↔
                  Stays stop rest r.2
                    (skipped + (r.1 - place)) :=
            ih hTail (hFrom.tail (Nat.le_of_lt hEnd)) hOver
              (by omega)
              (fun a ha => by
                have hFar := hNext a ha
                have hMore := hTail.some a ha
                omega)
              (.inr hNext)
          rw [hSize, hLeft, hPos, if_pos hOver,
            countIn_split (Nat.le_of_lt hEnd) hOver,
            hFrom.countIn_head hRanges (by omega)
              (Nat.le_refl _), Nat.add_left_cancel_iff, hRest]
          exact (and_iff_right hWrap).symm
        · rw [if_neg hOver, hFrom.countIn_head hRanges
            (by omega) (by omega)]
          by_cases hZero : skipped + (r.1 - place) = 0
          · have hSize : min (r.2 - max place r.1)
                (stop + skipped - place) =
                  stop - max place r.1 := by omega
            have hLeft : stop + skipped - place -
                (stop - max place r.1) = 0 := by omega
            rw [hSize, hLeft, countRanges_zero]
            exact iff_of_true rfl ⟨hWrap, hZero⟩
          · exact iff_of_false (by omega)
              (fun h => hZero h.2)
      · -- the end has wrapped round, and nothing is counted
        rw [countRanges_missed (by rw [hSum]; omega)]
        have hByte : 0 < countIn P place stop :=
          countIn_pos (b := r.1) (by omega) (by omega)
            ((hFrom.head hRanges).2 r.1 (by omega)
              (Nat.le_refl _) hSome)
        exact iff_of_false (by omega) (fun h => hWrap h.1)

----------
-- Where the End Stays
----------

/- The bytes up to a place that are in no range. -/
def skippedTo
    (P : Nat → Prop)
    [DecidablePred P]
    (start place : Nat) : Nat :=
  countIn (fun b => ¬ P b) start place

/-
  The next range is met if it starts before the end, and is
  not met if it starts behind, although the end has moved on
  by the bytes that were skipped.
-/
def Meets
    (P : Nat → Prop)
    [DecidablePred P]
    (start stop : Nat)
    (a b : Range) : Prop :=
  start < a.2 → a.1 < stop →
    if b.1 < stop then
      stop + skippedTo P start a.2 < 2 ^ 64
    else
      2 ^ 64 ≤ stop + skippedTo P start a.2 ∨
        stop + skippedTo P start a.2 ≤ b.1

/-
  Before a range that reaches over the end nothing is skipped,
  and each other one is followed by one that is met just if it
  starts before the end.
-/
structure EndKept
    (P : Nat → Prop)
    [DecidablePred P]
    (start stop : Nat)
    (ranges : List Range) : Prop where
  reach : ∀ r ∈ ranges, r.1 < stop → stop < r.2 →
    skippedTo P start r.1 = 0
  chain : ranges.IsChain (Meets P start stop)

theorem isChain_of_source
    {R : Range → Range → Prop}
    (hAll : ∀ a ∈ ranges, ∀ b, R a b) :
    ranges.IsChain R :=
  (List.pairwise_of_forall_mem_list
    fun a ha b _ => hAll a ha b).isChain

/- Ranges behind the end do not matter. -/
theorem EndKept.of_behind
    (hBehind : ∀ r ∈ ranges, stop ≤ r.1) :
    EndKept P start stop ranges := by
  refine ⟨?_, isChain_of_source ?_⟩
  · intro r hr hLess
    have hFar := hBehind r hr
    omega
  · intro a ha b _ hLess
    have hFar := hBehind a ha
    omega

theorem EndKept.cons_iff
    (hIn : r.2 ≤ stop) :
    EndKept P start stop (r :: rest) ↔
      (∀ b ∈ rest.head?, Meets P start stop r b) ∧
        EndKept P start stop rest := by
  constructor
  · rintro ⟨hOver, hChain⟩
    rw [List.isChain_cons] at hChain
    exact ⟨hChain.1, fun a ha =>
      hOver a (List.mem_cons_of_mem _ ha), hChain.2⟩
  · rintro ⟨hHead, hOver, hChain⟩
    refine ⟨?_, List.isChain_cons.mpr ⟨hHead, hChain⟩⟩
    intro a ha
    rcases List.mem_cons.mp ha with rfl | ha
    · intro _ hOut
      omega
    · exact hOver a ha

/- No byte of a range is skipped. -/
theorem skippedTo_end
    (hSome : r.1 < r.2)
    (hHas : ∀ b, r.Has b → P b) :
    skippedTo P start r.2 = skippedTo P start r.1 := by
  unfold skippedTo
  by_cases hStart : start ≤ r.1
  · have hNone : countIn (fun b => ¬ P b) r.1 r.2 = 0 :=
      countIn_none fun b hLow hHigh h =>
        h (hHas b ⟨hLow, hHigh⟩)
    rw [countIn_split hStart (Nat.le_of_lt hSome), hNone,
      Nat.add_zero]
  · have hBefore : r.1 ≤ start := Nat.le_of_not_le hStart
    rw [countIn_empty hBefore, countIn_none]
    exact fun b hLow hHigh h => h (hHas b ⟨by omega, hHigh⟩)

/- All bytes of a gap are. -/
theorem skippedTo_gap
    {mid : Nat}
    (hStart : start ≤ mid)
    (hMid : mid ≤ place)
    (hGap : ∀ b, mid ≤ b → b < place → ¬ P b) :
    skippedTo P start place =
      skippedTo P start mid + (place - mid) := by
  unfold skippedTo
  rw [countIn_split hStart hMid, countIn_all hGap]

/- A range over the end, with those behind it. -/
theorem EndKept.reach_iff
    (hRanges : Ranges (r :: rest))
    (hHas : ∀ b, r.Has b → P b)
    (hLess : r.1 < stop)
    (hOut : stop < r.2) :
    EndKept P start stop (r :: rest) ↔
      skippedTo P start r.1 = 0 := by
  constructor
  · intro hKept
    exact hKept.reach r List.mem_cons_self hLess hOut
  · intro hZero
    obtain ⟨hTail, hNext⟩ := hRanges.tail
    have hRest : EndKept P start stop rest :=
      .of_behind fun a ha => by
        have hFar := hNext a ha
        omega
    refine ⟨?_, List.isChain_cons.mpr ⟨?_, hRest.chain⟩⟩
    · intro a ha
      rcases List.mem_cons.mp ha with rfl | ha
      · exact fun _ _ => hZero
      · exact hRest.reach a ha
    · intro b hb _ _
      have hFar := hNext b (List.mem_of_mem_head? hb)
      have hSome := hRanges.some r List.mem_cons_self
      rw [if_neg (by omega), skippedTo_end hSome hHas, hZero]
      exact .inr (by omega)

/- Behind a range that was counted. -/
theorem stays_after
    (hRanges : Ranges (r :: rest))
    (hFrom : From P r.2 rest)
    (hHas : ∀ a ∈ rest, ∀ b, a.Has b → P b)
    (hReach : start < r.2)
    (hLess : r.1 < stop)
    (hIn : r.2 ≤ stop) :
    Stays stop rest r.2 (skippedTo P start r.2) ↔
      EndKept P start stop (r :: rest) := by
  rw [EndKept.cons_iff hIn]
  induction rest generalizing r with
  | nil =>
      exact iff_of_true trivial
        ⟨by simp, .of_behind (by simp)⟩
  | cons a rest ih =>
      obtain ⟨hTail, hNext⟩ := hRanges.tail
      have hFar := hNext a List.mem_cons_self
      have hSome := hTail.some a List.mem_cons_self
      obtain ⟨hGap, -⟩ := hFrom.head hTail
      have hSkip := skippedTo_gap (Nat.le_of_lt hReach) hFar
        hGap
      have hMeets : (∀ b ∈ (a :: rest).head?,
          Meets P start stop r b) ↔
            if a.1 < stop then
              stop + skippedTo P start r.2 < 2 ^ 64
            else
              2 ^ 64 ≤ stop + skippedTo P start r.2 ∨
                stop + skippedTo P start r.2 ≤ a.1 := by
        unfold Meets
        simp only [List.head?_cons, Option.mem_some_iff,
          forall_eq', hReach, hLess, forall_const]
      rw [hMeets]
      unfold Stays
      by_cases hBehind : stop ≤ a.1
      · rw [if_neg (by omega), if_neg (by omega)]
        refine (and_iff_left ?_).symm
        apply EndKept.of_behind
        intro b hb
        rcases List.mem_cons.mp hb with rfl | hb
        · exact hBehind
        · have hLast := hTail.tail.2 b hb
          omega
      have hLow : a.1 < stop := not_le.mp hBehind
      rw [if_pos hLow, if_pos hLow, ← hSkip]
      by_cases hOver : a.2 ≤ stop
      · have hRest := ih hTail
          (hFrom.tail (by omega))
          (fun b hb => hHas b (List.mem_cons_of_mem _ hb))
          (by omega) (by omega) hOver
        rw [skippedTo_end hSome
          (hHas a List.mem_cons_self),
          ← EndKept.cons_iff hOver] at hRest
        rw [if_pos hOver, hRest]
      · rw [if_neg hOver, EndKept.reach_iff hTail
          (hHas a List.mem_cons_self) (by omega) (by omega)]

/- Ranges that end at or before the start do not matter. -/
theorem EndKept.append_iff
    {before : List Range}
    (hStart : start ≤ stop)
    (hBefore : ∀ r ∈ before, r.2 ≤ start) :
    EndKept P start stop (before ++ rest) ↔
      EndKept P start stop rest := by
  induction before with
  | nil => rfl
  | cons r before ih =>
      have hEnd := hBefore r List.mem_cons_self
      rw [List.cons_append, EndKept.cons_iff (by omega),
        ih fun a ha => hBefore a (List.mem_cons_of_mem _ ha)]
      refine and_iff_right ?_
      intro b _ hReach
      omega

theorem stays_iff
    {before : List Range}
    (hStop : stop < 2 ^ 64)
    (hStart : start ≤ stop)
    (hBefore : ∀ r ∈ before, r.2 ≤ start)
    (hAhead : ∀ r ∈ rest, start < r.2)
    (hRanges : Ranges rest)
    (hFrom : From P start rest)
    (hHas : ∀ a ∈ rest, ∀ b, a.Has b → P b) :
    Stays stop rest start 0 ↔
      EndKept P start stop (before ++ rest) := by
  rw [EndKept.append_iff hStart hBefore]
  cases rest with
  | nil => exact iff_of_true trivial (.of_behind (by simp))
  | cons r rest =>
      have hSome := hRanges.some r List.mem_cons_self
      have hReach := hAhead r List.mem_cons_self
      obtain ⟨hTail, hNext⟩ := hRanges.tail
      obtain ⟨hGap, -⟩ := hFrom.head hRanges
      have hSkip : skippedTo P start r.1 = r.1 - start := by
        by_cases hLow : start ≤ r.1
        · exact countIn_all hGap
        · unfold skippedTo
          rw [countIn_empty (by omega)]
          omega
      unfold Stays
      rw [Nat.add_zero, Nat.zero_add, ← hSkip]
      by_cases hBehind : stop ≤ r.1
      · rw [if_neg (by omega)]
        refine iff_of_true (.inr hBehind) ?_
        apply EndKept.of_behind
        intro a ha
        rcases List.mem_cons.mp ha with rfl | ha
        · exact hBehind
        · have hFar := hNext a ha
          omega
      rw [if_pos (by omega), and_iff_right hStop]
      by_cases hOver : r.2 ≤ stop
      · rw [if_pos hOver, ← stays_after hRanges
          (hFrom.tail (Nat.le_of_lt hReach))
          (fun a ha => hHas a (List.mem_cons_of_mem _ ha))
          hReach (by omega) hOver,
          skippedTo_end hSome (hHas r List.mem_cons_self)]
      · rw [if_neg hOver, EndKept.reach_iff hRanges
          (hHas r List.mem_cons_self) (by omega) (by omega)]

end Count

end CsumCheck

end BtrfsProgs
