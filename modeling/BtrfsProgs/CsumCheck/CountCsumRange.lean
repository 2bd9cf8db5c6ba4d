import BtrfsProgs.CsumCheck.CsumRoot
import BtrfsProgs.Lib.Loop

/-
  `count_csum_range`, from `cmds-check.c`.

  Where the range starts in a gap, or has one, `start` moves on
  to the next item but `len` stays, so that bytes behind the
  end of the range are counted too.

  Main declarations:
    * `countCsumRange`
    * `countLoop_ends`
    * `countStart_at`
    * `countCsumRange_exact_iff`
-/

----------
-- The Function
----------

namespace BtrfsProgs

namespace CsumCheck

open Trail Ctree

section Count

variable {N : Type}

/- The search, with the step back to a csum item before. -/
def countStart
    (c : CsumRoot N)
    (start : Nat) : Int × BtrfsPath N :=
  let (ret, path) := searchKey c.slots c.key c.top c.root
    (csumKey start) emptyPath
  if 0 < ret ∧ 0 < path.slots 0 then
    match path.nodes 0 with
    | none => (ret, path)
    | some leaf =>
        if IsCsum (c.key leaf (path.slots 0 - 1)) then
          (ret, path.setSlot 0 (path.slots 0 - 1))
        else
          (ret, path)
  else
    (ret, path)

/- The variables of the loop. -/
structure CountState (N : Type) where
  path : BtrfsPath N
  start : Nat
  len : Nat
  found : Nat

/- A turn at an item. -/
def countItem
    (c : CsumRoot N)
    (s : CountState N)
    (path : BtrfsPath N)
    (leaf : N) : CountState N ⊕ Except Stop Nat :=
  let x := c.item leaf (path.slots 0)
  if ¬ IsCsum x.1 then .inr (.ok s.found)
  else if (s.start + s.len) % 2 ^ 64 ≤ x.1.offset then
    .inr (.ok s.found)
  else
    let start :=
      if s.start < x.1.offset then x.1.offset else s.start
    let csum_end := (x.1.offset + c.bytes x) % 2 ^ 64
    if start < csum_end then
      let size := min (csum_end - start) s.len
      .inl ⟨path.advance, start + size, s.len - size,
        s.found + size⟩
    else
      .inl ⟨path.advance, start, s.len, s.found⟩

/- `BUG_ON(ret < 0)` is an error here. -/
def countTurn
    (c : CsumRoot N)
    (s : CountState N) : CountState N ⊕ Except Stop Nat :=
  if s.len = 0 then .inr (.ok s.found)
  else
    let (ret, path) := settle c.slots s.path
    if ret < 0 then .inr (.error .bug)
    else if 0 < ret then .inr (.ok s.found)
    else
      match path.nodes 0 with
      | none => .inr (.error .bug)
      | some leaf => countItem c s path leaf

/- `count_csum_range`, for some turns of its loop. -/
def countCsumRange
    (c : CsumRoot N)
    (start len fuel : Nat) : Option (Except Stop Nat) :=
  let (ret, path) := countStart c start
  if ret < 0 then some (.error .bug)
  else Loop.run (countTurn c) fuel ⟨path, start, len, 0⟩

----------
-- The Loop over Ranges
----------

variable {c : CsumRoot N}
variable {path : BtrfsPath N}
variable {before after : List CsumItem}

/- The items before the first one that is no csum. -/
def CsumRoot.run
    (c : CsumRoot N)
    (items : List CsumItem) : List Range :=
  (items.takeWhile fun x => IsCsum x.1).map c.range

/- The path is at a place in the csum tree. -/
abbrev CsumRoot.At
    (c : CsumRoot N)
    (path : BtrfsPath N)
    (before after : List CsumItem) : Prop :=
  StandsAt c.slots c.item c.top c.root path before after

theorem countTurn_done
    {s : CountState N}
    (hLen : s.len = 0) :
    countTurn c s = .inr (.ok s.found) := by
  unfold countTurn
  rw [if_pos hLen]

/- A turn ends the loop behind the last item, or meets one. -/
theorem countTurn_at
    {s : CountState N}
    (hTree : ItemTree c.slots c.key c.top c.root)
    (hAt : c.At s.path before after)
    (hLen : s.len ≠ 0) :
    after = [] ∧ countTurn c s = .inr (.ok s.found) ∨
      ∃ x rest path leaf,
        after = x :: rest ∧
          StandsOn c.slots c.item c.top c.root path before
            leaf x rest ∧
          countTurn c s = countItem c s path leaf := by
  unfold countTurn
  rw [if_neg hLen]
  rcases settle_at hTree.top_lt hTree.sound hTree.full hAt with
    ⟨hEnd, hSettle⟩ |
    ⟨x, rest, path, leaf, hNext, hSettle, hOn⟩
  · left
    rw [hSettle]
    exact ⟨hEnd, rfl⟩
  · right
    refine ⟨x, rest, path, leaf, hNext, hOn, ?_⟩
    rw [hSettle]
    dsimp only
    rw [if_neg (by decide), if_neg (by decide), hOn.here]

/- The loop counts what the loop over the ranges does. -/
theorem countLoop_ends
    (hTree : ItemTree c.slots c.key c.top c.root)
    (hBounded : ∀ r ∈ c.rangesOf after, r.2 < 2 ^ 64)
    (hAt : c.At path before after)
    (start len found : Nat) :
    Loop.Ends (countTurn c)
      (fun w => w = .ok (found +
        countRanges (c.run after) start len))
      ⟨path, start, len, found⟩ := by
  induction after generalizing path before start len found with
  | nil =>
      by_cases hLen : len = 0
      · exact .done (countTurn_done hLen) rfl
      rcases countTurn_at (s := ⟨path, start, len, found⟩)
          hTree hAt hLen with ⟨-, hTurn⟩ | ⟨x, rest, _, _, h, -⟩
      · exact .done hTurn rfl
      · cases h
  | cons x rest ih =>
      by_cases hLen : len = 0
      · refine .done (countTurn_done hLen) ?_
        dsimp only
        rw [hLen, countRanges_zero, Nat.add_zero]
      rcases countTurn_at (s := ⟨path, start, len, found⟩)
          hTree hAt hLen with ⟨hEnd, -⟩ |
        ⟨y, rest', path', leaf, hNext, hOn, hTurn⟩
      · cases hEnd
      obtain ⟨rfl, rfl⟩ := List.cons.inj hNext
      have hItem := hOn.item
      rw [countItem, hItem] at hTurn
      dsimp only at hTurn
      rw [CsumRoot.rangesOf_cons] at hBounded
      by_cases hCsum : IsCsum x.1
      · rw [if_pos hCsum] at hBounded
        have hRange := hBounded _ List.mem_cons_self
        have hRest := fun s l f => ih
          (fun r hr => hBounded r (List.mem_cons_of_mem _ hr))
          hOn.advance s l f
        have hRun : c.run (x :: rest) =
            c.range x :: c.run rest := by
          unfold CsumRoot.run
          rw [List.takeWhile_cons_of_pos (by simpa)]
          rfl
        have hMod : (x.1.offset + c.bytes x) % 2 ^ 64 =
            x.1.offset + c.bytes x := Nat.mod_eq_of_lt hRange
        rw [if_neg (not_not_intro hCsum), hMod] at hTurn
        rw [hRun, countRanges, if_neg hLen]
        unfold CsumRoot.range
        dsimp only
        by_cases hStop : (start + len) % 2 ^ 64 ≤ x.1.offset
        · rw [if_pos hStop] at hTurn
          rw [if_pos hStop]
          exact .done hTurn rfl
        rw [if_neg hStop] at hTurn
        rw [if_neg hStop]
        generalize (if start < x.1.offset then x.1.offset
          else start) = from_ at hTurn
        by_cases hIn : from_ < x.1.offset + c.bytes x
        · rw [if_pos hIn] at hTurn
          rw [if_pos hIn, ← Nat.add_assoc]
          exact .turn hTurn (hRest _ _ _)
        · rw [if_neg hIn] at hTurn
          rw [if_neg hIn]
          exact .turn hTurn (hRest _ _ _)
      · have hRun : c.run (x :: rest) = [] := by
          unfold CsumRoot.run
          rw [List.takeWhile_cons_of_neg (by simpa)]
          rfl
        rw [if_pos hCsum] at hTurn
        rw [hRun]
        exact .done hTurn rfl

----------
-- The Start
----------

/- From a csum item on, the csums come first. -/
theorem run_eq
    {start : Nat}
    (hSorted : after.Pairwise fun a b => a.1 < b.1)
    (hLow :
      ∀ x ∈ after, csumKey start ≤ x.1 ∨ IsCsum x.1) :
    c.run after = c.rangesOf after := by
  induction after with
  | nil => rfl
  | cons x rest ih =>
      have hOrder := List.pairwise_cons.mp hSorted
      rw [CsumRoot.rangesOf_cons]
      unfold CsumRoot.run
      by_cases hCsum : IsCsum x.1
      · rw [if_pos hCsum, List.takeWhile_cons_of_pos (by simpa),
          ← ih hOrder.2 fun y hy =>
            hLow y (List.mem_cons_of_mem _ hy)]
        rfl
      · rw [if_neg hCsum, List.takeWhile_cons_of_neg (by simpa)]
        symm
        rw [List.map_nil, List.eq_nil_iff_forall_not_mem]
        intro r hr
        obtain ⟨y, hy, hOther, -⟩ := CsumRoot.mem_rangesOf.mp hr
        have hFrom := (hLow x List.mem_cons_self).resolve_right
          hCsum
        exact hCsum ((isCsum_csumKey start).between hOther
          hFrom (hOrder.1 y hy).le)

/-
  The place where the loop starts: what is before it ends at or
  before the start, and behind it at most the first range.
-/
structure StartsAt
    (c : CsumRoot N)
    (start : Nat)
    (path : BtrfsPath N)
    (before after : List CsumItem) : Prop where
  stands : c.At path before after
  before : ∀ r ∈ c.rangesOf before, r.2 ≤ start
  first : ∀ x ∈ after, csumKey start ≤ x.1 ∨ IsCsum x.1
  rest : ∀ x ∈ after.tail, csumKey start ≤ x.1

/- The ranges of a tree, around one of its items. -/
theorem range_before
    (hRanges : Ranges c.ranges)
    {x : CsumItem}
    (hItems : c.items = before ++ x :: after)
    (hCsum : IsCsum x.1) :
    ∀ r ∈ c.rangesOf before, r.2 ≤ x.1.offset := by
  intro r hr
  have hOrder := hRanges.ordered
  unfold CsumRoot.ranges at hOrder
  rw [hItems, CsumRoot.rangesOf_append, CsumRoot.rangesOf_cons,
    if_pos hCsum] at hOrder
  exact (List.pairwise_append.mp hOrder).2.2 r hr _
    List.mem_cons_self

theorem countStart_at
    (hTree : ItemTree c.slots c.key c.top c.root)
    (hFirst : FirstKeys c.slots c.key c.top c.root)
    (hRanges : Ranges c.ranges)
    (start : Nat) :
    ¬ (countStart c start).1 < 0 ∧
      ∃ before after,
        StartsAt c start (countStart c start).2 before after := by
  obtain ⟨before, after, hAt, hBelow, hAfter⟩ :=
    searchSlot_at hTree c.item_key (csumKey start)
      emptyPath_released
  have hItems : c.items = before ++ after := hAt.items
  have hSorted := hTree.pairwise c.item_key
  change c.items.Pairwise _ at hSorted
  rw [hItems] at hSorted
  unfold countStart
  rcases hSearch : searchKey c.slots c.key c.top c.root
    (csumKey start) emptyPath with ⟨ret, path⟩
  rw [hSearch] at hAt hAfter
  dsimp only at hAt hAfter ⊢
  rcases hAfter with
    ⟨rfl, leaf, x, rest, rfl, hKey, hAbove, hOn⟩ |
    ⟨rfl, hAbove⟩
  · rw [if_neg (by simp)]
    refine ⟨by simp, before, x :: rest, hAt, ?_, ?_, ?_⟩
    · have hCsum : IsCsum x.1 := hKey ▸ isCsum_csumKey start
      have hEnds := range_before hRanges hItems hCsum
      rw [hKey] at hEnds
      exact hEnds
    · intro y hy
      rcases List.mem_cons.mp hy with rfl | hy
      · exact .inl hKey.ge
      · exact .inl (hAbove y hy).le
    · exact fun y hy => (hAbove y hy).le
  by_cases hSlot : 0 < path.slots 0
  · rw [if_pos ⟨by decide, hSlot⟩]
    obtain ⟨before', leaf, hHere, hIn, rfl, hBack⟩ :=
      hAt.back (Nat.pos_iff_ne_zero.mp hSlot)
    rw [hHere]
    dsimp only
    have hLess := hBelow _
      (List.mem_append_right before' List.mem_cons_self)
    by_cases hCsum : IsCsum (c.key leaf (path.slots 0 - 1))
    · rw [if_pos hCsum]
      refine ⟨by simp, before', _, hBack, ?_, ?_, ?_⟩
      · intro r hr
        rw [List.append_assoc] at hItems
        have hEnd := range_before hRanges hItems hCsum r hr
        have hOffset := offset_of_lt hLess hCsum
        exact hEnd.trans (Nat.le_of_lt hOffset)
      · intro y hy
        rcases List.mem_cons.mp hy with rfl | hy
        · exact .inr hCsum
        · exact .inl (hAbove y hy).le
      · exact fun y hy => (hAbove y hy).le
    · rw [if_neg hCsum]
      refine ⟨by simp, _, after, hAt, ?_, ?_, ?_⟩
      · -- before an item that is no csum there is none
        intro r hr
        obtain ⟨y, hy, hOther, -⟩ := CsumRoot.mem_rangesOf.mp hr
        rcases List.mem_append.mp hy with hy | hy
        · have hOrder := (List.pairwise_append.mp
            (List.pairwise_append.mp hSorted).1).2.2 y hy _
            List.mem_cons_self
          exact absurd (hOther.between (isCsum_csumKey start)
            hOrder.le hLess.le) hCsum
        · rw [List.mem_singleton.mp hy] at hOther
          exact absurd hOther hCsum
      · exact fun y hy => .inl (hAbove y hy).le
      · exact fun y hy =>
          (hAbove y (List.mem_of_mem_tail hy)).le
  · rw [if_neg (fun h => hSlot h.2)]
    have hNone : before = [] := by
      have hHere : StandsAt c.slots c.item c.top c.root
          (searchKey c.slots c.key c.top c.root
            (csumKey start) emptyPath).2 before after := by
        rw [hSearch]
        exact hAt
      refine searchKey_before hTree hFirst hHere ?_ ?_
      · rw [hSearch]
        exact one_ne_zero
      · rw [hSearch]
        exact Nat.eq_zero_of_not_pos hSlot
    subst hNone
    refine ⟨by simp, [], after, hAt, by simp [
      CsumRoot.rangesOf], ?_, ?_⟩
    · exact fun y hy => .inl (hAbove y hy).le
    · exact fun y hy => (hAbove y (List.mem_of_mem_tail hy)).le

/- Of the ranges from there on the first may be passed. -/
theorem StartsAt.parts
    {start : Nat}
    (hStart : StartsAt c start path before after)
    (hRanges : Ranges c.ranges) :
    ∃ passed rest,
      c.rangesOf after = passed ++ rest ∧
        (∀ r ∈ passed, r.2 ≤ start) ∧
        (∀ r ∈ rest, start < r.2) ∧
        ∀ len, start + len < 2 ^ 64 →
          countRanges (c.rangesOf after) start len =
            countRanges rest start len := by
  have hSome : ∀ x ∈ after, IsCsum x.1 →
      x.1.offset < (c.range x).2 := by
    intro x hx hCsum
    apply hRanges.some (c.range x)
    refine CsumRoot.mem_rangesOf.mpr ⟨x, ?_, hCsum, rfl⟩
    rw [show c.items = before ++ after from
      hStart.stands.items]
    exact List.mem_append_right _ hx
  have hReach : ∀ x ∈ after, csumKey start ≤ x.1 →
      IsCsum x.1 → start < (c.range x).2 := by
    intro x hx hLow hCsum
    exact (offset_of_le hLow hCsum).trans_lt (hSome x hx hCsum)
  by_cases hFirst : ∃ x rest, after = x :: rest ∧
      IsCsum x.1 ∧ (c.range x).2 ≤ start
  · obtain ⟨x, rest, rfl, hCsum, hPassed⟩ := hFirst
    have hCons : c.rangesOf (x :: rest) =
        [c.range x] ++ c.rangesOf rest := by
      rw [CsumRoot.rangesOf_cons, if_pos hCsum]
      rfl
    refine ⟨[c.range x], c.rangesOf rest, hCons, ?_, ?_, ?_⟩
    · intro r hr
      rw [List.mem_singleton.mp hr]
      exact hPassed
    · intro r hr
      obtain ⟨y, hy, hOther, rfl⟩ := CsumRoot.mem_rangesOf.mp hr
      exact hReach y (List.mem_cons_of_mem _ hy)
        (hStart.rest y hy) hOther
    · intro len hLen
      rw [hCons]
      exact countRanges_passed
        (hSome x List.mem_cons_self hCsum) hPassed hLen
  · refine ⟨[], c.rangesOf after, rfl, by simp, ?_,
      fun _ _ => rfl⟩
    intro r hr
    obtain ⟨x, hx, hCsum, rfl⟩ := CsumRoot.mem_rangesOf.mp hr
    cases after with
    | nil => cases hx
    | cons y rest =>
        rcases List.mem_cons.mp hx with rfl | hx
        · by_contra hNot
          exact hFirst ⟨x, rest, rfl, hCsum, not_lt.mp hNot⟩
        · exact hReach x (List.mem_cons_of_mem _ hx)
            (hStart.rest x hx) hCsum

----------
-- Exactness
----------

theorem Ranges.right
    {left right : List Range}
    (hRanges : Ranges (left ++ right)) :
    Ranges right :=
  ⟨fun r hr => hRanges.some r (List.mem_append_right _ hr),
    fun r hr => hRanges.bounded r (List.mem_append_right _ hr),
    (List.pairwise_append.mp hRanges.ordered).2.1⟩

/-
  The count is that of the covered bytes just where the end
  stays in spite of the gaps.
-/
theorem countCsumRange_exact_iff
    (hTree : ItemTree c.slots c.key c.top c.root)
    (hFirst : FirstKeys c.slots c.key c.top c.root)
    (hRanges : Ranges c.ranges)
    {start len : Nat}
    (hStop : start + len < 2 ^ 64) :
    (∃ fuel, countCsumRange c start len fuel =
      some (.ok (countIn c.Covered start (start + len)))) ↔
      EndKept c.Covered start (start + len) c.ranges := by
  obtain ⟨hRet, before, after, hStart⟩ := countStart_at hTree
    hFirst hRanges start
  obtain ⟨passed, rest, hAfter, hPassed, hAhead, hSame⟩ :=
    hStart.parts hRanges
  have hItems : c.items = before ++ after :=
    hStart.stands.items
  have hAll : c.ranges =
      (c.rangesOf before ++ passed) ++ rest := by
    unfold CsumRoot.ranges
    rw [hItems, CsumRoot.rangesOf_append, hAfter,
      List.append_assoc]
  have hBefore : ∀ r ∈ c.rangesOf before ++ passed,
      r.2 ≤ start := by
    intro r hr
    rcases List.mem_append.mp hr with hr | hr
    · exact hStart.before r hr
    · exact hPassed r hr
  have hRest : Ranges rest := by
    rw [hAll] at hRanges
    exact hRanges.right
  have hHas : ∀ r ∈ rest, ∀ b, r.Has b → c.Covered b := by
    intro r hr b hb
    refine ⟨r, ?_, hb⟩
    rw [hAll]
    exact List.mem_append_right _ hr
  have hFrom : From c.Covered start rest := by
    intro b hb
    constructor
    · rintro ⟨r, hr, hIn⟩
      rw [hAll] at hr
      rcases List.mem_append.mp hr with hr | hr
      · have hEnd := hBefore r hr
        have hLess := hIn.2
        omega
      · exact ⟨r, hr, hIn⟩
    · rintro ⟨r, hr, hIn⟩
      exact hHas r hr b hIn
  have hSorted := hTree.pairwise c.item_key
  change c.items.Pairwise _ at hSorted
  rw [hItems] at hSorted
  have hRun : c.run after = c.rangesOf after :=
    run_eq (List.pairwise_append.mp hSorted).2.1 hStart.first
  have hBounded : ∀ r ∈ c.rangesOf after, r.2 < 2 ^ 64 := by
    intro r hr
    apply hRanges.bounded
    unfold CsumRoot.ranges
    rw [hItems, CsumRoot.rangesOf_append]
    exact List.mem_append_right _ hr
  obtain ⟨fuel, w, hLoop, hCount⟩ := countLoop_ends hTree
    hBounded hStart.stands start len 0
  rw [hRun, hSame len hStop, Nat.zero_add] at hCount
  have hFlat := countRanges_iff hRest hFrom hStop
    (Nat.le_add_right start len) (Nat.zero_le _) hAhead
    (.inl rfl)
  rw [Nat.add_zero, Nat.add_sub_cancel_left,
    stays_iff hStop (Nat.le_add_right start len) hBefore hAhead
      hRest hFrom hHas, ← hAll] at hFlat
  rw [← hFlat]
  unfold countCsumRange
  rcases hDone : countStart c start with ⟨ret, path⟩
  rw [hDone] at hRet hLoop
  dsimp only at hRet hLoop ⊢
  simp only [if_neg hRet]
  constructor
  · rintro ⟨fuel', hRun'⟩
    have hEq := Loop.run_unique hLoop hRun'
    rw [hCount, Except.ok.injEq] at hEq
    exact hEq
  · intro hEq
    exact ⟨fuel, by rw [hLoop, hCount, hEq]⟩

end Count

----------
-- A Tree of One Item
----------

theorem oneCsum_ordered : Ranges oneCsum.ranges := by
  rw [oneCsum_ranges]
  exact ⟨by simp, by simp, List.pairwise_singleton _ _⟩

/- Within the item the count is right. -/
theorem countCsumRange_exact_iff_one :
    ∃ fuel, countCsumRange oneCsum 8192 8192 fuel =
      some (.ok (countIn oneCsum.Covered 8192 16384)) := by
  refine (countCsumRange_exact_iff (c := oneCsum)
    oneCsum_tree trivial oneCsum_ordered
    (by decide)).mpr ?_
  rw [oneCsum_ranges]
  refine ⟨?_, List.isChain_singleton _⟩
  intro r hr _ hOver
  rw [List.mem_singleton.mp hr] at hOver
  exact absurd hOver (by decide)

/-
  From byte 0 on 8192 bytes are found, where the item covers
  4096 of them.
-/
theorem countCsumRange_moves_end :
    countCsumRange oneCsum 0 8192 3 = some (.ok 8192) ∧
      countIn oneCsum.Covered 0 8192 = 4096 := by
  constructor
  · have hStart : countStart oneCsum 0 =
        (1, emptyPath.put 0 () 0) := by
      unfold countStart
      rw [show searchKey oneCsum.slots oneCsum.key oneCsum.top
        oneCsum.root (csumKey 0) emptyPath = _ from
          oneCsum_search]
      rfl
    unfold countCsumRange
    rw [hStart]
    rfl
  · have hHas : ∀ b, oneCsum.Covered b ↔
        4096 ≤ b ∧ b < 12288 := by
      intro b
      unfold CsumRoot.Covered
      rw [oneCsum_ranges]
      simp [Range.Has]
    have hFirst : countIn oneCsum.Covered 0 4096 = 0 := by
      apply countIn_none
      intro b _ hHigh h
      have hLow := ((hHas b).mp h).1
      omega
    have hLast : countIn oneCsum.Covered 4096 8192 = 4096 := by
      apply countIn_all
      intro b hLow hHigh
      exact (hHas b).mpr ⟨hLow, by omega⟩
    rw [countIn_split (Nat.zero_le 4096) (by decide), hFirst,
      hLast]

end CsumCheck

end BtrfsProgs
