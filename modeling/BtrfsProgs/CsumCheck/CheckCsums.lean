import BtrfsProgs.CsumCheck.CsumRoot
import BtrfsProgs.CsumCheck.ExtentExists

/-
  `check_csums`, from `cmds-check.c`.

  Csum items one after another are gathered into a run, and a
  run is checked when an item behind a gap is met.  The last
  run is never checked.

  Main declarations:
    * `checkCsums`
    * `csumRuns`
    * `checkCsums_reports`
    * `checkCsums_complete_iff`
-/

----------
-- The Function
----------

namespace BtrfsProgs

namespace CsumCheck

open Trail Ctree

section Csums

variable {N M : Type}

/- The variables of the loop. -/
structure CsumsState (N : Type) where
  path : BtrfsPath N
  offset : Nat
  num_bytes : Nat
  errors : Nat

/- The search for the first csum item, and a step back. -/
def csumsStart
    (c : CsumRoot N) : Int × BtrfsPath N :=
  let (ret, path) := searchKey c.slots c.key c.top c.root
    (csumKey 0) emptyPath
  if 0 < ret ∧ 0 < path.slots 0 then
    (ret, path.setSlot 0 (path.slots 0 - 1))
  else
    (ret, path)

/- A turn at an item, after the check of a run. -/
def csumsAdd
    (c : CsumRoot N)
    (path : BtrfsPath N)
    (x : CsumItem)
    (offset num_bytes errors : Nat) : CsumsState N where
  path := path.advance
  offset := offset
  num_bytes := sum num_bytes (c.bytes x % 2 ^ 32)
  errors := errors

/- A turn at an item. -/
def csumsItem
    (c : CsumRoot N)
    (check : Nat → Nat → Option Int)
    (s : CsumsState N)
    (path : BtrfsPath N)
    (x : CsumItem) : CsumsState N ⊕ Option Int :=
  if x.1.type ≠ EXTENT_CSUM_KEY then
    .inl ⟨path.advance, s.offset, s.num_bytes, s.errors⟩
  else if s.num_bytes = 0 then
    .inl (csumsAdd c path x x.1.offset s.num_bytes s.errors)
  else if x.1.offset ≠ sum s.offset s.num_bytes then
    match check s.offset s.num_bytes with
    | none => .inr none
    | some ret =>
        let errors := if ret ≠ 0 then s.errors + 1 else s.errors
        .inl (csumsAdd c path x x.1.offset 0 errors)
  else
    .inl (csumsAdd c path x s.offset s.num_bytes s.errors)

def csumsTurn
    (c : CsumRoot N)
    (check : Nat → Nat → Option Int)
    (s : CsumsState N) : CsumsState N ⊕ Option Int :=
  let (ret, path) := settle c.slots s.path
  if ret ≠ 0 then .inr (some s.errors)
  else
    match path.nodes 0 with
    | none => .inr (some s.errors)
    | some leaf =>
        csumsItem c check s path (c.item leaf (path.slots 0))

/- `check_csums`, for some turns and calls. -/
def checkCsums
    (c : CsumRoot N)
    (e : ExtentRoot M)
    (fuel : Nat) : Option Int :=
  let (ret, path) := csumsStart c
  if ret < 0 then some ret
  else
    (Loop.run (csumsTurn c (checkExtentExists e fuel)) fuel
      ⟨path, 0, 0, 0⟩).join

----------
-- Runs of Csum Items
----------

/- The runs of some ranges, with one that has been begun. -/
def runsFrom
    (run : Range) : List Range → List Range
  | [] => [run]
  | r :: rest =>
      if run.1 = run.2 then runsFrom r rest
      else if r.1 = run.2 then runsFrom (run.1, r.2) rest
      else run :: runsFrom r rest

def csumRuns
    (ranges : List Range) : List Range :=
  runsFrom (0, 0) ranges

/- The errors that the checks of some runs report. -/
def errorsOf
    (check : Nat → Nat → Option Int) :
    List Range → Option Nat
  | [] => some 0
  | run :: rest =>
      match check run.1 (run.2 - run.1) with
      | none => none
      | some ret =>
          (errorsOf check rest).map fun errors =>
            (if ret ≠ 0 then 1 else 0) + errors

variable {ranges rest : List Range}
variable {run : Range}
variable {b : Nat}

theorem runsFrom_ne_nil
    (run : Range)
    (ranges : List Range) :
    runsFrom run ranges ≠ [] := by
  induction ranges generalizing run with
  | nil => exact List.cons_ne_nil _ _
  | cons r rest ih =>
      unfold runsFrom
      split
      · exact ih _
      · split
        · exact ih _
        · exact List.cons_ne_nil _ _

/- The runs have the bytes of the ranges. -/
theorem mem_runsFrom
    (hRun : run.1 ≤ run.2)
    (hRanges : ∀ r ∈ ranges, r.1 ≤ r.2) :
    (∃ a ∈ runsFrom run ranges, a.Has b) ↔
      run.Has b ∨ ∃ r ∈ ranges, r.Has b := by
  induction ranges generalizing run with
  | nil => simp [runsFrom]
  | cons r rest ih =>
      have hHere := hRanges r List.mem_cons_self
      have hRest : ∀ a ∈ rest, a.1 ≤ a.2 := fun a ha =>
        hRanges a (List.mem_cons_of_mem _ ha)
      have hCons : (∃ a ∈ r :: rest, a.Has b) ↔
          r.Has b ∨ ∃ a ∈ rest, a.Has b := by simp
      rw [hCons]
      unfold runsFrom
      by_cases hEmpty : run.1 = run.2
      · have hNone : ¬ run.Has b := by
          unfold Range.Has
          omega
        rw [if_pos hEmpty, ih hHere hRest]
        exact (or_iff_right hNone).symm
      rw [if_neg hEmpty]
      by_cases hNext : r.1 = run.2
      · have hBoth : Range.Has (run.1, r.2) b ↔
            run.Has b ∨ r.Has b := by
          unfold Range.Has
          dsimp only
          omega
        rw [if_pos hNext, ih (by dsimp only; omega) hRest,
          hBoth, or_assoc]
      · rw [if_neg hNext]
        simp only [List.mem_cons, exists_eq_or_imp,
          ih hHere hRest]

/- Runs that are checked are not empty. -/
theorem run_lt
    {a : Range}
    (hRun : run.1 ≤ run.2)
    (hRanges : ∀ r ∈ ranges, r.1 ≤ r.2)
    (hChecked : a ∈ (runsFrom run ranges).dropLast) :
    a.1 < a.2 := by
  induction ranges generalizing run with
  | nil => simp [runsFrom] at hChecked
  | cons r rest ih =>
      have hHere := hRanges r List.mem_cons_self
      have hRest : ∀ a ∈ rest, a.1 ≤ a.2 := fun a ha =>
        hRanges a (List.mem_cons_of_mem _ ha)
      unfold runsFrom at hChecked
      by_cases hEmpty : run.1 = run.2
      · rw [if_pos hEmpty] at hChecked
        exact ih hHere hRest hChecked
      rw [if_neg hEmpty] at hChecked
      by_cases hNext : r.1 = run.2
      · rw [if_pos hNext] at hChecked
        exact ih (by dsimp only; omega) hRest hChecked
      · rw [if_neg hNext, List.dropLast_cons_of_ne_nil
          (runsFrom_ne_nil r rest)] at hChecked
        rcases List.mem_cons.mp hChecked with rfl | hChecked
        · omega
        · exact ih hHere hRest hChecked

/- All runs end where a range does. -/
theorem run_bounded
    {a : Range}
    {stop : Nat}
    (hRun : run.2 < stop)
    (hRanges : ∀ r ∈ ranges, r.2 < stop)
    (hIn : a ∈ runsFrom run ranges) :
    a.2 < stop := by
  induction ranges generalizing run with
  | nil =>
      rw [List.mem_singleton.mp hIn]
      exact hRun
  | cons r rest ih =>
      have hHere := hRanges r List.mem_cons_self
      have hRest : ∀ a ∈ rest, a.2 < stop := fun a ha =>
        hRanges a (List.mem_cons_of_mem _ ha)
      unfold runsFrom at hIn
      split at hIn
      · exact ih hHere hRest hIn
      · split at hIn
        · have hLonger : (run.1, r.2).2 < stop := hHere
          exact ih hLonger hRest hIn
        · rcases List.mem_cons.mp hIn with rfl | hIn
          · exact hRun
          · exact ih hHere hRest hIn

/- Some check fails if and only if some run is not good. -/
theorem errorsOf_iff
    {check : Nat → Nat → Option Int}
    {Good : Range → Prop}
    {runs : List Range}
    (hCheck : ∀ a ∈ runs, ∃ ret,
      check a.1 (a.2 - a.1) = some ret ∧ (ret = 0 ↔ Good a)) :
    ∃ errors,
      errorsOf check runs = some errors ∧
        (errors ≠ 0 ↔ ∃ a ∈ runs, ¬ Good a) := by
  induction runs with
  | nil => exact ⟨0, rfl, by simp⟩
  | cons a rest ih =>
      obtain ⟨ret, hRet, hGood⟩ := hCheck a List.mem_cons_self
      obtain ⟨errors, hRest, hIff⟩ := ih fun x hx =>
        hCheck x (List.mem_cons_of_mem _ hx)
      refine ⟨(if ret ≠ 0 then 1 else 0) + errors, ?_, ?_⟩
      · unfold errorsOf
        rw [hRet, hRest]
        rfl
      · simp only [List.mem_cons, exists_eq_or_imp]
        rw [← hIff, ← hGood]
        by_cases hZero : ret = 0
        · rw [if_neg (not_not_intro hZero), Nat.zero_add]
          exact (or_iff_right (not_not_intro hZero)).symm
        · rw [if_pos hZero]
          exact iff_of_true (by omega) (.inl hZero)

----------
-- The Loop
----------

variable {c : CsumRoot N}
variable {e : ExtentRoot M}
variable {path : BtrfsPath N}
variable {before after : List CsumItem}

/- Items of the type of csums have their objectid. -/
def CsumRoot.Plain
    (c : CsumRoot N) : Prop :=
  ∀ x ∈ c.items, x.1.type = EXTENT_CSUM_KEY → IsCsum x.1

/- The tree is one of keys that go up. -/
abbrev CsumRoot.Tree
    (c : CsumRoot N) : Prop :=
  ItemTree c.slots c.key c.top c.root

theorem csumsTurn_at
    (hTree : c.Tree)
    {s : CsumsState N}
    (check : Nat → Nat → Option Int)
    (hAt :
      StandsAt c.slots c.item c.top c.root s.path before
        after) :
    after = [] ∧
        csumsTurn c check s = .inr (some s.errors) ∨
      ∃ x rest path leaf,
        after = x :: rest ∧
          StandsOn c.slots c.item c.top c.root path before
            leaf x rest ∧
          csumsTurn c check s = csumsItem c check s path x := by
  unfold csumsTurn
  rcases settle_at hTree.top_lt hTree.sound hTree.full hAt with
    ⟨hEnd, hSettle⟩ |
    ⟨x, rest, path, leaf, hNext, hSettle, hOn⟩
  · left
    rw [hSettle]
    exact ⟨hEnd, rfl⟩
  · right
    refine ⟨x, rest, path, leaf, hNext, hOn, ?_⟩
    rw [hSettle]
    dsimp only
    rw [if_neg (not_not_intro rfl), hOn.here]
    dsimp only
    rw [hOn.item]

/- The loop checks all runs but the last one. -/
theorem csumsLoop_eq
    (hTree : c.Tree)
    (check : Nat → Nat → Option Int)
    (hPlain : ∀ x ∈ after,
      x.1.type = EXTENT_CSUM_KEY → IsCsum x.1)
    (hBounded : ∀ r ∈ c.rangesOf after, r.2 < 2 ^ 64)
    (hAt :
      StandsAt c.slots c.item c.top c.root path before after)
    {offset num_bytes fuel : Nat}
    (hStop : offset + num_bytes < 2 ^ 64)
    (hFuel : after.length + 1 ≤ fuel)
    (errors : Nat) :
    (Loop.run (csumsTurn c check) fuel
        ⟨path, offset, num_bytes, errors⟩).join =
      (errorsOf check
        (runsFrom (offset, offset + num_bytes)
          (c.rangesOf after)).dropLast).map
        fun n => ((errors + n : Nat) : Int) := by
  induction after generalizing path before offset num_bytes
    errors fuel with
  | nil =>
      obtain ⟨fuel, rfl⟩ : ∃ f, fuel = f + 1 :=
        ⟨fuel - 1, by omega⟩
      rw [run_succ]
      rcases csumsTurn_at
          (s := ⟨path, offset, num_bytes, errors⟩) hTree check
          hAt with ⟨-, hTurn⟩ | ⟨x, rest, _, _, h, -⟩
      · rw [hTurn]
        rfl
      · cases h
  | cons x rest ih =>
      obtain ⟨fuel, rfl⟩ : ∃ f, fuel = f + 1 :=
        ⟨fuel - 1, by omega⟩
      rw [List.length_cons] at hFuel
      rw [CsumRoot.rangesOf_cons] at hBounded ⊢
      rw [run_succ]
      rcases csumsTurn_at
          (s := ⟨path, offset, num_bytes, errors⟩) hTree check
          hAt with ⟨h, -⟩ |
        ⟨y, rest', path', leaf, hCons, hOn, hTurn⟩
      · cases h
      obtain ⟨rfl, rfl⟩ := List.cons.inj hCons
      have hEnough : rest.length + 1 ≤ fuel := by omega
      have hNext := fun hLess {offset num_bytes errors : Nat}
          (hSum : offset + num_bytes < 2 ^ 64) => ih
        (fun y hy => hPlain y (List.mem_cons_of_mem _ hy))
        hLess hOn.advance hSum hEnough errors
      rw [hTurn]
      unfold csumsItem
      dsimp only
      by_cases hType : x.1.type = EXTENT_CSUM_KEY
      swap
      · have hOther : ¬ IsCsum x.1 := fun h => hType h.2
        rw [if_neg hOther] at hBounded
        rw [if_pos hType, if_neg hOther]
        exact hNext hBounded hStop
      have hCsum := hPlain x List.mem_cons_self hType
      rw [if_pos hCsum] at hBounded
      have hRange : x.1.offset + c.bytes x < 2 ^ 64 :=
        hBounded _ List.mem_cons_self
      have hRest : ∀ r ∈ c.rangesOf rest, r.2 < 2 ^ 64 :=
        fun r hr => hBounded r (List.mem_cons_of_mem _ hr)
      have hFits : c.bytes x % 2 ^ 32 = c.bytes x := by
        have hHere := hOn.item
        rw [← hHere]
        exact Nat.mod_eq_of_lt (c.fits leaf (path'.slots 0))
      have hFresh : sum 0 (c.bytes x) = c.bytes x := by
        unfold sum
        rw [Nat.zero_add]
        exact Nat.mod_eq_of_lt (by omega)
      rw [if_neg (not_not_intro hType), if_pos hCsum]
      unfold csumsAdd
      rw [hFits]
      by_cases hEmpty : num_bytes = 0
      · rw [if_pos hEmpty, hEmpty, hFresh]
        unfold runsFrom
        dsimp only
        rw [Nat.add_zero, if_pos rfl]
        exact hNext hRest hRange
      have hSum : sum offset num_bytes = offset + num_bytes :=
        Nat.mod_eq_of_lt hStop
      have hBegun : ¬ offset = offset + num_bytes := by omega
      rw [if_neg hEmpty, hSum]
      unfold runsFrom
      rw [if_neg hBegun]
      unfold CsumRoot.range
      dsimp only
      by_cases hJoined : x.1.offset = offset + num_bytes
      · have hMore : sum num_bytes (c.bytes x) =
            num_bytes + c.bytes x := by
          unfold sum
          exact Nat.mod_eq_of_lt (by omega)
        have hEnd : x.1.offset + c.bytes x =
            offset + (num_bytes + c.bytes x) := by omega
        rw [if_neg (not_not_intro hJoined), if_pos hJoined,
          hMore, hEnd]
        exact hNext hRest (by omega)
      · rw [if_pos hJoined, if_neg hJoined,
          List.dropLast_cons_of_ne_nil (runsFrom_ne_nil _ _)]
        have hSize : offset + num_bytes - offset =
            num_bytes := Nat.add_sub_cancel_left ..
        unfold errorsOf
        dsimp only
        rw [hSize]
        cases check offset num_bytes with
        | none => rfl
        | some ret =>
            dsimp only
            rw [hFresh, hNext hRest hRange, Option.map_map]
            congr 1
            funext n
            dsimp only [Function.comp]
            split
            · rw [← Nat.add_assoc]
            · rw [Nat.zero_add]

/- Before the start there is no csum item. -/
theorem csumsStart_at
    (hTree : c.Tree) :
    ¬ (csumsStart c).1 < 0 ∧
      ∃ before after,
        StandsAt c.slots c.item c.top c.root (csumsStart c).2
            before after ∧
          c.rangesOf before = [] := by
  obtain ⟨before, after, hAt, hBelow, hAfter⟩ :=
    searchSlot_at hTree c.item_key (csumKey 0)
      emptyPath_released
  have hNone : ∀ items : List CsumItem,
      (∀ x ∈ items, x.1 < csumKey 0) →
        c.rangesOf items = [] := by
    intro items hItems
    rw [List.eq_nil_iff_forall_not_mem]
    intro r hr
    obtain ⟨x, hx, hCsum, -⟩ := CsumRoot.mem_rangesOf.mp hr
    exact absurd (offset_of_lt (hItems x hx) hCsum)
      (Nat.not_lt_zero _)
  have hRet : (searchKey c.slots c.key c.top c.root
      (csumKey 0) emptyPath).1 = 0 ∨
        (searchKey c.slots c.key c.top c.root (csumKey 0)
          emptyPath).1 = 1 :=
    hAfter.imp (fun h => h.1) fun h => h.1
  unfold csumsStart
  rcases hSearch : searchKey c.slots c.key c.top c.root
    (csumKey 0) emptyPath with ⟨ret, path⟩
  rw [hSearch] at hAt hRet
  dsimp only at hAt hRet ⊢
  by_cases hBack : 0 < ret ∧ 0 < path.slots 0
  · rw [if_pos hBack]
    obtain ⟨before', leaf, -, -, rfl, hAt'⟩ :=
      hAt.back (Nat.pos_iff_ne_zero.mp hBack.2)
    refine ⟨by dsimp only; omega, before', _, hAt',
      hNone before' ?_⟩
    exact fun x hx => hBelow x (List.mem_append_left _ hx)
  · rw [if_neg hBack]
    exact ⟨by dsimp only; omega, before, after, hAt,
      hNone before hBelow⟩

----------
-- What Is Reported
----------

/- All bytes of the run have an extent. -/
def RunCovered
    (e : ExtentRoot M)
    (run : Range) : Prop :=
  AllCovered e.keys run.1 (run.2 - run.1)

/- Some csum item covers a byte that no extent covers. -/
def CsumWithoutExtent
    (c : CsumRoot N)
    (e : ExtentRoot M) : Prop :=
  ∃ b, c.Covered b ∧ ¬ CoveredBy e.keys b

/-
  Some byte of the run has no extent, or only those that a
  search for the run passes over.
-/
def Missed
    (e : ExtentRoot M)
    (run : Range) : Prop :=
  ∃ b, run.Has b ∧
    ∀ key ∈ e.keys, CoveredBy [key] b →
      OutOfSight e run.1 key

/- The extent tree: keys that go up, and no end that wraps. -/
structure ExtentRoot.Ok
    (e : ExtentRoot M) : Prop where
  tree : e.Tree
  bounded : ExtentRoot.Bounded e.keys

/- The csum tree, as the loop wants it. -/
structure CsumRoot.Ok
    (c : CsumRoot N) : Prop where
  tree : c.Tree
  plain : c.Plain
  bounded : ∀ r ∈ c.ranges, r.2 < 2 ^ 64

theorem ranges_le :
    ∀ r ∈ c.ranges, r.1 ≤ r.2 := by
  intro r hr
  obtain ⟨x, -, -, rfl⟩ := CsumRoot.mem_rangesOf.mp hr
  exact Nat.le_add_right _ _

/- A check of a run that is not empty. -/
theorem checkExtentExists_run
    (hExtents : e.Ok)
    {run : Range}
    {fuel : Nat}
    (hSome : run.1 < run.2)
    (hStop : run.2 < 2 ^ 64)
    (hFuel : 2 ^ 64 + 2 * e.keys.length + 2 ≤ fuel) :
    ∃ ret,
      checkExtentExists e fuel run.1 (run.2 - run.1) =
          some ret ∧
        (ret = 0 ↔ ¬ Missed e run) := by
  have hEnd : run.1 + (run.2 - run.1) < 2 ^ 64 := by omega
  have hEnough : run.2 - run.1 + 2 * e.keys.length + 2 ≤
      fuel := by omega
  obtain ⟨ret, before, after, hParted, hRet, hIff⟩ :=
    checkExtentExists_start hExtents.tree hExtents.bounded
      hEnd hEnough
  refine ⟨ret, hRet, hIff.trans ?_⟩
  constructor
  · rintro hAll ⟨b, ⟨hLow, hHigh⟩, hOut⟩
    obtain ⟨key, hKey, hCovers⟩ := hAll b hLow (by omega)
    have hSeen := (hParted.mem_after hExtents.tree).mp hKey
    exact hSeen.2 (hOut key hSeen.1
      ⟨key, List.mem_cons_self, hCovers⟩)
  · intro hNot b hLow hHigh
    by_contra hBare
    refine hNot ⟨b, ⟨hLow, by omega⟩, fun key hKey hHere => ?_⟩
    by_contra hSeen
    obtain ⟨k, hK, hCovers⟩ := hHere
    rw [List.mem_singleton.mp hK] at hCovers
    exact hBare ⟨key, (hParted.mem_after hExtents.tree).mpr
      ⟨hKey, hSeen⟩, hCovers⟩

theorem missed_of_not_covered
    {run : Range}
    (hBare : ¬ RunCovered e run) :
    Missed e run := by
  by_contra hNot
  refine hBare fun b hLow hHigh => ?_
  by_contra hNone
  refine hNot ⟨b, ⟨hLow, by omega⟩, fun key hKey hHere => ?_⟩
  obtain ⟨k, hK, hCovers⟩ := hHere
  rw [List.mem_singleton.mp hK] at hCovers
  exact absurd ⟨key, hKey, hCovers⟩ hNone

/- The errors are those of the runs before the last one. -/
theorem checkCsums_reports
    (hCsums : c.Ok)
    (hExtents : e.Ok)
    (fuel : Nat)
    (hFuel : 2 ^ 64 + 2 * e.keys.length + 2 +
      c.items.length ≤ fuel) :
    ∃ errors : Nat,
      checkCsums c e fuel = some (errors : Int) ∧
        (errors ≠ 0 ↔ ∃ run ∈ (csumRuns c.ranges).dropLast,
          Missed e run) := by
  obtain ⟨hRet, before, after, hAt, hNone⟩ :=
    csumsStart_at hCsums.tree
  have hItems : c.items = before ++ after := hAt.items
  have hRanges : c.ranges = c.rangesOf after := by
    unfold CsumRoot.ranges
    rw [hItems, CsumRoot.rangesOf_append, hNone,
      List.nil_append]
  have hLength : after.length ≤ c.items.length := by
    rw [hItems, List.length_append]
    omega
  have hNoRun : 0 + 0 < 2 ^ 64 := by decide
  have hEnough : after.length + 1 ≤ fuel := by omega
  have hLoop := csumsLoop_eq hCsums.tree
    (checkExtentExists e fuel)
    (fun x hx => hCsums.plain x (by
      rw [hItems]
      exact List.mem_append_right _ hx))
    (by
      rw [← hRanges]
      exact hCsums.bounded)
    hAt hNoRun hEnough 0
  rw [← hRanges] at hLoop
  change _ = (errorsOf _ (csumRuns c.ranges).dropLast).map _
    at hLoop
  have hCheck : ∀ run ∈ (csumRuns c.ranges).dropLast, ∃ ret,
      checkExtentExists e fuel run.1 (run.2 - run.1) =
          some ret ∧
        (ret = 0 ↔ ¬ Missed e run) := by
    intro run hRun
    have hSome := run_lt (Nat.le_refl 0) ranges_le hRun
    have hIn : run ∈ runsFrom (0, 0) c.ranges :=
      List.mem_of_mem_dropLast hRun
    exact checkExtentExists_run hExtents hSome
      (run_bounded hNoRun hCsums.bounded hIn) (by omega)
  obtain ⟨errors, hErrors, hIff⟩ := errorsOf_iff hCheck
  simp only [not_not] at hIff
  refine ⟨errors, ?_, hIff⟩
  rw [hErrors, Option.map_some, Nat.zero_add] at hLoop
  unfold checkCsums
  rcases hStart : csumsStart c with ⟨ret, path⟩
  rw [hStart] at hRet hLoop
  dsimp only at hRet hLoop ⊢
  rw [if_neg hRet]
  exact hLoop

/- Some byte is without an extent just if it is in some run. -/
theorem csumWithoutExtent_iff :
    CsumWithoutExtent c e ↔
      ∃ run ∈ csumRuns c.ranges, ¬ RunCovered e run := by
  have hRuns : ∀ b, c.Covered b ↔
      ∃ run ∈ csumRuns c.ranges, run.Has b := by
    intro b
    have hNone : ¬ Range.Has (0, 0) b := by
      rintro ⟨-, hLess⟩
      exact absurd hLess (Nat.not_lt_zero b)
    have hMem : (∃ run ∈ runsFrom (0, 0) c.ranges,
        run.Has b) ↔
          Range.Has (0, 0) b ∨ ∃ r ∈ c.ranges, r.Has b :=
      mem_runsFrom (Nat.le_refl 0) ranges_le
    exact ((or_iff_right hNone).symm.trans hMem.symm)
  constructor
  · rintro ⟨b, hCovered, hBare⟩
    obtain ⟨run, hRun, hHas⟩ := (hRuns b).mp hCovered
    have hLess := hHas.2
    have hLow := hHas.1
    exact ⟨run, hRun, fun hAll =>
      hBare (hAll b hLow (by omega))⟩
  · rintro ⟨run, hRun, hNot⟩
    by_contra hNone
    refine hNot fun b hLow hHigh => ?_
    by_contra hBare
    exact hNone ⟨b, (hRuns b).mpr
      ⟨run, hRun, hLow, by omega⟩, hBare⟩

/-
  Errors are reported just if they should be, where a run
  before the last one has a byte without an extent, or where
  the last run has one just if an earlier run is taken to have
  one, as all extents of some byte are out of sight.
-/
theorem checkCsums_complete_iff
    (hCsums : c.Ok)
    (hExtents : e.Ok) :
    (∃ enough, ∀ fuel, enough ≤ fuel →
      ∃ errors,
        checkCsums c e fuel = some errors ∧
          (errors ≠ 0 ↔ CsumWithoutExtent c e)) ↔
      (∃ run ∈ (csumRuns c.ranges).dropLast,
        ¬ RunCovered e run) ∨
      (¬ RunCovered e ((csumRuns c.ranges).getLast
          (runsFrom_ne_nil _ _)) ↔
        ∃ run ∈ (csumRuns c.ranges).dropLast,
          Missed e run) := by
  have hSplit : (csumRuns c.ranges).dropLast ++
      [(csumRuns c.ranges).getLast (runsFrom_ne_nil _ _)] =
        csumRuns c.ranges :=
    List.dropLast_append_getLast _
  generalize (csumRuns c.ranges).getLast
    (runsFrom_ne_nil _ _) = last at hSplit ⊢
  have hTruth := csumWithoutExtent_iff (c := c) (e := e)
  rw [← hSplit] at hTruth
  have hReports := fun fuel =>
    checkCsums_reports hCsums hExtents fuel
  generalize (csumRuns c.ranges).dropLast = runs
    at hTruth hReports ⊢
  have hAny : (∃ run ∈ runs ++ [last], ¬ RunCovered e run) ↔
      (∃ run ∈ runs, ¬ RunCovered e run) ∨
        ¬ RunCovered e last := by
    simp only [List.mem_append, List.mem_singleton, or_and_right,
      exists_or, exists_eq_left]
  have hSome : (∃ run ∈ runs, ¬ RunCovered e run) →
      ∃ run ∈ runs, Missed e run := by
    rintro ⟨run, hRun, hBare⟩
    exact ⟨run, hRun, missed_of_not_covered hBare⟩
  rw [hAny] at hTruth
  constructor
  · rintro ⟨enough, hAll⟩
    obtain ⟨errors, hRun, hExact⟩ := hAll _
      (Nat.le_add_right enough _)
    obtain ⟨errors', hRun', hIff⟩ := hReports _
      (Nat.le_add_left (2 ^ 64 + 2 * e.keys.length + 2 +
        c.items.length) enough)
    have hSame : errors = (errors' : Int) :=
      Option.some.inj (hRun.symm.trans hRun')
    rw [hSame, Int.natCast_ne_zero, hIff, hTruth] at hExact
    by_cases hEarly : ∃ run ∈ runs, ¬ RunCovered e run
    · exact .inl hEarly
    · rw [or_iff_right hEarly] at hExact
      exact .inr hExact.symm
  · intro hCond
    refine ⟨2 ^ 64 + 2 * e.keys.length + 2 + c.items.length,
      fun fuel hFuel => ?_⟩
    obtain ⟨errors, hRun, hIff⟩ := hReports fuel hFuel
    refine ⟨errors, hRun, ?_⟩
    rw [Int.natCast_ne_zero, hIff, hTruth]
    rcases hCond with hEarly | hLast
    · exact iff_of_true (hSome hEarly) (.inl hEarly)
    · rw [hLast]
      exact (or_iff_right_of_imp hSome).symm

end Csums

----------
-- One Run
----------

theorem oneCsum_ok : oneCsum.Ok := by
  refine ⟨oneCsum_tree, ?_, ?_⟩
  · intro x hx _
    rw [List.mem_singleton.mp (show x ∈ [(csumKey 4096, 8)]
      from hx)]
    exact isCsum_csumKey 4096
  · rw [oneCsum_ranges]
    simp

/- An extent tree with some extents of one leaf. -/
def extentsOf
    (extents : List Key) : ExtentRoot Unit where
  slots := leafSlots extents.length
  key := fun _ i => extents.getD i ⟨0, 0, 0⟩
  top := 0
  root := ()

/- The extent of the two sectors. -/
def twoSectors : Key :=
  ⟨4096, EXTENT_ITEM_KEY, 8192⟩

theorem twoSectors_ok : (extentsOf [twoSectors]).Ok := by
  have hKeys : (extentsOf [twoSectors]).keys = [twoSectors] :=
    rfl
  refine ⟨leafSlots_tree fun i j hLess hIn => ?_, ?_⟩
  · have hOne : j < 1 := hIn
    omega
  · rw [hKeys]
    unfold ExtentRoot.Bounded
    decide

theorem checkCsums_complete_iff_one :
    ∃ enough, ∀ fuel, enough ≤ fuel →
      ∃ errors,
        checkCsums oneCsum (extentsOf [twoSectors]) fuel =
            some errors ∧
          (errors ≠ 0 ↔
            CsumWithoutExtent oneCsum
              (extentsOf [twoSectors])) := by
  refine (checkCsums_complete_iff oneCsum_ok
    twoSectors_ok).mpr (.inr ?_)
  have hRuns : csumRuns oneCsum.ranges = [(4096, 12288)] := by
    rw [oneCsum_ranges]
    rfl
  have hCovered : RunCovered (extentsOf [twoSectors])
      (4096, 12288) :=
    fun _ hLow hHigh =>
      ⟨twoSectors, List.mem_cons_self, rfl, hLow, hHigh⟩
  simp only [hRuns, List.getLast_singleton]
  exact iff_of_false (not_not_intro hCovered) (by simp)

/-
  The only run is the last one, and is not checked: with no
  extent at all there is no error.
-/
theorem checkCsums_skips_last :
    checkCsums oneCsum (extentsOf []) 3 = some 0 ∧
      CsumWithoutExtent oneCsum (extentsOf []) := by
  constructor
  · have hStart : csumsStart oneCsum =
        (1, emptyPath.put 0 () 0) := by
      unfold csumsStart
      rw [show searchKey oneCsum.slots oneCsum.key oneCsum.top
        oneCsum.root (csumKey 0) emptyPath = _ from
          oneCsum_search]
      rfl
    unfold checkCsums
    rw [hStart]
    rfl
  · refine ⟨4096, ?_, ?_⟩
    · unfold CsumRoot.Covered
      rw [oneCsum_ranges]
      exact ⟨_, List.mem_cons_self, by decide, by decide⟩
    · rintro ⟨k, hK, -⟩
      cases hK

end CsumCheck

end BtrfsProgs
