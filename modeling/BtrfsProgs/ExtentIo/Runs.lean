import BtrfsProgs.ExtentIo.SetBits
import BtrfsProgs.ExtentIo.ClearBits

/-
  Trees reached by runs of `set_extent_bits` and
  `clear_extent_bits`, and when a call on such a tree is
  pointwise exact.

  Main declarations:
    * `Reachable` and `Reachable.wellFormed`
    * `SetExact`
    * `setExtentBits_exact_iff`
-/

----------
-- Reachable Trees
----------

namespace BtrfsProgs

namespace ExtentIo

open RangeTree

/-
  The trees built from an empty one by calls whose range is
  not empty and ends before the last `u64`.
-/
inductive Reachable : ExtentIoTree → Prop where
  | init : Reachable []
  | set
      {tree tree' : ExtentIoTree}
      {start end_ : Nat}
      {bits : BitVec 64}
      (hTree : Reachable tree)
      (hRange : start ≤ end_)
      (hTop : end_ < u64Max)
      (hSet : setExtentBits tree start end_ bits =
        some tree') :
      Reachable tree'
  | clear
      {tree tree' : ExtentIoTree}
      {start end_ : Nat}
      {bits : BitVec 64}
      {found : BitVec 32}
      (hTree : Reachable tree)
      (hRange : start ≤ end_)
      (hTop : end_ < u64Max)
      (hClear : clearExtentBits tree start end_ bits =
        some (found, tree')) :
      Reachable tree'

/- Every reachable tree is well-formed. -/
theorem Reachable.wellFormed
    {tree : ExtentIoTree}
    (hReachable : Reachable tree) :
    WellFormed tree := by
  induction hReachable with
  | init => exact ⟨Ordered.nil, by simp⟩
  | set _ hRange hTop hSet ih =>
      rcases setExtentBits_spec _ ih hRange hTop with
        ⟨tree', hCall, hWf, -⟩
      obtain rfl := Option.some.inj (hSet.symm.trans hCall)
      exact hWf
  | clear _ hRange _ hClear ih =>
      rcases clearExtentBits_spec _ ih hRange with
        ⟨found', tree', hCall, hWf, -⟩
      have hEq := Option.some.inj (hClear.symm.trans hCall)
      obtain rfl := congrArg Prod.snd hEq
      exact hWf

----------
-- Exactness of a Call
----------

/-
  The call returns a tree of disjoint, non-empty ranges in
  which every byte of the range has gained the bits and every
  other byte is unchanged.
-/
def SetExact
    (tree : ExtentIoTree)
    (start end_ : Nat)
    (bits : BitVec 64) : Prop :=
  ∃ tree',
    setExtentBits tree start end_ bits = some tree' ∧
    (∀ s ∈ tree', s.start ≤ s.end_) ∧
    tree'.Pairwise (fun a b => a.end_ < b.start) ∧
    ∀ x, bitsAt tree' x =
      if start ≤ x ∧ x ≤ end_ then bitsAt tree x ||| bits
      else bitsAt tree x

/-
  The states that hold both `end` and `end + 1` already have
  all the bits.
-/
def StraddlersHaveBits
    (tree : ExtentIoTree)
    (end_ : Nat)
    (bits : BitVec 64) : Prop :=
  ∀ s ∈ tree, s.start ≤ end_ → end_ < s.end_ →
    s.state ||| bits = s.state

/- An outcome is exact when the straddler needs no bits. -/
theorem SetOutcome.setOn_iff
    {tree tree' : ExtentIoTree}
    {start end_ : Nat}
    {bits : BitVec 64}
    (hOutcome : SetOutcome tree tree' start end_ bits)
    (hRange : start ≤ end_) :
    SetOn tree tree' start (end_ + 1) bits ↔
      ∀ v, Spans tree end_ v → v ||| bits = v := by
  cases hOutcome with
  | exact hSet hUnspanned =>
      constructor
      · intro _ v hSpans
        exact absurd hSpans (hUnspanned v)
      · intro _
        exact hSet
  | behind v mid stop hLow hHigh hReaches hSet hSpans
      hValue =>
      have hEnd : bitsAt tree end_ = v :=
        hValue end_ hHigh (by omega)
      constructor
      · intro hExact w hw
        obtain rfl := (hSpans w).mp hw
        -- byte `end` itself was left alone
        have hKept := hSet end_
        rw [if_neg (by omega), hEnd] at hKept
        have hWanted := hExact end_
        rw [if_pos (by omega), hEnd, hKept] at hWanted
        exact hWanted.symm
      · intro hHave x
        have hBits : v ||| bits = v :=
          hHave v ((hSpans v).mpr rfl)
        rw [hSet x]
        by_cases hIn : mid ≤ x ∧ x < stop
        · have hOld := hValue x hIn.1 hIn.2
          simp only [hOld, hBits, ite_self]
        · by_cases hRangeX : start ≤ x ∧ x < end_ + 1
          · rw [if_pos (by omega), if_pos hRangeX]
          · rw [if_neg (by omega), if_neg hRangeX]

/-
  On every reachable tree a call is exact if and only if the
  states reaching past its last byte already have the bits.
-/
theorem setExtentBits_exact_iff
    {tree : ExtentIoTree}
    (hReachable : Reachable tree)
    {start end_ : Nat}
    (bits : BitVec 64)
    (hRange : start ≤ end_)
    (hTop : end_ < 2 ^ 64 - 1) :
    SetExact tree start end_ bits ↔
      StraddlersHaveBits tree end_ bits := by
  rcases setExtentBits_spec bits hReachable.wellFormed
      hRange hTop with
    ⟨tree', hCall, hWf, hOutcome⟩
  have hSetOn := hOutcome.setOn_iff hRange
  have hStraddlers :
      StraddlersHaveBits tree end_ bits ↔
        ∀ v, Spans tree end_ v → v ||| bits = v := by
    constructor
    · rintro hHave v ⟨s, hs, hLow, hHigh, rfl⟩
      exact hHave s hs hLow hHigh
    · intro hHave s hs hLow hHigh
      exact hHave s.state ⟨s, hs, hLow, hHigh, rfl⟩
  rw [hStraddlers, ← hSetOn]
  constructor
  · rintro ⟨final, hFinal, -, -, hBits⟩ x
    obtain rfl := Option.some.inj (hCall.symm.trans hFinal)
    rw [hBits x]
    simp only [Nat.lt_succ_iff]
  · intro hSet
    refine ⟨tree', hCall, ?_, ?_, ?_⟩
    · intro s hs
      exact Nat.lt_succ_iff.mp (hWf.ordered.nonempty s hs)
    · exact hWf.ordered.sorted
    · intro x
      rw [hSet x]
      simp only [Nat.lt_succ_iff]

/- A call over a fresh range of a tree with one state. -/
theorem setExtentBits_exact_iff_example :
    SetExact [⟨0, 99, 1, 0⟩] 50 199 4 := by
  have hReachable : Reachable [⟨0, 99, 1, 0⟩] :=
    @Reachable.set [] _ 0 99 1
      Reachable.init (by decide) (by decide) (by decide)
  refine (setExtentBits_exact_iff hReachable 4 (by decide)
    (by decide)).mpr ?_
  intro s hs hLow hHigh
  obtain rfl := List.mem_singleton.mp hs
  simp at hHigh

/-
  Setting a second bit on bytes 10 to 19 of a state on bytes
  0 to 99: the bytes 20 to 99 get it, bytes 10 to 19 do not.
-/
theorem setExtentBits_not_exact :
    ¬ ∀ (tree : ExtentIoTree) (start end_ : Nat)
        (bits : BitVec 64),
      Reachable tree → start ≤ end_ → end_ < 2 ^ 64 - 1 →
        SetExact tree start end_ bits := by
  intro hAll
  have hReachable : Reachable [⟨0, 99, 1, 0⟩] :=
    @Reachable.set [] _ 0 99 1
      Reachable.init (by decide) (by decide) (by decide)
  rcases hAll _ 10 19 4 hReachable (by decide)
      (by decide) with
    ⟨tree', hCall, -, -, hBits⟩
  have hTree :
      setExtentBits [⟨0, 99, 1, 0⟩] 10 19 4 =
        some [⟨0, 19, 1, 0⟩, ⟨20, 99, 5, 0⟩] := by
    decide
  obtain rfl := Option.some.inj (hTree.symm.trans hCall)
  have hByte := hBits 15
  revert hByte
  decide

end ExtentIo

end BtrfsProgs
