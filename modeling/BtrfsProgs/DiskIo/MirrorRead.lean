import BtrfsProgs.Crc32c
import BtrfsProgs.Lib.Loop
import BtrfsProgs.Lib.Record

/-
  Which copy of a tree block `read_tree_block` returns.

  The mirrors of a block are numbered as for `read_whole_eb`:
  number 0 leaves the choice of the copy to the mapping.

  Main declarations:
    * `Mirrors` and `readTreeBlock`
    * `Selected`
    * `bufferAfter` and `ChoosesWell`
    * `readTreeBlock_selects_iff`
-/

----------
-- Tree Blocks
----------

namespace BtrfsProgs

namespace DiskIo

namespace MirrorRead

open Record

/- `btrfs_header_fsid` -/
def headerFsid
    (data : List UInt8) : List UInt8 :=
  (data.drop 32).take 16

def headerBytenr
    (data : List UInt8) : Nat :=
  field data 48 8

def headerGeneration
    (data : List UInt8) : Nat :=
  field data 80 8

/- A buffer, and whether it is on the list of blocks to be
   copied. -/
structure ExtentBuffer where
  start : Nat
  data : List UInt8
  uptodate : Bool
  badTransid : Bool
  recow : Bool
deriving Repr, DecidableEq

/- `check_tree_block`, with the fsids of the devices and of
   their seeds. -/
def checkTreeBlock
    (fsids : List (List UInt8))
    (start : Nat)
    (data : List UInt8) : Bool :=
  start == headerBytenr data &&
    fsids.any fun fsid => fsid == headerFsid data

/- The checksum that `csum_tree_block` computes. -/
def treeBlockCsum
    (data : List UInt8) : List UInt8 :=
  LittleEndian.encode 4
    (~~~ crc32c (BitVec.allOnes 32) (data.drop 32)).toNat

/- `csum_tree_block` with `verify`. -/
def csumTreeBlock
    (data : List UInt8) : Bool :=
  data.take 4 == treeBlockCsum data

----------
-- Reading
----------

/-
  What the mirrors hold: `read` is the block that is read from
  a mirror, and `torn` what is in the buffer after a mirror
  could not be read.
-/
structure Mirrors where
  numCopies : Nat
  read : Nat → Option (List UInt8)
  torn : Nat → List UInt8 → List UInt8
  single : numCopies = 1 → read 1 = read 0

/- The filesystem, and the block that is asked for. -/
structure Request where
  fsids : List (List UInt8)
  mirrors : Mirrors
  parentTransid : Nat

/- `read_whole_eb`: whether it succeeds, and the data then. -/
def readWholeEb
    (mirrors : Mirrors)
    (mirror : Nat)
    (data : List UInt8) : Bool × List UInt8 :=
  match mirrors.read mirror with
  | some block => (true, block)
  | none => (false, mirrors.torn mirror data)

/- `verify_parent_transid`: whether it returns 0. -/
def verifyParentTransid
    (eb : ExtentBuffer)
    (parentTransid : Nat)
    (ignore : Bool) : Bool × ExtentBuffer :=
  if parentTransid = 0 ∨
      headerGeneration eb.data = parentTransid then (true, eb)
  else if ignore then (true, { eb with badTransid := true })
  else (false, { eb with uptodate := false })

/- The variables of the loop of `read_tree_block`. -/
structure Attempt where
  eb : ExtentBuffer
  bestTransid : Nat
  mirrorNum : Nat
  goodMirror : Nat
  ignore : Bool

/- What follows a mirror that was not good. -/
def nextAttempt
    (numCopies : Nat)
    (a : Attempt) : Attempt ⊕ Option ExtentBuffer :=
  if a.ignore then .inr none
  else if numCopies = 1 then .inl { a with ignore := true }
  else
    let newer := headerGeneration a.eb.data > a.bestTransid
    let best :=
      if newer then headerGeneration a.eb.data
      else a.bestTransid
    let good := if newer then a.mirrorNum else a.goodMirror
    if a.mirrorNum + 1 > numCopies then
      .inl ⟨a.eb, best, good, good, true⟩
    else .inl ⟨a.eb, best, a.mirrorNum + 1, good, false⟩

/- A block that is returned, marked if it has to be copied. -/
def acceptBlock
    (eb : ExtentBuffer) : ExtentBuffer :=
  { eb with
    recow := eb.recow || eb.badTransid
    uptodate := true }

def readTurn
    (r : Request)
    (a : Attempt) : Attempt ⊕ Option ExtentBuffer :=
  let got := readWholeEb r.mirrors a.mirrorNum a.eb.data
  let eb := { a.eb with data := got.2 }
  if got.1 && checkTreeBlock r.fsids eb.start eb.data &&
      csumTreeBlock eb.data then
    let verified :=
      verifyParentTransid eb r.parentTransid a.ignore
    if verified.1 then .inr (some (acceptBlock verified.2))
    else nextAttempt r.mirrors.numCopies
      { a with eb := verified.2 }
  else nextAttempt r.mirrors.numCopies { a with eb := eb }

/-
  `read_tree_block` with the buffer of the block.  One that is
  up to date is returned as it is, with `btrfs_buffer_uptodate`
  looking at its generation.
-/
def readTreeBlock
    (r : Request)
    (fuel : Nat)
    (eb : ExtentBuffer) : Option (Option ExtentBuffer) :=
  if eb.uptodate then
    some (some (verifyParentTransid eb r.parentTransid true).2)
  else Loop.run (readTurn r) fuel ⟨eb, 0, 0, 0, false⟩

----------
-- The Choice of a Copy
----------

/- The block passes `check_tree_block` and the checksum. -/
def Passes
    (r : Request)
    (start : Nat)
    (data : List UInt8) : Prop :=
  checkTreeBlock r.fsids start data = true ∧
    csumTreeBlock data = true

/- A mirror can be read, and what is read passes. -/
def Holds
    (r : Request)
    (start mirror : Nat)
    (data : List UInt8) : Prop :=
  mirror ≤ r.mirrors.numCopies ∧
    r.mirrors.read mirror = some data ∧ Passes r start data

variable {data : List UInt8}

/- With one copy there is only mirror 0. -/
theorem Holds.first
    {r : Request}
    {start mirror : Nat}
    (hHolds : Holds r start mirror data)
    (hOne : r.mirrors.numCopies = 1) :
    Holds r start 0 data := by
  refine ⟨Nat.zero_le _, ?_, hHolds.2.2⟩
  have hLe := hHolds.1
  by_cases hZero : mirror = 0
  · rw [← hZero]
    exact hHolds.2.1
  · have hIs : mirror = 1 := by omega
    rw [← r.mirrors.single hOne, ← hIs]
    exact hHolds.2.1

/- The generation is the one that is asked for. -/
def Current
    (r : Request)
    (data : List UInt8) : Prop :=
  r.parentTransid = 0 ∨
    headerGeneration data = r.parentTransid

/- The copy that is returned is the right one. -/
structure Selected
    (r : Request)
    (start : Nat)
    (out : Option ExtentBuffer) : Prop where
  found : (∃ eb, out = some eb) ↔
    ∃ mirror data, Holds r start mirror data
  copied : ∀ eb, out = some eb →
    ∃ mirror, Holds r start mirror eb.data
  current : ∀ eb, out = some eb →
    (∃ mirror data, Holds r start mirror data ∧
      Current r data) → Current r eb.data
  newest : ∀ eb, out = some eb →
    (¬ ∃ mirror data, Holds r start mirror data ∧
      Current r data) →
    eb.badTransid = true ∧
      ∀ mirror data, Holds r start mirror data →
        headerGeneration data ≤ headerGeneration eb.data

/- The call ends with the right copy. -/
def Selects
    (r : Request)
    (eb : ExtentBuffer) : Prop :=
  ∃ fuel out, readTreeBlock r fuel eb = some out ∧
    Selected r eb.start out

/- What is in the buffer when a mirror has been tried. -/
def bufferAfter
    (mirrors : Mirrors)
    (data : List UInt8) : Nat → List UInt8
  | 0 => (readWholeEb mirrors 0 data).2
  | m + 1 =>
      (readWholeEb mirrors (m + 1)
        (bufferAfter mirrors data m)).2

/- The generation in the buffer then. -/
def generationAfter
    (mirrors : Mirrors)
    (data : List UInt8)
    (m : Nat) : Nat :=
  headerGeneration (bufferAfter mirrors data m)

/-
  The first of the mirrors after which the generation in the
  buffer is the highest.
-/
structure FirstNewest
    (mirrors : Mirrors)
    (data : List UInt8)
    (k : Nat) : Prop where
  le : k ≤ mirrors.numCopies
  before : ∀ m < k,
    generationAfter mirrors data m <
      generationAfter mirrors data k
  behind : ∀ m ≤ mirrors.numCopies,
    generationAfter mirrors data m ≤
      generationAfter mirrors data k

/-
  The choice by the generation in the buffer is right: there
  is no choice, no good copy, a current one, or the first of
  the highest generations is that of a good copy.
-/
def ChoosesWell
    (r : Request)
    (eb : ExtentBuffer) : Prop :=
  r.mirrors.numCopies = 1 ∨
    (¬ ∃ mirror data, Holds r eb.start mirror data) ∨
    (∃ mirror data, Holds r eb.start mirror data ∧
      Current r data) ∨
    ∃ mirror data, Holds r eb.start mirror data ∧
      FirstNewest r.mirrors eb.data mirror

----------
-- A Turn
----------

section Turn

variable {r : Request}
variable {a : Attempt}

theorem readWholeEb_some
    {mirrors : Mirrors}
    {mirror : Nat}
    {data block : List UInt8}
    (hRead : mirrors.read mirror = some block) :
    readWholeEb mirrors mirror data = (true, block) := by
  unfold readWholeEb
  rw [hRead]

/- A mirror that is good enough is returned. -/
theorem readTurn_good
    {data : List UInt8}
    (hRead : r.mirrors.read a.mirrorNum = some data)
    (hPasses : Passes r a.eb.start data)
    (hEnough : Current r data ∨ a.ignore = true) :
    ∃ eb, readTurn r a = .inr (some eb) ∧ eb.data = data ∧
      (¬ Current r data → eb.badTransid = true) := by
  unfold readTurn
  rw [readWholeEb_some hRead]
  dsimp only
  rw [hPasses.1, hPasses.2]
  unfold verifyParentTransid
  by_cases hCurrent : Current r data
  · have hFits : r.parentTransid = 0 ∨
        headerGeneration data = r.parentTransid := hCurrent
    simp only [Bool.and_self, if_true, if_pos hFits]
    exact ⟨_, rfl, rfl, fun hNot => absurd hCurrent hNot⟩
  · have hOff : ¬ (r.parentTransid = 0 ∨
        headerGeneration data = r.parentTransid) := hCurrent
    have hIgnore : a.ignore = true := by
      rcases hEnough with hIs | hIgnore
      · exact absurd hIs hCurrent
      · exact hIgnore
    simp only [Bool.and_self, if_true, if_neg hOff, hIgnore]
    exact ⟨_, rfl, rfl, fun _ => rfl⟩

/- A mirror that is not leaves its bytes in the buffer. -/
theorem readTurn_bad
    (hBad : ∀ data, r.mirrors.read a.mirrorNum = some data →
      Passes r a.eb.start data →
        ¬ Current r data ∧ a.ignore = false) :
    ∃ eb, readTurn r a =
        nextAttempt r.mirrors.numCopies { a with eb := eb } ∧
      eb.start = a.eb.start ∧
      eb.data =
        (readWholeEb r.mirrors a.mirrorNum a.eb.data).2 := by
  unfold readTurn
  cases hRead : r.mirrors.read a.mirrorNum with
  | none =>
      have hGot : (readWholeEb r.mirrors a.mirrorNum
          a.eb.data).1 = false := by
        unfold readWholeEb
        rw [hRead]
      simp only [hGot, Bool.false_and, Bool.false_eq_true,
        if_false]
      exact ⟨_, rfl, rfl, rfl⟩
  | some data =>
      rw [readWholeEb_some hRead]
      by_cases hPasses : Passes r a.eb.start data
      · rcases hBad data hRead hPasses with ⟨hOff, hIgnore⟩
        have hNot : ¬ (r.parentTransid = 0 ∨
            headerGeneration data = r.parentTransid) := hOff
        unfold verifyParentTransid
        simp only [hPasses.1, hPasses.2, Bool.and_self,
          if_true, if_neg hNot, hIgnore, Bool.false_eq_true,
          if_false]
        exact ⟨_, rfl, rfl, rfl⟩
      · have hFails : (checkTreeBlock r.fsids a.eb.start data &&
            csumTreeBlock data) = false := by
          apply Bool.eq_false_iff.mpr
          intro hBoth
          exact hPasses (Bool.and_eq_true_iff.mp hBoth)
        simp only [Bool.true_and, hFails, Bool.false_eq_true,
          if_false]
        exact ⟨_, rfl, rfl, rfl⟩

end Turn

----------
-- The First Pass
----------

/- What is in the buffer when a mirror is about to be read. -/
def bufferBefore
    (mirrors : Mirrors)
    (data : List UInt8) : Nat → List UInt8
  | 0 => data
  | m + 1 => bufferAfter mirrors data m

theorem bufferAfter_eq
    (mirrors : Mirrors)
    (data : List UInt8)
    (m : Nat) :
    bufferAfter mirrors data m =
      (readWholeEb mirrors m
        (bufferBefore mirrors data m)).2 := by
  cases m with
  | zero => rfl
  | succ m => rfl

variable {mirrors : Mirrors}

theorem bufferAfter_read
    {data block : List UInt8}
    {m : Nat}
    (hRead : mirrors.read m = some block) :
    bufferAfter mirrors data m = block := by
  rw [bufferAfter_eq, readWholeEb_some hRead]

/- The best of the mirrors that have been tried. -/
structure BestSoFar
    (mirrors : Mirrors)
    (data : List UInt8)
    (m best good : Nat) : Prop where
  start : m = 0 → best = 0 ∧ good = 0
  attained : 0 < m → good < m ∧
    best = generationAfter mirrors data good
  before : ∀ j < good, generationAfter mirrors data j < best
  behind : ∀ j < m, generationAfter mirrors data j ≤ best

theorem BestSoFar.next
    {m best good : Nat}
    (hBest : BestSoFar mirrors data m best good) :
    let generation := generationAfter mirrors data m
    BestSoFar mirrors data (m + 1)
      (if generation > best then generation else best)
      (if generation > best then m else good) := by
  intro generation
  by_cases hNewer : generation > best
  · rw [if_pos hNewer, if_pos hNewer]
    refine ⟨by omega, fun _ => ⟨by omega, rfl⟩, ?_, ?_⟩
    · intro j hj
      exact Nat.lt_of_le_of_lt (hBest.behind j hj) hNewer
    · intro j hj
      by_cases hLast : j = m
      · rw [hLast]
      · exact (Nat.lt_of_le_of_lt
          (hBest.behind j (by omega)) hNewer).le
  · rw [if_neg hNewer, if_neg hNewer]
    refine ⟨by omega, fun _ => ?_, hBest.before, ?_⟩
    · by_cases hFirst : m = 0
      · rcases hBest.start hFirst with ⟨hZero, hGood⟩
        refine ⟨by omega, ?_⟩
        change ¬ generationAfter mirrors data m > best at hNewer
        rw [hGood, ← hFirst]
        omega
      · rcases hBest.attained (by omega) with ⟨hLess, hIs⟩
        exact ⟨by omega, hIs⟩
    · intro j hj
      by_cases hLast : j = m
      · rw [hLast]
        exact Nat.le_of_not_lt hNewer
      · exact hBest.behind j (by omega)

/- Where the first pass is when a mirror is to be read. -/
structure Trying
    (r : Request)
    (eb : ExtentBuffer)
    (a : Attempt) : Prop where
  start : a.eb.start = eb.start
  data : a.eb.data =
    bufferBefore r.mirrors eb.data a.mirrorNum
  ignore : a.ignore = false
  le : a.mirrorNum ≤ r.mirrors.numCopies
  single : r.mirrors.numCopies = 1 → a.mirrorNum = 0
  best : BestSoFar r.mirrors eb.data a.mirrorNum
    a.bestTransid a.goodMirror
  none : ∀ j < a.mirrorNum, ∀ data,
    Holds r eb.start j data → ¬ Current r data

/- The last try, at the mirror that has been chosen. -/
structure Retrying
    (r : Request)
    (eb : ExtentBuffer)
    (a : Attempt) : Prop where
  start : a.eb.start = eb.start
  ignore : a.ignore = true
  chosen : (r.mirrors.numCopies = 1 ∧ a.mirrorNum = 0) ∨
    r.mirrors.numCopies ≠ 1 ∧
      FirstNewest r.mirrors eb.data a.mirrorNum
  none : ∀ mirror data, Holds r eb.start mirror data →
    ¬ Current r data

/- A current copy is returned in the first pass. -/
def Early
    (r : Request)
    (start : Nat)
    (out : Option ExtentBuffer) : Prop :=
  ∃ eb mirror, out = some eb ∧ Holds r start mirror eb.data ∧
    Current r eb.data

theorem Trying.turn
    {r : Request}
    {eb : ExtentBuffer}
    {a : Attempt}
    (hTrying : Trying r eb a) :
    (∃ out, readTurn r a = .inr out ∧
      Early r eb.start out) ∨
    ∃ b, readTurn r a = .inl b ∧
      (Retrying r eb b ∨
        Trying r eb b ∧ b.mirrorNum = a.mirrorNum + 1) := by
  by_cases hGood : ∃ data,
      Holds r eb.start a.mirrorNum data ∧ Current r data
  · rcases hGood with ⟨data, hHolds, hCurrent⟩
    have hPasses : Passes r a.eb.start data := by
      rw [hTrying.start]
      exact hHolds.2.2
    rcases readTurn_good hHolds.2.1 hPasses (Or.inl hCurrent)
      with ⟨out, hTurn, hData, _⟩
    refine Or.inl ⟨some out, hTurn, out, a.mirrorNum, rfl, ?_,
      ?_⟩
    · rw [hData]
      exact hHolds
    · rw [hData]
      exact hCurrent
  · have hBad : ∀ data,
        r.mirrors.read a.mirrorNum = some data →
        Passes r a.eb.start data →
          ¬ Current r data ∧ a.ignore = false := by
      intro data hRead hPasses
      rw [hTrying.start] at hPasses
      refine ⟨?_, hTrying.ignore⟩
      intro hCurrent
      exact hGood ⟨data, ⟨hTrying.le, hRead, hPasses⟩,
        hCurrent⟩
    have hNone : ∀ j < a.mirrorNum + 1, ∀ data,
        Holds r eb.start j data → ¬ Current r data := by
      intro j hj data hHolds hCurrent
      by_cases hLast : j = a.mirrorNum
      · rw [hLast] at hHolds
        exact hGood ⟨data, hHolds, hCurrent⟩
      · exact hTrying.none j (by omega) data hHolds hCurrent
    rcases readTurn_bad hBad with
      ⟨next, hTurn, hStart, hData⟩
    have hAfter : next.data =
        bufferAfter r.mirrors eb.data a.mirrorNum := by
      rw [hData, hTrying.data, ← bufferAfter_eq]
    have hGeneration : headerGeneration next.data =
        generationAfter r.mirrors eb.data a.mirrorNum := by
      rw [hAfter]
      rfl
    have hBest := hTrying.best.next
    rw [← hGeneration] at hBest
    dsimp only at hBest
    refine Or.inr ?_
    rw [hTurn]
    unfold nextAttempt
    simp only [hTrying.ignore, Bool.false_eq_true, if_false]
    by_cases hOne : r.mirrors.numCopies = 1
    · rw [if_pos hOne]
      have hFirst := hTrying.single hOne
      refine ⟨_, rfl, Or.inl ⟨hStart.trans hTrying.start, rfl,
        Or.inl ⟨hOne, hFirst⟩, ?_⟩⟩
      intro mirror data hHolds
      exact hNone 0 (by omega) data (hHolds.first hOne)
    · rw [if_neg hOne]
      by_cases hLast : a.mirrorNum + 1 > r.mirrors.numCopies
      · rw [if_pos hLast]
        have hLe := hTrying.le
        refine ⟨_, rfl, Or.inl ⟨hStart.trans hTrying.start,
          rfl, Or.inr ⟨hOne, ?_⟩, ?_⟩⟩
        · rcases hBest.attained (by omega) with ⟨hLess, hIs⟩
          dsimp only
          refine ⟨by omega, ?_, ?_⟩
          · intro j hj
            rw [← hIs]
            exact hBest.before j hj
          · intro j hj
            rw [← hIs]
            exact hBest.behind j (by omega)
        · intro mirror data hHolds
          exact hNone mirror (by have := hHolds.1; omega) data
            hHolds
      · rw [if_neg hLast]
        have hLe : a.mirrorNum + 1 ≤ r.mirrors.numCopies := by
          omega
        exact ⟨_, rfl, Or.inr ⟨⟨hStart.trans hTrying.start,
          hAfter, rfl, hLe, fun hIs => absurd hIs hOne, hBest,
          hNone⟩, rfl⟩⟩

/- The first pass finds a current copy, or chooses a mirror. -/
theorem Trying.run
    {r : Request}
    {eb : ExtentBuffer}
    {a : Attempt}
    (hTrying : Trying r eb a) :
    Loop.Ends (readTurn r) (Early r eb.start) a ∨
      ∃ b, Loop.Comes (readTurn r) a b ∧ Retrying r eb b := by
  induction hLeft : r.mirrors.numCopies - a.mirrorNum
    generalizing a with
  | zero =>
      rcases hTrying.turn with
        ⟨out, hTurn, hEarly⟩ | ⟨b, hTurn, hRetry | hMore⟩
      · exact Or.inl (.done hTurn hEarly)
      · exact Or.inr ⟨b, .head hTurn (.refl b), hRetry⟩
      · have hLe := hMore.1.le
        omega
  | succ left ih =>
      rcases hTrying.turn with
        ⟨out, hTurn, hEarly⟩ | ⟨b, hTurn, hRetry | hMore⟩
      · exact Or.inl (.done hTurn hEarly)
      · exact Or.inr ⟨b, .head hTurn (.refl b), hRetry⟩
      · rcases hMore with ⟨hNext, hNumber⟩
        rcases ih hNext (by omega) with hEnds | ⟨c, hComes, hAt⟩
        · exact Or.inl (hEnds.turn hTurn)
        · exact Or.inr ⟨c, hComes.head hTurn, hAt⟩

theorem trying_start
    {r : Request}
    {eb : ExtentBuffer} :
    Trying r eb ⟨eb, 0, 0, 0, false⟩ where
  start := rfl
  data := rfl
  ignore := rfl
  le := Nat.zero_le _
  single := fun _ => rfl
  best := ⟨fun _ => ⟨rfl, rfl⟩,
    fun hPos => absurd hPos (Nat.lt_irrefl 0),
    fun j hj => absurd hj (Nat.not_lt_zero j),
    fun j hj => absurd hj (Nat.not_lt_zero j)⟩
  none := fun j hj => absurd hj (Nat.not_lt_zero j)

----------
-- The Last Try
----------

theorem FirstNewest.unique
    {j k : Nat}
    (hFirst : FirstNewest mirrors data j)
    (hSecond : FirstNewest mirrors data k) :
    j = k := by
  rcases Nat.lt_trichotomy j k with hLess | hSame | hMore
  · have hBelow := hSecond.before j hLess
    have hAbove := hFirst.behind k hSecond.le
    omega
  · exact hSame
  · have hBelow := hFirst.before k hMore
    have hAbove := hSecond.behind j hFirst.le
    omega

section Last

variable {r : Request}
variable {eb : ExtentBuffer}
variable {a : Attempt}

theorem Retrying.le
    (hRetry : Retrying r eb a) :
    a.mirrorNum ≤ r.mirrors.numCopies := by
  rcases hRetry.chosen with ⟨_, hZero⟩ | ⟨_, hNewest⟩
  · omega
  · exact hNewest.le

/- No good copy is newer than one at the chosen mirror. -/
theorem Retrying.newest
    (hRetry : Retrying r eb a)
    {data : List UInt8}
    (hHolds : Holds r eb.start a.mirrorNum data)
    {mirror : Nat}
    {other : List UInt8}
    (hOther : Holds r eb.start mirror other) :
    headerGeneration other ≤ headerGeneration data := by
  rcases hRetry.chosen with ⟨hOne, hZero⟩ | ⟨_, hNewest⟩
  · have hRead := (hOther.first hOne).2.1
    rw [hZero] at hHolds
    rw [hHolds.2.1] at hRead
    cases hRead
    exact Nat.le_refl _
  · have hBehind := hNewest.behind mirror hOther.1
    unfold generationAfter at hBehind
    rw [bufferAfter_read hOther.2.1,
      bufferAfter_read hHolds.2.1] at hBehind
    exact hBehind

theorem Retrying.accepts
    (hRetry : Retrying r eb a)
    {data : List UInt8}
    (hHolds : Holds r eb.start a.mirrorNum data) :
    ∃ out, readTurn r a = .inr out ∧
      Selected r eb.start out := by
  have hPasses : Passes r a.eb.start data := by
    rw [hRetry.start]
    exact hHolds.2.2
  rcases readTurn_good hHolds.2.1 hPasses
    (Or.inr hRetry.ignore) with ⟨out, hTurn, hData, hFlag⟩
  refine ⟨some out, hTurn, ?_, ?_, ?_, ?_⟩
  · constructor
    · intro _
      exact ⟨a.mirrorNum, data, hHolds⟩
    · intro _
      exact ⟨out, rfl⟩
  · intro b hb
    cases hb
    rw [hData]
    exact ⟨a.mirrorNum, hHolds⟩
  · intro b _ hCurrent
    rcases hCurrent with ⟨mirror, other, hOther, hIs⟩
    exact absurd hIs (hRetry.none mirror other hOther)
  · intro b hb _
    cases hb
    refine ⟨hFlag (hRetry.none _ data hHolds), ?_⟩
    intro mirror other hOther
    rw [hData]
    exact hRetry.newest hHolds hOther

theorem Retrying.refuses
    (hRetry : Retrying r eb a)
    (hNone : ∀ data, ¬ Holds r eb.start a.mirrorNum data) :
    readTurn r a = .inr Option.none := by
  have hBad : ∀ data,
      r.mirrors.read a.mirrorNum = some data →
      Passes r a.eb.start data →
        ¬ Current r data ∧ a.ignore = false := by
    intro data hRead hPasses
    rw [hRetry.start] at hPasses
    exact absurd ⟨hRetry.le, hRead, hPasses⟩ (hNone data)
  rcases readTurn_bad hBad with ⟨next, hTurn, _, _⟩
  rw [hTurn]
  unfold nextAttempt
  simp only [hRetry.ignore, if_true]

end Last

/- A current copy is a right one. -/
theorem Early.selected
    {r : Request}
    {start : Nat}
    {out : Option ExtentBuffer}
    (hEarly : Early r start out) :
    Selected r start out := by
  rcases hEarly with ⟨eb, mirror, rfl, hHolds, hCurrent⟩
  refine ⟨⟨fun _ => ⟨mirror, eb.data, hHolds⟩,
    fun _ => ⟨eb, rfl⟩⟩, ?_, ?_, ?_⟩
  · intro b hb
    cases hb
    exact ⟨mirror, hHolds⟩
  · intro b hb _
    cases hb
    exact hCurrent
  · intro b hb hNone
    cases hb
    exact absurd ⟨mirror, eb.data, hHolds, hCurrent⟩ hNone

/- Nothing is right if there is no good copy. -/
theorem selected_none
    {r : Request}
    {start : Nat}
    (hNone : ¬ ∃ mirror data, Holds r start mirror data) :
    Selected r start none where
  found := by
    constructor
    · intro hSome
      rcases hSome with ⟨eb, hEb⟩
      cases hEb
    · exact fun hHolds => absurd hHolds hNone
  copied := by simp
  current := by simp
  newest := by simp

/- A block that is not in memory is read right just when the
   choice by the generation in the buffer is. -/
theorem selects_iff
    {r : Request}
    {eb : ExtentBuffer}
    (hFresh : eb.uptodate = false) :
    Selects r eb ↔ ChoosesWell r eb := by
  have hCall : ∀ fuel, readTreeBlock r fuel eb =
      Loop.run (readTurn r) fuel ⟨eb, 0, 0, 0, false⟩ := by
    intro fuel
    unfold readTreeBlock
    simp only [hFresh, Bool.false_eq_true, if_false]
  unfold Selects
  simp only [hCall]
  rcases trying_start.run with hEnds | ⟨a, hComes, hRetry⟩
  · constructor
    · intro _
      rcases hEnds with ⟨_, _, _, _, mirror, _, hEarly⟩
      exact Or.inr (Or.inr (Or.inl ⟨mirror, _, hEarly⟩))
    · intro _
      exact hEnds.mono fun out hEarly => hEarly.selected
  · by_cases hAny : ∃ data,
        Holds r eb.start a.mirrorNum data
    · rcases hAny with ⟨data, hHolds⟩
      constructor
      · intro _
        rcases hRetry.chosen with ⟨hOne, _⟩ | ⟨_, hNewest⟩
        · exact Or.inl hOne
        · exact Or.inr (Or.inr (Or.inr
            ⟨a.mirrorNum, data, hHolds, hNewest⟩))
      · intro _
        rcases hRetry.accepts hHolds with
          ⟨out, hTurn, hSelected⟩
        exact hComes.ends (.done hTurn hSelected)
    · have hNone : ∀ data,
          ¬ Holds r eb.start a.mirrorNum data :=
        fun data hHolds => hAny ⟨data, hHolds⟩
      have hTurn := hRetry.refuses hNone
      constructor
      · intro hSelects
        rcases hSelects with ⟨fuel, out, hRun, hSelected⟩
        have hOut := Loop.run_of_comes hRun hComes hTurn
        subst hOut
        refine Or.inr (Or.inl ?_)
        intro hHolds
        rcases hSelected.found.mpr hHolds with ⟨b, hb⟩
        cases hb
      · intro hWell
        apply hComes.ends
        apply Loop.Ends.done hTurn
        apply selected_none
        intro hThere
        rcases hWell with
          hOne | hGone | ⟨mirror, data, hHolds, hIs⟩ |
            ⟨mirror, data, hHolds, hFirst⟩
        · rcases hRetry.chosen with
            ⟨_, hZero⟩ | ⟨hMore, _⟩
          · rcases hThere with ⟨mirror, data, hHolds⟩
            apply hNone data
            rw [hZero]
            exact hHolds.first hOne
          · exact absurd hOne hMore
        · exact hGone hThere
        · exact hRetry.none mirror data hHolds hIs
        · rcases hRetry.chosen with
            ⟨hOne, hZero⟩ | ⟨_, hNewest⟩
          · apply hNone data
            rw [hZero]
            exact hHolds.first hOne
          · rw [hFirst.unique hNewest] at hHolds
            exact hNone data hHolds

/-
  The same, with a block that is up to date, which is returned
  without reading.
-/
theorem readTreeBlock_selects_iff
    (r : Request)
    (eb : ExtentBuffer) :
    (eb.uptodate = false →
      (Selects r eb ↔ ChoosesWell r eb)) ∧
    (eb.uptodate = true → ∀ fuel,
      ∃ out, readTreeBlock r fuel eb = some (some out) ∧
        out.data = eb.data) := by
  refine ⟨selects_iff, ?_⟩
  intro hUptodate fuel
  unfold readTreeBlock
  simp only [hUptodate, if_true]
  refine ⟨_, rfl, ?_⟩
  unfold verifyParentTransid
  split
  · rfl
  · simp

----------
-- Blocks with Their Checksums
----------

/- What follows the checksum, with it in front. -/
def withCsum
    (body : List UInt8) : List UInt8 :=
  LittleEndian.encode 4
      (~~~ crc32c (BitVec.allOnes 32) body).toNat ++
    List.replicate 28 0 ++ body

theorem drop_withCsum
    (body : List UInt8)
    (n : Nat) :
    (withCsum body).drop (32 + n) = body.drop n := by
  rw [← List.drop_drop]
  rfl

theorem csumTreeBlock_withCsum
    (body : List UInt8) :
    csumTreeBlock (withCsum body) = true := by
  have hBody := drop_withCsum body 0
  rw [List.drop_zero] at hBody
  unfold csumTreeBlock treeBlockCsum
  rw [hBody]
  unfold withCsum
  rw [List.append_assoc,
    List.take_left' (LittleEndian.length_encode _ _)]
  exact beq_self_eq_true _

/- The rest of a header: no fsid, address 0, a generation. -/
def bodyOf
    (generation : UInt8) : List UInt8 :=
  List.replicate 48 0 ++ generation :: List.replicate 20 0

def goodCopy
    (generation : UInt8) : List UInt8 :=
  withCsum (bodyOf generation)

theorem goodCopy_generation
    (generation : UInt8) :
    headerGeneration (goodCopy generation) =
      generation.toNat := by
  unfold headerGeneration goodCopy field
  rw [drop_withCsum _ 48]
  change LittleEndian.decode
    (generation :: List.replicate 7 0) = _
  simp [LittleEndian.decode, List.replicate]

theorem goodCopy_passes
    {r : Request}
    (hFsid : List.replicate 16 0 ∈ r.fsids)
    (generation : UInt8) :
    Passes r 0 (goodCopy generation) := by
  refine ⟨?_, csumTreeBlock_withCsum _⟩
  have hBytenr : headerBytenr (goodCopy generation) = 0 := by
    unfold headerBytenr goodCopy field
    rw [drop_withCsum _ 16]
    rfl
  have hHeader : headerFsid (goodCopy generation) =
      List.replicate 16 0 := by
    have hDrop := drop_withCsum (bodyOf generation) 0
    unfold headerFsid goodCopy
    rw [hDrop]
    rfl
  unfold checkTreeBlock
  rw [hBytenr, hHeader]
  apply Bool.and_eq_true_iff.mpr
  refine ⟨rfl, List.any_eq_true.mpr ⟨_, hFsid, ?_⟩⟩
  exact beq_self_eq_true _

def emptyBuffer : ExtentBuffer :=
  ⟨0, List.replicate 101 0, false, false, false⟩

/- Two copies, and what mirror 0 stands for. -/
def twoCopies
    (first second : List UInt8) : Request :=
  ⟨[List.replicate 16 0],
    ⟨2, fun m => some (if m = 2 then second else first),
      fun _ data => data, fun hOne => by cases hOne⟩, 7⟩

/- Of two copies that are too old the newer one is chosen. -/
theorem twoCopies_stale :
    Selects (twoCopies (goodCopy 3) (goodCopy 5))
      emptyBuffer := by
  have hIff := (readTreeBlock_selects_iff
    (twoCopies (goodCopy 3) (goodCopy 5)) emptyBuffer).1 rfl
  apply hIff.mpr
  have hAfter : ∀ m, generationAfter
      (twoCopies (goodCopy 3) (goodCopy 5)).mirrors
      emptyBuffer.data m = if m = 2 then 5 else 3 := by
    intro m
    have hRead :
        (twoCopies (goodCopy 3) (goodCopy 5)).mirrors.read m =
          some (if m = 2 then goodCopy 5 else goodCopy 3) := rfl
    unfold generationAfter
    rw [bufferAfter_read hRead]
    split <;> exact goodCopy_generation _
  refine Or.inr (Or.inr (Or.inr ⟨2, goodCopy 5, ?_, ?_⟩))
  · exact ⟨Nat.le_refl 2, rfl,
      goodCopy_passes (List.mem_singleton_self _) 5⟩
  · refine ⟨Nat.le_refl 2, ?_, ?_⟩
    · intro m hm
      rw [hAfter, hAfter, if_neg (by omega)]
      decide
    · intro m hm
      rw [hAfter, hAfter]
      split <;> decide

/- A copy of nothing but ones. -/
def badCopy : List UInt8 :=
  List.replicate 101 255

/- The bad copy has the higher generation, so that the good
   one is not returned. -/
theorem badCopy_not_selects :
    ¬ Selects (twoCopies (goodCopy 3) badCopy)
      emptyBuffer := by
  intro hSelects
  have hBad : checkTreeBlock [List.replicate 16 0] 0 badCopy =
      false := by decide
  have hGood : Holds (twoCopies (goodCopy 3) badCopy) 0 1
      (goodCopy 3) :=
    ⟨by decide, rfl,
      goodCopy_passes (List.mem_singleton_self _) 3⟩
  have hOnly : ∀ mirror data,
      Holds (twoCopies (goodCopy 3) badCopy) 0 mirror data →
        mirror < 2 ∧ data = goodCopy 3 := by
    intro mirror data hHolds
    have hRead : some (if mirror = 2 then badCopy
      else goodCopy 3) = some data := hHolds.2.1
    have hLe : mirror ≤ 2 := hHolds.1
    by_cases hSecond : mirror = 2
    · rw [if_pos hSecond] at hRead
      cases hRead
      have hCheck := hHolds.2.2.1
      change checkTreeBlock [List.replicate 16 0] 0 badCopy =
        true at hCheck
      rw [hBad] at hCheck
      cases hCheck
    · rw [if_neg hSecond] at hRead
      cases hRead
      exact ⟨by omega, rfl⟩
  have hOld : ¬ Current (twoCopies (goodCopy 3) badCopy)
      (goodCopy 3) := by
    unfold Current
    rw [goodCopy_generation]
    decide
  rcases (selects_iff rfl).mp hSelects with
    hOne | hNone | ⟨mirror, data, hHolds, hIs⟩ |
      ⟨mirror, data, hHolds, hFirst⟩
  · cases hOne
  · exact hNone ⟨1, goodCopy 3, hGood⟩
  · rw [(hOnly mirror data hHolds).2] at hIs
    exact hOld hIs
  · rcases hOnly mirror data hHolds with ⟨hLess, hData⟩
    have hBehind := hFirst.behind 2 (Nat.le_refl 2)
    unfold generationAfter at hBehind
    rw [bufferAfter_read hHolds.2.1, hData,
      goodCopy_generation] at hBehind
    have hHigh : headerGeneration badCopy ≤ (3 : UInt8).toNat :=
      hBehind
    exact absurd hHigh (by decide)

end MirrorRead

end DiskIo

end BtrfsProgs
