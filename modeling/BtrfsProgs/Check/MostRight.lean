import BtrfsProgs.Check.BackrefVote

/-
  When `find_most_right_entry` can be trusted: it returns only
  an entry with the most votes, and the same one in any order.

  Main declarations:
    * `Trusted`
    * `PairsUp` and `exists_pairsUp`
    * `Settled`
    * `findMostRightEntry_trusted_iff`
-/

----------
-- Trust and Votes
----------

namespace BtrfsProgs

namespace Check

/-
  The entry is not all broken, and has strictly more votes
  than every other one that is not.
-/
def MostVotes
    (entries : List ExtentEntry)
    (e : ExtentEntry) : Prop :=
  ∃ rest, entries.Perm (e :: rest) ∧ e.Eligible ∧
    ∀ f ∈ rest, f.Eligible → f.count < e.count

/- The entry with most votes is found, in any order. -/
structure Trusted
    (entries : List ExtentEntry) : Prop where
  found :
    ∀ e, findMostRightEntry entries = some e →
      MostVotes entries e
  null :
    (∀ e, ¬ MostVotes entries e) →
      findMostRightEntry entries = none
  orderFree :
    ∀ order, entries.Perm order →
      findMostRightEntry order = findMostRightEntry entries

def eligible
    (entries : List ExtentEntry) : List ExtentEntry :=
  entries.filter (ExtentEntry.Eligible ·)

/- How many have some broken vote. -/
def partlyBroken
    (entries : List ExtentEntry) : Nat :=
  entries.countP (·.broken ≠ 0)

/-
  One entry that is not all broken has more votes than every
  other one, all broken or not, and is not the only one that
  is not.
-/
def Leads
    (entries : List ExtentEntry) : Prop :=
  ∃ e rest, entries.Perm (e :: rest) ∧ e.Eligible ∧
    (∀ f ∈ rest, f.count < e.count) ∧
      ∃ f ∈ rest, f.Eligible

/-
  All entries that are not all broken have as many votes, no
  other has more, and too few have a broken vote for the pass
  to come to an end with a best one.
-/
structure Level
    (entries : List ExtentEntry) : Prop where
  many : 2 ≤ (eligible entries).length
  votes :
    ∃ c, ∀ e ∈ entries,
      (e.Eligible → e.count = c) ∧ e.count ≤ c
  odd :
    (eligible entries).length % 2 = 1 ∨
      2 * partlyBroken (eligible entries) <
        (eligible entries).length
  even :
    (∀ e ∈ entries, e.Eligible) ∨
      (eligible entries).length % 2 = 0 ∨
      2 * partlyBroken (eligible entries) + 1 <
        (eligible entries).length

/- There is no choice, a leader, or a tie. -/
def Settled
    (entries : List ExtentEntry) : Prop :=
  (∀ e ∈ entries, ¬ e.Eligible) ∨
    entries.length = 1 ∨ Leads entries ∨ Level entries

section Trust

variable {entries order rest es : List ExtentEntry}
variable {a b e f p x : ExtentEntry} {c : Nat}

theorem MostVotes.perm
    (hMost : MostVotes entries e)
    (hPerm : entries.Perm order) :
    MostVotes order e := by
  obtain ⟨rest, hRest, hVotes⟩ := hMost
  exact ⟨rest, hPerm.symm.trans hRest, hVotes⟩

theorem MostVotes.eligible
    (hMost : MostVotes entries e) :
    e.Eligible := by
  obtain ⟨rest, -, hEligible, -⟩ := hMost
  exact hEligible

theorem Trusted.perm
    (hTrusted : Trusted entries)
    (hPerm : entries.Perm order) :
    Trusted order := by
  have hSame := hTrusted.orderFree order hPerm
  refine ⟨?_, ?_, ?_⟩
  · intro e hFound
    rw [hSame] at hFound
    exact (hTrusted.found e hFound).perm hPerm
  · intro hNone
    rw [hSame]
    exact hTrusted.null fun e hMost =>
      hNone e (hMost.perm hPerm)
  · intro other hOther
    rw [hSame]
    exact hTrusted.orderFree other (hPerm.trans hOther)

theorem eligible_perm
    (hPerm : entries.Perm order) :
    (eligible entries).Perm (eligible order) :=
  hPerm.filter _

theorem mem_eligible :
    e ∈ eligible entries ↔ e ∈ entries ∧ e.Eligible := by
  unfold eligible
  rw [List.mem_filter, decide_eq_true_iff]

theorem eligible_cons_pos
    (hEligible : e.Eligible) :
    eligible (e :: entries) = e :: eligible entries :=
  List.filter_cons_of_pos (by simpa using hEligible)

theorem eligible_cons_neg
    (hBroken : ¬ e.Eligible) :
    eligible (e :: entries) = eligible entries :=
  List.filter_cons_of_neg (by simpa using hBroken)

theorem eligible_none
    (hNone : ∀ e ∈ entries, ¬ e.Eligible) :
    eligible entries = [] := by
  rw [List.eq_nil_iff_forall_not_mem]
  exact fun e he => hNone e (mem_eligible.mp he).1
    (mem_eligible.mp he).2

theorem eligible_all
    (hAll : ∀ e ∈ entries, e.Eligible) :
    eligible entries = entries :=
  List.filter_eq_self.mpr (by simpa using hAll)

theorem eligible_append :
    eligible (entries ++ order) =
      eligible entries ++ eligible order :=
  List.filter_append _ _

/- An entry that is not all broken has votes. -/
theorem ExtentEntry.Eligible.pos
    (hEligible : e.Eligible) :
    0 < e.count := by
  have hLe := e.broken_le
  unfold ExtentEntry.Eligible at hEligible
  omega

theorem Level.perm
    (hLevel : Level entries)
    (hPerm : entries.Perm order) :
    Level order := by
  have hSame := (eligible_perm hPerm).length_eq
  have hBroken : partlyBroken (eligible entries) =
      partlyBroken (eligible order) :=
    (eligible_perm hPerm).countP_eq _
  refine ⟨?_, ?_, ?_, ?_⟩
  · exact hSame ▸ hLevel.many
  · obtain ⟨c, hVotes⟩ := hLevel.votes
    exact ⟨c, fun e he => hVotes e (hPerm.mem_iff.mpr he)⟩
  · exact hSame ▸ hBroken ▸ hLevel.odd
  · refine hLevel.even.imp ?_ ?_
    · exact fun hAll e he => hAll e (hPerm.mem_iff.mpr he)
    · exact fun hFew => hSame ▸ hBroken ▸ hFew

----------
-- As Many Votes
----------

/-
  After a first entry that is all broken the next one is best,
  unless it has fewer votes.
-/
theorem voteTurn_broken
    (hBroken : ¬ x.Eligible)
    (hEligible : e.Eligible)
    (hLe : x.count ≤ e.count) :
    voteTurn ⟨x, none⟩ e = ⟨e, some e⟩ := by
  have hSame : x.broken = x.count := not_not.mp hBroken
  have hPos := hEligible.pos
  rcases hLe.lt_or_eq with hLess | hLevel
  · exact voteTurn_higher hEligible hLess (by simp)
  · rw [voteTurn_level hEligible hLevel, if_neg (by omega)]

/-
  Of entries with as many votes, two after a best one leave a
  best one if the first of them has a broken vote.
-/
def PairsUp : List ExtentEntry → Prop
  | [] => True
  | [_] => False
  | e :: _ :: rest => e.broken ≠ 0 ∧ PairsUp rest

/- `prev` has no broken vote: nothing changes any more. -/
theorem foldl_stuck
    (hWhole : p.broken = 0)
    (hLevel : ∀ e ∈ es, e.Eligible ∧ e.count = p.count) :
    es.foldl voteTurn ⟨p, none⟩ = ⟨p, none⟩ := by
  induction es with
  | nil => rfl
  | cons e rest ih =>
      obtain ⟨hEligible, hSame⟩ := hLevel e List.mem_cons_self
      rw [List.foldl_cons,
        voteTurn_level hEligible hSame.symm, if_pos hWhole]
      exact ih fun f hF => hLevel f (List.mem_cons_of_mem _ hF)

theorem foldl_level
    (hCount : p.count = c)
    (hLevel : ∀ e ∈ f :: es, e.Eligible ∧ e.count = c) :
    (f :: es).foldl voteTurn ⟨p, none⟩ =
      if p.broken = 0 then ⟨p, none⟩
      else es.foldl voteTurn ⟨f, some f⟩ := by
  obtain ⟨hEligible, hSame⟩ := hLevel f List.mem_cons_self
  split
  case isTrue hWhole =>
    exact foldl_stuck hWhole fun e he =>
      ⟨(hLevel e he).1, (hLevel e he).2.trans hCount.symm⟩
  case isFalse hBroken =>
    rw [List.foldl_cons,
      voteTurn_level hEligible (hCount.trans hSame.symm),
      if_neg hBroken]

/- After a best one of as many votes. -/
theorem foldl_pairs
    (hCount : b.count = c)
    (hLevel : ∀ e ∈ es, e.Eligible ∧ e.count = c) :
    (es.foldl voteTurn ⟨p, some b⟩).best ≠ none ↔
      PairsUp es := by
  induction es using PairsUp.induct generalizing p b with
  | case1 => simp [PairsUp]
  | case2 e =>
      obtain ⟨hEligible, hSame⟩ := hLevel e List.mem_cons_self
      rw [List.foldl_cons,
        voteTurn_tie hEligible (hCount.trans hSame.symm)]
      simp [PairsUp]
  | case3 e f rest ih =>
      obtain ⟨hEligible, hSame⟩ := hLevel e List.mem_cons_self
      have hTail : ∀ g ∈ f :: rest,
          g.Eligible ∧ g.count = c := fun g hG =>
        hLevel g (List.mem_cons_of_mem _ hG)
      have hRest : ∀ g ∈ rest, g.Eligible ∧ g.count = c :=
        fun g hG => hTail g (List.mem_cons_of_mem _ hG)
      rw [List.foldl_cons,
        voteTurn_tie hEligible (hCount.trans hSame.symm),
        foldl_level hSame hTail]
      unfold PairsUp
      by_cases hWhole : e.broken = 0
      · rw [if_pos hWhole]
        simp [hWhole]
      · rw [if_neg hWhole, and_iff_right hWhole]
        exact ih (hTail f List.mem_cons_self).2 hRest

/- From an entry of as many votes on. -/
theorem foldl_begun
    (hCount : p.count = c)
    (hLevel : ∀ e ∈ es, e.Eligible ∧ e.count = c) :
    (es.foldl voteTurn ⟨p, none⟩).best ≠ none ↔
      PairsUp (p :: es) := by
  cases es with
  | nil => simp [PairsUp]
  | cons f rest =>
      have hRest : ∀ g ∈ rest, g.Eligible ∧ g.count = c :=
        fun g hG => hLevel g (List.mem_cons_of_mem _ hG)
      rw [foldl_level hCount hLevel]
      unfold PairsUp
      by_cases hWhole : p.broken = 0
      · rw [if_pos hWhole]
        simp [hWhole]
      · rw [if_neg hWhole, and_iff_right hWhole]
        exact foldl_pairs (hLevel f List.mem_cons_self).2 hRest

theorem PairsUp.length
    (hPairs : PairsUp es) :
    es.length % 2 = 0 ∧ es.length ≤ 2 * partlyBroken es := by
  induction es using PairsUp.induct with
  | case1 => exact ⟨rfl, Nat.zero_le _⟩
  | case2 e => exact hPairs.elim
  | case3 e f rest ih =>
      obtain ⟨hBroken, hRest⟩ := hPairs
      obtain ⟨hEven, hMany⟩ := ih hRest
      have hHere : partlyBroken (e :: f :: rest) =
          partlyBroken (f :: rest) + 1 :=
        List.countP_cons_of_pos (by simpa using hBroken)
      have hTail : partlyBroken rest ≤
          partlyBroken (f :: rest) :=
        (List.sublist_cons_self f rest).countP_le
      rw [List.length_cons, List.length_cons]
      omega

/-
  An entry can be spared so that all that have a broken vote
  are left, or only such ones.
-/
theorem exists_spare
    (hSome : es ≠ []) :
    ∃ f rest, es.Perm (f :: rest) ∧
      (partlyBroken rest = partlyBroken es ∨
        partlyBroken rest = rest.length) := by
  by_cases hAll : ∀ e ∈ es, e.broken ≠ 0
  · obtain ⟨f, rest, rfl⟩ := List.exists_cons_of_ne_nil hSome
    refine ⟨f, rest, .refl _, .inr ?_⟩
    refine List.countP_eq_length.mpr fun e he => ?_
    simpa using hAll e (List.mem_cons_of_mem _ he)
  · push Not at hAll
    obtain ⟨f, hMem, hWhole⟩ := hAll
    have hPerm := List.perm_cons_erase hMem
    refine ⟨f, es.erase f, hPerm, .inl ?_⟩
    unfold partlyBroken
    rw [hPerm.countP_eq,
      List.countP_cons_of_neg (by simpa using hWhole)]

/- Enough entries with a broken vote can be paired up. -/
theorem exists_pairsUp
    (hEven : es.length % 2 = 0)
    (hMany : es.length ≤ 2 * partlyBroken es) :
    ∃ order, es.Perm order ∧ PairsUp order := by
  induction hLength : es.length using Nat.strongRecOn
    generalizing es with
  | _ n ih =>
      by_cases hNil : es = []
      · exact ⟨[], hNil ▸ .refl _, trivial⟩
      have hPos := List.length_pos_iff.mpr hNil
      have hSome : 0 < partlyBroken es := by omega
      obtain ⟨g, hMem, hHas⟩ := List.countP_pos_iff.mp hSome
      have hBroken : g.broken ≠ 0 := by simpa using hHas
      have hFirst := List.perm_cons_erase hMem
      have hCount : partlyBroken es =
          partlyBroken (es.erase g) + 1 := by
        unfold partlyBroken
        rw [hFirst.countP_eq,
          List.countP_cons_of_pos (by simpa using hBroken)]
      have hSize := hFirst.length_eq
      rw [List.length_cons] at hSize
      have hMore : es.erase g ≠ [] := by
        intro h
        rw [h, List.length_nil] at hSize
        omega
      obtain ⟨f, rest, hSecond, hLeft⟩ := exists_spare hMore
      have hRest := hSecond.length_eq
      rw [List.length_cons] at hRest
      have hEvenRest : rest.length % 2 = 0 := by omega
      have hManyRest : rest.length ≤ 2 * partlyBroken rest := by
        omega
      obtain ⟨order, hPerm, hPairs⟩ := ih rest.length
        (by omega) hEvenRest hManyRest rfl
      exact ⟨g :: f :: order, hFirst.trans
        ((hSecond.trans (hPerm.cons f)).cons g),
        hBroken, hPairs⟩

----------
-- Settled Votes
----------

theorem findMostRightEntry_eligible :
    findMostRightEntry (a :: rest) =
      ((eligible rest).foldl voteTurn ⟨a, none⟩).best :=
  congrArg Vote.best foldl_eligible

/- Nothing comes of entries that are all broken. -/
theorem findMostRightEntry_broken
    (hNone : ∀ e ∈ rest, ¬ e.Eligible) :
    findMostRightEntry (a :: rest) = none := by
  rw [findMostRightEntry_eligible, eligible_none hNone]
  rfl

/- The entry that is ahead is found, wherever it is. -/
theorem findMostRightEntry_ahead
    (hPerm : entries.Perm (e :: rest))
    (hEligible : e.Eligible)
    (hLess : ∀ f ∈ rest, f.count < e.count)
    (hSome : ∃ f ∈ rest, f.Eligible) :
    findMostRightEntry entries = some e := by
  obtain ⟨pre, post, rfl⟩ := List.append_of_mem
    (hPerm.mem_iff.mpr List.mem_cons_self)
  have hOthers : (pre ++ post).Perm rest :=
    (List.perm_cons e).mp (List.perm_middle.symm.trans hPerm)
  have hAll : ∀ f ∈ pre ++ post, f.count < e.count :=
    fun f hF => hLess f (hOthers.mem_iff.mp hF)
  cases pre with
  | nil =>
      obtain ⟨f, hF, hVotes⟩ := hSome
      exact foldl_first ⟨f, hOthers.mem_iff.mpr hF, hVotes⟩
        fun g hG _ => hAll g hG
  | cons a pre =>
      have hBefore := foldl_both (s := ⟨a, none⟩)
        (fun f => f.count < e.count)
        (hAll a List.mem_cons_self) (by simp)
        (fun f hF => hAll f (List.mem_cons_of_mem _
          (List.mem_append_left _ hF)))
      have hAfter : ∀ f ∈ post, f.Eligible →
          f.count < e.count := fun f hF _ =>
        hAll f (List.mem_append_right _ hF)
      change ((pre ++ e :: post).foldl voteTurn _).best = _
      rw [List.foldl_append, List.foldl_cons,
        voteTurn_higher hEligible hBefore.1 hBefore.2]
      exact foldl_ahead hAfter

theorem findMostRightEntry_level
    (hLevel : Level entries) :
    findMostRightEntry entries = none := by
  obtain ⟨c, hVotes⟩ := hLevel.votes
  have hMany := hLevel.many
  cases entries with
  | nil => rfl
  | cons a rest =>
      have hCounts : ∀ e ∈ eligible rest,
          e.Eligible ∧ e.count = c := by
        intro e he
        obtain ⟨hMem, hEligible⟩ := mem_eligible.mp he
        exact ⟨hEligible, (hVotes e
          (List.mem_cons_of_mem _ hMem)).1 hEligible⟩
      obtain ⟨hFirst, hLe⟩ := hVotes a List.mem_cons_self
      rw [findMostRightEntry_eligible]
      by_contra hBest
      by_cases hEligible : a.Eligible
      · rw [← ne_eq, foldl_begun (hFirst hEligible) hCounts,
          ← eligible_cons_pos hEligible] at hBest
        obtain ⟨hEven, hHalf⟩ := hBest.length
        have hOdd := hLevel.odd
        omega
      · have hEven := hLevel.even
        rw [eligible_cons_neg hEligible] at hMany hEven
        rcases hEligibles : eligible rest with _ | ⟨f, fs⟩
        · rw [hEligibles] at hMany
          simp at hMany
        rw [hEligibles] at hCounts hBest hEven
        obtain ⟨hF, hCount⟩ := hCounts f List.mem_cons_self
        have hTail : ∀ e ∈ fs, e.Eligible ∧ e.count = c :=
          fun e he => hCounts e (List.mem_cons_of_mem _ he)
        -- the first entry only delays the pairs by one
        rw [List.foldl_cons, voteTurn_broken hEligible hF
          (hLe.trans_eq hCount.symm)] at hBest
        have hPairs := (foldl_pairs hCount hTail).mp hBest
        obtain ⟨hLength, hHalf⟩ := hPairs.length
        have hSub : partlyBroken fs ≤ partlyBroken (f :: fs) :=
          (List.sublist_cons_self f fs).countP_le
        rw [List.length_cons] at hEven
        rcases hEven with hAll | hEven
        · exact hEligible (hAll a List.mem_cons_self)
        · omega

theorem trusted_of_none
    (hNone : ∀ order, entries.Perm order →
      findMostRightEntry order = none) :
    Trusted entries := by
  have hHere := hNone entries (.refl _)
  refine ⟨?_, fun _ => hHere, fun order hPerm => ?_⟩
  · intro e hFound
    rw [hHere] at hFound
    cases hFound
  · rw [hHere]
    exact hNone order hPerm

theorem Settled.trusted
    (hSettled : Settled entries) :
    Trusted entries := by
  rcases hSettled with hNone | hOne | hLeads | hLevel
  · refine trusted_of_none fun order hPerm => ?_
    cases order with
    | nil => rfl
    | cons a rest =>
        exact findMostRightEntry_broken fun e he =>
          hNone e (hPerm.mem_iff.mpr
            (List.mem_cons_of_mem _ he))
  · refine trusted_of_none fun order hPerm => ?_
    obtain ⟨a, hA⟩ := List.length_eq_one_iff.mp
      (hPerm.length_eq.symm.trans hOne)
    rw [hA]
    rfl
  · obtain ⟨e, rest, hPerm, hEligible, hLess, hSome⟩ := hLeads
    have hFound := fun order (hOrder : entries.Perm order) =>
      findMostRightEntry_ahead (hOrder.symm.trans hPerm)
        hEligible hLess hSome
    have hMost : MostVotes entries e :=
      ⟨rest, hPerm, hEligible, fun f hF _ => hLess f hF⟩
    have hHere := hFound entries (.refl _)
    refine ⟨?_, fun h => absurd hMost (h e), fun order h => ?_⟩
    · intro f hF
      rw [hHere] at hF
      exact Option.some.inj hF ▸ hMost
    · rw [hHere]
      exact hFound order h
  · exact trusted_of_none fun order hPerm =>
      findMostRightEntry_level (hLevel.perm hPerm)

----------
-- Orders That Are Not Trusted
----------

/- An entry that is all broken and another make a best one. -/
theorem voteTurn_decides
    (hBroken : ¬ x.Eligible)
    (hEligible : e.Eligible) :
    (voteTurn ⟨x, none⟩ e).best ≠ none := by
  rcases Nat.lt_or_ge e.count x.count with hLess | hLe
  · rw [voteTurn_first hEligible hLess]
    simp
  · rw [voteTurn_broken hBroken hEligible hLe]
    simp

/- With one entry there is no other, broken or not. -/
theorem Trusted.alone
    (hTrusted : Trusted (e :: rest))
    (hEligible : e.Eligible)
    (hNone : ∀ f ∈ rest, ¬ f.Eligible) :
    rest = [] := by
  cases rest with
  | nil => rfl
  | cons x rest =>
      have hOrder := hTrusted.orderFree _
        (List.Perm.swap x e rest)
      have hRest : ∀ f ∈ rest, ¬ f.Eligible := fun f hF =>
        hNone f (List.mem_cons_of_mem _ hF)
      rw [findMostRightEntry_broken hNone,
        findMostRightEntry_eligible,
        eligible_cons_pos hEligible, eligible_none hRest]
        at hOrder
      exact absurd hOrder
        (voteTurn_decides (hNone x List.mem_cons_self)
          hEligible)

/- One that is all broken is below the one with most votes. -/
theorem Trusted.below
    (hTrusted : Trusted (e :: rest))
    (hEligible : e.Eligible)
    (hLess : ∀ f ∈ rest, f.Eligible → f.count < e.count)
    (hSome : ∃ f ∈ rest, f.Eligible)
    (hMem : x ∈ rest) :
    x.count < e.count := by
  by_cases hVotes : x.Eligible
  · exact hLess x hMem hVotes
  by_contra hHigh
  have hPerm := List.perm_cons_erase hMem
  have hOthers : ∀ f ∈ rest.erase x, f.Eligible →
      f.count < x.count := by
    intro f hF hVotes
    have hBelow := hLess f (List.mem_of_mem_erase hF) hVotes
    omega
  obtain ⟨f, hF, hFVotes⟩ := hSome
  have hFirst := foldl_first (p := x)
    ⟨f, (List.mem_cons.mp (hPerm.mem_iff.mp hF)).resolve_left
      fun h => hVotes (h ▸ hFVotes), hFVotes⟩ hOthers
  have hFound : findMostRightEntry (e :: rest) = some e :=
    foldl_first ⟨f, hF, hFVotes⟩ hLess
  -- the broken one first and the one with most votes last
  have hLast : (e :: rest).Perm (x :: (rest.erase x ++ [e])) :=
    ((hPerm.cons e).trans (.swap x e _)).trans
      ((List.perm_append_singleton e _).symm.cons x)
  have hOrder := hTrusted.orderFree _ hLast
  rw [hFound] at hOrder
  change ((rest.erase x ++ [e]).foldl voteTurn _).best = _
    at hOrder
  rw [List.foldl_append] at hOrder
  rcases hState : (rest.erase x).foldl voteTurn ⟨x, none⟩ with
    ⟨prev, best⟩
  rw [hState] at hFirst hOrder
  obtain rfl : best = some x := hFirst
  change (voteTurn ⟨prev, some x⟩ e).best = _ at hOrder
  rcases (Nat.le_of_not_lt hHigh).lt_or_eq with hMore | hTie
  · rw [voteTurn_lower hMore, Option.some.injEq] at hOrder
    exact hVotes (hOrder ▸ hEligible)
  · rw [voteTurn_tie hEligible hTie.symm] at hOrder
    cases hOrder

/- Of two with as many votes none has most. -/
theorem not_mostVotes
    (hEligible : e.Eligible)
    (hF : f.Eligible)
    (hSame : f.count = e.count)
    (hMax : ∀ g ∈ rest, g.Eligible → g.count ≤ e.count)
    (g : ExtentEntry) :
    ¬ MostVotes (e :: f :: rest) g := by
  rintro ⟨others, hPerm, hG, hLess⟩
  have hLe : g.count ≤ e.count := by
    rcases List.mem_cons.mp
        (hPerm.mem_iff.mpr List.mem_cons_self) with rfl | hMem
    · exact Nat.le_refl _
    rcases List.mem_cons.mp hMem with rfl | hMem
    · exact hSame.le
    · exact hMax g hMem hG
  have hE : e = g := by
    refine (List.mem_cons.mp (hPerm.mem_iff.mp
      List.mem_cons_self)).resolve_right fun hMem => ?_
    have hMore := hLess e hMem hEligible
    omega
  subst hE
  have hMem : f ∈ others :=
    ((List.perm_cons e).mp hPerm).mem_iff.mp
      List.mem_cons_self
  have hMore := hLess f hMem hF
  omega

/- Those that are all broken may be put behind the others. -/
theorem perm_eligible
    (entries : List ExtentEntry) :
    ∃ broken, entries.Perm (eligible entries ++ broken) ∧
      ∀ x, x ∈ broken ↔ x ∈ entries ∧ ¬ x.Eligible := by
  refine ⟨entries.filter fun x => ! decide x.Eligible,
    (List.filter_append_perm _ _).symm, fun x => ?_⟩
  rw [List.mem_filter]
  simp

theorem findMostRightEntry_append
    {broken : List ExtentEntry}
    (hVotes : ∀ e ∈ es, e.Eligible)
    (hBroken : ∀ x ∈ broken, ¬ x.Eligible) :
    findMostRightEntry (a :: (es ++ broken)) =
      (es.foldl voteTurn ⟨a, none⟩).best := by
  rw [findMostRightEntry_eligible, eligible_append,
    eligible_all hVotes, eligible_none hBroken,
    List.append_nil]

theorem Trusted.level
    (hTrusted : Trusted (e :: f :: rest))
    (hEligible : e.Eligible)
    (hF : f.Eligible)
    (hSame : f.count = e.count)
    (hMax : ∀ g ∈ rest, g.Eligible → g.count ≤ e.count) :
    Level (e :: f :: rest) := by
  have hNull := hTrusted.null
    (not_mostVotes hEligible hF hSame hMax)
  have hNone : ∀ order, (e :: f :: rest).Perm order →
      findMostRightEntry order = none := fun order hPerm =>
    (hTrusted.orderFree order hPerm).trans hNull
  -- with one of fewer votes at the end there is a best one
  have hCount : ∀ g ∈ e :: f :: rest, g.Eligible →
      g.count = e.count := by
    intro g hMem hG
    rcases List.mem_cons.mp hMem with rfl | hMem
    · rfl
    rcases List.mem_cons.mp hMem with rfl | hMem
    · exact hSame
    refine (hMax g hMem hG).antisymm
      (Nat.le_of_not_lt fun hLess => ?_)
    have hTop : Top e.count ⟨e, none⟩ :=
      ⟨by simp, fun _ => rfl, Nat.le_refl _⟩
    obtain ⟨d, hTop, hLe, -⟩ :=
      foldl_top (f :: rest.erase g) hTop
    have hLast : (e :: f :: rest).Perm
        (e :: (f :: rest.erase g ++ [g])) :=
      ((((List.perm_cons_erase hMem).trans
        (List.perm_append_singleton g _).symm).cons f).cons e)
    have hBest := hNone _ hLast
    change ((f :: rest.erase g ++ [g]).foldl voteTurn _).best =
      none at hBest
    rw [List.foldl_append] at hBest
    exact hTop.lower hG (hLess.trans_le hLe) hBest
  -- one that is all broken and has more becomes the best one
  have hFew : ∀ g ∈ e :: f :: rest, g.count ≤ e.count := by
    intro x hMem
    by_cases hX : x.Eligible
    · exact (hCount x hMem hX).le
    refine Nat.le_of_not_lt fun hMore => ?_
    have hPerm := List.perm_cons_erase hMem
    have hBest := hNone _ hPerm
    have hOthers : ∀ g ∈ (e :: f :: rest).erase x,
        g.Eligible → g.count < x.count := by
      intro g hG hVotes
      rw [hCount g (List.mem_of_mem_erase hG) hVotes]
      exact hMore
    have hStill : e ∈ (e :: f :: rest).erase x := by
      refine (List.mem_cons.mp (hPerm.mem_iff.mp
        List.mem_cons_self)).resolve_left fun h => ?_
      exact hX (h ▸ hEligible)
    have hFirst := foldl_first (p := x)
      ⟨e, hStill, hEligible⟩ hOthers
    exact absurd (hFirst.symm.trans hBest) (by simp)
  obtain ⟨broken, hParts, hBroken⟩ :=
    perm_eligible (e :: f :: rest)
  have hMany : 2 ≤ (eligible (e :: f :: rest)).length := by
    rw [eligible_cons_pos hEligible, eligible_cons_pos hF,
      List.length_cons, List.length_cons]
    omega
  have hLevel : ∀ order, (eligible (e :: f :: rest)).Perm order →
      ∀ g ∈ order, g.Eligible ∧ g.count = e.count := by
    intro order hPerm g hG
    obtain ⟨hMem, hVotes⟩ :=
      mem_eligible.mp (hPerm.mem_iff.mpr hG)
    exact ⟨hVotes, hCount g hMem hVotes⟩
  refine ⟨hMany, ⟨e.count, fun g hG =>
    ⟨hCount g hG, hFew g hG⟩⟩, ?_, ?_⟩
  · by_contra hNot
    have hEven : (eligible (e :: f :: rest)).length % 2 = 0 := by
      omega
    obtain ⟨order, hPerm, hPairs⟩ :=
      exists_pairsUp hEven (by omega)
    have hAll := hLevel order hPerm
    cases order with
    | nil =>
        rw [hPerm.length_eq] at hMany
        simp at hMany
    | cons a t =>
        have hTail : ∀ g ∈ t, g.Eligible ∧
            g.count = e.count := fun g hG =>
          hAll g (List.mem_cons_of_mem _ hG)
        have hBest := hNone _ (hParts.trans
          (hPerm.append_right broken))
        rw [List.cons_append, findMostRightEntry_append
          (fun g hG => (hTail g hG).1)
          (fun x hX => ((hBroken x).mp hX).2)] at hBest
        exact (foldl_begun (hAll a List.mem_cons_self).2
          hTail).mpr hPairs hBest
  · by_contra hNot
    push Not at hNot
    obtain ⟨⟨x, hMem, hX⟩, hOdd, hHalf⟩ := hNot
    have hSome : eligible (e :: f :: rest) ≠ [] := by
      rw [eligible_cons_pos hEligible]
      simp
    obtain ⟨g, gs, hSpare, hLeft⟩ := exists_spare hSome
    have hSize := hSpare.length_eq
    rw [List.length_cons] at hSize
    have hEven : gs.length % 2 = 0 := by omega
    obtain ⟨order, hPerm, hPairs⟩ :=
      exists_pairsUp hEven (by omega)
    have hAll := hLevel _ (hSpare.trans (hPerm.cons g))
    have hTail : ∀ g ∈ order, g.Eligible ∧
        g.count = e.count := fun g hG =>
      hAll g (List.mem_cons_of_mem _ hG)
    obtain ⟨hG, hGCount⟩ := hAll g List.mem_cons_self
    -- it comes first, and the pairs begin behind the next
    have hIn := (hBroken x).mpr ⟨hMem, hX⟩
    have hOrder : (e :: f :: rest).Perm
        (x :: (g :: order ++ broken.erase x)) :=
      (hParts.trans ((hSpare.trans (hPerm.cons g)).append
        (List.perm_cons_erase hIn))).trans List.perm_middle
    have hBest := hNone _ hOrder
    rw [findMostRightEntry_append
      (fun g hG => (hAll g hG).1)
      (fun x hX =>
        ((hBroken x).mp (List.mem_of_mem_erase hX)).2),
      List.foldl_cons, voteTurn_broken hX hG
        ((hFew x hMem).trans_eq hGCount.symm)] at hBest
    exact (foldl_pairs hGCount hTail).mpr hPairs hBest

/- The entry with most votes of those that are not all broken. -/
theorem exists_most
    (hSome : ∃ e ∈ entries, e.Eligible) :
    ∃ e ∈ entries, e.Eligible ∧
      ∀ f ∈ entries, f.Eligible → f.count ≤ e.count := by
  obtain ⟨e, hMem, hEligible⟩ := hSome
  obtain ⟨m, hM, hMax⟩ :=
    (eligible entries).toFinset.exists_max_image
      ExtentEntry.count ⟨e, List.mem_toFinset.mpr
        (mem_eligible.mpr ⟨hMem, hEligible⟩)⟩
  obtain ⟨hIn, hVotes⟩ :=
    mem_eligible.mp (List.mem_toFinset.mp hM)
  exact ⟨m, hIn, hVotes, fun f hF hVotes => hMax f
    (List.mem_toFinset.mpr (mem_eligible.mpr ⟨hF, hVotes⟩))⟩

theorem Trusted.settled
    (hTrusted : Trusted entries) :
    Settled entries := by
  by_cases hNone : ∀ e ∈ entries, ¬ e.Eligible
  · exact .inl hNone
  push Not at hNone
  obtain ⟨e, hMem, hEligible, hMax⟩ := exists_most hNone
  have hPerm := List.perm_cons_erase hMem
  have hHere := hTrusted.perm hPerm
  have hRest : ∀ g ∈ entries.erase e, g.Eligible →
      g.count ≤ e.count := fun g hG =>
    hMax g (List.mem_of_mem_erase hG)
  right
  by_cases hTie : ∃ f ∈ entries.erase e,
      f.Eligible ∧ f.count = e.count
  · obtain ⟨f, hF, hVotes, hSame⟩ := hTie
    have hNext := (List.perm_cons_erase hF).cons e
    have hLevel := (hHere.perm hNext).level hEligible hVotes
      hSame fun g hG => hRest g (List.mem_of_mem_erase hG)
    exact .inr (.inr (hLevel.perm (hPerm.trans hNext).symm))
  have hLess : ∀ f ∈ entries.erase e, f.Eligible →
      f.count < e.count := fun f hF hVotes =>
    (hRest f hF hVotes).lt_of_ne fun h =>
      hTie ⟨f, hF, hVotes, h⟩
  by_cases hMore : ∃ f ∈ entries.erase e, f.Eligible
  · exact .inr (.inl ⟨e, _, hPerm, hEligible, fun f hF =>
      hHere.below hEligible hLess hMore hF, hMore⟩)
  · push Not at hMore
    have hNil := hHere.alone hEligible hMore
    left
    rw [hPerm.length_eq, hNil]
    rfl

/-
  The pass can be trusted exactly if all entries are all
  broken, there is just one, one is ahead of all others, or
  all that are not all broken are level and cannot be paired.
-/
theorem findMostRightEntry_trusted_iff
    (entries : List ExtentEntry) :
    Trusted entries ↔ Settled entries :=
  ⟨Trusted.settled, Settled.trusted⟩

end Trust

----------
-- Three Broken Votes
----------

/-
  Three broken backrefs that agree, and one that is not
  broken.
-/
def threeBroken : List DataBackref :=
  [⟨8192, 4096, 1, false, true⟩,
    ⟨8192, 4096, 1, false, true⟩,
    ⟨8192, 4096, 1, false, true⟩,
    ⟨4096, 4096, 1, false, false⟩]

/- The entry of which all votes are broken is returned. -/
theorem findMostRightEntry_all_broken :
    findMostRightEntry (tally threeBroken) =
        some ⟨8192, 4096, 3, 3, Nat.le_refl 3⟩ ∧
      ¬ Trusted (tally threeBroken) := by
  have hFound : findMostRightEntry (tally threeBroken) =
      some ⟨8192, 4096, 3, 3, Nat.le_refl 3⟩ := rfl
  refine ⟨hFound, fun hTrusted => ?_⟩
  exact (hTrusted.found _ hFound).eligible rfl

end Check

end BtrfsProgs
