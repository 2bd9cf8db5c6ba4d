import Mathlib

/-
  The vote of the backrefs of an extent: `verify_backrefs`
  counts what they say, and `find_most_right_entry` picks one
  of the answers in one pass.

  Main declarations:
    * `tally`
    * `findMostRightEntry`
    * `foldl_ahead`, `foldl_first` and `foldl_top`
-/

----------
-- Votes
----------

namespace BtrfsProgs

namespace Check

/- What a backref of a data extent says. -/
structure DataBackref where
  disk_bytenr : Nat
  bytes : Nat
  found_ref : Nat
  full_backref : Bool
  broken : Bool

/- An answer, with the votes for it and the broken ones. -/
structure ExtentEntry where
  bytenr : Nat
  bytes : Nat
  count : Nat
  broken : Nat
  broken_le : broken ≤ count
deriving DecidableEq

/- The entry is for the range. -/
def ExtentEntry.Is
    (entry : ExtentEntry)
    (bytenr bytes : Nat) : Prop :=
  entry.bytenr = bytenr ∧ entry.bytes = bytes

instance
    (entry : ExtentEntry)
    (bytenr bytes : Nat) :
    Decidable (entry.Is bytenr bytes) :=
  inferInstanceAs (Decidable (_ ∧ _))

/- One more vote for an entry. -/
def ExtentEntry.vote
    (entry : ExtentEntry)
    (broken : Bool) : ExtentEntry where
  bytenr := entry.bytenr
  bytes := entry.bytes
  count := entry.count + 1
  broken := entry.broken + broken.toNat
  broken_le := by
    have hOne := Bool.toNat_le broken
    have hLe := entry.broken_le
    omega

/- An entry that nobody has voted for. -/
def ExtentEntry.fresh
    (bytenr bytes : Nat) : ExtentEntry :=
  ⟨bytenr, bytes, 0, 0, Nat.le_refl 0⟩

/- A backref that has a vote. -/
def DataBackref.Votes
    (back : DataBackref) : Prop :=
  back.found_ref ≠ 0 ∧ back.full_backref = false

instance
    (back : DataBackref) : Decidable back.Votes :=
  inferInstanceAs (Decidable (_ ∧ _))

/-
  A vote is for the entry of its range, the first one if it is
  there; else for a fresh one at the tail.
-/
def addVote
    (back : DataBackref) :
    List ExtentEntry → List ExtentEntry
  | [] => [(ExtentEntry.fresh back.disk_bytenr
      back.bytes).vote back.broken]
  | entry :: rest =>
      if entry.Is back.disk_bytenr back.bytes then
        entry.vote back.broken :: rest
      else
        entry :: addVote back rest

/- The first loop of `verify_backrefs`. -/
def tally
    (backs : List DataBackref) : List ExtentEntry :=
  backs.foldl
    (fun entries back =>
      if back.Votes then addVote back entries else entries)
    []

----------
-- The Pass
----------

/- Not every vote of the entry is broken. -/
def ExtentEntry.Eligible
    (entry : ExtentEntry) : Prop :=
  entry.broken ≠ entry.count

instance
    (entry : ExtentEntry) : Decidable entry.Eligible :=
  inferInstanceAs (Decidable (_ ≠ _))

/- The pointers of the pass, once `prev` is set. -/
structure Vote where
  prev : ExtentEntry
  best : Option ExtentEntry

/- The loop body, for every entry but the first. -/
def voteTurn
    (s : Vote)
    (entry : ExtentEntry) : Vote :=
  if entry.broken = entry.count then s
  else if s.best.map ExtentEntry.count = some entry.count then
    ⟨entry, none⟩
  else if s.prev.broken = 0 ∧ s.prev.count = entry.count then s
  else
    match s.best with
    | none =>
        ⟨entry, if s.prev.count > entry.count then some s.prev
          else some entry⟩
    | some best =>
        ⟨entry, if best.count < entry.count then some entry
          else some best⟩

/- `prev` is not set just at the first entry, and takes it. -/
def findMostRightEntry :
    List ExtentEntry → Option ExtentEntry
  | [] => none
  | first :: rest => (rest.foldl voteTurn ⟨first, none⟩).best

----------
-- One Turn
----------

section Turns

variable {s : Vote} {entry b p : ExtentEntry}
variable {entries : List ExtentEntry} {c : Nat}

/- An entry that is all broken is passed. -/
theorem voteTurn_skip
    (hBroken : ¬ entry.Eligible) :
    voteTurn s entry = s :=
  if_pos (not_not.mp hBroken)

/- No more votes than the best one: it stays. -/
theorem voteTurn_lower
    (hLess : entry.count < b.count) :
    (voteTurn ⟨p, some b⟩ entry).best = some b := by
  have hNotTie : ¬ (some b).map ExtentEntry.count =
      some entry.count := by
    rw [Option.map_some, Option.some.injEq]
    exact Nat.ne_of_gt hLess
  by_cases hEligible : entry.Eligible
  · unfold voteTurn
    dsimp only
    rw [if_neg hEligible, if_neg hNotTie]
    split
    · rfl
    · rw [if_neg (Nat.lt_asymm hLess)]
  · rw [voteTurn_skip hEligible]

/- As many: there is no best one any more. -/
theorem voteTurn_tie
    (hEligible : entry.Eligible)
    (hTie : b.count = entry.count) :
    voteTurn ⟨p, some b⟩ entry = ⟨entry, none⟩ := by
  have hSame : (some b).map ExtentEntry.count =
      some entry.count := congrArg some hTie
  unfold voteTurn
  rw [if_neg hEligible, if_pos hSame]

/- More votes than all before: it is the best one. -/
theorem voteTurn_higher
    (hEligible : entry.Eligible)
    (hPrev : s.prev.count < entry.count)
    (hBest : ∀ b ∈ s.best, b.count < entry.count) :
    voteTurn s entry = ⟨entry, some entry⟩ := by
  have hNotTie : ¬ s.best.map ExtentEntry.count =
      some entry.count := by
    intro hTie
    obtain ⟨b, hMem, hSame⟩ := Option.map_eq_some_iff.mp hTie
    exact absurd hSame (Nat.ne_of_lt (hBest b hMem))
  have hNotPrev : ¬ (s.prev.broken = 0 ∧
      s.prev.count = entry.count) := fun h =>
    absurd h.2 (Nat.ne_of_lt hPrev)
  unfold voteTurn
  rw [if_neg hEligible, if_neg hNotTie, if_neg hNotPrev]
  rcases s with ⟨prev, best⟩
  cases best with
  | none =>
      dsimp only
      rw [if_neg (Nat.lt_asymm hPrev)]
  | some b =>
      dsimp only
      rw [if_pos (hBest b rfl)]

/- With no best one, one of fewer votes makes `prev` it. -/
theorem voteTurn_first
    (hEligible : entry.Eligible)
    (hLess : entry.count < p.count) :
    voteTurn ⟨p, none⟩ entry = ⟨entry, some p⟩ := by
  have hNotPrev : ¬ (p.broken = 0 ∧ p.count = entry.count) :=
    fun h => absurd h.2 (Nat.ne_of_gt hLess)
  unfold voteTurn
  rw [if_neg hEligible, if_neg (by simp), if_neg hNotPrev]
  dsimp only
  rw [if_pos hLess]

/- One of as many votes is passed if `prev` is not broken. -/
theorem voteTurn_level
    (hEligible : entry.Eligible)
    (hLevel : p.count = entry.count) :
    voteTurn ⟨p, none⟩ entry =
      if p.broken = 0 then ⟨p, none⟩
      else ⟨entry, some entry⟩ := by
  unfold voteTurn
  rw [if_neg hEligible, if_neg (by simp)]
  dsimp only
  split
  case isTrue hBoth => rw [if_pos hBoth.1]
  case isFalse hNot =>
    rw [if_neg fun h => hNot ⟨h, hLevel⟩,
      if_neg (Nat.not_lt_of_le hLevel.le)]

/- What the pointers point to has been there. -/
theorem voteTurn_both
    (P : ExtentEntry → Prop)
    (hPrev : P s.prev)
    (hBest : ∀ b ∈ s.best, P b)
    (hEntry : P entry) :
    P (voteTurn s entry).prev ∧
      ∀ b ∈ (voteTurn s entry).best, P b := by
  rcases s with ⟨prev, best⟩
  unfold voteTurn
  split
  · exact ⟨hPrev, hBest⟩
  split
  · exact ⟨hEntry, by simp⟩
  split
  · exact ⟨hPrev, hBest⟩
  cases best with
  | none =>
      dsimp only
      refine ⟨hEntry, ?_⟩
      split
      · rintro b ⟨rfl⟩
        exact hPrev
      · rintro b ⟨rfl⟩
        exact hEntry
  | some best =>
      dsimp only
      refine ⟨hEntry, ?_⟩
      split
      · rintro b ⟨rfl⟩
        exact hEntry
      · rintro b ⟨rfl⟩
        exact hBest best rfl

----------
-- Many Turns
----------

/- Only the entries that are not all broken count. -/
theorem foldl_eligible :
    entries.foldl voteTurn s =
      (entries.filter (ExtentEntry.Eligible ·)).foldl voteTurn
        s := by
  induction entries generalizing s with
  | nil => rfl
  | cons entry rest ih =>
      by_cases hEligible : entry.Eligible
      · rw [List.filter_cons_of_pos (by simpa using hEligible)]
        exact ih
      · rw [List.filter_cons_of_neg (by simpa using hEligible),
          List.foldl_cons, voteTurn_skip hEligible]
        exact ih

theorem foldl_both
    (P : ExtentEntry → Prop)
    (hPrev : P s.prev)
    (hBest : ∀ b ∈ s.best, P b)
    (hEntries : ∀ entry ∈ entries, P entry) :
    P (entries.foldl voteTurn s).prev ∧
      ∀ b ∈ (entries.foldl voteTurn s).best, P b := by
  induction entries generalizing s with
  | nil => exact ⟨hPrev, hBest⟩
  | cons entry rest ih =>
      have hTurn := voteTurn_both P hPrev hBest
        (hEntries entry List.mem_cons_self)
      exact ih hTurn.1 hTurn.2 fun e he =>
        hEntries e (List.mem_cons_of_mem _ he)

/- The best one stays, as long as nothing reaches it. -/
theorem foldl_ahead
    (hLess : ∀ entry ∈ entries, entry.Eligible →
      entry.count < b.count) :
    (entries.foldl voteTurn ⟨p, some b⟩).best = some b := by
  induction entries generalizing p with
  | nil => rfl
  | cons entry rest ih =>
      have hRest : ∀ e ∈ rest, e.Eligible →
          e.count < b.count := fun e he =>
        hLess e (List.mem_cons_of_mem _ he)
      rw [List.foldl_cons]
      by_cases hEligible : entry.Eligible
      · have hTurn := voteTurn_lower (p := p)
          (hLess entry List.mem_cons_self hEligible)
        rcases hNext : voteTurn ⟨p, some b⟩ entry with
          ⟨prev, best⟩
        rw [hNext] at hTurn
        obtain rfl : best = some b := hTurn
        exact ih hRest
      · rw [voteTurn_skip hEligible]
        exact ih hRest

/- `prev` is the best one, if something is below it. -/
theorem foldl_first
    (hSome : ∃ entry ∈ entries, entry.Eligible)
    (hLess : ∀ entry ∈ entries, entry.Eligible →
      entry.count < p.count) :
    (entries.foldl voteTurn ⟨p, none⟩).best = some p := by
  induction entries with
  | nil => simp at hSome
  | cons entry rest ih =>
      have hRest : ∀ e ∈ rest, e.Eligible →
          e.count < p.count := fun e he =>
        hLess e (List.mem_cons_of_mem _ he)
      rw [List.foldl_cons]
      by_cases hEligible : entry.Eligible
      · rw [voteTurn_first hEligible
          (hLess entry List.mem_cons_self hEligible)]
        exact foldl_ahead hRest
      · rw [voteTurn_skip hEligible]
        refine ih ?_ hRest
        obtain ⟨e, he, hVotes⟩ := hSome
        rcases List.mem_cons.mp he with rfl | he
        · exact absurd hVotes hEligible
        · exact ⟨e, he, hVotes⟩

/-
  The best one, or with none `prev`, has as many votes as any
  entry that the pass has taken.
-/
structure Top
    (c : Nat)
    (s : Vote) : Prop where
  best : ∀ b ∈ s.best, b.count = c
  prev : s.best = none → s.prev.count = c
  le : s.prev.count ≤ c

theorem Top.turn
    (hTop : Top c s)
    (hEligible : entry.Eligible) :
    Top (max c entry.count) (voteTurn s entry) := by
  rcases s with ⟨p, best⟩
  have hLe : p.count ≤ c := hTop.le
  cases best with
  | none =>
      have hPrev : p.count = c := hTop.prev rfl
      rcases Nat.lt_trichotomy entry.count p.count with
        hLess | hLevel | hMore
      · rw [voteTurn_first hEligible hLess]
        refine ⟨?_, by simp, le_max_right _ _⟩
        rintro b ⟨rfl⟩
        omega
      · rw [voteTurn_level hEligible hLevel.symm]
        split
        · have hMax : max c entry.count = p.count := by omega
          rw [hMax]
          exact ⟨by simp, fun _ => rfl, Nat.le_refl _⟩
        · refine ⟨?_, by simp, le_max_right _ _⟩
          rintro b ⟨rfl⟩
          omega
      · rw [voteTurn_higher hEligible hMore (by simp)]
        refine ⟨?_, by simp, le_max_right _ _⟩
        rintro b ⟨rfl⟩
        omega
  | some b =>
      have hBest : b.count = c := hTop.best b rfl
      rcases Nat.lt_trichotomy entry.count b.count with
        hLess | hTie | hMore
      · have hStays := voteTurn_lower (p := p) hLess
        have hFew : entry.count ≤ c := by omega
        have hBoth := voteTurn_both (s := ⟨p, some b⟩)
          (fun e => e.count ≤ c) hLe
          (by
            rintro b ⟨rfl⟩
            exact hBest.le)
          hFew
        refine ⟨?_, ?_, hBoth.1.trans (le_max_left _ _)⟩
        · rw [hStays]
          rintro b ⟨rfl⟩
          omega
        · rw [hStays]
          simp
      · rw [voteTurn_tie hEligible hTie.symm]
        have hMax : max c entry.count = entry.count := by omega
        rw [hMax]
        exact ⟨by simp, fun _ => rfl, Nat.le_refl _⟩
      · have hPrev : p.count < entry.count := by omega
        rw [voteTurn_higher hEligible hPrev (by
          rintro b ⟨rfl⟩
          exact hMore)]
        refine ⟨?_, by simp, le_max_right _ _⟩
        rintro b ⟨rfl⟩
        omega

/- No entry that was taken has more votes than the top. -/
theorem foldl_top
    (entries : List ExtentEntry)
    (hTop : Top c s) :
    ∃ d, Top d (entries.foldl voteTurn s) ∧ c ≤ d ∧
      ∀ entry ∈ entries, entry.Eligible →
        entry.count ≤ d := by
  induction entries generalizing s c with
  | nil => exact ⟨c, hTop, Nat.le_refl c, by simp⟩
  | cons entry rest ih =>
      rw [List.foldl_cons]
      by_cases hEligible : entry.Eligible
      · obtain ⟨d, hTop, hLe, hAll⟩ := ih (hTop.turn hEligible)
        refine ⟨d, hTop, (le_max_left _ _).trans hLe, ?_⟩
        intro e he hVotes
        rcases List.mem_cons.mp he with rfl | he
        · exact (le_max_right _ _).trans hLe
        · exact hAll e he hVotes
      · rw [voteTurn_skip hEligible]
        obtain ⟨d, hTop, hLe, hAll⟩ := ih hTop
        refine ⟨d, hTop, hLe, ?_⟩
        intro e he hVotes
        rcases List.mem_cons.mp he with rfl | he
        · exact absurd hVotes hEligible
        · exact hAll e he hVotes

/- One of fewer votes behind the top leaves a best one. -/
theorem Top.lower
    (hTop : Top c s)
    (hEligible : entry.Eligible)
    (hLess : entry.count < c) :
    (voteTurn s entry).best ≠ none := by
  rcases s with ⟨p, best⟩
  cases best with
  | none =>
      have hPrev : p.count = c := hTop.prev rfl
      rw [voteTurn_first hEligible (by omega)]
      simp
  | some b =>
      have hBest : b.count = c := hTop.best b rfl
      rw [voteTurn_lower (by omega)]
      simp

end Turns

end Check

end BtrfsProgs
