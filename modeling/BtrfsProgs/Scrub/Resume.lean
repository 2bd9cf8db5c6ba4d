import BtrfsProgs.Scrub.Status

/-
  What a sequence of scrub runs has scrubbed, and what its
  status files say.

  Main declarations:
    * `World` and `World.after`
    * `Good` and `Steady`
    * `Agrees` and `Agrees.after`
    * `scrub_runs_good`
-/

----------
-- What Has Been Scrubbed
----------

namespace BtrfsProgs

namespace Scrub

/-
  The last scrub of a device: where its last run began and how
  far it came, whether that run failed, and what has been
  scrubbed since the last start.
-/
structure Last where
  began : Nat
  reached : Nat
  canceled : Bool
  covered : Nat → Prop

/- What is true of the devices. -/
def World : Type :=
  Nat → Option Last

def Last.none : Last :=
  ⟨0, 0, false, fun _ => False⟩

/- A device that is scrubbed from `start` on. -/
def Last.scrubbed
    (resume : Bool)
    (start : Nat)
    (io : Ioctl)
    (old : Last) : Last where
  began := start
  reached := io.progress .lastPhysical
  canceled := io.failed
  covered := fun x =>
    (resume = true ∧ old.covered x) ∨
      (start ≤ x ∧
        (io.failed = false ∨ x < io.progress .lastPhysical))

/- Where a run starts a device, if it does. -/
def startOf
    (past : File)
    (r : Run)
    (devid : Nat) : Option Nat :=
  match scrubStart past r with
  | .ran _ _ _ =>
      if devid ∈ r.devs ∧
          (plan r.resume past devid).skip = false then
        some (plan r.resume past devid).start
      else none
  | _ => none

def World.after
    (w : World)
    (past : File)
    (r : Run) : World := fun d =>
  match startOf past r d with
  | none => w d
  | some start =>
      some (((w d).getD Last.none).scrubbed r.resume start
        (r.ioctl d))

----------
-- Good Runs
----------

/- A device whose last run failed or was canceled. -/
def World.Unfinished
    (w : World)
    (d : Nat) : Prop :=
  ∃ last, w d = some last ∧ last.canceled = true

/-
  A run that resumes each unfinished device where its last run
  came to, reports no device as finished that has not been
  scrubbed as a whole, keeps the records of the devices it
  skips and does not need a record that is not there.
-/
structure Good
    (size : Nat → Nat)
    (w : World)
    (past : File)
    (r : Run) : Prop where
  resumes :
    r.resume = true → ∀ d ∈ r.devs, ∀ last,
      w d = some last → last.canceled = true →
      startOf past r d = some last.reached
  whole :
    ∀ file ∈ (scrubStart past r).files, ∀ rec ∈ file,
      rec.stats.finished ≠ 0 → rec.stats.canceled = 0 →
      ∃ last, w.after past r rec.devid = some last ∧
        ∀ x < size rec.devid, last.covered x
  kept :
    ∀ file ∈ (scrubStart past r).files, ∀ d ∈ r.devs,
      (plan r.resume past d).skip = true →
      ∀ rec, lastDevScrub past d = some rec → rec ∈ file
  present : ∀ initial, scrubStart past r ≠ .crashed initial

/- All runs of a sequence are good. -/
def AllGood
    (size : Nat → Nat) :
    World → File → List Run → Prop
  | _, _, [] => True
  | w, past, r :: runs =>
      Good size w past r ∧
        AllGood size (w.after past r)
          ((scrubStart past r).left past) runs

/-
  Before a resume: no device of it is unfinished, or all of
  them are, with a record, and were last started at the
  beginning.
-/
def Resumable
    (w : World)
    (past : File)
    (devs : List Nat) : Prop :=
  (∀ d ∈ devs, ¬ w.Unfinished d) ∨
    ∀ d ∈ devs, ∃ last, w d = some last ∧
      last.canceled = true ∧ last.began = 0 ∧
      (lastDevScrub past d).isSome

/-
  No device fails before its end while the progress thread
  has not begun and has a round before it.
-/
def NotEarly
    (size : Nat → Nat)
    (r : Run) : Prop :=
  r.rounds = [] ∨ ∀ d ∈ r.devs, r.early d = true →
    (r.ioctl d).failed = true →
    size d ≤ (r.ioctl d).progress .lastPhysical

/- All runs of a sequence meet these conditions. -/
def Steady
    (size : Nat → Nat) :
    World → File → List Run → Prop
  | _, _, [] => True
  | w, past, r :: runs =>
      (r.resume = true → Resumable w past r.devs) ∧
        NotEarly size r ∧
        Steady size (w.after past r)
          ((scrubStart past r).left past) runs

----------
-- Files and Devices
----------

/-
  The last status file agrees with what has been scrubbed; the
  position in it is the sum of where the last run began and
  how far it came.
-/
structure Agrees
    (size : Nat → Nat)
    (w : World)
    (past : File) : Prop where
  recorded :
    ∀ d rec, lastDevScrub past d = some rec →
      ∃ last, w d = some last ∧
        rec.p .lastPhysical =
          (last.began + last.reached) % 2 ^ 64 ∧
        rec.stats.finished ≠ 0 ∧
        (rec.stats.canceled ≠ 0 ↔ last.canceled = true)
  bounded : ∀ d last, w d = some last → last.reached < 2 ^ 64
  covered :
    ∀ d last, w d = some last → last.canceled = true →
      ∀ x < last.reached, last.covered x
  whole :
    ∀ d last, w d = some last → last.canceled = false →
      ∀ x < size d, last.covered x

theorem agrees_init
    (size : Nat → Nat) :
    Agrees size (fun _ => none) [] where
  recorded := by
    intro d rec hFound
    cases hFound
  bounded := by
    intro d last hLast
    cases hLast
  covered := by
    intro d last hLast
    cases hLast
  whole := by
    intro d last hLast
    cases hLast

theorem Agrees.not_running
    {size : Nat → Nat}
    {w : World}
    {past : File}
    (hAgrees : Agrees size w past)
    (devs : List Nat) :
    isScrubRunning past devs = false := by
  unfold isScrubRunning
  rw [List.any_eq_false]
  intro d _
  cases hFound : lastDevScrub past d with
  | none => simp
  | some rec =>
      rcases hAgrees.recorded d rec hFound with
        ⟨_, _, _, hFinished, _⟩
      simp [hFinished]

/- The fields of a record that a resumed device keeps. -/
theorem recordOf_flags
    (data : ScrubProgress) :
    (recordOf data).devid = data.devid ∧
      (recordOf data).stats.finished = data.stats.finished ∧
      (recordOf data).stats.canceled =
        data.stats.canceled := by
  unfold recordOf scrubResumedStats
  split
  · exact ⟨rfl, rfl, rfl⟩
  · split
    · exact ⟨rfl, rfl, rfl⟩
    · exact ⟨rfl, rfl, rfl⟩

theorem devid_plan
    (resume : Bool)
    (past : File)
    (d : Nat) :
    (plan resume past d).devid = d := by
  unfold plan
  dsimp only
  split
  · split
    · rfl
    · split
      · rfl
      · rfl
  · rfl

theorem stats_plan
    (resume : Bool)
    (past : File)
    (d : Nat) :
    (plan resume past d).stats = Stats.zero := by
  unfold plan
  dsimp only
  split
  · split
    · rfl
    · split
      · rfl
      · rfl
  · rfl

theorem devid_endedDev
    (past : File)
    (r : Run)
    (d : Nat) :
    (recordOf (endedDev past r d)).devid = d := by
  have hPlan := devid_plan r.resume past d
  rw [(recordOf_flags _).1]
  unfold endedDev ended
  dsimp only
  split
  · split
    · exact hPlan
    · exact hPlan
  · exact hPlan

theorem lastDevScrub_map
    {f : Nat → Record}
    (hId : ∀ d, (f d).devid = d)
    (devs : List Nat)
    (d : Nat) :
    lastDevScrub (devs.map f) d =
      if d ∈ devs then some (f d) else none := by
  induction devs with
  | nil => rfl
  | cons e devs ih =>
      unfold lastDevScrub at ih ⊢
      rw [List.map_cons, List.find?_cons]
      by_cases hHere : e = d
      · subst hHere
        simp [hId]
      · have hOther : decide ((f e).devid = d) = false := by
          rw [hId]
          exact decide_eq_false hHere
        have hMem : d ∈ e :: devs ↔ d ∈ devs := by
          rw [List.mem_cons]
          tauto
        rw [hOther, ih]
        simp only [hMem]

----------
-- The Progress Thread
----------

/-
  What the progress thread holds of a device that is scrubbed:
  it is not reported as finished before its thread has ended,
  and as failed only not if it ended early.
-/
structure Followed
    (early : Bool)
    (shared sp : ScrubProgress) : Prop where
  devid : sp.devid = shared.devid
  flag :
    sp.stats.finished ≠ 0 → sp.stats.canceled = 0 →
      shared.stats.canceled = 0 ∨ early = true

theorem followed_init
    {early : Bool}
    {shared : ScrubProgress}
    (hScrubbed : shared.skip = false) :
    Followed early shared (cycleInit early shared) := by
  refine ⟨rfl, ?_⟩
  intro hFinished _
  right
  by_contra hLate
  apply hFinished
  simp [cycleInit, hScrubbed, hLate]

theorem followed_cycleDev
    {early : Bool}
    {shared : ScrubProgress}
    {obs : Observed}
    {pair : ScrubProgress × ScrubProgress}
    (hFirst : Followed early shared pair.1)
    (hSecond : Followed early shared pair.2) :
    Followed early shared (cycleDev shared obs pair).1 ∧
      Followed early shared (cycleDev shared obs pair).2 := by
  have hShared : Followed early shared shared :=
    ⟨rfl, fun _ hDone => Or.inl hDone⟩
  unfold cycleDev
  dsimp only
  split
  · exact ⟨hSecond, hFirst⟩
  · rename_i hRunning
    rw [ne_eq, not_not] at hRunning
    split
    · refine ⟨⟨hSecond.devid, ?_⟩, hFirst⟩
      intro hFinished
      exact absurd hRunning hFinished
    · exact ⟨hFirst, hFirst⟩
    · exact ⟨hShared, hShared⟩

theorem followed_progressCycle
    {early : Nat → Bool}
    {shared : Nat → ScrubProgress}
    {d : Nat}
    {rounds : List (Nat → Observed)}
    {pairs : Nat → ScrubProgress × ScrubProgress}
    (hFirst : Followed (early d) (shared d) (pairs d).1)
    (hSecond : Followed (early d) (shared d) (pairs d).2) :
    ∀ sp ∈ progressCycle shared rounds pairs,
      Followed (early d) (shared d) (sp d) := by
  induction rounds generalizing pairs with
  | nil =>
      intro sp hsp
      cases hsp
  | cons obs rounds ih =>
      have hStep : Followed (early d) (shared d)
          (cycleDev (shared d) (obs d) (pairs d)).1 ∧ _ :=
        followed_cycleDev hFirst hSecond
      intro sp hsp
      rw [progressCycle, List.mem_cons] at hsp
      rcases hsp with rfl | hsp
      · exact hStep.1
      · exact ih hStep.1 hStep.2 sp hsp

----------
-- One Run
----------

/-
  A device that the run scrubs: from the beginning, or on from
  where its last run came to.
-/
structure Prepared
    (w : World)
    (past : File)
    (r : Run)
    (d : Nat) : Prop where
  skip : (plan r.resume past d).skip = false
  cases :
    (r.resume = false ∧ (plan r.resume past d).start = 0 ∧
      (plan r.resume past d).resumed = none) ∨
    (r.resume = true ∧ ∃ last rec, w d = some last ∧
      last.canceled = true ∧
      (plan r.resume past d).start = last.reached ∧
      (plan r.resume past d).resumed = some rec ∧
      rec.p .lastPhysical = last.reached)

section OneRun

variable {size : Nat → Nat} {w : World} {past : File} {r : Run}
variable (hAgrees : Agrees size w past)

theorem prepared_of_start
    (hStart : r.resume = false)
    (d : Nat) :
    Prepared w past r d := by
  have hPlan : plan r.resume past d =
      ⟨d, 0, false, none, fun _ => 0, Stats.zero⟩ := by
    unfold plan
    rw [hStart]
    rfl
  exact ⟨by rw [hPlan], Or.inl ⟨hStart, by rw [hPlan],
    by rw [hPlan]⟩⟩

include hAgrees

theorem prepared_of_resume
    (hResume : r.resume = true)
    {d : Nat}
    {last : Last}
    (hLast : w d = some last)
    (hCanceled : last.canceled = true)
    (hBegan : last.began = 0)
    (hRecord : (lastDevScrub past d).isSome) :
    Prepared w past r d := by
  rcases Option.isSome_iff_exists.mp hRecord with
    ⟨rec, hFound⟩
  rcases hAgrees.recorded d rec hFound with
    ⟨last', hLast', hPosition, _, hFlag⟩
  rw [hLast] at hLast'
  cases hLast'
  have hBound := hAgrees.bounded d last hLast
  rw [hBegan, Nat.zero_add, Nat.mod_eq_of_lt hBound]
    at hPosition
  have hPlan : plan r.resume past d =
      ⟨d, rec.p .lastPhysical, false, some rec, fun _ => 0,
        Stats.zero⟩ := by
    unfold plan
    rw [hResume, hFound]
    dsimp only
    rw [if_pos rfl, if_pos (Or.inl (hFlag.mpr hCanceled))]
  refine ⟨by rw [hPlan], Or.inr ⟨hResume, last, rec, hLast,
    hCanceled, ?_, by rw [hPlan], hPosition⟩⟩
  rw [hPlan]
  exact hPosition

/- Without an unfinished device there is nothing to resume. -/
theorem nothing_of_finished
    (hResume : r.resume = true)
    (hNone : ∀ d ∈ r.devs, ¬ w.Unfinished d) :
    scrubStart past r = .nothing := by
  have hSkip : ∀ d ∈ r.devs,
      (plan r.resume past d).skip = true := by
    intro d hd
    unfold plan
    rw [hResume]
    dsimp only
    rw [if_pos rfl]
    cases hFound : lastDevScrub past d with
    | none => rfl
    | some rec =>
        rcases hAgrees.recorded d rec hFound with
          ⟨last, hLast, _, hFinished, hFlag⟩
        have hWhole : ¬ (rec.stats.canceled ≠ 0 ∨
            rec.stats.finished = 0) := by
          rintro (hCanceled | hZero)
          · exact hNone d hd
              ⟨last, hLast, hFlag.mp hCanceled⟩
          · exact hFinished hZero
        dsimp only
        rw [if_neg hWhole]
  unfold scrubStart
  dsimp only
  rw [if_neg (by simp [hAgrees.not_running]), if_pos]
  rw [List.all_eq_true]
  intro sp hsp
  rcases List.mem_map.mp hsp with ⟨d, hd, rfl⟩
  exact hSkip d hd

/- A run of prepared devices comes to its end. -/
theorem ran_of_prepared
    (hSome : r.devs ≠ [])
    (hPrepared : ∀ d ∈ r.devs, Prepared w past r d) :
    scrubStart past r =
      .ran (initialFile past r) (cycleFiles past r)
        (scrubWriteFile (r.devs.map (endedDev past r))) := by
  unfold scrubStart
  dsimp only
  rw [if_neg (by simp [hAgrees.not_running]), if_neg, if_neg]
  · intro hAny
    rcases List.any_eq_true.mp hAny with ⟨d, hd, hNone⟩
    have hSkip := (hPrepared d hd).skip
    unfold ended at hNone
    rw [hSkip] at hNone
    simp at hNone
  · intro hAll
    rw [List.all_eq_true] at hAll
    rcases List.exists_mem_of_ne_nil _ hSome with ⟨d, hd⟩
    have hSkip := hAll _ (List.mem_map_of_mem hd)
    rw [(hPrepared d hd).skip] at hSkip
    cases hSkip

end OneRun

section Scrubbed

variable {size : Nat → Nat} {w : World} {past : File} {r : Run}
variable {d : Nat}
variable (hAgrees : Agrees size w past)
variable (hPrepared : Prepared w past r d)

/- The last scrub of a device after it was scrubbed. -/
def lastOf
    (w : World)
    (past : File)
    (r : Run)
    (d : Nat) : Last :=
  ((w d).getD Last.none).scrubbed r.resume
    (plan r.resume past d).start (r.ioctl d)

section Prepared

include hPrepared

theorem Prepared.endedDev_eq :
    endedDev past r d =
      scrubOneDev (r.ioctl d) (plan r.resume past d) := by
  unfold endedDev ended
  dsimp only
  rw [hPrepared.skip]
  rfl

theorem Prepared.position :
    (recordOf (endedDev past r d)).p .lastPhysical =
      ((plan r.resume past d).start +
        (r.ioctl d).progress .lastPhysical) % 2 ^ 64 := by
  have hSkip := hPrepared.skip
  rw [hPrepared.endedDev_eq]
  rcases hPrepared.cases with ⟨_, hStart, hResumed⟩ |
    ⟨_, last, rec, _, _, hStart, hResumed, hRec⟩
  · simp only [recordOf, scrubResumedStats, scrubOneDev,
      hResumed, hStart, Nat.zero_add]
    rw [Nat.mod_eq_of_lt ((r.ioctl d).bounded _)]
  · simp only [recordOf, scrubResumedStats, scrubOneDev,
      hResumed, hStart, hSkip, Bool.false_eq_true, if_false,
      hRec]

include hAgrees

/- What has been scrubbed reaches from the beginning on. -/
theorem Prepared.covered
    {x : Nat}
    (hx :
      (r.ioctl d).failed = false ∨
        x < (r.ioctl d).progress .lastPhysical) :
    (lastOf w past r d).covered x := by
  by_cases hLow : (plan r.resume past d).start ≤ x
  · exact Or.inr ⟨hLow, hx⟩
  · rcases hPrepared.cases with ⟨_, hStart, _⟩ |
      ⟨hResume, last, rec, hLast, hCanceled, hStart, _⟩
    · omega
    · left
      refine ⟨hResume, ?_⟩
      rw [hLast]
      exact hAgrees.covered d last hLast hCanceled x
        (by omega)

end Prepared

end Scrubbed

section RunGood

variable {size : Nat → Nat} {w : World} {past : File} {r : Run}
variable (hAgrees : Agrees size w past)
variable (hSome : r.devs ≠ [])
variable (hPrepared : ∀ d ∈ r.devs, Prepared w past r d)

include hAgrees hSome hPrepared

theorem startOf_prepared
    {d : Nat}
    (hd : d ∈ r.devs) :
    startOf past r d = some (plan r.resume past d).start := by
  unfold startOf
  rw [ran_of_prepared hAgrees hSome hPrepared]
  dsimp only
  rw [if_pos ⟨hd, (hPrepared d hd).skip⟩]

theorem after_prepared
    {d : Nat}
    (hd : d ∈ r.devs) :
    w.after past r d = some (lastOf w past r d) := by
  unfold World.after
  rw [startOf_prepared hAgrees hSome hPrepared hd]
  rfl

theorem agrees_after_prepared :
    Agrees size (w.after past r)
      ((scrubStart past r).left past) := by
  have hOther : ∀ d, d ∉ r.devs →
      w.after past r d = w d := by
    intro d hd
    unfold World.after startOf
    rw [ran_of_prepared hAgrees hSome hPrepared]
    dsimp only
    rw [if_neg (fun h => hd h.1)]
  have hDevices : ∀ d last, w.after past r d = some last →
      (d ∈ r.devs ∧ last = lastOf w past r d) ∨
        w d = some last := by
    intro d last hLast
    by_cases hd : d ∈ r.devs
    · rw [after_prepared hAgrees hSome hPrepared hd] at hLast
      exact Or.inl ⟨hd, (Option.some.inj hLast).symm⟩
    · rw [hOther d hd] at hLast
      exact Or.inr hLast
  refine ⟨?_, ?_, ?_, ?_⟩
  · intro d rec hFound
    rw [ran_of_prepared hAgrees hSome hPrepared] at hFound
    have hId : ∀ d,
        ((recordOf ∘ endedDev past r) d).devid = d :=
      devid_endedDev past r
    rw [Result.left, scrubWriteFile, List.map_map,
      lastDevScrub_map hId] at hFound
    split at hFound
    · rename_i hd
      cases hFound
      have hHere := hPrepared d hd
      have hFlags := recordOf_flags (endedDev past r d)
      refine ⟨lastOf w past r d,
        after_prepared hAgrees hSome hPrepared hd,
        hHere.position, ?_, ?_⟩
      · have hOne : (recordOf
            (endedDev past r d)).stats.finished = 1 := by
          rw [hFlags.2.1, hHere.endedDev_eq]
          rfl
        intro hZero
        exact absurd (hOne.symm.trans hZero) (by decide)
      · have hSame : (recordOf
            (endedDev past r d)).stats.canceled =
              if (r.ioctl d).failed then 1 else 0 := by
          rw [hFlags.2.2, hHere.endedDev_eq]
          rfl
        show (recordOf (endedDev past r d)).stats.canceled ≠
          0 ↔ (r.ioctl d).failed = true
        rw [hSame]
        cases (r.ioctl d).failed with
        | false => simp
        | true => simp
    · cases hFound
  · intro d last hLast
    rcases hDevices d last hLast with ⟨_, rfl⟩ | hOld
    · exact (r.ioctl d).bounded _
    · exact hAgrees.bounded d last hOld
  · intro d last hLast hCanceled x hx
    rcases hDevices d last hLast with ⟨hd, rfl⟩ | hOld
    · exact (hPrepared d hd).covered hAgrees (Or.inr hx)
    · exact hAgrees.covered d last hOld hCanceled x hx
  · intro d last hLast hDone x hx
    rcases hDevices d last hLast with ⟨hd, rfl⟩ | hOld
    · exact (hPrepared d hd).covered hAgrees (Or.inl hDone)
    · exact hAgrees.whole d last hOld hDone x hx

omit hAgrees hSome in
/-
  A record that says a device is finished: its thread has
  ended well, or so early that the progress thread has not
  seen how.
-/
theorem reported
    {file : File}
    (hFile :
      file ∈ Result.files (.ran (initialFile past r)
        (cycleFiles past r)
        (scrubWriteFile (r.devs.map (endedDev past r)))))
    {rec : Record}
    (hRec : rec ∈ file)
    (hFinished : rec.stats.finished ≠ 0)
    (hDone : rec.stats.canceled = 0) :
    rec.devid ∈ r.devs ∧
      ((r.ioctl rec.devid).failed = false ∨
        (r.rounds ≠ [] ∧ r.early rec.devid = true)) := by
  have hFailed : ∀ d ∈ r.devs,
      (endedDev past r d).stats.canceled = 0 →
        (r.ioctl d).failed = false := by
    intro d hd hZero
    rw [(hPrepared d hd).endedDev_eq] at hZero
    simp only [scrubOneDev] at hZero
    cases hIo : (r.ioctl d).failed with
    | false => rfl
    | true =>
        rw [hIo] at hZero
        cases hZero
  rw [Result.files, List.mem_cons, List.mem_append,
    List.mem_singleton] at hFile
  rcases hFile with rfl | hCycle | rfl
  · rcases List.mem_map.mp hRec with ⟨sp, hsp, rfl⟩
    rcases List.mem_map.mp hsp with ⟨d, hd, rfl⟩
    rw [(recordOf_flags _).2.1, stats_plan] at hFinished
    exact absurd rfl hFinished
  · rcases List.mem_map.mp hCycle with ⟨sps, hRound, rfl⟩
    rcases List.mem_map.mp hRec with ⟨sp, hsp, rfl⟩
    rcases List.mem_map.mp hsp with ⟨d, hd, rfl⟩
    have hSkip : (endedDev past r d).skip = false := by
      rw [(hPrepared d hd).endedDev_eq]
      exact (hPrepared d hd).skip
    have hInit : Followed (r.early d) (endedDev past r d)
        (cycleInit (r.early d) (endedDev past r d)) :=
      followed_init hSkip
    have hFollowed := followed_progressCycle hInit hInit sps
      hRound
    have hSome : r.rounds ≠ [] := by
      intro hNil
      rw [hNil] at hRound
      cases hRound
    have hFlags := recordOf_flags (sps d)
    have hId : (recordOf (sps d)).devid = d := by
      have hEnded := devid_endedDev past r d
      rw [(recordOf_flags _).1] at hEnded
      rw [hFlags.1, hFollowed.devid, hEnded]
    rw [hFlags.2.1] at hFinished
    rw [hFlags.2.2] at hDone
    rw [hId]
    refine ⟨hd, ?_⟩
    rcases hFollowed.flag hFinished hDone with hZero | hSoon
    · exact Or.inl (hFailed d hd hZero)
    · exact Or.inr ⟨hSome, hSoon⟩
  · rcases List.mem_map.mp hRec with ⟨sp, hsp, rfl⟩
    rcases List.mem_map.mp hsp with ⟨d, hd, rfl⟩
    rw [(recordOf_flags _).2.2] at hDone
    rw [devid_endedDev]
    exact ⟨hd, Or.inl (hFailed d hd hDone)⟩

theorem good_of_prepared
    (hEarly : NotEarly size r) :
    Good size w past r := by
  have hRan := ran_of_prepared hAgrees hSome hPrepared
  refine ⟨?_, ?_, ?_, ?_⟩
  · intro hResume d hd last hLast _
    rw [startOf_prepared hAgrees hSome hPrepared hd]
    rcases (hPrepared d hd).cases with ⟨hStart, _⟩ |
      ⟨_, last', rec, hLast', _, hBegin, _⟩
    · rw [hResume] at hStart
      cases hStart
    · rw [hLast] at hLast'
      cases hLast'
      rw [hBegin]
  · intro file hFile rec hRec hFinished hDone
    rw [hRan] at hFile
    rcases reported hPrepared hFile hRec hFinished hDone with
      ⟨hd, hEnd⟩
    have hHere := hPrepared rec.devid hd
    refine ⟨_, after_prepared hAgrees hSome hPrepared hd, ?_⟩
    intro x hx
    apply hHere.covered hAgrees
    rcases hEnd with hWell | ⟨hRounds, hSoon⟩
    · exact Or.inl hWell
    · cases hFailed : (r.ioctl rec.devid).failed with
      | false => exact Or.inl rfl
      | true =>
          right
          rcases hEarly with hNil | hEarly
          · exact absurd hNil hRounds
          · exact Nat.lt_of_lt_of_le hx
              (hEarly rec.devid hd hSoon hFailed)
  · intro file _ d hd hSkip
    rw [(hPrepared d hd).skip] at hSkip
    cases hSkip
  · intro initial hCrashed
    rw [hRan] at hCrashed
    cases hCrashed

end RunGood

----------
-- Whole Sequences
----------

section Sequences

variable {size : Nat → Nat} {w : World} {past : File} {r : Run}
variable (hAgrees : Agrees size w past)

/- A run that does nothing changes nothing. -/
theorem after_nothing
    (hNothing : scrubStart past r = .nothing) :
    w.after past r = w ∧
      (scrubStart past r).left past = past := by
  constructor
  · funext d
    unfold World.after startOf
    rw [hNothing]
  · rw [hNothing]
    rfl

include hAgrees

omit hAgrees in
theorem good_of_nothing
    (hNothing : scrubStart past r = .nothing)
    (hNone : r.resume = true →
      ∀ d ∈ r.devs, ¬ w.Unfinished d) :
    Good size w past r := by
  refine ⟨?_, ?_, ?_, ?_⟩
  · intro hResume d hd last hLast hCanceled
    exact absurd ⟨last, hLast, hCanceled⟩
      (hNone hResume d hd)
  · intro file hFile
    rw [hNothing] at hFile
    cases hFile
  · intro file hFile
    rw [hNothing] at hFile
    cases hFile
  · intro initial hCrashed
    rw [hNothing] at hCrashed
    cases hCrashed

/- One run that meets the conditions. -/
theorem run_good
    (hResumable :
      r.resume = true → Resumable w past r.devs)
    (hEarly : NotEarly size r) :
    Good size w past r ∧
      Agrees size (w.after past r)
        ((scrubStart past r).left past) := by
  by_cases hIdle : r.devs = [] ∨ (r.resume = true ∧
      ∀ d ∈ r.devs, ¬ w.Unfinished d)
  · have hNothing : scrubStart past r = .nothing := by
      rcases hIdle with hNil | ⟨hResume, hNone⟩
      · unfold scrubStart
        rw [hNil]
        rfl
      · exact nothing_of_finished hAgrees hResume hNone
    have hSame := after_nothing (w := w) hNothing
    refine ⟨good_of_nothing hNothing ?_, ?_⟩
    · intro hResume d hd
      rcases hIdle with hNil | ⟨_, hNone⟩
      · rw [hNil] at hd
        cases hd
      · exact hNone d hd
    · rw [hSame.1, hSame.2]
      exact hAgrees
  · rw [not_or] at hIdle
    have hPrepared : ∀ d ∈ r.devs, Prepared w past r d := by
      intro d hd
      cases hMode : r.resume with
      | false => exact prepared_of_start hMode d
      | true =>
          rcases hResumable hMode with hNone | hAll
          · exact absurd ⟨hMode, hNone⟩ hIdle.2
          · rcases hAll d hd with
              ⟨last, hLast, hCanceled, hBegan, hRecord⟩
            exact prepared_of_resume hAgrees hMode hLast
              hCanceled hBegan hRecord
    exact ⟨good_of_prepared hAgrees hIdle.1 hPrepared hEarly,
      agrees_after_prepared hAgrees hIdle.1 hPrepared⟩

theorem allGood_of_steady
    {runs : List Run}
    (hSteady : Steady size w past runs) :
    AllGood size w past runs := by
  induction runs generalizing w past with
  | nil => exact trivial
  | cons r runs ih =>
      rcases hSteady with ⟨hResumable, hEarly, hRest⟩
      have hRun := run_good hAgrees hResumable hEarly
      exact ⟨hRun.1, ih hRun.2 hRest⟩

end Sequences

/-
  In every sequence of runs, from no status file on, all of
  whose runs meet the conditions, each run resumes its devices
  where they were left, reports none as finished that is not,
  and keeps what it skips.
-/
theorem scrub_runs_good
    (size : Nat → Nat)
    (runs : List Run)
    (hSteady : Steady size (fun _ => none) [] runs) :
    AllGood size (fun _ => none) [] runs :=
  allGood_of_steady (agrees_init size) hSteady

/- A scrub of device 1 that ends at a position. -/
def oneDevice
    (resume failed : Bool)
    (position : Nat) : Run where
  resume := resume
  devs := [1]
  ioctl := fun _ => {
    failed := failed
    progress := fun _ => position % 2 ^ 64
    bounded := fun _ => Nat.mod_lt _ (by decide)
    tStart := 0
    duration := 0 }
  early := fun _ => false
  rounds := []

/- A scrub that is canceled, and finished by a resume. -/
theorem scrub_runs_good_once :
    AllGood (fun _ => 100) (fun _ => none) []
      [oneDevice false true 10, oneDevice true false 100] := by
  apply scrub_runs_good
  refine ⟨?_, Or.inl rfl, ?_, Or.inl rfl, trivial⟩
  · intro hResume
    cases hResume
  · intro _
    right
    intro d hd
    have hOne : d = 1 := List.mem_singleton.mp hd
    subst hOne
    exact ⟨_, rfl, rfl, rfl, rfl⟩

/- A scrub that is resumed, canceled and resumed again. -/
theorem scrub_resumes_too_far :
    ¬ AllGood (fun _ => 100) (fun _ => none) []
      [oneDevice false true 10, oneDevice true true 30,
        oneDevice true false 100] := by
  rintro ⟨_, _, hThird, _⟩
  have hStart := hThird.resumes rfl 1 (by decide) _ rfl rfl
  have hPosition := Option.some.inj hStart
  exact absurd hPosition (by decide)

end Scrub

end BtrfsProgs
