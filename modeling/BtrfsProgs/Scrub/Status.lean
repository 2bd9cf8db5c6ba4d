import Mathlib

/-
  Runs of `btrfs scrub start` and `btrfs scrub resume`: the
  plan for each device, the threads, and the status files that
  are written, as in `cmds-scrub.c`.

  Main declarations:
    * `scrubResumedStats` and `scrubWriteFile`
    * `plan`, `scrubOneDev` and `progressCycle`
    * `scrubStart`
-/

----------
-- Records
----------

namespace BtrfsProgs

namespace Scrub

/-
  The fields of `struct btrfs_scrub_progress` that are summed
  and written.
-/
inductive Counter where
  | dataExtentsScrubbed
  | treeExtentsScrubbed
  | dataBytesScrubbed
  | treeBytesScrubbed
  | readErrors
  | csumErrors
  | verifyErrors
  | noCsum
  | csumDiscards
  | superErrors
  | mallocErrors
  | uncorrectableErrors
  | correctedErrors
  | lastPhysical
deriving Repr, DecidableEq

/- `struct btrfs_scrub_progress`. -/
def Progress : Type :=
  Counter → Nat

/- `struct scrub_stats`. -/
structure Stats where
  tStart : Nat
  tResumed : Nat
  duration : Nat
  finished : Nat
  canceled : Nat
deriving Repr, DecidableEq

def Stats.zero : Stats :=
  ⟨0, 0, 0, 0, 0⟩

/- `struct scrub_file_record`. -/
structure Record where
  devid : Nat
  stats : Stats
  p : Progress

/- A status file, by its records. -/
abbrev File : Type :=
  List Record

/- `struct scrub_progress`. -/
structure ScrubProgress where
  devid : Nat
  start : Nat
  skip : Bool
  resumed : Option Record
  progress : Progress
  stats : Stats

----------
-- Status Files
----------

/- `scrub_resumed_stats`, with `_SCRUB_SUM` for each field. -/
def scrubResumedStats
    (data : ScrubProgress) : ScrubProgress :=
  match data.resumed with
  | none => data
  | some last =>
      if data.skip then data
      else
        { data with
          progress := fun c =>
            (last.p c + data.progress c) % 2 ^ 64
          stats := {
            canceled := data.stats.canceled
            finished := data.stats.finished
            tResumed := data.stats.tStart
            tStart := last.stats.tStart
            duration :=
              (last.stats.duration + data.stats.duration) %
                2 ^ 64 } }

/- One line of the file. -/
def recordOf
    (data : ScrubProgress) : Record :=
  let use := scrubResumedStats data
  ⟨use.devid, use.stats, use.progress⟩

/- `scrub_write_file`. -/
def scrubWriteFile
    (data : List ScrubProgress) : File :=
  data.map recordOf

/- `last_dev_scrub`. -/
def lastDevScrub
    (past : File)
    (devid : Nat) : Option Record :=
  List.find? (fun rec => rec.devid = devid) past

/- `is_scrub_running_on_fs`. -/
def isScrubRunning
    (past : File)
    (devs : List Nat) : Bool :=
  devs.any fun devid =>
    match lastDevScrub past devid with
    | none => false
    | some rec =>
        rec.stats.finished = 0 ∧ rec.stats.canceled = 0

----------
-- Threads
----------

/-
  The end of the scrub ioctl of a device: whether it failed,
  its progress, and the times around it.
-/
structure Ioctl where
  failed : Bool
  progress : Progress
  bounded : ∀ c, progress c < 2 ^ 64
  tStart : Nat
  duration : Nat

/- What the progress thread sees of a device in one round. -/
inductive Observed where
  | running (p : Progress) (duration : Nat)
  | ended (flag : Bool)

/-
  A run of the command: its devices, what the kernel does, the
  threads that have ended when the progress thread begins, and
  the rounds of the progress thread.
-/
structure Run where
  resume : Bool
  devs : List Nat
  ioctl : Nat → Ioctl
  early : Nat → Bool
  rounds : List (Nat → Observed)

/- The plan for one device. -/
def plan
    (resume : Bool)
    (past : File)
    (devid : Nat) : ScrubProgress :=
  let sp : ScrubProgress :=
    ⟨devid, 0, false, none, fun _ => 0, Stats.zero⟩
  if resume then
    match lastDevScrub past devid with
    | none => { sp with skip := true }
    | some last =>
        if last.stats.canceled ≠ 0 ∨
            last.stats.finished = 0 then
          { sp with
            start := last.p .lastPhysical
            resumed := some last }
        else { sp with skip := true, resumed := some last }
  else sp

/- `scrub_one_dev`, to its end. -/
def scrubOneDev
    (io : Ioctl)
    (sp : ScrubProgress) : ScrubProgress :=
  { sp with
    progress := io.progress
    stats := {
      tStart := io.tStart
      tResumed := sp.stats.tResumed
      duration := io.duration
      finished := 1
      canceled := if io.failed then 1 else 0 } }

/-
  A device when its thread has ended; a device that is skipped
  takes over its record, and `none` is the dereference of a
  record that is not there.
-/
def ended
    (io : Ioctl)
    (sp : ScrubProgress) : Option ScrubProgress :=
  if sp.skip then
    match sp.resumed with
    | none => none
    | some last =>
        some { sp with
          progress := last.p
          stats := { last.stats with finished := 1 } }
  else some (scrubOneDev io sp)

/- What `scrub_progress_cycle` copies before its rounds. -/
def cycleInit
    (early : Bool)
    (shared : ScrubProgress) : ScrubProgress :=
  { devid := shared.devid
    start := 0
    skip := shared.skip
    resumed := shared.resumed
    progress := fun _ => 0
    stats := {
      tStart := shared.stats.tStart
      tResumed := 0
      duration := 0
      finished :=
        if shared.skip ∨ early then shared.stats.finished
        else 0
      canceled := 0 } }

/-
  One round for one device, with the progress of this round
  and of the one before.
-/
def cycleDev
    (shared : ScrubProgress)
    (obs : Observed)
    (pair : ScrubProgress × ScrubProgress) :
    ScrubProgress × ScrubProgress :=
  let (last, sp) := pair
  if sp.stats.finished ≠ 0 then (sp, last)
  else
    match obs with
    | .running p duration =>
        ({ sp with
          progress := p
          stats := { sp.stats with duration := duration } },
          last)
    | .ended false => (last, last)
    | .ended true => (shared, shared)

/- The rounds of `scrub_progress_cycle`. -/
def progressCycle
    (shared : Nat → ScrubProgress) :
    List (Nat → Observed) →
      (Nat → ScrubProgress × ScrubProgress) →
      List (Nat → ScrubProgress)
  | [], _ => []
  | obs :: rounds, pairs =>
      let pairs := fun d =>
        cycleDev (shared d) (obs d) (pairs d)
      (fun d => (pairs d).1) ::
        progressCycle shared rounds pairs

----------
-- Runs
----------

/-
  The end of a run: it is refused, has nothing to do, stops at
  a missing record, or has started its devices and written its
  status files, the last one at its end.
-/
inductive Result where
  | busy
  | nothing
  | crashed (initial : File)
  | ran (initial : File) (cycle : List File) (final : File)

/- The status file before any thread is started. -/
def initialFile
    (past : File)
    (r : Run) : File :=
  scrubWriteFile (r.devs.map (plan r.resume past))

/- A device at the end of the run, if it has one. -/
def endedDev
    (past : File)
    (r : Run)
    (devid : Nat) : ScrubProgress :=
  let sp := plan r.resume past devid
  (ended (r.ioctl devid) sp).getD sp

/- The files of the progress thread. -/
def cycleFiles
    (past : File)
    (r : Run) : List File :=
  let shared := endedDev past r
  let init := fun d => cycleInit (r.early d) (shared d)
  (progressCycle shared r.rounds fun d =>
    (init d, init d)).map fun sp =>
      scrubWriteFile (r.devs.map sp)

/- `scrub_start`. -/
def scrubStart
    (past : File)
    (r : Run) : Result :=
  let sps := r.devs.map (plan r.resume past)
  if isScrubRunning past r.devs then .busy
  else if sps.all fun sp => sp.skip then .nothing
  else if r.devs.any fun d =>
      (ended (r.ioctl d) (plan r.resume past d)).isNone then
    .crashed (initialFile past r)
  else
    .ran (initialFile past r) (cycleFiles past r)
      (scrubWriteFile (r.devs.map (endedDev past r)))

/- The files that are written. -/
def Result.files : Result → List File
  | .busy => []
  | .nothing => []
  | .crashed initial => [initial]
  | .ran initial cycle final =>
      initial :: (cycle ++ [final])

/- The status file that is left. -/
def Result.left
    (past : File) : Result → File
  | .busy => past
  | .nothing => past
  | .crashed initial => initial
  | .ran _ _ final => final

end Scrub

end BtrfsProgs
