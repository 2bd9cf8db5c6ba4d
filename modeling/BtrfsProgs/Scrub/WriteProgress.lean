import BtrfsProgs.Scrub.StatusText

/-
  `scrub_write_progress`, from `cmds-scrub.c`.

  The file for the new status is opened without `O_TRUNC`, and
  what an earlier call left behind in it is renamed with it.

  Main declarations:
    * `scrubWriteProgress` and `Step`
    * `Replaces` and `Meets`
    * `replaces_run_iff`
-/

----------
-- The Function
----------

namespace BtrfsProgs

namespace Scrub

namespace StatusFile

namespace WriteProgress

/- The status file and its temporary one, if they are there. -/
structure Files : Type where
  status : Option (List UInt8)
  tmp : Option (List UInt8)

/- The answers of the system, each with its error or 0. -/
structure Env : Type where
  lock : Nat
  disable : Nat
  openFile : Nat
  flock : Nat
  takes : Nat → Option Nat
  rename : Nat
  close : Nat
  unlock : Nat
  enable : Nat

/- Bytes that are written from the start of a file. -/
def overwrite
    (new old : List UInt8) : List UInt8 :=
  new ++ old.drop new.length

/-
  What comes before the rename, with whether a file is open
  and with `err`.
-/
def writeTmp
    (env : Env)
    (fsid : List UInt8)
    (data : List ScrubProgress)
    (files : Files) : Files × Bool × Int :=
  if env.lock ≠ 0 then (files, false, -env.lock)
  else if env.disable ≠ 0 then (files, false, -env.disable)
  else if env.openFile ≠ 0 then (files, false, -env.openFile)
  -- `O_CREAT` makes the file before `flock` is asked
  else if env.flock ≠ 0 then
    ({ files with tmp := some (files.tmp.getD []) }, false,
      -env.flock)
  else
    let (fd, err) := scrubWriteFile env.takes fsid data
    ({ files with
        tmp := some (overwrite fd.bytes (files.tmp.getD [])) },
      true, err)

/- What is done behind `out`, with what is returned. -/
def cleanUp
    (env : Env)
    (opened : Bool)
    (err : Int) : Int :=
  let err : Int :=
    if opened ∧ env.close ≠ 0 then -env.close else err
  let err : Int :=
    if env.unlock ≠ 0 ∧ err = 0 then -env.unlock else err
  if env.enable ≠ 0 ∧ err = 0 then -env.enable else err

/- `scrub_write_progress`. -/
def scrubWriteProgress
    (env : Env)
    (fsid : List UInt8)
    (data : List ScrubProgress)
    (files : Files) : Files × Int :=
  let (files, opened, err) := writeTmp env fsid data files
  if err ≠ 0 then (files, cleanUp env opened err)
  else if env.rename ≠ 0 then
    (files, cleanUp env opened (-env.rename))
  else (⟨files.tmp, none⟩, cleanUp env opened 0)

----------
-- Runs
----------

/-
  A call that returns, or one that is killed before the rename;
  then `takes` says how far it gets.
-/
inductive Step where
  | call (env : Env) (data : List ScrubProgress)
  | killed (env : Env) (data : List ScrubProgress)

def Step.after
    (fsid : List UInt8)
    (files : Files) : Step → Files
  | .call env data => (scrubWriteProgress env fsid data files).1
  | .killed env data => (writeTmp env fsid data files).1

/- Something that holds at every step of a run. -/
def Along
    (fsid : List UInt8)
    (Holds : Files → Step → Prop) : Files → List Step → Prop
  | _, [] => True
  | files, step :: steps =>
      Holds files step ∧ Along fsid Holds (step.after fsid files) steps

/-
  A call that returns 0 leaves just its bytes in the status
  file, and any other leaves the file as it was.
-/
def Replaces
    (fsid : List UInt8)
    (files : Files) : Step → Prop
  | .call env data =>
      if (scrubWriteProgress env fsid data files).2 = 0 then
        (scrubWriteProgress env fsid data files).1.status =
          some (scrubWriteFile env.takes fsid data).1.bytes
      else
        (scrubWriteProgress env fsid data files).1.status =
          files.status
  | .killed env data =>
      (writeTmp env fsid data files).1.status = files.status

/- Nothing fails up to and with the rename. -/
structure Renames
    (env : Env)
    (fsid : List UInt8)
    (data : List ScrubProgress) : Prop where
  lock : env.lock = 0
  disable : env.disable = 0
  openFile : env.openFile = 0
  flock : env.flock = 0
  write : (scrubWriteFile env.takes fsid data).2 = 0
  rename : env.rename = 0

/- Nothing fails after the rename. -/
def Env.CleansUp
    (env : Env) : Prop :=
  env.close = 0 ∧ env.unlock = 0 ∧ env.enable = 0

/-
  A call that gets to the rename finds no more in the temporary
  file than it writes, and nothing fails later on; or else what
  it renames is what the status file held.
-/
def Meets
    (fsid : List UInt8)
    (files : Files) : Step → Prop
  | .call env data => Renames env fsid data →
      env.CleansUp ∧ (files.tmp.getD []).length ≤
          (scrubWriteFile env.takes fsid data).1.bytes.length ∨
        ¬ env.CleansUp ∧ files.status = some (overwrite
          (scrubWriteFile env.takes fsid data).1.bytes
            (files.tmp.getD []))
  | .killed _ _ => True

----------
-- One Step
----------

section Steps

variable {env : Env} {fsid : List UInt8}
  {data : List ScrubProgress} {files : Files}

theorem cleanUp_ne_zero
    {opened : Bool}
    {err : Int}
    (hErr : err ≠ 0) :
    cleanUp env opened err ≠ 0 := by
  unfold cleanUp
  by_cases hClose : opened = true ∧ env.close ≠ 0
  · simp [hClose]
  · simp [hClose, hErr]

theorem cleanUp_zero_iff :
    cleanUp env true 0 = 0 ↔ env.CleansUp := by
  unfold cleanUp Env.CleansUp
  dsimp only
  split_ifs <;> simp_all

theorem status_writeTmp :
    (writeTmp env fsid data files).1.status = files.status := by
  unfold writeTmp
  split_ifs <;> rfl

theorem overwrite_eq_iff
    {new old : List UInt8} :
    overwrite new old = new ↔ old.length ≤ new.length := by
  unfold overwrite
  rw [List.append_right_eq_self, List.drop_eq_nil_iff]

theorem progress_of_renames
    (hRenames : Renames env fsid data) :
    scrubWriteProgress env fsid data files =
      (⟨some (overwrite (scrubWriteFile env.takes fsid data).1.bytes
        (files.tmp.getD [])), none⟩, cleanUp env true 0) := by
  rcases hRenames with
    ⟨hLock, hDisable, hOpen, hFlock, hWrite, hRename⟩
  unfold scrubWriteProgress writeTmp
  simp [hLock, hDisable, hOpen, hFlock, hWrite, hRename]

theorem progress_of_not_renames
    (hNot : ¬ Renames env fsid data) :
    (scrubWriteProgress env fsid data files).1.status =
        files.status ∧
      (scrubWriteProgress env fsid data files).2 ≠ 0 := by
  have hStatus : (writeTmp env fsid data files).1.status =
      files.status :=
    status_writeTmp
  have hZero : (writeTmp env fsid data files).2.2 = 0 →
      env.rename = 0 → Renames env fsid data := by
    unfold writeTmp
    split_ifs with hLock hDisable hOpen hFlock
    · dsimp only
      omega
    · dsimp only
      omega
    · dsimp only
      omega
    · dsimp only
      omega
    · exact fun hWrite hRename => ⟨not_not.mp hLock,
        not_not.mp hDisable, not_not.mp hOpen,
        not_not.mp hFlock, hWrite, hRename⟩
  unfold scrubWriteProgress
  cases hTmp : writeTmp env fsid data files with
  | mk next rest =>
      rcases rest with ⟨opened, err⟩
      rw [hTmp] at hStatus hZero
      dsimp only at hStatus hZero ⊢
      split_ifs with hErr hRename
      · exact ⟨hStatus, cleanUp_ne_zero hErr⟩
      · exact ⟨hStatus, cleanUp_ne_zero (by omega)⟩
      · exact absurd
          (hZero (not_not.mp hErr) (not_not.mp hRename)) hNot

theorem replaces_iff
    {step : Step} :
    Replaces fsid files step ↔ Meets fsid files step := by
  cases step with
  | killed env data =>
      exact iff_of_true status_writeTmp trivial
  | call env data =>
      unfold Replaces Meets
      dsimp only
      by_cases hRenames : Renames env fsid data
      · rw [progress_of_renames hRenames]
        dsimp only
        by_cases hClean : env.CleansUp
        · rw [if_pos (cleanUp_zero_iff.mpr hClean)]
          simp [hRenames, hClean, overwrite_eq_iff]
        · rw [if_neg (mt cleanUp_zero_iff.mp hClean)]
          simp [hRenames, hClean, eq_comm]
      · rcases @progress_of_not_renames _ _ _ files hRenames with
          ⟨hStatus, hError⟩
        rw [if_neg hError]
        exact iff_of_true hStatus
          (fun hNow => absurd hNow hRenames)

end Steps

----------
-- All Runs
----------

/-
  In a run every call replaces the status just when each meets
  the condition in the state it finds.
-/
theorem replaces_run_iff
    (fsid : List UInt8)
    (files : Files)
    (steps : List Step) :
    Along fsid (Replaces fsid) files steps ↔
      Along fsid (Meets fsid) files steps := by
  induction steps generalizing files with
  | nil => exact Iff.rfl
  | cons step steps ih => exact and_congr replaces_iff (ih _)

/- A system where nothing fails, and a device without counts. -/
def wellEnv : Env :=
  ⟨0, 0, 0, 0, takesAll, 0, 0, 0, 0⟩

def idle : ScrubProgress :=
  ⟨1, 0, false, none, fun _ => 0, Stats.zero⟩

/- A status of one device after one of two that was killed. -/
theorem progress_keeps_leftovers :
    ¬ Along [49] (Replaces [49]) ⟨none, none⟩
      [.killed wellEnv [idle, idle], .call wellEnv [idle]] := by
  intro hRun
  have hBytes : ∀ data : List ScrubProgress, data ≠ [] →
      (scrubWriteFile takesAll [49] data).2 = 0 ∧
        (scrubWriteFile takesAll [49] data).1.bytes =
          fileText [49] (data.map recordOf) := by
    intro data hSome
    rcases @scrubWriteFile_takesAll [49] data (by decide) hSome
      with ⟨fd, hWrite⟩
    have hText := (scrubWriteFile_text hWrite).2
    rw [hWrite]
    exact ⟨rfl, hText⟩
  have hOne := hBytes [idle] (List.cons_ne_nil _ _)
  have hTwo := hBytes [idle, idle] (List.cons_ne_nil _ _)
  rcases replaces_iff.mp hRun.2.1
    ⟨rfl, rfl, rfl, rfl, hOne.1, rfl⟩ with hGood | hBad
  · have hLength := hGood.2
    change (overwrite (scrubWriteFile takesAll [49]
      [idle, idle]).1.bytes []).length ≤ _ at hLength
    rw [overwrite_eq_iff.mpr (Nat.zero_le _), hTwo.2] at hLength
    change _ ≤ (scrubWriteFile takesAll [49]
      [idle]).1.bytes.length at hLength
    rw [hOne.2] at hLength
    simp [fileText] at hLength
  · exact hBad.1 ⟨rfl, rfl, rfl⟩

end WriteProgress

end StatusFile

end Scrub

end BtrfsProgs
