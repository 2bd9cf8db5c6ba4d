import BtrfsProgs.Basic
import BtrfsProgs.Lib.Decimal
import BtrfsProgs.Lib.Loop
import BtrfsProgs.Scrub.Status

/-
  The bytes of a scrub status file: `scrub_write_file` and
  `scrub_read_file` of `cmds-scrub.c`.

  Main declarations:
    * `Field`, `writeOrder` and `readOrder`
    * `scrubWriteFile`
    * `Reader`, `turn` and `scrubReadFile`
-/

----------
-- Fields
----------

namespace BtrfsProgs

namespace Scrub

namespace StatusFile

/- The values of a record that have a key in the file. -/
inductive Field where
  | counter (c : Counter)
  | tStart
  | tResumed
  | duration
  | finished
  | canceled
deriving Repr, DecidableEq

def Counter.key : Counter → String
  | .dataExtentsScrubbed => "data_extents_scrubbed"
  | .treeExtentsScrubbed => "tree_extents_scrubbed"
  | .dataBytesScrubbed => "data_bytes_scrubbed"
  | .treeBytesScrubbed => "tree_bytes_scrubbed"
  | .readErrors => "read_errors"
  | .csumErrors => "csum_errors"
  | .verifyErrors => "verify_errors"
  | .noCsum => "no_csum"
  | .csumDiscards => "csum_discards"
  | .superErrors => "super_errors"
  | .mallocErrors => "malloc_errors"
  | .uncorrectableErrors => "uncorrectable_errors"
  | .correctedErrors => "corrected_errors"
  | .lastPhysical => "last_physical"

def Field.key : Field → List UInt8
  | .counter c => ascii (Counter.key c)
  | .tStart => ascii "t_start"
  | .tResumed => ascii "t_resumed"
  | .duration => ascii "duration"
  | .finished => ascii "finished"
  | .canceled => ascii "canceled"

/- The counters in the order of both functions. -/
def counters : List Counter :=
  [.dataExtentsScrubbed, .treeExtentsScrubbed,
    .dataBytesScrubbed, .treeBytesScrubbed, .readErrors,
    .csumErrors, .verifyErrors, .noCsum, .csumDiscards,
    .superErrors, .mallocErrors, .uncorrectableErrors,
    .correctedErrors, .lastPhysical]

/- The order in which `scrub_write_file` writes. -/
def writeOrder : List Field :=
  counters.map .counter ++
    [.tStart, .tResumed, .duration, .canceled, .finished]

/- The order in which `scrub_read_file` tries the keys. -/
def readOrder : List Field :=
  .counter .dataExtentsScrubbed :: counters.map .counter ++
    [.finished, .tStart, .tResumed, .duration, .canceled]

/- The value of a record. -/
def Field.get
    (rec : Record) : Field → Nat
  | .counter c => rec.p c
  | .tStart => rec.stats.tStart
  | .tResumed => rec.stats.tResumed
  | .duration => rec.stats.duration
  | .finished => rec.stats.finished
  | .canceled => rec.stats.canceled

/- A record with another value. -/
def Field.set
    (f : Field)
    (v : Nat)
    (rec : Record) : Record :=
  match f with
  | .counter c =>
      { rec with p := fun d => if d = c then v else rec.p d }
  | .tStart =>
      { rec with stats := { rec.stats with tStart := v } }
  | .tResumed =>
      { rec with stats := { rec.stats with tResumed := v } }
  | .duration =>
      { rec with stats := { rec.stats with duration := v } }
  | .finished =>
      { rec with stats := { rec.stats with finished := v } }
  | .canceled =>
      { rec with stats := { rec.stats with canceled := v } }

/-
  `struct scrub_file_record`, with the counter that is neither
  written nor read.
-/
structure FileRecord where
  fsid : List UInt8
  record : Record
  unverifiedErrors : Nat

/- A record that was set to zero. -/
def FileRecord.zero : FileRecord :=
  ⟨List.replicate 16 0, ⟨0, Stats.zero, fun _ => 0⟩, 0⟩

----------
-- Writing
----------

def newline : UInt8 := 10
def colon : UInt8 := 58
def bar : UInt8 := 124
def minus : UInt8 := 45

def SCRUB_FILE_VERSION_PREFIX : List UInt8 :=
  ascii "scrub status"

def SCRUB_FILE_VERSION : List UInt8 :=
  ascii "1"

def EINVAL : Int := 22
def EOVERFLOW : Int := 75

/- A `u64` as `%lld` prints it. -/
def lld
    (v : Nat) : List UInt8 :=
  if v % 2 ^ 64 < 2 ^ 63 then Decimal.text (v % 2 ^ 64)
  else minus :: Decimal.text (2 ^ 64 - v % 2 ^ 64)

/- A file that is written: its bytes, and the calls so far. -/
structure Fd where
  bytes : List UInt8
  calls : Nat

section Write

/- How many bytes a call of `write` takes; `none` is its -1. -/
variable (takes : Nat → Option Nat)

/- `scrub_write_buf`; whether it returns 0. -/
def scrubWriteBuf
    (data : List UInt8)
    (fd : Fd) : Fd × Bool :=
  match takes fd.calls with
  | none => (⟨fd.bytes, fd.calls + 1⟩, false)
  | some n =>
      (⟨fd.bytes ++ data.take n, fd.calls + 1⟩,
        data.length ≤ n)

/- `scrub_writev`, with the text that is printed. -/
def scrubWritev
    (max : Nat)
    (text : List UInt8)
    (fd : Fd) : Fd × Bool :=
  if max ≤ text.length then (fd, text.length = max)
  else scrubWriteBuf takes text fd

/- `scrub_kvwrite`. -/
def scrubKvwrite
    (max : Nat)
    (key : List UInt8)
    (val : Nat)
    (fd : Fd) : Fd × Bool :=
  scrubWritev takes max (bar :: key ++ colon :: lld val) fd

/- Calls that are made until one does not return 0. -/
def inTurn : List (Fd → Fd × Bool) → Fd → Fd × Bool
  | [], fd => (fd, true)
  | call :: calls, fd =>
      match call fd with
      | (fd, true) => inTurn calls fd
      | (fd, false) => (fd, false)

/-
  The calls for one device. The second call with the buffer
  has the length 0.
-/
def deviceCalls
    (fsid : List UInt8)
    (data : ScrubProgress) : List (Fd → Fd × Bool) :=
  let use := recordOf data
  [scrubWriteBuf takes fsid,
    scrubWriteBuf takes [colon],
    scrubWritev takes 1024 (lld use.devid),
    scrubWriteBuf takes []] ++
  (writeOrder.map fun f =>
    scrubKvwrite takes 1024 f.key (f.get use)) ++
  [scrubWriteBuf takes [newline]]

/- The first line of the file. -/
def versionLine : List UInt8 :=
  SCRUB_FILE_VERSION_PREFIX ++ colon ::
    SCRUB_FILE_VERSION ++ [newline]

/- `scrub_write_file`, with the file and the code. -/
def scrubWriteFile
    (fsid : List UInt8)
    (data : List ScrubProgress) : Fd × Int :=
  if data.length < 1 then (⟨[], 0⟩, -EINVAL)
  else
    match inTurn
      (scrubWriteBuf takes versionLine ::
        data.flatMap (deviceCalls takes fsid)) ⟨[], 0⟩ with
    | (fd, true) => (fd, 0)
    | (fd, false) => (fd, -EOVERFLOW)

end Write

----------
-- Reading
----------

/- `isspace`. -/
def isSpace
    (b : UInt8) : Bool :=
  b.toNat = 32 ∨ 9 ≤ b.toNat ∧ b.toNat ≤ 13

/- `atoll`, as a `u64`. -/
def atoll
    (text : List UInt8) : Nat :=
  let text := text.dropWhile isSpace
  let digits (ds : List UInt8) :=
    Decimal.value (ds.takeWhile Decimal.isDigit)
  if text.head? = some minus then
    (2 ^ 64 - min (2 ^ 63) (digits text.tail)) % 2 ^ 64
  else if text.head? = some 43 then
    min (2 ^ 63 - 1) (digits text.tail)
  else min (2 ^ 63 - 1) (digits text)

/-
  What `scrub_kvread` gives, with what is not read yet: the
  key did not match, or it did and there was an error, or the
  value.
-/
inductive Kv where
  | noMatch
  | error (more : List UInt8)
  | read (v : Nat) (more : List UInt8)

/- `scrub_kvread`, on what of the buffer is not read yet. -/
def scrubKvread
    (key text : List UInt8) : Kv :=
  if key.length + 2 < text.length ∧ key <+: text then
    let text := text.drop key.length
    if text.head? ≠ some colon then .error text
    else
      let text := text.tail
      let digits := text.takeWhile Decimal.isDigit
      if text.length ≤ digits.length then .error text
      else .read (atoll text) (text.drop digits.length)
  else .noMatch

/- `_SCRUB_KVREAD` for some keys. -/
def kvreadFirst
    (text : List UInt8) : List Field → Option (Field × Kv)
  | [] => none
  | f :: fs =>
      match scrubKvread f.key text with
      | .noMatch => kvreadFirst text fs
      | kv => some (f, kv)

/- The states of `scrub_read_file`, in the order of the code. -/
inductive State where
  | startOfFile
  | startOfLine
  | skipSpace
  | readFsid
  | readDevId
  | readKeyValue
  | afterNumber
  | skipRest
deriving Repr, DecidableEq

/-
  The variables of `scrub_read_file`. Of the buffer, `text` is
  what lies between `i` and `avail`, as `i` moves to its start
  with the next read. The records are those below `curr` and
  the one at `curr`. `rest` is the file from where the next
  read begins.
-/
structure Reader where
  state : State
  text : List UInt8
  eof : Bool
  rest : List UInt8
  reads : Nat
  past : List FileRecord
  curr : Option FileRecord

inductive ReadError where
  | enodata
  | enotsup
deriving Repr, DecidableEq

abbrev Records : Type :=
  Except ReadError (List FileRecord)

/- What is returned at the end of the file. -/
def Reader.finish
    (r : Reader) : Records :=
  match r.curr with
  | none => .error .enodata
  | some c =>
      if c.fsid = FileRecord.zero.fsid then .ok r.past
      else .ok (r.past ++ [c])

/- The record at `curr` changed. -/
def Reader.update
    (r : Reader)
    (g : FileRecord → FileRecord) : Reader :=
  { r with curr := r.curr.map g }

/- Skip the rest of the line. -/
def Reader.skip
    (r : Reader) : Reader :=
  match r.text.dropWhile (· ≠ newline) with
  | [] => { r with state := .skipRest, text := [] }
  | _ :: more => { r with state := .startOfLine, text := more }

/- After a number. -/
def Reader.afterNumber
    (r : Reader) : Reader :=
  match r.text with
  | [] => r.skip
  | b :: more =>
      if b = bar then
        { r with state := .readKeyValue, text := more }
      else if b = newline then
        { r with state := .startOfLine, text := more }
      else r.skip

/- Read a pair of a key and a value. -/
def Reader.readKeyValue
    (r : Reader) : Reader :=
  match kvreadFirst r.text readOrder with
  | some (f, .read v more) =>
      let r := r.update fun c =>
        { c with record := f.set v c.record }
      { r with text := more }.afterNumber
  | some (_, .error more) => { r with text := more }.skip
  | _ => r.skip

/- Read the device id. -/
def Reader.readDevId
    (r : Reader) : Reader :=
  let digits := r.text.takeWhile Decimal.isDigit
  if digits.length = 0 ∨
      r.text.length ≤ digits.length + 1 then r.skip
  else
    let devid := atoll r.text
    let r := r.update fun c =>
      { c with record := { c.record with devid := devid } }
    { r with
      text := r.text.drop (digits.length + 1) }.readKeyValue

section Read

/- `uuid_parse`; `none` is its -1. -/
variable (uuidParse : List UInt8 → Option (List UInt8))

/- How many bytes a call of `read` would give. -/
variable (sizes : Nat → Nat)

/- Read the fsid. -/
def Reader.readFsid
    (r : Reader) : Reader :=
  if r.text = [] then { r with state := .readFsid }
  else
    let j := (r.text.takeWhile (· ≠ colon)).length
    if r.text.length ≤ j + 1 then r.skip
    else if j ≠ 36 then r.skip
    else
      match uuidParse (r.text.take 36) with
      | none => { r with text := r.text.set 36 0 }.skip
      | some fsid =>
          let r := r.update fun c => { c with fsid := fsid }
          { r with text := r.text.drop 37 }.readDevId

/-
  `again:`, which gives a byte at least unless the file or the
  room in the buffer is at its end.
-/
def Reader.again
    (r : Reader) : Reader ⊕ Records :=
  let room := 16 * 1024 - r.text.length
  let avail := min (max 1 (sizes r.reads))
    (min room r.rest.length)
  if avail = 0 ∧ r.text = [] then .inr r.finish
  else
    .inl { r with
      text := r.text ++ r.rest.take avail
      rest := r.rest.drop avail
      reads := r.reads + 1
      eof := r.eof || avail = 0 }

/- Start of line, skip space. -/
def Reader.skipSpace
    (r : Reader) : Reader ⊕ Records :=
  let text := r.text.dropWhile isSpace
  let r := { r with text := text }
  if text = [] ∨ (r.eof = false ∧ newline ∉ text) then
    r.again sizes
  else .inl (r.readFsid uuidParse)

/- Start of line, alloc. -/
def Reader.startOfLine
    (r : Reader) : Reader ⊕ Records :=
  if r.eof = false ∧ newline ∉ r.text then r.again sizes
  else
    match r.curr with
    | none =>
        { r with
          state := .skipSpace
          curr := some FileRecord.zero }.skipSpace
            uuidParse sizes
    | some c =>
        if c.fsid = FileRecord.zero.fsid then
          .inl { r with state := .skipSpace }
        else
          { r with
            state := .skipSpace
            past := r.past ++ [c]
            curr := some FileRecord.zero }.skipSpace
              uuidParse sizes

/- Start of file. -/
def Reader.startOfFile
    (r : Reader) : Reader ⊕ Records :=
  match scrubKvread SCRUB_FILE_VERSION_PREFIX r.text with
  | .noMatch => .inl r.skip
  | .error more => .inl { r with text := more }.skip
  | .read version more =>
      if version ≠ atoll SCRUB_FILE_VERSION then
        .inr (.error .enotsup)
      else
        .inl { r with state := .afterNumber, text := more }

/-
  A turn of the loop. A state that falls through to the next
  one leaves a text behind, as the loop asks for.
-/
def turn
    (r : Reader) : Reader ⊕ Records :=
  if r.text = [] then r.again sizes
  else
    match r.state with
    | .startOfFile => r.startOfFile
    | .startOfLine => r.startOfLine uuidParse sizes
    | .skipSpace => r.skipSpace uuidParse sizes
    | .readFsid => .inl (r.readFsid uuidParse)
    | .readDevId => .inl r.readDevId
    | .readKeyValue => .inl r.readKeyValue
    | .afterNumber => .inl r.afterNumber
    | .skipRest => .inl r.skip

/- `scrub_read_file`, for at most some turns. -/
def scrubReadFile
    (turns : Nat)
    (file : List UInt8) : Option Records :=
  Loop.run (turn uuidParse sizes) turns
    ⟨.startOfFile, [], false, file, 0, [], none⟩

end Read

end StatusFile

end Scrub

end BtrfsProgs
