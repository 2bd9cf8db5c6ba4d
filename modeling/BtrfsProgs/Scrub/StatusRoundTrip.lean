import BtrfsProgs.Scrub.StatusRead

/-
  What `scrub_read_file` reads of what `scrub_write_file` has
  written, however `read` divides it.

  Main declarations:
    * `again_reads`
    * `comes_next_line` and `comes_all_lines`
    * `comes_first_line`
    * `scrubReadFile_text`
    * `ReadsBack`
    * `readsBack_iff`
-/

----------
-- Reads
----------

namespace BtrfsProgs

namespace Scrub

namespace StatusFile

section Reads

variable {uuidParse : List UInt8 → Option (List UInt8)}
variable {sizes : Nat → Nat} {r : Reader}
variable {front more : List UInt8}

/- The reader in a state, with its text and its records. -/
def readerAt
    (state : State)
    (text rest : List UInt8)
    (reads : Nat)
    (pc : List FileRecord × Option FileRecord) : Reader :=
  ⟨state, text, false, rest, reads, pc.1, pc.2⟩

variable {text rest : List UInt8}
variable {pc : List FileRecord × Option FileRecord}
variable {reads : Nat}

/- A read gives a part of what is left of the file. -/
theorem again_reads
    {state : State}
    (hRest : rest ≠ [])
    (hRoom : text.length < 16 * 1024) :
    ∃ n, 0 < n ∧ n ≤ rest.length ∧
      (readerAt state text rest reads pc).again sizes =
        .inl (readerAt state (text ++ rest.take n)
          (rest.drop n) (reads + 1) pc) := by
  have hLen := List.length_pos_iff.mpr hRest
  refine ⟨min (max 1 (sizes reads))
    (min (16 * 1024 - text.length) rest.length),
    by omega, by omega, ?_⟩
  unfold Reader.again readerAt
  dsimp only
  rw [if_neg (by omega)]
  have hNotEnd : decide (min (max 1 (sizes reads))
      (min (16 * 1024 - text.length) rest.length) = 0) =
        false :=
    decide_eq_false (by omega)
  rw [hNotEnd, Bool.or_false]

/- A line end in the text is where the line ends. -/
theorem text_of_newline
    (hSplit : text ++ rest = front ++ newline :: more)
    (hFront : ∀ b ∈ front, b ≠ newline)
    (hMem : newline ∈ text) :
    ∃ t, text = front ++ newline :: t ∧ t ++ rest = more := by
  rcases List.append_eq_append_iff.mp hSplit with
    ⟨a, hLong, -⟩ | ⟨a, hText, hRest⟩
  · have hIn : newline ∈ front := by
      rw [hLong]
      exact List.mem_append_left _ hMem
    exact absurd rfl (hFront newline hIn)
  · cases a with
    | nil =>
        rw [List.append_nil] at hText
        rw [hText] at hMem
        exact absurd rfl (hFront newline hMem)
    | cons b t =>
        rw [List.cons_append] at hRest
        cases hRest
        exact ⟨t, hText, rfl⟩

/- A text without a line end is a part of the line. -/
theorem text_of_no_newline
    (hSplit : text ++ rest = front ++ newline :: more)
    (hNone : newline ∉ text) :
    ∃ a, front = text ++ a ∧ rest = a ++ newline :: more := by
  rcases List.append_eq_append_iff.mp hSplit with
    hShort | ⟨a, hText, hRest⟩
  · exact hShort
  · cases a with
    | nil =>
        rw [List.append_nil] at hText
        exact ⟨[], by rw [hText, List.append_nil],
          hRest.symm⟩
    | cons b t =>
        rw [List.cons_append] at hRest
        cases hRest
        refine absurd ?_ hNone
        rw [hText]
        exact List.mem_append_right _ List.mem_cons_self

/- The records after a line. -/
def afterLine
    (fsid : List UInt8)
    (pc : List FileRecord × Option FileRecord)
    (rec : Record) : List FileRecord × Option FileRecord :=
  ((slot pc.1 pc.2).1,
    some (readLine fsid rec (slot pc.1 pc.2).2))

theorem lineFront_no_newline
    (F : FsidText uuidParse)
    (rec : Record) :
    ∀ b ∈ lineFront F.text rec, b ≠ newline := by
  intro b hMem
  unfold lineFront at hMem
  rw [List.mem_append, List.mem_append, List.mem_cons] at hMem
  rcases hMem with (hFsid | rfl | hDevid) | hPairs
  · exact (F.plain b hFsid).2.1
  · decide
  · exact lld_no_newline _ b hDevid
  · exact pairs_no_newline _ b hPairs

theorem length_lineFront_lt
    (F : FsidText uuidParse)
    (rec : Record) :
    (lineFront F.text rec).length < 16 * 1024 := by
  have hDevid := length_lld_le rec.devid
  have hPairs := length_pairs_le (pairsOf rec)
  have hCount : (pairsOf rec).length = 19 := rfl
  unfold lineFront
  rw [List.length_append, List.length_append,
    F.length_text, List.length_cons]
  omega

/-
  A line is read, however it is divided. The induction is on
  what is left of the file.
-/
theorem comes_next_line
    (F : FsidText uuidParse)
    {rec : Record}
    (hBound : InU64 rec)
    {text rest : List UInt8}
    {reads : Nat}
    {pc : List FileRecord × Option FileRecord}
    (hSplit : text ++ rest =
      lineFront F.text rec ++ newline :: more) :
    ∃ text' rest' reads', text' ++ rest' = more ∧
      Loop.Comes (turn uuidParse sizes)
        (readerAt .startOfLine text rest reads pc)
        (readerAt .startOfLine text' rest' reads'
          (afterLine F.fsid pc rec)) := by
  induction hLen : rest.length using Nat.strongRecOn
    generalizing text rest reads with
  | _ n ih =>
    by_cases hMem : newline ∈ text
    · rcases text_of_newline hSplit
        (lineFront_no_newline F rec) hMem with
          ⟨t, hText, hMore⟩
      refine ⟨t, rest, reads, hMore, ?_⟩
      exact comes_line F hBound rfl hText
    · rcases text_of_no_newline hSplit hMem with
        ⟨a, hFront, hRest⟩
      have hSome : rest ≠ [] := by
        rw [hRest]
        exact List.append_ne_nil_of_right_ne_nil _
          (List.cons_ne_nil _ _)
      have hRoom : text.length < 16 * 1024 := by
        have hLine := length_lineFront_lt F rec
        rw [hFront, List.length_append] at hLine
        omega
      rcases again_reads hSome hRoom with
        ⟨k, hPos, hLe, hAgain⟩
      have hTurn : turn uuidParse sizes
          (readerAt .startOfLine text rest reads pc) =
            (readerAt .startOfLine text rest reads pc).again sizes := by
        unfold turn
        split
        case isTrue => rfl
        case isFalse => exact if_pos ⟨rfl, hMem⟩
      rw [hAgain] at hTurn
      have hJoin : text ++ rest.take k ++ rest.drop k =
          lineFront F.text rec ++ newline :: more := by
        rw [List.append_assoc, List.take_append_drop, hSplit]
      have hLess : (rest.drop k).length < n := by
        rw [List.length_drop, hLen]
        omega
      rcases ih _ hLess hJoin rfl with
        ⟨text', rest', reads', hMore, hComes⟩
      exact ⟨text', rest', reads', hMore,
        .head hTurn hComes⟩

/- All lines are read, and then the file is at its end. -/
theorem comes_all_lines
    (F : FsidText uuidParse)
    {recs : List Record}
    (hBound : ∀ rec ∈ recs, InU64 rec)
    {text rest : List UInt8}
    {reads : Nat}
    {pc : List FileRecord × Option FileRecord}
    (hSplit : text ++ rest = recs.flatMap fun rec =>
      lineFront F.text rec ++ [newline]) :
    ∃ reads', Loop.Comes (turn uuidParse sizes)
      (readerAt .startOfLine text rest reads pc)
      (readerAt .startOfLine [] [] reads'
        (recs.foldl (afterLine F.fsid) pc)) := by
  induction recs generalizing text rest reads pc with
  | nil =>
      rcases List.append_eq_nil_iff.mp hSplit with ⟨rfl, rfl⟩
      exact ⟨reads, .refl _⟩
  | cons rec recs ih =>
      rw [List.flatMap_cons, List.append_assoc] at hSplit
      have hFirst := hBound rec List.mem_cons_self
      rcases comes_next_line F hFirst hSplit with
        ⟨text', rest', reads', hMore, hLine⟩
      rcases ih (fun q hMem =>
        hBound q (List.mem_cons_of_mem rec hMem)) hMore with
          ⟨reads'', hLines⟩
      exact ⟨reads'', hLine.trans hLines⟩

/- A text without a line end is skipped whole. -/
theorem skip_no_newline
    {state : State}
    (hNone : newline ∉ text) :
    Reader.skip (readerAt state text rest reads pc) =
      readerAt .skipRest [] rest reads pc := by
  have hDrop : text.dropWhile (· ≠ newline) = [] := by
    rw [List.dropWhile_eq_nil_iff]
    intro b hIn
    refine decide_eq_true ?_
    rintro rfl
    exact hNone hIn
  unfold Reader.skip readerAt
  rw [hDrop]

/- The rest of a line is skipped, however it is divided. -/
theorem comes_skipRest
    (hFront : ∀ b ∈ front, b ≠ newline)
    (hSplit : text ++ rest = front ++ newline :: more) :
    ∃ text' rest' reads', text' ++ rest' = more ∧
      Loop.Comes (turn uuidParse sizes)
        (readerAt .skipRest text rest reads pc)
        (readerAt .startOfLine text' rest' reads' pc) := by
  induction hLen : 2 * rest.length + text.length
    using Nat.strongRecOn generalizing front text rest reads
  with
  | _ n ih =>
    by_cases hMem : newline ∈ text
    · rcases text_of_newline hSplit hFront hMem with
        ⟨t, hText, hMore⟩
      have hTurn : turn uuidParse sizes
          (readerAt .skipRest text rest reads pc) =
            .inl (Reader.skip
              (readerAt .skipRest text rest reads pc)) :=
        turn_skipRest rfl (List.ne_nil_of_mem hMem)
      have hSkip : Reader.skip
          (readerAt .skipRest text rest reads pc) =
            readerAt .startOfLine t rest reads pc :=
        skip_line hText hFront
      rw [hSkip] at hTurn
      exact ⟨t, rest, reads, hMore, .head hTurn (.refl _)⟩
    · rcases text_of_no_newline hSplit hMem with
        ⟨a, hParts, hRest⟩
      have hSome : rest ≠ [] := by
        rw [hRest]
        exact List.append_ne_nil_of_right_ne_nil _
          (List.cons_ne_nil _ _)
      by_cases hNil : text = []
      · subst hNil
        rcases again_reads hSome
          (show ([] : List UInt8).length < 16 * 1024 by decide)
          with ⟨k, hPos, hLe, hAgain⟩
        have hJoin : rest.take k ++ rest.drop k =
            front ++ newline :: more := by
          rw [List.take_append_drop]
          exact hSplit
        have hLess : 2 * (rest.drop k).length +
            (rest.take k).length < n := by
          rw [List.length_drop, List.length_take, ← hLen,
            List.length_nil]
          omega
        rcases ih _ hLess hFront hJoin rfl with
          ⟨text', rest', reads', hMore, hComes⟩
        exact ⟨text', rest', reads', hMore,
          .head hAgain hComes⟩
      · -- the text is at its end before the line is
        have hTurn : turn uuidParse sizes
            (readerAt .skipRest text rest reads pc) =
            .inl (readerAt .skipRest [] rest reads pc) := by
          rw [← skip_no_newline hMem]
          exact turn_skipRest rfl hNil
        have hPos := List.length_pos_iff.mpr hNil
        have hRestFront : ∀ b ∈ a, b ≠ newline := by
          intro b hIn
          apply hFront b
          rw [hParts]
          exact List.mem_append_right _ hIn
        rcases ih (2 * rest.length + 0) (by omega) hRestFront
          ((List.nil_append rest).trans hRest) rfl with
            ⟨text', rest', reads', hMore, hComes⟩
        exact ⟨text', rest', reads', hMore,
          .head hTurn hComes⟩

/- The version line without its end. -/
def versionFront : List UInt8 :=
  SCRUB_FILE_VERSION_PREFIX ++ colon :: SCRUB_FILE_VERSION

theorem scrubKvread_version :
    scrubKvread SCRUB_FILE_VERSION_PREFIX
        (versionFront ++ newline :: more) =
      .read 1 (newline :: more) := by
  have hText : versionFront ++ newline :: more =
      SCRUB_FILE_VERSION_PREFIX ++
        colon :: (lld 1 ++ newline :: more) := by
    have hOne : lld 1 = SCRUB_FILE_VERSION := by decide
    rw [hOne, versionFront, List.append_assoc]
    rfl
  rw [hText]
  exact scrubKvread_key (by decide) (by decide)

/-
  The version line is read or skipped; where the first read
  divides it, the version is not looked at.
-/
theorem comes_first_line :
    ∃ text rest reads, text ++ rest = more ∧
      Loop.Comes (turn uuidParse sizes)
        (readerAt .startOfFile [] (versionLine ++ more) 0
          ([], none))
        (readerAt .startOfLine text rest reads
          ([], none)) := by
  have hFile : versionLine ++ more =
      versionFront ++ newline :: more := by
    rw [versionLine, List.append_assoc]
    rfl
  have hSome : versionLine ++ more ≠ [] := by
    rw [hFile]
    exact List.append_ne_nil_of_right_ne_nil _
      (List.cons_ne_nil _ _)
  have hPlain : newline ∉ versionFront := by decide
  have hFront : ∀ b ∈ versionFront, b ≠ newline := by
    rintro b hMem rfl
    exact hPlain hMem
  rcases again_reads hSome
    (show ([] : List UInt8).length < 16 * 1024 by decide)
    with ⟨k, hPos, hLe, hAgain⟩
  rw [List.nil_append] at hAgain
  have hSplit : (versionLine ++ more).take k ++
      (versionLine ++ more).drop k =
        versionFront ++ newline :: more := by
    rw [List.take_append_drop]
    exact hFile
  have hLen : 0 < ((versionLine ++ more).take k).length := by
    rw [List.length_take]
    omega
  generalize (versionLine ++ more).take k = text
    at hAgain hSplit hLen
  generalize (versionLine ++ more).drop k = rest
    at hAgain hSplit
  have hTurn : turn uuidParse sizes
      (readerAt .startOfFile text rest 1 ([], none)) =
        Reader.startOfFile
          (readerAt .startOfFile text rest 1 ([], none)) := by
    unfold turn
    exact if_neg (List.length_pos_iff.mp hLen)
  by_cases hMem : newline ∈ text
  · rcases text_of_newline hSplit hFront hMem with
      ⟨t, hText, hMore⟩
    have hRead : Reader.startOfFile
        (readerAt .startOfFile text rest 1 ([], none)) =
          .inl (readerAt .afterNumber (newline :: t) rest 1
            ([], none)) := by
      unfold Reader.startOfFile readerAt
      rw [hText, scrubKvread_version]
      exact if_neg (by decide)
    rw [hRead] at hTurn
    have hNext : turn uuidParse sizes
        (readerAt .afterNumber (newline :: t) rest 1
          ([], none)) =
          .inl (readerAt .startOfLine t rest 1
            ([], none)) := rfl
    exact ⟨t, rest, 1, hMore,
      .head hAgain (.head hTurn (.head hNext (.refl _)))⟩
  · rcases text_of_no_newline hSplit hMem with
      ⟨a, hParts, hRest⟩
    have hShort : text.length ≤ 14 := by
      have hBoth := congrArg List.length hParts
      have hFourteen : versionFront.length = 14 := rfl
      rw [List.length_append, hFourteen] at hBoth
      omega
    have hRead : Reader.startOfFile
        (readerAt .startOfFile text rest 1 ([], none)) =
          .inl (readerAt .skipRest [] rest 1 ([], none)) := by
      have hNone : scrubKvread SCRUB_FILE_VERSION_PREFIX
          text = .noMatch :=
        if_neg fun hBoth => by
          have hTwelve :
              SCRUB_FILE_VERSION_PREFIX.length = 12 := rfl
          omega
      have hText : (readerAt .startOfFile text rest 1
          ([], none)).text = text := rfl
      unfold Reader.startOfFile
      rw [hText, hNone]
      exact congrArg Sum.inl (skip_no_newline hMem)
    rw [hRead] at hTurn
    have hRestFront : ∀ b ∈ a, b ≠ newline := by
      intro b hIn
      apply hFront b
      rw [hParts]
      exact List.mem_append_right _ hIn
    rcases comes_skipRest hRestFront
      ((List.nil_append rest).trans hRest) with
        ⟨text', rest', reads', hMore, hComes⟩
    exact ⟨text', rest', reads', hMore,
      .head hAgain (.head hTurn hComes)⟩

end Reads

----------
-- The Records
----------

section Records

variable {fsid : List UInt8} {rec : Record} {c : FileRecord}

theorem fsid_readLine :
    (readLine fsid rec c).fsid = fsid := by
  unfold readLine FileRecord.fill
  split <;> rfl

/- With an fsid that is not zero, a line gets its record. -/
theorem records_afterLine
    (hSome : fsid ≠ FileRecord.zero.fsid)
    {pc : List FileRecord × Option FileRecord}
    (hCurr : ∀ c ∈ pc.2, c.fsid = fsid) :
    (afterLine fsid pc rec).1 ++
        (afterLine fsid pc rec).2.toList =
      pc.1 ++ pc.2.toList ++
        [readLine fsid rec FileRecord.zero] := by
  rcases pc with ⟨past, curr⟩
  cases curr with
  | none => simp [afterLine, slot]
  | some c =>
      have hFsid : c.fsid ≠ FileRecord.zero.fsid := by
        rw [hCurr c rfl]
        exact hSome
      simp [afterLine, slot, hFsid]

theorem records_foldl
    (hSome : fsid ≠ FileRecord.zero.fsid)
    (recs : List Record)
    {pc : List FileRecord × Option FileRecord}
    (hCurr : ∀ c ∈ pc.2, c.fsid = fsid) :
    (recs.foldl (afterLine fsid) pc).1 ++
        (recs.foldl (afterLine fsid) pc).2.toList =
      pc.1 ++ pc.2.toList ++
        recs.map fun rec =>
          readLine fsid rec FileRecord.zero := by
  induction recs generalizing pc with
  | nil => simp
  | cons rec recs ih =>
      have hNext : ∀ c ∈ (afterLine fsid pc rec).2,
          c.fsid = fsid := by
        intro c hMem
        cases hMem
        exact fsid_readLine
      rw [List.foldl_cons, ih hNext,
        records_afterLine hSome hCurr, List.map_cons,
        List.append_assoc]
      rfl

/- The record at `curr` is that of the last line. -/
theorem curr_foldl
    {recs : List Record}
    (hRecs : recs ≠ [])
    (pc : List FileRecord × Option FileRecord) :
    ∃ c, (recs.foldl (afterLine fsid) pc).2 = some c ∧
      c.fsid = fsid := by
  induction recs generalizing pc with
  | nil => exact absurd rfl hRecs
  | cons rec recs ih =>
      rw [List.foldl_cons]
      cases recs with
      | nil => exact ⟨_, rfl, fsid_readLine⟩
      | cons q recs => exact ih (by simp) _

/- With the fsid zero, all lines are read into one record. -/
theorem past_foldl
    (hZero : fsid = FileRecord.zero.fsid)
    (recs : List Record)
    {pc : List FileRecord × Option FileRecord}
    (hCurr : ∀ c ∈ pc.2, c.fsid = FileRecord.zero.fsid)
    (hPast : pc.1 = []) :
    (recs.foldl (afterLine fsid) pc).1 = [] := by
  induction recs generalizing pc with
  | nil => exact hPast
  | cons rec recs ih =>
      rw [List.foldl_cons]
      apply ih
      · intro c hMem
        cases hMem
        exact fsid_readLine.trans hZero
      · rcases pc with ⟨past, curr⟩
        cases curr with
        | none => exact hPast
        | some c =>
            have hFsid := hCurr c rfl
            unfold afterLine slot
            dsimp only
            rw [if_pos hFsid]
            exact hPast

variable {uuidParse : List UInt8 → Option (List UInt8)}

/- The records that are returned at the end. -/
theorem finish_foldl
    {recs : List Record}
    (hRecs : recs ≠ [])
    {reads : Nat} :
    Reader.finish (readerAt .startOfLine [] [] reads
        (recs.foldl (afterLine fsid) ([], none))) =
      .ok (if fsid = FileRecord.zero.fsid then []
        else recs.map fun rec =>
          readLine fsid rec FileRecord.zero) := by
  rcases curr_foldl hRecs ([], none) with ⟨c, hCurr, hFsid⟩
  unfold Reader.finish readerAt
  dsimp only
  rw [hCurr]
  dsimp only
  rw [hFsid]
  split
  case isTrue hZero =>
      rw [past_foldl hZero recs (by simp) rfl]
  case isFalse hSome =>
      have hNone : ∀ c ∈ (none : Option FileRecord),
          c.fsid = fsid := by
        simp
      have hAll : (recs.foldl (afterLine fsid)
          ([], none)).1 ++ _ = _ :=
        records_foldl hSome recs hNone
      rw [hCurr] at hAll
      exact congrArg Except.ok hAll

theorem turn_end
    {sizes : Nat → Nat}
    {state : State}
    {reads : Nat}
    {pc : List FileRecord × Option FileRecord} :
    turn uuidParse sizes (readerAt state [] [] reads pc) =
      .inr (Reader.finish
        (readerAt state [] [] reads pc)) := by
  have hNone : min (max 1 (sizes reads))
      (min (16 * 1024 - 0) 0) = 0 := by
    omega
  have hEnd : Reader.again sizes
      (readerAt state [] [] reads pc) =
        .inr (Reader.finish
          (readerAt state [] [] reads pc)) :=
    if_pos ⟨hNone, rfl⟩
  exact hEnd

/- What the reader returns for a file that was written. -/
theorem scrubReadFile_text
    (F : FsidText uuidParse)
    (sizes : Nat → Nat)
    {recs : List Record}
    (hRecs : recs ≠ [])
    (hBound : ∀ rec ∈ recs, InU64 rec) :
    ∃ turns, scrubReadFile uuidParse sizes turns
        (fileText F.text recs) =
      some (.ok (if F.fsid = FileRecord.zero.fsid then []
        else recs.map fun rec =>
          readLine F.fsid rec FileRecord.zero)) := by
  obtain ⟨text, rest, reads, hSplit, hFirst⟩ :
      ∃ text rest reads, text ++ rest =
        (recs.flatMap fun rec =>
          lineFront F.text rec ++ [newline]) ∧
        Loop.Comes (turn uuidParse sizes)
          (readerAt .startOfFile [] (fileText F.text recs) 0
            ([], none))
          (readerAt .startOfLine text rest reads
            ([], none)) :=
    comes_first_line
  obtain ⟨last, hLines⟩ : ∃ last,
      Loop.Comes (turn uuidParse sizes)
        (readerAt .startOfLine text rest reads ([], none))
        (readerAt .startOfLine [] [] last
          (recs.foldl (afterLine F.fsid) ([], none))) :=
    comes_all_lines F hBound hSplit
  have hEnd : Loop.Ends (turn uuidParse sizes)
      (fun result => result =
        .ok (if F.fsid = FileRecord.zero.fsid then []
          else recs.map fun rec =>
            readLine F.fsid rec FileRecord.zero))
      (readerAt .startOfLine [] [] last
        (recs.foldl (afterLine F.fsid) ([], none))) :=
    .done turn_end (finish_foldl hRecs)
  rcases Loop.Comes.ends (hFirst.trans hLines) hEnd with
    ⟨turns, result, hRun, rfl⟩
  exact ⟨turns, hRun⟩

end Records

----------
-- The Round Trip
----------

section Values

variable {rec base : Record} {f g : Field} {v : Nat}

theorem get_set
    (f g : Field)
    (v : Nat)
    (rec : Record) :
    g.get (f.set v rec) = if g = f then v else g.get rec := by
  cases f <;> cases g <;> simp [Field.get, Field.set]

theorem devid_set :
    (f.set v rec).devid = rec.devid := by
  cases f <;> rfl

/- Records with the same values are the same. -/
theorem record_ext
    (hDevid : base.devid = rec.devid)
    (hValues : ∀ f : Field, f.get base = f.get rec) :
    base = rec := by
  rcases rec with ⟨devid, ⟨ts, tr, du, fi, ca⟩, p⟩
  rcases base with ⟨devid', ⟨ts', tr', du', fi', ca'⟩, p'⟩
  have hCounters : p' = p :=
    funext fun c => hValues (.counter c)
  have hStart : ts' = ts := hValues .tStart
  have hResumed : tr' = tr := hValues .tResumed
  have hDuration : du' = du := hValues .duration
  have hFinished : fi' = fi := hValues .finished
  have hCanceled : ca' = ca := hValues .canceled
  have hSame : devid' = devid := hDevid
  rw [hSame, hStart, hResumed, hDuration, hFinished,
    hCanceled, hCounters]

/-
  The values that are read are those of the record exactly if
  nothing but zeroes follows a value that is printed with a
  minus. The induction is on the fields that are not read yet.
-/
theorem fill_eq_iff
    (rec base : Record)
    {fs : List Field}
    (hNodup : fs.Nodup)
    (hDevid : base.devid = rec.devid)
    (hZero : ∀ f ∈ fs, f.get base = 0)
    (hRead : ∀ f ∉ fs, f.get base = f.get rec) :
    fill (fs.map fun f => (f, f.get rec)) base = rec ↔
      fs.Pairwise fun f g =>
        f.get rec < 2 ^ 63 ∨ g.get rec = 0 := by
  induction fs generalizing base with
  | nil =>
      refine ⟨fun _ => .nil, fun _ => ?_⟩
      exact record_ext hDevid fun f =>
        hRead f List.not_mem_nil
  | cons f fs ih =>
      rcases List.nodup_cons.mp hNodup with ⟨hNew, hRest⟩
      rw [List.map_cons, List.pairwise_cons]
      unfold fill
      dsimp only
      by_cases hSmall : f.get rec < 2 ^ 63
      · rw [if_pos hSmall, ih _ hRest
          (devid_set.trans hDevid)]
        · exact ⟨fun hFs => ⟨fun g _ => .inl hSmall, hFs⟩,
            fun hBoth => hBoth.2⟩
        · intro g hMem
          have hOther : g ≠ f := fun hSame =>
            hNew (hSame ▸ hMem)
          rw [get_set, if_neg hOther]
          exact hZero g (List.mem_cons_of_mem f hMem)
        · intro g hNot
          rw [get_set]
          split
          case isTrue hSame => rw [hSame]
          case isFalse hOther =>
              apply hRead
              rintro (_ | ⟨_, hMem⟩)
              · exact hOther rfl
              · exact hNot hMem
      · rw [if_neg hSmall]
        constructor
        · intro hSame
          have hZeroes (g : Field) (hMem : g ∈ fs) :
              g.get rec = 0 := by
            have hOther : g ≠ f := fun hSame =>
              hNew (hSame ▸ hMem)
            rw [← hSame, get_set, if_neg hOther]
            exact hZero g (List.mem_cons_of_mem f hMem)
          refine ⟨fun g hMem => .inr (hZeroes g hMem), ?_⟩
          exact List.Pairwise.imp_of_mem
            (fun _ hMem _ => .inr (hZeroes _ hMem))
            hRest
        · rintro ⟨hZeroes, -⟩
          refine record_ext (devid_set.trans hDevid)
            fun g => ?_
          rw [get_set]
          split
          case isTrue hSame => rw [hSame]
          case isFalse hOther =>
              by_cases hMem : g ∈ fs
              · rcases hZeroes g hMem with hIs | hIs
                · exact absurd hIs hSmall
                · rw [hIs]
                  exact hZero g
                    (List.mem_cons_of_mem f hMem)
              · apply hRead
                rintro (_ | ⟨_, hIn⟩)
                · exact hOther rfl
                · exact hMem hIn

end Values

/-
  A device whose progress is written: with its counter that
  has no key, and its values in 64 bits.
-/
structure Device where
  progress : ScrubProgress
  unverifiedErrors : Nat
  bounded : InU64 (recordOf progress)

/- The record that a device should be read back as. -/
def Device.record
    (fsid : List UInt8)
    (d : Device) : FileRecord :=
  ⟨fsid, recordOf d.progress, d.unverifiedErrors⟩

/-
  A device that is read back: its id has no sign, the counter
  without a key is zero, and nothing but zeroes is written
  behind a value that is printed with a minus.
-/
def Device.Plain
    (d : Device) : Prop :=
  (recordOf d.progress).devid < 2 ^ 63 ∧
    d.unverifiedErrors = 0 ∧
    writeOrder.Pairwise fun f g =>
      f.get (recordOf d.progress) < 2 ^ 63 ∨
        g.get (recordOf d.progress) = 0

theorem readLine_eq_iff
    (fsid : List UInt8)
    (d : Device) :
    readLine fsid (recordOf d.progress) FileRecord.zero =
        d.record fsid ↔ d.Plain := by
  have hNodup : writeOrder.Nodup := by decide
  have hZero : ∀ f ∈ writeOrder,
      f.get { FileRecord.zero.record with
        devid := (recordOf d.progress).devid } = 0 := by
    intro f _
    cases f <;> rfl
  have hRead : ∀ f ∉ writeOrder,
      f.get { FileRecord.zero.record with
        devid := (recordOf d.progress).devid } =
          f.get (recordOf d.progress) :=
    fun f hNot => absurd (mem_writeOrder f) hNot
  have hFill := fill_eq_iff (recordOf d.progress)
    { FileRecord.zero.record with
      devid := (recordOf d.progress).devid }
    hNodup rfl hZero hRead
  unfold Device.Plain Device.record
  rw [← hFill]
  by_cases hSmall : (recordOf d.progress).devid < 2 ^ 63
  · unfold readLine
    rw [if_pos hSmall]
    constructor
    · intro hSame
      exact ⟨hSmall, (congrArg FileRecord.unverifiedErrors
        hSame).symm, congrArg FileRecord.record hSame⟩
    · rintro ⟨-, hNone, hRecord⟩
      rw [hNone]
      exact congrArg (FileRecord.mk fsid · 0) hRecord
  · unfold readLine
    rw [if_neg hSmall]
    constructor
    · intro hSame
      have hDevid : 0 = (recordOf d.progress).devid :=
        congrArg (fun c : FileRecord => c.record.devid) hSame
      omega
    · exact fun hPlain => absurd hPlain.1 hSmall

variable {uuidParse : List UInt8 → Option (List UInt8)}

/-
  Whatever `write` took, a file for which 0 was returned is
  read back as the records of its devices, however `read`
  divides it.
-/
def ReadsBack
    (F : FsidText uuidParse)
    (data : List Device) : Prop :=
  ∀ takes fd,
    scrubWriteFile takes F.text
        (data.map Device.progress) = (fd, 0) →
      ∀ sizes, ∃ turns,
        scrubReadFile uuidParse sizes turns fd.bytes =
          some (.ok (data.map (Device.record F.fsid)))

/- What is read back of the devices. -/
theorem scrubReadFile_devices
    (F : FsidText uuidParse)
    {data : List Device}
    (hSome : data ≠ [])
    (sizes : Nat → Nat) :
    ∃ turns, scrubReadFile uuidParse sizes turns
        (fileText F.text
          ((data.map Device.progress).map recordOf)) =
      some (.ok (if F.fsid = FileRecord.zero.fsid then []
        else data.map fun d =>
          readLine F.fsid (recordOf d.progress)
            FileRecord.zero)) := by
  have hRecs : (data.map Device.progress).map recordOf ≠
      [] := by
    simpa using hSome
  have hBound : ∀ rec ∈
      (data.map Device.progress).map recordOf,
        InU64 rec := by
    intro rec hMem
    rw [List.map_map, List.mem_map] at hMem
    rcases hMem with ⟨d, -, rfl⟩
    exact d.bounded
  have hRead := scrubReadFile_text F sizes hRecs hBound
  rw [List.map_map, List.map_map] at hRead
  rw [List.map_map]
  exact hRead

/- Devices that are read back are plain. -/
theorem plain_of_readsBack
    {F : FsidText uuidParse}
    {data : List Device}
    (hBack : ReadsBack F data)
    (hSome : data ≠ []) :
    F.fsid ≠ FileRecord.zero.fsid ∧
      ∀ d ∈ data, d.Plain := by
  have hProgress : data.map Device.progress ≠ [] := by
    simpa using hSome
  have hFsid : F.text.length ≤ 1024 := by
    rw [F.length_text]
    decide
  rcases scrubWriteFile_takesAll hFsid hProgress with
    ⟨fd, hWrite⟩
  have hText := (scrubWriteFile_text hWrite).2
  rcases hBack takesAll fd hWrite (fun _ => 0) with
    ⟨turns, hRun⟩
  rcases scrubReadFile_devices F hSome (fun _ => 0) with
    ⟨turns', hRun'⟩
  rw [hText] at hRun
  have hSame := Except.ok.inj (Loop.run_unique hRun hRun')
  by_cases hZero : F.fsid = FileRecord.zero.fsid
  · rw [if_pos hZero] at hSame
    exact absurd (List.map_eq_nil_iff.mp hSame) hSome
  · rw [if_neg hZero] at hSame
    refine ⟨hZero, fun d hMem => ?_⟩
    have hEach := List.map_inj_left.mp hSame d hMem
    exact (readLine_eq_iff F.fsid d).mp hEach.symm

/- Plain devices are read back. -/
theorem readsBack_of_plain
    {F : FsidText uuidParse}
    {data : List Device}
    (hFsid : F.fsid ≠ FileRecord.zero.fsid)
    (hPlain : ∀ d ∈ data, d.Plain) :
    ReadsBack F data := by
  intro takes fd hWrite sizes
  rcases scrubWriteFile_text hWrite with ⟨hSome, hText⟩
  have hData : data ≠ [] := by
    simpa using hSome
  rcases scrubReadFile_devices F hData sizes with
    ⟨turns, hRun⟩
  rw [if_neg hFsid] at hRun
  rw [hText]
  refine ⟨turns, hRun.trans ?_⟩
  congr 2
  exact List.map_congr_left fun d hMem =>
    (readLine_eq_iff F.fsid d).mpr (hPlain d hMem)

/-
  The devices are read back exactly if there are none, or the
  fsid is not zero and each of them is plain.
-/
theorem readsBack_iff
    (F : FsidText uuidParse)
    (data : List Device) :
    ReadsBack F data ↔
      data = [] ∨ (F.fsid ≠ FileRecord.zero.fsid ∧
        ∀ d ∈ data, d.Plain) := by
  by_cases hNil : data = []
  · refine ⟨fun _ => .inl hNil, fun _ takes fd hWrite => ?_⟩
    have hSome := (scrubWriteFile_text hWrite).1
    rw [hNil] at hSome
    exact absurd rfl hSome
  · constructor
    · exact fun hBack => .inr (plain_of_readsBack hBack hNil)
    · rintro (hNone | ⟨hFsid, hPlain⟩)
      · exact absurd hNone hNil
      · exact readsBack_of_plain hFsid hPlain

set_option maxRecDepth 2000 in
def someFsid : FsidText someUuid where
  text := someText
  fsid := someBytes
  parse_text := if_pos rfl
  length_text := by decide
  plain := by decide

/-
  A device with 2 ^ 63 errors of reading, and one checksum
  that was wrong.
-/
def someDevice : Device where
  progress :=
    { devid := 1
      start := 0
      skip := false
      resumed := none
      progress := fun c =>
        match c with
        | .readErrors => 2 ^ 63
        | .csumErrors => 1
        | _ => 0
      stats := Stats.zero }
  unverifiedErrors := 0
  bounded := by
    refine ⟨by decide, fun f => ?_⟩
    cases f with
    | counter c => cases c <;> decide
    | tStart => decide
    | tResumed => decide
    | duration => decide
    | finished => decide
    | canceled => decide

/- Its checksum error is not read back. -/
theorem someDevice_not_readsBack :
    ¬ReadsBack someFsid [someDevice] := by
  intro hBack
  have hPlain := (plain_of_readsBack hBack
    (List.cons_ne_nil _ _)).2 someDevice List.mem_cons_self
  have hNot : ¬writeOrder.Pairwise fun f g =>
      f.get (recordOf someDevice.progress) < 2 ^ 63 ∨
        g.get (recordOf someDevice.progress) = 0 := by
    decide
  exact hNot hPlain.2.2

end StatusFile

end Scrub

end BtrfsProgs
