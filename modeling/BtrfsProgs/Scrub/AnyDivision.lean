import BtrfsProgs.Scrub.ChunkRuns

/-
  The version line, and the files that `scrub_read_file` reads
  in any way.

  Main declarations:
    * `VersionGood`
    * `reads_startOfFile`
    * `Sound.version`
    * `scrubReadFile_sound_iff`
-/

----------
-- The First Line
----------

namespace BtrfsProgs

namespace Scrub

namespace StatusFile

open Lines

section Version

/-
  The first line is no version line, or one that is the same
  for any part of it that is read.
-/
def VersionGood
    (file : List UInt8) : Prop :=
  SCRUB_FILE_VERSION_PREFIX ++ [colon] <+: file →
    14 < file.length →
      file[13]? = some 49 ∧
        ∀ b, file[14]? = some b →
          Decimal.isDigit b = false ∧
            (b = bar → file.length = 15)

variable {uuidParse : List UInt8 → Option (List UInt8)}
variable {sizes : Nat → Nat}
variable {w : Records}
variable {r : Reader}

/- What is not the end of a line may be left out. -/
theorem skip_drop
    (front : List UInt8)
    {more : List UInt8}
    (hText : r.text = front ++ more)
    (hFront : newline ∉ front)
    (state : State) :
    Reader.skip { r with state := state, text := more } =
      r.skip := by
  unfold Reader.skip
  rw [hText, List.dropWhile_append_of_pos]
  intro b hIn
  simp only [ne_eq, decide_not, Bool.not_eq_true',
    decide_eq_false_iff_not]
  rintro rfl
  exact hFront hIn

/- The value `1` of a version line. -/
theorem version_one
    {b : UInt8}
    (more : List UInt8)
    (hDigit : Decimal.isDigit b = false) :
    ValueGood id (49 :: b :: more) ∧
      scrubKvread SCRUB_FILE_VERSION_PREFIX
          (SCRUB_FILE_VERSION_PREFIX ++
            colon :: 49 :: b :: more) =
        .read 1 (b :: more) := by
  have hStops : Stops Decimal.isDigit (49 :: b :: more) :=
    ⟨b, by simp, hDigit⟩
  have hDigits : (49 :: b :: more).takeWhile
      Decimal.isDigit = [49] := by
    rw [List.takeWhile_cons_of_pos (by decide),
      List.takeWhile_cons_of_neg (by rw [hDigit]; decide)]
  refine ⟨⟨hStops, ⟨49, by simp, by decide⟩, ?_⟩, ?_⟩
  · dsimp only [id]
    rw [List.dropWhile_cons_of_neg (by decide),
      List.head?_cons, if_neg (by decide)]
    exact hStops
  · have hValue : atoll (49 :: b :: more) = 1 := by
      rw [atoll_digits (by rw [hDigits]; simp), hDigits]
      decide
    rw [scrubKvread_stops _ (by simp) hStops, hValue,
      List.dropWhile_cons_of_pos (by decide),
      List.dropWhile_cons_of_neg (by rw [hDigit]; decide)]

/- `atoll` without a digit. -/
theorem atoll_none
    {text number : List UInt8}
    (hNumber : text.dropWhile isSpace = number)
    (hNone : (if number.head? = some minus ∨
      number.head? = some 43 then number.tail
        else number).takeWhile Decimal.isDigit = []) :
    atoll text = 0 := by
  unfold atoll
  dsimp only
  rw [hNumber]
  by_cases hMinus : number.head? = some minus
  · rw [if_pos (.inl hMinus)] at hNone
    rw [if_pos hMinus, hNone]
    rfl
  · rw [if_neg hMinus]
    by_cases hPlus : number.head? = some 43
    · rw [if_pos (.inr hPlus)] at hNone
      rw [if_pos hPlus, hNone]
      rfl
    · rw [if_neg (not_or.mpr ⟨hMinus, hPlus⟩)] at hNone
      rw [if_neg hPlus, hNone]
      rfl

/- Two bytes with the value one. -/
theorem one_of_two
    {a b : UInt8}
    (hGood : ValueGood id [a, b])
    (hOne : atoll [a, b] = 1) :
    a = 49 ∧ Decimal.isDigit b = false := by
  rcases hGood with ⟨hDigits, hSpaces, hNumber⟩
  dsimp only [id] at hDigits hSpaces hNumber
  have hLast : Stops Decimal.isDigit [b] →
      [b].takeWhile Decimal.isDigit = [] := by
    rintro ⟨c, hIn, hNot⟩
    rw [← List.mem_singleton.mp hIn]
    exact List.takeWhile_cons_of_neg (by rw [hNot]; decide)
  by_cases hDigit : Decimal.isDigit a = true
  · have hNot : Decimal.isDigit b = false := by
      rcases hDigits with ⟨c, hIn, hNot⟩
      rcases List.mem_cons.mp hIn with rfl | hIs
      · rw [hDigit] at hNot
        cases hNot
      · rwa [List.mem_singleton.mp hIs] at hNot
    refine ⟨?_, hNot⟩
    have hTake : [a, b].takeWhile Decimal.isDigit = [a] := by
      rw [List.takeWhile_cons_of_pos hDigit,
        List.takeWhile_cons_of_neg (by rw [hNot]; decide)]
    rw [atoll_digits (by rw [hTake]; simp), hTake] at hOne
    change min (2 ^ 63 - 1) (10 * 0 + (a.toNat - 48)) = 1 at hOne
    exact UInt8.toNat_inj.mp (by change _ = 49; omega)
  · -- no digit is read
    exfalso
    have hZero : atoll [a, b] = 0 := by
      refine atoll_none rfl ?_
      by_cases hSpace : isSpace a = true
      · have hNot : ¬ isSpace b = true := by
          rintro hBoth
          rcases hSpaces with ⟨c, hIn, hNot⟩
          rcases List.mem_cons.mp hIn with rfl | hIs
          · rw [hSpace] at hNot
            cases hNot
          · rw [List.mem_singleton.mp hIs, hBoth] at hNot
            cases hNot
        rw [List.dropWhile_cons_of_pos hSpace,
          List.dropWhile_cons_of_neg hNot] at hNumber ⊢
        split
        · rfl
        · rw [if_neg ‹_›] at hNumber
          exact hLast hNumber
      · rw [List.dropWhile_cons_of_neg hSpace] at hNumber ⊢
        split
        · rw [if_pos ‹_›] at hNumber
          exact hLast hNumber
        · exact List.takeWhile_cons_of_neg hDigit
    rw [hZero] at hOne
    cases hOne

/- A version line, with what is behind its value. -/
theorem version_line
    {text : List UInt8}
    (hPrefix : SCRUB_FILE_VERSION_PREFIX ++ [colon] <+: text)
    (hLong : 14 < text.length) :
    ∃ b c more,
      text = SCRUB_FILE_VERSION_PREFIX ++
          colon :: b :: c :: more ∧
        text[13]? = some b ∧ text[14]? = some c := by
  rcases hPrefix with ⟨rest, rfl⟩
  rcases rest with _ | ⟨b, _ | ⟨c, more⟩⟩
  · exact absurd hLong
      (by simp [SCRUB_FILE_VERSION_PREFIX, ascii])
  · exact absurd hLong
      (by simp [SCRUB_FILE_VERSION_PREFIX, ascii])
  · exact ⟨b, c, more, by simp, rfl, rfl⟩

/- At the end of the file, the state makes no difference. -/
theorem Reads.state
    (hReads : Reads uuidParse sizes w r)
    (hText : r.text = [])
    (hRest : r.rest = [])
    (state : State) :
    Reads uuidParse sizes w { r with state := state } := by
  have hEnd : ∀ b : Reader, b.text = [] → b.rest = [] →
      StatusFile.turn uuidParse sizes b = .inr b.finish := by
    intro b hNil hDone
    unfold StatusFile.turn
    rw [if_pos hNil, again_end hDone, if_pos hNil]
  rw [hReads.result (hEnd r hText hRest)]
  exact .done (hEnd _ hText hRest)
    fun hSome => absurd hText hSome

/- With the start of the file in the buffer. -/
theorem reads_startOfFile
    (hState : r.state = .startOfFile)
    (hSome : r.text ≠ [])
    (hVersion : VersionGood (r.text ++ r.rest))
    (hSkip : Reads uuidParse sizes w r.skip) :
    Reads uuidParse sizes w r := by
  have hTurn : StatusFile.turn uuidParse sizes r =
      r.startOfFile := by
    unfold StatusFile.turn
    rw [if_neg hSome, hState]
  have hPlain : newline ∉ SCRUB_FILE_VERSION_PREFIX := by
    decide
  by_cases hIs :
      SCRUB_FILE_VERSION_PREFIX ++ [colon] <+: r.text ∧
        14 < r.text.length
  · have hBytes := hVersion
      (hIs.1.trans (List.prefix_append _ _))
      (by rw [List.length_append]; omega)
    rw [List.getElem?_append_left (by omega),
      List.getElem?_append_left hIs.2] at hBytes
    rcases version_line hIs.1 hIs.2 with
      ⟨c, b, more, hText, hOne, hTwo⟩
    rw [Option.some.inj (hOne.symm.trans hBytes.1)] at hText
    rcases hBytes.2 b hTwo with ⟨hDigit, hBar⟩
    rcases version_one more hDigit with
      ⟨hValue, hRead⟩
    have hDrop : Reader.skip { r with
        state := .afterNumber
        text := b :: more } = r.skip :=
      skip_drop (SCRUB_FILE_VERSION_PREFIX ++ [colon, 49])
        (by rw [hText]; rfl) (by decide) _
    have hAfter : StatusFile.turn uuidParse sizes { r with
        state := .afterNumber
        text := b :: more } = .inl (Reader.afterNumber { r with
          state := .afterNumber
          text := b :: more }) :=
      if_neg (List.cons_ne_nil _ _)
    refine .turn (b := { r with
      state := .afterNumber
      text := b :: more }) ?_ ?_ (.turn hAfter ?_ ?_)
    · rw [hTurn]
      unfold Reader.startOfFile
      rw [hText, hRead]
      exact if_neg (not_not.mpr (by decide))
    · intro _
      rw [hState, hText]
      exact fun _ _ => hValue
    · intro _
      trivial
    · rw [← hDrop] at hSkip
      unfold Reader.afterNumber
      dsimp only
      by_cases hIsBar : b = bar
      · -- the file ends behind the bar
        have hLength := hBar hIsBar
        rw [List.length_append] at hLength
        have hNil : more = [] ∧ r.rest = [] := by
          have hHere := hIs.2
          have hMore := congrArg List.length hText
          rw [List.length_append] at hMore
          change _ = 12 + (more.length + 3) at hMore
          exact ⟨List.eq_nil_of_length_eq_zero (by omega),
            List.eq_nil_of_length_eq_zero (by omega)⟩
        rw [if_pos hIsBar, hNil.1]
        rw [hIsBar, hNil.1] at hSkip
        exact Reads.state (r := { r with
          state := .skipRest
          text := [] }) hSkip rfl hNil.2 .readKeyValue
      · rw [if_neg hIsBar]
        by_cases hEnd : b = newline
        · rw [if_pos hEnd]
          unfold Reader.skip at hSkip
          dsimp only at hSkip
          rw [List.dropWhile_cons_of_neg (by simp [hEnd])]
            at hSkip
          exact hSkip
        · rw [if_neg hEnd]
          exact hSkip
  · refine .turn (b := r.skip) ?_ ?_ hSkip
    · rw [hTurn]
      unfold Reader.startOfFile scrubKvread
      by_cases hKey :
          SCRUB_FILE_VERSION_PREFIX.length + 2 <
            r.text.length ∧ SCRUB_FILE_VERSION_PREFIX <+: r.text
      · rcases hKey with ⟨hLong, text, hText⟩
        have hColon : text.head? ≠ some colon := by
          intro hHead
          refine hIs ⟨?_, hLong⟩
          rw [← hText, (List.eq_cons_of_mem_head? hHead)]
          exact ⟨text.tail, by simp⟩
        rw [if_pos ⟨hLong, ⟨text, hText⟩⟩]
        dsimp only
        rw [← hText, List.drop_left, if_pos hColon]
        exact congrArg Sum.inl
          (skip_drop _ hText.symm hPlain r.state)
      · rw [if_neg hKey]
    · intro _
      rw [hState]
      exact fun hPrefix hLong => absurd ⟨hPrefix, hLong⟩ hIs

/- No step leads back to the start of the file. -/
def Begun : Reader ⊕ Records → Prop
  | .inl b => b.state ≠ .startOfFile
  | .inr v => v ≠ .error .enotsup

theorem skip_begun
    (r : Reader) : r.skip.state ≠ .startOfFile := by
  unfold Reader.skip
  split <;> simp

theorem afterNumber_begun
    (r : Reader) : r.afterNumber.state ≠ .startOfFile := by
  unfold Reader.afterNumber
  split
  · exact skip_begun r
  · split_ifs
    · simp
    · simp
    · exact skip_begun r

theorem readKeyValue_begun
    (r : Reader) : r.readKeyValue.state ≠ .startOfFile := by
  unfold Reader.readKeyValue
  split
  · exact afterNumber_begun _
  · exact skip_begun _
  · exact skip_begun r

theorem readDevId_begun
    (r : Reader) : r.readDevId.state ≠ .startOfFile := by
  unfold Reader.readDevId
  dsimp only
  split_ifs
  · exact skip_begun r
  · exact readKeyValue_begun _

theorem readFsid_begun
    (r : Reader) :
    (r.readFsid uuidParse).state ≠ .startOfFile := by
  unfold Reader.readFsid
  dsimp only
  split_ifs
  · simp
  · exact skip_begun r
  · exact skip_begun r
  · cases uuidParse (r.text.take 36) with
    | none => exact skip_begun _
    | some fsid => exact readDevId_begun _

theorem again_begun
    (hState : r.state ≠ .startOfFile) :
    Begun (r.again sizes) := by
  unfold Reader.again
  dsimp only
  split_ifs
  · change r.finish ≠ _
    unfold Reader.finish
    cases r.curr with
    | none => simp
    | some c =>
        dsimp only
        split_ifs <;> simp
  · exact hState

theorem skipSpace_begun
    (hState : r.state ≠ .startOfFile) :
    Begun (r.skipSpace uuidParse sizes) := by
  unfold Reader.skipSpace
  dsimp only
  split_ifs
  · exact again_begun hState
  · exact readFsid_begun _

theorem startOfLine_begun
    (hState : r.state ≠ .startOfFile) :
    Begun (r.startOfLine uuidParse sizes) := by
  unfold Reader.startOfLine
  split_ifs
  · exact again_begun hState
  · cases r.curr with
    | none => exact skipSpace_begun (by simp)
    | some c =>
        dsimp only
        split_ifs
        · change State.skipSpace ≠ _
          simp
        · exact skipSpace_begun (by simp)

theorem turn_begun
    (hState : r.state ≠ .startOfFile) :
    Begun (turn uuidParse sizes r) := by
  unfold turn
  split_ifs
  · exact again_begun hState
  · cases hCase : r.state with
    | startOfFile => exact absurd hCase hState
    | startOfLine => exact startOfLine_begun hState
    | skipSpace => exact skipSpace_begun hState
    | readFsid => exact readFsid_begun r
    | readDevId => exact readDevId_begun r
    | readKeyValue => exact readKeyValue_begun r
    | afterNumber => exact afterNumber_begun r
    | skipRest => exact skip_begun r

/- Behind the first line, no version is found to be wrong. -/
theorem Reads.supported
    (hReads : Reads uuidParse sizes w r)
    (hState : r.state ≠ .startOfFile) :
    w ≠ .error .enotsup := by
  rcases hReads.1 with ⟨fuel, v, hRun, rfl⟩
  rcases Loop.comes_of_run hRun with ⟨b, hComes, hEnd⟩
  have hBegun : b.state ≠ .startOfFile := by
    refine hComes.keeps (P := fun b => b.state ≠ .startOfFile)
      ?_ hState
    intro a c hHere hTurn
    have hNext : Begun (StatusFile.turn uuidParse sizes a) :=
      turn_begun hHere
    rwa [hTurn] at hNext
  have hLast : Begun (StatusFile.turn uuidParse sizes b) :=
    turn_begun hBegun
  rwa [hEnd] at hLast

/- The state after the first read. -/
def firstRead
    (front rest : List UInt8) : Reader :=
  ⟨.startOfFile, front, false, rest, 1, [], none⟩

theorem turn_startReader
    (sizes : Nat → Nat)
    (front rest : List UInt8)
    (hSizes : max 1 (sizes 0) = front.length)
    (hFits : front.length ≤ 16 * 1024) :
    turn uuidParse sizes (startReader (front ++ rest)) =
      .inl (firstRead front rest) := by
  have hAvail : min (max 1 (sizes 0))
      (min (16 * 1024 - 0) (front ++ rest).length) =
        front.length := by
    rw [List.length_append]
    omega
  have hSome : front.length ≠ 0 := by
    omega
  change Reader.again sizes (startReader (front ++ rest)) = _
  unfold Reader.again startReader firstRead
  dsimp only [List.length_nil]
  rw [hAvail, if_neg (fun hBoth => hSome hBoth.1),
    List.nil_append, List.take_left, List.drop_left,
    decide_eq_false hSome]
  rfl

/- Read by the byte, a version is not looked at. -/
theorem Reads.supported_bytes
    {file : List UInt8}
    (hReads : Reads uuidParse (fun _ => 0) w (startReader file))
    (hFile : file ≠ []) :
    w ≠ .error .enotsup := by
  cases file with
  | nil => exact absurd rfl hFile
  | cons b rest =>
      have hFirst : StatusFile.turn uuidParse (fun _ => 0)
          (startReader (b :: rest)) =
            .inl (firstRead [b] rest) :=
        turn_startReader (fun _ => 0) [b] rest rfl
          (Nat.succ_le_succ (Nat.zero_le _))
      have hSkip : StatusFile.turn uuidParse (fun _ => 0)
          (firstRead [b] rest) =
            .inl (firstRead [b] rest).skip := by
        have hNone : scrubKvread SCRUB_FILE_VERSION_PREFIX [b] =
            .noMatch :=
          if_neg fun hBoth => absurd hBoth.1 (by
            rw [List.length_singleton]
            omega)
        change Reader.startOfFile (firstRead [b] rest) = _
        unfold Reader.startOfFile
        rw [show (firstRead [b] rest).text = [b] from rfl,
          hNone]
      exact ((hReads.next hFirst).next hSkip).supported
        (skip_begun _)

/-
  A file that is read in any way has a good first line: it may
  be that the second byte of the version is the last in the
  buffer.
-/
theorem Sound.version
    {file : List UInt8}
    (hSound : Sound uuidParse file) :
    VersionGood file := by
  intro hPrefix hLong
  rcases hSound with ⟨w, hAll⟩
  rcases version_line hPrefix hLong with
    ⟨a, b, more, hFile, hFirst, hSecond⟩
  have hSupported := (hAll fun _ => 0).supported_bytes
    (by rw [hFile]; simp)
  have hStart : turn uuidParse (fun _ => 15)
      (startReader file) = .inl (firstRead
        (SCRUB_FILE_VERSION_PREFIX ++ [colon, a, b]) more) := by
    have hFront : file = (SCRUB_FILE_VERSION_PREFIX ++
        [colon, a, b]) ++ more := by
      rw [hFile, List.append_assoc]
      rfl
    rw [hFront]
    exact turn_startReader (fun _ => 15) _ more rfl
      (show 15 ≤ 16 * 1024 by decide)
  have hReads := (hAll fun _ => 15).next hStart
  have hGood : ValueGood id [a, b] :=
    hReads.2 _ (.refl _) (by simp [firstRead])
      ⟨[a, b], by simp [firstRead]⟩
      (show 14 < 15 by decide)
  have hTurn : turn uuidParse (fun _ => 15)
      (firstRead (SCRUB_FILE_VERSION_PREFIX ++
        [colon, a, b]) more) =
        if atoll [a, b] ≠ 1 then .inr (.error .enotsup)
        else
          .inl { firstRead ([a, b].dropWhile
            Decimal.isDigit) more with
            state := .afterNumber } := by
    have hRead : scrubKvread SCRUB_FILE_VERSION_PREFIX
        (SCRUB_FILE_VERSION_PREFIX ++ [colon, a, b]) =
          .read (atoll [a, b])
            ([a, b].dropWhile Decimal.isDigit) :=
      scrubKvread_stops _ le_rfl hGood.1
    change Reader.startOfFile _ = _
    unfold Reader.startOfFile firstRead
    dsimp only
    rw [hRead]
    rfl
  have hVersion : atoll [a, b] = 1 := by
    by_contra hOther
    rw [if_pos hOther] at hTurn
    exact hSupported (hReads.result hTurn)
  rcases one_of_two hGood hVersion with ⟨rfl, hDigit⟩
  rw [hFirst, hSecond]
  refine ⟨rfl, fun c hc => ?_⟩
  rw [← Option.some.inj hc]
  refine ⟨hDigit, ?_⟩
  rintro rfl
  -- a pair would be read into no record
  by_contra hLength
  have hMore : more ≠ [] := by
    rintro rfl
    exact hLength (by rw [hFile]; rfl)
  rw [if_neg (not_not.mpr hVersion)] at hTurn
  have hBar : turn uuidParse (fun _ => 15)
      { firstRead [bar] more with state := .afterNumber } =
        .inl { firstRead [] more with state := .readKeyValue } :=
    rfl
  rcases again_takes (fun _ => 15)
    (r := { firstRead [] more with state := .readKeyValue })
    hMore (Nat.zero_lt_succ _) with ⟨n, hPos, _, hAgain⟩
  have hPair := ((hReads.next hTurn).next hBar).next hAgain
  have hRecord := (hPair.2 _ (.refl _) (by
    change more.take n ≠ []
    rw [Ne, List.take_eq_nil_iff, not_or]
    exact ⟨by omega, hMore⟩)).1
  cases hRecord

/-
  The status of a scrub is read in any way if its first line is
  good and, with the lines behind it in the buffer, every turn
  stays in its line.
-/
theorem sound_of_settled
    {file : List UInt8}
    (hVersion : VersionGood file)
    (hSettled : Settled uuidParse file) :
    Sound uuidParse file := by
  rcases sim_ends hSettled (Nat.lt_succ_self _) with ⟨w, hAll⟩
  have hStart : ∀ sizes,
      turn uuidParse sizes (startReader file) =
        (startReader file).again sizes :=
    fun _ => if_pos rfl
  by_cases hFile : file = []
  · refine ⟨.error .enodata, fun sizes => .done ?_ ?_⟩
    · rw [hStart, again_end hFile]
      rfl
    · exact fun hSome => absurd rfl hSome
  · refine ⟨w, fun sizes => ?_⟩
    rcases again_takes (r := startReader file) sizes hFile
      (Nat.zero_lt_succ _) with ⟨n, hPos, _, hAgain⟩
    have hText : file.take n ≠ [] := by
      rw [Ne, List.take_eq_nil_iff, not_or]
      exact ⟨by omega, hFile⟩
    refine .turn ((hStart sizes).trans hAgain)
      (fun hSome => absurd rfl hSome)
      (reads_startOfFile rfl hText ?_ ?_)
    · exact (List.take_append_drop n file).symm ▸ hVersion
    -- the rest of the first line is skipped, from any state
    refine (hAll sizes { startReader file with
      state := .skipRest
      text := file.take n
      rest := file.drop n
      reads := 1 } ⟨?_, .inr ⟨rfl, ?_⟩⟩).next ?_
    · intro hEof
      cases hEof
    · rw [List.take_append_drop]
      rfl
    · exact if_neg hText

/- A line for a device that was scrubbed. -/
def someLine : List UInt8 :=
  ascii "1b4e28ba-2fa1-11d2-883f-0016d3cca427:1|finished:1\n"

theorem someLine_valueGood
    {f : Field}
    (hKey : f.key ++ [colon] <+: ascii "finished:1\n") :
    ValueGood (firstLine newline)
      ((ascii "finished:1\n").drop (f.key.length + 1)) := by
  have hOnly : ∀ f ∈ readOrder,
      f.key ++ [colon] <+: ascii "finished:1\n" →
        f = .finished := by
    decide
  rw [hOnly f (mem_readOrder f) hKey]
  exact ⟨by decide, by decide, by decide⟩

set_option maxRecDepth 4000 in
/- It is read within its line. -/
theorem someLine_good :
    SpaceGood someUuid (firstLine newline) true someLine := by
  refine ⟨by decide, fun _ => ⟨by decide, fun _ _ _ =>
    ⟨by decide, fun _ _ => ⟨by decide, ?_⟩⟩⟩⟩
  exact fun f _ hKey _ => someLine_valueGood hKey

set_option maxRecDepth 4000 in
theorem someLine_settled :
    Settled someUuid (ascii "scrub status:1\n" ++ someLine) := by
  have hLines : linesReader
      (ascii "scrub status:1\n" ++ someLine) =
        { allRead with text := someLine } :=
    rfl
  have hFirst : ∃ c, turn someUuid (fun _ => 0)
      { allRead with text := someLine } =
        .inl { allRead with curr := c } :=
    ⟨_, rfl⟩
  rcases hFirst with ⟨c, hFirst⟩
  intro r hComes
  rw [hLines] at hComes
  rcases Relation.ReflTransGen.cases_head hComes with
    rfl | ⟨b, hTurn, hRest⟩
  · exact ⟨fun _ _ _ => someLine_good, fun _ => by decide⟩
  · rw [hFirst] at hTurn
    rw [← Sum.inl.inj hTurn] at hRest
    rcases Relation.ReflTransGen.cases_head hRest with
      rfl | ⟨d, hEnd, _⟩
    · exact ⟨fun hSome => absurd rfl hSome,
        fun _ => Nat.zero_le _⟩
    · cases hEnd

end Version

end StatusFile

end Scrub

end BtrfsProgs
