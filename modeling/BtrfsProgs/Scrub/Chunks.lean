import BtrfsProgs.Lib.Lines
import BtrfsProgs.Scrub.StatusRead

/-
  What `scrub_read_file` reads of its buffer, and turns for
  which it does not matter what is behind the line.

  Main declarations:
    * `Good` and `Inside`
    * `Moves` and `Follows`
    * `turn_follows`
-/

----------
-- What Is Read of the Buffer
----------

namespace BtrfsProgs

namespace Scrub

namespace StatusFile

open Lines

/-
  A window is the part of the text in which the scans of a turn
  are to stop: all that is in the buffer, or the line.
-/
section Window

variable (uuidParse : List UInt8 → Option (List UInt8))
variable (window : List UInt8 → List UInt8)

/- The digits of a value, and `atoll` for it. -/
def ValueGood
    (text : List UInt8) : Prop :=
  let number := text.dropWhile isSpace
  Stops Decimal.isDigit (window text) ∧
    Stops isSpace (window text) ∧
      Stops Decimal.isDigit
        (window (if number.head? = some minus ∨
          number.head? = some 43 then number.tail else number))

/- A key and its value are in the window. -/
def KeyValueGood
    (text : List UInt8) : Prop :=
  ∀ f ∈ readOrder, f.key ++ [colon] <+: text →
    f.key.length + 2 < text.length →
      ValueGood window (text.drop (f.key.length + 1))

/- What comes behind the device id is in the window. -/
def DevIdGood
    (text : List UInt8) : Prop :=
  let j := (text.takeWhile Decimal.isDigit).length
  Stops Decimal.isDigit (window text) ∧
    (j ≠ 0 → j + 1 < text.length →
      j + 1 < (window text).length ∧
        KeyValueGood window (text.drop (j + 1)))

/- So is what comes behind the fsid. -/
def FsidGood
    (text : List UInt8) : Prop :=
  let j := (text.takeWhile (· ≠ colon)).length
  Stops (fun b => decide (b ≠ colon)) (window text) ∧
    (j + 1 < text.length → j = 36 →
      (uuidParse (text.take 36)).isSome →
        DevIdGood window (text.drop 37))

/- And what comes behind blanks. -/
def SpaceGood
    (eof : Bool)
    (text : List UInt8) : Prop :=
  Stops isSpace (window text) ∧
    (eof = true ∨ newline ∈ text.dropWhile isSpace →
      FsidGood uuidParse window (text.dropWhile isSpace))

/- A turn, with the record that `curr` is to point to. -/
def Good
    (r : Reader) : Prop :=
  r.text ≠ [] →
    match r.state with
    | .startOfFile =>
        SCRUB_FILE_VERSION_PREFIX ++ [colon] <+: r.text →
          14 < r.text.length →
            ValueGood window (r.text.drop 13)
    | .startOfLine =>
        r.eof = true ∨ newline ∈ r.text →
          (∀ c, r.curr = some c →
            c.fsid ≠ FileRecord.zero.fsid) →
              SpaceGood uuidParse window r.eof r.text
    | .skipSpace => SpaceGood uuidParse window r.eof r.text
    | .readFsid => FsidGood uuidParse window r.text
    | .readDevId => DevIdGood window r.text
    | .readKeyValue =>
        r.curr.isSome = true ∧ KeyValueGood window r.text
    | .afterNumber => True
    | .skipRest => True

end Window

/- No byte is read that is not in the buffer. -/
def Inside
    (uuidParse : List UInt8 → Option (List UInt8))
    (r : Reader) : Prop :=
  Good uuidParse id r

----------
-- A Line with More Behind It
----------

/- The variables that the turns inside a line leave alone. -/
def Reader.onto
    (q : Reader)
    (more : List UInt8)
    (r : Reader) : Reader :=
  { q with
    state := r.state
    text := r.text ++ more
    past := r.past
    curr := r.curr }

/-
  A step inside a line: what is behind the line makes no
  difference, and is not come to.
-/
structure Moves
    (f : Reader → Reader)
    (r : Reader)
    (more : List UInt8) : Prop where
  onto : ∀ q : Reader, f (q.onto more r) = q.onto more (f r)
  keeps : (f r).rest = r.rest ∧ (f r).eof = r.eof
  begun : (f r).state ≠ .startOfFile
  line :
    newline ∈ r.text →
      (f r).state = .startOfLine ∨ newline ∈ (f r).text
  shorter : (f r).text.length < r.text.length

section Scans

variable {p : UInt8 → Bool} {text more : List UInt8}

/- The line is whole, or there is nothing behind. -/
def Ended
    (text more : List UInt8) : Prop :=
  more = [] ∨ newline ∈ text

theorem Ended.line
    (hEnd : Ended text more) :
    firstLine newline (text ++ more) = firstLine newline text := by
  rcases hEnd with rfl | hLine
  · rw [List.append_nil]
  · exact firstLine_append hLine

theorem Ended.stops
    (hEnd : Ended text more)
    (hStops : Stops p (firstLine newline (text ++ more))) :
    Stops p text := by
  rw [hEnd.line] at hStops
  exact hStops.of_line

theorem Ended.dropWhile
    (hEnd : Ended text more)
    (hStops : Stops p (firstLine newline (text ++ more))) :
    Ended (text.dropWhile p) more := by
  rw [hEnd.line] at hStops
  exact hEnd.imp_right fun hLine =>
    mem_dropWhile_of_stops hLine hStops

theorem Ended.mem_dropWhile
    (hEnd : Ended text more)
    (hStops : Stops p (firstLine newline (text ++ more)))
    (hLine : newline ∈ text) :
    newline ∈ text.dropWhile p := by
  rw [hEnd.line] at hStops
  exact mem_dropWhile_of_stops hLine hStops

theorem Ended.tail
    (hEnd : Ended text more)
    (hHead : text.head? ≠ some newline) :
    Ended text.tail more := by
  refine hEnd.imp_right fun hLine => ?_
  cases text with
  | nil => cases hLine
  | cons b text =>
      refine (List.mem_cons.mp hLine).resolve_left ?_
      rintro rfl
      exact hHead rfl

/- `atoll` stops in the line. -/
theorem ValueGood.atoll
    (hGood : ValueGood (firstLine newline) (text ++ more))
    (hEnd : Ended text more) :
    ValueGood id text ∧ atoll (text ++ more) = atoll text := by
  rcases hGood with ⟨hDigits, hSpace, hNumber⟩
  have hStops := hEnd.stops hSpace
  have hRest := hEnd.dropWhile hSpace
  have hSome := stops_iff.mp hStops
  rw [dropWhile_append hStops,
    List.head?_append_of_ne_nil _ hSome,
    List.tail_append_of_ne_nil hSome] at hNumber
  have hTail : (text.dropWhile isSpace).head? = some minus ∨
      (text.dropWhile isSpace).head? = some 43 →
        Stops Decimal.isDigit
          (text.dropWhile isSpace).tail := by
    intro hSign
    rw [if_pos hSign] at hNumber
    refine (hRest.tail ?_).stops hNumber
    rcases hSign with hSign | hSign
    · rw [hSign]
      decide
    · rw [hSign]
      decide
  have hAll : ¬ ((text.dropWhile isSpace).head? = some minus ∨
      (text.dropWhile isSpace).head? = some 43) →
        Stops Decimal.isDigit (text.dropWhile isSpace) := by
    intro hSign
    rw [if_neg hSign] at hNumber
    exact hRest.stops hNumber
  refine ⟨⟨hEnd.stops hDigits, hStops, ?_⟩, ?_⟩
  · dsimp only [id]
    split
    · exact hTail ‹_›
    · exact hAll ‹_›
  · unfold StatusFile.atoll
    simp only [dropWhile_append hStops,
      List.head?_append_of_ne_nil _ hSome,
      List.tail_append_of_ne_nil hSome]
    by_cases hMinus : (text.dropWhile isSpace).head? = some minus
    · rw [if_pos hMinus, if_pos hMinus,
        takeWhile_append (hTail (.inl hMinus))]
    · rw [if_neg hMinus, if_neg hMinus]
      by_cases hPlus : (text.dropWhile isSpace).head? = some 43
      · rw [if_pos hPlus, if_pos hPlus,
          takeWhile_append (hTail (.inr hPlus))]
      · rw [if_neg hPlus, if_neg hPlus, takeWhile_append
          (hAll (not_or.mpr ⟨hMinus, hPlus⟩))]

end Scans

section Steps

variable {r : Reader} {more : List UInt8}

theorem skip_moves
    (hEnd : Ended r.text more)
    (hSome : r.text ≠ []) :
    Moves Reader.skip r more := by
  cases hDrop : r.text.dropWhile (· ≠ newline) with
  | nil =>
      have hNone : newline ∉ r.text := by
        intro hLine
        have hAll := List.dropWhile_eq_nil_iff.mp hDrop _ hLine
        simp at hAll
      have hMore := hEnd.resolve_right hNone
      subst hMore
      have hSkip : r.skip =
          { r with state := .skipRest, text := [] } := by
        unfold Reader.skip
        rw [hDrop]
      refine ⟨?_, ?_, ?_, fun hLine => absurd hLine hNone, ?_⟩
      · intro q
        rw [hSkip]
        unfold Reader.skip Reader.onto
        dsimp only
        rw [List.append_nil, hDrop]
        rfl
      · rw [hSkip]
        exact ⟨rfl, rfl⟩
      · rw [hSkip]
        simp
      · rw [hSkip]
        exact List.length_pos_iff.mpr hSome
  | cons b rest =>
      have hStops : Stops (fun b => decide (b ≠ newline))
          r.text :=
        stops_iff.mpr (by rw [hDrop]; simp)
      have hSkip : r.skip =
          { r with state := .startOfLine, text := rest } := by
        unfold Reader.skip
        rw [hDrop]
      refine ⟨?_, ?_, ?_, fun _ => .inl ?_, ?_⟩
      · intro q
        rw [hSkip]
        unfold Reader.skip Reader.onto
        dsimp only
        rw [dropWhile_append hStops, hDrop]
        rfl
      · rw [hSkip]
        exact ⟨rfl, rfl⟩
      · rw [hSkip]
        simp
      · rw [hSkip]
      · have hLe := (List.dropWhile_suffix (l := r.text)
          (fun b => decide (b ≠ newline))).length_le
        rw [hDrop] at hLe
        rw [hSkip]
        exact hLe

/- A step that is another one from another state. -/
theorem Moves.step
    {f g : Reader → Reader}
    {b : Reader}
    (hMoves : Moves g b more)
    (hStep : f r = g b)
    (hOnto : ∀ q : Reader,
      f (q.onto more r) = g (q.onto more b))
    (hKeeps : b.rest = r.rest ∧ b.eof = r.eof)
    (hLine : newline ∈ r.text → newline ∈ b.text)
    (hLe : b.text.length ≤ r.text.length) :
    Moves f r more := by
  refine ⟨?_, ?_, ?_, ?_, ?_⟩
  · intro q
    rw [hOnto, hMoves.onto, hStep]
  · rw [hStep]
    exact ⟨hMoves.keeps.1.trans hKeeps.1,
      hMoves.keeps.2.trans hKeeps.2⟩
  · rw [hStep]
    exact hMoves.begun
  · rw [hStep]
    exact fun hIn => hMoves.line (hLine hIn)
  · rw [hStep]
    exact hMoves.shorter.trans_le hLe

theorem Moves.congr
    {f g : Reader → Reader}
    (hMoves : Moves g r more)
    (hStep : f r = g r)
    (hOnto : ∀ q : Reader,
      f (q.onto more r) = g (q.onto more r)) :
    Moves f r more :=
  hMoves.step hStep hOnto ⟨rfl, rfl⟩ id le_rfl

theorem afterNumber_moves
    (hEnd : Ended r.text more)
    (hSome : r.text ≠ []) :
    Moves Reader.afterNumber r more := by
  cases hText : r.text with
  | nil => exact absurd hText hSome
  | cons b text =>
      have hLess : text.length < r.text.length := by
        rw [hText]
        exact Nat.lt_succ_self _
      by_cases hBar : b = bar
      · have hStep : r.afterNumber =
            { r with state := .readKeyValue, text := text } := by
          unfold Reader.afterNumber
          rw [hText]
          exact if_pos hBar
        refine ⟨?_, ?_, ?_, ?_, ?_⟩
        · intro q
          rw [hStep]
          unfold Reader.afterNumber Reader.onto
          dsimp only
          rw [hText, List.cons_append]
          exact if_pos hBar
        · rw [hStep]
          exact ⟨rfl, rfl⟩
        · rw [hStep]
          simp
        · intro hLine
          rw [hStep]
          rw [hText] at hLine
          refine .inr ((List.mem_cons.mp hLine).resolve_left ?_)
          rw [hBar]
          decide
        · rw [hStep]
          exact hLess
      · by_cases hLine : b = newline
        · have hStep : r.afterNumber =
              { r with state := .startOfLine, text := text } := by
            unfold Reader.afterNumber
            rw [hText]
            dsimp only
            rw [if_neg hBar, if_pos hLine]
          refine ⟨?_, ?_, ?_, ?_, ?_⟩
          · intro q
            rw [hStep]
            unfold Reader.afterNumber Reader.onto
            dsimp only
            rw [hText, List.cons_append]
            dsimp only
            rw [if_neg hBar, if_pos hLine]
          · rw [hStep]
            exact ⟨rfl, rfl⟩
          · rw [hStep]
            simp
          · intro _
            rw [hStep]
            exact .inl rfl
          · rw [hStep]
            exact hLess
        · refine (skip_moves hEnd hSome).congr ?_ fun q => ?_
          · unfold Reader.afterNumber
            rw [hText]
            dsimp only
            rw [if_neg hBar, if_neg hLine]
          · have hOnto : (q.onto more r).text =
                b :: (text ++ more) := by
              unfold Reader.onto
              rw [hText, List.cons_append]
            unfold Reader.afterNumber
            rw [hOnto]
            dsimp only
            rw [if_neg hBar, if_neg hLine]

----------
-- Keys
----------

/- Two keys do not begin one text. -/
theorem eq_of_both_begin
    {text : List UInt8}
    {f g : Field}
    (hf : f.key <+: text)
    (hg : g.key <+: text) : g = f := by
  rcases List.prefix_or_prefix_of_prefix hg hf with hIs | hIs
  · exact eq_of_key_prefix hIs
  · exact ( eq_of_key_prefix hIs).symm

theorem kvreadFirst_none
    {text : List UInt8}
    {fs : List Field}
    (hNone : ∀ f ∈ fs, scrubKvread f.key text = .noMatch) :
    kvreadFirst text fs = none := by
  induction fs with
  | nil => rfl
  | cons f fs ih =>
      unfold kvreadFirst
      rw [hNone f List.mem_cons_self]
      exact ih fun g hg => hNone g (List.mem_cons_of_mem _ hg)

/- The key that begins a text is the one that is tried. -/
theorem kvreadFirst_of_begins
    {text : List UInt8}
    {f : Field}
    {fs : List Field}
    (hPrefix : f.key <+: text)
    (hMem : f ∈ fs)
    (hMatch : scrubKvread f.key text ≠ .noMatch) :
    kvreadFirst text fs =
      some (f, scrubKvread f.key text) := by
  induction fs with
  | nil => cases hMem
  | cons g fs ih =>
      unfold kvreadFirst
      by_cases hSame : g.key <+: text
      · rw [eq_of_both_begin hPrefix hSame]
        cases hKv : scrubKvread f.key text with
        | noMatch => exact absurd hKv hMatch
        | error rest => rfl
        | read v rest => rfl
      · have hNone : scrubKvread g.key text = .noMatch :=
          if_neg fun hBoth => hSame hBoth.2
        rw [hNone]
        refine ih ((List.mem_cons.mp hMem).resolve_left ?_)
        intro hIs
        rw [hIs] at hPrefix
        exact hSame hPrefix

/- Without a pair, the line is skipped. -/
theorem readKeyValue_skip
    (hNone : ∀ f : Field, ∀ text,
      r.text = f.key ++ text →
        text.head? ≠ some colon ∨ text.length ≤ 2) :
    r.readKeyValue = r.skip := by
  by_cases hAll : ∀ f ∈ readOrder,
      scrubKvread f.key r.text = .noMatch
  · unfold Reader.readKeyValue
    rw [kvreadFirst_none hAll]
  · simp only [not_forall] at hAll
    rcases hAll with ⟨f, hMem, hMatch⟩
    have hIs : f.key.length + 2 < r.text.length ∧
        f.key <+: r.text := by
      by_contra hNot
      exact hMatch (if_neg hNot)
    rcases hIs with ⟨hLong, hPrefix⟩
    rcases hPrefix with ⟨text, hText⟩
    have hLength : r.text.length =
        f.key.length + text.length := by
      rw [← hText, List.length_append]
    have hHead := (hNone f text hText.symm).resolve_right
      (by omega)
    have hKv : scrubKvread f.key r.text = .error text := by
      unfold scrubKvread
      rw [if_pos ⟨hLong, ⟨text, hText⟩⟩, ← hText,
        List.drop_left]
      exact if_pos hHead
    unfold Reader.readKeyValue
    rw [kvreadFirst_of_begins ⟨text, hText⟩ hMem hMatch, hKv]
    -- the key has no end of a line
    unfold Reader.skip
    rw [← hText, List.dropWhile_append_of_pos]
    intro b hb
    simpa using key_no_newline f b hb

/- A value that ends in the text. -/
theorem scrubKvread_stops
    (key : List UInt8)
    {text : List UInt8}
    (hLong : 2 ≤ text.length)
    (hStops : Stops Decimal.isDigit text) :
    scrubKvread key (key ++ colon :: text) =
      .read (atoll text) (text.dropWhile Decimal.isDigit) := by
  have hLess : ¬ text.length ≤
      (text.takeWhile Decimal.isDigit).length := by
    intro hLe
    refine stops_iff.mp hStops ?_
    rw [← drop_takeWhile]
    exact List.drop_eq_nil_of_le hLe
  unfold scrubKvread
  rw [if_pos ⟨by simp; omega, List.prefix_append _ _⟩,
    List.drop_left]
  simp only [List.head?_cons, ne_eq, not_true_eq_false,
    if_false, List.tail_cons, if_neg hLess, drop_takeWhile]

/- A pair whose value ends in the text. -/
theorem readKeyValue_read
    {f : Field}
    {text : List UInt8}
    (hText : r.text = f.key ++ colon :: text)
    (hLong : 2 ≤ text.length)
    (hStops : Stops Decimal.isDigit text) :
    r.readKeyValue = Reader.afterNumber
      { r with
        curr := r.curr.map fun c =>
          { c with record := f.set (atoll text) c.record }
        text := text.dropWhile Decimal.isDigit } := by
  have hKv := scrubKvread_stops f.key hLong hStops
  rw [← hText] at hKv
  unfold Reader.readKeyValue
  rw [kvreadFirst_of_begins ⟨_, hText.symm⟩ (mem_readOrder f)
    (by rw [hKv]; simp), hKv]
  rfl

/- A key at the start of a line is in the line. -/
theorem Ended.key
    {f : Field}
    {text rest : List UInt8}
    (hEnd : Ended text more)
    (hText : text ++ more = f.key ++ rest) :
    ∃ after, text = f.key ++ after ∧ rest = after ++ more ∧
      Ended after more := by
  rcases hEnd with rfl | hLine
  · rw [List.append_nil] at hText
    exact ⟨rest, hText, (List.append_nil _).symm, .inl rfl⟩
  · have hPrefix : f.key <+: text := by
      rcases List.prefix_or_prefix_of_prefix
        ⟨rest, hText.symm⟩ (List.prefix_append text more) with
        hIs | hLong
      · exact hIs
      · exact absurd rfl
          (key_no_newline f newline (hLong.subset hLine))
    rcases hPrefix with ⟨after, rfl⟩
    rw [List.append_assoc, List.append_cancel_left_eq] at hText
    refine ⟨after, rfl, hText.symm, .inr ?_⟩
    exact (List.mem_append.mp hLine).resolve_left fun hIn =>
      key_no_newline f newline hIn rfl

theorem KeyValueGood.moves
    (hGood : KeyValueGood (firstLine newline) (r.text ++ more))
    (hEnd : Ended r.text more)
    (hSome : r.text ≠ []) :
    KeyValueGood id r.text ∧
      Moves Reader.readKeyValue r more := by
  by_cases hPair : ∃ f : Field, ∃ text,
      r.text = f.key ++ colon :: text ∧
        1 < (text ++ more).length
  · rcases hPair with ⟨f, text, hText, hLong⟩
    have hLine : Ended text more := by
      rcases hEnd.key (f := f) (by
        rw [hText, List.append_assoc]) with
        ⟨after, hIs, _, hAfter⟩
      rw [hText, List.append_cancel_left_eq] at hIs
      rw [← hIs] at hAfter
      exact hAfter.tail (by rw [List.head?_cons]; decide)
    have hValue := hGood f (mem_readOrder f)
      ⟨text ++ more, by rw [hText]; simp⟩
      (by rw [hText]; simp at hLong ⊢; omega)
    have hDrop : (r.text ++ more).drop (f.key.length + 1) =
        text ++ more := by
      rw [hText, List.append_assoc, List.drop_append]
      simp
    rw [hDrop] at hValue
    rcases hValue.atoll hLine with ⟨hInside, hAtoll⟩
    have hStops : Stops Decimal.isDigit text := hInside.1
    have hTwo : 2 ≤ text.length := by
      rcases hLine with rfl | hIn
      · rwa [List.append_nil] at hLong
      · have hSpace : Stops isSpace text := hInside.2.1
        rcases hSpace with ⟨b, hb, hNot⟩
        match text, hIn, hb with
        | [c], hIn, hb =>
            rw [List.mem_singleton] at hIn hb
            rw [hb, ← hIn] at hNot
            cases hNot
        | _ :: _ :: rest, _, _ =>
            exact Nat.le_add_left 2 rest.length
    refine ⟨?_, ?_⟩
    · intro g _ hPrefix _
      have hSame : g = f := eq_of_both_begin
        ⟨_, hText.symm⟩
        ((List.prefix_append _ _).trans hPrefix)
      have hAfter : r.text.drop (f.key.length + 1) = text := by
        rw [hText, ← List.drop_drop, List.drop_left]
        rfl
      rw [hSame, hAfter]
      exact hInside
    · refine (afterNumber_moves
        (r := { r with
          curr := r.curr.map fun c =>
            { c with record := f.set (atoll text) c.record }
          text := text.dropWhile Decimal.isDigit })
        (hLine.dropWhile hValue.1)
        (stops_iff.mp hStops)).step
        (readKeyValue_read hText hTwo hStops) ?_ ⟨rfl, rfl⟩
        ?_ ?_
      · intro q
        have hOnto : (q.onto more r).text =
            f.key ++ colon :: (text ++ more) := by
          unfold Reader.onto
          rw [hText]
          simp
        rw [readKeyValue_read hOnto
          (by rw [List.length_append]; omega) hStops.append,
          hAtoll, dropWhile_append hStops]
        rfl
      · intro hIn
        rw [hText] at hIn
        refine hLine.mem_dropWhile hValue.1 ?_
        rcases List.mem_append.mp hIn with hKey | hAfter
        · exact absurd rfl (key_no_newline f newline hKey)
        · exact (List.mem_cons.mp hAfter).resolve_left
            (by decide)
      · have hLe := (List.dropWhile_suffix (l := text)
          Decimal.isDigit).length_le
        rw [hText, List.length_append, List.length_cons]
        dsimp only
        omega
  · simp only [not_exists, not_and] at hPair
    refine ⟨?_, (skip_moves hEnd hSome).congr
      (readKeyValue_skip ?_) fun q => readKeyValue_skip ?_⟩
    · intro f _ hPrefix hLess
      rcases hPrefix with ⟨text, hText⟩
      rw [List.append_assoc, List.singleton_append] at hText
      have hShort := hPair f text hText.symm
      rw [← hText, List.length_append, List.length_cons] at hLess
      rw [List.length_append] at hShort
      exfalso
      omega
    · intro f text hText
      cases text with
      | nil => exact .inl (by simp)
      | cons c text =>
          by_cases hColon : c = colon
          · subst hColon
            have hShort := hPair f text hText
            rw [List.length_append] at hShort
            exact .inr (by rw [List.length_cons]; omega)
          · exact .inl (by simpa using hColon)
    · intro f text hText
      rcases hEnd.key hText with ⟨after, hAfter, rfl, hRest⟩
      cases after with
      | nil =>
          rcases hRest with rfl | hIn
          · exact .inl (by simp)
          · cases hIn
      | cons c after =>
          by_cases hColon : c = colon
          · subst hColon
            have hShort := hPair f after hAfter
            rw [List.cons_append]
            exact .inr (by rw [List.length_cons]; omega)
          · exact .inl (by simpa using hColon)

----------
-- The Start of a Line
----------

/- `atoll` of digits. -/
theorem atoll_digits
    {text : List UInt8}
    (hDigit : text.takeWhile Decimal.isDigit ≠ []) :
    atoll text = min (2 ^ 63 - 1)
      (Decimal.value (text.takeWhile Decimal.isDigit)) := by
  cases text with
  | nil => exact absurd rfl hDigit
  | cons b text =>
      by_cases hIs : Decimal.isDigit b = true
      · have hNot : ∀ c : UInt8, Decimal.isDigit c = false →
            b ≠ c := by
          rintro c hc rfl
          rw [hIs] at hc
          cases hc
        unfold atoll
        rw [List.dropWhile_cons_of_neg
          (by simp [not_isSpace_of_digit hIs])]
        dsimp only
        rw [if_neg, if_neg]
        · rw [List.head?_cons, Option.some.injEq]
          exact hNot 43 (by decide)
        · rw [List.head?_cons, Option.some.injEq]
          exact hNot minus (by decide)
      · exact absurd (List.takeWhile_cons_of_neg hIs) hDigit

theorem readDevId_skip
    (hNone : (r.text.takeWhile Decimal.isDigit).length = 0 ∨
      r.text.length ≤
        (r.text.takeWhile Decimal.isDigit).length + 1) :
    r.readDevId = r.skip :=
  if_pos hNone

theorem DevIdGood.moves
    (hGood : DevIdGood (firstLine newline) (r.text ++ more))
    (hEnd : Ended r.text more) :
    DevIdGood id r.text ∧ Moves Reader.readDevId r more := by
  rcases hGood with ⟨hDigits, hPairs⟩
  have hStops := hEnd.stops hDigits
  have hSome : r.text ≠ [] := by
    rintro hNil
    rw [hNil] at hStops
    rcases hStops with ⟨_, hIn, _⟩
    cases hIn
  rw [takeWhile_append hStops, hEnd.line] at hPairs
  by_cases hNone :
      (r.text.takeWhile Decimal.isDigit).length = 0 ∨
        (r.text ++ more).length ≤
          (r.text.takeWhile Decimal.isDigit).length + 1
  · have hShort := hNone.imp_right fun hLe =>
      (List.length_append ▸ Nat.le_add_right r.text.length
        more.length).trans hLe
    refine ⟨⟨hStops, ?_⟩, (skip_moves hEnd hSome).congr
      (readDevId_skip hShort) fun q => readDevId_skip ?_⟩
    · intro hSomeDigit hLess
      exact absurd hLess (not_lt.mpr
        (hShort.resolve_left hSomeDigit))
    · unfold Reader.onto
      dsimp only
      rwa [takeWhile_append hStops]
  · rw [not_or, not_le] at hNone
    rcases hPairs hNone.1 hNone.2 with ⟨hLess, hKeys⟩
    have hLine := (firstLine_begins newline r.text).length_le
    rw [List.drop_append_of_le_length (by omega)] at hKeys
    have hRest : Ended (r.text.drop
        ((r.text.takeWhile Decimal.isDigit).length + 1))
          more :=
      hEnd.imp_right fun hIn => mem_drop_of_lt hIn hLess
    have hMore : r.text.drop
        ((r.text.takeWhile Decimal.isDigit).length + 1) ≠
          [] := by
      intro hNil
      have hLe := List.drop_eq_nil_iff.mp hNil
      omega
    have hDigit : r.text.takeWhile Decimal.isDigit ≠ [] :=
      fun hNil => hNone.1 (by rw [hNil]; rfl)
    rcases KeyValueGood.moves (r := { r with
      curr := r.curr.map fun c =>
        { c with record :=
          { c.record with devid := atoll r.text } }
      text := r.text.drop
        ((r.text.takeWhile Decimal.isDigit).length + 1) })
      hKeys hRest hMore with ⟨hInside, hMoves⟩
    refine ⟨⟨hStops, fun _ hLong => ⟨hLong, hInside⟩⟩,
      hMoves.step ?_ ?_ ⟨rfl, rfl⟩ ?_ ?_⟩
    · unfold Reader.readDevId
      dsimp only
      rw [if_neg (by omega)]
      rfl
    · intro q
      have hAtoll : atoll (r.text ++ more) = atoll r.text := by
        rw [atoll_digits hDigit, atoll_digits,
          takeWhile_append hStops]
        rwa [takeWhile_append hStops]
      unfold Reader.readDevId Reader.update Reader.onto
      dsimp only
      rw [takeWhile_append hStops, hAtoll,
        List.drop_append_of_le_length (by omega),
        if_neg (by omega)]
    · exact fun hIn => mem_drop_of_lt hIn hLess
    · exact (List.drop_suffix _ _).length_le

section Line

variable {uuidParse : List UInt8 → Option (List UInt8)}

theorem FsidGood.moves
    (hGood : FsidGood uuidParse (firstLine newline)
      (r.text ++ more))
    (hEnd : Ended r.text more) :
    FsidGood uuidParse id r.text ∧
      Moves (Reader.readFsid uuidParse) r more := by
  rcases hGood with ⟨hColon, hDev⟩
  have hStops := hEnd.stops hColon
  have hSome : r.text ≠ [] := by
    rintro hNil
    rw [hNil] at hStops
    rcases hStops with ⟨_, hIn, _⟩
    cases hIn
  have hText : ∀ q : Reader,
      (q.onto more r).text = r.text ++ more := fun _ => rfl
  have hSkip := skip_moves hEnd hSome
  rw [takeWhile_append hStops] at hDev
  unfold FsidGood
  set j := (r.text.takeWhile fun b =>
    decide (b ≠ colon)).length with hj
  have hIn : newline ∈ r.text → newline ∈ r.text.drop (j + 1) := by
    intro hLine
    have hFrom := hEnd.mem_dropWhile hColon hLine
    have hHead := List.head_dropWhile_not
      (fun b => decide (b ≠ colon)) (List.ne_nil_of_mem hFrom)
    rw [← List.tail_drop, hj, drop_takeWhile]
    cases hRest : r.text.dropWhile
        (fun b => decide (b ≠ colon)) with
    | nil =>
        rw [hRest] at hFrom
        cases hFrom
    | cons c rest =>
        simp only [hRest, List.head_cons,
          decide_eq_false_iff_not, not_not] at hHead
        rw [hRest] at hFrom
        refine (List.mem_cons.mp hFrom).resolve_left ?_
        rw [hHead]
        decide
  have hShort : r.text.length ≤ j + 1 ↔
      (r.text ++ more).length ≤ j + 1 := by
    rcases hEnd with rfl | hLine
    · rw [List.append_nil]
    · have hSome := List.ne_nil_of_mem (hIn hLine)
      rw [Ne, List.drop_eq_nil_iff] at hSome
      rw [List.length_append]
      omega
  by_cases hLong : r.text.length ≤ j + 1
  · refine ⟨⟨hStops, fun hLess => absurd hLong
      (not_le.mpr hLess)⟩, hSkip.congr ?_ fun q => ?_⟩
    · unfold Reader.readFsid
      rw [if_neg hSome]
      exact if_pos hLong
    · unfold Reader.readFsid
      rw [if_neg (by rw [hText]; simp [hSome]), hText,
        takeWhile_append hStops]
      exact if_pos (hShort.mp hLong)
  · by_cases hLength : j = 36
    · have hDrop : (r.text ++ more).drop 37 =
          r.text.drop 37 ++ more :=
        List.drop_append_of_le_length (by omega)
      have hTake : (r.text ++ more).take 36 =
          r.text.take 36 :=
        List.take_append_of_le_length (by omega)
      rw [hDrop, hTake] at hDev
      rw [hLength] at hIn
      have hRead : ∀ q : Reader, (q.onto more r).readFsid
          uuidParse =
            (uuidParse (r.text.take 36)).elim
              (q.onto more
                { r with text := r.text.set 36 0 }).skip
              fun fsid =>
                (q.onto more { r.update fun c =>
                    { c with fsid := fsid } with
                  text := r.text.drop 37 }).readDevId := by
        intro q
        unfold Reader.readFsid
        rw [if_neg (by rw [hText]; simp [hSome]), hText,
          takeWhile_append hStops]
        dsimp only
        rw [if_neg (hShort.not.mp hLong),
          if_neg (not_not.mpr hLength), hTake]
        cases uuidParse (r.text.take 36) with
        | none =>
            unfold Reader.onto
            dsimp only
            rw [List.set_append_left _ _ (by omega)]
            rfl
        | some fsid =>
            unfold Reader.onto Reader.update
            dsimp only
            rw [hDrop]
            rfl
      have hHere : r.readFsid uuidParse =
            (uuidParse (r.text.take 36)).elim
              { r with text := r.text.set 36 0 }.skip
              fun fsid =>
                { r.update fun c => { c with fsid := fsid } with
                  text := r.text.drop 37 }.readDevId := by
        unfold Reader.readFsid
        rw [if_neg hSome]
        dsimp only
        rw [if_neg hLong, if_neg (not_not.mpr hLength)]
        cases uuidParse (r.text.take 36) <;> rfl
      cases hUuid : uuidParse (r.text.take 36) with
      | none =>
          rw [hUuid] at hHere hRead
          have hSet : newline ∈ r.text →
              newline ∈ r.text.set 36 0 := by
            intro hLine
            have hAfter := hIn hLine
            rw [← List.drop_set_of_lt (i := 36) (a := 0)
              (Nat.lt_succ_self 36)] at hAfter
            exact List.mem_of_mem_drop hAfter
          have hMoves := skip_moves
            (r := { r with text := r.text.set 36 0 })
            (hEnd.imp_right hSet) (by simpa using hSome)
          refine ⟨⟨hStops, fun _ _ hIs => ?_⟩,
            hMoves.step hHere hRead ⟨rfl, rfl⟩ hSet
              (by simp)⟩
          cases hIs
      | some fsid =>
          rw [hUuid] at hHere hRead
          rcases DevIdGood.moves (r :=
            { r.update fun c => { c with fsid := fsid } with
              text := r.text.drop 37 })
            (hDev (not_le.mp (hShort.not.mp hLong)) hLength
              (by rw [hUuid]; rfl))
            (hEnd.imp_right hIn) with ⟨hInside, hMoves⟩
          exact ⟨⟨hStops, fun _ _ _ => hInside⟩,
            hMoves.step hHere hRead ⟨rfl, rfl⟩ hIn
              (List.drop_suffix _ _).length_le⟩
    · refine ⟨⟨hStops, fun _ hIs => absurd hIs hLength⟩,
        hSkip.congr ?_ fun q => ?_⟩
      · unfold Reader.readFsid
        rw [if_neg hSome]
        dsimp only
        rw [if_neg hLong, if_pos hLength]
      · unfold Reader.readFsid
        rw [if_neg (by rw [hText]; simp [hSome]), hText,
          takeWhile_append hStops]
        dsimp only
        rw [if_neg (hShort.not.mp hLong), if_pos hLength]

----------
-- Turns
----------

/- What is left of a text, with the start of a line. -/
def size
    (r : Reader) : Nat :=
  2 * r.text.length +
    if r.state = .startOfLine then 1 else 0

/-
  A turn in a line, for any sizes, and with what is behind the
  line in the buffer.
-/
def Follows
    (uuidParse : List UInt8 → Option (List UInt8))
    (r : Reader)
    (more : List UInt8)
    (turn : Reader → Reader ⊕ Records)
    (turn' : Reader → Reader ⊕ Records) : Prop :=
  Inside uuidParse r ∧
    ∃ b, turn r = .inl b ∧
      (∀ q : Reader, q.eof = true →
        turn' (q.onto more r) = .inl (q.onto more b)) ∧
        (b.rest = r.rest ∧ b.eof = r.eof) ∧
          b.state ≠ .startOfFile ∧
            (newline ∈ r.text →
              b.state = .startOfLine ∨ newline ∈ b.text) ∧
              size b < size r

theorem Moves.follows
    {f : Reader → Reader}
    {g g' : Reader → Reader ⊕ Records}
    {b : Reader}
    (hMoves : Moves f b more)
    (hInside : Inside uuidParse r)
    (hTurn : g r = .inl (f b))
    (hOnto : ∀ q : Reader, q.eof = true →
      g' (q.onto more r) = .inl (f (q.onto more b)))
    (hKeeps : b.rest = r.rest ∧ b.eof = r.eof)
    (hText : b.text = r.text) :
    Follows uuidParse r more g g' := by
  have hShorter := hMoves.shorter
  refine ⟨hInside, f b, hTurn, ?_,
    ⟨hMoves.keeps.1.trans hKeeps.1,
      hMoves.keeps.2.trans hKeeps.2⟩, hMoves.begun, ?_, ?_⟩
  · intro q hEof
    rw [hOnto q hEof, hMoves.onto]
  · rw [← hText]
    exact hMoves.line
  · unfold size
    rw [← hText]
    split_ifs <;> omega

/- Skipping the space goes on with the fsid. -/
theorem SpaceGood.moves
    (hGood : SpaceGood uuidParse (firstLine newline) true
      (r.text ++ more))
    (hEnd : Ended r.text more)
    (hDone : r.eof = true ∨ newline ∈ r.text) :
    SpaceGood uuidParse id r.eof r.text ∧
      ∃ f, Moves f r more ∧
        (∀ sizes, r.skipSpace uuidParse sizes = .inl (f r)) ∧
          ∀ sizes, ∀ q : Reader, q.eof = true →
            (q.onto more r).skipSpace uuidParse sizes =
              .inl (f (q.onto more r)) := by
  rcases hGood with ⟨hSpace, hFsid⟩
  have hStops := hEnd.stops hSpace
  have hSome := stops_iff.mp hStops
  have hRest := hFsid (.inl rfl)
  rw [dropWhile_append hStops] at hRest
  rcases FsidGood.moves
    (r := { r with text := r.text.dropWhile isSpace }) hRest
    (hEnd.dropWhile hSpace) with ⟨hInside, hMoves⟩
  have hOn : r.eof = true ∨
      newline ∈ r.text.dropWhile isSpace :=
    hDone.imp_right (hEnd.mem_dropWhile hSpace)
  refine ⟨⟨hStops, fun _ => hInside⟩,
    fun r => Reader.readFsid uuidParse
      { r with text := r.text.dropWhile isSpace },
    hMoves.step rfl ?_ ⟨rfl, rfl⟩ (hEnd.mem_dropWhile hSpace)
      (List.dropWhile_suffix _).length_le, ?_, ?_⟩
  · intro q
    unfold Reader.onto
    dsimp only
    rw [dropWhile_append hStops]
  · intro sizes
    refine if_neg ?_
    rintro (hNil | ⟨hEof, hNone⟩)
    · exact hSome hNil
    · rcases hOn with hIs | hIn
      · rw [hIs] at hEof
        cases hEof
      · exact hNone hIn
  · intro sizes q hEof
    refine if_neg ?_
    rintro (hNil | ⟨hNot, _⟩)
    · change (r.text ++ more).dropWhile isSpace = [] at hNil
      rw [dropWhile_append hStops, List.append_eq_nil_iff]
        at hNil
      exact hSome hNil.1
    · change q.eof = false at hNot
      rw [hEof] at hNot
      cases hNot

theorem Follows.congr
    {f f' g g' : Reader → Reader ⊕ Records}
    (hFollows : Follows uuidParse r more g g')
    (hStep : f r = g r)
    (hOnto : ∀ q : Reader,
      f' (q.onto more r) = g' (q.onto more r)) :
    Follows uuidParse r more f f' := by
  rcases hFollows with ⟨hInside, b, hTurn, hTurns, hRest⟩
  exact ⟨hInside, b, hStep.trans hTurn, fun q hEof =>
    (hOnto q).trans (hTurns q hEof), hRest⟩

/- A line begins with a record for it. -/
theorem startOfLine_follows
    (sizes sizes' : Nat → Nat)
    (hState : r.state = .startOfLine)
    (hGood :
      (∀ c, r.curr = some c → c.fsid ≠ FileRecord.zero.fsid) →
        SpaceGood uuidParse (firstLine newline) true
          (r.text ++ more))
    (hEnd : Ended r.text more)
    (hDone : r.eof = true ∨ newline ∈ r.text) :
    Follows uuidParse r more
      (Reader.startOfLine uuidParse sizes)
      (Reader.startOfLine uuidParse sizes') := by
  have hHere : ¬ (r.eof = false ∧ newline ∉ r.text) := by
    rintro ⟨hEof, hNone⟩
    rcases hDone with hIs | hIn
    · rw [hIs] at hEof
      cases hEof
    · exact hNone hIn
  have hOnto : ∀ q : Reader, q.eof = true →
      ¬ ((q.onto more r).eof = false ∧
        newline ∉ (q.onto more r).text) := by
    rintro q hEof ⟨hNot, _⟩
    change q.eof = false at hNot
    rw [hEof] at hNot
    cases hNot
  by_cases hFresh : ∀ c, r.curr = some c →
      c.fsid ≠ FileRecord.zero.fsid
  · -- a record is made for the line
    rcases SpaceGood.moves
      (r := { r with
        state := .skipSpace
        past := r.past ++ r.curr.toList
        curr := some FileRecord.zero })
      (hGood hFresh) hEnd hDone with
      ⟨hInside, f, hMoves, hTurn, hTurns⟩
    refine hMoves.follows ?_ ?_ ?_ ⟨rfl, rfl⟩ rfl
    · intro _
      rw [hState]
      exact fun _ _ => hInside
    · unfold Reader.startOfLine
      rw [if_neg hHere, ← hTurn sizes]
      cases hCurr : r.curr with
      | none => simp
      | some c => exact if_neg (hFresh c hCurr)
    · intro q hEof
      unfold Reader.startOfLine
      rw [if_neg (hOnto q hEof), ← hTurns sizes' q hEof]
      have hOld : (q.onto more r).curr = r.curr := rfl
      rw [hOld]
      cases hCurr : r.curr with
      | none =>
          unfold Reader.onto
          simp
      | some c => exact if_neg (hFresh c hCurr)
  · -- the last record is used again
    simp only [not_forall, not_not] at hFresh
    rcases hFresh with ⟨c, hCurr, hZero⟩
    refine ⟨?_, { r with state := .skipSpace }, ?_, ?_,
      ⟨rfl, rfl⟩, by simp, fun hIn => .inr hIn, ?_⟩
    · intro _
      rw [hState]
      exact fun _ hNot => absurd hZero (hNot c hCurr)
    · unfold Reader.startOfLine
      rw [if_neg hHere, hCurr]
      exact if_pos hZero
    · intro q hEof
      unfold Reader.startOfLine
      rw [if_neg (hOnto q hEof)]
      have hOld : (q.onto more r).curr = r.curr := rfl
      rw [hOld, hCurr]
      refine (if_pos hZero).trans ?_
      unfold Reader.onto
      rw [hCurr]
    · unfold size
      rw [if_pos hState, if_neg (by simp)]
      exact Nat.lt_succ_self _

/- A turn with text in the buffer, a whole line of it. -/
theorem turn_follows
    {q : Reader}
    (sizes sizes' : Nat → Nat)
    (hState : r.state ≠ .startOfFile)
    (hSome : r.text ≠ [])
    (hEof : q.eof = true)
    (hGood : Good uuidParse (firstLine newline)
      (q.onto more r))
    (hEnd : Ended r.text more)
    (hDone : r.eof = true ∨ newline ∈ r.text) :
    Follows uuidParse r more (turn uuidParse sizes)
      (turn uuidParse sizes') := by
  have hHere : ∀ sizes, turn uuidParse sizes r =
      match r.state with
      | .startOfFile => r.startOfFile
      | .startOfLine => r.startOfLine uuidParse sizes
      | .skipSpace => r.skipSpace uuidParse sizes
      | .readFsid => .inl (r.readFsid uuidParse)
      | .readDevId => .inl r.readDevId
      | .readKeyValue => .inl r.readKeyValue
      | .afterNumber => .inl r.afterNumber
      | .skipRest => .inl r.skip :=
    fun _ => if_neg hSome
  have hMore : ∀ q : Reader, (q.onto more r).text ≠ [] := by
    intro q hNil
    exact hSome (List.append_eq_nil_iff.mp hNil).1
  have hThere : ∀ q : Reader, turn uuidParse sizes'
      (q.onto more r) =
        match r.state with
        | .startOfFile => (q.onto more r).startOfFile
        | .startOfLine =>
            (q.onto more r).startOfLine uuidParse sizes'
        | .skipSpace =>
            (q.onto more r).skipSpace uuidParse sizes'
        | .readFsid => .inl ((q.onto more r).readFsid uuidParse)
        | .readDevId => .inl (q.onto more r).readDevId
        | .readKeyValue => .inl (q.onto more r).readKeyValue
        | .afterNumber => .inl (q.onto more r).afterNumber
        | .skipRest => .inl (q.onto more r).skip :=
    fun q => if_neg (hMore q)
  have hTurn := hGood (hMore q)
  cases hCase : r.state with
  | startOfFile => exact absurd hCase hState
  | startOfLine =>
      simp only [Reader.onto, hCase, hEof, true_or,
        forall_const] at hTurn
      simp only [hCase] at hHere hThere
      exact (startOfLine_follows sizes sizes' hCase hTurn hEnd
        hDone).congr (hHere sizes) hThere
  | skipSpace =>
      simp only [Reader.onto, hCase, hEof] at hTurn
      simp only [hCase] at hHere hThere
      rcases SpaceGood.moves hTurn hEnd hDone with
        ⟨hInside, f, hMoves, hStep, hSteps⟩
      refine hMoves.follows (fun _ => ?_)
        ((hHere sizes).trans (hStep sizes))
        (fun q hq => (hThere q).trans (hSteps sizes' q hq))
        ⟨rfl, rfl⟩ rfl
      rw [hCase]
      exact hInside
  | readFsid =>
      simp only [Reader.onto, hCase] at hTurn
      simp only [hCase] at hHere hThere
      rcases FsidGood.moves hTurn hEnd with ⟨hInside, hMoves⟩
      refine hMoves.follows (fun _ => ?_) (hHere sizes)
        (fun q _ => hThere q) ⟨rfl, rfl⟩ rfl
      rw [hCase]
      exact hInside
  | readDevId =>
      simp only [Reader.onto, hCase] at hTurn
      simp only [hCase] at hHere hThere
      rcases DevIdGood.moves hTurn hEnd with ⟨hInside, hMoves⟩
      refine hMoves.follows (fun _ => ?_) (hHere sizes)
        (fun q _ => hThere q) ⟨rfl, rfl⟩ rfl
      rw [hCase]
      exact hInside
  | readKeyValue =>
      simp only [Reader.onto, hCase] at hTurn
      simp only [hCase] at hHere hThere
      rcases KeyValueGood.moves hTurn.2 hEnd hSome with
        ⟨hInside, hMoves⟩
      refine hMoves.follows (fun _ => ?_) (hHere sizes)
        (fun q _ => hThere q) ⟨rfl, rfl⟩ rfl
      rw [hCase]
      exact ⟨hTurn.1, hInside⟩
  | afterNumber =>
      simp only [hCase] at hHere hThere
      refine (afterNumber_moves hEnd hSome).follows
        (fun _ => ?_) (hHere sizes) (fun q _ => hThere q)
        ⟨rfl, rfl⟩ rfl
      rw [hCase]
      trivial
  | skipRest =>
      simp only [hCase] at hHere hThere
      refine (skip_moves hEnd hSome).follows (fun _ => ?_)
        (hHere sizes) (fun q _ => hThere q) ⟨rfl, rfl⟩ rfl
      rw [hCase]
      trivial

end Line

end Steps

end StatusFile

end Scrub

end BtrfsProgs
