import BtrfsProgs.Scrub.StatusText

/-
  What `scrub_read_file` makes of a line that is whole in its
  buffer.

  Main declarations:
    * `atoll_lld`
    * `scrubKvread_key` and `kvreadFirst_key`
    * `fill` and `readLine`
    * `comes_pairs` and `comes_line`
-/

----------
-- Numbers
----------

namespace BtrfsProgs

namespace Scrub

namespace StatusFile

section Numbers

variable {v : Nat} {stop : UInt8} {more : List UInt8}

/- The digits that a printed value starts with. -/
theorem takeWhile_lld
    (hLt : v < 2 ^ 64)
    (hStop : Decimal.isDigit stop = false) :
    (lld v ++ stop :: more).takeWhile Decimal.isDigit =
      if v < 2 ^ 63 then Decimal.text v else [] := by
  split
  case isTrue hSmall =>
      rw [lld_of_lt hSmall]
      exact Decimal.takeWhile_text hStop
  case isFalse hLarge =>
      rw [lld_of_le (by omega) hLt]
      rfl

theorem not_isSpace_of_digit
    {b : UInt8}
    (hDigit : Decimal.isDigit b) : isSpace b = false := by
  unfold Decimal.isDigit at hDigit
  have hRange := of_decide_eq_true hDigit
  unfold isSpace
  exact decide_eq_false (by omega)

/- `atoll` of what `%lld` printed. -/
theorem atoll_lld
    (hLt : v < 2 ^ 64)
    (hStop : Decimal.isDigit stop = false) :
    atoll (lld v ++ stop :: more) = v := by
  by_cases hSmall : v < 2 ^ 63
  · have hText : ∃ b bs, Decimal.text v = b :: bs :=
      List.exists_cons_of_ne_nil (Decimal.text_ne_nil v)
    rcases hText with ⟨b, bs, hText⟩
    have hDigit : Decimal.isDigit b :=
      Decimal.isDigit_of_mem_text (n := v)
        (by rw [hText]; exact List.mem_cons_self)
    have hDigits : (Decimal.text v ++ stop :: more).takeWhile
        Decimal.isDigit = Decimal.text v :=
      Decimal.takeWhile_text hStop
    have hValue := Decimal.value_text v
    rw [lld_of_lt hSmall]
    rw [hText] at hDigits hValue ⊢
    have hSigns : b ≠ minus ∧ b ≠ 43 := by
      constructor <;> rintro rfl <;>
        exact absurd hDigit (by decide)
    unfold atoll
    rw [List.cons_append, List.dropWhile_cons_of_neg
      (by rw [not_isSpace_of_digit hDigit]; decide)]
    rw [List.cons_append] at hDigits
    simp only [List.head?_cons, Option.some.injEq, hSigns.1,
      hSigns.2, if_false, hDigits, hValue]
    omega
  · have hDigits : (Decimal.text (2 ^ 64 - v) ++
        stop :: more).takeWhile Decimal.isDigit =
          Decimal.text (2 ^ 64 - v) :=
      Decimal.takeWhile_text hStop
    have hValue := Decimal.value_text (2 ^ 64 - v)
    rw [lld_of_le (by omega) hLt]
    unfold atoll
    rw [List.cons_append, List.dropWhile_cons_of_neg
      (by decide)]
    simp only [List.head?_cons, if_true, List.tail_cons,
      hDigits, hValue]
    omega

end Numbers

----------
-- Keys
----------

section Keys

variable {f : Field} {v : Nat} {stop : UInt8}
variable {more : List UInt8}

/- What is left behind a value: of a negative one, all. -/
def afterValue
    (v : Nat)
    (more : List UInt8) : List UInt8 :=
  if v < 2 ^ 63 then more else lld v ++ more

theorem scrubKvread_key
    {key : List UInt8}
    (hLt : v < 2 ^ 64)
    (hStop : Decimal.isDigit stop = false) :
    scrubKvread key
        (key ++ colon :: (lld v ++ stop :: more)) =
      .read v (afterValue v (stop :: more)) := by
  have hPos := List.length_pos_iff.mpr (lld_ne_nil v)
  have hTake : (lld v ++ stop :: more).takeWhile
      Decimal.isDigit =
        if v < 2 ^ 63 then Decimal.text v else [] :=
    takeWhile_lld hLt hStop
  unfold scrubKvread
  rw [if_pos ⟨by simp; omega, List.prefix_append _ _⟩]
  simp only [List.drop_left, List.head?_cons, ne_eq,
    not_true_eq_false, if_false, List.tail_cons, hTake,
    atoll_lld hLt hStop]
  unfold afterValue
  by_cases hSmall : v < 2 ^ 63
  · simp only [hSmall, if_true]
    rw [lld_of_lt hSmall, List.drop_left, if_neg]
    rw [List.length_append, List.length_cons]
    omega
  · simp only [hSmall, if_false, List.length_nil,
      List.drop_zero]
    rw [if_neg]
    rw [List.length_append, List.length_cons]
    omega

/- A text without a colon that starts another one with it. -/
theorem prefix_of_prefix_colon
    {key other rest : List UInt8}
    (hPlain : colon ∉ key)
    (hPrefix : key <+: other ++ colon :: rest) :
    key <+: other := by
  have hOther : other ++ [colon] <+: other ++ colon :: rest :=
    ⟨rest, by rw [List.append_assoc]; rfl⟩
  have hColon : colon ∈ other ++ [colon] :=
    List.mem_append_right _ List.mem_cons_self
  rcases List.prefix_or_prefix_of_prefix hPrefix hOther with
    hShort | hLong
  · rcases List.prefix_concat_iff.mp hShort with hAll | hLess
    · rw [← hAll] at hColon
      exact absurd hColon hPlain
    · exact hLess
  · exact absurd (hLong.subset hColon) hPlain

/- No key starts another one. -/
theorem eq_of_key_prefix
    {g f : Field}
    (hPrefix : g.key <+: f.key) : g = f := by
  have hAll : ∀ g ∈ writeOrder, ∀ f ∈ writeOrder,
      g.key <+: f.key → g = f := by
    decide
  exact hAll g (mem_writeOrder g) f (mem_writeOrder f) hPrefix

theorem key_no_colon
    (f : Field) : colon ∉ f.key := by
  have hAll : ∀ f ∈ writeOrder, colon ∉ f.key := by
    decide
  exact hAll f (mem_writeOrder f)

theorem mem_readOrder
    (f : Field) : f ∈ readOrder := by
  cases f with
  | counter c => cases c <;> decide
  | tStart => decide
  | tResumed => decide
  | duration => decide
  | finished => decide
  | canceled => decide

/- The key that matches is that of the pair. -/
theorem kvreadFirst_key
    {fs : List Field}
    (hLt : v < 2 ^ 64)
    (hStop : Decimal.isDigit stop = false)
    (hMem : f ∈ fs) :
    kvreadFirst
        (f.key ++ colon :: (lld v ++ stop :: more)) fs =
      some (f, .read v (afterValue v (stop :: more))) := by
  induction fs with
  | nil => cases hMem
  | cons g fs ih =>
      unfold kvreadFirst
      by_cases hSame : g = f
      · rw [hSame, scrubKvread_key hLt hStop]
      · have hOther : ¬g.key <+:
            f.key ++ colon :: (lld v ++ stop :: more) :=
          fun hPrefix => hSame ( eq_of_key_prefix
            (prefix_of_prefix_colon (key_no_colon g) hPrefix))
        have hNone : scrubKvread g.key
            (f.key ++ colon :: (lld v ++ stop :: more)) =
              .noMatch :=
          if_neg fun hBoth => hOther hBoth.2
        rw [hNone]
        rcases List.mem_cons.mp hMem with hHead | hTail
        · exact absurd hHead.symm hSame
        · exact ih hTail

end Keys

----------
-- The Pairs of a Line
----------

/- The values that come into a record: up to a negative one. -/
def fill : List (Field × Nat) → Record → Record
  | [], rec => rec
  | p :: ps, rec =>
      if p.2 < 2 ^ 63 then fill ps (p.1.set p.2 rec)
      else p.1.set p.2 rec

/- A record with the values of some pairs. -/
def FileRecord.fill
    (ps : List (Field × Nat))
    (c : FileRecord) : FileRecord :=
  { c with record := StatusFile.fill ps c.record }

section Pairs

variable {r : Reader} {more : List UInt8}

/- The rest of a line is skipped. -/
theorem skip_line
    {front : List UInt8}
    (hText : r.text = front ++ newline :: more)
    (hFront : ∀ b ∈ front, b ≠ newline) :
    r.skip =
      { r with state := .startOfLine, text := more } := by
  have hDrop : r.text.dropWhile (· ≠ newline) =
      newline :: more := by
    rw [hText, List.dropWhile_append_of_pos
      fun b hMem => by simpa using hFront b hMem]
    exact List.dropWhile_cons_of_neg (by simp)
  unfold Reader.skip
  rw [hDrop]

/- A pair is read, and then what is behind its value. -/
theorem readKeyValue_eq
    {f : Field}
    {v : Nat}
    {stop : UInt8}
    (hLt : v < 2 ^ 64)
    (hStop : Decimal.isDigit stop = false)
    (hText : r.text =
      f.key ++ colon :: (lld v ++ stop :: more)) :
    r.readKeyValue =
      Reader.afterNumber
        { r with
          text := afterValue v (stop :: more)
          curr := r.curr.map fun c =>
            { c with record := f.set v c.record } } := by
  unfold Reader.readKeyValue
  rw [hText, kvreadFirst_key hLt hStop (mem_readOrder f)]
  rfl

/- Behind a negative value, the line is skipped. -/
theorem afterNumber_negative
    {v : Nat}
    {front : List UInt8}
    (hLarge : 2 ^ 63 ≤ v)
    (hLt : v < 2 ^ 64)
    (hText : r.text = lld v ++ (front ++ newline :: more))
    (hFront : ∀ b ∈ front, b ≠ newline) :
    r.afterNumber =
      { r with state := .startOfLine, text := more } := by
  have hSkip : r.skip =
      { r with state := .startOfLine, text := more } := by
    rw [← List.append_assoc] at hText
    refine skip_line hText fun b hMem => ?_
    rcases List.mem_append.mp hMem with hValue | hRest
    · exact lld_no_newline v b hValue
    · exact hFront b hRest
  have hHead : r.text = minus ::
      (Decimal.text (2 ^ 64 - v) ++
        (front ++ newline :: more)) := by
    rw [hText, lld_of_le hLarge hLt]
    rfl
  unfold Reader.afterNumber
  rw [hHead]
  exact hSkip

variable {uuidParse : List UInt8 → Option (List UInt8)}
variable {sizes : Nat → Nat}

theorem turn_readKeyValue
    (hState : r.state = .readKeyValue)
    (hText : r.text ≠ []) :
    turn uuidParse sizes r = .inl r.readKeyValue := by
  unfold turn
  rw [if_neg hText, hState]

theorem turn_skipRest
    (hState : r.state = .skipRest)
    (hText : r.text ≠ []) :
    turn uuidParse sizes r = .inl r.skip := by
  unfold turn
  rw [if_neg hText, hState]

/-
  From a key on, the reader comes to the next line with the
  values in its record. The induction is on the pairs that
  follow.
-/
theorem comes_pairs
    {p : Field × Nat}
    {ps : List (Field × Nat)}
    (hBound : ∀ q ∈ p :: ps, q.2 < 2 ^ 64)
    (hText : r.text = p.1.key ++ colon :: (lld p.2 ++
      (ps.flatMap pairText ++ newline :: more))) :
    Loop.Comes (turn uuidParse sizes) r.readKeyValue
      { r with
        state := .startOfLine
        text := more
        curr := r.curr.map (FileRecord.fill (p :: ps)) } := by
  have hLt := hBound p List.mem_cons_self
  induction ps generalizing p r with
  | nil =>
      rw [readKeyValue_eq hLt (by decide) hText]
      unfold afterValue FileRecord.fill fill
      by_cases hSmall : p.2 < 2 ^ 63
      · simp only [hSmall, if_true]
        exact .refl _
      · simp only [hSmall, if_false]
        rw [afterNumber_negative (by omega) hLt
          (congrArg (lld p.2 ++ ·)
            (List.nil_append _).symm) (by simp)]
        exact .refl _
  | cons q ps ih =>
      have hRest : ∀ q' ∈ q :: ps, q'.2 < 2 ^ 64 :=
        fun q' hMem =>
          hBound q' (List.mem_cons_of_mem p hMem)
      have hNext : (q :: ps).flatMap pairText ++
          newline :: more =
            bar :: (q.1.key ++ colon :: (lld q.2 ++
              (ps.flatMap pairText ++ newline :: more))) := by
        simp [pairText]
      have hHere := hText
      rw [hNext] at hHere
      rw [readKeyValue_eq hLt (by decide) hHere]
      unfold afterValue FileRecord.fill
      unfold fill
      by_cases hSmall : p.2 < 2 ^ 63
      · simp only [hSmall, if_true]
        -- the bar leads to the next key
        have hTail := ih (p := q) (r := { r with
          state := .readKeyValue
          text := q.1.key ++ colon :: (lld q.2 ++
            (ps.flatMap pairText ++ newline :: more))
          curr := r.curr.map fun c =>
            { c with record := p.1.set p.2 c.record } })
          hRest rfl (hRest q List.mem_cons_self)
        dsimp only at hTail
        rw [Option.map_map] at hTail
        have hSome : q.1.key ++ colon :: (lld q.2 ++
            (ps.flatMap pairText ++ newline :: more)) ≠ [] :=
          List.append_ne_nil_of_right_ne_nil _
            (List.cons_ne_nil _ _)
        exact Loop.Comes.head (turn_readKeyValue rfl hSome)
          hTail
      · simp only [hSmall, if_false]
        rw [afterNumber_negative
          (v := p.2) (by omega) hLt
          (congrArg (lld p.2 ++ ·) hNext).symm (pairs_no_newline _)]
        exact .refl _

end Pairs

----------
-- A Line
----------

/- The text of an fsid, as `uuid_unparse` gives it. -/
structure FsidText
    (uuidParse : List UInt8 → Option (List UInt8)) where
  text : List UInt8
  fsid : List UInt8
  parse_text : uuidParse text = some fsid
  length_text : text.length = 36
  plain : ∀ b ∈ text,
    b ≠ colon ∧ b ≠ newline ∧ isSpace b = false

/- `uuid_parse` of a text that stands for one fsid. -/
def someText : List UInt8 :=
  ascii "1b4e28ba-2fa1-11d2-883f-0016d3cca427"

def someBytes : List UInt8 :=
  [27, 78, 40, 186, 47, 161, 17, 210, 136, 63, 0, 22, 211,
    204, 164, 39]

def someUuid
    (text : List UInt8) : Option (List UInt8) :=
  if text = someText then some someBytes else none

/- A record after a line was read into it. -/
def readLine
    (fsid : List UInt8)
    (rec : Record)
    (c : FileRecord) : FileRecord :=
  if rec.devid < 2 ^ 63 then
    FileRecord.fill (pairsOf rec)
      { c with
        fsid := fsid
        record := { c.record with devid := rec.devid } }
  else { c with fsid := fsid }

/- The values of a record have 64 bits. -/
def InU64
    (rec : Record) : Prop :=
  rec.devid < 2 ^ 64 ∧ ∀ f : Field, f.get rec < 2 ^ 64

section Line

variable {uuidParse : List UInt8 → Option (List UInt8)}
variable {sizes : Nat → Nat} {r : Reader}
variable {more : List UInt8} {rec : Record}

/- The pairs of a record, with the first one apart. -/
theorem exists_pairsOf
    (rec : Record) :
    ∃ p ps, pairsOf rec = p :: ps :=
  ⟨_, _, rfl⟩

theorem pairsOf_lt
    (hBound : InU64 rec) :
    ∀ q ∈ pairsOf rec, q.2 < 2 ^ 64 := by
  intro q hMem
  rcases List.mem_map.mp hMem with ⟨f, -, rfl⟩
  exact hBound.2 f

theorem comes_readDevId
    (hBound : InU64 rec)
    (hText : r.text = lld rec.devid ++
      ((pairsOf rec).flatMap pairText ++ newline :: more)) :
    Loop.Comes (turn uuidParse sizes) r.readDevId
      { r with
        state := .startOfLine
        text := more
        curr := r.curr.map fun c =>
          if rec.devid < 2 ^ 63 then
            FileRecord.fill (pairsOf rec)
              { c with
                record := { c.record with
                  devid := rec.devid } }
          else c } := by
  rcases exists_pairsOf rec with ⟨p, ps, hPairs⟩
  have hHere : r.text = lld rec.devid ++
      bar :: (p.1.key ++ colon :: (lld p.2 ++
        (ps.flatMap pairText ++ newline :: more))) := by
    rw [hText, hPairs]
    simp [pairText]
  have hDigits : r.text.takeWhile Decimal.isDigit =
      if rec.devid < 2 ^ 63 then Decimal.text rec.devid
      else [] := by
    rw [hHere]
    exact takeWhile_lld hBound.1 (by decide)
  unfold Reader.readDevId
  by_cases hSmall : rec.devid < 2 ^ 63
  · rw [if_pos hSmall] at hDigits
    have hPos := List.length_pos_iff.mpr
      (Decimal.text_ne_nil rec.devid)
    have hLen := congrArg List.length hHere
    rw [lld_of_lt hSmall, List.length_append,
      List.length_cons, List.length_append,
      List.length_cons] at hLen
    have hDrop : r.text.drop
        ((Decimal.text rec.devid).length + 1) =
          p.1.key ++ colon :: (lld p.2 ++
            (ps.flatMap pairText ++ newline :: more)) := by
      have hSplit : r.text =
          (Decimal.text rec.devid ++ [bar]) ++
            (p.1.key ++ colon :: (lld p.2 ++
              (ps.flatMap pairText ++ newline :: more))) := by
        rw [hHere, lld_of_lt hSmall, List.append_assoc]
        rfl
      rw [hSplit]
      exact List.drop_left' (by simp)
    have hAtoll : atoll r.text = rec.devid := by
      rw [hHere]
      exact atoll_lld hBound.1 (by decide)
    have hBounds := pairsOf_lt hBound
    rw [hPairs] at hBounds ⊢
    have hPairsRead : Loop.Comes (turn uuidParse sizes) _ _ :=
      comes_pairs (r := { r with
        text := r.text.drop
          ((Decimal.text rec.devid).length + 1)
        curr := r.curr.map fun c =>
          { c with
            record := { c.record with devid := rec.devid } } })
        hBounds hDrop
    dsimp only at hPairsRead
    rw [Option.map_map] at hPairsRead
    simp only [hDigits, hSmall, if_true]
    rw [if_neg (by omega), hAtoll]
    exact hPairsRead
  · rw [if_neg hSmall] at hDigits
    simp only [hDigits, hSmall, if_false, List.length_nil,
      true_or, if_true, Option.map_id_fun', id_eq]
    have hSkip : r.skip =
        { r with state := .startOfLine, text := more } := by
      rw [← List.append_assoc] at hText
      refine skip_line hText fun b hMem => ?_
      rcases List.mem_append.mp hMem with hValue | hRest
      · exact lld_no_newline _ b hValue
      · exact pairs_no_newline _ b hRest
    rw [hSkip]
    exact .refl _

variable (F : FsidText uuidParse)

theorem FsidText.ne_nil : F.text ≠ [] := by
  intro hNil
  have hLen := F.length_text
  rw [hNil] at hLen
  cases hLen

/- The fsid and what follows it on the line. -/
theorem comes_readFsid
    (hBound : InU64 rec)
    (hText : r.text =
      lineFront F.text rec ++ newline :: more) :
    Loop.Comes (turn uuidParse sizes) (r.readFsid uuidParse)
      { r with
        state := .startOfLine
        text := more
        curr := r.curr.map (readLine F.fsid rec) } := by
  have hHere : r.text = F.text ++ colon ::
      (lld rec.devid ++
        ((pairsOf rec).flatMap pairText ++
          newline :: more)) := by
    rw [hText]
    simp [lineFront]
  have hFront : r.text.takeWhile (· ≠ colon) = F.text := by
    rw [hHere, List.takeWhile_append_of_pos
      fun b hMem => by simpa using (F.plain b hMem).1]
    simp
  have hLen := congrArg List.length hHere
  rw [List.length_append, F.length_text, List.length_cons,
    List.length_append, List.length_append,
    List.length_cons] at hLen
  have hTake : r.text.take 36 = F.text := by
    rw [hHere]
    exact List.take_left' F.length_text
  have hDrop : r.text.drop 37 =
      lld rec.devid ++ ((pairsOf rec).flatMap pairText ++
        newline :: more) := by
    have hSplit : r.text = (F.text ++ [colon]) ++
        (lld rec.devid ++ ((pairsOf rec).flatMap pairText ++
          newline :: more)) := by
      rw [hHere, List.append_assoc]
      rfl
    rw [hSplit]
    apply List.drop_left'
    rw [List.length_append, F.length_text]
    rfl
  have hSome : r.text ≠ [] := by
    rw [hHere]
    exact List.append_ne_nil_of_right_ne_nil _
      (List.cons_ne_nil _ _)
  have hRest : Loop.Comes (turn uuidParse sizes) _ _ :=
    comes_readDevId (r := { r with
      text := r.text.drop 37
      curr := r.curr.map fun c => { c with fsid := F.fsid } })
      hBound hDrop
  dsimp only at hRest
  rw [Option.map_map] at hRest
  unfold Reader.readFsid
  rw [if_neg hSome]
  simp only [hFront, F.length_text]
  rw [if_neg (by omega), if_neg (by decide), hTake,
    F.parse_text]
  have hLine : readLine F.fsid rec = (fun c =>
      if rec.devid < 2 ^ 63 then
        FileRecord.fill (pairsOf rec)
          { c with
            record := { c.record with devid := rec.devid } }
      else c) ∘ fun c : FileRecord =>
        { c with fsid := F.fsid } := by
    funext c
    rfl
  rw [hLine]
  exact hRest

/- Where the next line is read to. -/
def slot
    (past : List FileRecord) :
    Option FileRecord → List FileRecord × FileRecord
  | none => (past, FileRecord.zero)
  | some c =>
      if c.fsid = FileRecord.zero.fsid then (past, c)
      else (past ++ [c], FileRecord.zero)

/- Before a line there is no space to skip. -/
theorem skipSpace_line
    (hText : r.text =
      lineFront F.text rec ++ newline :: more) :
    r.skipSpace uuidParse sizes =
      .inl (r.readFsid uuidParse) := by
  have hMem : newline ∈ r.text := by
    rw [hText]
    exact List.mem_append_right _ List.mem_cons_self
  have hDrop : r.text.dropWhile isSpace = r.text := by
    rcases List.exists_cons_of_ne_nil F.ne_nil with
      ⟨b, bs, hFsid⟩
    have hPlain := (F.plain b
      (by rw [hFsid]; exact List.mem_cons_self)).2.2
    rw [hText, lineFront, hFsid]
    simp only [List.cons_append]
    exact List.dropWhile_cons_of_neg
      (by rw [hPlain]; decide)
  have hStay : ¬(r.text = [] ∨
      (r.eof = false ∧ newline ∉ r.text)) := by
    rintro (hNil | ⟨-, hNone⟩)
    · rw [hNil] at hMem
      cases hMem
    · exact hNone hMem
  unfold Reader.skipSpace
  simp only [hDrop]
  rw [if_neg hStay]

/- A whole line is read into its record. -/
theorem comes_line
    (hBound : InU64 rec)
    (hState : r.state = .startOfLine)
    (hText : r.text =
      lineFront F.text rec ++ newline :: more) :
    Loop.Comes (turn uuidParse sizes) r
      { r with
        state := .startOfLine
        text := more
        past := (slot r.past r.curr).1
        curr := some (readLine F.fsid rec
          (slot r.past r.curr).2) } := by
  have hMem : newline ∈ r.text := by
    rw [hText]
    exact List.mem_append_right _ List.mem_cons_self
  have hSome : r.text ≠ [] := List.ne_nil_of_mem hMem
  have hTurn : turn uuidParse sizes r =
      r.startOfLine uuidParse sizes := by
    unfold turn
    rw [if_neg hSome, hState]
  have hWhole : ¬(r.eof = false ∧ newline ∉ r.text) :=
    fun hBoth => hBoth.2 hMem
  -- the line with a new record
  have hFresh (past : List FileRecord) :
      Reader.skipSpace uuidParse sizes { r with
        state := .skipSpace
        past := past
        curr := some FileRecord.zero } =
      .inl (Reader.readFsid uuidParse { r with
        state := .skipSpace
        past := past
        curr := some FileRecord.zero }) :=
    skipSpace_line F hText
  have hRead (past : List FileRecord) (c : FileRecord) :
      Loop.Comes (turn uuidParse sizes)
        (Reader.readFsid uuidParse { r with
          state := .skipSpace
          past := past
          curr := some c })
        { r with
          state := .startOfLine
          text := more
          past := past
          curr := some (readLine F.fsid rec c) } :=
    comes_readFsid F hBound hText
  unfold Reader.startOfLine at hTurn
  rw [if_neg hWhole] at hTurn
  cases hCurr : r.curr with
  | none =>
      rw [hCurr] at hTurn
      dsimp only at hTurn
      have hFirst := hFresh r.past
      rw [hFirst] at hTurn
      exact .head hTurn (hRead r.past _)
  | some c =>
      rw [hCurr] at hTurn
      dsimp only at hTurn
      unfold slot
      dsimp only
      by_cases hZero : c.fsid = FileRecord.zero.fsid
      · rw [if_pos hZero] at hTurn
        rw [if_pos hZero]
        -- the record is taken again
        have hNext : turn uuidParse sizes
            { r with state := .skipSpace, curr := some c } =
              .inl (Reader.readFsid uuidParse
                { r with
                  state := .skipSpace
                  curr := some c }) := by
          unfold turn
          rw [if_neg hSome]
          exact skipSpace_line F hText
        exact .head hTurn (.head hNext (hRead r.past c))
      · rw [if_neg hZero] at hTurn
        rw [if_neg hZero]
        rw [hFresh (r.past ++ [c])] at hTurn
        exact .head hTurn (hRead (r.past ++ [c]) _)

end Line

end StatusFile

end Scrub

end BtrfsProgs
