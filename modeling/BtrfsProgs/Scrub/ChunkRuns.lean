import BtrfsProgs.Scrub.Chunks

/-
  Files for which it does not matter how `scrub_read_file` gets
  them into its buffer.

  Main declarations:
    * `Sound`
    * `Settled`
    * `Sim` and `Sim.turn`
    * `sim_ends`
-/

----------
-- Files That Are Read in Any Way
----------

namespace BtrfsProgs

namespace Scrub

namespace StatusFile

open Lines

section Runs

variable (uuidParse : List UInt8 → Option (List UInt8))

/- Where `scrub_read_file` begins. -/
def startReader
    (file : List UInt8) : Reader :=
  ⟨.startOfFile, [], false, file, 0, [], none⟩

/- All states on the way to a result are inside the buffer. -/
def Reads
    (sizes : Nat → Nat)
    (w : Records)
    (r : Reader) : Prop :=
  Loop.Ends (turn uuidParse sizes) (· = w) r ∧
    ∀ b, Loop.Comes (turn uuidParse sizes) r b →
      Inside uuidParse b

/-
  However the file is divided, it is read to the end inside the
  buffer, with one result.
-/
def Sound
    (file : List UInt8) : Prop :=
  ∃ w, ∀ sizes, Reads uuidParse sizes w (startReader file)

/- A buffer with all that there is. -/
def allRead : Reader :=
  ⟨.startOfLine, [], true, [], 0, [], none⟩

/- The lines behind the first, all of them in the buffer. -/
def linesReader
    (file : List UInt8) : Reader :=
  { allRead with text := afterLine newline file }

/- A turn stays in the line, and the lines fit the buffer. -/
def InLine
    (r : Reader) : Prop :=
  Good uuidParse (firstLine newline) r ∧
    (r.state = .startOfLine →
      (firstLine newline r.text).length ≤ 16 * 1024)

/- Each turn does, if all is in the buffer. -/
def Settled
    (file : List UInt8) : Prop :=
  ∀ r, Loop.Comes (turn uuidParse fun _ => 0)
      (linesReader file) r →
    InLine uuidParse r

end Runs

----------
-- Runs
----------

section Sims

variable {uuidParse : List UInt8 → Option (List UInt8)}
variable {sizes : Nat → Nat}
variable {w : Records}
variable {r b : Reader}

theorem Reads.done
    (hEnd : turn uuidParse sizes r = .inr w)
    (hInside : Inside uuidParse r) :
    Reads uuidParse sizes w r := by
  refine ⟨.done hEnd rfl, ?_⟩
  intro b hComes
  rcases Relation.ReflTransGen.cases_head hComes with
    rfl | ⟨c, hTurn, _⟩
  · exact hInside
  · rw [hEnd] at hTurn
    cases hTurn

theorem Reads.turn
    (hTurn : StatusFile.turn uuidParse sizes r = .inl b)
    (hInside : Inside uuidParse r)
    (hReads : Reads uuidParse sizes w b) :
    Reads uuidParse sizes w r := by
  refine ⟨hReads.1.turn hTurn, ?_⟩
  intro c hComes
  rcases Relation.ReflTransGen.cases_head hComes with
    rfl | ⟨d, hFirst, hRest⟩
  · exact hInside
  · rw [hTurn] at hFirst
    cases hFirst
    exact hReads.2 c hRest

theorem Reads.next
    (hReads : Reads uuidParse sizes w r)
    (hTurn : StatusFile.turn uuidParse sizes r = .inl b) :
    Reads uuidParse sizes w b := by
  refine ⟨?_, fun c hComes => hReads.2 c (hComes.head hTurn)⟩
  rcases hReads.1 with ⟨fuel, v, hRun, hIs⟩
  cases fuel with
  | zero => cases hRun
  | succ fuel =>
      unfold Loop.run at hRun
      rw [hTurn] at hRun
      exact ⟨fuel, v, hRun, hIs⟩

theorem Reads.result
    {v : Records}
    (hReads : Reads uuidParse sizes w r)
    (hEnd : StatusFile.turn uuidParse sizes r = .inr v) :
    w = v := by
  rcases hReads.1 with ⟨fuel, u, hRun, rfl⟩
  exact Loop.run_of_comes hRun (Loop.Comes.refl r) hEnd

/-
  A state of the reader and the one with all in the buffer.
  While the rest of a line is skipped, the latter is behind it.
-/
def Sim
    (a r : Reader) : Prop :=
  (r.eof = true → r.rest = []) ∧
    ((a = allRead.onto r.rest r ∧ r.state ≠ .startOfFile ∧
      (r.state = .startOfLine ∨ newline ∈ r.text ∨
        r.eof = true)) ∨
    r.state = .skipRest ∧
      a = { allRead with
        text := afterLine newline (r.text ++ r.rest)
        past := r.past
        curr := r.curr })

/- What is left to read, before a turn in a line. -/
def pending
    (r : Reader) : Nat :=
  4 * r.rest.length + 2 * r.text.length +
    if r.eof then 0 else 1

/- `again`, with a file and room in the buffer. -/
theorem again_takes
    (sizes : Nat → Nat)
    (hRest : r.rest ≠ [])
    (hRoom : r.text.length < 16 * 1024) :
    ∃ n, 0 < n ∧ n ≤ r.rest.length ∧
      r.again sizes = .inl { r with
        text := r.text ++ r.rest.take n
        rest := r.rest.drop n
        reads := r.reads + 1 } := by
  have hLength := List.length_pos_iff.mpr hRest
  refine ⟨min (max 1 (sizes r.reads))
    (min (16 * 1024 - r.text.length) r.rest.length), by omega,
      by omega, ?_⟩
  unfold Reader.again
  dsimp only
  rw [if_neg (by omega), decide_eq_false (by omega),
    Bool.or_false]

/- `again` behind the file. -/
theorem again_end
    (hRest : r.rest = []) :
    r.again sizes =
      if r.text = [] then .inr r.finish
      else .inl { r with reads := r.reads + 1, eof := true } := by
  unfold Reader.again
  rw [hRest]
  by_cases hText : r.text = []
  · simp [hText]
  · simp [hText]

variable {a : Reader}

/- Skipping the rest of a line in the buffer. -/
theorem Sim.skip
    (hSim : Sim a r)
    (hAfter : a = { allRead with
      text := afterLine newline (r.text ++ r.rest)
      past := r.past
      curr := r.curr })
    (hSome : r.text ≠ []) :
    Sim a r.skip ∧ pending r.skip < pending r := by
  have hPos := List.length_pos_iff.mpr hSome
  unfold Reader.skip
  cases hDrop : r.text.dropWhile (· ≠ newline) with
  | nil =>
      have hNone : newline ∉ r.text := by
        intro hLine
        have hAll := List.dropWhile_eq_nil_iff.mp hDrop _ hLine
        simp at hAll
      refine ⟨⟨hSim.1, .inr ⟨rfl, ?_⟩⟩, ?_⟩
      · rw [hAfter, afterLine_of_notMem hNone]
        rfl
      · unfold pending
        simp only [List.length_nil]
        omega
  | cons b rest =>
      have hLine : newline ∈ r.text := by
        by_contra hNone
        rw [List.dropWhile_eq_nil_iff.mpr] at hDrop
        · cases hDrop
        · intro c hc
          simp only [ne_eq, decide_not, Bool.not_eq_true',
            decide_eq_false_iff_not]
          rintro rfl
          exact hNone hc
      have hLength := (List.dropWhile_suffix (l := r.text)
        (fun b => decide (b ≠ newline))).length_le
      rw [hDrop, List.length_cons] at hLength
      refine ⟨⟨hSim.1, .inl ⟨?_, by simp, .inl rfl⟩⟩, ?_⟩
      · rw [hAfter, afterLine_append hLine]
        unfold afterLine
        rw [hDrop]
        rfl
      · unfold pending
        dsimp only
        omega

/- A read of the file. -/
theorem Sim.again
    (sizes : Nat → Nat)
    (hSim : Sim a r)
    (hRest : r.rest ≠ [])
    (hRoom : r.text.length < 16 * 1024)
    (hState : r.state = .startOfLine ∨ r.text = []) :
    ∃ b, r.again sizes = .inl b ∧ Sim a b ∧
      pending b < pending r := by
  rcases again_takes sizes hRest hRoom with
    ⟨n, hPos, hLe, hAgain⟩
  have hEof : r.eof = false := by
    rw [← Bool.not_eq_true]
    exact fun hIs => hRest (hSim.1 hIs)
  have hWhole : r.text ++ r.rest.take n ++ r.rest.drop n =
      r.text ++ r.rest := by
    rw [List.append_assoc, List.take_append_drop]
  refine ⟨_, hAgain, ⟨?_, ?_⟩, ?_⟩
  · intro hIs
    exact absurd hIs (by simp [hEof])
  · rcases hSim.2 with ⟨hSame, hBegun, hLine⟩ | ⟨hSkip, hAfter⟩
    · have hStart : r.state = .startOfLine := by
        rcases hState with hStart | hNil
        · exact hStart
        · rw [hNil, hEof] at hLine
          simpa using hLine
      refine .inl ⟨?_, hBegun, .inl hStart⟩
      rw [hSame]
      unfold Reader.onto
      dsimp only
      rw [hWhole]
    · refine .inr ⟨hSkip, ?_⟩
      dsimp only
      rw [hWhole]
      exact hAfter
  · unfold pending
    simp only [List.length_append, List.length_take,
      List.length_drop]
    split <;> omega

/- A turn: the same, or one that brings more of the file. -/
theorem Sim.turn
    (sizes : Nat → Nat)
    (hSim : Sim a r)
    (hLine : InLine uuidParse a) :
    Inside uuidParse r ∧
      ((∃ w, StatusFile.turn uuidParse sizes r = .inr w ∧
        StatusFile.turn uuidParse (fun _ => 0) a = .inr w) ∨
      (∃ b, StatusFile.turn uuidParse sizes r = .inl b ∧
        Sim a b ∧ pending b < pending r) ∨
      ∃ b c, StatusFile.turn uuidParse sizes r = .inl b ∧
        StatusFile.turn uuidParse (fun _ => 0) a = .inl c ∧
          Sim c b ∧ size c < size a) := by
  by_cases hNil : r.text = []
  · have hAgain : StatusFile.turn uuidParse sizes r =
        r.again sizes := if_pos hNil
    refine ⟨fun hSome => absurd hNil hSome, ?_⟩
    by_cases hRest : r.rest = []
    · left
      refine ⟨r.finish, ?_, ?_⟩
      · rw [hAgain, again_end hRest, if_pos hNil]
      · have hDone : a.text = [] ∧ a.rest = [] ∧
            a.finish = r.finish := by
          rcases hSim.2 with ⟨rfl, _⟩ | ⟨_, rfl⟩
          · unfold Reader.onto
            exact ⟨by rw [hNil, hRest]; rfl, rfl, rfl⟩
          · exact ⟨by rw [hNil, hRest]; rfl, rfl, rfl⟩
        unfold StatusFile.turn
        rw [if_pos hDone.1, again_end hDone.2.1,
          if_pos hDone.1, hDone.2.2]
    · right
      left
      rw [hAgain]
      exact hSim.again sizes hRest (by rw [hNil]; decide)
        (.inr hNil)
  · rcases hSim.2 with ⟨hSame, hBegun, hWhole⟩ |
      ⟨hSkip, hAfter⟩
    · by_cases hDone : r.eof = true ∨ newline ∈ r.text
      · -- the line is whole
        have hEnd : Ended r.text r.rest := hDone.imp_left hSim.1
        have hGood := hLine.1
        rw [hSame] at hGood
        rcases turn_follows sizes (fun _ => 0) hBegun hNil rfl
          hGood hEnd hDone with
          ⟨hInside, b, hTurn, hTurns, hKeeps, hState, hNext,
            hLess⟩
        refine ⟨hInside, .inr (.inr ⟨b, _, hTurn,
          hSame ▸ hTurns allRead rfl, ⟨?_, .inl ⟨?_, hState,
            ?_⟩⟩, ?_⟩)⟩
        · rw [hKeeps.1, hKeeps.2]
          exact hSim.1
        · rw [hKeeps.1]
        · rcases hDone with hEof | hIn
          · exact .inr (.inr (hKeeps.2.trans hEof))
          · exact (hNext hIn).imp_right .inl
        · rw [hSame]
          unfold size at hLess ⊢
          unfold Reader.onto
          simp only [List.length_append]
          omega
      · -- the rest of the line is read
        rw [not_or] at hDone
        have hStart : r.state = .startOfLine := by
          rcases hWhole with hIs | hIn | hEof
          · exact hIs
          · exact absurd hIn hDone.2
          · exact absurd hEof hDone.1
        have hAgain : StatusFile.turn uuidParse sizes r =
            r.again sizes := by
          unfold StatusFile.turn
          rw [if_neg hNil, hStart]
          exact if_pos ⟨Bool.eq_false_of_not_eq_true hDone.1,
            hDone.2⟩
        refine ⟨?_, .inr (.inl ?_)⟩
        · intro _
          rw [hStart]
          exact fun hIs => absurd hIs (not_or.mpr hDone)
        · by_cases hRest : r.rest = []
          · refine ⟨{ r with
              reads := r.reads + 1
              eof := true }, by rw [hAgain, again_end hRest,
                if_neg hNil], ⟨fun _ => hRest, .inl ⟨?_, hBegun,
                  .inl hStart⟩⟩, ?_⟩
            · rw [hSame]
              rfl
            · unfold pending
              rw [if_neg hDone.1]
              simp
          · rw [hAgain]
            refine hSim.again sizes hRest ?_ (.inl hStart)
            have hLess := length_lt_firstLine hDone.2 hRest
            have hFits := hLine.2 (by rw [hSame]; exact hStart)
            rw [hSame] at hFits
            exact hLess.trans_le hFits
    · have hTurn : StatusFile.turn uuidParse sizes r =
          .inl r.skip := by
        unfold StatusFile.turn
        rw [if_neg hNil, hSkip]
      refine ⟨?_, .inr (.inl ⟨_, hTurn,
        hSim.skip hAfter hNil⟩)⟩
      intro _
      rw [hSkip]
      trivial

/-
  The result of a state is that of the one with all in the
  buffer. The induction is on what is left to read before a
  turn in the line.
-/
theorem reads_of_sim
    {n : Nat}
    (hLine : InLine uuidParse a)
    (hEnd : ∀ v, StatusFile.turn uuidParse (fun _ => 0) a =
      .inr v → v = w)
    (hNext : ∀ c, StatusFile.turn uuidParse (fun _ => 0) a =
      .inl c → size c < size a →
        ∀ b, Sim c b → Reads uuidParse sizes w b)
    (hSim : Sim a r)
    (hLess : pending r < n) :
    Reads uuidParse sizes w r := by
  induction n generalizing r with
  | zero => omega
  | succ n ih =>
      rcases hSim.turn sizes hLine with ⟨hInside,
        ⟨v, hTurn, hSame⟩ | ⟨b, hTurn, hAgain, hLeft⟩ |
          ⟨b, c, hTurn, hThere, hStep, hSmall⟩⟩
      · rw [hEnd v hSame] at hTurn
        exact .done hTurn hInside
      · exact .turn hTurn hInside (ih hAgain (by omega))
      · exact .turn hTurn hInside (hNext c hThere hSmall b hStep)

/- One result for all states with the same in the buffer. -/
theorem sim_ends
    {n : Nat}
    (hLines : ∀ b,
      Loop.Comes (StatusFile.turn uuidParse fun _ => 0) a b →
        InLine uuidParse b)
    (hLess : size a < n) :
    ∃ w, ∀ sizes r, Sim a r → Reads uuidParse sizes w r := by
  induction n generalizing a with
  | zero => omega
  | succ n ih =>
      have hLine := hLines a (.refl a)
      cases hTurn : StatusFile.turn uuidParse (fun _ => 0) a with
      | inr w =>
          refine ⟨w, fun sizes r hSim => reads_of_sim hLine ?_ ?_
            hSim (Nat.lt_succ_self _)⟩
          · intro v hEnd
            rw [hTurn] at hEnd
            exact (Sum.inr.inj hEnd).symm
          · intro c hNext
            rw [hTurn] at hNext
            cases hNext
      | inl c =>
          by_cases hSmall : size c < size a
          · rcases ih (fun b hComes =>
              hLines b (hComes.head hTurn)) (by omega) with
              ⟨w, hReads⟩
            refine ⟨w, fun sizes r hSim => reads_of_sim hLine ?_
              ?_ hSim (Nat.lt_succ_self _)⟩
            · intro v hEnd
              rw [hTurn] at hEnd
              cases hEnd
            · intro d hNext _ b hStep
              rw [hTurn] at hNext
              rw [← Sum.inl.inj hNext] at hStep
              exact hReads sizes b hStep
          · -- no turn with a whole line comes to `c`
            refine ⟨.error .enodata, fun sizes r hSim =>
              reads_of_sim hLine ?_ ?_ hSim
                (Nat.lt_succ_self _)⟩
            · intro v hEnd
              rw [hTurn] at hEnd
              cases hEnd
            · intro d hNext hIs
              rw [hTurn] at hNext
              rw [← Sum.inl.inj hNext] at hIs
              exact absurd hIs hSmall

end Sims

end StatusFile

end Scrub

end BtrfsProgs
