import BtrfsProgs.Lib.Record

/-
  Programs on buffers of bytes whose every access is checked.

  Main declarations:
    * `Checked.Fault`
    * `Checked.read`, `Checked.readBytes`, `Checked.readString`
    * `Checked.stringEnd`
    * `Checked.write`
    * `Checked.Runs` and its rules
-/

----------
-- Accesses
----------

namespace Checked

open Record

/-
  How a program ends that does not return: an access outside a
  buffer, a loop that has no end, or an assertion that fails.
-/
inductive Fault where
  | outside
  | endless
  | assertion
deriving Repr, DecidableEq

/- A little-endian number at a place of a buffer. -/
def read
    (buf : List UInt8)
    (place w : Nat) : Except Fault Nat :=
  if place + w ≤ buf.length then .ok (field buf place w)
  else .error .outside

/- A run of bytes of a buffer. -/
def readBytes
    (buf : List UInt8)
    (place n : Nat) : Except Fault (List UInt8) :=
  if place + n ≤ buf.length then
    .ok ((buf.drop place).take n)
  else .error .outside

/- At most `n` bytes of a buffer, up to a zero byte. -/
def readString
    (buf : List UInt8) :
    Nat → Nat → Except Fault (List UInt8)
  | _, 0 => .ok []
  | place, n + 1 =>
      match buf[place]? with
      | none => .error .outside
      | some b =>
          if b = 0 then .ok []
          else (b :: ·) <$> readString buf (place + 1) n

/- The place of the first zero byte of a buffer. -/
def stringEnd
    (buf : List UInt8) : Except Fault Nat :=
  if 0 ∈ buf then .ok (buf.idxOf 0) else .error .outside

/- Put bytes at a place of a buffer. -/
def write
    (buf : List UInt8)
    (place : Nat)
    (bytes : List UInt8) : Except Fault (List UInt8) :=
  if place + bytes.length ≤ buf.length then
    .ok (buf.take place ++ bytes ++
      buf.drop (place + bytes.length))
  else .error .outside

----------
-- Programs That Return
----------

/- The program returns, with a value of a kind. -/
def Runs
    {α : Type}
    (x : Except Fault α)
    (Q : α → Prop) : Prop :=
  ∃ a, x = .ok a ∧ Q a

section Rules

variable {α β : Type} {Q : α → Prop} {R : β → Prop}

theorem Runs.ok
    {a : α}
    (hKind : Q a) :
    Runs (.ok a) Q :=
  ⟨a, rfl, hKind⟩

variable {x : Except Fault α}

theorem Runs.of_eq
    {a : α}
    (hEq : x = .ok a) :
    Runs x (· = a) :=
  ⟨a, hEq, rfl⟩

theorem Runs.bind
    {f : α → Except Fault β}
    (hFirst : Runs x Q)
    (hThen : ∀ a, Q a → Runs (f a) R) :
    Runs (x >>= f) R := by
  rcases hFirst with ⟨a, rfl, hKind⟩
  exact hThen a hKind

theorem Runs.map
    {f : α → β}
    (hRuns : Runs x fun a => R (f a)) :
    Runs (f <$> x) R := by
  rcases hRuns with ⟨a, rfl, hKind⟩
  exact ⟨f a, rfl, hKind⟩

theorem Runs.mono
    {P : α → Prop}
    (hRuns : Runs x P)
    (hMono : ∀ a, P a → Q a) :
    Runs x Q := by
  rcases hRuns with ⟨a, hEq, hKind⟩
  exact ⟨a, hEq, hMono a hKind⟩

theorem Runs.of_bind
    {f : α → Except Fault β}
    (hRuns : Runs (x >>= f) R) :
    ∃ a, x = .ok a ∧ Runs (f a) R := by
  cases x with
  | ok a => exact ⟨a, rfl, hRuns⟩
  | error e =>
      rcases hRuns with ⟨b, hEq, -⟩
      cases hEq

/- A program that faults does not return. -/
theorem not_runs_error
    {f : Fault} :
    ¬Runs (.error f) Q := by
  rintro ⟨a, hEq, -⟩
  cases hEq

end Rules

section Accesses

variable {buf bytes : List UInt8} {place w n : Nat}

theorem read_eq
    (hLe : place + w ≤ buf.length) :
    read buf place w = .ok (field buf place w) :=
  if_pos hLe

theorem read_outside
    (hLt : buf.length < place + w) :
    read buf place w = .error .outside :=
  if_neg (by omega)

theorem runs_read
    (hLe : place + w ≤ buf.length) :
    Runs (read buf place w) fun v => v = field buf place w :=
  ⟨_, read_eq hLe, rfl⟩

theorem le_of_read_eq
    {v : Nat}
    (hRead : read buf place w = .ok v) :
    place + w ≤ buf.length ∧ v = field buf place w := by
  unfold read at hRead
  split at hRead
  case isTrue hLe =>
      cases hRead
      exact ⟨hLe, rfl⟩
  case isFalse => cases hRead

theorem runs_readBytes
    (hLe : place + n ≤ buf.length) :
    Runs (readBytes buf place n) fun bs =>
      bs = (buf.drop place).take n :=
  ⟨_, if_pos hLe, rfl⟩

theorem runs_readString
    (hLe : place + n ≤ buf.length) :
    Runs (readString buf place n) fun bs =>
      bs.length ≤ n := by
  induction n generalizing place with
  | zero => exact .ok (Nat.le_refl 0)
  | succ n ih =>
      have hLt : place < buf.length := by omega
      unfold readString
      rw [List.getElem?_eq_getElem hLt]
      dsimp only
      split
      case isTrue => exact .ok (Nat.zero_le _)
      case isFalse =>
          apply Runs.map
          apply (ih (by omega)).mono
          intro bs hLen
          simp only [List.length_cons]
          omega

/- The end of a string that a zero byte follows. -/
theorem runs_stringEnd
    {text rest : List UInt8}
    (hBuf : buf = text ++ 0 :: rest)
    (hText : 0 ∉ text) :
    Runs (stringEnd buf) fun stop => stop = text.length := by
  have hMem : (0 : UInt8) ∈ buf := by
    rw [hBuf]
    simp
  have hIndex : buf.idxOf 0 = text.length := by
    rw [hBuf, List.idxOf_append, if_neg hText]
    simp
  exact ⟨_, if_pos hMem, hIndex⟩

theorem write_eq
    (hLe : place + bytes.length ≤ buf.length) :
    write buf place bytes =
      .ok (buf.take place ++ bytes ++
        buf.drop (place + bytes.length)) :=
  if_pos hLe

/- A write replaces as many bytes as it puts there. -/
theorem write_middle
    {front old back : List UInt8}
    (hBuf : buf = front ++ (old ++ back))
    (hPlace : place = front.length)
    (hLength : bytes.length = old.length) :
    write buf place bytes =
      .ok (front ++ (bytes ++ back)) := by
  subst hBuf hPlace
  rw [write_eq (by
    simp only [List.length_append]
    omega)]
  rw [List.take_left, ← List.drop_drop, List.drop_left,
    hLength, List.drop_left, List.append_assoc]

/- The same for parts that are given. -/
theorem write_part
    (front old back : List UInt8)
    (hPlace : place = front.length)
    (hLength : bytes.length = old.length) :
    write (front ++ (old ++ back)) place bytes =
      .ok (front ++ (bytes ++ back)) :=
  write_middle rfl hPlace hLength

theorem runs_write
    (hLe : place + bytes.length ≤ buf.length) :
    Runs (write buf place bytes) fun out =>
      out.length = buf.length ∧
        out.take (place + bytes.length) =
          buf.take place ++ bytes := by
  refine ⟨_, write_eq hLe, ?_, ?_⟩
  · simp only [List.length_append, List.length_take,
      List.length_drop]
    omega
  · apply List.take_left'
    simp only [List.length_append, List.length_take]
    omega

end Accesses

end Checked
