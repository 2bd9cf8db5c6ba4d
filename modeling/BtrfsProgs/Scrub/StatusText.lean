import BtrfsProgs.Scrub.StatusFile

/-
  The text that `scrub_write_file` leaves when it returns 0.

  Main declarations:
    * `pairText` and `fileText`
    * `length_lld_le` and `lld_no_newline`
    * `scrubWriteFile_text`
    * `scrubWriteFile_takesAll`
-/

----------
-- Text
----------

namespace BtrfsProgs

namespace Scrub

namespace StatusFile

/- A key and its value, with the bar before them. -/
def pairText
    (p : Field × Nat) : List UInt8 :=
  bar :: p.1.key ++ colon :: lld p.2

/- The pairs of a record, in the order they are written. -/
def pairsOf
    (rec : Record) : List (Field × Nat) :=
  writeOrder.map fun f => (f, f.get rec)

/- A line without its end. -/
def lineFront
    (fsid : List UInt8)
    (rec : Record) : List UInt8 :=
  fsid ++ colon :: lld rec.devid ++
    (pairsOf rec).flatMap pairText

/- The whole file. -/
def fileText
    (fsid : List UInt8)
    (recs : List Record) : List UInt8 :=
  versionLine ++
    recs.flatMap fun rec => lineFront fsid rec ++ [newline]

theorem lld_of_lt
    {v : Nat}
    (hSmall : v < 2 ^ 63) :
    lld v = Decimal.text v := by
  unfold lld
  rw [Nat.mod_eq_of_lt (by omega), if_pos hSmall]

theorem lld_of_le
    {v : Nat}
    (hLarge : 2 ^ 63 ≤ v)
    (hLt : v < 2 ^ 64) :
    lld v = minus :: Decimal.text (2 ^ 64 - v) := by
  unfold lld
  rw [Nat.mod_eq_of_lt hLt, if_neg (by omega)]

theorem lld_ne_nil
    (v : Nat) : lld v ≠ [] := by
  unfold lld
  split
  case isTrue => exact Decimal.text_ne_nil _
  case isFalse => exact List.cons_ne_nil _ _

theorem length_lld_le
    (v : Nat) : (lld v).length ≤ 20 := by
  have hBig : (2 : Nat) ^ 64 < 10 ^ 20 := by decide
  have hHalf : (2 : Nat) ^ 64 - 2 ^ 63 < 10 ^ 19 := by decide
  unfold lld
  split
  case isTrue =>
      apply Decimal.length_text_le (by decide)
      omega
  case isFalse =>
      have hLen := Decimal.length_text_le
        (n := 2 ^ 64 - v % 2 ^ 64) (k := 19) (by decide)
        (by omega)
      rw [List.length_cons]
      omega

theorem ne_newline_of_digit
    {b : UInt8}
    (hDigit : Decimal.isDigit b) : b ≠ newline := by
  rintro rfl
  exact absurd hDigit (by decide)

theorem lld_no_newline
    (v : Nat) : ∀ b ∈ lld v, b ≠ newline := by
  intro b hMem
  unfold lld at hMem
  split at hMem
  case isTrue =>
      exact ne_newline_of_digit
        (Decimal.isDigit_of_mem_text hMem)
  case isFalse =>
      rcases List.mem_cons.mp hMem with rfl | hMem
      · decide
      · exact ne_newline_of_digit
          (Decimal.isDigit_of_mem_text hMem)

theorem mem_writeOrder
    (f : Field) : f ∈ writeOrder := by
  cases f with
  | counter c => cases c <;> decide
  | tStart => decide
  | tResumed => decide
  | duration => decide
  | finished => decide
  | canceled => decide

theorem length_key_le
    (f : Field) : f.key.length ≤ 21 := by
  have hAll : ∀ f ∈ writeOrder, f.key.length ≤ 21 := by
    decide
  exact hAll f (mem_writeOrder f)

theorem key_no_newline
    (f : Field) : ∀ b ∈ f.key, b ≠ newline := by
  have hAll : ∀ f ∈ writeOrder, newline ∉ f.key := by
    decide
  rintro b hMem rfl
  exact hAll f (mem_writeOrder f) hMem

theorem pairText_no_newline
    (p : Field × Nat) : ∀ b ∈ pairText p, b ≠ newline := by
  intro b hMem
  unfold pairText at hMem
  rw [List.mem_append, List.mem_cons, List.mem_cons] at hMem
  rcases hMem with (rfl | hKey) | rfl | hValue
  · decide
  · exact key_no_newline p.1 b hKey
  · decide
  · exact lld_no_newline p.2 b hValue

theorem length_pairText_le
    (p : Field × Nat) : (pairText p).length ≤ 43 := by
  have hKey := length_key_le p.1
  have hValue := length_lld_le p.2
  unfold pairText
  rw [List.length_append, List.length_cons, List.length_cons]
  omega

theorem pairs_no_newline
    (ps : List (Field × Nat)) :
    ∀ b ∈ ps.flatMap pairText, b ≠ newline := by
  intro b hMem
  rcases List.mem_flatMap.mp hMem with ⟨p, -, hIn⟩
  exact pairText_no_newline p b hIn

theorem length_pairs_le
    (ps : List (Field × Nat)) :
    (ps.flatMap pairText).length ≤ 43 * ps.length := by
  induction ps with
  | nil => exact Nat.le_refl 0
  | cons p ps ih =>
      have hPair := length_pairText_le p
      rw [List.flatMap_cons, List.length_append,
        List.length_cons]
      omega

----------
-- What Is Written
----------

section Written

variable {takes : Nat → Option Nat}

/- A call that returns 0 has written a text. -/
def Writes
    (call : Fd → Fd × Bool)
    (text : List UInt8) : Prop :=
  ∀ fd, (call fd).2 = true →
    (call fd).1.bytes = fd.bytes ++ text

theorem writes_scrubWriteBuf
    (data : List UInt8) :
    Writes (scrubWriteBuf takes data) data := by
  intro fd hDone
  unfold scrubWriteBuf at hDone ⊢
  cases hTakes : takes fd.calls with
  | none =>
      rw [hTakes] at hDone
      cases hDone
  | some n =>
      rw [hTakes] at hDone
      dsimp only at hDone ⊢
      rw [List.take_of_length_le (of_decide_eq_true hDone)]

theorem writes_scrubWritev
    {max : Nat}
    {text : List UInt8}
    (hFits : text.length < max) :
    Writes (scrubWritev takes max text) text := by
  have hCall : scrubWritev takes max text =
      scrubWriteBuf takes text := by
    funext fd
    unfold scrubWritev
    exact if_neg (by omega)
  rw [hCall]
  exact writes_scrubWriteBuf text

/- Calls in turn that return 0 have written their texts. -/
theorem writes_inTurn
    {calls : List (Fd → Fd × Bool)}
    {texts : List (List UInt8)}
    (hCalls : List.Forall₂ Writes calls texts) :
    Writes (inTurn calls) texts.flatten := by
  induction hCalls with
  | nil => exact fun fd _ => (List.append_nil fd.bytes).symm
  | @cons call text calls texts hFirst hRest ih =>
      intro fd hDone
      have hOne := hFirst fd
      unfold inTurn at hDone ⊢
      cases hCall : call fd with
      | mk next ok =>
        rw [hCall] at hDone hOne
        cases ok with
        | false => cases hDone
        | true =>
            have hMore := ih next hDone
            dsimp only at hOne hMore ⊢
            rw [hMore, hOne rfl, List.flatten_cons,
              List.append_assoc]

/- The texts of the calls for a device. -/
def deviceTexts
    (fsid : List UInt8)
    (rec : Record) : List (List UInt8) :=
  [fsid, [colon], lld rec.devid, []] ++
    (pairsOf rec).map pairText ++ [[newline]]

theorem flatten_deviceTexts
    (fsid : List UInt8)
    (rec : Record) :
    (deviceTexts fsid rec).flatten =
      lineFront fsid rec ++ [newline] := by
  simp [deviceTexts, lineFront, List.flatMap_def]

theorem writes_deviceCalls
    (fsid : List UInt8)
    (data : ScrubProgress) :
    List.Forall₂ Writes (deviceCalls takes fsid data)
      (deviceTexts fsid (recordOf data)) := by
  have hDevid := length_lld_le (recordOf data).devid
  have hPairs (fs : List Field) : List.Forall₂ Writes
      (fs.map fun f =>
        scrubKvwrite takes 1024 f.key (f.get (recordOf data)))
      ((fs.map fun f => (f, f.get (recordOf data))).map
        pairText) := by
    induction fs with
    | nil => exact .nil
    | cons f fs ih =>
        have hLen :=
          length_pairText_le (f, f.get (recordOf data))
        have hFits := Nat.lt_of_le_of_lt hLen
          (show 43 < 1024 by decide)
        exact .cons (writes_scrubWritev hFits) ih
  refine List.rel_append (List.rel_append ?_
    (hPairs writeOrder)) ?_
  · exact .cons (writes_scrubWriteBuf _)
      (.cons (writes_scrubWriteBuf _)
        (.cons (writes_scrubWritev (by omega))
          (.cons (writes_scrubWriteBuf _) .nil)))
  · exact .cons (writes_scrubWriteBuf _) .nil

theorem writes_devices
    (fsid : List UInt8)
    (data : List ScrubProgress) :
    List.Forall₂ Writes
      (data.flatMap (deviceCalls takes fsid))
      (data.flatMap fun d =>
        deviceTexts fsid (recordOf d)) := by
  induction data with
  | nil => exact .nil
  | cons d data ih =>
      rw [List.flatMap_cons, List.flatMap_cons]
      exact List.rel_append (writes_deviceCalls fsid d) ih

theorem flatten_devices
    (fsid : List UInt8)
    (data : List ScrubProgress) :
    (data.flatMap fun d =>
      deviceTexts fsid (recordOf d)).flatten =
        (data.map recordOf).flatMap fun rec =>
          lineFront fsid rec ++ [newline] := by
  induction data with
  | nil => rfl
  | cons d data ih =>
      rw [List.flatMap_cons, List.flatten_append, ih,
        flatten_deviceTexts, List.map_cons, List.flatMap_cons]

/- A file for which 0 was returned has the text of its data. -/
theorem scrubWriteFile_text
    {fsid : List UInt8}
    {data : List ScrubProgress}
    {fd : Fd}
    (hWrite : scrubWriteFile takes fsid data = (fd, 0)) :
    data ≠ [] ∧
      fd.bytes = fileText fsid (data.map recordOf) := by
  unfold scrubWriteFile at hWrite
  split at hWrite
  case isTrue => cases hWrite
  case isFalse hSome =>
  refine ⟨fun hNil => hSome (by rw [hNil]; decide), ?_⟩
  have hTexts : Writes (inTurn
      (scrubWriteBuf takes versionLine ::
        data.flatMap (deviceCalls takes fsid))) _ :=
    writes_inTurn (.cons (writes_scrubWriteBuf versionLine)
      (writes_devices fsid data))
  have hFile := hTexts ⟨[], 0⟩
  generalize inTurn (scrubWriteBuf takes versionLine ::
    data.flatMap (deviceCalls takes fsid)) ⟨[], 0⟩ = r
      at hWrite hFile
  rcases r with ⟨next, ok⟩
  cases ok with
  | false => cases hWrite
  | true =>
      cases hWrite
      have hBytes := hFile rfl
      dsimp only at hBytes
      rw [hBytes, List.nil_append, List.flatten_cons,
        flatten_devices, fileText]

end Written

----------
-- A Disk That Takes All
----------

/- Calls of `write` that take 1024 bytes. -/
def takesAll
    (_ : Nat) : Option Nat :=
  some 1024

/- A call that always returns 0. -/
def Done
    (call : Fd → Fd × Bool) : Prop :=
  ∀ fd, (call fd).2 = true

theorem done_scrubWriteBuf
    {data : List UInt8}
    (hFits : data.length ≤ 1024) :
    Done (scrubWriteBuf takesAll data) :=
  fun _ => decide_eq_true hFits

theorem done_scrubWritev
    {text : List UInt8}
    (hFits : text.length < 1024) :
    Done (scrubWritev takesAll 1024 text) := by
  intro fd
  unfold scrubWritev
  rw [if_neg (by omega)]
  exact done_scrubWriteBuf (by omega) fd

theorem done_inTurn
    {calls : List (Fd → Fd × Bool)}
    (hCalls : ∀ call ∈ calls, Done call) :
    Done (inTurn calls) := by
  induction calls with
  | nil => exact fun _ => rfl
  | cons call calls ih =>
      intro fd
      have hFirst := hCalls call List.mem_cons_self fd
      have hRest := ih fun c hMem =>
        hCalls c (List.mem_cons_of_mem call hMem)
      unfold inTurn
      cases hCall : call fd with
      | mk next ok =>
        rw [hCall] at hFirst
        dsimp only at hFirst
        rw [hFirst]
        exact hRest next

theorem done_deviceCalls
    {fsid : List UInt8}
    {data : ScrubProgress}
    (hFsid : fsid.length ≤ 1024) :
    ∀ call ∈ deviceCalls takesAll fsid data, Done call := by
  intro call hMem
  have hDevid := length_lld_le (recordOf data).devid
  unfold deviceCalls at hMem
  rw [List.mem_append, List.mem_append] at hMem
  rcases hMem with (hHead | hPair) | hLast
  · simp only [List.mem_cons, List.not_mem_nil,
      or_false] at hHead
    rcases hHead with rfl | rfl | rfl | rfl
    · exact done_scrubWriteBuf hFsid
    · exact done_scrubWriteBuf (by decide)
    · exact done_scrubWritev (by omega)
    · exact done_scrubWriteBuf (by decide)
  · rcases List.mem_map.mp hPair with ⟨f, -, rfl⟩
    have hLen :=
      length_pairText_le (f, f.get (recordOf data))
    exact done_scrubWritev (Nat.lt_of_le_of_lt hLen
      (show 43 < 1024 by decide))
  · rw [List.mem_singleton.mp hLast]
    exact done_scrubWriteBuf (by decide)

/- Such a disk lets the call return 0. -/
theorem scrubWriteFile_takesAll
    {fsid : List UInt8}
    {data : List ScrubProgress}
    (hFsid : fsid.length ≤ 1024)
    (hSome : data ≠ []) :
    ∃ fd, scrubWriteFile takesAll fsid data = (fd, 0) := by
  have hDone : Done (inTurn
      (scrubWriteBuf takesAll versionLine ::
        data.flatMap (deviceCalls takesAll fsid))) := by
    apply done_inTurn
    intro call hMem
    rcases List.mem_cons.mp hMem with rfl | hMem
    · exact done_scrubWriteBuf (by decide)
    · rcases List.mem_flatMap.mp hMem with ⟨d, -, hCall⟩
      exact done_deviceCalls hFsid call hCall
  have hLen := List.length_pos_iff.mpr hSome
  have hFile := hDone ⟨[], 0⟩
  unfold scrubWriteFile
  rw [if_neg (by omega)]
  generalize inTurn (scrubWriteBuf takesAll versionLine ::
    data.flatMap (deviceCalls takesAll fsid)) ⟨[], 0⟩ = r
      at hFile ⊢
  rcases r with ⟨fd, ok⟩
  dsimp only at hFile
  rw [hFile]
  exact ⟨fd, rfl⟩

end StatusFile

end Scrub

end BtrfsProgs
