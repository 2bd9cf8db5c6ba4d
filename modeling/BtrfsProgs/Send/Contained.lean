import BtrfsProgs.Send.Stream

/-
  Where the attributes of a command lie.

  `read_cmd` checks neither the length of a command against
  the buffer nor the length of an attribute against what is
  left of the command.  So what it does is inside the buffer
  and the payload exactly for the commands that keep to both.

  Main declarations:
    * `Contained`
    * `Tiled` and `WellBounded`
    * `contained_iff_wellBounded`
    * `streamContained_iff`
-/

----------
-- Containment and Bounds
----------

namespace BtrfsProgs

namespace Send

/-
  `read_cmd` stays inside the buffer, and every attribute that
  `tlv_get` then returns is inside the payload.
-/
def Contained
    (s : SendStream)
    (file : List UInt8) : Prop :=
  readCmd s file ≠ .error .bug ∧
    ∀ s' cmdLen rest,
      readCmd s file = .ok (s', cmdLen, rest) →
        ∀ attr place len,
          tlvGet s' attr = .ok (place, len) →
            CMD_HEADER_SIZE + TLV_HEADER_SIZE ≤ place ∧
              ((place + len : Nat) : Int) ≤
                CMD_HEADER_SIZE + cmdLen

/-
  The TLVs of a payload end inside it, up to the first with a
  type that is refused.  The header of the last may reach into
  the bytes that are behind the payload in the buffer.
-/
def Tiled
    (behind : List UInt8) : Nat → List UInt8 → Prop
  | 0, _ => True
  | fuel + 1, payload =>
      payload = [] ∨
        (TLV_HEADER_SIZE ≤ (payload ++ behind).length ∧
          (leAt (payload ++ behind) 0 2 = 0 ∨
            SEND_A_MAX < leAt (payload ++ behind) 0 2 ∨
            (TLV_HEADER_SIZE + leAt (payload ++ behind) 2 2 ≤
                payload.length ∧
              Tiled behind fuel
                (payload.drop (TLV_HEADER_SIZE +
                  leAt (payload ++ behind) 2 2)))))

/- The checksum over the header and the payload. -/
def CrcMatches
    (header payload : List UInt8) : Prop :=
  leAt header 6 4 =
    (crc32c 0 (header.take 6 ++ [0, 0, 0, 0] ++
      payload)).toNat

instance
    (header payload : List UInt8) :
    Decidable (CrcMatches header payload) := by
  unfold CrcMatches
  infer_instance

/-
  A command that keeps to the buffer and to its payload: it is
  cut off in its header; or it has a length that the buffer
  has room for and is cut off, has a wrong checksum, or has
  TLVs that end inside it; or its length is negative as an
  `int`, and not below minus the size of the header.
-/
def WellBounded
    (s : SendStream)
    (file : List UInt8) : Prop :=
  let header := file.take CMD_HEADER_SIZE
  let rest := file.drop CMD_HEADER_SIZE
  let len := leAt file 0 4
  let payload := rest.take len
  file.length < CMD_HEADER_SIZE ∨
    (len < 2 ^ 31 ∧
      CMD_HEADER_SIZE + payload.length ≤ SEND_BUF_SIZE ∧
      (rest.length < len ∨ ¬ CrcMatches header payload ∨
        Tiled (s.buf.drop (CMD_HEADER_SIZE + len)) len
          payload)) ∨
    2 ^ 32 - CMD_HEADER_SIZE ≤ len

----------
-- The Loop Over the TLVs
----------

section Loop

variable {buf payload behind : List UInt8}

/- What the loop sees at a position of the payload. -/
theorem leAt_payload
    (hBuf :
      buf.drop CMD_HEADER_SIZE = payload ++ behind)
    {pos : Nat}
    (hPos : pos ≤ payload.length)
    (k width : Nat) :
    leAt buf (CMD_HEADER_SIZE + pos + k) width =
      leAt (payload.drop pos ++ behind) k width := by
  have hDrop :
      buf.drop (CMD_HEADER_SIZE + pos) =
        payload.drop pos ++ behind := by
    rw [← List.drop_drop, hBuf, List.drop_append_of_le_length hPos]
  unfold leAt
  rw [← hDrop, List.drop_drop]

/- The header at a position is inside the buffer. -/
theorem header_fits_iff
    (hLen : buf.length = SEND_BUF_SIZE)
    (hBuf :
      buf.drop CMD_HEADER_SIZE = payload ++ behind)
    {pos : Nat}
    (hPos : pos < payload.length) :
    TLV_HEADER_SIZE ≤ (payload.drop pos ++ behind).length ↔
      CMD_HEADER_SIZE + pos + TLV_HEADER_SIZE ≤
        SEND_BUF_SIZE := by
  have hTotal := congrArg List.length hBuf
  simp only [List.length_drop, List.length_append] at hTotal ⊢
  unfold CMD_HEADER_SIZE SEND_BUF_SIZE at *
  unfold TLV_HEADER_SIZE
  omega

/- An attribute is inside the payload. -/
def Inside
    (buf : List UInt8)
    (cmdLen : Nat)
    (hdr : Nat) : Prop :=
  CMD_HEADER_SIZE ≤ hdr ∧
    hdr + TLV_HEADER_SIZE + leAt buf (hdr + 2) 2 ≤
      CMD_HEADER_SIZE + cmdLen

theorem leAt_two_le
    (buf : List UInt8)
    (place : Nat) :
    leAt buf place 2 ≤ SEND_BUF_SIZE := by
  have hBound := LittleEndian.decode_lt
    ((buf.drop place).take 2)
  have hShort : ((buf.drop place).take 2).length ≤ 2 := by
    simp
  have hPow : 256 ^ ((buf.drop place).take 2).length ≤
      256 ^ 2 :=
    Nat.pow_le_pow_right (by decide) hShort
  unfold leAt SEND_BUF_SIZE
  omega

/- Behind the payload the loop is over. -/
theorem tlvLoop_end
    {cmdLen : Int}
    {fuel pos : Nat}
    {attrs : Nat → Option Nat}
    (hEnd : cmdLen ≤ pos) :
    tlvLoop buf cmdLen fuel pos attrs = .ok attrs := by
  cases fuel with
  | zero => rfl
  | succ fuel =>
      unfold tlvLoop
      rw [if_pos hEnd]

/-
  With TLVs that end inside, the loop stays inside, and so do
  the attributes it records.
-/
theorem tlvLoop_of_tiled
    (hLen : buf.length = SEND_BUF_SIZE)
    (hBuf :
      buf.drop CMD_HEADER_SIZE = payload ++ behind)
    {fuel pos : Nat}
    {attrs : Nat → Option Nat}
    (hPos : pos ≤ payload.length)
    (hTiled : Tiled behind fuel (payload.drop pos)) :
    tlvLoop buf payload.length fuel pos attrs ≠
        .error .bug ∧
      ∀ attrs',
        tlvLoop buf payload.length fuel pos attrs =
            .ok attrs' →
          ∀ t hdr, attrs' t = some hdr →
            attrs t = some hdr ∨
              Inside buf payload.length hdr := by
  induction fuel generalizing pos attrs with
  | zero =>
      refine ⟨by simp [tlvLoop], ?_⟩
      intro attrs' hLoop t hdr hAttr
      cases hLoop
      exact Or.inl hAttr
  | succ fuel ih =>
      unfold tlvLoop
      by_cases hEnd : (payload.length : Int) ≤ pos
      · rw [if_pos hEnd]
        refine ⟨by simp, ?_⟩
        intro attrs' hLoop t hdr hAttr
        cases hLoop
        exact Or.inl hAttr
      · rw [if_neg hEnd]
        have hIn : pos < payload.length := by omega
        rcases hTiled with hNil | ⟨hHeader, hType⟩
        · have := congrArg List.length hNil
          simp only [List.length_drop, List.length_nil] at this
          omega
        rw [header_fits_iff hLen hBuf hIn] at hHeader
        have hType0 := leAt_payload hBuf hPos 0 2
        have hLen2 := leAt_payload hBuf hPos 2 2
        rw [Nat.add_zero] at hType0
        rw [← hType0, ← hLen2] at hType
        simp only
        rw [if_neg (by omega)]
        by_cases hRefused :
            leAt buf (CMD_HEADER_SIZE + pos) 2 = 0 ∨
              SEND_A_MAX < leAt buf (CMD_HEADER_SIZE + pos) 2 ∨
              SEND_BUF_SIZE <
                leAt buf (CMD_HEADER_SIZE + pos + 2) 2
        · rw [if_pos hRefused]
          refine ⟨by simp, ?_⟩
          intro attrs' hLoop
          cases hLoop
        · rw [if_neg hRefused]
          have hFits := hType.resolve_left
            (fun h => hRefused (Or.inl h))
          have hFits := hFits.resolve_left
            (fun h => hRefused (Or.inr (Or.inl h)))
          rcases hFits with ⟨hWithin, hRest⟩
          rw [List.length_drop] at hWithin
          rw [List.drop_drop, ← Nat.add_assoc] at hRest
          rcases ih (by omega) hRest with ⟨hNoBug, hAttrs⟩
          refine ⟨hNoBug, ?_⟩
          intro attrs' hLoop t hdr hAttr
          rcases hAttrs attrs' hLoop t hdr hAttr with h | h
          · by_cases hSame :
                t = leAt buf (CMD_HEADER_SIZE + pos) 2
            · rw [hSame, Function.update_self] at h
              cases h
              refine Or.inr ⟨Nat.le_add_right _ _, ?_⟩
              omega
            · rw [Function.update_of_ne hSame] at h
              exact Or.inl h
          · exact Or.inr h

/-
  With a TLV that does not end inside, the loop leaves the
  buffer or records an attribute that is not inside: that TLV
  is the last.
-/
theorem tlvLoop_of_not_tiled
    (hLen : buf.length = SEND_BUF_SIZE)
    (hBuf :
      buf.drop CMD_HEADER_SIZE = payload ++ behind)
    {fuel pos : Nat}
    {attrs : Nat → Option Nat}
    (hPos : pos ≤ payload.length)
    (hTiled : ¬ Tiled behind fuel (payload.drop pos)) :
    tlvLoop buf payload.length fuel pos attrs =
        .error .bug ∨
      ∃ attrs' t hdr,
        tlvLoop buf payload.length fuel pos attrs =
            .ok attrs' ∧
          attrs' t = some hdr ∧
          0 < t ∧ t ≤ SEND_A_MAX ∧
          ¬ Inside buf payload.length hdr := by
  induction fuel generalizing pos attrs with
  | zero => exact absurd trivial hTiled
  | succ fuel ih =>
      simp only [Tiled, not_or, not_and] at hTiled
      rcases hTiled with ⟨hSome, hBad⟩
      have hIn : pos < payload.length := by
        by_contra hEnd
        apply hSome
        apply List.drop_eq_nil_of_le
        omega
      unfold tlvLoop
      rw [if_neg (by omega)]
      simp only
      by_cases hHeader :
          SEND_BUF_SIZE <
            CMD_HEADER_SIZE + pos + TLV_HEADER_SIZE
      · rw [if_pos hHeader]
        exact Or.inl rfl
      rw [if_neg hHeader]
      have hBad := hBad
        ((header_fits_iff hLen hBuf hIn).mpr (by omega))
      have hType0 := leAt_payload hBuf hPos 0 2
      have hLen2 := leAt_payload hBuf hPos 2 2
      rw [Nat.add_zero] at hType0
      rw [← hType0, ← hLen2] at hBad
      rcases hBad with ⟨hZero, hMax, hFits⟩
      have hSmall :=
        leAt_two_le buf (CMD_HEADER_SIZE + pos + 2)
      rw [if_neg (by omega)]
      by_cases hWithin :
          TLV_HEADER_SIZE +
              leAt buf (CMD_HEADER_SIZE + pos + 2) 2 ≤
            (payload.drop pos).length
      · -- this one ends inside, so a later one does not
        have hRest := hFits hWithin
        rw [List.drop_drop, ← Nat.add_assoc] at hRest
        rw [List.length_drop] at hWithin
        exact ih (by omega) hRest
      · -- this one does not, and the loop ends behind it
        right
        rw [List.length_drop] at hWithin
        refine ⟨_, leAt buf (CMD_HEADER_SIZE + pos) 2,
          CMD_HEADER_SIZE + pos, tlvLoop_end (by omega),
          Function.update_self .., by omega, by omega, ?_⟩
        rintro ⟨_, hInside⟩
        omega

end Loop

----------
-- One Command
----------

section Command

variable {s : SendStream}
variable {file : List UInt8}

/- The buffer after the header was read. -/
def headerLoaded
    (s : SendStream)
    (file : List UInt8) : List UInt8 :=
  file.take CMD_HEADER_SIZE ++ s.buf.drop CMD_HEADER_SIZE

/- The buffer after the payload was read. -/
def payloadLoaded
    (s : SendStream)
    (file payload : List UInt8) : List UInt8 :=
  file.take CMD_HEADER_SIZE ++ payload ++
    s.buf.drop (CMD_HEADER_SIZE + payload.length)

/- A number inside the header is that of the file. -/
theorem leAt_header
    {place width : Nat}
    (hIn : place + width ≤ CMD_HEADER_SIZE)
    (hFile : CMD_HEADER_SIZE ≤ file.length)
    (more : List UInt8) :
    leAt (file.take CMD_HEADER_SIZE ++ more) place width =
      leAt file place width := by
  unfold leAt
  have hHead : (file.take CMD_HEADER_SIZE).length =
      CMD_HEADER_SIZE :=
    List.length_take_of_le hFile
  rw [List.drop_append_of_le_length (by omega),
    List.take_append_of_le_length
      (by rw [List.length_drop]; omega),
    List.drop_take, List.take_take]
  congr 1
  congr 1
  omega

theorem readBuf_header
    (hFile : CMD_HEADER_SIZE ≤ file.length) :
    readBuf s.buf 0 CMD_HEADER_SIZE file =
      .ok (headerLoaded s file, file.drop CMD_HEADER_SIZE) := by
  have hGot : (file.take CMD_HEADER_SIZE).length =
      CMD_HEADER_SIZE :=
    List.length_take_of_le hFile
  unfold readBuf headerLoaded
  simp only [hGot]
  rw [if_neg (by decide), if_neg (by omega)]
  simp

/- A header that is cut off is an error. -/
theorem readCmd_short
    (hFile : file.length < CMD_HEADER_SIZE) :
    readCmd s file = .error (.err .einval) := by
  have hGot : (file.take CMD_HEADER_SIZE).length =
      file.length := by
    rw [List.length_take]
    omega
  have hRead :
      readBuf s.buf 0 CMD_HEADER_SIZE file =
        .error (.err .einval) := by
    unfold readBuf
    simp only [hGot]
    unfold SEND_BUF_SIZE
    unfold CMD_HEADER_SIZE at hFile ⊢
    rw [if_neg (by omega), if_pos hFile]
  unfold readCmd
  rw [hRead]
  rfl

/- The part of `read_cmd` behind the length. -/
def readPayload
    (buf : List UInt8)
    (cmdLen : Int)
    (cmd : Nat)
    (file : List UInt8) :
    Except Stop (SendStream × Int × List UInt8) := do
  let (buf, file) ←
    readBuf buf CMD_HEADER_SIZE cmdLen.toNat file
  let crc := leAt buf 6 4
  let buf := clearCrc buf
  if SEND_BUF_SIZE < crcLen cmdLen then
    .error .bug
  else if crc ≠ (crc32c 0 (buf.take (crcLen cmdLen))).toNat then
    .error (.err .einval)
  else do
    let attrs ←
      tlvLoop buf cmdLen cmdLen.toNat 0 fun _ => none
    .ok (⟨buf, attrs, cmd⟩, cmdLen, file)

theorem readCmd_eq
    (hFile : CMD_HEADER_SIZE ≤ file.length) :
    readCmd s file =
      readPayload (headerLoaded s file)
        (toInt (leAt file 0 4)) (leAt file 4 2)
        (file.drop CMD_HEADER_SIZE) := by
  unfold readCmd
  rw [readBuf_header hFile]
  have hLen :
      leAt (headerLoaded s file) 0 4 = leAt file 0 4 :=
    leAt_header (by decide) hFile _
  have hCmd :
      leAt (headerLoaded s file) 4 2 = leAt file 4 2 :=
    leAt_header (by decide) hFile _
  rw [← hLen, ← hCmd]
  rfl

theorem leAt_four_lt
    (buf : List UInt8)
    (place : Nat) :
    leAt buf place 4 < 2 ^ 32 := by
  have hBound := LittleEndian.decode_lt
    ((buf.drop place).take 4)
  have hShort : ((buf.drop place).take 4).length ≤ 4 := by
    simp
  have hPow : 256 ^ ((buf.drop place).take 4).length ≤
      256 ^ 4 :=
    Nat.pow_le_pow_right (by decide) hShort
  unfold leAt
  omega

/- A length that is negative as an `int`. -/
theorem readCmd_negative
    (hFile : CMD_HEADER_SIZE ≤ file.length)
    (hNegative : 2 ^ 31 ≤ leAt file 0 4) :
    (readCmd s file = .error .bug ↔
      leAt file 0 4 < 2 ^ 32 - CMD_HEADER_SIZE) ∧
      ∀ s' cmdLen rest,
        readCmd s file = .ok (s', cmdLen, rest) →
          ∀ t, s'.attrs t = none := by
  have hBound := leAt_four_lt file 0
  have hInt : toInt (leAt file 0 4) =
      (leAt file 0 4 : Int) - 2 ^ 32 := by
    unfold toInt
    rw [if_neg (by omega)]
  have hZero : (toInt (leAt file 0 4)).toNat = 0 := by
    rw [hInt]
    omega
  have hCrcLen :
      SEND_BUF_SIZE < crcLen (toInt (leAt file 0 4)) ↔
        leAt file 0 4 < 2 ^ 32 - CMD_HEADER_SIZE := by
    rw [hInt]
    unfold crcLen CMD_HEADER_SIZE SEND_BUF_SIZE
    omega
  have hRead :
      readBuf (headerLoaded s file) CMD_HEADER_SIZE 0
          (file.drop CMD_HEADER_SIZE) =
        .ok (headerLoaded s file,
          file.drop CMD_HEADER_SIZE) := by
    unfold readBuf
    simp [CMD_HEADER_SIZE, SEND_BUF_SIZE]
  rw [readCmd_eq hFile]
  unfold readPayload
  rw [hZero, hRead]
  simp only [bind, Except.bind]
  by_cases hLong :
      SEND_BUF_SIZE < crcLen (toInt (leAt file 0 4))
  · rw [if_pos hLong]
    refine ⟨⟨fun _ => hCrcLen.mp hLong, fun _ => rfl⟩, ?_⟩
    intro s' cmdLen rest hOk
    cases hOk
  · rw [if_neg hLong]
    have hNot : ¬ leAt file 0 4 < 2 ^ 32 - CMD_HEADER_SIZE :=
      fun h => hLong (hCrcLen.mpr h)
    split_ifs with hCrc
    · refine ⟨⟨?_, fun h => absurd h hNot⟩, ?_⟩
      · intro hBug
        cases hBug
      · intro s' cmdLen rest hOk
        cases hOk
    · refine ⟨⟨?_, fun h => absurd h hNot⟩, ?_⟩
      · intro hBug
        cases hBug
      · intro s' cmdLen rest hOk t
        cases hOk
        rfl

/- The buffer that the loop over the TLVs looks at. -/
def loaded
    (s : SendStream)
    (file payload : List UInt8) : List UInt8 :=
  file.take 6 ++ [0, 0, 0, 0] ++ payload ++
    s.buf.drop (CMD_HEADER_SIZE + payload.length)

theorem clearCrc_payloadLoaded
    (hFile : CMD_HEADER_SIZE ≤ file.length)
    (payload : List UInt8) :
    clearCrc (payloadLoaded s file payload) =
      loaded s file payload := by
  have hHead : (file.take CMD_HEADER_SIZE).length =
      CMD_HEADER_SIZE :=
    List.length_take_of_le hFile
  unfold clearCrc payloadLoaded loaded
  rw [List.append_assoc (file.take CMD_HEADER_SIZE)]
  have hTake :
      (file.take CMD_HEADER_SIZE ++
          (payload ++ s.buf.drop
            (CMD_HEADER_SIZE + payload.length))).take 6 =
        file.take 6 := by
    rw [List.take_append_of_le_length
      (by rw [hHead]; decide), List.take_take]
    rfl
  have hDrop :
      (file.take CMD_HEADER_SIZE ++
          (payload ++ s.buf.drop
            (CMD_HEADER_SIZE + payload.length))).drop 10 =
        payload ++ s.buf.drop
          (CMD_HEADER_SIZE + payload.length) :=
    List.drop_left' hHead
  rw [hTake, hDrop]
  simp only [List.append_assoc]

/- A length that is not negative, and bytes for it. -/
theorem readCmd_nonneg
    (hFile : CMD_HEADER_SIZE ≤ file.length)
    (hSign : leAt file 0 4 < 2 ^ 31)
    (hRoom :
      CMD_HEADER_SIZE + leAt file 0 4 ≤ SEND_BUF_SIZE)
    {payload : List UInt8}
    (hPayload :
      payload = (file.drop CMD_HEADER_SIZE).take (leAt file 0 4))
    (hBytes : payload.length = leAt file 0 4) :
    readCmd s file =
      if CrcMatches (file.take CMD_HEADER_SIZE) payload then do
        let attrs ←
          tlvLoop (loaded s file payload) payload.length
            payload.length 0 fun _ => none
        .ok (⟨loaded s file payload, attrs, leAt file 4 2⟩,
          payload.length,
          (file.drop CMD_HEADER_SIZE).drop payload.length)
      else
        .error (.err .einval) := by
  have hHead : (file.take CMD_HEADER_SIZE).length =
      CMD_HEADER_SIZE :=
    List.length_take_of_le hFile
  have hInt : toInt (leAt file 0 4) = payload.length := by
    unfold toInt
    rw [if_pos hSign, hBytes]
  have hRead :
      readBuf (headerLoaded s file) CMD_HEADER_SIZE
          payload.length (file.drop CMD_HEADER_SIZE) =
        .ok (payloadLoaded s file payload,
          (file.drop CMD_HEADER_SIZE).drop
            payload.length) := by
    unfold readBuf
    rw [← hBytes] at hPayload
    simp only [← hPayload]
    rw [if_neg (by omega), if_neg (by omega)]
    unfold headerLoaded payloadLoaded
    rw [List.take_left' hHead, List.drop_append, hHead]
    simp only [List.drop_drop]
    rw [List.drop_eq_nil_of_le (by omega)]
    congr 3
    simp only [List.nil_append]
    congr 1
    omega
  have hCrcLen :
      crcLen payload.length =
        CMD_HEADER_SIZE + payload.length := by
    unfold crcLen
    unfold CMD_HEADER_SIZE SEND_BUF_SIZE at *
    omega
  have hTake :
      (loaded s file payload).take
          (CMD_HEADER_SIZE + payload.length) =
        file.take 6 ++ [0, 0, 0, 0] ++ payload := by
    unfold loaded
    apply List.take_left'
    simp only [List.length_append, List.length_take,
      List.length_cons, List.length_nil]
    unfold CMD_HEADER_SIZE at hFile ⊢
    omega
  have hCrc :
      leAt (payloadLoaded s file payload) 6 4 =
        leAt (file.take CMD_HEADER_SIZE) 6 4 := by
    unfold payloadLoaded
    rw [List.append_assoc, leAt_header (by decide) hFile]
    have hSame :
        leAt (file.take CMD_HEADER_SIZE ++ []) 6 4 =
          leAt file 6 4 :=
      leAt_header (by decide) hFile []
    rw [List.append_nil] at hSame
    exact hSame.symm
  have hMatches :
      CrcMatches (file.take CMD_HEADER_SIZE) payload ↔
        leAt (payloadLoaded s file payload) 6 4 =
          (crc32c 0 ((loaded s file payload).take
            (CMD_HEADER_SIZE + payload.length))).toNat := by
    unfold CrcMatches
    rw [hCrc, hTake, List.take_take]
    rfl
  rw [readCmd_eq hFile]
  unfold readPayload
  rw [hInt, Int.toNat_natCast, hRead]
  simp only [bind, Except.bind]
  rw [clearCrc_payloadLoaded hFile, hCrcLen,
    if_neg (by omega)]
  by_cases hOk :
      CrcMatches (file.take CMD_HEADER_SIZE) payload
  · rw [if_pos hOk, if_neg (not_not.mpr (hMatches.mp hOk))]
  · rw [if_neg hOk, if_pos (fun h => hOk (hMatches.mpr h))]

/- More bytes than the buffer has room for. -/
theorem readCmd_overflow
    (hFile : CMD_HEADER_SIZE ≤ file.length)
    (hSign : leAt file 0 4 < 2 ^ 31)
    (hRoom :
      SEND_BUF_SIZE < CMD_HEADER_SIZE +
        ((file.drop CMD_HEADER_SIZE).take
          (leAt file 0 4)).length) :
    readCmd s file = .error .bug := by
  have hInt : toInt (leAt file 0 4) = leAt file 0 4 := by
    unfold toInt
    rw [if_pos hSign]
  rw [readCmd_eq hFile]
  unfold readPayload
  rw [hInt, Int.toNat_natCast]
  unfold readBuf
  simp only
  rw [if_pos hRoom]
  rfl

/- A payload that is cut off is an error. -/
theorem readCmd_cut
    (hFile : CMD_HEADER_SIZE ≤ file.length)
    (hSign : leAt file 0 4 < 2 ^ 31)
    (hRoom :
      CMD_HEADER_SIZE +
        ((file.drop CMD_HEADER_SIZE).take
          (leAt file 0 4)).length ≤ SEND_BUF_SIZE)
    (hCut :
      (file.drop CMD_HEADER_SIZE).length < leAt file 0 4) :
    readCmd s file = .error (.err .einval) := by
  have hInt : toInt (leAt file 0 4) = leAt file 0 4 := by
    unfold toInt
    rw [if_pos hSign]
  have hGot :
      ((file.drop CMD_HEADER_SIZE).take
        (leAt file 0 4)).length < leAt file 0 4 := by
    rw [List.length_take]
    omega
  rw [readCmd_eq hFile]
  unfold readPayload
  rw [hInt, Int.toNat_natCast]
  unfold readBuf
  simp only
  rw [if_neg (by omega), if_pos hGot]
  rfl

theorem loaded_length
    (hLen : s.buf.length = SEND_BUF_SIZE)
    (hFile : CMD_HEADER_SIZE ≤ file.length)
    {payload : List UInt8}
    (hRoom :
      CMD_HEADER_SIZE + payload.length ≤ SEND_BUF_SIZE) :
    (loaded s file payload).length = SEND_BUF_SIZE := by
  unfold loaded
  simp only [List.length_append, List.length_take,
    List.length_cons, List.length_nil, List.length_drop]
  unfold CMD_HEADER_SIZE at *
  omega

theorem loaded_drop
    (hFile : CMD_HEADER_SIZE ≤ file.length)
    (payload : List UInt8) :
    (loaded s file payload).drop CMD_HEADER_SIZE =
      payload ++
        s.buf.drop (CMD_HEADER_SIZE + payload.length) := by
  unfold loaded
  rw [List.append_assoc]
  apply List.drop_left'
  simp only [List.length_append, List.length_take,
    List.length_cons, List.length_nil]
  unfold CMD_HEADER_SIZE at *
  omega

/- What `tlv_get` returns is what was recorded. -/
theorem tlvGet_ok_iff
    {attr place len : Nat} :
    tlvGet s attr = .ok (place, len) ↔
      0 < attr ∧ attr ≤ SEND_A_MAX ∧
        ∃ hdr, s.attrs attr = some hdr ∧
          place = hdr + TLV_HEADER_SIZE ∧
            len = leAt s.buf (hdr + 2) 2 := by
  unfold tlvGet
  split_ifs with hRange
  · constructor
    · intro hOk
      cases hOk
    · rintro ⟨_, _, _⟩
      omega
  · cases hAttr : s.attrs attr with
    | none =>
        constructor
        · intro hOk
          cases hOk
        · rintro ⟨_, _, hdr, hSome, _⟩
          cases hSome
    | some hdr =>
        constructor
        · intro hOk
          cases hOk
          exact ⟨by omega, by omega, hdr, rfl, rfl, rfl⟩
        · rintro ⟨_, _, hdr', hSome, rfl, rfl⟩
          cases hSome
          rfl

/-
  `read_cmd` keeps to the buffer and to the payload exactly
  for the commands that do.
-/
theorem contained_iff_wellBounded
    (hLen : s.buf.length = SEND_BUF_SIZE) :
    Contained s file ↔ WellBounded s file := by
  by_cases hFile : file.length < CMD_HEADER_SIZE
  · refine ⟨fun _ => Or.inl hFile, fun _ => ?_⟩
    unfold Contained
    rw [readCmd_short hFile]
    refine ⟨by simp, ?_⟩
    intro s' cmdLen rest hOk
    cases hOk
  have hFile' : CMD_HEADER_SIZE ≤ file.length := by omega
  by_cases hSign : leAt file 0 4 < 2 ^ 31
  case neg =>
    rcases readCmd_negative hFile' (by omega) with
      ⟨hBug, hAttrs⟩
    constructor
    · intro hContained
      have hLong := fun h => hContained.1 (hBug.mpr h)
      exact Or.inr (Or.inr (Nat.le_of_not_lt hLong))
    · intro hBounded
      refine ⟨?_, ?_⟩
      · intro h
        have hLong := hBug.mp h
        rcases hBounded with h | h | h
        · exact hFile h
        · exact hSign h.1
        · omega
      · intro s' cmdLen rest hOk attr place len hGet
        rcases tlvGet_ok_iff.mp hGet with
          ⟨_, _, hdr, hSome, _⟩
        rw [hAttrs s' cmdLen rest hOk attr] at hSome
        cases hSome
  generalize hPayload :
    (file.drop CMD_HEADER_SIZE).take (leAt file 0 4) = payload
  have hBounded :
      WellBounded s file ↔
        CMD_HEADER_SIZE + payload.length ≤ SEND_BUF_SIZE ∧
          ((file.drop CMD_HEADER_SIZE).length <
              leAt file 0 4 ∨
            ¬ CrcMatches (file.take CMD_HEADER_SIZE) payload ∨
            Tiled
              (s.buf.drop (CMD_HEADER_SIZE + leAt file 0 4))
              (leAt file 0 4) payload) := by
    unfold WellBounded
    simp only [hPayload]
    have hSmall : ¬ 2 ^ 32 - CMD_HEADER_SIZE ≤
        leAt file 0 4 := by
      unfold CMD_HEADER_SIZE
      omega
    tauto
  rw [hBounded]
  by_cases hRoom :
      SEND_BUF_SIZE < CMD_HEADER_SIZE + payload.length
  · constructor
    · intro hContained
      rw [← hPayload] at hRoom
      exact absurd (readCmd_overflow hFile' hSign hRoom)
        hContained.1
    · intro h
      omega
  have hRoom' :
      CMD_HEADER_SIZE + payload.length ≤ SEND_BUF_SIZE := by
    omega
  by_cases hCut :
      (file.drop CMD_HEADER_SIZE).length < leAt file 0 4
  · refine ⟨fun _ => ⟨hRoom', Or.inl hCut⟩, fun _ => ?_⟩
    unfold Contained
    rw [readCmd_cut hFile' hSign (by rw [hPayload]; exact hRoom')
      hCut]
    refine ⟨by simp, ?_⟩
    intro s' cmdLen rest hOk
    cases hOk
  have hBytes : payload.length = leAt file 0 4 := by
    rw [← hPayload, List.length_take]
    omega
  have hRead := readCmd_nonneg (s := s) hFile' hSign
    (by omega) hPayload.symm hBytes
  by_cases hCrc :
      CrcMatches (file.take CMD_HEADER_SIZE) payload
  case neg =>
    rw [if_neg hCrc] at hRead
    refine ⟨fun _ => ⟨hRoom', Or.inr (Or.inl hCrc)⟩,
      fun _ => ?_⟩
    unfold Contained
    rw [hRead]
    refine ⟨by simp, ?_⟩
    intro s' cmdLen rest hOk
    cases hOk
  rw [if_pos hCrc] at hRead
  have hBufLen := loaded_length hLen hFile' hRoom'
  have hDrop := loaded_drop (s := s) hFile' payload
  rw [← hBytes] at hCut ⊢
  by_cases hTiled :
      Tiled (s.buf.drop (CMD_HEADER_SIZE + payload.length))
        payload.length payload
  · refine ⟨fun _ => ⟨hRoom', Or.inr (Or.inr hTiled)⟩,
      fun _ => ?_⟩
    rcases tlvLoop_of_tiled  hBufLen
      hDrop (Nat.zero_le _) hTiled with ⟨hNoBug, hAttrs⟩
    unfold Contained
    rw [hRead]
    cases hLoop :
        tlvLoop (loaded s file payload) payload.length
          payload.length 0 fun _ => none with
    | error stop =>
        rw [hLoop] at hNoBug
        refine ⟨fun h => hNoBug (by cases h; rfl), ?_⟩
        intro s' cmdLen rest hOk
        cases hOk
    | ok attrs =>
        refine ⟨by simp [bind, Except.bind], ?_⟩
        intro s' cmdLen rest hOk attr place len hGet
        cases hOk
        rcases tlvGet_ok_iff.mp hGet with
          ⟨_, _, hdr, hSome, rfl, rfl⟩
        rcases hAttrs attrs hLoop attr hdr hSome with h | h
        · cases h
        · unfold Inside at h
          simp only
          omega
  · refine ⟨fun hContained => ?_, fun h => ?_⟩
    · exfalso
      unfold Contained at hContained
      rw [hRead] at hContained
      rcases tlvLoop_of_not_tiled 
        hBufLen hDrop (Nat.zero_le _) hTiled with
        hBug | ⟨attrs, t, hdr, hLoop, hSome, hLow, hHigh, hOut⟩
      · rw [hBug] at hContained
        exact hContained.1 rfl
      · rw [hLoop] at hContained
        have hIn := hContained.2 _ _ _ rfl t _ _
          (tlvGet_ok_iff.mpr
            ⟨hLow, hHigh, hdr, hSome, rfl, rfl⟩)
        apply hOut
        unfold Inside
        simp only at hIn
        omega
    · rcases h.2 with h | h | h
      · exact absurd h hCut
      · exact absurd hCrc h
      · exact absurd h hTiled

theorem readBuf_length
    {buf buf' file' : List UInt8}
    {place len : Nat}
    (hLen : buf.length = SEND_BUF_SIZE)
    (hRead : readBuf buf place len file = .ok (buf', file')) :
    buf'.length = SEND_BUF_SIZE := by
  unfold readBuf at hRead
  simp only at hRead
  split_ifs at hRead
  cases hRead
  simp only [List.length_append, List.length_take,
    List.length_drop] at *
  omega

theorem clearCrc_length
    {buf : List UInt8}
    (hLen : buf.length = SEND_BUF_SIZE) :
    (clearCrc buf).length = SEND_BUF_SIZE := by
  unfold clearCrc
  simp only [List.length_append, List.length_take,
    List.length_cons, List.length_nil, List.length_drop]
  unfold SEND_BUF_SIZE at *
  omega

/- The buffer keeps its size, and a command fits into it. -/
theorem readCmd_ok
    {s' : SendStream}
    {cmdLen : Int}
    {rest : List UInt8}
    (hLen : s.buf.length = SEND_BUF_SIZE)
    (hRead : readCmd s file = .ok (s', cmdLen, rest)) :
    s'.buf.length = SEND_BUF_SIZE ∧
      CMD_HEADER_SIZE + cmdLen ≤ SEND_BUF_SIZE := by
  unfold readCmd at hRead
  cases hHeader : readBuf s.buf 0 CMD_HEADER_SIZE file with
  | error stop =>
      rw [hHeader] at hRead
      cases hRead
  | ok first =>
      rcases first with ⟨buf, file'⟩
      rw [hHeader] at hRead
      simp only [bind, Except.bind] at hRead
      cases hPayload :
          readBuf buf CMD_HEADER_SIZE
            (toInt (leAt buf 0 4)).toNat file' with
      | error stop =>
          rw [hPayload] at hRead
          cases hRead
      | ok second =>
          rcases second with ⟨buf', file''⟩
          rw [hPayload] at hRead
          simp only at hRead
          split_ifs at hRead with hLong hCrc
          split at hRead
          case h_1 => cases hRead
          case h_2 attrs hLoop =>
            cases hRead
            refine ⟨?_, ?_⟩
            · apply clearCrc_length
              exact readBuf_length
                (readBuf_length hLen hHeader) hPayload
            · have hBound := leAt_four_lt buf 0
              have hInt := hLong
              unfold toInt at hInt ⊢
              unfold crcLen at hInt
              unfold SEND_BUF_SIZE CMD_HEADER_SIZE at *
              split_ifs at hInt ⊢ with hSign
              · omega
              · omega

end Command

----------
-- The Whole Stream
----------

section NoBug

variable {α β : Type}

/- The code stays inside its objects. -/
def NoBug
    (x : Except Stop α) : Prop :=
  x ≠ .error .bug

theorem noBug_ok
    (a : α) :
    NoBug (.ok a) := by
  intro h
  cases h

theorem NoBug.bind
    {x : Except Stop α}
    {f : α → Except Stop β}
    (hFirst : NoBug x)
    (hThen : ∀ a, x = .ok a → NoBug (f a)) :
    NoBug (x >>= f) := by
  cases x with
  | error stop =>
      intro h
      apply hFirst
      cases h
      rfl
  | ok a => exact hThen a rfl

/- All attributes are in the buffer. -/
def AttrsInBuf
    (s : SendStream) : Prop :=
  ∀ attr place len,
    tlvGet s attr = .ok (place, len) →
      place + len ≤ SEND_BUF_SIZE

variable {s : SendStream}

theorem tlvGet_noBug
    (attr : Nat) :
    NoBug (tlvGet s attr) := by
  unfold tlvGet
  split
  · intro h
    cases h
  · split
    · intro h
      cases h
    · exact noBug_ok _

theorem tlvBytes_noBug
    (hAttrs : AttrsInBuf s)
    (attr : Attr) :
    NoBug (tlvBytes s attr) := by
  refine NoBug.bind (tlvGet_noBug _) ?_
  rintro ⟨place, len⟩ hGet
  have hIn := hAttrs _ _ _ hGet
  simp only
  rw [if_neg (by omega)]
  exact noBug_ok _

theorem tlvSized_noBug
    (hAttrs : AttrsInBuf s)
    (attr : Attr)
    (expected : Nat) :
    NoBug (tlvSized s attr expected) := by
  refine NoBug.bind (tlvGet_noBug _) ?_
  rintro ⟨place, len⟩ _
  simp only
  split
  · intro h
    cases h
  · exact tlvBytes_noBug hAttrs attr

theorem tlvGetString_noBug
    (hAttrs : AttrsInBuf s)
    (attr : Attr) :
    NoBug (tlvGetString s attr) :=
  NoBug.bind (tlvBytes_noBug hAttrs attr) fun _ _ => noBug_ok _

theorem tlvGetU64_noBug
    (hAttrs : AttrsInBuf s)
    (attr : Attr) :
    NoBug (tlvGetU64 s attr) :=
  NoBug.bind (tlvSized_noBug hAttrs attr 8)
    fun _ _ => noBug_ok _

theorem tlvGetU64AsInt_noBug
    (hAttrs : AttrsInBuf s)
    (attr : Attr) :
    NoBug (tlvGetU64AsInt s attr) :=
  NoBug.bind (tlvGetU64_noBug hAttrs attr) fun _ _ => noBug_ok _

theorem tlvGetTimespec_noBug
    (hAttrs : AttrsInBuf s)
    (attr : Attr) :
    NoBug (tlvGetTimespec s attr) :=
  NoBug.bind (tlvSized_noBug hAttrs attr 12)
    fun _ _ => noBug_ok _

theorem tlvGetUuid_noBug
    (hAttrs : AttrsInBuf s)
    (attr : Attr) :
    NoBug (tlvGetUuid s attr) :=
  tlvSized_noBug hAttrs attr 16

/- No command reads outside attributes that are inside. -/
theorem processCmd_noBug
    (hAttrs : AttrsInBuf s) :
    NoBug (processCmd s) := by
  have hBytes := tlvBytes_noBug hAttrs
  have hString := tlvGetString_noBug hAttrs
  have hU64 := tlvGetU64_noBug hAttrs
  have hInt := tlvGetU64AsInt_noBug hAttrs
  have hTime := tlvGetTimespec_noBug hAttrs
  have hUuid := tlvGetUuid_noBug hAttrs
  unfold processCmd
  split
  all_goals
    repeat
      first
      | exact noBug_ok _
      | refine NoBug.bind (hString _) fun _ _ => ?_
      | refine NoBug.bind (hU64 _) fun _ _ => ?_
      | refine NoBug.bind (hUuid _) fun _ _ => ?_
      | refine NoBug.bind (hBytes _) fun _ _ => ?_
      | refine NoBug.bind (hInt _) fun _ _ => ?_
      | refine NoBug.bind (hTime _) fun _ _ => ?_

end NoBug

section Streams

variable {User : Type}

/- The header of a stream that is read on. -/
def HeaderOk
    (file : List UInt8) : Prop :=
  STREAM_HEADER_SIZE ≤ file.length ∧
    file.take 13 = SEND_STREAM_MAGIC ∧
    leAt (file.take STREAM_HEADER_SIZE) 13 4 ≤
      SEND_STREAM_VERSION

instance
    (file : List UInt8) :
    Decidable (HeaderOk file) := by
  unfold HeaderOk
  infer_instance

/- `read_cmd` is called with this buffer and file. -/
inductive Reached
    (ops : SendOps User)
    (buf file : List UInt8)
    (user : User) :
    SendStream → List UInt8 → User → Prop where
  | start
      (hHeader : HeaderOk file) :
      Reached ops buf file user ⟨buf, fun _ => none, 0⟩
        (file.drop STREAM_HEADER_SIZE) user
  | nothing
      {s s' : SendStream}
      {rest rest' : List UInt8}
      {u : User}
      (hBefore : Reached ops buf file user s rest u)
      (hCmd :
        readAndProcessCmd s rest = .ok (s', .nothing, rest')) :
      Reached ops buf file user s' rest' u
  | op
      {s s' : SendStream}
      {rest rest' : List UInt8}
      {u : User}
      {op : SendOp}
      (hBefore : Reached ops buf file user s rest u)
      (hCmd :
        readAndProcessCmd s rest = .ok (s', .op op, rest'))
      (hRet : (ops u op).1 = 0) :
      Reached ops buf file user s' rest' (ops u op).2

/-
  Reading a stream stays inside its data: no access is outside
  the buffer, and no attribute is outside its command.
-/
def StreamContained
    (ops : SendOps User)
    (honorEndCmd : Bool)
    (buf file : List UInt8)
    (user : User) : Prop :=
  (readAndProcessSendStream ops honorEndCmd buf file
      user).result ≠ .error .bug ∧
    ∀ s rest u,
      Reached ops buf file user s rest u → Contained s rest

variable {ops : SendOps User}
variable {buf file : List UInt8}
variable {user : User}

theorem readAndProcessCmd_ok
    {s s' : SendStream}
    {rest rest' : List UInt8}
    {parsed : Parsed}
    (hCmd :
      readAndProcessCmd s rest = .ok (s', parsed, rest')) :
    ∃ cmdLen, readCmd s rest = .ok (s', cmdLen, rest') := by
  unfold readAndProcessCmd at hCmd
  cases hRead : readCmd s rest with
  | error stop =>
      rw [hRead] at hCmd
      cases hCmd
  | ok r =>
      rcases r with ⟨t, cmdLen, left⟩
      rw [hRead] at hCmd
      simp only [bind, Except.bind] at hCmd
      split at hCmd
      case h_1 => cases hCmd
      case h_2 =>
        cases hCmd
        exact ⟨cmdLen, rfl⟩

theorem Reached.length
    (hBuf : buf.length = SEND_BUF_SIZE)
    {s : SendStream}
    {rest : List UInt8}
    {u : User}
    (hReached : Reached ops buf file user s rest u) :
    s.buf.length = SEND_BUF_SIZE := by
  induction hReached with
  | start _ => exact hBuf
  | nothing _ hCmd ih
  | op _ hCmd _ ih =>
      rcases readAndProcessCmd_ok hCmd with ⟨_, hRead⟩
      exact (readCmd_ok ih hRead).1

/- A contained command does not leave the buffer at all. -/
theorem readAndProcessCmd_noBug
    {s : SendStream}
    {rest : List UInt8}
    (hLen : s.buf.length = SEND_BUF_SIZE)
    (hContained : Contained s rest) :
    NoBug (readAndProcessCmd s rest) := by
  refine NoBug.bind hContained.1 ?_
  rintro ⟨s', cmdLen, rest'⟩ hRead
  have hRoom := (readCmd_ok hLen hRead).2
  have hAttrs : AttrsInBuf s' := by
    intro attr place len hGet
    have hIn := (hContained.2 _ _ _ hRead _ _ _ hGet).2
    omega
  exact NoBug.bind (processCmd_noBug hAttrs)
    fun _ _ => noBug_ok _

theorem processLoop_noBug
    (hBuf : buf.length = SEND_BUF_SIZE)
    (honorEndCmd : Bool)
    (hContained :
      ∀ s rest u,
        Reached ops buf file user s rest u →
          Contained s rest)
    {fuel : Nat}
    {s : SendStream}
    {rest : List UInt8}
    {u : User}
    (hReached : Reached ops buf file user s rest u) :
    (processLoop ops honorEndCmd fuel s rest u).result ≠
      .error .bug := by
  induction fuel generalizing s rest u with
  | zero =>
      intro h
      cases h
  | succ fuel ih =>
      have hNoBug := readAndProcessCmd_noBug
        (hReached.length hBuf)
        (hContained s rest u hReached)
      unfold processLoop
      split
      case h_1 stop hCmd =>
        rw [hCmd] at hNoBug
        intro h
        apply hNoBug
        cases h
        rfl
      case h_2 =>
        intro h
        cases h
      case h_3 s' rest' hCmd =>
        exact ih (hReached.nothing hCmd)
      case h_4 s' op rest' hCmd =>
        simp only
        split_ifs with hNegative hPositive
        · intro h
          cases h
        · intro h
          cases h
        · exact ih (hReached.op hCmd (by omega))

/-
  Reading a stream stays inside its data exactly when every
  command that is read keeps to the buffer and its payload.
-/
theorem streamContained_iff
    (ops : SendOps User)
    (honorEndCmd : Bool)
    {buf : List UInt8}
    (hBuf : buf.length = SEND_BUF_SIZE)
    (file : List UInt8)
    (user : User) :
    StreamContained ops honorEndCmd buf file user ↔
      ∀ s rest u,
        Reached ops buf file user s rest u →
          WellBounded s rest := by
  constructor
  · intro hContained s rest u hReached
    rw [← contained_iff_wellBounded (hReached.length hBuf)]
    exact hContained.2 s rest u hReached
  · intro hBounded
    have hContained : ∀ s rest u,
        Reached ops buf file user s rest u →
          Contained s rest := by
      intro s rest u hReached
      rw [contained_iff_wellBounded (hReached.length hBuf)]
      exact hBounded s rest u hReached
    refine ⟨?_, hContained⟩
    unfold readAndProcessSendStream
    simp only
    split_ifs with hShort hMagic hVersion
    · intro h
      cases h
    · intro h
      cases h
    · intro h
      cases h
    · apply processLoop_noBug hBuf honorEndCmd hContained
      apply Reached.start
      have hFile : STREAM_HEADER_SIZE ≤ file.length := by
        rw [List.length_take] at hShort
        omega
      refine ⟨hFile, ?_, by omega⟩
      rw [not_not, List.take_take] at hMagic
      exact hMagic

end Streams

/- Callbacks that do nothing, and a buffer of zero bytes. -/
def okOps : SendOps Unit :=
  fun _ _ => (0, ())

def zeroBuf : List UInt8 :=
  List.replicate SEND_BUF_SIZE 0

def streamHeader : List UInt8 :=
  SEND_STREAM_MAGIC ++ [1, 0, 0, 0]

/- A command that makes the file `f`, and an end command. -/
def mkfileBytes : List UInt8 :=
  [5, 0, 0, 0, 3, 0, 103, 242, 16, 207, 15, 0, 1, 0, 102]

def endBytes : List UInt8 :=
  [0, 0, 0, 0, 21, 0, 80, 108, 201, 157]

def mkfileStream : List UInt8 :=
  streamHeader ++ (mkfileBytes ++ endBytes)

theorem mkfileBytes_left
    {s s' : SendStream}
    {parsed : Parsed}
    {rest : List UInt8}
    (hNext :
      readAndProcessCmd s (mkfileBytes ++ endBytes) =
        .ok (s', parsed, rest)) :
    rest = endBytes := by
  rcases readAndProcessCmd_ok hNext with ⟨_, hRead⟩
  rw [readCmd_nonneg (by decide) (by decide) (by decide) rfl
    (by decide), if_pos (by decide +kernel)] at hRead
  simp only [bind, Except.bind] at hRead
  split at hRead
  · cases hRead
  · cases hRead
    rfl

theorem endBytes_finish
    (s : SendStream) :
    ∃ s', readAndProcessCmd s endBytes =
      .ok (s', .finish, []) := by
  have hRead :
      readCmd s endBytes =
        .ok (⟨loaded s endBytes [], fun _ => none, 21⟩, 0,
          []) := by
    rw [readCmd_nonneg (by decide) (by decide) (by decide) rfl
      (by decide), if_pos (by decide +kernel)]
    rfl
  unfold readAndProcessCmd processCmd
  rw [hRead]
  exact ⟨_, rfl⟩

theorem streamContained_iff_mkfile :
    StreamContained okOps true zeroBuf mkfileStream () := by
  apply (streamContained_iff okOps true
    (List.length_replicate ..) mkfileStream ()).mpr
  have hLeft : ∀ s rest u,
      Reached okOps zeroBuf mkfileStream () s rest u →
        rest = mkfileBytes ++ endBytes ∨ rest = endBytes := by
    intro s rest u hReached
    induction hReached with
    | start _ => exact .inl rfl
    | nothing _ hNext ih
    | op _ hNext _ ih =>
        rcases ih with rfl | rfl
        · exact .inr (mkfileBytes_left hNext)
        · rcases endBytes_finish _ with ⟨_, hFinish⟩
          cases hFinish.symm.trans hNext
  intro s rest u hReached
  rcases hLeft s rest u hReached with rfl | rfl
  · refine .inr (.inl ⟨by decide, by decide, .inr (.inr ?_)⟩)
    exact .inr ⟨Nat.le.step (Nat.le_add_left 4 _),
      .inr (.inr ⟨Nat.le_refl 5, .inl rfl⟩)⟩
  · exact .inr (.inl ⟨by decide, by decide,
      .inr (.inr trivial)⟩)

/-
  A command of four bytes, the header of a path of a hundred
  bytes.
-/
def longPathStream : List UInt8 :=
  streamHeader ++
    [4, 0, 0, 0, 3, 0, 1, 70, 181, 44, 15, 0, 100, 0]

/- Its path is outside the command. -/
theorem longPath_not_contained :
    ¬ StreamContained okOps true zeroBuf longPathStream () := by
  rintro ⟨_, hContained⟩
  have hStart :
      Reached okOps zeroBuf longPathStream ()
        ⟨zeroBuf, fun _ => none, 0⟩
        (longPathStream.drop STREAM_HEADER_SIZE) () :=
    .start (by decide)
  have hFirst := hContained _ _ _ hStart
  rw [contained_iff_wellBounded (List.length_replicate ..)]
    at hFirst
  rcases hFirst with h | ⟨_, _, h⟩ | h
  · exact absurd h (by decide)
  · rcases h with h | h | h
    · exact absurd h (by decide)
    · exact h (by decide +kernel)
    · rcases h with h | ⟨_, h | h | h⟩
      · cases h
      · exact absurd h (by decide)
      · exact absurd h (by decide)
      · exact absurd h.1 (by decide)
  · exact absurd h (by decide)

end Send

end BtrfsProgs
