import BtrfsProgs.Send.Encode

/-
  What is decoded from an encoded stream.

  Main declarations:
    * `tlvLoop_encoded`
    * `SendOp.received` and `processCmd_received`
    * `readAndProcessSendStream_faithful_iff`
-/

----------
-- Attributes
----------

namespace BtrfsProgs

namespace Send

open LittleEndian

theorem encodeTlv_length
    (tlv : Tlv) :
    (encodeTlv tlv).length =
      TLV_HEADER_SIZE + tlv.2.length := by
  unfold encodeTlv TLV_HEADER_SIZE
  simp
  omega

/- A number in front of other bytes. -/
theorem leAt_append
    {width n : Nat}
    (before after : List UInt8)
    (hFits : n < 256 ^ width) :
    leAt (before ++ (encode width n ++ after)) before.length
      width = n := by
  unfold leAt
  rw [List.drop_left, List.take_left' (length_encode _ _),
    decode_encode_of_lt hFits]

/- The TLV is in the buffer at this place. -/
def TlvAt
    (buf : List UInt8)
    (hdr : Nat)
    (tlv : Tlv) : Prop :=
  ∃ more, buf.drop hdr = encodeTlv tlv ++ more

variable {buf : List UInt8}
variable {hdr : Nat}
variable {tlv : Tlv}

theorem TlvAt.type
    (hAt : TlvAt buf hdr tlv)
    (hType : tlv.1 < 2 ^ 16) :
    leAt buf hdr 2 = tlv.1 := by
  rcases hAt with ⟨more, hDrop⟩
  have hFirst :
      leAt ([] ++ (encode 2 tlv.1 ++
          (encode 2 tlv.2.length ++ tlv.2 ++ more)))
        ([] : List UInt8).length 2 = tlv.1 :=
    leAt_append _ _ hType
  unfold leAt at hFirst ⊢
  rw [hDrop]
  unfold encodeTlv
  simpa using hFirst

theorem TlvAt.len
    (hAt : TlvAt buf hdr tlv)
    (hSize : tlv.2.length < 2 ^ 16) :
    leAt buf (hdr + 2) 2 = tlv.2.length := by
  rcases hAt with ⟨more, hDrop⟩
  have hSecond :
      leAt (encode 2 tlv.1 ++ (encode 2 tlv.2.length ++
          (tlv.2 ++ more))) (encode 2 tlv.1).length 2 =
        tlv.2.length :=
    leAt_append _ _ hSize
  rw [length_encode] at hSecond
  unfold leAt at hSecond ⊢
  rw [← List.drop_drop, hDrop]
  unfold encodeTlv
  simpa using hSecond

theorem TlvAt.bytes
    (hAt : TlvAt buf hdr tlv) :
    (buf.drop (hdr + TLV_HEADER_SIZE)).take tlv.2.length =
      tlv.2 := by
  rcases hAt with ⟨more, hDrop⟩
  rw [← List.drop_drop, hDrop]
  unfold encodeTlv
  rw [List.append_assoc,
    List.drop_left' (by simp [TLV_HEADER_SIZE]),
    List.take_left]

theorem TlvAt.end_le
    (hAt : TlvAt buf hdr tlv) :
    hdr + TLV_HEADER_SIZE + tlv.2.length ≤ buf.length := by
  rcases hAt with ⟨more, hDrop⟩
  have hLen := congrArg List.length hDrop
  rw [List.length_append, encodeTlv_length,
    List.length_drop] at hLen
  have hPos : 0 < TLV_HEADER_SIZE := by decide
  omega

/- Every TLV has bytes. -/
theorem length_le_length_flatMap
    (tlvs : List Tlv) :
    tlvs.length ≤ (tlvs.flatMap encodeTlv).length := by
  induction tlvs with
  | nil => exact Nat.zero_le _
  | cons tlv tlvs ih =>
      have hPos : 0 < TLV_HEADER_SIZE := by decide
      rw [List.flatMap_cons, List.length_append,
        encodeTlv_length, List.length_cons]
      omega

/- The loop records every attribute of the payload. -/
theorem tlvLoop_encoded
    {buf behind : List UInt8}
    (hBuf : buf.length = SEND_BUF_SIZE)
    {tlvs : List Tlv}
    (hNodup : (tlvs.map Prod.fst).Nodup)
    (hTypes : ∀ tlv ∈ tlvs, 0 < tlv.1 ∧ tlv.1 ≤ SEND_A_MAX)
    (hSizes : ∀ tlv ∈ tlvs, tlv.2.length < 2 ^ 16)
    {fuel pos cmdLen : Nat}
    (hDrop :
      buf.drop (CMD_HEADER_SIZE + pos) =
        encodePayload tlvs ++ behind)
    (hLen : cmdLen = pos + (encodePayload tlvs).length)
    (hFuel : tlvs.length ≤ fuel)
    (attrs : Nat → Option Nat) :
    ∃ attrs',
      tlvLoop buf cmdLen fuel pos attrs = .ok attrs' ∧
        (∀ t, t ∉ tlvs.map Prod.fst → attrs' t = attrs t) ∧
        ∀ tlv ∈ tlvs, ∃ hdr,
          attrs' tlv.1 = some hdr ∧ TlvAt buf hdr tlv := by
  induction tlvs generalizing fuel pos attrs with
  | nil =>
      refine ⟨attrs, ?_, fun _ _ => rfl, by simp⟩
      apply tlvLoop_end
      simp [hLen, encodePayload]
  | cons tlv tlvs ih =>
      obtain ⟨fuel, rfl⟩ : ∃ k, fuel = k + 1 :=
        ⟨fuel - 1, by simp at hFuel; omega⟩
      have hAt : TlvAt buf (CMD_HEADER_SIZE + pos) tlv := by
        refine ⟨encodePayload tlvs ++ behind, ?_⟩
        rw [hDrop]
        simp [encodePayload]
      have hType := hTypes tlv List.mem_cons_self
      have hSize := hSizes tlv List.mem_cons_self
      have hType0 := hAt.type (by
        unfold SEND_A_MAX at hType
        omega)
      have hLen2 := hAt.len hSize
      have hEnd := hAt.end_le
      have hTotal :
          (encodePayload (tlv :: tlvs)).length =
            TLV_HEADER_SIZE + tlv.2.length +
              (encodePayload tlvs).length := by
        simp [encodePayload, encodeTlv_length]
      have hRest :
          buf.drop (CMD_HEADER_SIZE +
              (pos + TLV_HEADER_SIZE + tlv.2.length)) =
            encodePayload tlvs ++ behind := by
        have hSplit :
            CMD_HEADER_SIZE +
                (pos + TLV_HEADER_SIZE + tlv.2.length) =
              (CMD_HEADER_SIZE + pos) +
                (encodeTlv tlv).length := by
          rw [encodeTlv_length]
          omega
        rw [hSplit, ← List.drop_drop, hDrop]
        simp only [encodePayload, List.flatMap_cons,
          List.append_assoc]
        rw [List.drop_left]
      rw [List.map_cons] at hNodup
      rcases List.nodup_cons.mp hNodup with ⟨hNew, hNodup⟩
      have hFuel' : tlvs.length ≤ fuel := by
        rw [List.length_cons] at hFuel
        omega
      rcases ih hNodup
        (fun t ht => hTypes t (List.mem_cons_of_mem _ ht))
        (fun t ht => hSizes t (List.mem_cons_of_mem _ ht))
        hRest (by omega) hFuel'
        (Function.update attrs tlv.1
          (some (CMD_HEADER_SIZE + pos))) with
        ⟨attrs', hLoop, hSame, hAll⟩
      refine ⟨attrs', ?_, ?_, ?_⟩
      · unfold tlvLoop
        have hPos : 0 < TLV_HEADER_SIZE := by decide
        have hSmall : tlv.2.length ≤ SEND_BUF_SIZE := by
          unfold SEND_BUF_SIZE
          omega
        rw [if_neg (by omega)]
        simp only [hType0, hLen2]
        rw [if_neg (by omega), if_neg (by omega)]
        exact hLoop
      · intro t ht
        rw [List.map_cons, List.mem_cons, not_or] at ht
        rw [hSame t ht.2, Function.update_of_ne ht.1]
      · intro t ht
        rcases List.mem_cons.mp ht with rfl | ht
        · refine ⟨CMD_HEADER_SIZE + pos, ?_, hAt⟩
          rw [hSame _ hNew, Function.update_self]
        · exact hAll t ht

----------
-- One Command
----------

/- The stream holds these attributes. -/
structure Holds
    (s : SendStream)
    (tlvs : List Tlv) : Prop where
  buf : s.buf.length = SEND_BUF_SIZE
  attrs :
    ∀ tlv ∈ tlvs, ∃ hdr,
      s.attrs tlv.1 = some hdr ∧ TlvAt s.buf hdr tlv
  types : ∀ tlv ∈ tlvs, 0 < tlv.1 ∧ tlv.1 ≤ SEND_A_MAX
  sizes : ∀ tlv ∈ tlvs, tlv.2.length < 2 ^ 16

/- The first ten bytes of a command. -/
def encodeHeader
    (cmd : Nat)
    (tlvs : List Tlv) : List UInt8 :=
  encode 4 (encodePayload tlvs).length ++ encode 2 cmd ++
    encode 4 (crc32c 0 (encode 4 (encodePayload tlvs).length ++
      encode 2 cmd ++ [0, 0, 0, 0] ++
        encodePayload tlvs)).toNat

theorem encodeCmd_eq
    (cmd : Nat)
    (tlvs : List Tlv) :
    encodeCmd cmd tlvs =
      encodeHeader cmd tlvs ++ encodePayload tlvs := by
  unfold encodeCmd encodeHeader
  simp only [List.append_assoc]

theorem encodeHeader_length
    (cmd : Nat)
    (tlvs : List Tlv) :
    (encodeHeader cmd tlvs).length = CMD_HEADER_SIZE := by
  unfold encodeHeader CMD_HEADER_SIZE
  simp

section Command

variable {cmd : Nat}
variable {tlvs : List Tlv}
variable {rest : List UInt8}

theorem encodeCmd_len
    (hSmall : (encodePayload tlvs).length < 2 ^ 32) :
    leAt (encodeCmd cmd tlvs ++ rest) 0 4 =
      (encodePayload tlvs).length := by
  rw [encodeCmd_eq]
  unfold encodeHeader
  simp only [List.append_assoc]
  exact leAt_append [] _ hSmall

theorem encodeCmd_cmd
    (hCmd : cmd < 2 ^ 16) :
    leAt (encodeCmd cmd tlvs ++ rest) 4 2 = cmd := by
  have hAt :
      leAt (encode 4 (encodePayload tlvs).length ++
          (encode 2 cmd ++
            (encode 4 (crc32c 0
              (encode 4 (encodePayload tlvs).length ++
                (encode 2 cmd ++ ([0, 0, 0, 0] ++
                  encodePayload tlvs)))).toNat ++
              (encodePayload tlvs ++ rest))))
        (encode 4 (encodePayload tlvs).length).length 2 =
          cmd :=
    leAt_append _ _ hCmd
  rw [length_encode] at hAt
  rw [encodeCmd_eq]
  unfold encodeHeader
  simp only [List.append_assoc]
  exact hAt

theorem encodeCmd_take :
    (encodeCmd cmd tlvs ++ rest).take CMD_HEADER_SIZE =
      encodeHeader cmd tlvs := by
  rw [encodeCmd_eq, List.append_assoc]
  exact List.take_left' (encodeHeader_length cmd tlvs)

theorem encodeCmd_drop :
    (encodeCmd cmd tlvs ++ rest).drop CMD_HEADER_SIZE =
      encodePayload tlvs ++ rest := by
  rw [encodeCmd_eq, List.append_assoc]
  exact List.drop_left' (encodeHeader_length cmd tlvs)

theorem encodeCmd_crc :
    CrcMatches (encodeHeader cmd tlvs)
      (encodePayload tlvs) := by
  have hStart :
      (encode 4 (encodePayload tlvs).length ++
        encode 2 cmd).length = 6 := by
    simp
  have hCrc : ∀ n : BitVec 32,
      leAt (encode 4 (encodePayload tlvs).length ++
          encode 2 cmd ++ encode 4 n.toNat) 6 4 = n.toNat := by
    intro n
    have hAt :
        leAt (encode 4 (encodePayload tlvs).length ++
            encode 2 cmd ++ (encode 4 n.toNat ++ []))
          (encode 4 (encodePayload tlvs).length ++
            encode 2 cmd).length 4 = n.toNat :=
      leAt_append _ _ n.isLt
    rw [hStart, List.append_nil] at hAt
    exact hAt
  unfold CrcMatches encodeHeader
  rw [hCrc, List.take_left' hStart]

variable (cmd tlvs rest) in
/- A command that fits is read with all its attributes. -/
theorem readCmd_encoded
    {s : SendStream}
    (hBuf : s.buf.length = SEND_BUF_SIZE)
    (hCmd : cmd < 2 ^ 16)
    (hNodup : (tlvs.map Prod.fst).Nodup)
    (hTypes : ∀ tlv ∈ tlvs, 0 < tlv.1 ∧ tlv.1 ≤ SEND_A_MAX)
    (hSizes : ∀ tlv ∈ tlvs, tlv.2.length < 2 ^ 16)
    (hRoom :
      CMD_HEADER_SIZE + (encodePayload tlvs).length ≤
        SEND_BUF_SIZE) :
    ∃ s' cmdLen,
      readCmd s (encodeCmd cmd tlvs ++ rest) =
          .ok (s', cmdLen, rest) ∧
        s'.cmd = cmd ∧ Holds s' tlvs := by
  have hSmall : (encodePayload tlvs).length < 2 ^ 31 := by
    unfold SEND_BUF_SIZE at hRoom
    omega
  have hFile :
      CMD_HEADER_SIZE ≤
        (encodeCmd cmd tlvs ++ rest).length := by
    rw [encodeCmd_eq]
    simp only [List.length_append, encodeHeader_length]
    omega
  have hLen :
      leAt (encodeCmd cmd tlvs ++ rest) 0 4 =
        (encodePayload tlvs).length :=
    encodeCmd_len (by omega)
  have hPayload :
      encodePayload tlvs =
        ((encodeCmd cmd tlvs ++ rest).drop
          CMD_HEADER_SIZE).take
            (leAt (encodeCmd cmd tlvs ++ rest) 0 4) := by
    rw [hLen, encodeCmd_drop, List.take_left]
  have hRead := readCmd_nonneg (s := s) hFile
    (by rw [hLen]; exact hSmall) (by rw [hLen]; exact hRoom)
    hPayload hLen.symm
  rw [encodeCmd_take, if_pos encodeCmd_crc, encodeCmd_drop,
    List.drop_left, encodeCmd_cmd hCmd] at hRead
  have hBufLen :
      (loaded s (encodeCmd cmd tlvs ++ rest)
        (encodePayload tlvs)).length = SEND_BUF_SIZE :=
    loaded_length hBuf hFile hRoom
  have hFuel : tlvs.length ≤ (encodePayload tlvs).length := by
    unfold encodePayload
    exact length_le_length_flatMap tlvs
  have hDrop :
      (loaded s (encodeCmd cmd tlvs ++ rest)
          (encodePayload tlvs)).drop (CMD_HEADER_SIZE + 0) =
        encodePayload tlvs ++ s.buf.drop
          (CMD_HEADER_SIZE + (encodePayload tlvs).length) :=
    loaded_drop hFile _
  rcases tlvLoop_encoded hBufLen hNodup hTypes hSizes hDrop
    (Nat.zero_add _).symm hFuel (fun _ => none) with
    ⟨attrs, hLoop, _, hAll⟩
  rw [hLoop] at hRead
  exact ⟨_, _, hRead, rfl, hBufLen, hAll, hTypes, hSizes⟩

end Command

----------
-- Values
----------

section Values

variable {s : SendStream}
variable {tlvs : List Tlv}
variable {attr : Attr}

theorem Holds.get
    (hHolds : Holds s tlvs)
    {v : List UInt8}
    (hMem : (attr.code, v) ∈ tlvs) :
    ∃ hdr,
      tlvGet s attr.code =
          .ok (hdr + TLV_HEADER_SIZE, v.length) ∧
        TlvAt s.buf hdr (attr.code, v) := by
  rcases hHolds.attrs _ hMem with ⟨hdr, hAttr, hAt⟩
  have hType := hHolds.types _ hMem
  have hLen := hAt.len (hHolds.sizes _ hMem)
  refine ⟨hdr, ?_, hAt⟩
  apply tlvGet_ok_iff.mpr
  exact ⟨hType.1, hType.2, hdr, hAttr, rfl, hLen.symm⟩

theorem Holds.bytes
    (hHolds : Holds s tlvs)
    {v : List UInt8}
    (hMem : (attr.code, v) ∈ tlvs) :
    tlvBytes s attr = .ok v := by
  rcases hHolds.get hMem with ⟨hdr, hGet, hAt⟩
  have hEnd := hAt.end_le
  have hBytes := hAt.bytes
  simp only at hEnd hBytes
  rw [hHolds.buf] at hEnd
  unfold tlvBytes
  rw [hGet]
  simp only [bind, Except.bind]
  rw [if_neg (by omega), hBytes]

theorem Holds.sized
    (hHolds : Holds s tlvs)
    {v : List UInt8}
    (hMem : (attr.code, v) ∈ tlvs)
    {n : Nat}
    (hLen : v.length = n) :
    tlvSized s attr n = .ok v := by
  rcases hHolds.get hMem with ⟨hdr, hGet, hAt⟩
  unfold tlvSized
  rw [hGet]
  simp only [bind, Except.bind]
  rw [if_neg (not_not.mpr hLen.symm)]
  exact hHolds.bytes hMem

theorem Holds.string
    (hHolds : Holds s tlvs)
    {v : List UInt8}
    (hMem : (attr.code, v) ∈ tlvs)
    (hName : IsName v) :
    tlvGetString s attr = .ok v := by
  have hAll : cString v = v := by
    unfold cString
    apply List.takeWhile_eq_self_iff.mpr
    intro b hb
    simpa using hName b hb
  unfold tlvGetString
  rw [hHolds.bytes hMem]
  simp only [bind, Except.bind, hAll]

theorem Holds.u64
    (hHolds : Holds s tlvs)
    {v : Nat}
    (hMem : (attr.code, encode 8 v) ∈ tlvs)
    (hRange : IsU64 v) :
    tlvGetU64 s attr = .ok v := by
  unfold tlvGetU64
  rw [hHolds.sized hMem (length_encode 8 v)]
  simp only [bind, Except.bind]
  rw [decode_encode_of_lt hRange]

/- A `u64` that went through an `int`. -/
def throughInt
    (v : Nat) : Nat :=
  (toInt (v % 2 ^ 32) % 2 ^ 64).toNat

theorem Holds.u64AsInt
    (hHolds : Holds s tlvs)
    {v : Nat}
    (hMem : (attr.code, encode 8 v) ∈ tlvs)
    (hRange : IsU64 v) :
    tlvGetU64AsInt s attr = .ok (throughInt v) := by
  unfold tlvGetU64AsInt
  rw [hHolds.u64 hMem hRange]
  rfl

theorem Holds.timespec
    (hHolds : Holds s tlvs)
    {time : Timespec}
    (hMem :
      (attr.code, encode 8 time.sec ++ encode 4 time.nsec) ∈
        tlvs)
    (hRange : time.WellFormed) :
    tlvGetTimespec s attr = .ok time := by
  unfold tlvGetTimespec
  rw [hHolds.sized hMem (by simp)]
  simp only [bind, Except.bind]
  rw [List.take_left' (length_encode 8 _),
    List.drop_left' (length_encode 8 _),
    decode_encode_of_lt hRange.1,
    decode_encode_of_lt hRange.2]

/-
  What a callback gets: the length of a clone goes through an
  `int`.
-/
def SendOp.received : SendOp → SendOp
  | .clone path offset len cloneUuid cloneCtransid clonePath
      cloneOffset =>
      .clone path offset (throughInt len) cloneUuid
        cloneCtransid clonePath cloneOffset
  | op => op

/- The `switch`, for a command with its attributes. -/
theorem processCmd_received
    (hHolds : Holds s tlvs)
    {op : SendOp}
    (hCmd : s.cmd = op.code)
    (hWf : op.WellFormed)
    (hAll : ∀ a ∈ op.attrs, (a.1.code, a.2) ∈ tlvs) :
    processCmd s = .ok (.op op.received) := by
  cases op with
  | subvol path uuid ctransid =>
      simp only [SendOp.attrs, u64Attr,
        List.forall_mem_cons] at hAll
      rcases hAll with ⟨h1, h2, h3, _⟩
      simp only [processCmd, hCmd, SendOp.code,
        hHolds.string h1 hWf.1, tlvGetUuid,
        hHolds.sized h2 hWf.2.1, hHolds.u64 h3 hWf.2.2,
        bind, Except.bind, SendOp.received]
  | snapshot path uuid ctransid cloneUuid cloneCtransid =>
      simp only [SendOp.attrs, u64Attr,
        List.forall_mem_cons] at hAll
      rcases hAll with ⟨h1, h2, h3, h4, h5, _⟩
      rcases hWf with ⟨w1, w2, w3, w4, w5⟩
      simp only [processCmd, hCmd, SendOp.code,
        hHolds.string h1 w1, tlvGetUuid, hHolds.sized h2 w2,
        hHolds.u64 h3 w3, hHolds.sized h4 w4,
        hHolds.u64 h5 w5, bind, Except.bind, SendOp.received]
  | mkfile path
  | mkdir path
  | mkfifo path
  | mksock path
  | unlink path
  | rmdir path =>
      simp only [SendOp.attrs, List.forall_mem_cons] at hAll
      simp only [processCmd, hCmd, SendOp.code,
        hHolds.string hAll.1 hWf, bind, Except.bind,
        SendOp.received]
  | mknod path mode dev
  | chown path uid gid
  | updateExtent path offset len =>
      simp only [SendOp.attrs, u64Attr,
        List.forall_mem_cons] at hAll
      rcases hAll with ⟨h1, h2, h3, _⟩
      simp only [processCmd, hCmd, SendOp.code,
        hHolds.string h1 hWf.1, hHolds.u64 h2 hWf.2.1,
        hHolds.u64 h3 hWf.2.2, bind, Except.bind,
        SendOp.received]
  | symlink path lnk
  | rename path pathTo
  | link path lnk
  | removeXattr path name =>
      simp only [SendOp.attrs, List.forall_mem_cons] at hAll
      rcases hAll with ⟨h1, h2, _⟩
      simp only [processCmd, hCmd, SendOp.code,
        hHolds.string h1 hWf.1, hHolds.string h2 hWf.2,
        bind, Except.bind, SendOp.received]
  | write path data offset len =>
      simp only [SendOp.attrs, u64Attr,
        List.forall_mem_cons] at hAll
      rcases hAll with ⟨h1, h2, h3, _⟩
      rcases hWf with ⟨w1, w2, rfl⟩
      simp only [processCmd, hCmd, SendOp.code,
        hHolds.string h1 w1, hHolds.u64 h2 w2,
        hHolds.bytes h3, bind, Except.bind, SendOp.received]
  | clone path offset len cloneUuid cloneCtransid clonePath
      cloneOffset =>
      simp only [SendOp.attrs, u64Attr,
        List.forall_mem_cons] at hAll
      rcases hAll with ⟨h1, h2, h3, h4, h5, h6, h7, _⟩
      rcases hWf with ⟨w1, w2, w3, w4, w5, w6, w7⟩
      simp only [processCmd, hCmd, SendOp.code,
        hHolds.string h1 w1, hHolds.u64 h2 w2,
        hHolds.u64AsInt h3 w3, tlvGetUuid,
        hHolds.sized h4 w4, hHolds.u64 h5 w5,
        hHolds.string h6 w6, hHolds.u64 h7 w7, bind,
        Except.bind, SendOp.received]
  | setXattr path name data =>
      simp only [SendOp.attrs, List.forall_mem_cons] at hAll
      rcases hAll with ⟨h1, h2, h3, _⟩
      simp only [processCmd, hCmd, SendOp.code,
        hHolds.string h1 hWf.1, hHolds.string h2 hWf.2,
        hHolds.bytes h3, bind, Except.bind, SendOp.received]
  | truncate path size
  | chmod path mode =>
      simp only [SendOp.attrs, u64Attr,
        List.forall_mem_cons] at hAll
      rcases hAll with ⟨h1, h2, _⟩
      simp only [processCmd, hCmd, SendOp.code,
        hHolds.string h1 hWf.1, hHolds.u64 h2 hWf.2, bind,
        Except.bind, SendOp.received]
  | utimes path at_ mt ct =>
      simp only [SendOp.attrs, timeAttr,
        List.forall_mem_cons] at hAll
      rcases hAll with ⟨h1, h2, h3, h4, _⟩
      rcases hWf with ⟨w1, w2, w3, w4⟩
      simp only [processCmd, hCmd, SendOp.code,
        hHolds.string h1 w1, hHolds.timespec h2 w2,
        hHolds.timespec h3 w3, hHolds.timespec h4 w4, bind,
        Except.bind, SendOp.received]

end Values

----------
-- The Length of a Clone
----------

/- The length survives an `int`. -/
def KeepsLength : SendOp → Prop
  | .clone _ _ len _ _ _ _ =>
      len < 2 ^ 31 ∨ 2 ^ 64 - 2 ^ 31 ≤ len
  | _ => True

theorem throughInt_eq_iff
    {v : Nat}
    (hRange : IsU64 v) :
    throughInt v = v ↔ v < 2 ^ 31 ∨ 2 ^ 64 - 2 ^ 31 ≤ v := by
  unfold IsU64 at hRange
  have hLow : v % 2 ^ 32 < 2 ^ 32 := Nat.mod_lt _ (by decide)
  unfold throughInt toInt
  by_cases hSign : v % 2 ^ 32 < 2 ^ 31
  · rw [if_pos hSign]
    omega
  · rw [if_neg hSign]
    omega

theorem received_eq_iff
    {op : SendOp}
    (hWf : op.WellFormed) :
    op.received = op ↔ KeepsLength op := by
  cases op with
  | clone path offset len cloneUuid cloneCtransid clonePath
      cloneOffset =>
      have hInt := throughInt_eq_iff hWf.2.2.1
      simp only [SendOp.received, KeepsLength,
        SendOp.clone.injEq, true_and, and_true]
      exact hInt
  | _ => exact iff_of_true rfl trivial

----------
-- Sizes
----------

/- A command fits in `read_buf`. -/
def FitsBuffer
    (c : Command) : Prop :=
  CMD_HEADER_SIZE + (encodePayload c.tlvs).length ≤
    SEND_BUF_SIZE

theorem payload_length_le
    {tlvs : List Tlv}
    (hSizes : ∀ tlv ∈ tlvs, tlv.2.length < 2 ^ 16) :
    (encodePayload tlvs).length ≤
      tlvs.length * (TLV_HEADER_SIZE + 2 ^ 16) := by
  unfold encodePayload
  induction tlvs with
  | nil => exact Nat.zero_le _
  | cons tlv tlvs ih =>
      have hHead := hSizes tlv List.mem_cons_self
      have hRest := ih fun t ht =>
        hSizes t (List.mem_cons_of_mem _ ht)
      rw [List.flatMap_cons, List.length_append,
        encodeTlv_length, List.length_cons, Nat.add_mul]
      omega

/- Every number stands once, and there are 24 of them. -/
theorem Command.tlvs_length_le
    (c : Command) :
    c.tlvs.length ≤ SEND_A_MAX := by
  have hSub :
      (c.tlvs.map Prod.fst).toFinset ⊆
        Finset.Icc 1 SEND_A_MAX := by
    intro t ht
    rw [List.mem_toFinset] at ht
    rcases List.mem_map.mp ht with ⟨tlv, hTlv, rfl⟩
    exact Finset.mem_Icc.mpr (c.types tlv hTlv)
  have hCard := Finset.card_le_card hSub
  rw [List.toFinset_card_of_nodup c.nodup, List.length_map,
    Nat.card_Icc] at hCard
  exact hCard

theorem Command.payload_lt
    (c : Command) :
    (encodePayload c.tlvs).length < 2 ^ 31 := by
  have hCount := c.tlvs_length_le
  have hBytes := payload_length_le c.sizes
  unfold SEND_A_MAX at hCount
  unfold TLV_HEADER_SIZE at hBytes
  calc (encodePayload c.tlvs).length
      ≤ c.tlvs.length * (4 + 2 ^ 16) := hBytes
    _ ≤ 24 * (4 + 2 ^ 16) := Nat.mul_le_mul_right _ hCount
    _ < 2 ^ 31 := by decide

theorem SendOp.code_lt
    (op : SendOp) :
    op.code < 2 ^ 16 := by
  cases op <;> simp [SendOp.code]

----------
-- Runs
----------

section Runs

variable {User : Type}
variable {ops : SendOps User}
variable {s : SendStream}

/- A command that fits comes to one call. -/
theorem readAndProcessCmd_encoded
    (hBuf : s.buf.length = SEND_BUF_SIZE)
    {c : Command}
    (hFits : FitsBuffer c)
    (rest : List UInt8) :
    ∃ s',
      readAndProcessCmd s (c.encode ++ rest) =
          .ok (s', .op c.op.received, rest) ∧
        s'.buf.length = SEND_BUF_SIZE := by
  rcases readCmd_encoded c.op.code c.tlvs rest hBuf
    c.op.code_lt c.nodup c.types c.sizes hFits with
    ⟨s', cmdLen, hRead, hCmd, hHolds⟩
  refine ⟨s', ?_, hHolds.buf⟩
  unfold readAndProcessCmd Command.encode
  rw [hRead]
  simp only [bind, Except.bind]
  rw [processCmd_received hHolds hCmd c.wellFormed c.complete]

/- A command that does not fit runs over the buffer. -/
theorem readAndProcessCmd_tooLong
    {c : Command}
    (hLong : ¬FitsBuffer c)
    (rest : List UInt8) :
    readAndProcessCmd s (c.encode ++ rest) = .error .bug := by
  have hSmall := c.payload_lt
  have hFile :
      CMD_HEADER_SIZE ≤
        (encodeCmd c.op.code c.tlvs ++ rest).length := by
    rw [encodeCmd_eq]
    simp only [List.length_append, encodeHeader_length]
    omega
  have hLen :
      leAt (encodeCmd c.op.code c.tlvs ++ rest) 0 4 =
        (encodePayload c.tlvs).length :=
    encodeCmd_len (by omega)
  have hRead :
      readCmd s (encodeCmd c.op.code c.tlvs ++ rest) =
        .error .bug := by
    apply readCmd_overflow hFile
    · rw [hLen]
      exact hSmall
    · rw [hLen, encodeCmd_drop, List.take_left]
      unfold FitsBuffer at hLong
      omega
  unfold readAndProcessCmd Command.encode
  rw [hRead]
  rfl

theorem readAndProcessCmd_end
    (hBuf : s.buf.length = SEND_BUF_SIZE)
    (rest : List UInt8) :
    ∃ s',
      readAndProcessCmd s (encodeCmd SEND_C_END [] ++ rest) =
        .ok (s', .finish, rest) := by
  rcases readCmd_encoded SEND_C_END [] rest hBuf (by decide)
    List.nodup_nil (by simp) (by simp) (by decide) with ⟨s', cmdLen, hRead, hCmd, _⟩
  refine ⟨s', ?_⟩
  unfold readAndProcessCmd
  rw [hRead]
  simp only [bind, Except.bind, processCmd, hCmd, SEND_C_END]

/-
  One turn of the loop per command.  The calls that have been
  made stay in front of what the rest of the stream comes to.
-/
theorem processLoop_commands_iff
    (hOps : ∀ user op, (ops user op).1 = 0)
    (honorEndCmd : Bool)
    (commands : List Command)
    (trailing : List UInt8)
    {fuel : Nat}
    (hFuel : commands.length < fuel)
    (hBuf : s.buf.length = SEND_BUF_SIZE)
    (user : User) :
    processLoop ops honorEndCmd fuel s
        (commands.flatMap Command.encode ++
          (encodeCmd SEND_C_END [] ++ trailing)) user =
        ⟨commands.map Command.op,
          .ok (endResult honorEndCmd 1)⟩ ↔
      ∀ c ∈ commands, FitsBuffer c ∧ KeepsLength c.op := by
  induction commands generalizing fuel s user with
  | nil =>
      obtain ⟨fuel, rfl⟩ : ∃ k, fuel = k + 1 :=
        ⟨fuel - 1, by omega⟩
      rcases readAndProcessCmd_end hBuf trailing with
        ⟨s', hRead⟩
      unfold processLoop
      rw [List.flatMap_nil, List.nil_append, hRead]
      simp
  | cons c commands ih =>
      rw [List.length_cons] at hFuel
      obtain ⟨fuel, rfl⟩ : ∃ k, fuel = k + 1 :=
        ⟨fuel - 1, by omega⟩
      rw [List.flatMap_cons, List.append_assoc,
        List.forall_mem_cons]
      by_cases hFits : FitsBuffer c
      · rcases readAndProcessCmd_encoded hBuf hFits
          (commands.flatMap Command.encode ++
            (encodeCmd SEND_C_END [] ++ trailing)) with
          ⟨s', hRead, hBuf'⟩
        have hLess : commands.length < fuel := by omega
        have hRest := ih hLess hBuf'
          (ops user c.op.received).2
        have hRet := hOps user c.op.received
        unfold processLoop
        rw [hRead]
        simp only [hRet, lt_irrefl, if_false]
        rw [← hRest, ← received_eq_iff c.wellFormed]
        simp only [List.map_cons, Processed.mk.injEq,
          List.cons.injEq]
        constructor
        · rintro ⟨⟨hOp, hCalls⟩, hResult⟩
          refine ⟨⟨hFits, hOp⟩, ?_⟩
          rw [← hCalls, ← hResult]
        · rintro ⟨⟨_, hOp⟩, hLoop⟩
          rw [hLoop]
          exact ⟨⟨hOp, rfl⟩, rfl⟩
      · unfold processLoop
        rw [readAndProcessCmd_tooLong hFits]
        simp [hFits]

theorem commands_length_le
    (commands : List Command) :
    commands.length ≤
      (commands.flatMap Command.encode).length := by
  induction commands with
  | nil => exact Nat.zero_le _
  | cons c commands ih =>
      have hPos : 0 < CMD_HEADER_SIZE := by decide
      rw [List.flatMap_cons, List.length_append,
        List.length_cons]
      unfold Command.encode at ih ⊢
      rw [encodeCmd_eq, List.length_append,
        encodeHeader_length]
      omega

variable (ops) in
/- The header of an encoded stream is accepted. -/
theorem readAndProcessSendStream_encoded
    (honorEndCmd : Bool)
    (buf : List UInt8)
    {version : Nat}
    (hVersion : version ≤ SEND_STREAM_VERSION)
    (commands : List Command)
    (trailing : List UInt8)
    (user : User) :
    ∃ fuel, commands.length < fuel ∧
      readAndProcessSendStream ops honorEndCmd buf
          (encodeStream version commands ++ trailing) user =
        processLoop ops honorEndCmd fuel
          ⟨buf, fun _ => none, 0⟩
          (commands.flatMap Command.encode ++
            (encodeCmd SEND_C_END [] ++ trailing)) user := by
  let hdr := SEND_STREAM_MAGIC ++ encode 4 version
  let file := commands.flatMap Command.encode ++
    (encodeCmd SEND_C_END [] ++ trailing)
  have hHdrLen : hdr.length = STREAM_HEADER_SIZE := by
    simp [hdr, SEND_STREAM_MAGIC, STREAM_HEADER_SIZE]
  have hSplit :
      encodeStream version commands ++ trailing =
        hdr ++ file := by
    unfold encodeStream
    simp only [hdr, file, List.append_assoc]
  have hMagic : hdr.take 13 = SEND_STREAM_MAGIC :=
    List.take_left' rfl
  have hRange : version < 256 ^ 4 := by
    unfold SEND_STREAM_VERSION at hVersion
    omega
  have hVer : leAt hdr 13 4 = version := by
    have hAt :
        leAt (SEND_STREAM_MAGIC ++ (encode 4 version ++ []))
          SEND_STREAM_MAGIC.length 4 = version :=
      leAt_append _ _ hRange
    rw [List.append_nil] at hAt
    exact hAt
  refine ⟨file.length + 1, ?_, ?_⟩
  · have hLe := commands_length_le commands
    simp only [file, List.length_append]
    omega
  · unfold readAndProcessSendStream
    rw [hSplit, List.take_left' hHdrLen,
      List.drop_left' hHdrLen]
    simp only [hHdrLen, lt_irrefl, if_false, hMagic, ne_eq,
      not_true, hVer, not_lt.mpr hVersion]
    rfl

/-
  A stream of commands comes to its calls, in order and with
  the values that were written, exactly when every command
  fits in the buffer and the length of every clone fits in an
  `int`.
-/
theorem readAndProcessSendStream_faithful_iff
    (hOps : ∀ user op, (ops user op).1 = 0)
    (honorEndCmd : Bool)
    {buf : List UInt8}
    (hBuf : buf.length = SEND_BUF_SIZE)
    {version : Nat}
    (hVersion : version ≤ SEND_STREAM_VERSION)
    (commands : List Command)
    (trailing : List UInt8)
    (user : User) :
    readAndProcessSendStream ops honorEndCmd buf
        (encodeStream version commands ++ trailing) user =
        ⟨commands.map Command.op,
          .ok (endResult honorEndCmd 1)⟩ ↔
      ∀ c ∈ commands, FitsBuffer c ∧ KeepsLength c.op := by
  rcases readAndProcessSendStream_encoded ops
    honorEndCmd buf hVersion commands trailing user with
    ⟨fuel, hFuel, hRun⟩
  rw [hRun]
  exact processLoop_commands_iff hOps honorEndCmd commands
    trailing hFuel hBuf user

end Runs

/- A command with the attributes of its call alone. -/
def plainCommand
    (op : SendOp)
    (hWell : op.WellFormed)
    (hSizes : ∀ a ∈ op.attrs, a.2.length < 2 ^ 16) :
    Command where
  op := op
  wellFormed := hWell
  tlvs := op.attrs.map fun a => (a.1.code, a.2)
  nodup := by
    cases op
    all_goals
      simp only [SendOp.attrs, u64Attr, timeAttr,
        List.map_cons, List.map_nil]
      decide
  types := by
    cases op
    all_goals
      simp only [SendOp.attrs, u64Attr, timeAttr,
        List.map_cons, List.map_nil, List.forall_mem_cons]
      decide
  sizes := List.forall_mem_map.mpr hSizes
  complete := fun _ ha => List.mem_map_of_mem ha

/- `clone` of `len` bytes of the file `a` to the file `b`. -/
def cloneCommand
    (len : Nat)
    (hLen : IsU64 len) : Command :=
  plainCommand
    (.clone [98] 0 len (List.replicate 16 1) 7 [97] 0)
    ⟨by simp [IsName], by simp [IsU64], hLen,
      by simp [IsUuid], by simp [IsU64], by simp [IsName],
      by simp [IsU64]⟩
    (by simp [SendOp.attrs, u64Attr])

theorem cloneCommand_fits
    (len : Nat)
    (hLen : IsU64 len) :
    FitsBuffer (cloneCommand len hLen) := by
  simp [FitsBuffer, cloneCommand, plainCommand, SendOp.attrs,
    u64Attr, encodePayload, encodeTlv_length, CMD_HEADER_SIZE,
    TLV_HEADER_SIZE, SEND_BUF_SIZE]

theorem readAndProcessSendStream_faithful_clone :
    readAndProcessSendStream (fun (_ : Unit) _ => (0, ()))
        true (List.replicate SEND_BUF_SIZE 0)
        (encodeStream 1 [cloneCommand 4096 (by
          simp [IsU64])] ++ []) () =
      ⟨[.clone [98] 0 4096 (List.replicate 16 1) 7 [97] 0],
        .ok 1⟩ :=
  (readAndProcessSendStream_faithful_iff
    (fun _ _ => rfl) true (by simp) (by decide)
    [cloneCommand 4096 (by simp [IsU64])] [] ()).mpr
    (by
      intro c hc
      rw [List.mem_singleton] at hc
      subst hc
      exact ⟨cloneCommand_fits _ _, Or.inl (by decide)⟩)

/-
  A clone of 2 GiB: the callback is given a length of
  2^64 - 2^31.
-/
theorem cloneLength_not_faithful :
    (readAndProcessSendStream (fun (_ : Unit) _ => (0, ()))
        true (List.replicate SEND_BUF_SIZE 0)
        (encodeStream 1 [cloneCommand (2 ^ 31) (by
          simp [IsU64])] ++ []) ()).calls =
        [.clone [98] 0 (2 ^ 64 - 2 ^ 31)
          (List.replicate 16 1) 7 [97] 0] ∧
      (cloneCommand (2 ^ 31) (by simp [IsU64])).op =
        .clone [98] 0 (2 ^ 31) (List.replicate 16 1) 7
          [97] 0 := by
  refine ⟨?_, rfl⟩
  have hVersion : 1 ≤ SEND_STREAM_VERSION := by decide
  rcases readAndProcessSendStream_encoded
    (fun (_ : Unit) _ => (0, ())) true
    (List.replicate SEND_BUF_SIZE 0) hVersion
    [cloneCommand (2 ^ 31) (by simp [IsU64])] [] ()
    with ⟨fuel, hFuel, hRun⟩
  obtain ⟨fuel, rfl⟩ : ∃ k, fuel = k + 2 :=
    ⟨fuel - 2, by simp at hFuel; omega⟩
  rcases readAndProcessCmd_encoded
    (s := ⟨List.replicate SEND_BUF_SIZE 0, fun _ => none, 0⟩)
    (by simp)
    (cloneCommand_fits (2 ^ 31) (by simp [IsU64]))
    (encodeCmd SEND_C_END [] ++ []) with ⟨s', hRead, hBuf⟩
  rcases readAndProcessCmd_end hBuf [] with ⟨s'', hEnd⟩
  rw [hRun, List.flatMap_cons, List.flatMap_nil,
    List.append_nil]
  simp only [processLoop, hRead, hEnd, lt_irrefl, if_false]
  rfl

end Send

end BtrfsProgs
