import BtrfsProgs.Lib.Checked

/-
  Access control lists of ext2 as those of extended
  attributes, from `btrfs-convert.c`.

  A `size_t` has 64 bits and an `int` 32.

  Main declarations:
    * `ext2AclCount` and `aclEaSize`
    * `ext2AclToXattr`
    * `AclEntry`, `ext2Acl` and `eaAcl`
    * `IsExt2Acl` and `AclConverted`
    * `ext2AclToXattr_runs`
-/

----------
-- Sizes
----------

namespace BtrfsProgs

namespace Convert

open LittleEndian Record Checked

def EINVAL : Int := 22

/- The tags of `sys/acl.h`. -/
def ACL_USER_OBJ : Nat := 0x01
def ACL_USER : Nat := 0x02
def ACL_GROUP_OBJ : Nat := 0x04
def ACL_GROUP : Nat := 0x08
def ACL_MASK : Nat := 0x10
def ACL_OTHER : Nat := 0x20

def ACL_UNDEFINED_ID : Nat := 2 ^ 32 - 1
def EXT2_ACL_VERSION : Nat := 0x0001
def ACL_EA_VERSION : Nat := 0x0002

/- A `size_t` as an `int`. -/
def toInt
    (n : Nat) : Int :=
  Int.bmod n (2 ^ 32)

/- An integer as a `size_t`. -/
def toSize
    (n : Int) : Nat :=
  (n % 2 ^ 64).toNat

/- `ext2_acl_count`. -/
def ext2AclCount
    (size : Nat) : Int :=
  let size := toSize (size - 4)
  let s := Int.bmod (size - 4 * 4) (2 ^ 64)
  if s < 0 then
    if size % 4 ≠ 0 then -1 else toInt (size / 4)
  else if s.toNat % 8 ≠ 0 then -1
  else toInt (s.toNat / 8 + 4)

/- `acl_ea_size`. -/
def aclEaSize
    (count : Int) : Nat :=
  toSize (4 + count * 8)

/- The count of a size that holds the header. -/
theorem ext2AclCount_of_ge
    {size : Nat}
    (hHeader : 4 ≤ size)
    (hSize : size < 2 ^ 32) :
    ext2AclCount size =
      if size < 20 then
        if size % 4 ≠ 0 then -1
        else (((size - 4) / 4 : Nat) : Int)
      else if (size - 20) % 8 ≠ 0 then -1
      else (((size - 20) / 8 + 4 : Nat) : Int) := by
  have hBody : toSize (size - 4) = size - 4 := by
    unfold toSize
    omega
  have hSigned : Int.bmod (((size - 4 : Nat) : Int) - 4 * 4)
      (2 ^ 64) = (size : Int) - 20 := by
    rw [Int.bmod_eq_of_le] <;> omega
  have hSmall (n : Nat) (hLt : n < 2 ^ 31) :
      toInt n = n := by
    unfold toInt
    rw [Int.bmod_eq_of_le] <;> omega
  unfold ext2AclCount
  simp only [hBody, hSigned]
  by_cases hFew : size < 20
  · rw [if_pos (by omega), if_pos hFew]
    by_cases hParts : size % 4 ≠ 0
    · rw [if_pos (by omega), if_pos hParts]
    · rw [if_neg (by omega), if_neg hParts,
        hSmall _ (by omega)]
  · have hNat : ((size : Int) - 20).toNat = size - 20 := by
      omega
    rw [if_neg (by omega), if_neg hFew, hNat]
    by_cases hParts : (size - 20) % 8 ≠ 0
    · rw [if_pos hParts, if_pos hParts]
    · rw [if_neg hParts, if_neg hParts,
        hSmall _ (by omega)]

/- A count has room for its entries in 32 bits. -/
theorem ext2AclCount_lt
    {size : Nat}
    (hHeader : 4 ≤ size)
    (hSize : size < 2 ^ 32) :
    ext2AclCount size < 2 ^ 30 := by
  rw [ext2AclCount_of_ge hHeader hSize]
  split <;> split <;> omega

theorem aclEaSize_of_nat
    {count : Nat}
    (hCount : count < 2 ^ 30) :
    aclEaSize count = 4 + 8 * count := by
  unfold aclEaSize toSize
  omega

----------
-- The Conversion
----------

/- A tag whose entry has no id on disk. -/
def isShortTag
    (tag : Nat) : Prop :=
  tag = ACL_USER_OBJ ∨ tag = ACL_GROUP_OBJ ∨
    tag = ACL_MASK ∨ tag = ACL_OTHER

/- A tag whose entry has one. -/
def isLongTag
    (tag : Nat) : Prop :=
  tag = ACL_USER ∨ tag = ACL_GROUP

instance (tag : Nat) : Decidable (isShortTag tag) := by
  unfold isShortTag
  infer_instance

instance (tag : Nat) : Decidable (isLongTag tag) := by
  unfold isLongTag
  infer_instance

/-
  The loop of `ext2_acl_to_xattr`, with the entries that are
  left, the places of the next ones in the destination and in
  the source, and the destination. It gives the end of the
  source it came to; `none` is its `goto fail`.
-/
def aclEntries
    (buf : List UInt8)
    (endp : Nat) :
    Nat → Nat → Nat → List UInt8 →
      Except Fault (List UInt8 × Option Nat)
  | 0, _, src, dst => .ok (dst, some src)
  | n + 1, dstEntry, src, dst =>
      if endp < src + 4 then .ok (dst, none)
      else do
        let tag ← read buf src 2
        let dst ← write dst dstEntry (encode 2 tag)
        let perm ← read buf (src + 2) 2
        let dst ← write dst (dstEntry + 2) (encode 2 perm)
        if isShortTag tag then do
          let dst ← write dst (dstEntry + 4)
            (encode 4 ACL_UNDEFINED_ID)
          aclEntries buf endp n (dstEntry + 8) (src + 4) dst
        else if isLongTag tag then
          if endp < src + 8 then .ok (dst, none)
          else do
            let id ← read buf (src + 4) 4
            let dst ← write dst (dstEntry + 4) (encode 4 id)
            aclEntries buf endp n (dstEntry + 8) (src + 8)
              dst
        else .ok (dst, none)

/-
  `ext2_acl_to_xattr`, with its source at a place of a buffer.
  It gives the destination and the code.
-/
def ext2AclToXattr
    (dst buf : List UInt8)
    (src srcSize : Nat) : Except Fault (List UInt8 × Int) :=
  if srcSize < 4 then .ok (dst, -EINVAL)
  else do
    let version ← read buf src 4
    if version ≠ EXT2_ACL_VERSION then .ok (dst, -EINVAL)
    else
      let count := ext2AclCount srcSize
      if count ≤ 0 then .ok (dst, -EINVAL)
      else if dst.length < aclEaSize count then
        .error .assertion
      else do
        let dst ← write dst 0 (encode 4 ACL_EA_VERSION)
        let (dst, stop) ← aclEntries buf (src + srcSize)
          count.toNat 4 (src + 4) dst
        if stop = some (src + srcSize) then .ok (dst, 0)
        else .ok (dst, -EINVAL)

----------
-- Lists and Their Bytes
----------

/- Whom an entry without an id is for. -/
inductive Owner where
  | userObj
  | groupObj
  | mask
  | other
deriving Repr, DecidableEq

/- Whom an entry with an id is for. -/
inductive Named where
  | user
  | group
deriving Repr, DecidableEq

inductive Holder where
  | owner (o : Owner)
  | named (k : Named) (id : UInt32)
deriving Repr, DecidableEq

structure AclEntry where
  holder : Holder
  perm : UInt16
deriving Repr, DecidableEq

def Owner.tag : Owner → Nat
  | .userObj => ACL_USER_OBJ
  | .groupObj => ACL_GROUP_OBJ
  | .mask => ACL_MASK
  | .other => ACL_OTHER

def Named.tag : Named → Nat
  | .user => ACL_USER
  | .group => ACL_GROUP

/- The bytes of an entry on disk. -/
def AclEntry.onDisk
    (e : AclEntry) : List UInt8 :=
  match e.holder with
  | .owner o => encode 2 o.tag ++ encode 2 e.perm.toNat
  | .named k id =>
      encode 2 k.tag ++ encode 2 e.perm.toNat ++
        encode 4 id.toNat

/- The bytes of an entry in an attribute. -/
def AclEntry.inEa
    (e : AclEntry) : List UInt8 :=
  match e.holder with
  | .owner o =>
      encode 2 o.tag ++ encode 2 e.perm.toNat ++
        encode 4 ACL_UNDEFINED_ID
  | .named k id =>
      encode 2 k.tag ++ encode 2 e.perm.toNat ++
        encode 4 id.toNat

/- A list of entries as ext2 has it on disk. -/
def ext2Acl
    (es : List AclEntry) : List UInt8 :=
  encode 4 EXT2_ACL_VERSION ++ es.flatMap AclEntry.onDisk

/- A list of entries as the value of an attribute. -/
def eaAcl
    (es : List AclEntry) : List UInt8 :=
  encode 4 ACL_EA_VERSION ++ es.flatMap AclEntry.inEa

/-
  Some bytes are a list of as many entries as its size tells.
  A list without entries counts as none.
-/
def IsExt2Acl
    (bytes : List UInt8)
    (es : List AclEntry) : Prop :=
  bytes = ext2Acl es ∧ es ≠ [] ∧
    ext2AclCount bytes.length = es.length

theorem Owner.tag_lt
    (o : Owner) : o.tag < 256 ^ 2 := by
  cases o <;> decide

theorem Named.tag_lt
    (k : Named) : k.tag < 256 ^ 2 := by
  cases k <;> decide

theorem isShortTag_tag
    (o : Owner) : isShortTag o.tag := by
  cases o <;> decide

theorem isLongTag_tag
    (k : Named) : isLongTag k.tag := by
  cases k <;> decide

theorem not_isShortTag_tag
    (k : Named) : ¬isShortTag k.tag := by
  cases k <;> decide

theorem exists_owner
    {tag : Nat}
    (hShort : isShortTag tag) :
    ∃ o : Owner, o.tag = tag := by
  rcases hShort with rfl | rfl | rfl | rfl
  · exact ⟨.userObj, rfl⟩
  · exact ⟨.groupObj, rfl⟩
  · exact ⟨.mask, rfl⟩
  · exact ⟨.other, rfl⟩

theorem exists_named
    {tag : Nat}
    (hLong : isLongTag tag) :
    ∃ k : Named, k.tag = tag := by
  rcases hLong with rfl | rfl
  · exact ⟨.user, rfl⟩
  · exact ⟨.group, rfl⟩

theorem AclEntry.four_le_length_onDisk
    (e : AclEntry) : 4 ≤ e.onDisk.length := by
  unfold AclEntry.onDisk
  split <;> simp

----------
-- The Loop
----------

section Entries

variable {buf : List UInt8} {endp : Nat}

/-
  What the loop gives: the entries it read, their bytes in the
  source and what it wrote.
-/
structure Converted
    (buf : List UInt8)
    (n dstEntry src : Nat)
    (dst : List UInt8)
    (out : List UInt8)
    (stop : Nat)
    (es : List AclEntry) : Prop where
  count : es.length = n
  read : buf.drop src =
    es.flatMap AclEntry.onDisk ++ buf.drop stop
  place : stop = src + (es.flatMap AclEntry.onDisk).length
  written : out.take (dstEntry + 8 * n) =
    dst.take dstEntry ++ es.flatMap AclEntry.inEa

theorem Converted.cons
    {n dstEntry src stop : Nat}
    {dst next out : List UInt8}
    {e : AclEntry}
    {es : List AclEntry}
    (hEntry : buf.drop src =
      e.onDisk ++ buf.drop (src + e.onDisk.length))
    (hWritten : next.take (dstEntry + 8) =
      dst.take dstEntry ++ e.inEa)
    (hRest : Converted buf n (dstEntry + 8)
      (src + e.onDisk.length) next out stop es) :
    Converted buf (n + 1) dstEntry src dst out stop
      (e :: es) where
  count := by rw [List.length_cons, hRest.count]
  read := by
    rw [hEntry, hRest.read, List.flatMap_cons,
      List.append_assoc]
  place := by
    rw [hRest.place, List.flatMap_cons, List.length_append,
      Nat.add_assoc]
  written := by
    have hPlace : dstEntry + 8 * (n + 1) =
        dstEntry + 8 + 8 * n := by
      omega
    rw [hPlace, hRest.written, hWritten, List.flatMap_cons,
      List.append_assoc]

/- The source starts with some entries, up to a place. -/
def StartsWith
    (buf : List UInt8)
    (endp n src : Nat) : Prop :=
  ∃ es : List AclEntry, ∃ rest, es.length = n ∧
    buf.drop src = es.flatMap AclEntry.onDisk ++ rest ∧
    src + (es.flatMap AclEntry.onDisk).length ≤ endp

/-
  The loop gives the entries that the source starts with, and
  fails only when it starts with none.
-/
def Outcome
    (buf : List UInt8)
    (endp n dstEntry src : Nat)
    (dst : List UInt8)
    (r : List UInt8 × Option Nat) : Prop :=
  r.1.length = dst.length ∧
    match r.2 with
    | none => ¬StartsWith buf endp n src
    | some stop => stop ≤ endp ∧
        ∃ es, Converted buf n dstEntry src dst r.1 stop es

/- An entry that starts a list starts the source. -/
theorem StartsWith.head
    {n src : Nat}
    (hStarts : StartsWith buf endp (n + 1) src) :
    ∃ e : AclEntry, ∃ rest,
      buf.drop src = e.onDisk ++ rest ∧
        src + e.onDisk.length ≤ endp ∧
        StartsWith buf endp n (src + e.onDisk.length) := by
  rcases hStarts with ⟨es, rest, hCount, hDrop, hLe⟩
  cases es with
  | nil => cases hCount
  | cons e es =>
      rw [List.flatMap_cons, List.append_assoc] at hDrop
      rw [List.flatMap_cons, List.length_append] at hLe
      refine ⟨e, _, hDrop, by omega, es, rest, ?_, ?_, ?_⟩
      · simpa using hCount
      · exact drop_of_drop hDrop
      · omega

/- The tag of an entry that starts the source tells its size. -/
theorem onDisk_tag
    {src : Nat}
    {e : AclEntry}
    {rest : List UInt8}
    (hDrop : buf.drop src = e.onDisk ++ rest) :
    isShortTag (field buf src 2) ∧ e.onDisk.length = 4 ∨
      isLongTag (field buf src 2) ∧
        ¬isShortTag (field buf src 2) ∧
        e.onDisk.length = 8 := by
  rcases e with ⟨holder, perm⟩
  cases holder with
  | owner o =>
      left
      unfold AclEntry.onDisk at hDrop ⊢
      dsimp only at hDrop ⊢
      rw [List.append_assoc] at hDrop
      rw [field_of_drop hDrop o.tag_lt]
      exact ⟨isShortTag_tag o, by simp⟩
  | named k id =>
      right
      unfold AclEntry.onDisk at hDrop ⊢
      dsimp only at hDrop ⊢
      rw [List.append_assoc, List.append_assoc] at hDrop
      rw [field_of_drop hDrop k.tag_lt]
      exact ⟨isLongTag_tag k, not_isShortTag_tag k, by simp⟩

/- After a short tag, the rest starts behind its entry. -/
theorem StartsWith.short
    {n src : Nat}
    (hStarts : StartsWith buf endp (n + 1) src)
    (hShort : isShortTag (field buf src 2)) :
    StartsWith buf endp n (src + 4) := by
  rcases hStarts.head with ⟨e, rest, hDrop, -, hMore⟩
  rcases onDisk_tag hDrop with ⟨-, hLen⟩ | ⟨-, hNot, -⟩
  · rw [hLen] at hMore
    exact hMore
  · exact absurd hShort hNot

/- Another tag has to be a long one, with its entry whole. -/
theorem StartsWith.long
    {n src : Nat}
    (hStarts : StartsWith buf endp (n + 1) src)
    (hNotShort : ¬isShortTag (field buf src 2)) :
    isLongTag (field buf src 2) ∧ src + 8 ≤ endp ∧
      StartsWith buf endp n (src + 8) := by
  rcases hStarts.head with ⟨e, rest, hDrop, hLe, hMore⟩
  rcases onDisk_tag hDrop with ⟨hIs, -⟩ | ⟨hIs, -, hLen⟩
  · exact absurd hIs hNotShort
  · rw [hLen] at hLe hMore
    exact ⟨hIs, hLe, hMore⟩

theorem toNat_perm
    (buf : List UInt8)
    (place : Nat) :
    (UInt16.ofNat (field buf place 2)).toNat =
      field buf place 2 := by
  have hLt := field_lt buf place 2
  rw [UInt16.toNat_ofNat']
  exact Nat.mod_eq_of_lt hLt

theorem toNat_id
    (buf : List UInt8)
    (place : Nat) :
    (UInt32.ofNat (field buf place 4)).toNat =
      field buf place 4 := by
  have hLt := field_lt buf place 4
  rw [UInt32.toNat_ofNat']
  exact Nat.mod_eq_of_lt hLt

/- The entry without an id that the loop reads. -/
theorem exists_short
    {src : Nat}
    (hLe : src + 4 ≤ buf.length)
    (hShort : isShortTag (field buf src 2)) :
    ∃ e : AclEntry, e.onDisk.length = 4 ∧
      buf.drop src = e.onDisk ++ buf.drop (src + 4) ∧
      e.inEa = encode 2 (field buf src 2) ++
        encode 2 (field buf (src + 2) 2) ++
        encode 4 ACL_UNDEFINED_ID := by
  rcases exists_owner hShort with ⟨o, hTag⟩
  refine ⟨⟨.owner o, UInt16.ofNat (field buf (src + 2) 2)⟩,
    ?_, ?_, ?_⟩
  · simp [AclEntry.onDisk]
  · have hFirst : buf.drop src =
        encode 2 (field buf src 2) ++ buf.drop (src + 2) :=
      drop_eq_field (by omega)
    have hSecond : buf.drop (src + 2) =
        encode 2 (field buf (src + 2) 2) ++
          buf.drop (src + 4) :=
      drop_eq_field (by omega)
    simp only [AclEntry.onDisk, hTag, toNat_perm,
      List.append_assoc]
    rw [hFirst, hSecond]
  · simp only [AclEntry.inEa, hTag, toNat_perm]

/- The entry with an id that the loop reads. -/
theorem exists_long
    {src : Nat}
    (hLe : src + 8 ≤ buf.length)
    (hLong : isLongTag (field buf src 2)) :
    ∃ e : AclEntry, e.onDisk.length = 8 ∧
      buf.drop src = e.onDisk ++ buf.drop (src + 8) ∧
      e.inEa = encode 2 (field buf src 2) ++
        encode 2 (field buf (src + 2) 2) ++
        encode 4 (field buf (src + 4) 4) := by
  rcases exists_named hLong with ⟨k, hTag⟩
  refine ⟨⟨.named k (UInt32.ofNat (field buf (src + 4) 4)),
    UInt16.ofNat (field buf (src + 2) 2)⟩, ?_, ?_, ?_⟩
  · simp [AclEntry.onDisk]
  · have hFirst : buf.drop src =
        encode 2 (field buf src 2) ++ buf.drop (src + 2) :=
      drop_eq_field (by omega)
    have hSecond : buf.drop (src + 2) =
        encode 2 (field buf (src + 2) 2) ++
          buf.drop (src + 4) :=
      drop_eq_field (by omega)
    have hThird : buf.drop (src + 4) =
        encode 4 (field buf (src + 4) 4) ++
          buf.drop (src + 8) :=
      drop_eq_field (by omega)
    simp only [AclEntry.onDisk, hTag, toNat_perm, toNat_id,
      List.append_assoc]
    rw [hFirst, hSecond, hThird]
  · simp only [AclEntry.inEa, hTag, toNat_perm, toNat_id]

/- The rest of a turn, after its entry was written. -/
theorem Outcome.cons
    {n dstEntry src : Nat}
    {dst : List UInt8}
    (next : List UInt8)
    (e : AclEntry)
    {size : Nat}
    {r : List UInt8 × Option Nat}
    (hSize : e.onDisk.length = size)
    (hLength : next.length = dst.length)
    (hEntry : buf.drop src =
      e.onDisk ++ buf.drop (src + size))
    (hWritten : next.take (dstEntry + 8) =
      dst.take dstEntry ++ e.inEa)
    (hOnly : StartsWith buf endp (n + 1) src →
      StartsWith buf endp n (src + size))
    (hRest : Outcome buf endp n (dstEntry + 8)
      (src + size) next r) :
    Outcome buf endp (n + 1) dstEntry src dst r := by
  subst hSize
  rcases r with ⟨out, stop⟩
  rcases hRest with ⟨hOut, hStop⟩
  refine ⟨hOut.trans hLength, ?_⟩
  cases stop with
  | none => exact fun hStarts => hStop (hOnly hStarts)
  | some stop =>
      rcases hStop with ⟨hLe, es, hConverted⟩
      exact ⟨hLe, e :: es,
        .cons hEntry hWritten hConverted⟩

/- Two fields and an id that were written one by one. -/
theorem written_fields
    {dst first second third : List UInt8}
    {dstEntry : Nat}
    {a b c : List UInt8}
    (hA : a.length = 2)
    (hB : b.length = 2)
    (hFirst : first.take (dstEntry + a.length) =
      dst.take dstEntry ++ a)
    (hSecond : second.take (dstEntry + 2 + b.length) =
      first.take (dstEntry + 2) ++ b)
    (hThird : third.take (dstEntry + 4 + c.length) =
      second.take (dstEntry + 4) ++ c) :
    third.take (dstEntry + 4 + c.length) =
      dst.take dstEntry ++ (a ++ b ++ c) := by
  rw [hA] at hFirst
  rw [hB] at hSecond
  have hPlace : dstEntry + 2 + 2 = dstEntry + 4 := by omega
  rw [hThird, ← hPlace, hSecond, hFirst]
  simp only [List.append_assoc]

/-
  The loop stays in its buffers and gives what the source
  starts with. The induction is on the entries that are left.
-/
theorem aclEntries_runs
    {n dstEntry src : Nat}
    {dst : List UInt8}
    (hSrc : endp ≤ buf.length)
    (hRead : src ≤ endp)
    (hDst : dstEntry + 8 * n ≤ dst.length) :
    Runs (aclEntries buf endp n dstEntry src dst)
      (Outcome buf endp n dstEntry src dst) := by
  induction n generalizing dstEntry src dst with
  | zero =>
      refine .ok ⟨rfl, hRead, [], rfl, ?_, ?_, ?_⟩
      · simp
      · simp
      · simp
  | succ n ih =>
      unfold aclEntries
      split
      case isTrue hEnd =>
          refine .ok ⟨rfl, fun hStarts => ?_⟩
          rcases hStarts.head with ⟨e, -, -, hLe, -⟩
          have hFour := e.four_le_length_onDisk
          omega
      case isFalse hEnd =>
        refine (runs_read (by omega)).bind fun tag hTag => ?_
        subst hTag
        refine (runs_write (by simp; omega)).bind
          fun first hFirst => ?_
        rcases hFirst with ⟨hFirstLen, hFirst⟩
        refine (runs_read (by omega)).bind
          fun perm hPerm => ?_
        subst hPerm
        refine (runs_write (by simp; omega)).bind
          fun second hSecond => ?_
        rcases hSecond with ⟨hSecondLen, hSecond⟩
        split
        case isTrue hShort =>
          refine (runs_write (by simp; omega)).bind
            fun third hThird => ?_
          rcases hThird with ⟨hThirdLen, hThird⟩
          rcases exists_short (by omega) hShort with
            ⟨e, hSize, hDrop, hEa⟩
          have hWritten := written_fields (by simp) (by simp)
            hFirst hSecond hThird
          refine (ih (by omega) (by omega)).mono fun r hRest =>
            Outcome.cons third e hSize (by omega) hDrop ?_
              (fun hStarts => hStarts.short hShort) hRest
          rw [hEa]
          simpa using hWritten
        case isFalse hNotShort =>
        split
        case isFalse hNotLong =>
          refine .ok ⟨by dsimp only; omega, fun hStarts => ?_⟩
          exact hNotLong (hStarts.long hNotShort).1
        case isTrue hLong =>
        split
        case isTrue hEnd =>
          refine .ok ⟨by dsimp only; omega, fun hStarts => ?_⟩
          have hRoom := (hStarts.long hNotShort).2.1
          omega
        case isFalse hEnd =>
          refine (runs_read (by omega)).bind fun id hId => ?_
          subst hId
          refine (runs_write (by simp; omega)).bind
            fun third hThird => ?_
          rcases hThird with ⟨hThirdLen, hThird⟩
          rcases exists_long (by omega) hLong with
            ⟨e, hSize, hDrop, hEa⟩
          have hWritten := written_fields (by simp) (by simp)
            hFirst hSecond hThird
          refine (ih (by omega) (by omega)).mono fun r hRest =>
            Outcome.cons third e hSize (by omega) hDrop ?_
              (fun hStarts => (hStarts.long hNotShort).2.2)
              hRest
          rw [hEa]
          simpa using hWritten

end Entries

----------
-- Lists Are Told Apart
----------

theorem Owner.tag_inj
    {o p : Owner}
    (hTag : o.tag = p.tag) : o = p := by
  cases o <;> cases p <;> first | rfl | cases hTag

theorem Named.tag_inj
    {k l : Named}
    (hTag : k.tag = l.tag) : k = l := by
  cases k <;> cases l <;> first | rfl | cases hTag

theorem Owner.tag_ne
    (o : Owner)
    (k : Named) : o.tag ≠ k.tag := by
  cases o <;> cases k <;> decide

/- Two entries that start the same bytes are the same. -/
theorem onDisk_inj
    {e d : AclEntry}
    {r s : List UInt8}
    (hEq : e.onDisk ++ r = d.onDisk ++ s) :
    e = d ∧ r = s := by
  rcases e with ⟨holder, perm⟩
  rcases d with ⟨holder', perm'⟩
  have hPerms {v : List UInt8} {t : List UInt8}
      (hRest : encode 2 perm.toNat ++ v =
        encode 2 perm'.toNat ++ t) :
      perm = perm' ∧ v = t := by
    rcases encode_append_inj perm.toNat_lt perm'.toNat_lt
      hRest with ⟨hPerm, hTail⟩
    exact ⟨UInt16.toNat_inj.mp hPerm, hTail⟩
  cases holder with
  | owner o =>
      cases holder' with
      | owner p =>
          simp only [AclEntry.onDisk, List.append_assoc] at hEq
          rcases encode_append_inj o.tag_lt p.tag_lt hEq with
            ⟨hTag, hRest⟩
          rcases hPerms hRest with ⟨rfl, rfl⟩
          cases Owner.tag_inj hTag
          exact ⟨rfl, rfl⟩
      | named l id =>
          simp only [AclEntry.onDisk, List.append_assoc] at hEq
          rcases encode_append_inj o.tag_lt l.tag_lt hEq with
            ⟨hTag, -⟩
          exact absurd hTag (o.tag_ne l)
  | named k id =>
      cases holder' with
      | owner p =>
          simp only [AclEntry.onDisk, List.append_assoc] at hEq
          rcases encode_append_inj k.tag_lt p.tag_lt hEq with
            ⟨hTag, -⟩
          exact absurd hTag.symm (p.tag_ne k)
      | named l id' =>
          simp only [AclEntry.onDisk, List.append_assoc] at hEq
          rcases encode_append_inj k.tag_lt l.tag_lt hEq with
            ⟨hTag, hRest⟩
          rcases hPerms hRest with ⟨rfl, hIds⟩
          rcases encode_append_inj id.toNat_lt id'.toNat_lt
            hIds with ⟨hId, rfl⟩
          cases Named.tag_inj hTag
          cases UInt32.toNat_inj.mp hId
          exact ⟨rfl, rfl⟩

/- As many entries that start the same bytes are the same. -/
theorem flatMap_onDisk_inj
    {es ds : List AclEntry}
    {r s : List UInt8}
    (hCount : es.length = ds.length)
    (hEq : es.flatMap AclEntry.onDisk ++ r =
      ds.flatMap AclEntry.onDisk ++ s) :
    es = ds := by
  induction es generalizing ds with
  | nil => exact (List.length_eq_zero_iff.mp hCount.symm).symm
  | cons e es ih =>
      cases ds with
      | nil => cases hCount
      | cons d ds =>
          simp only [List.flatMap_cons,
            List.append_assoc] at hEq
          rcases onDisk_inj hEq with ⟨rfl, hRest⟩
          rw [ih (by simpa using hCount) hRest]

theorem IsExt2Acl.unique
    {bytes : List UInt8}
    {es ds : List AclEntry}
    (hEs : IsExt2Acl bytes es)
    (hDs : IsExt2Acl bytes ds) : ds = es := by
  have hCount : ds.length = es.length := by
    have hBoth := hDs.2.2.symm.trans hEs.2.2
    omega
  have hSame : ds.flatMap AclEntry.onDisk =
      es.flatMap AclEntry.onDisk :=
    List.append_cancel_left (hDs.1.symm.trans hEs.1)
  exact flatMap_onDisk_inj (r := []) (s := []) hCount
    (by rw [hSame])

----------
-- The Whole Conversion
----------

/-
  What a conversion of some bytes gives: it keeps the size of
  the destination, returns 0 exactly for a list of entries,
  and then has written the same entries.
-/
structure AclConverted
    (bytes dst : List UInt8)
    (r : List UInt8 × Int) : Prop where
  length : r.1.length = dst.length
  code : r.2 = 0 ∨ r.2 = -EINVAL
  zero_iff : r.2 = 0 ↔ ∃ es, IsExt2Acl bytes es
  written : ∀ es, IsExt2Acl bytes es →
    r.1.take (4 + 8 * es.length) = eaAcl es

theorem AclConverted.fail
    {bytes dst out : List UInt8}
    (hLength : out.length = dst.length)
    (hNone : ∀ es, ¬IsExt2Acl bytes es) :
    AclConverted bytes dst (out, -EINVAL) where
  length := hLength
  code := .inr rfl
  zero_iff := by
    constructor
    · intro hZero
      cases hZero
    · rintro ⟨es, hEs⟩
      exact absurd hEs (hNone es)
  written es hEs := absurd hEs (hNone es)

theorem AclConverted.done
    {bytes dst out : List UInt8}
    {es : List AclEntry}
    (hLength : out.length = dst.length)
    (hEs : IsExt2Acl bytes es)
    (hWritten : out.take (4 + 8 * es.length) = eaAcl es) :
    AclConverted bytes dst (out, 0) where
  length := hLength
  code := .inl rfl
  zero_iff := ⟨fun _ => ⟨es, hEs⟩, fun _ => rfl⟩
  written ds hDs := by
    rw [hEs.unique hDs]
    exact hWritten

section Whole

variable {buf : List UInt8} {src srcSize : Nat}

/- The source of a list: its version and its entries. -/
theorem IsExt2Acl.source
    {es : List AclEntry}
    (hSrc : src + srcSize ≤ buf.length)
    (hEs : IsExt2Acl ((buf.drop src).take srcSize) es) :
    srcSize = 4 + (es.flatMap AclEntry.onDisk).length ∧
      field buf src 4 = EXT2_ACL_VERSION ∧
      buf.drop (src + 4) =
        es.flatMap AclEntry.onDisk ++
          buf.drop (src + srcSize) ∧
      0 < es.length ∧ ext2AclCount srcSize = es.length := by
  rcases hEs with ⟨hBytes, hSome, hCount⟩
  have hLen : ((buf.drop src).take srcSize).length =
      srcSize := by
    simp only [List.length_take, List.length_drop]
    omega
  have hDrop : buf.drop src =
      encode 4 EXT2_ACL_VERSION ++
        (es.flatMap AclEntry.onDisk ++
          buf.drop (src + srcSize)) := by
    rw [← List.append_assoc, ← ext2Acl, ← hBytes,
      ← List.drop_drop, List.take_append_drop]
  refine ⟨?_, ?_, ?_, List.length_pos_iff.mpr hSome, ?_⟩
  · rw [← hLen, hBytes]
    simp [ext2Acl]
  · exact field_of_drop hDrop (by decide)
  · simpa using drop_of_drop hDrop
  · rw [← hLen]
    exact hCount

/- The entries that the loop came to the end with. -/
theorem Converted.isExt2Acl
    {n : Nat}
    {dst out : List UInt8}
    {es : List AclEntry}
    (hSrc : src + srcSize ≤ buf.length)
    (hHeader : 4 ≤ srcSize)
    (hVersion : field buf src 4 = EXT2_ACL_VERSION)
    (hCount : ext2AclCount srcSize = n)
    (hSome : 0 < n)
    (hEntries : Converted buf n 4 (src + 4) dst out
      (src + srcSize) es) :
    IsExt2Acl ((buf.drop src).take srcSize) es := by
  have hLen : ((buf.drop src).take srcSize).length =
      srcSize := by
    simp only [List.length_take, List.length_drop]
    omega
  have hFirst : buf.drop src =
      encode 4 (field buf src 4) ++ buf.drop (src + 4) :=
    drop_eq_field (by omega)
  have hPlace := hEntries.place
  refine ⟨?_, ?_, ?_⟩
  · rw [hFirst, hVersion, hEntries.read, ← List.append_assoc]
    apply List.take_left'
    rw [List.length_append, length_encode]
    omega
  · rintro rfl
    have hZero := hEntries.count
    rw [List.length_nil] at hZero
    omega
  · rw [hLen, hCount, hEntries.count]

/-
  The conversion stays in its buffers, returns 0 exactly for a
  list of as many entries as its size tells, and writes them.
-/
theorem ext2AclToXattr_runs
    {dst : List UInt8}
    (hSrc : src + srcSize ≤ buf.length)
    (hSize : srcSize < 2 ^ 32)
    (hRoom : aclEaSize (ext2AclCount srcSize) ≤ dst.length) :
    Runs (ext2AclToXattr dst buf src srcSize)
      (AclConverted ((buf.drop src).take srcSize) dst) := by
  unfold ext2AclToXattr
  split
  case isTrue hShort =>
    refine .ok (.fail rfl fun es hEs => ?_)
    have hLen := (hEs.source hSrc).1
    omega
  case isFalse hHeader =>
  refine (runs_read (by omega)).bind fun version hVersion => ?_
  subst hVersion
  split
  case isTrue hOther =>
    exact .ok (.fail rfl fun es hEs =>
      hOther (hEs.source hSrc).2.1)
  case isFalse hVersion =>
  dsimp only
  split
  case isTrue hNone =>
    refine .ok (.fail rfl fun es hEs => ?_)
    have hSource := (hEs.source hSrc).2.2.2
    omega
  case isFalse hSome =>
  have hSmall := ext2AclCount_lt (by omega) hSize
  obtain ⟨n, hCount⟩ : ∃ n : Nat, ext2AclCount srcSize = n :=
    ⟨_, (Int.toNat_of_nonneg (by omega)).symm⟩
  rw [hCount] at hRoom hSome hSmall ⊢
  rw [if_neg (by omega)]
  rw [aclEaSize_of_nat (by omega)] at hRoom
  refine (runs_write (by simp; omega)).bind
    fun head hHead => ?_
  rcases hHead with ⟨hHeadLen, hHead⟩
  have hLoop : Runs (aclEntries buf (src + srcSize)
      n 4 (src + 4) head)
      (Outcome buf (src + srcSize) n 4 (src + 4) head) :=
    aclEntries_runs hSrc (by omega) (by omega)
  refine hLoop.bind fun r hOut => ?_
  rcases r with ⟨out, stop⟩
  rcases hOut with ⟨hOutLen, hStop⟩
  have hLen := hOutLen.trans hHeadLen
  dsimp only at hLen hStop ⊢
  split
  case isTrue hEnd =>
    subst hEnd
    rcases hStop with ⟨-, es, hEntries⟩
    have hEs := hEntries.isExt2Acl hSrc (by omega)
      (by simpa using hVersion) hCount (by omega)
    refine .ok (.done hLen hEs ?_)
    rw [hEntries.count, hEntries.written, eaAcl]
    simpa using hHead
  case isFalse hOther =>
    refine .ok (.fail hLen fun es hEs => ?_)
    rcases hEs.source hSrc with ⟨hWhole, -, hDrop, -, hN⟩
    have hNumber : es.length = n := by omega
    cases stop with
    | none =>
        exact hStop ⟨es, _, hNumber, hDrop, by omega⟩
    | some stop =>
        rcases hStop with ⟨-, ds, hEntries⟩
        have hSame : ds = es :=
          flatMap_onDisk_inj
            (hEntries.count.trans hNumber.symm)
            (hEntries.read.symm.trans hDrop)
        have hPlace := hEntries.place
        rw [hSame] at hPlace
        exact hOther (by rw [hPlace]; congr 1; omega)

end Whole

end Convert

end BtrfsProgs
