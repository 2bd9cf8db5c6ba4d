import BtrfsProgs.Convert.ExtAttrs

/-
  The conversion of extended attributes stays in its buffers
  when the attributes in the inode leave room for their last
  entry.

  Main declarations:
    * `WalkFits` and `walkFits_of_aligned`
    * `checkNames_runs` and `walkFits_of_checkNames`
    * `copyAttrs_runs`
    * `InlineFits`
    * `copyExtendedAttrs_bounded_iff`
-/

----------
-- The Walk over Entries
----------

namespace BtrfsProgs

namespace Convert

open LittleEndian Record Checked

section Walk

variable {buf : List UInt8} {p q : Nat}

/- An entry that is not the last, and the next one. -/
def Leads
    (buf : List UInt8)
    (p q : Nat) : Prop :=
  p + 4 ≤ buf.length ∧ field buf p 4 ≠ 0 ∧
    q = p + attrLen (field buf p 1) ∧ q < buf.length

/-
  Every entry that the lengths of the names lead to leaves
  room for a last entry.
-/
def WalkFits
    (buf : List UInt8)
    (first : Nat) : Prop :=
  ∀ q, Relation.ReflTransGen (Leads buf) first q →
    q + 4 ≤ buf.length

/- Entries that lead to a last one. -/
inductive Chain
    (buf : List UInt8) : Nat → Prop where
  | last {p : Nat}
      (hRoom : p + 4 ≤ buf.length)
      (hZero : field buf p 4 = 0) : Chain buf p
  | cons {p q : Nat}
      (hLeads : Leads buf p q)
      (hRest : Chain buf q) : Chain buf p

theorem le_attrLen
    (n : Nat) : 16 + n ≤ attrLen n := by
  unfold attrLen
  omega

theorem attrLen_mod
    (n : Nat) : attrLen n % 4 = 0 :=
  Nat.mul_mod_left _ 4

theorem WalkFits.room
    (hFits : WalkFits buf p) : p + 4 ≤ buf.length :=
  hFits p .refl

theorem WalkFits.next
    (hFits : WalkFits buf p)
    (hLeads : Leads buf p q) : WalkFits buf q :=
  fun r hReach => hFits r (.head hLeads hReach)

theorem walkFits_of_next
    (hRoom : p + 4 ≤ buf.length)
    (hNext : ∀ q, Leads buf p q → WalkFits buf q) :
    WalkFits buf p := by
  intro r hReach
  rcases Relation.ReflTransGen.cases_head hReach with
    rfl | ⟨q, hLeads, hRest⟩
  · exact hRoom
  · exact hNext q hLeads r hRest

/- Where all is a multiple of 4, a walk fits. -/
theorem walkFits_of_aligned
    (hBuf : buf.length % 4 = 0)
    (hFirst : p % 4 = 0)
    (hLt : p < buf.length) :
    WalkFits buf p := by
  intro q hReach
  have hPlace : q % 4 = 0 ∧ q < buf.length := by
    induction hReach with
    | refl => exact ⟨hFirst, hLt⟩
    | @tail r q hReach hLeads ih =>
        have hLen := attrLen_mod (field buf r 1)
        rcases hLeads with ⟨-, -, hNext, hEnd⟩
        exact ⟨by omega, hEnd⟩
  omega

end Walk

----------
-- The Check of the Names
----------

section Names

variable {buf : List UInt8} {turns p : Nat}

theorem runs_isLastEntry
    (hRoom : p + 4 ≤ buf.length) :
    Runs (isLastEntry buf p) fun isLast =>
      isLast = decide (field buf p 4 = 0) :=
  (runs_read hRoom).bind fun _ hWord =>
    .ok (congrArg (fun v => decide (v = 0)) hWord)

theorem runs_attrNext
    (hRoom : p + 1 ≤ buf.length) :
    Runs (attrNext buf p) fun next =>
      next = p + attrLen (field buf p 1) :=
  (runs_read hRoom).bind fun _ hLen =>
    .ok (congrArg (fun n => p + attrLen n) hLen)

/-
  The check reads only what the walk reads, and finds the last
  entry if it has no objection. The induction is on the turns,
  each of which goes on by 16 bytes or more.
-/
theorem checkNames_runs
    (hFits : WalkFits buf p)
    (hTurns : buf.length < p + turns) :
    Runs (checkNames buf buf.length turns p) fun ret =>
      ret = 0 → Chain buf p := by
  induction turns generalizing p with
  | zero =>
      have hRoom := hFits.room
      omega
  | succ turns ih =>
      have hRoom := hFits.room
      unfold checkNames
      refine (runs_isLastEntry hRoom).bind
        fun isLast hLast => ?_
      subst hLast
      by_cases hZero : field buf p 4 = 0
      · rw [decide_eq_true hZero]
        exact .ok fun _ => .last hRoom hZero
      · rw [decide_eq_false hZero]
        refine (runs_attrNext (by omega)).bind
          fun next hNext => ?_
        split
        case isTrue => exact .ok fun hCode => by cases hCode
        case isFalse hEnd =>
            have hLen := le_attrLen (field buf p 1)
            have hLeads : Leads buf p next :=
              ⟨hRoom, hZero, hNext, by omega⟩
            apply (ih (hFits.next hLeads) (by omega)).mono
            intro ret hChain hCode
            exact .cons hLeads (hChain hCode)

/- A check that returns has read all that the walk reads. -/
theorem walkFits_of_checkNames
    {Q : Int → Prop}
    (hRuns : Runs (checkNames buf buf.length turns p) Q) :
    WalkFits buf p := by
  induction turns generalizing p with
  | zero => exact absurd hRuns not_runs_error
  | succ turns ih =>
      unfold checkNames at hRuns
      rcases hRuns.of_bind with ⟨isLast, hLast, hRuns⟩
      have hRoom : p + 4 ≤ buf.length := by
        unfold isLastEntry at hLast
        cases hRead : read buf p 4 with
        | ok v => exact (le_of_read_eq hRead).1
        | error e =>
            rw [hRead] at hLast
            cases hLast
      refine walkFits_of_next hRoom fun q hLeads => ?_
      rcases hLeads with ⟨-, hWord, hNext, hEnd⟩
      rcases runs_isLastEntry hRoom with
        ⟨isLast', hLast', hIs⟩
      cases hLast.symm.trans hLast'
      rw [hIs, decide_eq_false hWord] at hRuns
      rcases hRuns.of_bind with ⟨next, hAttr, hRuns⟩
      have hByte : p + 1 ≤ buf.length := by omega
      rcases runs_attrNext hByte with ⟨next', hAttr', hIs'⟩
      cases hAttr.symm.trans hAttr'
      rw [if_neg (by omega)] at hRuns
      have hSame : next = q := hIs'.trans hNext.symm
      rw [← hSame]
      exact ih hRuns

end Names

----------
-- One Attribute
----------

section Copies

variable {σ : Type} {h : Host σ} {fs : σ}
variable {buf : List UInt8}

/- A prefix fits in the buffer of a name and has no zero. -/
theorem prefix_fits
    {i : Nat}
    {pre : List UInt8}
    (hPre : (xattrPrefixTable[i]?).join = some pre) :
    pre.length < XATTR_NAME_MAX ∧ 0 ∉ pre := by
  have hMem : some pre ∈ xattrPrefixTable := by
    rw [Option.join_eq_some_iff] at hPre
    exact List.mem_of_getElem? hPre
  have hAll : ∀ entry ∈ xattrPrefixTable, ∀ pre,
      entry = some pre →
        pre.length < XATTR_NAME_MAX ∧ 0 ∉ pre := by
    decide
  exact hAll _ hMem pre rfl

/- `strncpy` leaves the prefix with a zero behind it. -/
theorem padded_prefix
    {pre : List UInt8}
    (hPre : pre.length < XATTR_NAME_MAX) :
    (pre ++ List.replicate XATTR_NAME_MAX 0).take
        XATTR_NAME_MAX =
      pre ++ 0 :: List.replicate
        (XATTR_NAME_MAX - pre.length - 1) 0 := by
  have hSucc : XATTR_NAME_MAX - pre.length =
      XATTR_NAME_MAX - pre.length - 1 + 1 := by
    omega
  rw [List.take_append, List.take_of_length_le hPre.le,
    List.take_replicate, Nat.min_eq_left (Nat.sub_le _ _)]
  congr 1
  exact (congrArg (List.replicate · 0) hSucc).trans
    List.replicate_succ

theorem insertNamed_runs
    {pre databuf : List UInt8}
    {entry entryNameLen data datalen : Nat}
    (hPre : pre.length < XATTR_NAME_MAX)
    (hText : 0 ∉ pre)
    (hName : pre.length + entryNameLen < XATTR_NAME_MAX + 1)
    (hEntry : entry + 16 + entryNameLen ≤ buf.length)
    (hData : data + datalen % 2 ^ 16 ≤ databuf.length) :
    Runs (insertNamed h buf entry pre entryNameLen databuf
      data datalen fs) fun _ => True := by
  have hLen := h.namebuf_length
  have hPad := padded_prefix hPre
  unfold insertNamed
  refine (runs_write ?_).bind fun first hFirst => ?_
  · rw [List.length_take, hLen]
    omega
  rcases hFirst with ⟨hFirstLen, hFirst⟩
  have hBuf : first =
      pre ++ 0 :: (List.replicate
        (XATTR_NAME_MAX - pre.length - 1) 0 ++
          first.drop XATTR_NAME_MAX) := by
    have hSize : ((pre ++ List.replicate XATTR_NAME_MAX 0).take
        XATTR_NAME_MAX).length = XATTR_NAME_MAX := by
      simp
    rw [hSize, Nat.zero_add, hPad] at hFirst
    conv_lhs =>
      rw [← List.take_append_drop XATTR_NAME_MAX first]
    rw [hFirst]
    simp
  refine (runs_stringEnd hBuf hText).bind fun stop hStop => ?_
  subst hStop
  refine (runs_readString (by omega)).bind
    fun name hNameLen => ?_
  refine (runs_write ?_).bind fun second hSecond => ?_
  · simp only [List.length_append, List.length_singleton]
    omega
  rcases hSecond with ⟨hSecondLen, -⟩
  split
  case isTrue => exact .ok trivial
  case isFalse =>
    refine (runs_readBytes ?_).bind fun name _ => ?_
    · have hMod := Nat.mod_le (pre.length + entryNameLen)
        (2 ^ 16)
      omega
    refine (runs_readBytes hData).bind fun value _ => ?_
    exact .ok trivial

/- One attribute whose name and value are in the buffer. -/
theorem copySingleXattr_runs
    {entry data datalen : Nat}
    (hEntry : entry + 16 + field buf entry 1 ≤ buf.length)
    (hData : data + datalen ≤ buf.length)
    (hSize : datalen < 2 ^ 32) :
    Runs (copySingleXattr h buf entry data datalen fs)
      fun _ => True := by
  unfold copySingleXattr
  refine (runs_read (by omega)).bind fun nameIndex _ => ?_
  cases hPre : (xattrPrefixTable[nameIndex]?).join with
  | none => exact .ok trivial
  | some pre =>
      rcases prefix_fits hPre with ⟨hShort, hText⟩
      dsimp only
      refine (runs_read (by omega)).bind
        fun entryNameLen hLen => ?_
      subst hLen
      split
      case isTrue => exact .ok trivial
      case isFalse hName =>
      split
      case isTrue =>
        cases hAlloc : h.malloc
            (aclEaSize (ext2AclCount datalen)) with
        | none => exact .ok trivial
        | some databuf =>
            have hRoom := h.malloc_length _ _ hAlloc
            dsimp only
            refine (ext2AclToXattr_runs hData hSize
              hRoom.ge).bind fun r hConverted => ?_
            have hKept := hConverted.length
            rcases r with ⟨out, ret⟩
            dsimp only at hKept ⊢
            split
            case isTrue => exact .ok trivial
            case isFalse =>
                have hMod := Nat.mod_le
                  (aclEaSize (ext2AclCount datalen)) (2 ^ 32)
                have hMod' := Nat.mod_le
                  (aclEaSize (ext2AclCount datalen) % 2 ^ 32)
                  (2 ^ 16)
                exact insertNamed_runs hShort hText (by omega)
                  hEntry (by omega)
      case isFalse =>
        have hMod := Nat.mod_le datalen (2 ^ 16)
        exact insertNamed_runs hShort hText (by omega) hEntry
          (by omega)

/- A value that an entry may have is where it tells. -/
theorem runs_checkEntry
    {entry size : Nat}
    (hEntry : entry + 16 ≤ buf.length)
    (hSize : size < 2 ^ 32) :
    Runs (checkEntry buf entry size) fun ret =>
      ret = 0 →
        field buf (entry + 2) 2 + field buf (entry + 8) 4 ≤
          size := by
  unfold checkEntry
  refine (runs_read (by omega)).bind fun valueSize hV => ?_
  refine (runs_read (by omega)).bind fun valueBlock _ => ?_
  refine (runs_read (by omega)).bind fun valueOffs hO => ?_
  have hOffs := field_lt buf (entry + 2) 2
  split
  case isTrue => exact .ok fun hCode => by cases hCode
  case isFalse hFine => exact .ok fun _ => by omega

/-
  The copies of a chain of entries stay in the buffer. The
  induction is on the chain.
-/
theorem copyAttrs_runs
    {base total turns entry : Nat}
    (hChain : Chain buf entry)
    (hTurns : buf.length < entry + turns)
    (hArea : base + total ≤ buf.length)
    (hSize : buf.length < 2 ^ 32) :
    Runs (copyAttrs h buf base total turns entry fs)
      fun _ => True := by
  induction hChain generalizing turns fs with
  | @last p hRoom hZero =>
      cases turns with
      | zero => omega
      | succ turns =>
          unfold copyAttrs
          refine (runs_isLastEntry hRoom).bind
            fun isLast hLast => ?_
          rw [hLast, decide_eq_true hZero]
          exact .ok trivial
  | @cons p q hLeads hRest ih =>
      rcases hLeads with ⟨hRoom, hWord, hNext, hEnd⟩
      have hLen := le_attrLen (field buf p 1)
      cases turns with
      | zero => omega
      | succ turns =>
          unfold copyAttrs
          refine (runs_isLastEntry hRoom).bind
            fun isLast hLast => ?_
          rw [hLast, decide_eq_false hWord]
          refine (runs_checkEntry (by omega) (by omega)).bind
            fun ret hFine => ?_
          split
          case isTrue => exact .ok trivial
          case isFalse hCode =>
          have hValue := hFine (by omega)
          refine (runs_read (by omega)).bind
            fun valueOffs hOffs => ?_
          refine (runs_read (by omega)).bind
            fun valueSize hSizeIs => ?_
          refine (copySingleXattr_runs (by omega) (by omega)
            (by omega)).bind fun r _ => ?_
          rcases r with ⟨fs, code⟩
          dsimp only
          split
          case isTrue => exact .ok trivial
          case isFalse =>
          refine (runs_attrNext (by omega)).bind
            fun next hIs => ?_
          have hSame : next = q := hIs.trans hNext.symm
          subst hSame
          exact ih (by omega)

----------
-- The Inode and Its Block
----------

/-
  The attributes in the inode, if they are looked at, leave
  room: `i_extra_isize` is in the inode, and unless it is 0 or
  leaves the inode, the magic number behind it is; where that
  is the right one, the walk over the entries fits.
-/
def AreaFits
    (s : Ext2Inode)
    (inode : List UInt8) : Prop :=
  s.firstIno < s.ino →
    EXT2_GOOD_OLD_INODE_SIZE < s.inodeSize →
      130 ≤ s.inodeSize ∧
        (field inode 128 2 ≠ 0 →
          128 + field inode 128 2 ≤ s.inodeSize →
            132 + field inode 128 2 ≤ s.inodeSize ∧
              (field inode (128 + field inode 128 2) 4 =
                  EXT2_EXT_ATTR_MAGIC →
                WalkFits inode (132 + field inode 128 2)))

/- The same for the inode that is read, if it is. -/
def InlineFits
    (h : Host σ)
    (s : Ext2Inode) : Prop :=
  ∀ inode, s.inode = some inode →
    (h.malloc s.inodeSize).isSome → AreaFits s inode

section Inode

variable {s : Ext2Inode} {inode : List UInt8} {turns : Nat}

theorem runs_inlineEa
    (hLen : inode.length =
      max EXT2_GOOD_OLD_INODE_SIZE s.inodeSize)
    (hFits : AreaFits s inode) :
    Runs (inlineEa s inode) fun r => r = some true →
      inode.length = s.inodeSize ∧
        132 + field inode 128 2 ≤ s.inodeSize ∧
        WalkFits inode (132 + field inode 128 2) := by
  unfold inlineEa
  split
  case isFalse => exact .ok fun hEa => by cases hEa
  case isTrue hLooked =>
  rcases hFits hLooked.1 hLooked.2 with ⟨hField, hArea⟩
  have hSize : inode.length = s.inodeSize := by
    rw [hLen]
    exact Nat.max_eq_right (Nat.le_of_lt hLooked.2)
  have hExtra : EXT2_GOOD_OLD_INODE_SIZE + 2 ≤
      inode.length := by
    rw [hSize]
    exact hField
  refine (runs_read hExtra).bind fun extra hIs => ?_
  subst hIs
  split
  case isTrue => exact .ok fun hEa => by cases hEa
  case isFalse hInside =>
  split
  case isFalse => exact .ok fun hEa => by cases hEa
  case isTrue hUsed =>
  rcases hArea hUsed (Nat.le_of_not_lt hInside) with
    ⟨hRoom, hWalk⟩
  refine (runs_read ?_).bind fun magic hMagic => .ok ?_
  · rw [hSize]
    unfold EXT2_GOOD_OLD_INODE_SIZE
    omega
  · intro hEa
    have hSame : magic = EXT2_EXT_ATTR_MAGIC := by
      simpa using hEa
    exact ⟨hSize, hRoom, hWalk (hMagic.symm.trans hSame)⟩

/- A magic number that is not in the inode is read. -/
theorem inlineEa_outside
    (hIno : s.firstIno < s.ino)
    (hBig : EXT2_GOOD_OLD_INODE_SIZE < s.inodeSize)
    (hField : 130 ≤ inode.length)
    (hUsed : field inode 128 2 ≠ 0)
    (hInside : 128 + field inode 128 2 ≤ s.inodeSize)
    (hLeaves : inode.length < 132 + field inode 128 2) :
    inlineEa s inode = .error .outside := by
  have hMagic : read inode (128 + field inode 128 2) 4 =
      .error .outside :=
    read_outside (by omega)
  unfold inlineEa
  rw [if_pos ⟨hIno, hBig⟩]
  unfold EXT2_GOOD_OLD_INODE_SIZE
  rw [read_eq hField]
  simp only [bind, Except.bind]
  rw [if_neg (by omega), if_pos hUsed, hMagic]

theorem copyInline_runs
    (hLen : inode.length =
      max EXT2_GOOD_OLD_INODE_SIZE s.inodeSize)
    (hFits : AreaFits s inode)
    (hTurns : s.inodeSize < turns) :
    Runs (copyInline h s turns inode fs) fun _ => True := by
  unfold copyInline
  refine (runs_inlineEa hLen hFits).bind fun r hEa => ?_
  match r with
  | none
  | some false => exact .ok trivial
  | some true =>
    rcases hEa rfl with ⟨hSize, hRoom, hWalk⟩
    have hBound := s.inodeSize_lt
    have hFirst : Runs (inodeFirst inode) fun first =>
        first = 132 + field inode 128 2 := by
      unfold inodeFirst EXT2_GOOD_OLD_INODE_SIZE
      refine (runs_read (by omega)).bind fun extra hIs => ?_
      exact .ok (by omega)
    dsimp only
    refine hFirst.bind fun first hIs => ?_
    subst hIs
    rw [← hSize]
    refine (checkNames_runs hWalk (by omega)).bind
      fun ret hChain => ?_
    split
    case isTrue => exact .ok trivial
    case isFalse hCode =>
      have hTotal : toSize (inode.length -
          (132 + field inode 128 2 : Nat)) =
            inode.length - (132 + field inode 128 2) := by
        unfold toSize
        omega
      rw [hTotal]
      exact copyAttrs_runs (hChain (by omega)) (by omega)
        (by omega) (by omega)

/- What was read of an inode that is looked at. -/
theorem inlineEa_found
    {r : Option Bool}
    (hIno : s.firstIno < s.ino)
    (hBig : EXT2_GOOD_OLD_INODE_SIZE < s.inodeSize)
    (hEa : inlineEa s inode = .ok r) :
    130 ≤ inode.length ∧
      (field inode 128 2 ≠ 0 →
        128 + field inode 128 2 ≤ s.inodeSize →
          132 + field inode 128 2 ≤ inode.length ∧
            r = some (decide
              (field inode (128 + field inode 128 2) 4 =
                EXT2_EXT_ATTR_MAGIC))) := by
  have hRuns : Runs (inlineEa s inode) (· = r) :=
    ⟨r, hEa, rfl⟩
  unfold inlineEa EXT2_GOOD_OLD_INODE_SIZE at hRuns
  rw [if_pos ⟨hIno, hBig⟩] at hRuns
  rcases hRuns.of_bind with ⟨extra, hRead, hRest⟩
  rcases le_of_read_eq hRead with ⟨hField, rfl⟩
  refine ⟨hField, fun hUsed hInside => ?_⟩
  rw [if_neg (by omega), if_pos hUsed] at hRest
  rcases hRest.of_bind with ⟨magic, hMagic, hLast⟩
  rcases le_of_read_eq hMagic with ⟨hRoom, rfl⟩
  rcases hLast with ⟨found, hFound, hIs⟩
  cases hFound
  exact ⟨by omega, hIs.symm⟩

/- A conversion that returns has found room. -/
theorem areaFits_of_copyInline
    {Q : σ × Int → Prop}
    (hLen : inode.length =
      max EXT2_GOOD_OLD_INODE_SIZE s.inodeSize)
    (hRuns : Runs (copyInline h s turns inode fs) Q) :
    AreaFits s inode := by
  intro hIno hBig
  have hSize : inode.length = s.inodeSize := by
    rw [hLen]
    exact Nat.max_eq_right (Nat.le_of_lt hBig)
  unfold copyInline at hRuns
  rcases hRuns.of_bind with ⟨ea, hEa, hRuns⟩
  rcases inlineEa_found hIno hBig hEa with ⟨hField, hArea⟩
  refine ⟨by omega, fun hUsed hInside => ?_⟩
  rcases hArea hUsed hInside with ⟨hRoom, hFound⟩
  refine ⟨by omega, fun hMagic => ?_⟩
  rw [hFound, decide_eq_true hMagic] at hRuns
  dsimp only at hRuns
  rcases hRuns.of_bind with ⟨first, hFirst, hRuns⟩
  have hIs : first = 132 + field inode 128 2 := by
    unfold inodeFirst EXT2_GOOD_OLD_INODE_SIZE at hFirst
    rw [read_eq hField] at hFirst
    cases hFirst
    omega
  rcases hRuns.of_bind with ⟨ret, hNames, -⟩
  rw [← hSize, hIs] at hNames
  exact walkFits_of_checkNames (.of_eq hNames)

/-
  The attributes in the block: all of its sizes are multiples
  of 4, so that the walk over its entries fits.
-/
theorem copyBlock_runs
    (hLen : EXT2_GOOD_OLD_INODE_SIZE ≤ inode.length)
    (hTurns : s.blocksize < turns) :
    Runs (copyBlock h s turns inode fs) fun _ => True := by
  unfold EXT2_GOOD_OLD_INODE_SIZE at hLen
  unfold copyBlock
  refine (runs_read (by omega)).bind fun fileAcl _ => ?_
  split
  case isTrue => exact .ok trivial
  case isFalse =>
  split
  case isTrue => exact .ok trivial
  case isFalse =>
  cases hAttr : s.extAttr fileAcl with
  | none => exact .ok trivial
  | some buffer =>
    have hSize : buffer.length = s.blocksize :=
      s.extAttr_length _ _ hAttr
    have hBound : s.blocksize < 2 ^ 32 := s.blocksize_lt
    have hPos := Nat.two_pow_pos s.logBlockSize
    have hBlocks : s.blocksize =
        1024 * 2 ^ s.logBlockSize := rfl
    have hWalk : WalkFits buffer blockFirst := by
      apply walkFits_of_aligned
      · omega
      · rfl
      · unfold blockFirst
        omega
    dsimp only
    rw [← hSize]
    have hCheck : Runs (checkBlock buffer buffer.length turns)
        fun ret => ret = 0 → Chain buffer blockFirst := by
      unfold checkBlock
      refine (runs_read (by omega)).bind fun magic _ => ?_
      split
      case isTrue => exact .ok fun hCode => by cases hCode
      case isFalse =>
      refine (runs_read (by omega)).bind fun blocks _ => ?_
      split
      case isTrue => exact .ok fun hCode => by cases hCode
      case isFalse => exact checkNames_runs hWalk (by omega)
    refine hCheck.bind fun ret hChain => ?_
    split
    case isTrue => exact .ok trivial
    case isFalse hCode =>
      exact copyAttrs_runs (hChain (by omega)) (by omega)
        (by omega) (by omega)

end Inode

----------
-- The Whole Conversion
----------

/-
  What the conversion is to do: it ends without an access
  outside a buffer, and a list of access control entries is
  converted to the same entries.
-/
def StaysInBounds
    (h : Host σ)
    (s : Ext2Inode)
    (fs : σ) : Prop :=
  (∃ turns, Runs (copyExtendedAttrs h s turns fs)
    fun _ => True) ∧
  ∀ (dst buf : List UInt8) (src srcSize : Nat),
    src + srcSize ≤ buf.length → srcSize < 2 ^ 32 →
      aclEaSize (ext2AclCount srcSize) ≤ dst.length →
        Runs (ext2AclToXattr dst buf src srcSize)
          (AclConverted ((buf.drop src).take srcSize) dst)

/- A conversion that returns has read what the walk reads. -/
theorem inlineFits_of_runs
    {s : Ext2Inode}
    {turns : Nat}
    (hRuns : Runs (copyExtendedAttrs h s turns fs)
      fun _ => True) :
    InlineFits h s := by
  intro inode hInode hAlloc
  unfold copyExtendedAttrs at hRuns
  have hSome : ¬(h.malloc s.inodeSize).isNone := by
    simpa [Option.isSome_iff_ne_none] using hAlloc
  rw [if_neg fun hBoth => hSome hBoth.2, hInode] at hRuns
  rcases hRuns.of_bind with ⟨r, hInline, -⟩
  exact areaFits_of_copyInline (s.inode_length _ hInode)
    (.of_eq hInline)

theorem runs_of_inlineFits
    {s : Ext2Inode}
    {turns : Nat}
    (hFits : InlineFits h s)
    (hTurns : s.inodeSize + s.blocksize < turns) :
    Runs (copyExtendedAttrs h s turns fs) fun _ => True := by
  unfold copyExtendedAttrs
  split
  case isTrue => exact .ok trivial
  case isFalse hAlloc =>
  cases hInode : s.inode with
  | none => exact .ok trivial
  | some inode =>
    have hLen := s.inode_length _ hInode
    have hArea : AreaFits s inode := by
      intro hIno hBig
      refine hFits inode hInode ?_ hIno hBig
      have hSome : ¬(h.malloc s.inodeSize).isNone :=
        fun hNone => hAlloc ⟨hBig, hNone⟩
      simpa [Option.isSome_iff_ne_none] using hSome
    dsimp only
    refine (copyInline_runs hLen hArea (by omega)).bind
      fun r _ => ?_
    rcases r with ⟨fs, ret⟩
    dsimp only
    split
    case isTrue => exact .ok trivial
    case isFalse =>
      refine copyBlock_runs ?_ (by omega)
      rw [hLen]
      exact Nat.le_max_left _ _

/-
  The conversion stays in its buffers exactly when the
  attributes in the inode leave room for their last entry.
-/
theorem copyExtendedAttrs_bounded_iff
    (h : Host σ)
    (s : Ext2Inode)
    (fs : σ) :
    StaysInBounds h s fs ↔ InlineFits h s := by
  constructor
  · rintro ⟨⟨turns, hRuns⟩, -⟩
    exact inlineFits_of_runs hRuns
  · intro hFits
    refine ⟨⟨s.inodeSize + s.blocksize + 1,
      runs_of_inlineFits hFits (by omega)⟩, ?_⟩
    intro dst buf src srcSize hSrc hSize hRoom
    exact ext2AclToXattr_runs hSrc hSize hRoom

end Copies

/- A host that gives zeroes, and refuses very large sizes. -/
def plainHost : Host Unit where
  leafDataSize := 3995
  malloc n :=
    if n < 2 ^ 47 then some (List.replicate n 0) else none
  namebuf := List.replicate 256 0
  insertXattrItem fs _ _ := (fs, 0)
  malloc_length := by
    intro n buf hBuf
    split at hBuf
    case isTrue =>
        cases hBuf
        exact List.length_replicate
    case isFalse => cases hBuf
  namebuf_length := List.length_replicate

/- The bytes of an inode whose `i_extra_isize` is 128. -/
def fullBytes : List UInt8 :=
  List.replicate 128 0 ++
    (encode 2 128 ++ List.replicate 126 0)

theorem length_fullBytes : fullBytes.length = 256 := by
  rw [fullBytes, List.length_append, List.length_append,
    List.length_replicate, length_encode,
    List.length_replicate]

/-
  An inode of 256 bytes with them: all that is behind the old
  inode is taken.
-/
def fullInode : Ext2Inode where
  logBlockSize := 2
  inodeSize := 256
  firstIno := 11
  ino := 12
  inode := some fullBytes
  extAttr _ := none
  inodeSize_lt := by decide
  blocksize_lt := by decide
  inode_length := by
    intro buf hBuf
    cases hBuf
    exact length_fullBytes
  extAttr_length := by
    intro blk buf hBuf
    cases hBuf

/- The magic number is read behind the inode. -/
theorem fullInode_leaves :
    (∀ turns, copyExtendedAttrs plainHost fullInode turns () =
      .error .outside) ∧
      ¬StaysInBounds plainHost fullInode () := by
  have hLen := length_fullBytes
  have hExtra : field fullBytes 128 2 = 128 := by
    have hDrop : fullBytes.drop 128 =
        encode 2 128 ++ List.replicate 126 0 :=
      List.drop_left' List.length_replicate
    exact field_of_drop hDrop (by decide)
  have hInline : inlineEa fullInode fullBytes =
      .error .outside := by
    apply inlineEa_outside
    · decide
    · decide
    · omega
    · omega
    · rw [hExtra]
      decide
    · omega
  have hRun (turns : Nat) :
      copyExtendedAttrs plainHost fullInode turns () =
        .error .outside := by
    have hCopy : copyInline plainHost fullInode turns
        fullBytes () = .error .outside := by
      unfold copyInline
      rw [hInline]
      rfl
    unfold copyExtendedAttrs
    rw [if_neg (by decide)]
    dsimp only [fullInode] at hCopy ⊢
    rw [hCopy]
    rfl
  refine ⟨hRun, ?_⟩
  rintro ⟨⟨turns, hRuns⟩, -⟩
  rw [hRun turns] at hRuns
  exact not_runs_error hRuns

end Convert

end BtrfsProgs
