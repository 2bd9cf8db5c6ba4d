import BtrfsProgs.SubvolList.ResolveRoot

/-
  `btrfs_subvolid_resolve`, from `send-utils.c`.

  The recursion keeps no note of the ids it has met, and for
  the top-level tree the byte of the terminator is counted a
  second time.

  Main declarations:
    * `RootRefs` and `PathState`
    * `subvolidResolveSub` and `subvolidResolve`
    * `FullPath` and `ResolvesWithin`
    * `subvolidResolve_within_iff`
-/

----------
-- The Functions
----------

namespace BtrfsProgs

namespace SubvolidResolve

open Checked SubvolList

def BTRFS_FIRST_FREE_OBJECTID : Nat := 256

def EOVERFLOW : Int := -75

/- A `ROOT_BACKREF` item, with its `struct btrfs_root_ref`. -/
structure RootBackref where
  objectid : Nat
  offset : Nat
  dirid : Nat
  name : CString

/-
  What the ioctls report: the back references in the order of
  their keys, and the paths of directories.
-/
structure RootRefs where
  items : List RootBackref
  dirPath : Nat → Nat → Option CString

/- `BTRFS_IOC_TREE_SEARCH` for one item. -/
def RootRefs.search
    (refs : RootRefs)
    (subvol_id : Nat) : Option RootBackref :=
  refs.items.find? (·.objectid = subvol_id)

/- The buffer `path`, and `*path_len`. -/
structure PathState where
  path : List UInt8
  path_len : Nat
deriving Repr, DecidableEq

/- What a call returns, and the state it leaves. -/
abbrev Outcome := Except Fault (Int × PathState)

def strcat
    (path s : List UInt8) : Except Fault (List UInt8) := do
  write path (← stringEnd path) (s ++ [0])

/- A part behind the path, when it has room. -/
def appendPart
    (s : PathState)
    (part : List UInt8) : Outcome :=
  if s.path_len < part.length then .ok (EOVERFLOW, s)
  else do
    let path ← strcat s.path part
    return (0, ⟨path, s.path_len - part.length⟩)

/- Go on after a 0. -/
def andThen
    (outcome : Outcome)
    (next : PathState → Outcome) : Outcome := do
  let (ret, s) ← outcome
  if ret ≠ 0 then .ok (ret, s) else next s

/- The directory, but for the root of a tree. -/
def appendDir
    (refs : RootRefs)
    (ref : RootBackref)
    (s : PathState) : Outcome :=
  if ref.dirid ≠ BTRFS_FIRST_FREE_OBJECTID then
    match refs.dirPath ref.offset ref.dirid with
    | none => .ok (-1, s)
    | some name => appendPart s name.chars
  else .ok (0, s)

/- The directory and the name of the subvolume in it. -/
def appendNames
    (refs : RootRefs)
    (ref : RootBackref)
    (s : PathState) : Outcome :=
  andThen (appendDir refs ref s) fun s =>
    appendPart s ref.name.chars

/- `btrfs_subvolid_resolve_sub`, for a depth of recursion. -/
def subvolidResolveSub
    (refs : RootRefs)
    (fuel : Nat)
    (subvol_id : Nat)
    (s : PathState) : Option Outcome :=
  match fuel with
  | 0 => none
  | fuel + 1 =>
      if subvol_id = BTRFS_FS_TREE_OBJECTID then
        some
          (if s.path_len < 1 then .ok (EOVERFLOW, s)
          else do
            let path ← write s.path 0 [0]
            return (0, ⟨path, s.path_len - 1⟩))
      else
        match refs.search subvol_id with
        | none => some (.ok (ENOENT, s))
        | some ref =>
            if ref.offset ≠ BTRFS_FS_TREE_OBJECTID then
              (subvolidResolveSub refs fuel ref.offset s).map
                fun outcome =>
                  andThen
                    (andThen outcome fun s =>
                      appendPart s [SLASH])
                    (appendNames refs ref)
            else some (appendNames refs ref s)

/- `btrfs_subvolid_resolve`, with the bytes it may write. -/
def subvolidResolve
    (refs : RootRefs)
    (fuel : Nat)
    (path : List UInt8)
    (subvol_id : Nat) : Option Outcome :=
  let path_len := path.length
  if path_len < 1 then some (.ok (EOVERFLOW, ⟨path, path_len⟩))
  else
    match
      (do
        let path ← write path 0 [0]
        write path (path_len - 1) [0]) with
    | .error fault => some (.error fault)
    | .ok path =>
        subvolidResolveSub refs fuel subvol_id
          ⟨path, path_len - 1⟩

----------
-- Paths
----------

/- The directory of a subvolume in the one that it is in. -/
def RootRefs.dir
    (refs : RootRefs)
    (ref : RootBackref) : Option (List UInt8) :=
  if ref.dirid ≠ BTRFS_FIRST_FREE_OBJECTID then
    (refs.dirPath ref.offset ref.dirid).map CString.chars
  else some []

/- The name of a subvolume below the one that it is in. -/
def RootRefs.names
    (refs : RootRefs)
    (ref : RootBackref) : Option (List UInt8) :=
  (refs.dir ref).map (· ++ ref.name.chars)

/- The names from the top-level tree down, with slashes. -/
inductive FullPath
    (refs : RootRefs) : Nat → List UInt8 → Prop where
  | top : FullPath refs BTRFS_FS_TREE_OBJECTID []
  | outer
      {subvol_id : Nat}
      {ref : RootBackref}
      {names : List UInt8}
      (hOther : subvol_id ≠ BTRFS_FS_TREE_OBJECTID)
      (hRef : refs.search subvol_id = some ref)
      (hTop : ref.offset = BTRFS_FS_TREE_OBJECTID)
      (hNames : refs.names ref = some names) :
      FullPath refs subvol_id names
  | inner
      {subvol_id : Nat}
      {ref : RootBackref}
      {front names : List UInt8}
      (hOther : subvol_id ≠ BTRFS_FS_TREE_OBJECTID)
      (hRef : refs.search subvol_id = some ref)
      (hBelow : ref.offset ≠ BTRFS_FS_TREE_OBJECTID)
      (hFront : FullPath refs ref.offset front)
      (hNames : refs.names ref = some names) :
      FullPath refs subvol_id (front ++ [SLASH] ++ names)

/-
  The call ends within the buffer, with 0 exactly where the
  full path fits with its terminator, and then with this path.
-/
def ResolvesWithin
    (refs : RootRefs)
    (path : List UInt8)
    (subvol_id : Nat) : Prop :=
  ∃ fuel ret s,
    subvolidResolve refs fuel path subvol_id =
        some (.ok (ret, s)) ∧
      s.path.length = path.length ∧
      (ret = 0 ↔ ∃ full, FullPath refs subvol_id full ∧
        full.length + 1 ≤ path.length) ∧
      ∀ full, ret = 0 → FullPath refs subvol_id full →
        ∃ rest, s.path = full ++ 0 :: rest

/- From a subvolume to the one that it is in. -/
def Up
    (refs : RootRefs)
    (a b : Nat) : Prop :=
  a ≠ BTRFS_FS_TREE_OBJECTID ∧ b ≠ BTRFS_FS_TREE_OBJECTID ∧
    ∃ ref, refs.search a = some ref ∧ ref.offset = b

/- The back references of the subvolume run into a cycle. -/
def Cyclic
    (refs : RootRefs)
    (subvol_id : Nat) : Prop :=
  ∃ c, Relation.ReflTransGen (Up refs) subvol_id c ∧
    Relation.TransGen (Up refs) c c

----------
-- Appending
----------

section Walk

variable {refs : RootRefs} {ref : RootBackref}
variable {s : PathState} {L subvol_id : Nat}
variable {str part : List UInt8} {outcome : Outcome}

/- The buffer holds a string, and the rest of it is counted. -/
structure Holds
    (L : Nat)
    (s : PathState)
    (str : List UInt8) : Prop where
  length : s.path.length = L
  text : ∃ rest, s.path = str ++ 0 :: rest
  noNul : 0 ∉ str
  room : str.length + s.path_len + 1 = L

/-
  A call returns: 0 with the path in the buffer, or an error
  where there is no path or it does not fit.
-/
def Returns
    (L : Nat)
    (full : Option (List UInt8))
    (outcome : Outcome) : Prop :=
  ∃ ret s, outcome = .ok (ret, s) ∧ s.path.length = L ∧
    (ret = 0 ∧ (∃ str, full = some str ∧ Holds L s str) ∨
      ret ≠ 0 ∧ ∀ str, full = some str → L < str.length + 1)

theorem strcat_holds
    (hHolds : Holds L s str)
    (hRoom : part.length ≤ s.path_len) :
    ∃ path, strcat s.path part = .ok path ∧
      path.length = L ∧
        ∃ rest, path = (str ++ part) ++ 0 :: rest := by
  rcases hHolds.text with ⟨rest, hText⟩
  have hCount := hHolds.room
  have hLength := hHolds.length
  rcases runs_stringEnd hText hHolds.noNul with
    ⟨stop, hEnd, hStop⟩
  rw [hStop] at hEnd
  have hFits : str.length + (part ++ [0]).length ≤
      s.path.length := by
    rw [List.length_append, List.length_singleton]
    omega
  rcases runs_write hFits with
    ⟨path, hWrite, hSame, hTake⟩
  refine ⟨path, ?_, hSame.trans hLength,
    path.drop (str.length + (part ++ [0]).length), ?_⟩
  · unfold strcat
    rw [hEnd]
    exact hWrite
  · have hParts := List.take_append_drop
      (str.length + (part ++ [0]).length) path
    rw [hTake, hText, List.take_left, ← List.append_assoc,
      List.append_assoc, List.singleton_append] at hParts
    exact hParts.symm

theorem appendPart_returns
    (hHolds : Holds L s str)
    (hNul : 0 ∉ part) :
    Returns L (some (str ++ part)) (appendPart s part) := by
  have hCount := hHolds.room
  unfold appendPart
  by_cases hFull : s.path_len < part.length
  · rw [if_pos hFull]
    refine ⟨_, s, rfl, hHolds.length, .inr ⟨by decide, ?_⟩⟩
    rintro _ ⟨⟩
    rw [List.length_append]
    omega
  · rw [if_neg hFull]
    rcases strcat_holds hHolds (not_lt.mp hFull) with
      ⟨path, hPath, hLength, hText⟩
    rw [hPath]
    refine ⟨_, _, rfl, hLength, .inl ⟨rfl, _, rfl, hLength,
      hText, ?_, ?_⟩⟩
    · rw [List.mem_append, not_or]
      exact ⟨hHolds.noNul, hNul⟩
    · rw [List.length_append]
      dsimp only
      omega

/- What follows a call adds its part to every path. -/
theorem Returns.andThen
    {full part : Option (List UInt8)}
    {next : PathState → Outcome}
    (hFirst : Returns L full outcome)
    (hNext : ∀ s str, Holds L s str →
      Returns L (part.map (str ++ ·)) (next s)) :
    Returns L (full.bind fun str => part.map (str ++ ·))
      (andThen outcome next) := by
  rcases hFirst with
    ⟨ret, s, rfl, hLength, ⟨rfl, str, rfl, hHolds⟩ |
      ⟨hFails, hLong⟩⟩
  · exact hNext s str hHolds
  · refine ⟨ret, s, if_pos hFails, hLength,
      .inr ⟨hFails, ?_⟩⟩
    intro _ hSome
    rcases Option.bind_eq_some_iff.mp hSome with
      ⟨str, hStr, hPart⟩
    rcases Option.map_eq_some_iff.mp hPart with ⟨_, _, rfl⟩
    have hMore := hLong str hStr
    rw [List.length_append]
    omega

theorem appendDir_returns
    (hHolds : Holds L s str) :
    Returns L ((refs.dir ref).map (str ++ ·))
      (appendDir refs ref s) := by
  unfold appendDir RootRefs.dir
  by_cases hDir : ref.dirid ≠ BTRFS_FIRST_FREE_OBJECTID
  · rw [if_pos hDir, if_pos hDir]
    cases refs.dirPath ref.offset ref.dirid with
    | none =>
        exact ⟨-1, s, rfl, hHolds.length,
          .inr ⟨by decide, fun _ hNone => nomatch hNone⟩⟩
    | some name => exact appendPart_returns hHolds name.noNul
  · rw [if_neg hDir, if_neg hDir]
    refine ⟨0, s, rfl, hHolds.length,
      .inl ⟨rfl, str, ?_, hHolds⟩⟩
    rw [Option.map_some, List.append_nil]

theorem appendNames_returns
    (hHolds : Holds L s str) :
    Returns L ((refs.names ref).map (str ++ ·))
      (appendNames refs ref s) := by
  have hName : ∀ s str, Holds L s str →
      Returns L ((some ref.name.chars).map (str ++ ·))
        (appendPart s ref.name.chars) :=
    fun _ _ hAt => appendPart_returns hAt ref.name.noNul
  have hBefore : Returns L ((refs.dir ref).map (str ++ ·))
      (appendDir refs ref s) :=
    appendDir_returns hHolds
  have hBoth := hBefore.andThen hName
  have hSame : (refs.names ref).map (str ++ ·) =
      ((refs.dir ref).map (str ++ ·)).bind fun str =>
        (some ref.name.chars).map (str ++ ·) := by
    unfold RootRefs.names
    cases refs.dir ref with
    | none => rfl
    | some dir =>
        exact congrArg some (List.append_assoc _ _ _).symm
  exact hSame ▸ hBoth

----------
-- The Recursion
----------

/- With the paths of the outer one, and the slash behind it. -/
theorem subvolidResolveSub_inner
    {fuel : Nat}
    {full : Option (List UInt8)}
    (hOther : subvol_id ≠ BTRFS_FS_TREE_OBJECTID)
    (hRef : refs.search subvol_id = some ref)
    (hBelow : ref.offset ≠ BTRFS_FS_TREE_OBJECTID)
    (hCall :
      subvolidResolveSub refs fuel ref.offset s = some outcome)
    (hOuter : Returns L full outcome) :
    ∃ r, subvolidResolveSub refs (fuel + 1) subvol_id s =
        some r ∧
      Returns L
        ((full.bind fun str => some (str ++ [SLASH])).bind
          fun str => (refs.names ref).map (str ++ ·)) r := by
  refine ⟨andThen
    (andThen outcome fun s => appendPart s [SLASH])
    (appendNames refs ref), ?_, ?_⟩
  · rw [subvolidResolveSub, if_neg hOther, hRef]
    dsimp only
    rw [if_pos hBelow, hCall]
    rfl
  · have hSlash : ∀ s str, Holds L s str →
        Returns L ((some [SLASH]).map (str ++ ·))
          (appendPart s [SLASH]) :=
      fun _ _ hAt => appendPart_returns hAt (by decide)
    exact (hOuter.andThen hSlash).andThen
      fun _ _ hAt => appendNames_returns hAt

/- Without a back reference there is no path. -/
theorem fullPath_none
    {full : List UInt8}
    (hOther : subvol_id ≠ BTRFS_FS_TREE_OBJECTID)
    (hNone : refs.search subvol_id = none) :
    ¬ FullPath refs subvol_id full := by
  intro hPath
  cases hPath with
  | top => exact absurd rfl hOther
  | outer _ hSome
  | inner _ hSome => cases hNone.symm.trans hSome

/- In the top-level tree the names are the path. -/
theorem fullPath_outer
    {full : List UInt8}
    (hOther : subvol_id ≠ BTRFS_FS_TREE_OBJECTID)
    (hRef : refs.search subvol_id = some ref)
    (hTop : ref.offset = BTRFS_FS_TREE_OBJECTID) :
    FullPath refs subvol_id full ↔
      refs.names ref = some full := by
  constructor
  · intro hPath
    cases hPath with
    | top => exact absurd rfl hOther
    | outer _ hSome _ hNames =>
        cases hRef.symm.trans hSome
        exact hNames
    | inner _ hSome hBelow =>
        cases hRef.symm.trans hSome
        exact absurd hTop hBelow
  · exact .outer hOther hRef hTop

/- Elsewhere the path of the outer one comes before them. -/
theorem fullPath_inner
    {full : List UInt8}
    (hOther : subvol_id ≠ BTRFS_FS_TREE_OBJECTID)
    (hRef : refs.search subvol_id = some ref)
    (hBelow : ref.offset ≠ BTRFS_FS_TREE_OBJECTID) :
    FullPath refs subvol_id full ↔
      ∃ front names, FullPath refs ref.offset front ∧
        refs.names ref = some names ∧
          full = front ++ [SLASH] ++ names := by
  constructor
  · intro hPath
    cases hPath with
    | top => exact absurd rfl hOther
    | outer _ hSome hTop =>
        cases hRef.symm.trans hSome
        exact absurd hTop hBelow
    | @inner _ _ front names _ hSome _ hFront hNames =>
        cases hRef.symm.trans hSome
        exact ⟨front, names, hFront, hNames, rfl⟩
  · rintro ⟨front, names, hFront, hNames, rfl⟩
    exact .inner hOther hRef hBelow hFront hNames

/- Without a cycle, the call returns with the one full path. -/
theorem subvolidResolveSub_returns
    (hOther : subvol_id ≠ BTRFS_FS_TREE_OBJECTID)
    (hAcyclic : ¬ Cyclic refs subvol_id)
    (hHolds : Holds L s []) :
    ∃ full, (∀ p, FullPath refs subvol_id p ↔
        full = some p) ∧
      ∃ fuel r,
        subvolidResolveSub refs fuel subvol_id s = some r ∧
          Returns L full r := by
  have hIn : ∀ a b, Up refs a b →
      b ∈ refs.items.map (·.offset) := by
    rintro a b ⟨_, _, ref, hRef, rfl⟩
    exact List.mem_map_of_mem (List.mem_of_find?_eq_some hRef)
  have hAcc := acc_of_acyclic hIn
    fun c hMet hCycle => hAcyclic ⟨c, hMet, hCycle⟩
  clear hAcyclic
  induction hAcc with
  | intro subvol_id _ ih =>
      cases hRef : refs.search subvol_id with
      | none =>
          refine ⟨none, ?_, 1, .ok (ENOENT, s), ?_, ?_⟩
          · exact fun p => ⟨
              fun hPath => absurd hPath
                (fullPath_none hOther hRef),
              fun hNone => nomatch hNone⟩
          · rw [subvolidResolveSub, if_neg hOther, hRef]
          · exact ⟨ENOENT, s, rfl, hHolds.length,
              .inr ⟨by decide, fun _ hNone => nomatch hNone⟩⟩
      | some ref =>
          by_cases hTop : ref.offset = BTRFS_FS_TREE_OBJECTID
          · refine ⟨(refs.names ref).map ([] ++ ·), ?_, 1,
              appendNames refs ref s, ?_,
              appendNames_returns hHolds⟩
            · intro p
              rw [fullPath_outer hOther hRef hTop]
              cases refs.names ref <;> rfl
            · rw [subvolidResolveSub, if_neg hOther, hRef]
              dsimp only
              rw [if_neg (not_not.mpr hTop)]
          · rcases ih ref.offset
                ⟨hOther, hTop, ref, hRef, rfl⟩ hTop with
              ⟨full, hFull, fuel, outcome, hCall, hOuter⟩
            rcases subvolidResolveSub_inner hOther hRef hTop
                hCall hOuter with ⟨r, hRun, hReturns⟩
            refine ⟨_, ?_, fuel + 1, r, hRun, hReturns⟩
            intro p
            rw [fullPath_inner hOther hRef hTop]
            constructor
            · rintro ⟨front, names, hFront, hNames, rfl⟩
              rw [(hFull front).mp hFront, hNames]
              rfl
            · intro hSome
              rcases Option.bind_eq_some_iff.mp hSome with
                ⟨_, hFront, hBehind⟩
              rcases Option.bind_eq_some_iff.mp hFront with
                ⟨front, hStr, hSlash⟩
              rcases Option.map_eq_some_iff.mp hBehind with
                ⟨names, hNames, rfl⟩
              cases hSlash
              exact ⟨front, names, (hFull front).mpr hStr,
                hNames, rfl⟩

/- In a cycle there is no depth at which it returns. -/
theorem subvolidResolveSub_cyclic
    (fuel : Nat)
    (hCyclic : Cyclic refs subvol_id) :
    subvolidResolveSub refs fuel subvol_id s = none := by
  induction fuel generalizing subvol_id with
  | zero => rfl
  | succ fuel ih =>
      rcases caught_up hCyclic with
        ⟨_, ⟨hOther, hBelow, ref, hRef, rfl⟩, hOuter⟩
      rw [subvolidResolveSub, if_neg hOther, hRef]
      dsimp only
      rw [if_pos hBelow, ih hOuter]
      rfl

/- What the outer call hands on is the empty path. -/
theorem subvolidResolve_start
    {path : List UInt8}
    (hSome : 1 ≤ path.length) :
    ∃ s, Holds path.length s [] ∧
      s.path_len = path.length - 1 ∧
      ∀ fuel, subvolidResolve refs fuel path subvol_id =
        subvolidResolveSub refs fuel subvol_id s := by
  cases path with
  | nil => cases hSome
  | cons head tail =>
      have hFirst : write (head :: tail) 0 [0] =
          .ok (0 :: tail) := rfl
      have hLast :
          write (0 :: tail) ((head :: tail).length - 1) [0] =
            .ok ((0 :: tail).take tail.length ++ [0]) := by
        unfold write
        rw [if_pos (by simp)]
        simp
      refine ⟨⟨(0 :: tail).take tail.length ++ [0],
        tail.length⟩, ⟨?_, ?_, List.not_mem_nil, ?_⟩, rfl, ?_⟩
      · simp
      · cases tail with
        | nil => exact ⟨[], rfl⟩
        | cons next rest => exact ⟨_, rfl⟩
      · simp
      · intro fuel
        unfold subvolidResolve
        dsimp only
        rw [if_neg (not_lt.mpr hSome), hFirst]
        dsimp only [bind, Except.bind]
        rw [hLast]
        rfl

/- The top-level tree has the empty path. -/
theorem fullPath_top
    {full : List UInt8} :
    FullPath refs BTRFS_FS_TREE_OBJECTID full ↔ full = [] := by
  constructor
  · intro hPath
    cases hPath with
    | top => rfl
    | outer hOther
    | inner hOther => exact absurd rfl hOther
  · rintro rfl
    exact .top

/- For the top-level tree a second byte is needed. -/
theorem subvolidResolveSub_top
    (fuel : Nat)
    (hHolds : Holds L s []) :
    subvolidResolveSub refs (fuel + 1)
        BTRFS_FS_TREE_OBJECTID s =
      some (if s.path_len < 1 then .ok (EOVERFLOW, s)
        else .ok (0, ⟨s.path, s.path_len - 1⟩)) := by
  rcases hHolds.text with ⟨rest, hText⟩
  have hWrite : write s.path 0 [0] = .ok s.path := by
    rw [hText]
    rfl
  rw [subvolidResolveSub, if_pos rfl, hWrite]
  rfl

end Walk

/-
  The call resolves the ids of a subvolume that does not run
  into a cycle, but for the top-level tree in one byte.
-/
theorem subvolidResolve_within_iff
    (refs : RootRefs)
    (path : List UInt8)
    (subvol_id : Nat)
    (hSome : 1 ≤ path.length) :
    ResolvesWithin refs path subvol_id ↔
      ¬ Cyclic refs subvol_id ∧
        ¬ (subvol_id = BTRFS_FS_TREE_OBJECTID ∧
          path.length = 1) := by
  rcases subvolidResolve_start hSome with
    ⟨s, hHolds, hLen, hRun⟩
  constructor
  · rintro ⟨fuel, ret, s', hCall, -, hZero, -⟩
    rw [hRun] at hCall
    refine ⟨fun hCyclic => ?_, ?_⟩
    · rw [subvolidResolveSub_cyclic fuel hCyclic] at hCall
      cases hCall
    · rintro ⟨rfl, hOne⟩
      cases fuel with
      | zero => cases hCall
      | succ fuel =>
          rw [subvolidResolveSub_top fuel hHolds,
            if_pos (by omega)] at hCall
          cases hCall
          have hIs : EOVERFLOW = 0 :=
            hZero.mpr ⟨[], .top, hSome⟩
          exact absurd hIs (by decide)
  · rintro ⟨hAcyclic, hNotOne⟩
    by_cases hTop : subvol_id = BTRFS_FS_TREE_OBJECTID
    · subst hTop
      have hTwo : ¬ s.path_len < 1 :=
        fun hLess => hNotOne ⟨rfl, by omega⟩
      refine ⟨1, 0, ⟨s.path, s.path_len - 1⟩, ?_,
        hHolds.length, ?_, ?_⟩
      · rw [hRun, subvolidResolveSub_top 0 hHolds,
          if_neg hTwo]
      · exact ⟨fun _ => ⟨[], .top, hSome⟩, fun _ => rfl⟩
      · rintro full - hFull
        rw [fullPath_top.mp hFull]
        exact hHolds.text
    · rcases subvolidResolveSub_returns hTop hAcyclic
          hHolds with
        ⟨full, hFull, fuel, _, hCall, ret, s', rfl,
          hLength, hResult⟩
      refine ⟨fuel, ret, s', (hRun fuel).trans hCall,
        hLength, ?_⟩
      rcases hResult with
        ⟨rfl, str, rfl, hAt⟩ | ⟨hFails, hLong⟩
      · have hCount := hAt.room
        refine ⟨⟨fun _ => ⟨str, (hFull str).mpr rfl, ?_⟩,
          fun _ => rfl⟩, ?_⟩
        · omega
        · rintro _ - hPath
          cases (hFull _).mp hPath
          exact hAt.text
      · refine ⟨⟨fun hIs => absurd hIs hFails, ?_⟩,
          fun _ hIs => absurd hIs hFails⟩
        rintro ⟨str, hPath, hFits⟩
        have hMore := hLong str ((hFull str).mp hPath)
        omega

/- A subvolume in the root of another, in the top level. -/
def nested : RootRefs where
  items := [⟨256, 5, 256, nameA⟩,
    ⟨257, 256, 256, nameB⟩]
  dirPath _ _ := none

theorem subvolidResolve_within_nested :
    ResolvesWithin nested (.replicate 4 0) 257 ∧
      ResolvesWithin nested (.replicate 3 0) 257 := by
  have hUp : ∀ a b, Up nested a b → a = 257 ∧ b = 256 := by
    rintro a b ⟨_, hBelow, ref, hRef, rfl⟩
    have hIs : ref.objectid = a := by
      simpa using List.find?_some hRef
    rcases List.mem_cons.mp (List.mem_of_find?_eq_some hRef)
      with rfl | hMem
    · exact absurd rfl hBelow
    · rcases List.mem_singleton.mp hMem with rfl
      exact ⟨hIs.symm, rfl⟩
  have hAcyclic : ¬ Cyclic nested 257 := by
    rintro ⟨c, -, hCycle⟩
    rcases Relation.TransGen.head'_iff.mp hCycle with
      ⟨b, hFirst, _⟩
    rcases Relation.TransGen.tail'_iff.mp hCycle with
      ⟨d, _, hLast⟩
    have hHigh := (hUp c b hFirst).1
    have hLow := (hUp d c hLast).2
    omega
  exact ⟨(subvolidResolve_within_iff nested _ 257
      (by decide)).mpr ⟨hAcyclic, by decide⟩,
    (subvolidResolve_within_iff nested _ 257
      (by decide)).mpr ⟨hAcyclic, by decide⟩⟩

/- Two subvolumes, each in the root of the other. -/
def knotted : RootRefs where
  items := [⟨256, 257, 256, nameA⟩,
    ⟨257, 256, 256, nameB⟩]
  dirPath _ _ := none

theorem knotted_not_resolved :
    ¬ ResolvesWithin knotted (.replicate 8 0) 256 ∧
      ¬ ResolvesWithin nested [0] BTRFS_FS_TREE_OBJECTID := by
  have hNever : ∀ fuel s,
      subvolidResolveSub knotted fuel 256 s = none ∧
        subvolidResolveSub knotted fuel 257 s = none := by
    intro fuel
    induction fuel with
    | zero => exact fun _ => ⟨rfl, rfl⟩
    | succ fuel ih =>
        refine fun s => ⟨?_, ?_⟩
        · exact congrArg (Option.map _) (ih s).2
        · exact congrArg (Option.map _) (ih s).1
  constructor
  · rintro ⟨fuel, ret, s, hCall, -⟩
    cases (hNever fuel _).1.symm.trans hCall
  · rintro ⟨fuel, ret, s, hCall, -, hZero, -⟩
    cases fuel with
    | zero => cases hCall
    | succ fuel =>
        cases hCall
        have hIs : EOVERFLOW = 0 :=
          hZero.mpr ⟨[], .top, Nat.le_refl 1⟩
        exact absurd hIs (by decide)

end SubvolidResolve

end BtrfsProgs
