import BtrfsProgs.Lib.CText

/-
  `find_mount_root` and `get_subvol_name`, from
  `cmds-send.c`, and `dest_dir_path` of `do_receive`.

  Main declarations:
    * `findMountRoot`, `getSubvolName` and `destDirPath`
    * `Above` and `Canonical`
    * `findMountRoot_exact_iff`
-/

----------
-- The Functions
----------

namespace BtrfsProgs

namespace MountRoot

/- A path, in the bytes in front of its end. -/
abbrev Text : Type := List UInt8

/- What the system answers; an error is an `errno`. -/
structure System : Type where
  openPath : Text → Option Nat
  mounts : Except Nat (List Text)
  realpath : Text → Except Nat Text

/- One turn, for the directory of an entry. -/
def mountTurn
    (path : Text)
    (longest : Option Text)
    (dir : Text) : Option Text :=
  if dir <+: path ∧
      (longest.map List.length).getD 0 < dir.length then some dir
  else longest

/- `find_mount_root`. -/
def findMountRoot
    (system : System)
    (path : Text) : Except Nat Text :=
  match system.openPath path with
  | some errno => .error errno
  | none =>
      match system.mounts with
      | .error errno => .error errno
      | .ok mounts =>
          match mounts.foldl (mountTurn path) none with
          | none => .error 2
          | some longest => system.realpath longest

/- `get_subvol_name`, as how far behind `full_path` it points. -/
def getSubvolName
    (mnt : Text) : Nat :=
  if mnt = [] then 0
  else if mnt.getLast? ≠ some 47 then mnt.length + 1
  else mnt.length

/- `dest_dir_path`, as how far behind the full path it points. -/
def destDirPath
    (root path : Text) : Nat :=
  root.length +
    ((path.drop root.length).takeWhile (· = 47)).length

----------
-- Components
----------

def components : Text → List Text :=
  CText.strtok 47

/- A path with its names, and no more than one `/` for each. -/
def Canonical
    (dir : Text) : Prop :=
  dir = [47] ∨
    ∃ names : List Text, names ≠ [] ∧
      (∀ name ∈ names, name ≠ [] ∧ 47 ∉ name) ∧
        dir = names.flatMap (47 :: ·)

/- A path or a directory over it, by whole components. -/
def Above
    (dir path : Text) : Prop :=
  components dir <+: components path

/- A remainder in the path that joins to it with the root. -/
structure Remainder
    (root path : Text)
    (start : Nat) : Prop where
  within : start ≤ path.length
  rejoins :
    components (root ++ 47 :: path.drop start) = components path

/- The longest directory over a path, and its remainders. -/
structure Found
    (mounts : List Text)
    (path root : Text) : Prop where
  listed : root ∈ mounts
  above : Above root path
  longest : ∀ dir ∈ mounts, Above dir path →
    dir.length ≤ root.length
  subvolName : Remainder root path (getSubvolName root)
  destDir : Remainder root path (destDirPath root path)

/- The mount root is found just when there is one. -/
def Exact
    (system : System)
    (mounts : List Text)
    (path : Text) : Prop :=
  match findMountRoot system path with
  | .error _ => ∀ dir ∈ mounts, ¬ Above dir path
  | .ok root => Found mounts path root

section Components

variable {names : List Text} {dir path rest : Text}

theorem components_names
    (hNames : ∀ name ∈ names, name ≠ [] ∧ 47 ∉ name)
    (hRest : rest = [] ∨ ∃ more, rest = 47 :: more) :
    components (names.flatMap (47 :: ·) ++ rest) =
      names ++ components rest := by
  induction names with
  | nil => rfl
  | cons name names ih =>
      have hName := hNames name List.mem_cons_self
      have hBehind := ih fun other hMem =>
        hNames other (List.mem_cons_of_mem name hMem)
      rw [List.flatMap_cons, List.append_assoc, List.cons_append,
        List.cons_append, ← hBehind]
      refine (CText.strtok_cons 47 _).trans
        (CText.strtok_token hName.1 hName.2 ?_)
      cases names with
      | nil => exact hRest
      | cons other names => exact .inr ⟨_, rfl⟩

theorem components_spelled
    (hNames : ∀ name ∈ names, name ≠ [] ∧ 47 ∉ name) :
    components (names.flatMap (47 :: ·)) = names := by
  have hAll := components_names hNames (.inl rfl)
  rw [List.append_nil] at hAll
  exact hAll.trans (List.append_nil names)

/- More bytes make the last name another one. -/
theorem not_above_longer
    {b : UInt8}
    (hSome : names ≠ [])
    (hNames : ∀ name ∈ names, name ≠ [] ∧ 47 ∉ name)
    (hByte : b ≠ 47) :
    ¬ Above (names.flatMap (47 :: ·))
      (names.flatMap (47 :: ·) ++ b :: rest) := by
  rcases List.eq_nil_or_concat names with rfl | ⟨init, name, rfl⟩
  · exact absurd rfl hSome
  rw [List.concat_eq_append] at hNames ⊢
  have hLast := hNames name (by simp)
  have hInit : ∀ other ∈ init, other ≠ [] ∧ 47 ∉ other :=
    fun other hMem => hNames other (by simp [hMem])
  let more := (b :: rest).takeWhile (· ≠ 47)
  have hMore : more ≠ [] := by simp [more, hByte]
  have hLonger : components
      ((init ++ [name]).flatMap (47 :: ·) ++ b :: rest) =
      init ++ (name ++ more) ::
        components ((b :: rest).dropWhile (· ≠ 47)) := by
    have hParts : [name].flatMap (47 :: ·) ++ b :: rest =
        47 :: ((name ++ more) ++
          (b :: rest).dropWhile (· ≠ 47)) := by
      rw [List.append_assoc, List.takeWhile_append_dropWhile]
      simp
    rw [List.flatMap_append, List.append_assoc, hParts,
      components_names hInit (.inr ⟨_, rfl⟩)]
    congr 1
    refine (CText.strtok_cons 47 _).trans
      (CText.strtok_token (by simp [hLast.1]) ?_ ?_)
    · intro hMem
      rcases List.mem_append.mp hMem with hIn | hIn
      · exact hLast.2 hIn
      · simpa using List.mem_takeWhile_imp hIn
    · cases hBehind : (b :: rest).dropWhile (· ≠ 47) with
      | nil => exact .inl rfl
      | cons c behind =>
          have hStop := List.head?_dropWhile_not (· ≠ 47)
            (b :: rest)
          rw [hBehind] at hStop
          exact .inr ⟨behind, by simpa using hStop⟩
  intro hAbove
  unfold Above at hAbove
  rw [components_spelled hNames, hLonger,
    List.prefix_append_right_inj, List.cons_prefix_cons]
    at hAbove
  exact hMore (List.append_right_eq_self.mp hAbove.1.symm)

/- A directory over another begins its text. -/
theorem begins_of_above
    {other : Text}
    (hDir : Canonical dir)
    (hOther : Canonical other)
    (hAbove : Above dir other) :
    dir <+: other := by
  have hSlash : ∃ more, other = 47 :: more := by
    rcases hOther with rfl | ⟨long, hLong, _, rfl⟩
    · exact ⟨_, rfl⟩
    · rcases List.exists_cons_of_ne_nil hLong with
        ⟨name, long, rfl⟩
      exact ⟨_, rfl⟩
  rcases hDir with rfl | ⟨names, hSome, hNames, rfl⟩
  · rcases hSlash with ⟨more, rfl⟩
    exact ⟨more, rfl⟩
  unfold Above at hAbove
  rw [components_spelled hNames] at hAbove
  rcases hOther with rfl | ⟨long, _, hLongs, rfl⟩
  · exact absurd (List.prefix_nil.mp hAbove) hSome
  · rw [components_spelled hLongs] at hAbove
    rcases hAbove with ⟨more, rfl⟩
    rw [List.flatMap_append]
    exact List.prefix_append _ _

theorem components_skipped
    (s : Text) :
    components (s.dropWhile (· = 47)) = components s := by
  induction s with
  | nil => rfl
  | cons b s ih =>
      by_cases hSlash : b = 47
      · rw [hSlash, List.dropWhile_cons_of_pos (by decide), ih]
        exact (CText.strtok_cons 47 s).symm
      · rw [List.dropWhile_cons_of_neg (by simpa using hSlash)]

end Components

----------
-- Remainders
----------

section Remainders

variable {root rest : Text}

theorem getSubvolName_names
    {names : List Text}
    (hSome : names ≠ [])
    (hNames : ∀ name ∈ names, name ≠ [] ∧ 47 ∉ name) :
    getSubvolName (names.flatMap (47 :: ·)) =
      (names.flatMap (47 :: ·)).length + 1 := by
  rcases List.eq_nil_or_concat names with rfl | ⟨init, name, rfl⟩
  · exact absurd rfl hSome
  rw [List.concat_eq_append] at hNames ⊢
  have hName := hNames name (by simp)
  have hEnd : ((init ++ [name]).flatMap (47 :: ·)).getLast? ≠
      some 47 := by
    intro hLast
    rw [List.flatMap_append, List.flatMap_singleton,
      ← List.singleton_append, ← List.append_assoc,
      List.getLast?_append_of_ne_nil _ hName.1] at hLast
    exact hName.2 (List.mem_of_getLast? hLast)
  unfold getSubvolName
  rw [if_neg (by simp), if_pos hEnd]

/- What is behind a root that is over the path. -/
theorem rest_of_above
    (hRoot : Canonical root)
    (hAbove : Above root (root ++ rest)) :
    root = [47] ∨
      getSubvolName root = root.length + 1 ∧
        (rest = [] ∨ ∃ more, rest = 47 :: more) := by
  rcases hRoot with rfl | ⟨names, hSome, hNames, rfl⟩
  · exact .inl rfl
  refine .inr ⟨getSubvolName_names hSome hNames, ?_⟩
  cases rest with
  | nil => exact .inl rfl
  | cons b rest =>
      by_cases hSlash : b = 47
      · exact .inr ⟨rest, by rw [hSlash]⟩
      · exact absurd hAbove
          (not_above_longer hSome hNames hSlash)

theorem components_joined
    (hRest : root = [47] ∨ rest = [] ∨
      ∃ more, rest = 47 :: more) :
    components (root ++ rest) =
      components root ++ components rest := by
  rcases hRest with rfl | rfl | ⟨more, rfl⟩
  · exact CText.strtok_cons 47 rest
  · rw [List.append_nil]
    exact (List.append_nil _).symm
  · refine (CText.strtok_append 47 root more).trans ?_
    rw [← CText.strtok_cons 47 more]
    rfl

theorem remainder_of_same
    {start : Nat}
    (hJoined : components (root ++ rest) =
      components root ++ components rest)
    (hWithin : start ≤ (root ++ rest).length)
    (hSame : components ((root ++ rest).drop start) =
      components rest) :
    Remainder root (root ++ rest) start := by
  refine ⟨hWithin, ?_⟩
  rw [hJoined, ← hSame]
  exact CText.strtok_append 47 root _

/- Both remainders of a root over a path that is not at its end. -/
theorem remainders_of_above
    (hRoot : Canonical root)
    (hAbove : Above root (root ++ rest))
    (hInside : rest = [] → root = [47]) :
    Remainder root (root ++ rest) (getSubvolName root) ∧
      Remainder root (root ++ rest)
        (destDirPath root (root ++ rest)) := by
  have hRest := rest_of_above hRoot hAbove
  have hJoined := components_joined (hRest.imp_right And.right)
  constructor
  · rcases hRest with rfl | ⟨hStart, hEnd⟩
    · exact remainder_of_same hJoined (Nat.le_add_left 1 _) rfl
    · rw [hStart]
      rcases hEnd with rfl | ⟨more, rfl⟩
      · rw [hInside rfl] at hStart
        cases hStart
      · refine remainder_of_same hJoined (by simp) ?_
        rw [List.drop_append, List.drop_of_length_le (by omega)]
        have hSkip : components more = components (47 :: more) :=
          (CText.strtok_cons 47 more).symm
        simpa using hSkip
  · have hStart : destDirPath root (root ++ rest) =
        root.length + (rest.takeWhile (· = 47)).length := by
      unfold destDirPath
      rw [List.drop_left]
    have hParts := List.takeWhile_append_dropWhile
      (p := (· = 47)) (l := rest)
    refine remainder_of_same hJoined ?_ ?_
    · have hLength := congrArg List.length hParts
      rw [List.length_append] at hLength ⊢
      omega
    · rw [hStart, List.drop_length_add_append]
      nth_rewrite 2 [← hParts]
      rw [List.drop_left]
      exact components_skipped rest

end Remainders

----------
-- The Longest Match
----------

section Longest

variable {system : System} {mounts : List Text} {path : Text}

theorem mountTurn_cases
    (path : Text)
    (longest : Option Text)
    (dir : Text) :
    mountTurn path longest dir = some dir ∧ dir <+: path ∧
        (longest.map List.length).getD 0 < dir.length ∨
      mountTurn path longest dir = longest ∧
        (dir <+: path →
          dir.length ≤ (longest.map List.length).getD 0) := by
  unfold mountTurn
  by_cases hTake : dir <+: path ∧
      (longest.map List.length).getD 0 < dir.length
  · exact .inl ⟨if_pos hTake, hTake⟩
  · exact .inr ⟨if_neg hTake, fun hBegins =>
      Nat.not_lt.mp fun hLess => hTake ⟨hBegins, hLess⟩⟩

theorem mounts_longest
    (mounts : List Text)
    (path : Text) :
    (∀ root, mounts.foldl (mountTurn path) none = some root →
      root ∈ mounts ∧ root <+: path) ∧
      ∀ dir ∈ mounts, dir <+: path → dir.length ≤
        ((mounts.foldl (mountTurn path) none).map
          List.length).getD 0 := by
  induction mounts using List.reverseRecOn with
  | nil =>
      constructor
      · intro root hNone
        cases hNone
      · intro dir hMem
        cases hMem
  | append_singleton mounts dir ih =>
      rw [List.foldl_append, List.foldl_cons, List.foldl_nil]
      rcases ih with ⟨hFrom, hMost⟩
      rcases mountTurn_cases path
          (mounts.foldl (mountTurn path) none) dir with
        ⟨hTurn, hBegins, hLess⟩ | ⟨hTurn, hKept⟩
      · rw [hTurn]
        constructor
        · intro root hRoot
          cases hRoot
          exact ⟨by simp, hBegins⟩
        · intro other hMem hOther
          rcases List.mem_append.mp hMem with hIn | hIn
          · exact (hMost other hIn hOther).trans hLess.le
          · rw [List.mem_singleton.mp hIn]
            exact le_rfl
      · rw [hTurn]
        constructor
        · intro root hRoot
          exact (hFrom root hRoot).imp_left
            (List.mem_append_left _)
        · intro other hMem hOther
          rcases List.mem_append.mp hMem with hIn | hIn
          · exact hMost other hIn hOther
          · rw [List.mem_singleton.mp hIn] at hOther ⊢
            exact hKept hOther

/-
  What the code relies on: a directory over the path begins it
  as it is spelled, one that begins it is over it or is not the
  longest, and the path itself is none but the root directory.
-/
structure Regular
    (mounts : List Text)
    (path : Text) : Prop where
  spelled : ∀ dir ∈ mounts, Above dir path → dir <+: path
  whole : ∀ dir ∈ mounts, dir <+: path → Above dir path ∨
    ∃ other ∈ mounts, other <+: path ∧
      dir.length < other.length ∧ Above other path
  inside : path ∈ mounts → path = [47]

theorem canonical_ne_nil
    {dir : Text}
    (hDir : Canonical dir) :
    dir ≠ [] := by
  rcases hDir with rfl | ⟨names, hSome, _, rfl⟩
  · simp
  · simpa using List.exists_mem_of_ne_nil names hSome

end Longest

/-
  The longest directory over an absolute path is found, with
  both remainders, just when the path is regular.
-/
theorem findMountRoot_exact_iff
    {system : System}
    {mounts : List Text}
    {path : Text}
    (hOpen : system.openPath path = none)
    (hMounts : system.mounts = .ok mounts)
    (hDirs : ∀ dir ∈ mounts,
      Canonical dir ∧ system.realpath dir = .ok dir) :
    Exact system mounts path ↔ Regular mounts path := by
  have hFind : findMountRoot system path =
      match mounts.foldl (mountTurn path) none with
      | none => .error 2
      | some longest => system.realpath longest := by
    unfold findMountRoot
    rw [hOpen, hMounts]
  have hLongest := mounts_longest mounts path
  unfold Exact
  rw [hFind]
  cases hFold : mounts.foldl (mountTurn path) none with
  | none =>
      rw [hFold] at hLongest
      have hNone : ∀ dir ∈ mounts, ¬ dir <+: path := by
        intro dir hMem hBegins
        have hZero := hLongest.2 dir hMem hBegins
        exact canonical_ne_nil (hDirs dir hMem).1
          (List.length_eq_zero_iff.mp (Nat.le_zero.mp hZero))
      constructor
      · intro hError
        exact ⟨fun dir hMem hAbove =>
            absurd hAbove (hError dir hMem),
          fun dir hMem hBegins =>
            absurd hBegins (hNone dir hMem),
          fun hMem => absurd List.prefix_rfl (hNone path hMem)⟩
      · intro hRegular dir hMem hAbove
        exact hNone dir hMem (hRegular.spelled dir hMem hAbove)
  | some root =>
      rw [hFold] at hLongest
      rcases hLongest with ⟨hFrom, hMost⟩
      rcases hFrom root rfl with ⟨hMem, rest, rfl⟩
      have hRoot := hDirs root hMem
      dsimp only
      rw [hRoot.2]
      constructor
      · intro hFound
        refine ⟨fun dir hDir hAbove => ?_,
          fun dir hDir hBegins => ?_, fun hPath => ?_⟩
        · have hLength := hFound.longest dir hDir hAbove
          refine List.IsPrefix.trans ?_ (List.prefix_append _ _)
          rcases List.prefix_or_prefix_of_prefix hAbove
            hFound.above with hOver | hUnder
          · exact begins_of_above (hDirs dir hDir).1 hRoot.1 hOver
          · have hBegins :=
              begins_of_above hRoot.1 (hDirs dir hDir).1 hUnder
            rw [hBegins.eq_of_length_le hLength]
        · by_cases hSame : dir = root
          · rw [hSame]
            exact .inl hFound.above
          · have hLess : dir.length < root.length := by
              refine lt_of_le_of_ne (hMost dir hDir hBegins) ?_
              intro hLength
              exact hSame (List.prefix_of_prefix_length_le hBegins
                (List.prefix_append _ _) hLength.le
                |>.eq_of_length hLength)
            exact .inr ⟨root, hMem, List.prefix_append _ _, hLess,
              hFound.above⟩
        · have hLength := hMost _ hPath List.prefix_rfl
          have hNone : rest = [] := by
            rw [List.length_append] at hLength
            exact List.length_eq_zero_iff.mp (by
              change _ ≤ root.length at hLength
              omega)
          subst hNone
          have hAbove := hFound.above
          rcases rest_of_above hRoot.1 hAbove with hSlash | hStart
          · rw [hSlash]
            rfl
          · have hWithin := hFound.subvolName.within
            rw [hStart.1, List.append_nil] at hWithin
            omega
      · intro hRegular
        have hAbove : Above root (root ++ rest) := by
          rcases hRegular.whole root hMem
            (List.prefix_append _ _) with hAbove |
            ⟨other, hOther, hBegins, hLess, _⟩
          · exact hAbove
          · have hMax := hMost other hOther hBegins
            exact absurd (hLess.trans_le hMax) (lt_irrefl _)
        have hBoth := remainders_of_above hRoot.1 hAbove (by
          rintro rfl
          have hSelf := hRegular.inside
          rw [List.append_nil] at hSelf
          exact hSelf hMem)
        exact ⟨hMem, hAbove, fun dir hDir hOver =>
          hMost dir hDir (hRegular.spelled dir hDir hOver),
          hBoth.1, hBoth.2⟩

/- `/m/ab` is taken to be in the directory `/m/a`. -/
def sibling : System where
  openPath _ := none
  mounts := .ok [[47], [47, 109, 47, 97]]
  realpath := .ok

theorem findMountRoot_exact_home :
    Exact sibling [[47], [47, 109, 47, 97]]
        [47, 109, 47, 97, 47, 98] ↔
      Regular [[47], [47, 109, 47, 97]]
        [47, 109, 47, 97, 47, 98] := by
  refine findMountRoot_exact_iff rfl rfl fun dir hMem =>
    ⟨?_, rfl⟩
  rcases List.mem_pair.mp hMem with rfl | rfl
  · exact .inl rfl
  · exact .inr ⟨[[109], [97]], by decide, by decide, rfl⟩

theorem findMountRoot_takes_sibling :
    findMountRoot sibling [47, 109, 47, 97, 98] =
        .ok [47, 109, 47, 97] ∧
      ¬ Exact sibling [[47], [47, 109, 47, 97]]
        [47, 109, 47, 97, 98] := by
  have hRoot : findMountRoot sibling [47, 109, 47, 97, 98] =
      .ok [47, 109, 47, 97] := by
    decide +kernel
  refine ⟨hRoot, fun hExact => ?_⟩
  unfold Exact at hExact
  rw [hRoot] at hExact
  have hAbove := hExact.above
  unfold Above at hAbove
  exact absurd hAbove (by decide +kernel)

end MountRoot

end BtrfsProgs
