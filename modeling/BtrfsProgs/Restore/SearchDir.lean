import BtrfsProgs.Key
import BtrfsProgs.Basic
import BtrfsProgs.Lib.LeafList

/-
  `search_dir`, from `cmds-restore.c`.

  The counter `loops` is set back where an entry is restored or
  there already, and nowhere else.

  Main declarations:
    * `FsRoot` and `Env`
    * `handleEntry`, `dirTurn` and `searchDir`
    * `Handles` and `NoGap`
    * `searchDir_handles_iff`
-/

----------
-- Directories
----------

namespace BtrfsProgs

namespace RestoreDir

open LeafList

def BTRFS_FT_REG_FILE : Nat := 1

def BTRFS_FT_DIR : Nat := 2

def BTRFS_DIR_INDEX_KEY : Nat := 96

def BTRFS_ROOT_ITEM_KEY : Nat := 132

def BTRFS_FIRST_FREE_OBJECTID : Nat := 256

/- `struct btrfs_dir_item`, with its name. -/
structure DirItem where
  location : Key
  type : Nat
  name : List UInt8
deriving Repr, DecidableEq

/- An item of a leaf, as the directory item that it may be. -/
structure LeafItem where
  key : Key
  dir_item : DirItem
deriving Repr, DecidableEq

/-
  The tree of a root, with the leaves that can be read in their
  order, and the errors of searches for a directory.
-/
structure FsRoot where
  objectid : Nat
  offset : Nat
  leaves : List (List LeafItem)
  searchError : Nat → Option Int
  nonempty : ∀ leaf ∈ leaves, leaf ≠ []
  ascending : Ascending LeafItem.key leaves.flatten
  negative : ∀ dir ret, searchError dir = some ret → ret < 0

/-
  The calls that change or read the place to restore to, with a
  state of it, and the search for the root of a subvolume.
-/
structure Env (W : Type) where
  stat : W → List UInt8 → Bool
  openFile : W → List UInt8 → Option W
  copyFile : W → FsRoot → Key → List UInt8 → Int × W
  mkdir : W → List UInt8 → Option W
  readFsRoot : Nat → Except Int FsRoot
  negative :
    ∀ objectid ret, readFsRoot objectid = .error ret → ret < 0

/-
  The options; `regNomatch` says of a path that there is a regex
  and that it does not match.
-/
structure Options where
  output_rootdir : List UInt8
  regNomatch : List UInt8 → Bool
  overwrite : Bool
  get_snaps : Bool
  ignore_errors : Bool

----------
-- An Entry
----------

/- What becomes of an entry. -/
inductive Fate where
  | unmatched
  | other
  | existing
  | restored
  | leftOut
  | failed (ret : Int)
deriving Repr, DecidableEq

section Function

variable {W : Type}
variable (opts : Options)
variable (env : Env W)

/- `snprintf` into a buffer of 4096 bytes. -/
def snprintf4096
    (text : List UInt8) : List UInt8 :=
  text.take 4095

/- The full path from the root that is restored. -/
def fsName
    (in_dir : List UInt8)
    (d : DirItem) : List UInt8 :=
  snprintf4096 (in_dir ++ 47 :: d.name.takeWhile (· ≠ 0))

/- The full path from the root of the system. -/
def pathName
    (in_dir : List UInt8)
    (d : DirItem) : List UInt8 :=
  snprintf4096 (opts.output_rootdir ++ fsName in_dir d)

/-
  The root and the directory to search for an entry that is a
  directory; `none` is one that is left out.
-/
def enterDir
    (root : FsRoot)
    (d : DirItem) : Except Int (Option (FsRoot × Nat)) :=
  if d.location.type = BTRFS_ROOT_ITEM_KEY then
    if d.location.objectid = root.objectid then .ok none
    else
      match env.readFsRoot d.location.objectid with
      | .error ret => .error ret
      | .ok search_root =>
          if search_root.offset ≠ 0 ∧ ¬ opts.get_snaps then
            .ok none
          else
            .ok (some (search_root, BTRFS_FIRST_FREE_OBJECTID))
  else
    .ok (some (root, d.location.objectid))

/-
  What the body of the loop does with an entry: its fate,
  whether `loops` is set to 0, and what is there now.
-/
def handleEntry
    (recur : FsRoot → Nat → List UInt8 → W → Option (Int × W))
    (root : FsRoot)
    (in_dir : List UInt8)
    (d : DirItem)
    (w : W) : Option (Fate × Bool × W) :=
  if opts.regNomatch (fsName in_dir d) then
    some (.unmatched, false, w)
  else
    let path_name := pathName opts in_dir d
    if d.type = BTRFS_FT_REG_FILE then
      if ¬ opts.overwrite ∧ env.stat w path_name then
        some (.existing, true, w)
      else
        match env.openFile w path_name with
        | none => some (.failed (-1), false, w)
        | some w =>
            let (ret, w) :=
              env.copyFile w root d.location path_name
            if ret ≠ 0 then some (.failed ret, true, w)
            else some (.restored, true, w)
    else if d.type = BTRFS_FT_DIR then
      match enterDir opts env root d with
      | .error ret => some (.failed ret, false, w)
      | .ok none => some (.leftOut, false, w)
      | .ok (some (search_root, objectid)) =>
          match env.mkdir w path_name with
          | none => some (.failed (-1), false, w)
          | some w =>
              match recur search_root objectid
                  (fsName in_dir d) w with
              | none => none
              | some (ret, w) =>
                  if ret ≠ 0 then some (.failed ret, true, w)
                  else some (.restored, true, w)
    else
      some (.other, false, w)

----------
-- The Loop
----------

/-
  A note of an entry that the loop came to: what was there
  before its turn, and what became of it.
-/
structure Note (W : Type) where
  item : LeafItem
  before : W
  fate : Fate

/-
  The variables of the loop: the items from the slot on, the
  leaves behind, and the notes of the entries so far.
-/
structure DirState (W : Type) where
  items : List LeafItem
  leaves : List (List LeafItem)
  loops : Nat
  world : W
  log : List (Note W)

/- The variables behind an entry, with a note of it. -/
def DirState.noted
    (s : DirState W)
    (item : LeafItem)
    (items : List LeafItem)
    (fate : Fate)
    (reset : Bool)
    (world : W) : DirState W :=
  { items := items
    leaves := s.leaves
    loops := if reset then 0 else s.loops + 1
    world := world
    log := s.log ++ [⟨item, s.world, fate⟩] }

/- A turn; `none` is a search below that does not return. -/
def dirTurn
    (recur : FsRoot → Nat → List UInt8 → W → Option (Int × W))
    (root : FsRoot)
    (objectid : Nat)
    (in_dir : List UInt8)
    (s : DirState W) :
    Option (DirState W ⊕ Int × DirState W) :=
  if s.loops ≥ 1024 then some (.inr (0, s))
  else
    match s.items with
    | [] =>
        match s.leaves with
        | [] => some (.inr (0, s))
        | leaf :: leaves =>
            some (.inl
              { s with
                items := leaf
                leaves := leaves
                loops := s.loops + 1 })
    | item :: items =>
        if item.key.objectid ≠ objectid then some (.inr (0, s))
        else if item.key.type ≠ BTRFS_DIR_INDEX_KEY then
          some (.inr (0, s))
        else
          match handleEntry opts env recur root in_dir
              item.dir_item s.world with
          | none => none
          | some (fate, reset, world) =>
              let s' := s.noted item items fate reset world
              match fate with
              | .failed ret =>
                  if opts.ignore_errors then some (.inl s')
                  else some (.inr (ret, s'))
              | _ => some (.inl s')

/- The search for the first entry, and a loop from there on. -/
def searchWith
    (loop : FsRoot → Nat → List UInt8 → DirState W →
      Option (Int × DirState W))
    (root : FsRoot)
    (objectid : Nat)
    (in_dir : List UInt8)
    (w : W) : Option (Int × W × List (Note W)) :=
  match root.searchError objectid with
  | some ret => some (ret, w, [])
  | none =>
      let slot := searchSlot LeafItem.key
        ⟨objectid, BTRFS_DIR_INDEX_KEY, 0⟩ root.leaves
      (loop root objectid in_dir
        ⟨slot.items, slot.leaves, 0, w, []⟩).map
          fun r => (r.1, r.2.world, r.2.log)

/- The loop, for some turns here and in searches below. -/
def searchLoop :
    Nat → FsRoot → Nat → List UInt8 → DirState W →
      Option (Int × DirState W)
  | 0, _, _, _, _ => none
  | fuel + 1, root, objectid, in_dir, s =>
      let recur root objectid in_dir w :=
        (searchWith (searchLoop fuel) root objectid in_dir w).map
          fun r => (r.1, r.2.1)
      match dirTurn opts env recur root objectid in_dir s with
      | none => none
      | some (.inr result) => some result
      | some (.inl s) =>
          searchLoop fuel root objectid in_dir s

/- `search_dir`, with the notes of the entries it came to. -/
def searchDir
    (fuel : Nat) :
    FsRoot → Nat → List UInt8 → W →
      Option (Int × W × List (Note W)) :=
  searchWith (searchLoop opts env fuel)

end Function

----------
-- Entries That Are Asked For
----------

/- The item is an entry of the directory. -/
def isEntry
    (objectid : Nat)
    (item : LeafItem) : Bool :=
  item.key.objectid = objectid ∧
    item.key.type = BTRFS_DIR_INDEX_KEY

/- A file or a directory that the regex matches. -/
def wanted
    (opts : Options)
    (in_dir : List UInt8)
    (item : LeafItem) : Bool :=
  ¬ opts.regNomatch (fsName in_dir item.dir_item) ∧
    (item.dir_item.type = BTRFS_FT_REG_FILE ∨
      item.dir_item.type = BTRFS_FT_DIR)

/- The entry was restored, or is there already. -/
def Fate.Done : Fate → Prop
  | .existing => True
  | .restored => True
  | _ => False

/- Every entry that is asked for was restored or is there. -/
def Handles
    {W : Type}
    (opts : Options)
    (root : FsRoot)
    (objectid : Nat)
    (in_dir : List UInt8)
    (log : List (Note W)) : Prop :=
  ∀ item ∈ root.leaves.flatten, isEntry objectid item →
    wanted opts in_dir item →
      ∃ note ∈ log, note.item = item ∧ note.fate.Done

/-
  The turns of a walk: `none` goes to another leaf, and the
  walk is through with the directory behind its last entry.
-/
def turnsFrom
    (objectid : Nat)
    (items : List LeafItem)
    (leaves : List (List LeafItem)) : List (Option LeafItem) :=
  (items.map some ++
    leaves.flatMap fun leaf => none :: leaf.map some).takeWhile
      fun turn => turn.all (isEntry objectid)

/- The turns of the walk through a directory. -/
def turnsOf
    (root : FsRoot)
    (objectid : Nat) : List (Option LeafItem) :=
  let slot := searchSlot LeafItem.key
    ⟨objectid, BTRFS_DIR_INDEX_KEY, 0⟩ root.leaves
  turnsFrom objectid slot.items slot.leaves

/-
  Behind 1024 turns without an entry that is asked for there is
  no such entry.
-/
def NoGap
    (asked : List Bool) : Prop :=
  ∀ i, (∀ k < 1024, asked[i + k]? = some false) →
    ∀ j, i + 1024 ≤ j → asked[j]? ≠ some true

/- The options leave the directory out. -/
def LeftOut
    {W : Type}
    (opts : Options)
    (env : Env W)
    (root : FsRoot)
    (item : LeafItem) : Prop :=
  item.dir_item.type = BTRFS_FT_DIR ∧
    enterDir opts env root item.dir_item = .ok none

/-
  A call for the entry fails with what is there before: a file
  cannot be opened or copied, a directory not be found, made or
  searched.
-/
def Fails
    {W : Type}
    (opts : Options)
    (env : Env W)
    (root : FsRoot)
    (in_dir : List UInt8)
    (d : DirItem)
    (w : W) : Prop :=
  let path_name := pathName opts in_dir d
  if d.type = BTRFS_FT_REG_FILE then
    (opts.overwrite ∨ ¬ env.stat w path_name) ∧
      ∀ opened, env.openFile w path_name = some opened →
        (env.copyFile opened root d.location path_name).1 ≠ 0
  else
    match enterDir opts env root d with
    | .error _ => True
    | .ok none => False
    | .ok (some (search_root, objectid)) =>
        env.mkdir w path_name = none ∨
          search_root.searchError objectid ≠ none

----------
-- The Turns Ahead
----------

section Turns

variable {objectid : Nat}
variable {item : LeafItem}
variable {items leaf : List LeafItem}
variable {leaves : List (List LeafItem)}

theorem turnsFrom_leaf :
    turnsFrom objectid [] (leaf :: leaves) =
      none :: turnsFrom objectid leaf leaves := by
  unfold turnsFrom
  rw [List.map_nil, List.nil_append, List.flatMap_cons,
    List.cons_append, List.takeWhile_cons_of_pos rfl]

theorem turnsFrom_entry
    (hEntry : isEntry objectid item = true) :
    turnsFrom objectid (item :: items) leaves =
      some item :: turnsFrom objectid items leaves := by
  unfold turnsFrom
  simp [hEntry]

theorem turnsFrom_behind
    (hOther : isEntry objectid item = false) :
    turnsFrom objectid (item :: items) leaves = [] := by
  unfold turnsFrom
  simp [hOther]

/- The entries that a walk comes to, one after another. -/
theorem turnsFrom_entries
    (objectid : Nat)
    (items : List LeafItem)
    (leaves : List (List LeafItem)) :
    (turnsFrom objectid items leaves).filterMap id =
      (items ++ leaves.flatten).takeWhile
        (isEntry objectid) := by
  have hItems : ∀ l : List (Option LeafItem),
      (l.takeWhile fun turn =>
        turn.all (isEntry objectid)).filterMap id =
        (l.filterMap id).takeWhile (isEntry objectid) := by
    intro l
    induction l with
    | nil => rfl
    | cons turn l ih =>
        cases turn with
        | none => simpa using ih
        | some item =>
            cases hEntry : isEntry objectid item with
            | true => simpa [hEntry] using ih
            | false => simp [hEntry]
  unfold turnsFrom
  rw [hItems]
  congr 1
  rw [List.filterMap_append]
  congr 1
  · rw [List.filterMap_map]
    exact List.filterMap_some
  · induction leaves with
    | nil => rfl
    | cons leaf leaves ih =>
        rw [List.flatMap_cons, List.filterMap_append, ih,
          List.filterMap_cons_none rfl, List.filterMap_map,
          List.flatten_cons]
        congr 1
        exact List.filterMap_some

end Turns

----------
-- The Search for the Directory
----------

section Search

/- The entries in the order of the walk. -/
theorem turnsOf_entries
    (root : FsRoot)
    (objectid : Nat) :
    (turnsOf root objectid).filterMap id =
      (root.leaves.flatten.dropWhile fun item =>
        item.key < ⟨objectid, BTRFS_DIR_INDEX_KEY, 0⟩).takeWhile
          (isEntry objectid) := by
  unfold turnsOf
  dsimp only
  rw [turnsFrom_entries,
    searchSlot_from _ root.nonempty root.ascending]

/- The walk comes to all entries of the directory. -/
theorem mem_turnsOf_iff
    (root : FsRoot)
    (objectid : Nat)
    (item : LeafItem) :
    some item ∈ turnsOf root objectid ↔
      item ∈ root.leaves.flatten ∧
        isEntry objectid item = true := by
  let key : Key := ⟨objectid, BTRFS_DIR_INDEX_KEY, 0⟩
  have hFrom : ∀ a, a ∈ root.leaves.flatten.dropWhile
      (fun item => decide (item.key < key)) ↔
        a ∈ root.leaves.flatten ∧ key ≤ a.key :=
    fun a => mem_dropWhile_iff root.ascending
  have hSorted := root.ascending.sublist
    (List.dropWhile_sublist fun item =>
      decide (item.key < key))
  have hMem : some item ∈ turnsOf root objectid ↔
      item ∈ (turnsOf root objectid).filterMap id := by
    simp
  rw [hMem, turnsOf_entries,
    takeWhile_eq_filter hSorted ?_, List.mem_filter, hFrom]
  · constructor
    · intro hIn
      exact ⟨hIn.1.1, hIn.2⟩
    · intro hIn
      refine ⟨⟨hIn.1, ?_⟩, hIn.2⟩
      have hIs := of_decide_eq_true hIn.2
      rw [Key.le_iff]
      unfold key
      dsimp only
      omega
  · intro a b ha hb hLess hIs
    have hEntry := of_decide_eq_true hIs
    have hLow := Key.le_iff.mp ((hFrom a).mp ha).2
    have hLess' := Key.lt_iff.mp hLess
    unfold key at hLow
    dsimp only at hLow
    exact decide_eq_true (by omega)

/- An entry comes once in the walk. -/
theorem turnsOf_nodup
    (root : FsRoot)
    (objectid : Nat) :
    ((turnsOf root objectid).filterMap id).Nodup := by
  rw [turnsOf_entries]
  exact (root.ascending.nodup.sublist
    (List.dropWhile_sublist _)).sublist
      (List.takeWhile_sublist _)

end Search

----------
-- What Becomes of an Entry
----------

section Entry

variable {W : Type}
variable {opts : Options}
variable {env : Env W}
variable {recur :
  FsRoot → Nat → List UInt8 → W → Option (Int × W)}
variable {root : FsRoot}
variable {in_dir : List UInt8}
variable {item : LeafItem}
variable {w w' : W}
variable {fate : Fate}
variable {reset : Bool}

/- An entry that is not asked for is passed over. -/
theorem handleEntry_idle
    (hIdle : wanted opts in_dir item = false)
    (env : Env W)
    (recur :
      FsRoot → Nat → List UInt8 → W → Option (Int × W))
    (root : FsRoot)
    (w : W) :
    ∃ fate,
      handleEntry opts env recur root in_dir item.dir_item w =
          some (fate, false, w) ∧
        ∀ ret, fate ≠ .failed ret := by
  have hNot := of_decide_eq_false hIdle
  unfold handleEntry
  by_cases hMatch : opts.regNomatch
      (fsName in_dir item.dir_item) = true
  · rw [if_pos hMatch]
    exact ⟨.unmatched, rfl, fun _ hIs => by cases hIs⟩
  · have hFile : item.dir_item.type ≠ BTRFS_FT_REG_FILE :=
      fun hIs => hNot ⟨hMatch, .inl hIs⟩
    have hDir : item.dir_item.type ≠ BTRFS_FT_DIR :=
      fun hIs => hNot ⟨hMatch, .inr hIs⟩
    rw [if_neg hMatch]
    dsimp only
    rw [if_neg hFile, if_neg hDir]
    exact ⟨.other, rfl, fun _ hIs => by cases hIs⟩

/- With errors ignored a search fails with its first step only. -/
def SearchesBelow
    (recur :
      FsRoot → Nat → List UInt8 → W → Option (Int × W)) :
    Prop :=
  ∀ root objectid in_dir w ret w',
    recur root objectid in_dir w = some (ret, w') →
      (ret ≠ 0 ↔ root.searchError objectid ≠ none)

/- What can become of an entry that is asked for. -/
structure Treated
    (opts : Options)
    (env : Env W)
    (root : FsRoot)
    (in_dir : List UInt8)
    (item : LeafItem)
    (w : W)
    (fate : Fate)
    (reset : Bool) : Prop where
  done : fate.Done → reset = true
  leftOut : fate = .leftOut ↔ LeftOut opts env root item
  failed : ∀ ret, fate = .failed ret → ret ≠ 0
  fails :
    opts.ignore_errors = true →
      ((∃ ret, fate = .failed ret) ↔
        Fails opts env root in_dir item.dir_item w)
  only :
    fate.Done ∨ fate = .leftOut ∨ ∃ ret, fate = .failed ret

theorem treated_done
    (hIn : ¬ LeftOut opts env root item)
    (hFine : opts.ignore_errors = true →
      ¬ Fails opts env root in_dir item.dir_item w)
    (hDone : fate.Done) :
    Treated opts env root in_dir item w fate true where
  done _ := rfl
  leftOut := by
    constructor
    · intro hIs
      rw [hIs] at hDone
      exact hDone.elim
    · exact fun hOut => absurd hOut hIn
  failed ret hIs := by
    rw [hIs] at hDone
    exact hDone.elim
  fails hIgnore := by
    constructor
    · intro hFailed
      rcases hFailed with ⟨ret, hIs⟩
      rw [hIs] at hDone
      exact hDone.elim
    · exact fun hFails => absurd hFails (hFine hIgnore)
  only := .inl hDone

theorem treated_failed
    {ret : Int}
    (hIn : ¬ LeftOut opts env root item)
    (hFails : opts.ignore_errors = true →
      Fails opts env root in_dir item.dir_item w)
    (hRet : ret ≠ 0) :
    Treated opts env root in_dir item w (.failed ret)
      reset where
  done hDone := hDone.elim
  leftOut := by
    constructor
    · intro hIs
      cases hIs
    · exact fun hOut => absurd hOut hIn
  failed other hIs := by
    cases hIs
    exact hRet
  fails hIgnore := iff_of_true ⟨ret, rfl⟩ (hFails hIgnore)
  only := .inr (.inr ⟨ret, rfl⟩)

/- A file is not left out. -/
theorem handleEntry_file
    (hMatch : ¬ opts.regNomatch
      (fsName in_dir item.dir_item) = true)
    (hFile : item.dir_item.type = BTRFS_FT_REG_FILE)
    (hHandled :
      handleEntry opts env recur root in_dir item.dir_item w =
        some (fate, reset, w')) :
    Treated opts env root in_dir item w fate reset := by
  have hIn : ¬ LeftOut opts env root item := by
    intro hOut
    have hBoth := hFile.symm.trans hOut.1
    exact absurd hBoth (by decide)
  have hFails : Fails opts env root in_dir item.dir_item w ↔
      (opts.overwrite ∨
          ¬ env.stat w (pathName opts in_dir item.dir_item)) ∧
        ∀ opened, env.openFile w
            (pathName opts in_dir item.dir_item) = some opened →
          (env.copyFile opened root item.dir_item.location
            (pathName opts in_dir item.dir_item)).1 ≠ 0 := by
    unfold Fails
    rw [if_pos hFile]
  unfold handleEntry at hHandled
  rw [if_neg hMatch] at hHandled
  dsimp only at hHandled
  rw [if_pos hFile] at hHandled
  split_ifs at hHandled with hThere
  · cases hHandled
    refine treated_done hIn (fun _ hIs => ?_) trivial
    rcases (hFails.mp hIs).1 with hOver | hGone
    · exact hThere.1 hOver
    · exact hGone hThere.2
  · have hAgain : opts.overwrite ∨
        ¬ env.stat w (pathName opts in_dir item.dir_item) := by
      rcases not_and_or.mp hThere with hOver | hGone
      · exact .inl (not_not.mp hOver)
      · exact .inr hGone
    cases hOpen : env.openFile w
        (pathName opts in_dir item.dir_item) with
    | none =>
        rw [hOpen] at hHandled
        cases hHandled
        refine treated_failed hIn (fun _ => ?_) (by decide)
        refine hFails.mpr ⟨hAgain, fun opened hIs => ?_⟩
        rw [hOpen] at hIs
        cases hIs
    | some opened =>
        rw [hOpen] at hHandled hFails
        dsimp only at hHandled
        split_ifs at hHandled with hRet
        · cases hHandled
          refine treated_failed hIn (fun _ => ?_) hRet
          refine hFails.mpr ⟨hAgain, fun other hIs => ?_⟩
          cases hIs
          exact hRet
        · cases hHandled
          refine treated_done hIn (fun _ hIs => ?_) trivial
          exact hRet ((hFails.mp hIs).2 opened rfl)

/- A directory is searched if it is not left out. -/
theorem handleEntry_dir
    (hBelow : opts.ignore_errors = true → SearchesBelow recur)
    (hMatch : ¬ opts.regNomatch
      (fsName in_dir item.dir_item) = true)
    (hDir : item.dir_item.type = BTRFS_FT_DIR)
    (hHandled :
      handleEntry opts env recur root in_dir item.dir_item w =
        some (fate, reset, w')) :
    Treated opts env root in_dir item w fate reset := by
  have hNotFile : item.dir_item.type ≠ BTRFS_FT_REG_FILE := by
    rw [hDir]
    decide
  unfold handleEntry at hHandled
  rw [if_neg hMatch] at hHandled
  dsimp only at hHandled
  rw [if_neg hNotFile, if_pos hDir] at hHandled
  cases hEnter : enterDir opts env root item.dir_item with
  | error ret =>
      have hIn : ¬ LeftOut opts env root item := by
        intro hOut
        rw [hOut.2] at hEnter
        cases hEnter
      have hFails :
          Fails opts env root in_dir item.dir_item w := by
        unfold Fails
        rw [if_neg hNotFile, hEnter]
        trivial
      rw [hEnter] at hHandled
      cases hHandled
      refine treated_failed hIn (fun _ => hFails) ?_
      -- only the search for a root ends with an error
      unfold enterDir at hEnter
      split_ifs at hEnter
      cases hRoot : env.readFsRoot
          item.dir_item.location.objectid with
      | error code =>
          rw [hRoot] at hEnter
          cases hEnter
          have hLess := env.negative _ _ hRoot
          omega
      | ok sub =>
          rw [hRoot] at hEnter
          dsimp only at hEnter
          split_ifs at hEnter
  | ok answer =>
      cases answer with
      | none =>
          have hFine :
              ¬ Fails opts env root in_dir item.dir_item w := by
            unfold Fails
            rw [if_neg hNotFile, hEnter]
            exact not_false
          rw [hEnter] at hHandled
          cases hHandled
          exact
            { done := fun hDone => hDone.elim
              leftOut := ⟨fun _ => ⟨hDir, hEnter⟩,
                fun _ => rfl⟩
              failed := fun ret hIs => by cases hIs
              fails := fun _ => iff_of_false
                (fun hIs => by rcases hIs with ⟨_, hIs⟩; cases hIs)
                hFine
              only := .inr (.inl rfl) }
      | some place =>
          have hIn : ¬ LeftOut opts env root item := by
            intro hOut
            rw [hOut.2] at hEnter
            cases hEnter
          rcases place with ⟨search_root, dir⟩
          have hFails :
              Fails opts env root in_dir item.dir_item w ↔
                env.mkdir w
                    (pathName opts in_dir item.dir_item) =
                  none ∨
                search_root.searchError dir ≠ none := by
            unfold Fails
            rw [if_neg hNotFile, hEnter]
          rw [hEnter] at hHandled
          dsimp only at hHandled
          cases hMade : env.mkdir w
              (pathName opts in_dir item.dir_item) with
          | none =>
              rw [hMade] at hHandled
              cases hHandled
              exact treated_failed hIn
                (fun _ => hFails.mpr (.inl hMade)) (by decide)
          | some made =>
              rw [hMade] at hHandled hFails
              dsimp only at hHandled
              cases hAnswer : recur search_root dir
                  (fsName in_dir item.dir_item) made with
              | none =>
                  rw [hAnswer] at hHandled
                  cases hHandled
              | some answer =>
                  rcases answer with ⟨ret, below⟩
                  rw [hAnswer] at hHandled
                  dsimp only at hHandled
                  split_ifs at hHandled with hRet
                  · cases hHandled
                    refine treated_failed hIn
                      (fun hIgnore => ?_) hRet
                    exact hFails.mpr (.inr
                      ((hBelow hIgnore _ _ _ _ _ _ hAnswer).mp
                        hRet))
                  · cases hHandled
                    refine treated_done hIn
                      (fun hIgnore hIs => ?_) trivial
                    rcases hFails.mp hIs with hNone | hError
                    · cases hNone
                    · exact hRet
                        ((hBelow hIgnore _ _ _ _ _ _
                          hAnswer).mpr hError)

theorem handleEntry_wanted
    (hBelow : opts.ignore_errors = true → SearchesBelow recur)
    (hWanted : wanted opts in_dir item = true)
    (hHandled :
      handleEntry opts env recur root in_dir item.dir_item w =
        some (fate, reset, w')) :
    Treated opts env root in_dir item w fate reset := by
  rcases of_decide_eq_true hWanted with ⟨hMatch, hFile | hDir⟩
  · exact handleEntry_file hMatch hFile hHandled
  · exact handleEntry_dir hBelow hMatch hDir hHandled

end Entry

----------
-- The Counter
----------

/-
  With a value of the counter all turns that are asked for are
  come to, if each of them sets it back.
-/
def Reaches : Nat → List Bool → Prop
  | _, [] => True
  | loops, asked :: rest =>
      if 1024 ≤ loops then ∀ other ∈ asked :: rest, other = false
      else if asked then Reaches 0 rest
      else Reaches (loops + 1) rest

section Counter

variable {loops : Nat}
variable {rest : List Bool}

theorem noGap_of_idle
    (hIdle : ∀ asked ∈ rest, asked = false) :
    NoGap rest := by
  intro i _ j _ hIs
  have hFalse := hIdle true (List.mem_of_getElem? hIs)
  cases hFalse

/- An entry that is asked for stands behind fewer turns. -/
theorem noGap_asked_iff
    (hLoops : loops < 1024) :
    NoGap (List.replicate loops false ++ true :: rest) ↔
      NoGap rest := by
  have hBehind : ∀ i,
      (List.replicate loops false ++ true :: rest)[
        loops + 1 + i]? = rest[i]? := by
    intro i
    rw [List.getElem?_append_right (by simp; omega),
      List.length_replicate,
      show loops + 1 + i - loops = i + 1 by omega]
    rfl
  have hHere :
      (List.replicate loops false ++ true :: rest)[loops]? =
        some true := by
    rw [List.getElem?_append_right (by simp),
      List.length_replicate, Nat.sub_self]
    rfl
  constructor
  · intro hNoGap i hGap j hj
    have hLater := hNoGap (loops + 1 + i) (by
      intro k hk
      rw [Nat.add_assoc, hBehind]
      exact hGap k hk) (loops + 1 + j) (by omega)
    rw [hBehind] at hLater
    exact hLater
  · intro hNoGap i hGap j hj
    -- the entry is not in the gap, so the gap is behind it
    have hAfter : loops < i := by
      by_contra hBefore
      have hFalse := hGap (loops - i) (by omega)
      rw [show i + (loops - i) = loops by omega, hHere]
        at hFalse
      cases hFalse
    have hSame : loops + 1 + (i - (loops + 1)) = i := by
      omega
    have hLater := hNoGap (i - (loops + 1)) (by
      intro k hk
      rw [← hBehind, ← Nat.add_assoc, hSame]
      exact hGap k hk) (j - (loops + 1)) (by omega)
    rw [← hBehind,
      show loops + 1 + (j - (loops + 1)) = j by omega] at hLater
    exact hLater

theorem reaches_iff
    (hLoops : loops ≤ 1024) :
    Reaches loops rest ↔
      NoGap (List.replicate loops false ++ rest) := by
  induction rest generalizing loops with
  | nil =>
      have hIdle : NoGap (List.replicate loops false ++ []) :=
        noGap_of_idle (by
          intro asked hAsked
          rw [List.append_nil] at hAsked
          exact List.eq_of_mem_replicate hAsked)
      exact iff_of_true trivial hIdle
  | cons asked rest ih =>
      unfold Reaches
      by_cases hFull : 1024 ≤ loops
      · have hEq : loops = 1024 := Nat.le_antisymm hLoops hFull
        rw [if_pos hFull, hEq]
        constructor
        · intro hIdle
          apply noGap_of_idle
          intro other hOther
          rcases List.mem_append.mp hOther with hOld | hNew
          · exact List.eq_of_mem_replicate hOld
          · exact hIdle other hNew
        · intro hNoGap other hOther
          rcases List.mem_iff_getElem?.mp hOther with ⟨i, hi⟩
          have hLater := hNoGap 0 (by
            intro k hk
            rw [Nat.zero_add, List.getElem?_append_left (by
              rw [List.length_replicate]
              exact hk), List.getElem?_replicate, if_pos hk])
            (1024 + i) (by omega)
          rw [List.getElem?_append_right (by
              rw [List.length_replicate]
              exact Nat.le_add_right _ _),
            List.length_replicate,
            show 1024 + i - 1024 = i by omega, hi] at hLater
          cases other with
          | false => rfl
          | true => exact absurd rfl hLater
      · rw [if_neg hFull]
        cases asked with
        | true =>
            rw [if_pos rfl, ih (Nat.zero_le _),
              noGap_asked_iff (not_le.mp hFull)]
            rfl
        | false =>
            rw [if_neg (by decide), ih (by omega),
              List.replicate_succ', List.append_assoc]
            rfl

end Counter

----------
-- The Walk
----------

section Walk

variable {W : Type}
variable {opts : Options}
variable {env : Env W}
variable {root : FsRoot}
variable {objectid : Nat}
variable {in_dir : List UInt8}
variable {loops : Nat}
variable {fuel : Nat}
variable {item : LeafItem}
variable {w : W}
variable {fate : Fate}
variable {turns : List (Option LeafItem)}
variable {log : List (Note W)}

/- The turn comes to an entry that is asked for. -/
def asked
    (opts : Options)
    (in_dir : List UInt8)
    (turn : Option LeafItem) : Bool :=
  turn.any (wanted opts in_dir)

/- The entries that are asked for were restored or are there. -/
def AllDone
    (opts : Options)
    (in_dir : List UInt8)
    (log : List (Note W)) : Prop :=
  ∀ note ∈ log, wanted opts in_dir note.item = true →
    note.fate.Done

/- The notes of some turns. -/
structure Walked
    (opts : Options)
    (env : Env W)
    (root : FsRoot)
    (in_dir : List UInt8)
    (loops : Nat)
    (turns : List (Option LeafItem))
    (log : List (Note W)) : Prop where
  of_turns : ∀ note ∈ log, some note.item ∈ turns
  noted :
    ∀ note ∈ log, wanted opts in_dir note.item = true →
      ∃ reset, Treated opts env root in_dir note.item
          note.before note.fate reset ∧
        ((∃ ret, note.fate = .failed ret) →
          opts.ignore_errors = true)
  handles :
    (∀ item, some item ∈ turns →
        wanted opts in_dir item = true →
          ∃ note ∈ log, note.item = item ∧ note.fate.Done) ↔
      Reaches loops (turns.map (asked opts in_dir)) ∧
        AllDone opts in_dir log

/- The walk ends with the directory, or with the counter. -/
theorem walked_end
    (hEnd : turns = [] ∨ 1024 ≤ loops) :
    Walked opts env root in_dir loops turns [] where
  of_turns := List.forall_mem_nil _
  noted := List.forall_mem_nil _
  handles := by
    have hDone : AllDone opts in_dir ([] : List (Note W)) :=
      List.forall_mem_nil _
    rw [and_iff_left hDone]
    cases turns with
    | nil =>
        exact iff_of_true
          (fun item hItem => by cases hItem) trivial
    | cons turn turns =>
        have hFull : 1024 ≤ loops := by
          rcases hEnd with hNil | hFull
          · cases hNil
          · exact hFull
        rw [List.map_cons]
        unfold Reaches
        rw [if_pos hFull, ← List.map_cons]
        constructor
        · intro hHandled other hOther
          rcases List.mem_map.mp hOther with ⟨turn, hIn, rfl⟩
          cases turn with
          | none => rfl
          | some item =>
              cases hWanted : wanted opts in_dir item with
              | false => exact hWanted
              | true =>
                  rcases hHandled item hIn hWanted with
                    ⟨note, hNote, _⟩
                  cases hNote
        · intro hIdle item hIn hWanted
          have hFalse := hIdle _
            (List.mem_map_of_mem (f := asked opts in_dir) hIn)
          have hTrue : asked opts in_dir (some item) = true :=
            hWanted
          rw [hTrue] at hFalse
          cases hFalse

/- To go to another leaf is a turn. -/
theorem walked_leaf
    (hLoops : loops < 1024)
    (hRest :
      Walked opts env root in_dir (loops + 1) turns log) :
    Walked opts env root in_dir loops (none :: turns) log where
  of_turns note hNote :=
    List.mem_cons_of_mem _ (hRest.of_turns note hNote)
  noted := hRest.noted
  handles := by
    have hReaches :
        Reaches loops
            ((none :: turns).map (asked opts in_dir)) ↔
          Reaches (loops + 1)
            (turns.map (asked opts in_dir)) := by
      have hAsked : asked opts in_dir none = false := rfl
      rw [List.map_cons, hAsked]
      rw [Reaches, if_neg (not_le.mpr hLoops),
        if_neg (by decide)]
    rw [hReaches, ← hRest.handles]
    constructor
    · intro hAll item hIn
      exact hAll item (List.mem_cons_of_mem _ hIn)
    · intro hAll item hIn
      rcases List.mem_cons.mp hIn with hHere | hIn
      · cases hHere
      · exact hAll item hIn

/- An entry that is not asked for is a turn like that. -/
theorem walked_idle
    (hLoops : loops < 1024)
    (hIdle : wanted opts in_dir item = false)
    (hRest :
      Walked opts env root in_dir (loops + 1) turns log) :
    Walked opts env root in_dir loops (some item :: turns)
      (⟨item, w, fate⟩ :: log) where
  of_turns note hNote := by
    rcases List.mem_cons.mp hNote with rfl | hLater
    · exact List.mem_cons_self
    · exact List.mem_cons_of_mem _
        (hRest.of_turns note hLater)
  noted note hNote hWanted := by
    rcases List.mem_cons.mp hNote with rfl | hLater
    · rw [hIdle] at hWanted
      cases hWanted
    · exact hRest.noted note hLater hWanted
  handles := by
    have hReaches :
        Reaches loops
            ((some item :: turns).map (asked opts in_dir)) ↔
          Reaches (loops + 1)
            (turns.map (asked opts in_dir)) := by
      have hAsked : asked opts in_dir (some item) = false :=
        hIdle
      rw [List.map_cons, hAsked]
      rw [Reaches, if_neg (not_le.mpr hLoops),
        if_neg (by decide)]
    have hDone :
        AllDone opts in_dir (⟨item, w, fate⟩ :: log) ↔
          AllDone opts in_dir log := by
      unfold AllDone
      rw [List.forall_mem_cons]
      exact and_iff_right fun hWanted => by
        rw [hIdle] at hWanted
        cases hWanted
    rw [hReaches, hDone, ← hRest.handles]
    constructor
    · intro hAll other hIn hWanted
      rcases hAll other (List.mem_cons_of_mem _ hIn) hWanted with
        ⟨note, hNote, hSame, hFate⟩
      rcases List.mem_cons.mp hNote with rfl | hLater
      · rw [← hSame, hIdle] at hWanted
        cases hWanted
      · exact ⟨note, hLater, hSame, hFate⟩
    · intro hAll other hIn hWanted
      rcases List.mem_cons.mp hIn with hHere | hIn
      · cases hHere
        rw [hIdle] at hWanted
        cases hWanted
      · rcases hAll other hIn hWanted with
          ⟨note, hNote, hBoth⟩
        exact ⟨note, List.mem_cons_of_mem _ hNote, hBoth⟩

/- An entry that is asked for sets the counter back when done. -/
theorem walked_wanted
    {reset : Bool}
    (hLoops : loops < 1024)
    (hWanted : wanted opts in_dir item = true)
    (hOnce : some item ∉ turns)
    (hTreated :
      Treated opts env root in_dir item w fate reset)
    (hFailed : (∃ ret, fate = .failed ret) →
      opts.ignore_errors = true)
    (hRest :
      Walked opts env root in_dir
        (if reset then 0 else loops + 1) turns log) :
    Walked opts env root in_dir loops (some item :: turns)
      (⟨item, w, fate⟩ :: log) where
  of_turns note hNote := by
    rcases List.mem_cons.mp hNote with rfl | hLater
    · exact List.mem_cons_self
    · exact List.mem_cons_of_mem _
        (hRest.of_turns note hLater)
  noted note hNote hAsked := by
    rcases List.mem_cons.mp hNote with rfl | hLater
    · exact ⟨reset, hTreated, hFailed⟩
    · exact hRest.noted note hLater hAsked
  handles := by
    have hReaches :
        Reaches loops
            ((some item :: turns).map (asked opts in_dir)) ↔
          Reaches 0 (turns.map (asked opts in_dir)) := by
      have hAsked : asked opts in_dir (some item) = true :=
        hWanted
      rw [List.map_cons, hAsked]
      rw [Reaches, if_neg (not_le.mpr hLoops), if_pos rfl]
    have hDone :
        AllDone opts in_dir (⟨item, w, fate⟩ :: log) ↔
          fate.Done ∧ AllDone opts in_dir log := by
      unfold AllDone
      rw [List.forall_mem_cons]
      exact and_congr_left fun _ =>
        ⟨fun hAll => hAll hWanted, fun hFate _ => hFate⟩
    -- the entry is not come to again
    have hElse : ∀ note ∈ log, note.item ≠ item := by
      intro note hNote hSame
      have hIn := hRest.of_turns note hNote
      rw [hSame] at hIn
      exact hOnce hIn
    have hSplit :
        (∀ other, some other ∈ some item :: turns →
            wanted opts in_dir other = true →
              ∃ note ∈ (⟨item, w, fate⟩ : Note W) :: log,
                note.item = other ∧ note.fate.Done) ↔
          fate.Done ∧
            ∀ other, some other ∈ turns →
              wanted opts in_dir other = true →
                ∃ note ∈ log,
                  note.item = other ∧ note.fate.Done := by
      constructor
      · intro hAll
        constructor
        · rcases hAll item List.mem_cons_self hWanted with
            ⟨note, hNote, hSame, hFate⟩
          rcases List.mem_cons.mp hNote with rfl | hLater
          · exact hFate
          · exact absurd hSame (hElse note hLater)
        · intro other hIn hAsked
          rcases hAll other (List.mem_cons_of_mem _ hIn) hAsked
            with ⟨note, hNote, hSame, hFate⟩
          rcases List.mem_cons.mp hNote with rfl | hLater
          · have hHere : item = other := hSame
            rw [← hHere] at hIn
            exact absurd hIn hOnce
          · exact ⟨note, hLater, hSame, hFate⟩
      · intro hBoth other hIn hAsked
        rcases List.mem_cons.mp hIn with hHere | hIn
        · cases hHere
          exact ⟨_, List.mem_cons_self, rfl, hBoth.1⟩
        · rcases hBoth.2 other hIn hAsked with
            ⟨note, hNote, hFate⟩
          exact ⟨note, List.mem_cons_of_mem _ hNote, hFate⟩
    rw [hSplit, hReaches, hDone]
    constructor
    · intro hBoth
      have hReset := hTreated.done hBoth.1
      have hLater := hRest.handles.mp hBoth.2
      rw [hReset, if_pos rfl] at hLater
      exact ⟨hLater.1, hBoth.1, hLater.2⟩
    · intro hBoth
      refine ⟨hBoth.2.1, hRest.handles.mpr ⟨?_, hBoth.2.2⟩⟩
      rw [hTreated.done hBoth.2.1, if_pos rfl]
      exact hBoth.1

/- What a turn of the loop can be. -/
inductive Turned
    (opts : Options)
    (env : Env W)
    (recur :
      FsRoot → Nat → List UInt8 → W → Option (Int × W))
    (root : FsRoot)
    (objectid : Nat)
    (in_dir : List UInt8)
    (s : DirState W) :
    DirState W ⊕ Int × DirState W → Prop
  | stop
      (hEnd : turnsFrom objectid s.items s.leaves = [] ∨
        1024 ≤ s.loops) :
      Turned opts env recur root objectid in_dir s
        (.inr (0, s))
  | leaf
      {leaf : List LeafItem}
      {leaves : List (List LeafItem)}
      (hLoops : s.loops < 1024)
      (hItems : s.items = [])
      (hLeaves : s.leaves = leaf :: leaves) :
      Turned opts env recur root objectid in_dir s
        (.inl
          { s with
            items := leaf
            leaves := leaves
            loops := s.loops + 1 })
  | entry
      {item : LeafItem}
      {items : List LeafItem}
      {fate : Fate}
      {reset : Bool}
      {world : W}
      (hLoops : s.loops < 1024)
      (hItems : s.items = item :: items)
      (hEntry : isEntry objectid item = true)
      (hHandled :
        handleEntry opts env recur root in_dir item.dir_item
          s.world = some (fate, reset, world))
      (hFailed : (∃ ret, fate = .failed ret) →
        opts.ignore_errors = true) :
      Turned opts env recur root objectid in_dir s
        (.inl (s.noted item items fate reset world))
  | failed
      {item : LeafItem}
      {items : List LeafItem}
      {ret : Int}
      {reset : Bool}
      {world : W}
      (hLoops : s.loops < 1024)
      (hItems : s.items = item :: items)
      (hEntry : isEntry objectid item = true)
      (hHandled :
        handleEntry opts env recur root in_dir item.dir_item
          s.world = some (.failed ret, reset, world))
      (hStrict : opts.ignore_errors = false) :
      Turned opts env recur root objectid in_dir s
        (.inr (ret, s.noted item items (.failed ret) reset
          world))

theorem dirTurn_cases
    {recur :
      FsRoot → Nat → List UInt8 → W → Option (Int × W)}
    {s : DirState W}
    {answer : DirState W ⊕ Int × DirState W}
    (hTurn :
      dirTurn opts env recur root objectid in_dir s =
        some answer) :
    Turned opts env recur root objectid in_dir s answer := by
  unfold dirTurn at hTurn
  by_cases hFull : s.loops ≥ 1024
  · rw [if_pos hFull] at hTurn
    cases hTurn
    exact .stop (.inr hFull)
  · rw [if_neg hFull] at hTurn
    have hLoops := not_le.mp hFull
    cases hItems : s.items with
    | nil =>
        rw [hItems] at hTurn
        cases hLeaves : s.leaves with
        | nil =>
            rw [hLeaves] at hTurn
            cases hTurn
            refine .stop (.inl ?_)
            rw [hItems, hLeaves]
            rfl
        | cons leaf leaves =>
            rw [hLeaves] at hTurn
            cases hTurn
            exact .leaf hLoops hItems hLeaves
    | cons item items =>
        rw [hItems] at hTurn
        dsimp only at hTurn
        cases hEntry : isEntry objectid item with
        | false =>
            have hStop : some answer = some (.inr (0, s)) := by
              rw [← hTurn]
              have hOther := of_decide_eq_false hEntry
              by_cases hDir : item.key.objectid = objectid
              · have hType :
                    item.key.type ≠ BTRFS_DIR_INDEX_KEY :=
                  fun hIs => hOther ⟨hDir, hIs⟩
                rw [if_neg (not_not.mpr hDir), if_pos hType]
              · rw [if_pos hDir]
            cases hStop
            refine .stop (.inl ?_)
            rw [hItems]
            exact turnsFrom_behind hEntry
        | true =>
            rcases of_decide_eq_true hEntry with ⟨hDir, hType⟩
            rw [if_neg (not_not.mpr hDir),
              if_neg (not_not.mpr hType)] at hTurn
            cases hHandled : handleEntry opts env recur root
                in_dir item.dir_item s.world with
            | none =>
                rw [hHandled] at hTurn
                cases hTurn
            | some result =>
                rcases result with ⟨fate, reset, world⟩
                rw [hHandled] at hTurn
                dsimp only at hTurn
                have hElse
                    (hNot : ∀ ret, fate ≠ .failed ret) :
                    Turned opts env recur root objectid in_dir s
                      (.inl (s.noted item items fate reset
                        world)) :=
                  .entry hLoops hItems hEntry hHandled
                    fun hIs => by
                      rcases hIs with ⟨ret, hIs⟩
                      exact absurd hIs (hNot ret)
                cases fate with
                | failed ret =>
                    dsimp only at hTurn
                    cases hIgnore : opts.ignore_errors with
                    | true =>
                        rw [hIgnore, if_pos rfl] at hTurn
                        cases hTurn
                        exact .entry hLoops hItems hEntry
                          hHandled fun _ => hIgnore
                    | false =>
                        rw [hIgnore, if_neg (by decide)] at hTurn
                        cases hTurn
                        exact .failed hLoops hItems hEntry
                          hHandled hIgnore
                | unmatched
                | other
                | existing
                | restored
                | leftOut =>
                    cases hTurn
                    exact hElse fun _ hIs => by cases hIs

/- Only a search below does not return. -/
theorem dirTurn_none
    {recur :
      FsRoot → Nat → List UInt8 → W → Option (Int × W)}
    {s : DirState W}
    (hTurn :
      dirTurn opts env recur root objectid in_dir s = none) :
    s.loops < 1024 ∧ ∃ item items, s.items = item :: items ∧
      isEntry objectid item = true ∧
      handleEntry opts env recur root in_dir item.dir_item
        s.world = none := by
  unfold dirTurn at hTurn
  by_cases hFull : s.loops ≥ 1024
  · rw [if_pos hFull] at hTurn
    cases hTurn
  · rw [if_neg hFull] at hTurn
    refine ⟨not_le.mp hFull, ?_⟩
    cases hItems : s.items with
    | nil =>
        rw [hItems] at hTurn
        cases hLeaves : s.leaves with
        | nil
        | cons leaf leaves =>
            rw [hLeaves] at hTurn
            cases hTurn
    | cons item items =>
        rw [hItems] at hTurn
        dsimp only at hTurn
        have hDir : item.key.objectid = objectid := by
          by_contra hNot
          rw [if_pos hNot] at hTurn
          cases hTurn
        have hType : item.key.type = BTRFS_DIR_INDEX_KEY := by
          by_contra hNot
          rw [if_neg (not_not.mpr hDir), if_pos hNot] at hTurn
          cases hTurn
        rw [if_neg (not_not.mpr hDir),
          if_neg (not_not.mpr hType)] at hTurn
        refine ⟨item, items, rfl, decide_eq_true ⟨hDir, hType⟩,
          ?_⟩
        cases hHandled : handleEntry opts env recur root in_dir
            item.dir_item s.world with
        | none => rfl
        | some result =>
            rcases result with ⟨fate, reset, world⟩
            rw [hHandled] at hTurn
            cases fate with
            | failed ret =>
                dsimp only at hTurn
                cases hIgnore : opts.ignore_errors with
                | true =>
                    rw [hIgnore, if_pos rfl] at hTurn
                    cases hTurn
                | false =>
                    rw [hIgnore, if_neg (by decide)] at hTurn
                    cases hTurn
            | unmatched
            | other
            | existing
            | restored
            | leftOut => cases hTurn

/- What a search below answers, with some turns. -/
def below
    (opts : Options)
    (env : Env W)
    (fuel : Nat)
    (root : FsRoot)
    (objectid : Nat)
    (in_dir : List UInt8)
    (w : W) : Option (Int × W) :=
  (searchDir opts env fuel root objectid in_dir w).map
    fun r => (r.1, r.2.1)

theorem searchLoop_succ
    (s : DirState W) :
    searchLoop opts env (fuel + 1) root objectid in_dir s =
      match dirTurn opts env (below opts env fuel) root objectid
          in_dir s with
      | none => none
      | some (.inr result) => some result
      | some (.inl s) =>
          searchLoop opts env fuel root objectid in_dir s :=
  rfl

/- A run is a turn, and the run from there on. -/
theorem searchLoop_turn
    {s : DirState W}
    {result : Int × DirState W}
    (hRun : searchLoop opts env (fuel + 1) root objectid in_dir
      s = some result) :
    ∃ answer,
      Turned opts env (below opts env fuel) root objectid in_dir
          s answer ∧
        (answer = .inr result ∨
          ∃ next, answer = .inl next ∧
            searchLoop opts env fuel root objectid in_dir next =
              some result) := by
  rw [searchLoop_succ] at hRun
  cases hTurn : dirTurn opts env (below opts env fuel) root
      objectid in_dir s with
  | none =>
      rw [hTurn] at hRun
      cases hRun
  | some answer =>
      rw [hTurn] at hRun
      refine ⟨answer, dirTurn_cases hTurn, ?_⟩
      cases answer with
      | inl next => exact .inr ⟨next, rfl, hRun⟩
      | inr result =>
          cases hRun
          exact .inl rfl

/- With errors ignored the loop itself ends with 0. -/
theorem searchLoop_ignore
    {s t : DirState W}
    {ret : Int}
    (hIgnore : opts.ignore_errors = true)
    (hRun : searchLoop opts env fuel root objectid in_dir s =
      some (ret, t)) :
    ret = 0 := by
  induction fuel generalizing s with
  | zero => cases hRun
  | succ fuel ih =>
      rcases searchLoop_turn hRun with
        ⟨answer, hTurned, hEnd | ⟨next, hNext, hRest⟩⟩
      · cases hTurned with
        | stop =>
            cases hEnd
            rfl
        | leaf
        | entry => cases hEnd
        | failed _ _ _ _ hStrict =>
            rw [hIgnore] at hStrict
            cases hStrict
      · exact ih hRest

theorem searchesBelow
    (hIgnore : opts.ignore_errors = true) :
    SearchesBelow (below opts env fuel) := by
  intro root objectid in_dir w ret w' hBelow
  rcases Option.map_eq_some_iff.mp hBelow with
    ⟨⟨ret, w', log⟩, hDir, hSame⟩
  cases hSame
  unfold searchDir searchWith at hDir
  cases hError : root.searchError objectid with
  | some code =>
      rw [hError] at hDir
      cases hDir
      have hLess := root.negative _ _ hError
      exact iff_of_true (by dsimp only; omega)
        (Option.some_ne_none _)
  | none =>
      rw [hError] at hDir
      rcases Option.map_eq_some_iff.mp hDir with
        ⟨⟨ret, t⟩, hLoop, hSame⟩
      cases hSame
      have hZero := searchLoop_ignore hIgnore hLoop
      exact iff_of_false (fun hNot => hNot hZero)
        (fun hNot => hNot rfl)

/- The walk of a loop that ends with 0. -/
theorem searchLoop_walked
    {s t : DirState W}
    (hOnce : ((turnsFrom objectid s.items s.leaves).filterMap
      id).Nodup)
    (hRun : searchLoop opts env fuel root objectid in_dir s =
      some (0, t)) :
    ∃ log, t.log = s.log ++ log ∧
      Walked opts env root in_dir s.loops
        (turnsFrom objectid s.items s.leaves) log := by
  induction fuel generalizing s with
  | zero => cases hRun
  | succ fuel ih =>
      rcases searchLoop_turn hRun with
        ⟨answer, hTurned, hEnd | ⟨next, hNext, hRest⟩⟩
      · cases hTurned with
        | stop hStop =>
            cases hEnd
            exact ⟨[], (List.append_nil _).symm,
              walked_end hStop⟩
        | leaf
        | entry => cases hEnd
        | @failed item items ret reset world hLoops hItems
            hEntry hHandled hStrict =>
            cases hEnd
            -- a call that failed does not end with 0
            cases hWanted : wanted opts in_dir item with
            | false =>
                rcases handleEntry_idle hWanted env
                    (below opts env fuel) root s.world with
                  ⟨fate, hIdle, hNot⟩
                rw [hIdle] at hHandled
                cases hHandled
                exact absurd rfl (hNot 0)
            | true =>
                have hTreated := handleEntry_wanted
                  (fun hIgnore => searchesBelow hIgnore)
                  hWanted hHandled
                exact absurd rfl (hTreated.failed 0 rfl)
      · cases hTurned with
        | stop
        | failed => cases hNext
        | @leaf leaf leaves hLoops hItems hLeaves =>
            cases hNext
            rw [hItems, hLeaves, turnsFrom_leaf] at hOnce ⊢
            rw [List.filterMap_cons_none rfl] at hOnce
            rcases ih hOnce hRest with ⟨log, hLog, hWalked⟩
            exact ⟨log, hLog, walked_leaf hLoops hWalked⟩
        | @entry item items fate reset world hLoops hItems
            hEntry hHandled hFailed =>
            cases hNext
            rw [hItems, turnsFrom_entry hEntry] at hOnce ⊢
            have hFirst : (item ::
                (turnsFrom objectid items s.leaves).filterMap
                  id).Nodup := hOnce
            have hBoth := List.nodup_cons.mp hFirst
            rcases ih hBoth.2 hRest with ⟨log, hLog, hWalked⟩
            refine ⟨⟨item, s.world, fate⟩ :: log, ?_, ?_⟩
            · rw [hLog]
              unfold DirState.noted
              rw [List.append_assoc, List.singleton_append]
            · cases hWanted : wanted opts in_dir item with
              | false =>
                  rcases handleEntry_idle hWanted env
                      (below opts env fuel) root s.world with
                    ⟨found, hIdle, _⟩
                  rw [hIdle] at hHandled
                  cases hHandled
                  exact walked_idle hLoops hWanted hWalked
              | true =>
                  have hTreated := handleEntry_wanted
                    (fun hIgnore => searchesBelow hIgnore)
                    hWanted hHandled
                  refine walked_wanted hLoops hWanted ?_
                    hTreated hFailed hWalked
                  intro hIn
                  apply hBoth.1
                  exact List.mem_filterMap.mpr
                    ⟨some item, hIn, rfl⟩

theorem searchDir_walked
    {w' : W}
    (hRun : searchDir opts env fuel root objectid in_dir w =
      some (0, w', log)) :
    Walked opts env root in_dir 0 (turnsOf root objectid)
      log := by
  unfold searchDir searchWith at hRun
  cases hError : root.searchError objectid with
  | some code =>
      rw [hError] at hRun
      cases hRun
      exact absurd (root.negative _ _ hError) (by decide)
  | none =>
      rw [hError] at hRun
      rcases Option.map_eq_some_iff.mp hRun with
        ⟨⟨ret, t⟩, hLoop, hSame⟩
      cases hSame
      have hFrom := fun hOnce => searchLoop_walked hOnce hLoop
      rcases hFrom (turnsOf_nodup root objectid) with
        ⟨log, hLog, hWalked⟩
      rw [hLog]
      exact hWalked

/- The entries of the directory are those of the walk. -/
theorem handles_iff :
    Handles opts root objectid in_dir log ↔
      ∀ item, some item ∈ turnsOf root objectid →
        wanted opts in_dir item = true →
          ∃ note ∈ log,
            note.item = item ∧ note.fate.Done := by
  constructor
  · intro hAll item hIn
    rcases (mem_turnsOf_iff root objectid item).mp hIn with
      ⟨hItem, hEntry⟩
    exact hAll item hItem hEntry
  · intro hAll item hItem hEntry
    exact hAll item
      ((mem_turnsOf_iff root objectid item).mpr
        ⟨hItem, hEntry⟩)

end Walk

----------
-- Every Entry Is Handled
----------

/-
  A search that ends with 0 has handled what is asked for
  exactly if there is no gap of 1024 turns, no directory is
  left out, and no call failed where errors are ignored.
-/
theorem searchDir_handles_iff
    {W : Type}
    (opts : Options)
    (env : Env W)
    (fuel : Nat)
    (root : FsRoot)
    (objectid : Nat)
    (in_dir : List UInt8)
    (w w' : W)
    (log : List (Note W))
    (hRun : searchDir opts env fuel root objectid in_dir w =
      some (0, w', log)) :
    Handles opts root objectid in_dir log ↔
      NoGap ((turnsOf root objectid).map (asked opts in_dir)) ∧
        (∀ item, some item ∈ turnsOf root objectid →
          wanted opts in_dir item →
            ¬ LeftOut opts env root item) ∧
        (opts.ignore_errors → ∀ note ∈ log,
          wanted opts in_dir note.item →
            ¬ Fails opts env root in_dir note.item.dir_item
              note.before) := by
  have hWalked := searchDir_walked hRun
  rw [handles_iff, hWalked.handles, reaches_iff (by omega),
    List.replicate_zero, List.nil_append]
  refine and_congr_right fun hNoGap => ?_
  have hAll := hWalked.handles.mpr
  rw [reaches_iff (by omega), List.replicate_zero,
    List.nil_append] at hAll
  constructor
  · intro hDone
    constructor
    · intro item hIn hWanted hOut
      rcases hAll ⟨hNoGap, hDone⟩ item hIn hWanted with
        ⟨note, hNote, rfl, hFate⟩
      rcases hWalked.noted note hNote hWanted with
        ⟨reset, hTreated, _⟩
      rw [hTreated.leftOut.mpr hOut] at hFate
      exact hFate.elim
    · intro hIgnore note hNote hWanted hFails
      rcases hWalked.noted note hNote hWanted with
        ⟨reset, hTreated, _⟩
      rcases (hTreated.fails hIgnore).mpr hFails with ⟨ret, hIs⟩
      have hFate := hDone note hNote hWanted
      rw [hIs] at hFate
      exact hFate.elim
  · intro hBoth note hNote hWanted
    rcases hWalked.noted note hNote hWanted with
      ⟨reset, hTreated, hIgnored⟩
    rcases hTreated.only with hDone | hOut | hFailed
    · exact hDone
    · exact absurd (hTreated.leftOut.mp hOut)
        (hBoth.1 note.item (hWalked.of_turns note hNote) hWanted)
    · have hIgnore := hIgnored hFailed
      exact absurd ((hTreated.fails hIgnore).mp hFailed)
        (hBoth.2 hIgnore note hNote hWanted)

----------
-- A Directory with a File and a Directory
----------

/- An empty place, where every call succeeds. -/
def emptyPlace : Env Unit where
  stat _ _ := false
  openFile _ _ := some ()
  copyFile _ _ _ _ := (0, ())
  mkdir _ _ := some ()
  readFsRoot _ := .error (-2)
  negative _ ret hRead := by
    cases hRead
    decide

/- No regex and no other option. -/
def plainOptions : Options where
  output_rootdir := [47]
  regNomatch _ := false
  overwrite := false
  get_snaps := false
  ignore_errors := false

/- An entry of a directory for an inode of it. -/
def entryOf
    (objectid index inode type : Nat)
    (name : List UInt8) : LeafItem where
  key := ⟨objectid, BTRFS_DIR_INDEX_KEY, index⟩
  dir_item :=
    { location := ⟨inode, 1, 0⟩
      type := type
      name := name }

theorem none_negative
    (_ : Nat)
    (e : Int)
    (hNone : none = some e) :
    e < 0 := by
  cases hNone

/- A file, a link, and a directory with a file of its own. -/
def smallRoot : FsRoot where
  objectid := 5
  offset := 0
  leaves :=
    [[entryOf 256 2 257 1 [97], entryOf 256 3 258 7 [98]],
      [entryOf 256 4 259 2 [99], entryOf 259 2 260 1 [100]]]
  searchError _ := none
  nonempty := by decide
  ascending := by decide
  negative := none_negative

/- The notes of the search for the entries of directory 256. -/
def smallLog : List (Note Unit) :=
  [⟨entryOf 256 2 257 1 [97], (), .restored⟩,
    ⟨entryOf 256 3 258 7 [98], (), .other⟩,
    ⟨entryOf 256 4 259 2 [99], (), .restored⟩]

theorem searchDir_handles_smallRoot :
    searchDir plainOptions emptyPlace 8 smallRoot 256 [] () =
        some (0, (), smallLog) ∧
      (Handles plainOptions smallRoot 256 [] smallLog ↔
        NoGap ((turnsOf smallRoot 256).map
            (asked plainOptions [])) ∧
          (∀ item, some item ∈ turnsOf smallRoot 256 →
            wanted plainOptions [] item →
              ¬ LeftOut plainOptions emptyPlace smallRoot
                item) ∧
          (plainOptions.ignore_errors → ∀ note ∈ smallLog,
            wanted plainOptions [] note.item →
              ¬ Fails plainOptions emptyPlace smallRoot []
                note.item.dir_item note.before)) :=
  ⟨rfl, searchDir_handles_iff plainOptions emptyPlace 8
    smallRoot 256 [] () () smallLog rfl⟩

----------
-- Links before a File
----------

/- 1024 turns without an entry that is asked for end a loop. -/
theorem searchLoop_idle
    {W : Type}
    {opts : Options}
    {objectid : Nat}
    {in_dir : List UInt8}
    (env : Env W)
    (fuel : Nat)
    (root : FsRoot)
    (s : DirState W)
    (hLoops : s.loops ≤ 1024)
    (hIdle : ∀ turn ∈
      (turnsFrom objectid s.items s.leaves).take
        (1024 - s.loops), asked opts in_dir turn = false)
    (hFuel : 1024 - s.loops < fuel) :
    ∃ t, searchLoop opts env fuel root objectid in_dir s =
      some (0, t) := by
  induction fuel generalizing s with
  | zero => omega
  | succ fuel ih =>
      -- the turn ahead is not asked for
      have hFirst : ∀ turn rest,
          s.loops < 1024 →
          turnsFrom objectid s.items s.leaves = turn :: rest →
            asked opts in_dir turn = false ∧
              ∀ later ∈ rest.take (1024 - (s.loops + 1)),
                asked opts in_dir later = false := by
        intro turn rest hLess hTurns
        have hSucc :
            1024 - s.loops = 1024 - (s.loops + 1) + 1 := by
          omega
        rw [hTurns, hSucc, List.take_succ_cons] at hIdle
        exact List.forall_mem_cons.mp hIdle
      have hEntryTurns : ∀ item items,
          s.items = item :: items →
          isEntry objectid item = true →
            turnsFrom objectid s.items s.leaves =
              some item :: turnsFrom objectid items s.leaves := by
        intro item items hItems hEntry
        rw [hItems, turnsFrom_entry hEntry]
      rw [searchLoop_succ]
      cases hTurn : dirTurn opts env (below opts env fuel) root
          objectid in_dir s with
      | none =>
          rcases dirTurn_none hTurn with
            ⟨hLess, item, items, hItems, hEntry, hNone⟩
          have hHere := hFirst _ _ hLess
            (hEntryTurns item items hItems hEntry)
          rcases handleEntry_idle hHere.1 env
              (below opts env fuel) root s.world with ⟨fate, hSome, _⟩
          rw [hNone] at hSome
          cases hSome
      | some answer =>
          cases dirTurn_cases hTurn with
          | stop => exact ⟨s, rfl⟩
          | leaf hLess hItems hLeaves =>
              refine ih _ (by dsimp only; omega) ?_
                (by dsimp only; omega)
              refine (hFirst none _ hLess ?_).2
              rw [hItems, hLeaves, turnsFrom_leaf]
          | @entry item items fate reset world hLess hItems
              hEntry hHandled hFailed =>
              have hHere := hFirst _ _ hLess
                (hEntryTurns item items hItems hEntry)
              rcases handleEntry_idle hHere.1 env
                  (below opts env fuel) root s.world with
                ⟨found, hSome, _⟩
              rw [hSome] at hHandled
              cases hHandled
              have hNext : (s.noted item items fate false
                  s.world).loops = s.loops + 1 := rfl
              exact ih _ (by omega) hHere.2 (by omega)
          | @failed item items ret reset world hLess hItems
              hEntry hHandled hStrict =>
              have hHere := hFirst _ _ hLess
                (hEntryTurns item items hItems hEntry)
              rcases handleEntry_idle hHere.1 env
                  (below opts env fuel) root s.world with
                ⟨found, hSome, hNot⟩
              rw [hSome] at hHandled
              cases hHandled
              exact absurd rfl (hNot ret)

/- Names of two bytes, one for each entry. -/
def manyEntry
    (n : Nat) : LeafItem :=
  entryOf 256 (n + 2) (n + 257) (if n = 1024 then 1 else 7)
    [UInt8.ofNat (n / 64 + 97), UInt8.ofNat (n % 64 + 97)]

/- A leaf of 64 KiB with 1024 links and a file behind them. -/
def manyLinks : FsRoot where
  objectid := 5
  offset := 0
  leaves := [(List.range 1025).map manyEntry]
  searchError _ := none
  nonempty := by simp
  ascending := by
    unfold Ascending
    rw [List.flatten_singleton, List.pairwise_map]
    refine List.pairwise_lt_range.imp fun hLess => ?_
    rw [Key.lt_iff]
    unfold manyEntry entryOf
    dsimp only
    omega
  negative := none_negative

/- The walk is at the first entry of the leaf. -/
theorem searchSlot_manyLinks :
    searchSlot LeafItem.key ⟨256, BTRFS_DIR_INDEX_KEY, 0⟩
        manyLinks.leaves =
      ⟨[], [], (List.range 1025).map manyEntry, []⟩ := by
  have hRange : List.range 1025 =
      0 :: (List.range 1024).map Nat.succ :=
    List.range_succ_eq_map
  unfold manyLinks
  dsimp only
  rw [hRange, List.map_cons]
  rw [searchSlot_cons_of_neg (by simp),
    List.takeWhile_cons_of_neg (by decide),
    List.dropWhile_cons_of_neg (by decide)]

theorem turnsOf_manyLinks :
    turnsOf manyLinks 256 =
      (List.range 1025).map (some ∘ manyEntry) := by
  unfold turnsOf
  rw [searchSlot_manyLinks]
  dsimp only
  unfold turnsFrom
  rw [List.flatMap_nil, List.append_nil, List.map_map,
    List.takeWhile_eq_self_iff]
  intro turn hTurn
  rcases List.mem_map.mp hTurn with ⟨n, _, rfl⟩
  rfl

/- Only the file is asked for. -/
theorem asked_manyEntry
    (n : Nat) :
    asked plainOptions [] (some (manyEntry n)) =
      decide (n = 1024) := by
  unfold asked wanted manyEntry entryOf
  by_cases hFile : n = 1024
  · simp [hFile, plainOptions]
    decide
  · simp [hFile, BTRFS_FT_REG_FILE, BTRFS_FT_DIR]

/- The file is behind 1024 turns, and it is not restored. -/
theorem searchDir_loses_file :
    ∃ log,
      searchDir plainOptions emptyPlace 1025 manyLinks 256 [] ()
        = some (0, (), log) ∧
      ¬ Handles plainOptions manyLinks 256 [] log := by
  have hIdle : ∀ turn ∈ (turnsOf manyLinks 256).take 1024,
      asked plainOptions [] turn = false := by
    intro turn hTurn
    rw [turnsOf_manyLinks, ← List.map_take, List.take_range]
      at hTurn
    rcases List.mem_map.mp hTurn with ⟨n, hn, rfl⟩
    have hLess := List.mem_range.mp hn
    rw [Function.comp_apply, asked_manyEntry]
    exact decide_eq_false (by omega)
  have hGap : ¬ NoGap ((turnsOf manyLinks 256).map
      (asked plainOptions [])) := by
    have hAsked : ∀ n < 1025,
        ((turnsOf manyLinks 256).map (asked plainOptions []))[n]?
          = some (decide (n = 1024)) := by
      intro n hn
      rw [turnsOf_manyLinks, List.map_map, List.getElem?_map,
        List.getElem?_range hn, Option.map_some,
        ← asked_manyEntry]
      rfl
    intro hNoGap
    refine hNoGap 0 (fun k hk => ?_) 1024 le_rfl ?_
    · rw [hAsked (0 + k) (by omega)]
      exact congrArg some (decide_eq_false (by omega))
    · rw [hAsked 1024 (by decide)]
      rfl
  have hTurns :
      turnsFrom 256 ((List.range 1025).map manyEntry) [] =
        turnsOf manyLinks 256 := by
    unfold turnsOf
    rw [searchSlot_manyLinks]
  rw [← hTurns] at hIdle
  generalize hItems : (List.range 1025).map manyEntry = items
    at hIdle
  rcases searchLoop_idle emptyPlace 1025 manyLinks
      ⟨items, [], 0, (), []⟩ (Nat.zero_le _) hIdle
      (Nat.lt_succ_self _) with
    ⟨t, hLoop⟩
  have hSlot := searchSlot_manyLinks
  rw [hItems] at hSlot
  have hRun : searchDir plainOptions emptyPlace 1025 manyLinks
      256 [] () = some (0, t.world, t.log) := by
    unfold searchDir searchWith
    rw [hSlot]
    dsimp only
    rw [hLoop]
    rfl
  have hWalked := searchDir_walked hRun
  refine ⟨t.log, hRun, fun hHandles => hGap ?_⟩
  rw [handles_iff, hWalked.handles,
    reaches_iff (Nat.zero_le _), List.replicate_zero,
    List.nil_append] at hHandles
  exact hHandles.1

end RestoreDir

end BtrfsProgs
