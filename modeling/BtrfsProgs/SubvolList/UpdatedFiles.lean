import BtrfsProgs.Basic
import BtrfsProgs.Key
import BtrfsProgs.Lib.Decimal

/-
  `btrfs_list_find_updated_files` and
  `print_single_volume_info_default`, from `btrfs-list.c`, by
  what they write to buffers of a fixed size.

  Main declarations:
    * `findUpdatedFiles` and `printSingleVolumeInfoDefault`
    * `listed`
    * `listing_inside_iff`
-/

----------
-- Writes
----------

namespace BtrfsProgs

namespace UpdatedFiles

/- A text that `sprintf` writes to a row of a buffer. -/
structure Write where
  row : Nat
  rows : Nat
  size : Nat
  text : List UInt8

/- The row is there, with room for the text and its end. -/
def Write.Inside
    (w : Write) : Prop :=
  w.row < w.rows ∧ w.text.length < w.size

----------
-- Changed Files
----------

/-
  An item of an answer, with the generation and the type of the
  file extent in it, if it has any data.
-/
structure Item where
  key : Key
  extent : Option (Nat × Nat)

/- What a call of the search gives; an error is an `errno`. -/
abbrev Answer : Type := Except Nat (List Item)

/- The item that stands for one without data. -/
def backup : Nat × Nat := (0, 0)

def BTRFS_EXTENT_DATA_KEY : Nat := 108

/- `BTRFS_FILE_EXTENT_INLINE`, `_REG` and `_PREALLOC`. -/
def handledTypes : List Nat := [0, 1, 2]

/- What is written to `file_change_info` for an extent. -/
structure Line where
  objectid : Nat
  found_gen : Nat
  name : List UInt8

def changeText
    (file_change_num : Nat)
    (line : Line) : List UInt8 :=
  ascii "<span font_desc='10'>changed location " ++
    Decimal.text file_change_num ++ ascii " ; inode: " ++
    Decimal.text line.objectid ++ ascii " ;  gen: " ++
    Decimal.text line.found_gen ++ ascii "   ;filename: " ++
    line.name ++ ascii "</span>"

def changeWrite
    (file_change_num : Nat)
    (line : Line) : Write :=
  ⟨file_change_num, 127, 256, changeText file_change_num line⟩

/- The variables of the loop, with what was written so far. -/
structure Printer where
  file_change_num : Nat
  cache_ino : Nat
  cache_full_name : Option (List UInt8)
  writes : List Write

section Files

/- `ino_resolve`, which gives a name for an inode or `NULL`. -/
variable (inoResolve : Nat → Option (List UInt8))

/- `print_one_extent`. -/
def printOneExtent
    (objectid found_gen type : Nat)
    (p : Printer) : Printer × Int :=
  let cached :=
    if objectid = p.cache_ino then p.cache_full_name else none
  let p :=
    match cached with
    | some _ => p
    | none =>
        { p with
          cache_ino := objectid
          cache_full_name := inoResolve objectid }
  match p.cache_full_name with
  | none => (p, -5)
  | some name =>
      if type ∉ handledTypes then (p, -5)
      else
        ({ p with
            file_change_num := p.file_change_num + 1
            writes := p.writes ++
              [changeWrite p.file_change_num
                ⟨objectid, found_gen, name⟩] }, 0)

/- One turn, for an item. -/
def itemTurn
    (oldest_gen : Nat)
    (p : Printer)
    (item : Item) : Printer :=
  let (found_gen, type) := item.extent.getD backup
  if item.key.type = BTRFS_EXTENT_DATA_KEY ∧
      oldest_gen ≤ found_gen then
    (printOneExtent inoResolve item.key.objectid found_gen type
      p).1
  else p

/- Whether there is no key behind the last one of an answer. -/
def atEnd
    (items : List Item) : Bool :=
  items.getLast?.any fun item =>
    item.key.offset = 2 ^ 64 - 1 ∧
      item.key.objectid = 2 ^ 64 - 1

/- The loop, for the answers of the search in turn. -/
def searchLoop
    (oldest_gen : Nat) : List Answer → Printer → Printer
  | .ok (item :: items) :: answers, p =>
      let p := (item :: items).foldl
        (itemTurn inoResolve oldest_gen) p
      if atEnd (item :: items) then p
      else searchLoop oldest_gen answers p
  | _, p => p

/- The writes of `btrfs_list_find_updated_files`. -/
def findUpdatedFiles
    (oldest_gen : Nat)
    (answers : List Answer) : List Write :=
  (searchLoop inoResolve oldest_gen answers
    ⟨0, 0, none, []⟩).writes

----------
-- What There Is to List
----------

/- The items of the answers up to the one that is the last. -/
def found : List Answer → List Item
  | .ok (item :: items) :: answers =>
      (item :: items) ++
        if atEnd (item :: items) then [] else found answers
  | _ => []

/- An extent that changed, of a type and a file with a name. -/
def lineOf
    (oldest_gen : Nat)
    (item : Item) : Option Line :=
  let (found_gen, type) := item.extent.getD backup
  if item.key.type = BTRFS_EXTENT_DATA_KEY ∧
      oldest_gen ≤ found_gen ∧ type ∈ handledTypes then
    (inoResolve item.key.objectid).map fun name =>
      ⟨item.key.objectid, found_gen, name⟩
  else none

/- All of them, in order. -/
def listed
    (oldest_gen : Nat)
    (answers : List Answer) : List Line :=
  (found answers).filterMap (lineOf inoResolve oldest_gen)

/- The state when some lines were written. -/
structure Wrote
    (lines : List Line)
    (p : Printer) : Prop where
  count : p.file_change_num = lines.length
  cached : p.cache_full_name = none ∨
    p.cache_full_name = inoResolve p.cache_ino
  writes : p.writes = lines.mapIdx changeWrite

variable {inoResolve} {oldest_gen : Nat} {p : Printer}
  {lines : List Line}

theorem wrote_extent
    (hWrote : Wrote inoResolve lines p)
    (objectid found_gen type : Nat) :
    Wrote inoResolve (lines ++
        if type ∈ handledTypes then
          ((inoResolve objectid).map fun name =>
            ⟨objectid, found_gen, name⟩).toList
        else [])
      (printOneExtent inoResolve objectid found_gen type p).1 := by
  rcases hWrote with ⟨hCount, hCached, hWrites⟩
  -- The name is the one of the inode, cached or not.
  have hName : ∃ q : Printer,
      (match if objectid = p.cache_ino then p.cache_full_name
          else none with
        | some _ => p
        | none =>
            { p with
              cache_ino := objectid
              cache_full_name := inoResolve objectid }) = q ∧
        Wrote inoResolve lines q ∧
          q.cache_full_name = inoResolve objectid := by
    refine ⟨_, rfl, ?_⟩
    cases hHit : if objectid = p.cache_ino then p.cache_full_name
        else none with
    | none => exact ⟨⟨hCount, .inr rfl, hWrites⟩, rfl⟩
    | some name =>
        split_ifs at hHit with hSame
        refine ⟨⟨hCount, hCached, hWrites⟩, ?_⟩
        rcases hCached with hNone | hName
        · rw [hNone] at hHit
          cases hHit
        · rw [hName, hSame]
  rcases hName with ⟨q, hQ, ⟨hCount, hCached, hWrites⟩, hName⟩
  unfold printOneExtent
  dsimp only
  rw [hQ, hName]
  cases hFile : inoResolve objectid with
  | none =>
      dsimp only
      rw [Option.map_none, Option.toList_none, ite_self,
        List.append_nil]
      exact ⟨hCount, hCached, hWrites⟩
  | some name =>
      dsimp only
      by_cases hType : type ∈ handledTypes
      · rw [if_neg (not_not.mpr hType), if_pos hType]
        rw [hName, hFile] at hCached
        refine ⟨by simp [hCount], hCached, ?_⟩
        dsimp only
        rw [hWrites, hCount]
        exact List.mapIdx_concat.symm
      · rw [if_pos hType, if_neg hType, List.append_nil]
        exact ⟨hCount, hCached, hWrites⟩

theorem wrote_item
    (hWrote : Wrote inoResolve lines p)
    (item : Item) :
    Wrote inoResolve
      (lines ++ (lineOf inoResolve oldest_gen item).toList)
      (itemTurn inoResolve oldest_gen p item) := by
  unfold lineOf itemTurn
  cases item.extent.getD backup with
  | mk found_gen type =>
      dsimp only
      by_cases hChanged :
          item.key.type = BTRFS_EXTENT_DATA_KEY ∧
            oldest_gen ≤ found_gen
      · have hExtent := wrote_extent hWrote item.key.objectid
          found_gen type
        rw [if_pos hChanged]
        by_cases hType : type ∈ handledTypes
        · rw [if_pos ⟨hChanged.1, hChanged.2, hType⟩]
          rwa [if_pos hType] at hExtent
        · rw [if_neg fun hAll => hType hAll.2.2]
          rwa [if_neg hType] at hExtent
      · rw [if_neg hChanged,
          if_neg fun hAll => hChanged ⟨hAll.1, hAll.2.1⟩]
        simpa using hWrote

theorem wrote_items
    (hWrote : Wrote inoResolve lines p)
    (items : List Item) :
    Wrote inoResolve
      (lines ++ items.filterMap (lineOf inoResolve oldest_gen))
      (items.foldl (itemTurn inoResolve oldest_gen) p) := by
  induction items generalizing lines p with
  | nil => simpa using hWrote
  | cons item items ih =>
      have hLater := ih (@wrote_item _ oldest_gen _ _ hWrote item)
      have hLines : lines ++ (item :: items).filterMap
          (lineOf inoResolve oldest_gen) =
          lines ++ (lineOf inoResolve oldest_gen item).toList ++
            items.filterMap (lineOf inoResolve oldest_gen) := by
        cases hLine : lineOf inoResolve oldest_gen item with
        | none
        | some line => simp [hLine]
      rw [hLines]
      exact hLater

/- The run writes a line for each extent there is to list. -/
theorem wrote_run
    (hWrote : Wrote inoResolve lines p)
    (answers : List Answer) :
    Wrote inoResolve
      (lines ++ listed inoResolve oldest_gen answers)
      (searchLoop inoResolve oldest_gen answers p) := by
  unfold listed
  fun_induction searchLoop inoResolve oldest_gen answers p
    generalizing lines with
  | case1 item items answers p q =>
      rename_i hEnd
      rw [found, if_pos hEnd, List.append_nil]
      exact wrote_items hWrote _
  | case2 item items answers p q =>
      rename_i hEnd ih
      rw [found, if_neg hEnd, List.filterMap_append,
        ← List.append_assoc]
      exact ih (wrote_items hWrote _)
  | case3 answers p hOther =>
      have hNone : found answers = [] := by
        unfold found
        split
        · exact absurd rfl (hOther _ _ _)
        · rfl
      rw [hNone]
      simpa using hWrote

end Files

----------
-- A Subvolume
----------

/- The numbers of `struct root_info` that are printed. -/
structure Subvol where
  root_id : UInt64
  gen : UInt64
  top_id : UInt64

/-
  The writes of `print_single_volume_info_default`, by the
  columns, of which each needs to be printed or not.
-/
def printSingleVolumeInfoDefault
    (needPrint : List Bool)
    (subv : Subvol) : List Write :=
  (needPrint.filter id).flatMap fun _ =>
    [⟨0, 1, 6, Decimal.text subv.root_id.toNat⟩,
      ⟨0, 1, 30, Decimal.text subv.gen.toNat⟩,
      ⟨0, 1, 5, Decimal.text subv.top_id.toNat⟩]

theorem text_lt_iff
    {n k : Nat}
    (hPos : 0 < k) :
    (Decimal.text n).length < k + 1 ↔ n < 10 ^ k := by
  constructor
  · intro hLength
    unfold Decimal.text at hLength
    by_cases hZero : n = 0
    · rw [hZero]
      exact Nat.pow_pos (by decide)
    · rw [if_neg hZero, List.length_reverse, List.length_map]
        at hLength
      exact (Nat.digits_length_le_iff (by decide) n).mp
        (Nat.le_of_lt_succ hLength)
  · exact fun hLess =>
      Nat.lt_succ_of_le (Decimal.length_text_le hPos hLess)

theorem subvol_inside_iff
    (needPrint : List Bool)
    (subv : Subvol) :
    (∀ w ∈ printSingleVolumeInfoDefault needPrint subv,
        w.Inside) ↔
      (true ∈ needPrint → subv.root_id.toNat < 10 ^ 5 ∧
        subv.top_id.toNat < 10 ^ 4) := by
  have hGen : (Decimal.text subv.gen.toNat).length < 30 :=
    (text_lt_iff (by decide)).mpr
      (subv.gen.toNat_lt.trans (by decide))
  constructor
  · intro hInside hPrint
    have hEach := fun w hMem => hInside w
      (List.mem_flatMap.mpr
        ⟨true, List.mem_filter.mpr ⟨hPrint, rfl⟩, hMem⟩)
    exact ⟨(text_lt_iff (by decide)).mp (hEach _
        (List.mem_cons_self)).2,
      (text_lt_iff (by decide)).mp (hEach _ (List.mem_cons_of_mem _
        (List.mem_cons_of_mem _ List.mem_cons_self))).2⟩
  · intro hSmall w hMem
    rcases List.mem_flatMap.mp hMem with ⟨b, hPrint, hWrite⟩
    rcases List.mem_filter.mp hPrint with ⟨hColumn, rfl⟩
    have hBoth := hSmall hColumn
    simp only [List.mem_cons, List.not_mem_nil,
      or_false] at hWrite
    rcases hWrite with rfl | rfl | rfl
    · exact ⟨Nat.one_pos, (text_lt_iff (by decide)).mpr hBoth.1⟩
    · exact ⟨Nat.one_pos, hGen⟩
    · exact ⟨Nat.one_pos, (text_lt_iff (by decide)).mpr hBoth.2⟩

theorem lines_inside_iff
    (lines : List Line) :
    (∀ w ∈ lines.mapIdx changeWrite, w.Inside) ↔
      lines.length ≤ 127 ∧
        ∀ k line, lines[k]? = some line →
          (changeText k line).length ≤ 255 := by
  have hMem : ∀ w, w ∈ lines.mapIdx changeWrite ↔
      ∃ k line, lines[k]? = some line ∧ changeWrite k line = w := by
    intro w
    simp [List.mem_iff_getElem?]
  constructor
  · intro hInside
    have hEach := fun k line hLine =>
      hInside _ ((hMem _).mpr ⟨k, line, hLine, rfl⟩)
    constructor
    · by_contra hMany
      have hRow := (hEach 127 _ (List.getElem?_eq_getElem
        (Nat.not_le.mp hMany))).1
      exact absurd hRow (lt_irrefl 127)
    · exact fun k line hLine =>
        Nat.le_of_lt_succ (hEach k line hLine).2
  · intro hFits w hWrite
    rcases (hMem w).mp hWrite with ⟨k, line, hLine, rfl⟩
    rcases List.getElem?_eq_some_iff.mp hLine with ⟨hLess, _⟩
    exact ⟨hLess.trans_le hFits.1,
      Nat.lt_succ_of_le (hFits.2 k line hLine)⟩

/-
  No buffer is overrun just when at most 127 extents are listed,
  each with a text of at most 255 bytes, and the ids of a
  subvolume that is printed have at most 5 and 4 digits.
-/
theorem listing_inside_iff
    (inoResolve : Nat → Option (List UInt8))
    (oldest_gen : Nat)
    (answers : List Answer)
    (needPrint : List Bool)
    (subv : Subvol) :
    ((∀ w ∈ findUpdatedFiles inoResolve oldest_gen answers,
        w.Inside) ∧
      ∀ w ∈ printSingleVolumeInfoDefault needPrint subv,
        w.Inside) ↔
      ((listed inoResolve oldest_gen answers).length ≤ 127 ∧
        ∀ k line,
          (listed inoResolve oldest_gen answers)[k]? = some line →
            (changeText k line).length ≤ 255) ∧
        (true ∈ needPrint → subv.root_id.toNat < 10 ^ 5 ∧
          subv.top_id.toNat < 10 ^ 4) := by
  have hRun : findUpdatedFiles inoResolve oldest_gen answers =
      (listed inoResolve oldest_gen answers).mapIdx
        changeWrite := by
    have hStart : Wrote inoResolve [] ⟨0, 0, none, []⟩ :=
      ⟨rfl, .inl rfl, rfl⟩
    exact (wrote_run hStart answers).writes
  rw [hRun, lines_inside_iff, subvol_inside_iff]

/- A root id of six digits does not fit in `root_id_str`. -/
theorem listing_overrun :
    ¬ ∀ w ∈ printSingleVolumeInfoDefault [true]
        ⟨100000, 7, 5⟩, w.Inside := by
  rw [subvol_inside_iff]
  decide

end UpdatedFiles

end BtrfsProgs
