import BtrfsProgs.Qgroup.Lookup
import BtrfsProgs.Qgroup.ParseId

/-
  The table of qgroups, from `qgroup.c`.

  What is referenced and what is exclusive is measured without
  a sign and printed with one: from `2 ^ 63` up to `10 ^ 19`
  the text has one character more.

  Main declarations:
    * `Column`
    * `updateAll` and `printAllQgroups`
    * `Aligned` and `ColumnRegular`
    * `qgroupTable_aligned_iff`
-/

----------
-- Columns
----------

namespace BtrfsProgs

namespace Qgroup

open Decimal

/- `enum btrfs_qgroup_column_enum`. -/
inductive Column where
  | qgroupid
  | rfer
  | excl
  | max_rfer
  | max_excl
  | parent
  | child
deriving Repr, DecidableEq

def columns : List Column :=
  [.qgroupid, .rfer, .excl, .max_rfer, .max_excl, .parent,
    .child]

/- The names and first widths of `btrfs_qgroup_columns`. -/
def Column.name : Column → List UInt8
  | qgroupid => ascii "qgroupid"
  | rfer => ascii "rfer"
  | excl => ascii "excl"
  | max_rfer => ascii "max_rfer"
  | max_excl => ascii "max_excl"
  | parent => ascii "parent"
  | child => ascii "child"

def initialLen : Column → Nat
  | .qgroupid => 8
  | .rfer => 4
  | .excl => 4
  | .max_rfer => 8
  | .max_excl => 8
  | .parent => 7
  | .child => 5

def comma : UInt8 := 44

def minus : UInt8 := 45

def blank : UInt8 := 32

/- A length that is an `int`. -/
def intLen
    (len : Nat) : Option Nat :=
  if len < 2 ^ 31 then some len else none

/- `"%lld"` for 64 bits. -/
def signedText
    (v : Nat) : List UInt8 :=
  if v < 2 ^ 63 then text v else minus :: text (2 ^ 64 - v)

----------
-- Widths
----------

/- The loop on a list in `__update_columns_max_len`. -/
def listLen : List Nat → Nat
  | [] => 0
  | [id] => (qgroupidText id).length
  | id :: rest => (qgroupidText id).length + 1 + listLen rest

/-
  The length that is taken for a cell; `none` is the walk of a
  list of zeros, or a length that is no `int`.
-/
def measure
    (bq : BtrfsQgroup) : Column → Option Nat
  | .qgroupid => some (qgroupidText bq.qgroupid).length
  | .rfer => some (text bq.rfer).length
  | .excl => some (text bq.excl).length
  | .max_rfer => some (text bq.max_rfer).length
  | .max_excl => some (text bq.max_excl).length
  | .parent => bq.qgroups.bind fun list => intLen (listLen list)
  | .child => bq.members.bind fun list => intLen (listLen list)

/- `__update_columns_max_len`. -/
def updateColumn
    (bq : BtrfsQgroup)
    (max_len : Column → Nat)
    (column : Column) : Option (Column → Nat) :=
  (measure bq column).map fun len =>
    if max_len column < len then
      Function.update max_len column len
    else max_len

/- `update_columns_max_len`, for some columns. -/
def updateColumns
    (need_print : Column → Bool)
    (bq : BtrfsQgroup)
    (max_len : Column → Nat) :
    List Column → Option (Column → Nat)
  | [] => some max_len
  | column :: rest =>
      if need_print column then
        (updateColumn bq max_len column).bind fun max_len =>
          updateColumns need_print bq max_len rest
      else updateColumns need_print bq max_len rest

/- Its calls for the qgroups that are listed. -/
def updateAll
    (need_print : Column → Bool)
    (max_len : Column → Nat) :
    List BtrfsQgroup → Option (Column → Nat)
  | [] => some max_len
  | entry :: rest =>
      (updateColumns need_print entry max_len columns).bind
        fun max_len => updateAll need_print max_len rest

----------
-- Lines
----------

/- The loops of `print_parent_column`, `print_child_column`. -/
def listText : List Nat → List UInt8
  | [] => []
  | [id] => qgroupidText id
  | id :: rest => qgroupidText id ++ comma :: listText rest

def printList
    (list : List Nat) : List UInt8 :=
  if list = [] then ascii "---" else listText list

/- The text of a cell; `none` is the walk of a list of zeros. -/
def cellText
    (bq : BtrfsQgroup) : Column → Option (List UInt8)
  | .qgroupid => some (qgroupidText bq.qgroupid)
  | .rfer => some (signedText bq.rfer)
  | .excl => some (signedText bq.excl)
  | .max_rfer => some (text bq.max_rfer)
  | .max_excl => some (text bq.max_excl)
  | .parent => bq.qgroups.map printList
  | .child => bq.members.map printList

/-
  `while (len--)`, which from below zero runs through all of
  `int`.
-/
def addBlank
    (max_len len : Nat) : Option (List UInt8) :=
  if len ≤ max_len then
    some (List.replicate (max_len - len) blank)
  else none

/- `print_qgroup_column`, and the blank between columns. -/
def printColumn
    (max_len : Column → Nat)
    (bq : BtrfsQgroup)
    (column : Column) : Option (List UInt8) :=
  (cellText bq column).bind fun s =>
    (addBlank (max_len column) s.length).map fun pad =>
      s ++ (pad ++ if column = .child then [] else [blank])

/- The columns of the two lines of `print_table_head`. -/
def headColumn
    (max_len : Column → Nat)
    (column : Column) : Option (List UInt8) :=
  (addBlank (max_len column) column.name.length).map fun pad =>
    column.name ++ (pad ++ [blank])

def dashes
    (column : Column) : List UInt8 :=
  List.replicate column.name.length minus

def dashColumn
    (max_len : Column → Nat)
    (column : Column) : Option (List UInt8) :=
  (addBlank (max_len column) column.name.length).map fun pad =>
    dashes column ++ blank :: pad

/- A line, of the columns that are printed. -/
def printLine
    (need_print : Column → Bool)
    (print : Column → Option (List UInt8)) :
    List Column → Option (List UInt8)
  | [] => some []
  | column :: rest =>
      if need_print column then
        (print column).bind fun s =>
          (printLine need_print print rest).map (s ++ ·)
      else printLine need_print print rest

def printRows
    (need_print : Column → Bool)
    (max_len : Column → Nat) :
    List BtrfsQgroup → Option (List (List UInt8))
  | [] => some []
  | entry :: rest =>
      (printLine need_print (printColumn max_len entry)
        columns).bind fun row =>
          (printRows need_print max_len rest).map (row :: ·)

/- `print_all_qgroups`, line by line. -/
def printAllQgroups
    (need_print : Column → Bool)
    (max_len : Column → Nat)
    (qgroups : List BtrfsQgroup) :
    Option (List (List UInt8)) :=
  (printLine need_print (headColumn max_len) columns).bind
    fun head =>
      (printLine need_print (dashColumn max_len) columns).bind
        fun line =>
          (printRows need_print max_len qgroups).map fun rows =>
            head :: line :: rows

----------
-- Alignment
----------

/- Where a column starts, with columns of some widths. -/
def startOf
    (need_print : Column → Bool)
    (width : Column → Nat)
    (column : Column) : List Column → Nat
  | [] => 0
  | c :: rest =>
      if c = column then 0
      else
        (if need_print c then width c else 0) +
          startOf need_print width column rest

/- The column starts behind blanks for those before it. -/
def position
    (need_print : Column → Bool)
    (max_len : Column → Nat)
    (column : Column) : Nat :=
  startOf need_print (max_len · + 1) column columns

/- The line has a text at a position. -/
def StandsIn
    (line : List UInt8)
    (start : Nat)
    (s : List UInt8) : Prop :=
  ∃ front rest, line = front ++ (s ++ rest) ∧
    front.length = start

/- In every line the columns have the same positions. -/
def LinesUp
    (need_print : Column → Bool)
    (max_len : Column → Nat)
    (qgroups : List BtrfsQgroup)
    (table : List (List UInt8)) : Prop :=
  ∃ head line rows, table = head :: line :: rows ∧
    ∀ c, need_print c = true →
      StandsIn head (position need_print max_len c) c.name ∧
        StandsIn line (position need_print max_len c)
          (dashes c) ∧
        List.Forall₂
          (fun bq row => ∃ s, cellText bq c = some s ∧
            StandsIn row (position need_print max_len c) s)
          qgroups rows

/- No cell of the column is longer than its width. -/
def Fits
    (max_len : Column → Nat)
    (qgroups : List BtrfsQgroup)
    (column : Column) : Prop :=
  column.name.length ≤ max_len column ∧
    ∀ bq ∈ qgroups, ∃ s, cellText bq column = some s ∧
      s.length ≤ max_len column

/-
  With the widths of the qgroups that are listed everything
  fits, and in any order they make a table that lines up.
-/
def Aligned
    (need_print : Column → Bool)
    (qgroups : List BtrfsQgroup) : Prop :=
  ∃ max_len,
    updateAll need_print initialLen qgroups = some max_len ∧
      (∀ c, need_print c = true → Fits max_len qgroups c) ∧
      ∀ sorted, sorted.Perm qgroups → ∃ table,
        printAllQgroups need_print max_len sorted =
            some table ∧
          LinesUp need_print max_len sorted table

/-
  With a value whose text has one character more than was
  measured, there is another one of 20 digits.
-/
def SignsFit
    (values : List Nat) : Prop :=
  (∃ v ∈ values, 2 ^ 63 ≤ v ∧ v < 10 ^ 19) →
    ∃ v ∈ values, 10 ^ 19 ≤ v

/- What a column needs: lists that are set up, and signs. -/
def ColumnRegular
    (qgroups : List BtrfsQgroup) : Column → Prop
  | .rfer => SignsFit (qgroups.map (·.rfer))
  | .excl => SignsFit (qgroups.map (·.excl))
  | .parent => ∀ bq ∈ qgroups, ∃ list,
      bq.qgroups = some list ∧ listLen list < 2 ^ 31
  | .child => ∀ bq ∈ qgroups, ∃ list,
      bq.members = some list ∧ listLen list < 2 ^ 31
  | _ => True

----------
-- The Widths
----------

section Widths

variable {need_print : Column → Bool}
variable {m m' : Column → Nat}
variable {bq : BtrfsQgroup} {qgroups : List BtrfsQgroup}
variable {c : Column}

theorem mem_columns
    (c : Column) : c ∈ columns := by
  cases c <;> decide

theorem columns_nodup : columns.Nodup := by
  decide

/- The width is that of the longest cell, or the first one. -/
structure Widths
    (qgroups : List BtrfsQgroup)
    (m m' : Column → Nat)
    (c : Column) : Prop where
  base : m c ≤ m' c
  covers :
    ∀ bq ∈ qgroups, ∃ len, measure bq c = some len ∧ len ≤ m' c
  tight :
    m' c = m c ∨ ∃ bq ∈ qgroups, measure bq c = some (m' c)

theorem updateColumn_some
    (hRun : updateColumn bq m c = some m') :
    ∃ len, measure bq c = some len ∧
      m' = Function.update m c (max (m c) len) := by
  unfold updateColumn at hRun
  rw [Option.map_eq_some_iff] at hRun
  rcases hRun with ⟨len, hLen, rfl⟩
  refine ⟨len, hLen, ?_⟩
  by_cases hMore : m c < len
  · rw [if_pos hMore, Nat.max_eq_right hMore.le]
  · rw [if_neg hMore, Nat.max_eq_left (not_lt.mp hMore),
      Function.update_eq_self]

/- A qgroup widens each column that is printed. -/
theorem updateColumns_spec
    {cols : List Column}
    (hNodup : cols.Nodup)
    (hRun : updateColumns need_print bq m cols = some m') :
    (∀ c ∈ cols, need_print c = true →
      ∃ len, measure bq c = some len ∧
        m' c = max (m c) len) ∧
      ∀ c, c ∉ cols → m' c = m c := by
  induction cols generalizing m with
  | nil =>
      cases hRun
      exact ⟨by simp, fun _ _ => rfl⟩
  | cons b rest ih =>
      have hCons := List.nodup_cons.mp hNodup
      unfold updateColumns at hRun
      by_cases hNeed : need_print b = true
      · rw [if_pos hNeed, Option.bind_eq_some_iff] at hRun
        rcases hRun with ⟨m₁, hFirst, hRest⟩
        rcases updateColumn_some hFirst with ⟨len, hLen, rfl⟩
        rcases ih hCons.2 hRest with ⟨hIn, hOut⟩
        constructor
        · intro c hMem hPrint
          rcases List.mem_cons.mp hMem with rfl | hTail
          · refine ⟨len, hLen, ?_⟩
            rw [hOut c hCons.1, Function.update_self]
          · rcases hIn c hTail hPrint with ⟨l, hL, hSame⟩
            refine ⟨l, hL, ?_⟩
            rw [hSame, Function.update_of_ne]
            rintro rfl
            exact hCons.1 hTail
        · intro c hNot
          rw [List.mem_cons, not_or] at hNot
          rw [hOut c hNot.2, Function.update_of_ne hNot.1]
      · rw [if_neg hNeed] at hRun
        rcases ih hCons.2 hRun with ⟨hIn, hOut⟩
        constructor
        · intro c hMem hPrint
          rcases List.mem_cons.mp hMem with rfl | hTail
          · exact absurd hPrint hNeed
          · exact hIn c hTail hPrint
        · exact fun c hNot => hOut c fun hTail =>
            hNot (List.mem_cons_of_mem b hTail)

theorem updateAll_widths
    (hRun : updateAll need_print m qgroups = some m')
    (hNeed : need_print c = true) :
    Widths qgroups m m' c := by
  induction qgroups generalizing m with
  | nil =>
      cases hRun
      exact ⟨Nat.le_refl _, by simp, .inl rfl⟩
  | cons entry rest ih =>
      unfold updateAll at hRun
      rw [Option.bind_eq_some_iff] at hRun
      rcases hRun with ⟨m₁, hFirst, hRest⟩
      rcases (updateColumns_spec columns_nodup hFirst).1 c
        (mem_columns c) hNeed with ⟨len, hLen, hSame⟩
      rcases ih hRest with ⟨hBase, hCovers, hTight⟩
      rw [hSame] at hBase
      refine ⟨by omega, fun bq hIn => ?_, ?_⟩
      · rcases List.mem_cons.mp hIn with rfl | hTail
        · exact ⟨len, hLen, by omega⟩
        · exact hCovers bq hTail
      · rcases hTight with hIs | ⟨bq, hIn, hIs⟩
        · by_cases hMore : m c < len
          · refine .inr ⟨entry, List.mem_cons_self, ?_⟩
            rw [hLen, hIs, hSame, Nat.max_eq_right hMore.le]
          · rw [hIs, hSame]
            exact .inl (Nat.max_eq_left (not_lt.mp hMore))
        · exact .inr ⟨bq, List.mem_cons_of_mem _ hIn, hIs⟩

theorem updateColumns_some
    (cols : List Column)
    (hSome : ∀ c, need_print c = true →
      ∃ len, measure bq c = some len)
    (m : Column → Nat) :
    ∃ m', updateColumns need_print bq m cols = some m' := by
  induction cols generalizing m with
  | nil => exact ⟨m, rfl⟩
  | cons b rest ih =>
      unfold updateColumns
      by_cases hNeed : need_print b = true
      · rcases hSome b hNeed with ⟨len, hLen⟩
        rw [if_pos hNeed, updateColumn, hLen]
        exact ih _
      · rw [if_neg hNeed]
        exact ih m

theorem updateAll_some
    (hSome : ∀ c, need_print c = true →
      ∀ bq ∈ qgroups, ∃ len, measure bq c = some len)
    (m : Column → Nat) :
    ∃ m', updateAll need_print m qgroups = some m' := by
  induction qgroups generalizing m with
  | nil => exact ⟨m, rfl⟩
  | cons entry rest ih =>
      rcases updateColumns_some columns (fun c hNeed =>
        hSome c hNeed entry List.mem_cons_self) m with
        ⟨m₁, hFirst⟩
      unfold updateAll
      rw [hFirst]
      exact ih (fun c hNeed bq hIn =>
        hSome c hNeed bq (List.mem_cons_of_mem _ hIn)) m₁

----------
-- What Fits
----------

theorem name_le
    (c : Column) : c.name.length ≤ initialLen c := by
  cases c <;> decide

/- A text with a sign is longer only between the bounds. -/
theorem length_signedText
    {v : Nat}
    (hLess : v < 2 ^ 64) :
    (signedText v).length ≤ 20 ∧
      (2 ^ 63 ≤ v ∧ v < 10 ^ 19 →
        20 ≤ (signedText v).length) ∧
      (¬(2 ^ 63 ≤ v ∧ v < 10 ^ 19) →
        (signedText v).length ≤ (text v).length) := by
  unfold signedText
  by_cases hSmall : v < 2 ^ 63
  · rw [if_pos hSmall]
    have hShort := length_text_le (k := 20) (by decide)
      (show v < 10 ^ 20 by omega)
    exact ⟨hShort, fun hMore => by omega, fun _ => le_refl _⟩
  · rw [if_neg hSmall, List.length_cons]
    have hShort := length_text_le (k := 19) (by decide)
      (show 2 ^ 64 - v < 10 ^ 19 by omega)
    refine ⟨by omega, fun hMore => ?_, fun hNot => ?_⟩
    · have hLong := lt_length_text (k := 18)
        (show 10 ^ 18 ≤ 2 ^ 64 - v by omega)
      omega
    · have hLong := lt_length_text (k := 19)
        (show 10 ^ 19 ≤ v by omega)
      omega

/- A column of numbers that are printed with a sign. -/
theorem signed_fits_iff
    {value : BtrfsQgroup → Nat}
    (hWidths : Widths qgroups initialLen m c)
    (hInitial : initialLen c < 20)
    (hMeasure :
      ∀ bq, measure bq c = some (text (value bq)).length)
    (hCell : ∀ bq, cellText bq c = some (signedText (value bq)))
    (hValue : ∀ bq ∈ qgroups, value bq < 2 ^ 64) :
    Fits m qgroups c ↔ SignsFit (qgroups.map value) := by
  constructor
  · rintro ⟨_, hFits⟩ ⟨v, hIn, hBad⟩
    rcases List.mem_map.mp hIn with ⟨bq, hBq, rfl⟩
    rcases hFits bq hBq with ⟨s, hS, hLe⟩
    rw [hCell, Option.some.injEq] at hS
    have hLong := (length_signedText (hValue bq hBq)).2.1 hBad
    rw [hS] at hLong
    rcases hWidths.tight with hIs | ⟨b, hB, hIs⟩
    · omega
    · refine ⟨value b, List.mem_map_of_mem hB, ?_⟩
      rw [hMeasure, Option.some.injEq] at hIs
      by_contra hLess
      have hShort := length_text_le (k := 19) (by decide)
        (not_le.mp hLess)
      omega
  · intro hSigns
    refine ⟨(name_le c).trans hWidths.base, fun bq hBq => ?_⟩
    refine ⟨_, hCell bq, ?_⟩
    have hSigned := length_signedText (hValue bq hBq)
    by_cases hBad : 2 ^ 63 ≤ value bq ∧ value bq < 10 ^ 19
    · rcases hSigns ⟨_, List.mem_map_of_mem hBq, hBad⟩ with
        ⟨w, hIn, hBig⟩
      rcases List.mem_map.mp hIn with ⟨b, hB, rfl⟩
      rcases hWidths.covers b hB with ⟨len, hLen, hLe⟩
      rw [hMeasure, Option.some.injEq] at hLen
      have hLong := lt_length_text hBig
      omega
    · rcases hWidths.covers bq hBq with ⟨len, hLen, hLe⟩
      rw [hMeasure, Option.some.injEq] at hLen
      have hShort := hSigned.2.2 hBad
      omega

/- A column whose cells are no longer than was measured. -/
theorem measured_fits
    (hWidths : Widths qgroups initialLen m c)
    (hCell : ∀ bq len, measure bq c = some len →
      ∃ s, cellText bq c = some s ∧
        s.length ≤ max len (initialLen c)) :
    Fits m qgroups c := by
  refine ⟨(name_le c).trans hWidths.base, fun bq hBq => ?_⟩
  rcases hWidths.covers bq hBq with ⟨len, hLen, hLe⟩
  rcases hCell bq len hLen with ⟨s, hS, hShort⟩
  have hBase := hWidths.base
  exact ⟨s, hS, by omega⟩

theorem length_listText
    (list : List Nat) :
    (listText list).length = listLen list := by
  induction list with
  | nil => rfl
  | cons id rest ih =>
      cases rest with
      | nil => rfl
      | cons b more =>
          rw [listText, listLen, List.length_append,
            List.length_cons, ih]
          · omega
          · simp
          · simp

/- A list is not longer than measured, or of three dashes. -/
theorem list_cell
    {list : Option (List Nat)}
    {len : Nat}
    (hLen : (list.bind fun l => intLen (listLen l)) =
      some len) :
    (∃ l, list = some l ∧ listLen l < 2 ^ 31) ∧
      ∃ s, list.map printList = some s ∧
        s.length ≤ max len 3 := by
  rw [Option.bind_eq_some_iff] at hLen
  rcases hLen with ⟨l, rfl, hInt⟩
  unfold intLen at hInt
  by_cases hLess : listLen l < 2 ^ 31
  · rw [if_pos hLess, Option.some.injEq] at hInt
    refine ⟨⟨l, rfl, hLess⟩, _, rfl, ?_⟩
    unfold printList
    by_cases hNil : l = []
    · rw [if_pos hNil]
      exact Nat.le_max_right len 3
    · rw [if_neg hNil, length_listText, hInt]
      exact Nat.le_max_left len 3
  · rw [if_neg hLess] at hInt
    cases hInt

/- Of 64 bits are the values that are printed with a sign. -/
def Counts
    (qgroups : List BtrfsQgroup) : Prop :=
  ∀ bq ∈ qgroups, bq.rfer < 2 ^ 64 ∧ bq.excl < 2 ^ 64

theorem fits_iff
    (hCounts : Counts qgroups)
    (hWidths : Widths qgroups initialLen m c) :
    Fits m qgroups c ↔ ColumnRegular qgroups c := by
  have hSame : ∀ {s : List UInt8} {len : Nat},
      some s.length = some len →
        s.length ≤ max len (initialLen c) := by
    intro s len hLen
    rw [Option.some.inj hLen]
    exact Nat.le_max_left _ _
  cases c with
  | rfer =>
      exact signed_fits_iff hWidths (by decide) (fun _ => rfl)
        (fun _ => rfl) fun bq hIn => (hCounts bq hIn).1
  | excl =>
      exact signed_fits_iff hWidths (by decide) (fun _ => rfl)
        (fun _ => rfl) fun bq hIn => (hCounts bq hIn).2
  | parent
  | child =>
      refine iff_of_true (measured_fits hWidths ?_) ?_
      · intro bq len hLen
        rcases (list_cell hLen).2 with ⟨s, hS, hLe⟩
        exact ⟨s, hS, hLe.trans (max_le_max_left len
          (by decide))⟩
      · intro bq hIn
        rcases hWidths.covers bq hIn with ⟨len, hLen, _⟩
        exact (list_cell hLen).1
  | qgroupid
  | max_rfer
  | max_excl =>
      exact iff_of_true (measured_fits hWidths fun bq len hLen =>
        ⟨_, rfl, hSame hLen⟩) trivial

/- A column that is regular is measured. -/
theorem ColumnRegular.measured
    (hRegular : ColumnRegular qgroups c)
    (hIn : bq ∈ qgroups) :
    ∃ len, measure bq c = some len := by
  cases c with
  | parent
  | child =>
      rcases hRegular bq hIn with ⟨list, hList, hLess⟩
      refine ⟨listLen list, ?_⟩
      unfold measure
      rw [hList]
      exact if_pos hLess
  | _ => exact ⟨_, rfl⟩

----------
-- The Lines
----------

variable {print : Column → Option (List UInt8)}
variable {out line : List UInt8} {start : Nat}

theorem addBlank_some
    {max_len len : Nat}
    (hLe : len ≤ max_len) :
    addBlank max_len len =
      some (List.replicate (max_len - len) blank) :=
  if_pos hLe

theorem StandsIn.front
    {s t : List UInt8}
    (hStands : StandsIn line start (s ++ t)) :
    StandsIn line start s := by
  rcases hStands with ⟨front, rest, rfl, hStart⟩
  refine ⟨front, t ++ rest, ?_, hStart⟩
  rw [List.append_assoc s]

/- A line has its columns where their widths put them. -/
theorem printLine_columns
    {width : Column → Nat}
    (cols : List Column)
    (hPrint : ∀ c, need_print c = true →
      ∃ s, print c = some s ∧ s.length = width c) :
    ∃ out, printLine need_print print cols = some out ∧
      ∀ c ∈ cols, need_print c = true →
        ∃ s, print c = some s ∧
          StandsIn out (startOf need_print width c cols) s := by
  induction cols with
  | nil => exact ⟨[], rfl, by simp⟩
  | cons b rest ih =>
      rcases ih with ⟨out, hOut, hAt⟩
      unfold printLine
      by_cases hNeed : need_print b = true
      · rcases hPrint b hNeed with ⟨s, hS, hLength⟩
        rw [if_pos hNeed, hS, Option.bind_some, hOut]
        refine ⟨s ++ out, rfl, fun c hIn hC => ?_⟩
        unfold startOf
        by_cases hThis : b = c
        · rw [if_pos hThis]
          exact ⟨s, hThis ▸ hS, [], out, rfl, rfl⟩
        · rw [if_neg hThis, if_pos hNeed]
          rcases List.mem_cons.mp hIn with hSame | hTail
          · exact absurd hSame.symm hThis
          rcases hAt c hTail hC with
            ⟨t, hT, front, back, rfl, hFront⟩
          refine ⟨t, hT, s ++ front, back, ?_, ?_⟩
          · rw [List.append_assoc]
          · rw [List.length_append, hLength, hFront]
      · rw [if_neg hNeed]
        refine ⟨out, hOut, fun c hIn hC => ?_⟩
        rcases List.mem_cons.mp hIn with rfl | hTail
        · exact absurd hC hNeed
        unfold startOf
        rw [if_neg, if_neg hNeed, Nat.zero_add]
        · exact hAt c hTail hC
        · rintro rfl
          exact hNeed hC

/- Only the last column has no blank behind it. -/
theorem position_row
    (c : Column) :
    startOf need_print
        (fun b => m b + if b = .child then 0 else 1) c columns =
      position need_print m c := by
  cases c <;> rfl

theorem printRow_columns
    (hFits : ∀ c, need_print c = true → Fits m qgroups c)
    (hIn : bq ∈ qgroups) :
    ∃ row,
      printLine need_print (printColumn m bq) columns =
          some row ∧
        ∀ c, need_print c = true → ∃ s,
          cellText bq c = some s ∧
            StandsIn row (position need_print m c) s := by
  have hCell : ∀ c, need_print c = true → ∃ s,
      cellText bq c = some s ∧ s.length ≤ m c ∧
        printColumn m bq c = some (s ++
          (List.replicate (m c - s.length) blank ++
            if c = .child then [] else [blank])) := by
    intro c hNeed
    rcases (hFits c hNeed).2 bq hIn with ⟨s, hS, hLe⟩
    refine ⟨s, hS, hLe, ?_⟩
    unfold printColumn
    rw [hS, Option.bind_some, addBlank_some hLe]
    rfl
  have hPrint : ∀ c, need_print c = true → ∃ s,
      printColumn m bq c = some s ∧
        s.length = m c + if c = .child then 0 else 1 := by
    intro c hNeed
    rcases hCell c hNeed with ⟨s, _, hLe, hS⟩
    refine ⟨_, hS, ?_⟩
    rw [List.length_append, List.length_append,
      List.length_replicate]
    by_cases hChild : c = .child
    · rw [if_pos hChild, if_pos hChild, List.length_nil]
      omega
    · rw [if_neg hChild, if_neg hChild]
      show s.length + (m c - s.length + 1) = m c + 1
      omega
  rcases printLine_columns columns hPrint with
    ⟨row, hRow, hAt⟩
  refine ⟨row, hRow, fun c hNeed => ?_⟩
  rcases hCell c hNeed with ⟨s, hS, _, hColumn⟩
  rcases hAt c (mem_columns c) hNeed with ⟨t, hT, hStands⟩
  rw [hColumn] at hT
  rw [position_row, ← Option.some.inj hT] at hStands
  exact ⟨s, hS, hStands.front⟩

theorem printRows_columns
    (hFits : ∀ c, need_print c = true → Fits m qgroups c)
    (sorted : List BtrfsQgroup)
    (hIn : ∀ bq ∈ sorted, bq ∈ qgroups) :
    ∃ rows, printRows need_print m sorted = some rows ∧
      ∀ c, need_print c = true → List.Forall₂
        (fun bq row => ∃ s, cellText bq c = some s ∧
          StandsIn row (position need_print m c) s)
        sorted rows := by
  induction sorted with
  | nil => exact ⟨[], rfl, fun _ _ => .nil⟩
  | cons entry rest ih =>
      rcases printRow_columns hFits
        (hIn entry List.mem_cons_self) with ⟨row, hRow, hAt⟩
      rcases ih fun bq hBq =>
        hIn bq (List.mem_cons_of_mem _ hBq) with
        ⟨rows, hRows, hAll⟩
      refine ⟨row :: rows, ?_, fun c hNeed =>
        .cons (hAt c hNeed) (hAll c hNeed)⟩
      unfold printRows
      rw [hRow, Option.bind_some, hRows]
      rfl

/- The lines above the rows. -/
theorem printHead_columns
    (hName : ∀ c, need_print c = true →
      c.name.length ≤ m c) :
    (∃ head, printLine need_print (headColumn m) columns =
        some head ∧
      ∀ c, need_print c = true →
        StandsIn head (position need_print m c) c.name) ∧
      ∃ line, printLine need_print (dashColumn m) columns =
          some line ∧
        ∀ c, need_print c = true →
          StandsIn line (position need_print m c)
            (dashes c) := by
  have hHead : ∀ c, need_print c = true → headColumn m c =
      some (c.name ++ (List.replicate (m c - c.name.length)
        blank ++ [blank])) := by
    intro c hNeed
    unfold headColumn
    rw [addBlank_some (hName c hNeed)]
    rfl
  have hDash : ∀ c, need_print c = true → dashColumn m c =
      some (dashes c ++ blank ::
        List.replicate (m c - c.name.length) blank) := by
    intro c hNeed
    unfold dashColumn
    rw [addBlank_some (hName c hNeed)]
    rfl
  constructor
  · have hPrint : ∀ c, need_print c = true → ∃ s,
        headColumn m c = some s ∧ s.length = m c + 1 := by
      intro c hNeed
      refine ⟨_, hHead c hNeed, ?_⟩
      have hLe := hName c hNeed
      rw [List.length_append, List.length_append,
        List.length_replicate, List.length_singleton]
      omega
    rcases printLine_columns columns hPrint with
      ⟨head, hLine, hAt⟩
    refine ⟨head, hLine, fun c hNeed => ?_⟩
    rcases hAt c (mem_columns c) hNeed with ⟨t, hT, hStands⟩
    rw [hHead c hNeed] at hT
    rw [← Option.some.inj hT] at hStands
    exact hStands.front
  · have hPrint : ∀ c, need_print c = true → ∃ s,
        dashColumn m c = some s ∧ s.length = m c + 1 := by
      intro c hNeed
      refine ⟨_, hDash c hNeed, ?_⟩
      have hLe := hName c hNeed
      unfold dashes
      rw [List.length_append, List.length_cons,
        List.length_replicate, List.length_replicate]
      omega
    rcases printLine_columns columns hPrint with
      ⟨line, hLine, hAt⟩
    refine ⟨line, hLine, fun c hNeed => ?_⟩
    rcases hAt c (mem_columns c) hNeed with ⟨t, hT, hStands⟩
    rw [hDash c hNeed] at hT
    rw [← Option.some.inj hT] at hStands
    exact hStands.front

end Widths

/-
  The table is aligned exactly where every column that is
  printed is regular.
-/
theorem qgroupTable_aligned_iff
    (need_print : Column → Bool)
    {qgroups : List BtrfsQgroup}
    (hCounts : Counts qgroups) :
    Aligned need_print qgroups ↔
      ∀ c, need_print c = true → ColumnRegular qgroups c := by
  constructor
  · rintro ⟨m, hAll, hFits, _⟩ c hNeed
    exact (fits_iff hCounts (updateAll_widths hAll hNeed)).mp
      (hFits c hNeed)
  · intro hRegular
    rcases updateAll_some (fun c hNeed bq hIn =>
      (hRegular c hNeed).measured hIn) initialLen with
      ⟨m, hAll⟩
    have hFits : ∀ c, need_print c = true →
        Fits m qgroups c := by
      intro c hNeed
      exact (fits_iff hCounts
        (updateAll_widths hAll hNeed)).mpr (hRegular c hNeed)
    refine ⟨m, hAll, hFits, fun sorted hPerm => ?_⟩
    rcases printHead_columns fun c hNeed => (hFits c hNeed).1
      with ⟨⟨head, hHead, hNames⟩, line, hLine, hDashes⟩
    rcases printRows_columns hFits sorted
      (fun bq hIn => hPerm.mem_iff.mp hIn) with
      ⟨rows, hRows, hCells⟩
    refine ⟨head :: line :: rows, ?_, head, line, rows, rfl,
      fun c hNeed => ⟨hNames c hNeed, hDashes c hNeed,
        hCells c hNeed⟩⟩
    unfold printAllQgroups
    rw [hHead, Option.bind_some, hLine, Option.bind_some,
      hRows]
    rfl

/- Qgroup 0/257 in 1/0, and one with a value of 64 bits. -/
def memberQgroup : BtrfsQgroup :=
  { rfer := 16384, qgroupid := 257
    qgroups := some [2 ^ 48], members := some [] }

def parentQgroup : BtrfsQgroup :=
  { rfer := 32768, excl := 4096, qgroupid := 2 ^ 48
    qgroups := some [], members := some [257] }

def minusQgroup : BtrfsQgroup :=
  { rfer := 2 ^ 63, qgroupid := 5
    qgroups := some [], members := some [] }

theorem qgroupTable_aligned_plain :
    Aligned (fun _ => true) [memberQgroup, parentQgroup] := by
  have hCounts : Counts [memberQgroup, parentQgroup] := by
    unfold Counts
    decide
  refine (qgroupTable_aligned_iff (fun _ => true) hCounts).mpr
    fun c _ => ?_
  have hLists : ∀ bq ∈ [memberQgroup, parentQgroup],
      (∃ list, bq.qgroups = some list ∧
        listLen list < 2 ^ 31) ∧
      ∃ list, bq.members = some list ∧
        listLen list < 2 ^ 31 := by
    simp only [List.forall_mem_cons]
    exact ⟨⟨⟨_, rfl, by decide +kernel⟩, [], rfl, by decide⟩,
      ⟨⟨[], rfl, by decide⟩, _, rfl, by decide +kernel⟩,
      nofun⟩
  cases c with
  | rfer
  | excl => exact fun hBad => absurd hBad (by decide)
  | parent => exact fun bq hIn => (hLists bq hIn).1
  | child => exact fun bq hIn => (hLists bq hIn).2
  | _ => trivial

/- The value has 19 digits, and 20 characters as it is printed. -/
theorem minusQgroup_not_aligned :
    (measure minusQgroup .rfer, (cellText minusQgroup .rfer).map
        List.length) = (some 19, some 20) ∧
      ¬Aligned (fun c => c ∈ [.qgroupid, .rfer, .excl])
        [minusQgroup] := by
  have hText : (text (2 ^ 63)).length = 19 := by
    decide +kernel
  have hSigned : (signedText (2 ^ 63)).length = 20 := by
    decide +kernel
  refine ⟨Prod.ext (congrArg some hText)
    (congrArg some hSigned), ?_⟩
  rintro ⟨m, hAll, hFits, _⟩
  have hWidths := updateAll_widths (c := .rfer) hAll
    (by decide)
  rcases (hFits .rfer (by decide)).2 minusQgroup
    List.mem_cons_self with ⟨s, hS, hLe⟩
  have hLong : s.length = 20 := by
    rw [← Option.some.inj hS]
    exact hSigned
  rcases hWidths.tight with hIs | ⟨bq, hIn, hIs⟩
  · rw [hIs] at hLe
    change s.length ≤ 4 at hLe
    omega
  · rw [List.mem_singleton.mp hIn] at hIs
    have hMeasured : (text (2 ^ 63)).length = m .rfer :=
      Option.some.inj hIs
    omega

end Qgroup

end BtrfsProgs
