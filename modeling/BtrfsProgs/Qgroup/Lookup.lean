import Mathlib

/-
  The qgroups of a file system as they are loaded, from
  `qgroup.c`.

  Main declarations:
    * `BtrfsQgroup`
    * `qgroupTreeSearch` and `addQgroup`
    * `qgroupsSearch`
    * `Sound` and `qgroupsSearch_sound`
-/

----------
-- Qgroups
----------

namespace BtrfsProgs

namespace Qgroup

/- What the items of a qgroup say of it. -/
structure Counters where
  generation : Nat := 0
  rfer : Nat := 0
  rfer_cmpr : Nat := 0
  excl : Nat := 0
  excl_cmpr : Nat := 0
  flags : Nat := 0
  max_rfer : Nat := 0
  max_excl : Nat := 0
  rsv_rfer : Nat := 0
  rsv_excl : Nat := 0
deriving Repr, DecidableEq

/-
  `struct btrfs_qgroup`. The lists hold the ids of the parents
  and of the members; a list head of zeros is `none`.
-/
structure BtrfsQgroup extends Counters where
  qgroupid : Nat
  qgroups : Option (List Nat)
  members : Option (List Nat)
deriving Repr, DecidableEq

/- `struct qgroup_lookup`, a tree by the ids. -/
abbrev Lookup := List BtrfsQgroup

def qgroupTreeSearch
    (ql : Lookup)
    (qgroupid : Nat) : Option BtrfsQgroup :=
  ql.find? (·.qgroupid = qgroupid)

def modify
    (ql : Lookup)
    (qgroupid : Nat)
    (f : BtrfsQgroup → BtrfsQgroup) : Lookup :=
  ql.map fun bq => if bq.qgroupid = qgroupid then f bq else bq

/- Fields that are not 0 are stored; `rsv_excl` never is. -/
def Counters.store
    (old new : Counters) : Counters :=
  let pick (o n : Nat) := if n ≠ 0 then n else o
  { generation := pick old.generation new.generation
    rfer := pick old.rfer new.rfer
    rfer_cmpr := pick old.rfer_cmpr new.rfer_cmpr
    excl := pick old.excl new.excl
    excl_cmpr := pick old.excl_cmpr new.excl_cmpr
    flags := pick old.flags new.flags
    max_rfer := pick old.max_rfer new.max_rfer
    max_excl := pick old.max_excl new.max_excl
    rsv_rfer := pick old.rsv_rfer new.rsv_rfer
    rsv_excl := old.rsv_excl }

/- The fields of `update_qgroup`. -/
def updateQgroup
    (counters : Counters)
    (bq : BtrfsQgroup) : BtrfsQgroup :=
  { bq with toCounters := bq.toCounters.store counters }

/- The new qgroup of `add_qgroup`; only an id sets up lists. -/
def newQgroup
    (qgroupid : Nat)
    (counters : Counters) : BtrfsQgroup :=
  let head := if qgroupid ≠ 0 then some [] else none
  { toCounters := ({} : Counters).store counters
    qgroupid := qgroupid
    qgroups := head
    members := head }

/-
  The two calls of `list_add_tail`; `none` is an access through
  the null pointer of a list that is not set up.
-/
def listAddTail
    (ql : Lookup)
    (pa child : Nat) : Option Lookup := do
  let bq1 ← qgroupTreeSearch ql child
  let qgroups ← bq1.qgroups
  let ql := modify ql child fun bq =>
    { bq with qgroups := some (qgroups ++ [pa]) }
  let bq ← qgroupTreeSearch ql pa
  let members ← bq.members
  some (modify ql pa fun bq =>
    { bq with members := some (members ++ [child]) })

/- `add_qgroup`, with memory left. -/
def addQgroup
    (ql : Lookup)
    (qgroupid : Nat)
    (counters : Counters)
    (relation : Option (Nat × Nat)) : Option Lookup :=
  let ql :=
    match qgroupTreeSearch ql qgroupid with
    | some _ => modify ql qgroupid (updateQgroup counters)
    | none => ql ++ [newQgroup qgroupid counters]
  match relation with
  | some (pa, child) => listAddTail ql pa child
  | none => some ql

----------
-- The Items of the Quota Tree
----------

/- The kinds of items that the searches return. -/
inductive Item where
  | info (generation rfer rfer_cmpr excl excl_cmpr : Nat)
  | limit (flags max_rfer max_excl rsv_rfer rsv_excl : Nat)
  | relation
  | other
deriving Repr, DecidableEq

/- An item behind its `struct btrfs_ioctl_search_header`. -/
structure SearchItem where
  objectid : Nat
  offset : Nat
  item : Item
deriving Repr, DecidableEq

/- One item; `true` is the jump to `done`. -/
def searchItem
    (ql : Lookup)
    (sh : SearchItem) : Option (Lookup × Bool) :=
  match sh.item with
  | .info a1 a2 a3 a4 a5 =>
      (addQgroup ql sh.offset
        { generation := a1, rfer := a2, rfer_cmpr := a3
          excl := a4, excl_cmpr := a5 } none).map (·, false)
  | .limit a1 a2 a3 a4 a5 =>
      (addQgroup ql sh.offset
        { flags := a1, max_rfer := a2, max_excl := a3
          rsv_rfer := a4, rsv_excl := a5 } none).map (·, false)
  | .relation =>
      if sh.offset < sh.objectid then some (ql, false)
      else
        match qgroupTreeSearch ql sh.offset,
          qgroupTreeSearch ql sh.objectid with
        | some bq, some bq1 =>
            (addQgroup ql sh.offset {}
              (some (bq.qgroupid, bq1.qgroupid))).map (·, false)
        | _, _ => some (ql, false)
  | .other => some (ql, true)

def searchItems
    (ql : Lookup) : List SearchItem → Option (Lookup × Bool)
  | [] => some (ql, false)
  | sh :: rest =>
      match searchItem ql sh with
      | some (ql, false) => searchItems ql rest
      | done => done

/- The searches, given as what each of them returns. -/
def searchPages
    (ql : Lookup) : List (List SearchItem) → Option Lookup
  | [] => some ql
  | page :: pages =>
      match page.getLast? with
      | none => some ql
      | some last =>
          match searchItems ql page with
          | none => none
          | some (ql, done) =>
              if done ∨ ¬last.offset < 2 ^ 64 - 1 then some ql
              else searchPages ql pages

/- `__qgroups_search`, when no search fails. -/
def qgroupsSearch
    (pages : List (List SearchItem)) : Option Lookup :=
  searchPages [] pages

----------
-- What Is Loaded
----------

section Loaded

variable {ql ql' : Lookup} {bq : BtrfsQgroup} {qgroupid : Nat}

/- A qgroup that is loaded. -/
def Known
    (ql : Lookup)
    (qgroupid : Nat) : Prop :=
  ∃ bq ∈ ql, bq.qgroupid = qgroupid

/-
  Only qgroup 0 has no lists, and no parent is below its
  member.
-/
def Good
    (ql : Lookup)
    (bq : BtrfsQgroup) : Prop :=
  (bq.qgroups = none ↔ bq.qgroupid = 0) ∧
    ∀ p ∈ bq.qgroups.getD [], bq.qgroupid ≤ p ∧ Known ql p

/- So it is for all that are loaded. -/
def Sound
    (ql : Lookup) : Prop :=
  ∀ bq ∈ ql, Good ql bq

theorem of_qgroupTreeSearch
    (hFound : qgroupTreeSearch ql qgroupid = some bq) :
    bq ∈ ql ∧ bq.qgroupid = qgroupid := by
  refine ⟨List.mem_of_find?_eq_some hFound, ?_⟩
  simpa using List.find?_some hFound

theorem Known.search
    (hKnown : Known ql qgroupid) :
    ∃ bq, qgroupTreeSearch ql qgroupid = some bq := by
  rcases hKnown with ⟨bq, hIn, hId⟩
  rw [← Option.isSome_iff_exists]
  unfold qgroupTreeSearch
  rw [List.find?_isSome]
  exact ⟨bq, hIn, by simpa using hId⟩

theorem Good.mono
    (hGood : Good ql bq)
    (hMore : ∀ p, Known ql p → Known ql' p) :
    Good ql' bq :=
  ⟨hGood.1, fun p hIn =>
    ⟨(hGood.2 p hIn).1, hMore p (hGood.2 p hIn).2⟩⟩

theorem known_modify
    {f : BtrfsQgroup → BtrfsQgroup}
    (hId : ∀ bq, (f bq).qgroupid = bq.qgroupid)
    {p : Nat}
    (hKnown : Known ql p) :
    Known (modify ql qgroupid f) p := by
  rcases hKnown with ⟨bq, hIn, rfl⟩
  refine ⟨_, List.mem_map_of_mem hIn, ?_⟩
  by_cases hThis : bq.qgroupid = qgroupid
  · rw [if_pos hThis, hId]
  · rw [if_neg hThis]

/- A change of one qgroup that leaves it good. -/
theorem Sound.modify
    (hSound : Sound ql)
    {f : BtrfsQgroup → BtrfsQgroup}
    (hId : ∀ bq, (f bq).qgroupid = bq.qgroupid)
    (hGood : ∀ bq, Good ql bq → bq.qgroupid = qgroupid →
      Good ql (f bq)) :
    Sound (modify ql qgroupid f) := by
  intro bq hIn
  rcases List.mem_map.mp hIn with ⟨b, hOld, rfl⟩
  refine Good.mono ?_ fun p => known_modify hId
  by_cases hThis : b.qgroupid = qgroupid
  · rw [if_pos hThis]
    exact hGood b (hSound b hOld) hThis
  · rw [if_neg hThis]
    exact hSound b hOld

theorem Sound.concat
    (hSound : Sound ql)
    (hGood : Good ql bq) :
    Sound (ql ++ [bq]) := by
  have hMore : ∀ p, Known ql p → Known (ql ++ [bq]) p := by
    rintro p ⟨b, hIn, hId⟩
    exact ⟨b, List.mem_append_left _ hIn, hId⟩
  intro b hIn
  rcases List.mem_append.mp hIn with hOld | hNew
  · exact (hSound b hOld).mono hMore
  · rw [List.mem_singleton.mp hNew]
    exact hGood.mono hMore

theorem good_newQgroup
    (counters : Counters) :
    Good ql (newQgroup qgroupid counters) := by
  unfold newQgroup
  by_cases hZero : qgroupid = 0
  · simp [Good, hZero]
  · simp [Good, hZero]

theorem Sound.listAddTail
    (hSound : Sound ql)
    {pa child : Nat}
    (hOrder : child ≤ pa)
    (hKnown : Known ql pa)
    (hAdd : listAddTail ql pa child = some ql') :
    Sound ql' := by
  unfold Qgroup.listAddTail at hAdd
  simp only [Option.bind_eq_bind, Option.bind_eq_some_iff,
    Option.some.injEq] at hAdd
  rcases hAdd with
    ⟨bq1, hFound, qgroups, hUp, bq, _, members, _, rfl⟩
  rcases of_qgroupTreeSearch hFound with ⟨hIn, hThis⟩
  have hChild := hSound bq1 hIn
  have hSome : child ≠ 0 := by
    intro hZero
    rw [← hThis] at hZero
    rw [hChild.1.mpr hZero] at hUp
    cases hUp
  refine Sound.modify (Sound.modify hSound ?_ ?_) ?_ ?_
  · exact fun _ => rfl
  · intro b _ hIs
    refine ⟨iff_of_false (by simp) (hIs ▸ hSome), ?_⟩
    intro p hParent
    rcases List.mem_append.mp hParent with hOld | hNew
    · have hLeft := hChild.2 p (by rw [hUp]; exact hOld)
      rw [hThis] at hLeft
      exact ⟨hIs ▸ hLeft.1, hLeft.2⟩
    · rw [List.mem_singleton.mp hNew]
      exact ⟨hIs ▸ hOrder, hKnown⟩
  · exact fun _ => rfl
  · exact fun _ hGood _ => hGood

theorem Sound.addQgroup
    (hSound : Sound ql)
    {counters : Counters}
    {relation : Option (Nat × Nat)}
    (hRelation : ∀ pa child, relation = some (pa, child) →
      child ≤ pa ∧ Known ql pa)
    (hAdd : addQgroup ql qgroupid counters relation =
      some ql') :
    Sound ql' := by
  unfold Qgroup.addQgroup at hAdd
  generalize hBefore : (match qgroupTreeSearch ql qgroupid with
    | some _ =>
        Qgroup.modify ql qgroupid (updateQgroup counters)
    | none => ql ++ [newQgroup qgroupid counters]) = before
    at hAdd
  have hStep : Sound before ∧
      ∀ p, Known ql p → Known before p := by
    rw [← hBefore]
    cases qgroupTreeSearch ql qgroupid with
    | some _ =>
        have hId : ∀ bq, (updateQgroup counters bq).qgroupid =
            bq.qgroupid :=
          fun _ => rfl
        exact ⟨hSound.modify hId fun _ hGood _ => hGood,
          fun _ => known_modify hId⟩
    | none =>
        refine ⟨hSound.concat (good_newQgroup counters), ?_⟩
        rintro p ⟨b, hIn, hId⟩
        exact ⟨b, List.mem_append_left _ hIn, hId⟩
  cases relation with
  | none => exact Option.some.inj hAdd ▸ hStep.1
  | some pair =>
      rcases hRelation pair.1 pair.2 rfl with ⟨hOrder, hKnown⟩
      exact hStep.1.listAddTail hOrder (hStep.2 _ hKnown) hAdd

theorem Sound.searchItem
    (hSound : Sound ql)
    {sh : SearchItem}
    {done : Bool}
    (hItem : searchItem ql sh = some (ql', done)) :
    Sound ql' := by
  have hNone : ∀ pa child : Nat,
      (none : Option (Nat × Nat)) = some (pa, child) →
        child ≤ pa ∧ Known ql pa :=
    fun _ _ hSome => absurd hSome (by simp)
  unfold Qgroup.searchItem at hItem
  cases hKind : sh.item with
  | info
  | limit =>
      simp only [hKind, Option.map_eq_some_iff] at hItem
      rcases hItem with ⟨_, hAdd, hSame⟩
      exact (Prod.mk.inj hSame).1 ▸ hSound.addQgroup hNone hAdd
  | other =>
      simp only [hKind] at hItem
      cases hItem
      exact hSound
  | relation =>
      simp only [hKind] at hItem
      by_cases hOrder : sh.offset < sh.objectid
      · rw [if_pos hOrder] at hItem
        cases hItem
        exact hSound
      rw [if_neg hOrder] at hItem
      cases hParent : qgroupTreeSearch ql sh.offset with
      | none =>
          rw [hParent] at hItem
          cases hItem
          exact hSound
      | some bq =>
          cases hChild : qgroupTreeSearch ql sh.objectid with
          | none =>
              rw [hParent, hChild] at hItem
              cases hItem
              exact hSound
          | some bq1 =>
              simp only [hParent, hChild,
                Option.map_eq_some_iff] at hItem
              rcases hItem with ⟨_, hAdd, hSame⟩
              rcases of_qgroupTreeSearch hParent with
                ⟨hIn, hId⟩
              have hMember := (of_qgroupTreeSearch hChild).2
              refine (Prod.mk.inj hSame).1 ▸
                hSound.addQgroup ?_ hAdd
              intro pa child hPair
              cases hPair
              exact ⟨by omega, bq, hIn, rfl⟩

theorem Sound.searchItems
    {page : List SearchItem}
    {done : Bool}
    (hSound : Sound ql)
    (hItems : searchItems ql page = some (ql', done)) :
    Sound ql' := by
  induction page generalizing ql with
  | nil =>
      cases hItems
      exact hSound
  | cons sh rest ih =>
      unfold Qgroup.searchItems at hItems
      cases hItem : Qgroup.searchItem ql sh with
      | none =>
          rw [hItem] at hItems
          cases hItems
      | some next =>
          rcases next with ⟨after, stop⟩
          have hNext := hSound.searchItem hItem
          rw [hItem] at hItems
          cases stop with
          | false => exact ih hNext hItems
          | true =>
              cases hItems
              exact hNext

/- What has been loaded is sound. -/
theorem qgroupsSearch_sound
    {pages : List (List SearchItem)}
    (hLoad : qgroupsSearch pages = some ql) :
    Sound ql := by
  unfold qgroupsSearch at hLoad
  have hStart : Sound [] := fun _ hIn => absurd hIn (by simp)
  generalize ([] : Lookup) = start at hLoad hStart
  induction pages generalizing start with
  | nil => exact Option.some.inj hLoad ▸ hStart
  | cons page pages ih =>
      unfold searchPages at hLoad
      cases hLast : page.getLast? with
      | none =>
          rw [hLast] at hLoad
          exact Option.some.inj hLoad ▸ hStart
      | some last =>
          rw [hLast] at hLoad
          dsimp only at hLoad
          cases hItems : searchItems start page with
          | none =>
              rw [hItems] at hLoad
              cases hLoad
          | some next =>
              rcases next with ⟨after, done⟩
              have hNext := hStart.searchItems hItems
              rw [hItems] at hLoad
              dsimp only at hLoad
              by_cases hStop : done = true ∨
                  ¬last.offset < 2 ^ 64 - 1
              · rw [if_pos hStop] at hLoad
                exact Option.some.inj hLoad ▸ hNext
              · rw [if_neg hStop] at hLoad
                exact ih _ hLoad hNext

end Loaded

end Qgroup

end BtrfsProgs
