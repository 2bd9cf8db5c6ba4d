import BtrfsProgs.Basic
import BtrfsProgs.FreeSpace.Entries

/-
  Free space that is added to a tree: the extents that
  `try_merge_free_space` finds are those next to it.

  Main declarations:
    * `treeSearchOffset_extent`
    * `joinRight_spec` and `tryMergeFreeSpace_spec`
    * `addFreeSpace_spec`
-/

----------
-- Searches
----------

namespace BtrfsProgs

namespace FreeSpaceCache

variable {unit : SectorSize}
variable {bitmapFirst : List Entry → Nat → Bool}
variable {entries : List Entry} {ctl : Ctl}
variable {e p r info : Entry} {offset : Nat}

theorem mem_rbPrev
    (hPrev : rbPrev entries e = some p) :
    p ∈ entries ∧ p ≠ e := by
  have hMem := List.mem_of_getLast? hPrev
  refine ⟨(List.takeWhile_sublist _).subset hMem, ?_⟩
  simpa using List.mem_takeWhile_imp hMem

theorem rbPrev_above
    (hSorted : Sorted entries)
    (hMem : e ∈ entries)
    (hPrev : rbPrev entries e = some p) :
    p.Above e := by
  have hBefore := List.mem_of_getLast? hPrev
  have hParts : entries.takeWhile (fun x => x ≠ e) ++
      entries.dropWhile (fun x => x ≠ e) = entries :=
    List.takeWhile_append_dropWhile
  have hAfter : e ∈ entries.dropWhile fun x => x ≠ e := by
    rw [← hParts] at hMem
    refine (List.mem_append.mp hMem).resolve_left fun h => ?_
    simpa using List.mem_takeWhile_imp h
  unfold Sorted at hSorted
  rw [← hParts] at hSorted
  exact (List.pairwise_append.mp hSorted).2.2 p hBefore e hAfter

theorem mem_entryAt
    (hFound : entryAt bitmapFirst entries offset = some e) :
    e ∈ entries ∧ e.offset = offset := by
  have hFind : ∀ (q : Entry → Bool) (x : Entry),
      entries.find? (fun e => e.offset = offset ∧ q e) =
        some x → x ∈ entries ∧ x.offset = offset := by
    intro q x hX
    have hHolds := List.find?_some hX
    simp only [decide_eq_true_eq] at hHolds
    exact ⟨List.mem_of_find?_eq_some hX, hHolds.1⟩
  have hExtent := hFind fun e => e.bitmap = none
  have hBitmap := hFind fun e => e.bitmap.isSome
  simp only [decide_eq_true_eq] at hExtent
  unfold entryAt at hFound
  split at hFound
  case h_1 x c hX hC =>
    split at hFound
    · exact hBitmap e (hFound ▸ hC)
    · exact hExtent e (hFound ▸ hX)
  case h_2 x hX _ => exact hExtent e (hFound ▸ hX)
  case h_3 => exact hBitmap e hFound

/- An extent that reaches over an offset holds it. -/
theorem Entry.Reaches.holds
    (hReaches : p.Reaches offset)
    (hOk : p.Ok unit)
    (hLow : p.offset ≤ offset) :
    p.Holds unit offset := by
  obtain ⟨hExtent, hHigh⟩ := hReaches
  obtain ⟨hFits, -⟩ := hOk.extent hExtent
  rw [Nat.mod_eq_of_lt hFits] at hHigh
  exact (holds_extent hExtent).mpr ⟨hLow, hHigh⟩

/- The one before a bitmap, if it reaches over the offset. -/
theorem rbPrev_holds
    (hSorted : Sorted entries)
    (hFine : Fine unit entries)
    (hMem : e ∈ entries)
    (hLow : e.offset ≤ offset)
    (hPrev : (rbPrev entries e).filter
      (fun p => p.Reaches offset) = some p) :
    p ∈ entries ∧ p.Holds unit offset := by
  obtain ⟨hPrev, hReaches⟩ := Option.filter_eq_some_iff.mp hPrev
  obtain ⟨hP, -⟩ := mem_rbPrev hPrev
  have hAbove := rbPrev_above hSorted hMem hPrev
  exact ⟨hP, (by simpa using hReaches : p.Reaches offset).holds
    (hFine.ok p hP) (hAbove.le.trans hLow)⟩

/- An extent that is found holds the offset. -/
theorem treeSearchOffset_extent
    (hSorted : Sorted entries)
    (hFine : Fine unit entries)
    (hFound : treeSearchOffset bitmapFirst unit entries offset =
      some r)
    (hExtent : r.bitmap = none) :
    r ∈ entries ∧ r.Holds unit offset := by
  have hNotBitmap : ∀ {x : Entry}, x.bitmap.isSome → r ≠ x := by
    rintro x hSome rfl
    rw [hExtent] at hSome
    cases hSome
  unfold treeSearchOffset at hFound
  split at hFound
  case h_1 e hAt =>
    obtain ⟨hMem, hOffset⟩ := mem_entryAt hAt
    split at hFound
    case isTrue hBitmap =>
      split at hFound
      case h_1 q hPrev =>
        obtain rfl : q = r := Option.some.inj hFound
        exact rbPrev_holds hSorted hFine hMem hOffset.le hPrev
      case h_2 =>
        exact absurd (Option.some.inj hFound).symm
          (hNotBitmap hBitmap)
    case isFalse =>
      obtain rfl : e = r := Option.some.inj hFound
      obtain ⟨-, hSome⟩ := (hFine.ok e hMem).extent hExtent
      exact ⟨hMem, (holds_extent hExtent).mpr
        ⟨hOffset.le, by omega⟩⟩
  case h_2 =>
    split at hFound
    · cases hFound
    case h_2 e hLast =>
      obtain ⟨hMem, hLess⟩ :=
        List.mem_filter.mp (List.mem_of_getLast? hLast)
      have hLow : e.offset ≤ offset :=
        Nat.le_of_lt (by simpa using hLess)
      split at hFound
      case isTrue hBitmap =>
        split at hFound
        case h_1 q hPrev =>
          obtain rfl : q = r := Option.some.inj hFound
          exact rbPrev_holds hSorted hFine hMem hLow hPrev
        case h_2 =>
          split at hFound
          · exact absurd (Option.some.inj hFound).symm
              (hNotBitmap hBitmap)
          · cases hFound
      case isFalse =>
        split at hFound
        case isTrue hReaches =>
          obtain rfl : e = r := Option.some.inj hFound
          exact ⟨hMem,
            hReaches.holds (hFine.ok e hMem) hLow⟩
        case isFalse => cases hFound

----------
-- Joins
----------

/- An extent on the right starts where the new one ends. -/
theorem rightInfo_start
    (hOk : ctl.Ok unit)
    (hInfo : info.bitmap = none)
    (hFine : Fine unit (info :: ctl.entries))
    (hRight : rightInfo bitmapFirst unit ctl.entries info =
      some r)
    (hExtent : r.bitmap = none) :
    r ∈ ctl.entries ∧ info.offset + info.bytes = r.offset := by
  obtain ⟨hOkInfo, hApart, -⟩ := fine_cons.mp hFine
  obtain ⟨hFits, hSome⟩ := hOkInfo.extent hInfo
  unfold rightInfo at hRight
  rw [Nat.mod_eq_of_lt hFits] at hRight
  obtain ⟨hMem, hHolds⟩ := treeSearchOffset_extent hOk.sorted
    hOk.fine hRight hExtent
  exact ⟨hMem, ((hApart r hMem).start hInfo hExtent hSome
    hHolds).symm⟩

/- It is not taken for the one on the left. -/
theorem not_freedLeft
    (hOk : ctl.Ok unit)
    (hInfo : info.bitmap = none)
    (hFine : Fine unit (info :: ctl.entries)) :
    ¬ FreedLeft bitmapFirst unit ctl.entries info := by
  rintro ⟨r, hExtent, hRight, hLeft⟩
  obtain ⟨hMem, hStart⟩ :=
    rightInfo_start hOk hInfo hFine hRight hExtent
  obtain ⟨hFits, -⟩ := (hOk.fine.ok r hMem).extent hExtent
  obtain ⟨-, hSome⟩ :=
    (hFine.ok info List.mem_cons_self).extent hInfo
  unfold leftInfo at hLeft
  rw [hRight, Option.bind_some] at hLeft
  split at hLeft
  case h_1 q hPrev =>
    exact (mem_rbPrev hPrev).2 (Option.some.inj hLeft)
  case h_2 =>
    obtain ⟨-, hHolds⟩ := treeSearchOffset_extent hOk.sorted
      hOk.fine hLeft hExtent
    obtain ⟨hLow, hHigh⟩ := (holds_extent hExtent).mp hHolds
    omega

/- What is on the left is in the tree, if it is an extent. -/
theorem leftInfo_mem
    (hOk : ctl.Ok unit)
    (hLeft : leftInfo bitmapFirst unit ctl.entries info = some p)
    (hExtent : p.bitmap = none) :
    p ∈ ctl.entries := by
  unfold leftInfo at hLeft
  split at hLeft
  case h_1 q hPrev =>
    obtain ⟨r, -, hPrev⟩ := Option.bind_eq_some_iff.mp hPrev
    exact Option.some.inj hLeft ▸ (mem_rbPrev hPrev).1
  case h_2 =>
    exact (treeSearchOffset_extent hOk.sorted hOk.fine hLeft
      hExtent).1

variable (unit) in
/-
  A tree and an extent that is not in it hold what another
  pair held.
-/
structure Merging
    (ctl : Ctl)
    (info : Entry)
    (more : Ctl)
    (wider : Entry) : Prop where
  ok : more.Ok unit
  extent : wider.bitmap = none
  fine : Fine unit (wider :: more.entries)
  kept : Kept unit (info :: ctl.entries) (wider :: more.entries)

theorem joinRight_spec
    (hOk : ctl.Ok unit)
    (hInfo : info.bitmap = none)
    (hFine : Fine unit (info :: ctl.entries))
    (right : Option Entry)
    (hRight : ∀ r ∈ right, r.bitmap = none →
      r ∈ ctl.entries ∧ info.offset + info.bytes = r.offset) :
    Merging unit ctl info (joinRight ctl info right).1
        (joinRight ctl info right).2 ∧
      (joinRight ctl info right).2.offset = info.offset ∧
      ∀ l ∈ ctl.entries, right ≠ some l →
        l ∈ (joinRight ctl info right).1.entries := by
  have hSame : Merging unit ctl info ctl info :=
    ⟨hOk, hInfo, hFine, .of_perm (.refl _)⟩
  unfold joinRight
  cases right with
  | none => exact ⟨hSame, rfl, fun _ hL _ => hL⟩
  | some r =>
      dsimp only
      split
      case isTrue => exact ⟨hSame, rfl, fun _ hL _ => hL⟩
      case isFalse hNot =>
        have hExtent : r.bitmap = none := by simpa using hNot
        obtain ⟨hMem, hStart⟩ := hRight r rfl hExtent
        have hPerm := (List.perm_cons_erase hMem).cons info
        obtain ⟨hWider, hKept⟩ :=
          (hFine.perm hPerm).join hInfo hExtent hStart
        obtain ⟨hFits, -⟩ := (hWider.ok _
          List.mem_cons_self).extent rfl
        have hBytes : (info.bytes + r.bytes) % 2 ^ 64 =
            info.bytes + r.bytes :=
          Nat.mod_eq_of_lt (by
            change info.offset + (info.bytes + r.bytes) < _
              at hFits
            omega)
        have hEntry : { info with
            bytes := (info.bytes + r.bytes) % 2 ^ 64 } =
              join info r := by
          rw [hBytes]
          unfold join
          rw [← hInfo]
        rw [hEntry]
        refine ⟨⟨hOk.unlink hMem, rfl, hWider,
          (Kept.of_perm hPerm).trans hKept⟩, rfl, ?_⟩
        intro l hL hOther
        refine (List.mem_erase_of_ne fun h => ?_).mpr hL
        exact hOther (congrArg some h.symm)

variable (bitmapFirst) in
theorem tryMergeFreeSpace_spec
    (hOk : ctl.Ok unit)
    (hInfo : info.bitmap = none)
    (hFine : Fine unit (info :: ctl.entries)) :
    ∃ more wider,
      tryMergeFreeSpace bitmapFirst unit ctl info =
          .ok (more, wider) ∧
        Merging unit ctl info more wider := by
  obtain ⟨hJoined, hOffset, hStays⟩ := joinRight_spec hOk hInfo
    hFine (rightInfo bitmapFirst unit ctl.entries info)
    fun r hRight hExtent =>
      rightInfo_start hOk hInfo hFine hRight hExtent
  unfold tryMergeFreeSpace
  dsimp only
  have hNotFreed :
      ¬ FreedLeft bitmapFirst unit ctl.entries info :=
    not_freedLeft hOk hInfo hFine
  split
  case h_1 => exact ⟨_, _, rfl, hJoined⟩
  case h_2 l hLeft =>
    rw [if_neg hNotFreed]
    split
    case isFalse => exact ⟨_, _, rfl, hJoined⟩
    case isTrue hNext =>
      obtain ⟨hExtent, hEnd⟩ := hNext
      have hMem := leftInfo_mem hOk hLeft hExtent
      obtain ⟨hFits, -⟩ := (hOk.fine.ok l hMem).extent hExtent
      rw [Nat.mod_eq_of_lt hFits, ← hOffset] at hEnd
      have hThere := hStays l hMem fun hRight =>
        hNotFreed ⟨l, hExtent, hRight, hLeft⟩
      generalize joinRight ctl info _ = joined at *
      obtain ⟨mid, wider⟩ := joined
      dsimp only at *
      have hPerm := ((List.perm_cons_erase hThere).cons
        wider).trans (.swap l wider _)
      obtain ⟨hWider, hKept⟩ :=
        (hJoined.fine.perm hPerm).join hExtent hJoined.extent
          hEnd
      obtain ⟨hEnds, -⟩ := (hWider.ok _
        List.mem_cons_self).extent rfl
      have hBytes : (wider.bytes + l.bytes) % 2 ^ 64 =
          l.bytes + wider.bytes := by
        change l.offset + (l.bytes + wider.bytes) < _ at hEnds
        rw [Nat.add_comm]
        exact Nat.mod_eq_of_lt (by omega)
      have hEntry : { wider with
          offset := l.offset
          bytes := (wider.bytes + l.bytes) % 2 ^ 64 } =
            join l wider := by
        rw [hBytes]
        unfold join
        rw [← hJoined.extent]
      rw [hEntry]
      exact ⟨_, _, rfl, hJoined.ok.unlink hThere, rfl, hWider,
        (hJoined.kept.trans (.of_perm hPerm)).trans hKept⟩

variable (bitmapFirst) in
/-
  Free space that is apart from the tree is added to it; no
  call ends with `BUG_ON`.
-/
theorem addFreeSpace_spec
    (hOk : ctl.Ok unit)
    {bytes : Nat}
    (hFine : Fine unit (⟨offset, bytes, none⟩ :: ctl.entries)) :
    ∃ more,
      addFreeSpace bitmapFirst unit ctl offset bytes = .ok more ∧
        more.Ok unit ∧
        Kept unit (⟨offset, bytes, none⟩ :: ctl.entries)
          more.entries := by
  obtain ⟨mid, wider, hMerge, hMerging⟩ :=
    tryMergeFreeSpace_spec bitmapFirst hOk rfl hFine
  obtain ⟨more, hLink, hMore, hPerm⟩ :=
    hMerging.ok.link hMerging.extent hMerging.fine
  refine ⟨more, ?_, hMore,
    hMerging.kept.trans (.of_perm hPerm.symm)⟩
  unfold addFreeSpace
  rw [hMerge]
  dsimp only
  rw [hLink]

----------
-- Trees of Extents
----------

/- Extents of which none ends where another starts. -/
def Spare
    (entries : List Entry) : Prop :=
  ∀ e ∈ entries, e.bitmap = none ∧
    ∀ x ∈ entries, e.offset + e.bytes ≠ x.offset

theorem Fine.eq_of_holds
    {b : Nat}
    (hFine : Fine unit entries)
    (hE : e ∈ entries)
    (hP : p ∈ entries)
    (hHere : e.Holds unit b)
    (hThere : p.Holds unit b) :
    e = p := by
  have hSymm : Std.Symm (Apart unit) := ⟨fun _ _ h => h.symm⟩
  by_contra hNot
  exact hFine.apart.forall hE hP hNot b hHere hThere

theorem Sorted.last
    (hSorted : Sorted entries)
    (hLast : entries.getLast? = some p)
    (hE : e ∈ entries) :
    e = p ∨ e.Above p := by
  rcases List.getLast?_eq_some_iff.mp hLast with ⟨front, rfl⟩
  rcases List.mem_append.mp hE with hIn | hIn
  · exact .inr ((List.pairwise_append.mp hSorted).2.2 e hIn p
      (List.mem_singleton_self p))
  · exact .inl (List.mem_singleton.mp hIn)

/- In such a tree the extent of a free byte is found. -/
theorem treeSearchOffset_of_holds
    (hOk : ctl.Ok unit)
    (hSpare : Spare ctl.entries)
    (hE : e ∈ ctl.entries)
    (hHolds : e.Holds unit offset) :
    treeSearchOffset bitmapFirst unit ctl.entries offset =
      some e := by
  rcases (holds_extent (hSpare e hE).1).mp hHolds with
    ⟨hLow, hHigh⟩
  have hBitmap : (ctl.entries.find? fun x =>
      x.offset = offset ∧ x.bitmap.isSome) = none := by
    refine List.find?_eq_none.mpr fun x hX => ?_
    rw [(hSpare x hX).1]
    simp
  unfold treeSearchOffset entryAt
  rw [hBitmap]
  cases hFind : ctl.entries.find? fun x =>
      x.offset = offset ∧ x.bitmap = none with
  | some x =>
      have hX := List.mem_of_find?_eq_some hFind
      have hAt : x.offset = offset ∧ x.bitmap = none := by
        simpa using List.find?_some hFind
      have hSome := ((hOk.fine.ok x hX).extent hAt.2).2
      rw [← hOk.fine.eq_of_holds hE hX hHolds
        ((holds_extent hAt.2).mpr ⟨hAt.1.le, by omega⟩)]
      dsimp only
      rw [(hSpare e hE).1]
      rfl
  | none =>
      have hNot := List.find?_eq_none.mp hFind e hE
      rw [decide_eq_true_eq, not_and] at hNot
      have hLess : e.offset < offset :=
        hLow.lt_of_ne fun hSame => hNot hSame (hSpare e hE).1
      have hIn : e ∈ ctl.entries.filter fun x =>
          x.offset < offset :=
        List.mem_filter.mpr ⟨hE, decide_eq_true hLess⟩
      dsimp only
      cases hLast : (ctl.entries.filter fun x =>
          x.offset < offset).getLast? with
      | none =>
          rw [List.getLast?_eq_none_iff.mp hLast] at hIn
          cases hIn
      | some y =>
          rcases List.mem_filter.mp (List.mem_of_getLast? hLast)
            with ⟨hY, hLow'⟩
          rw [decide_eq_true_eq] at hLow'
          obtain rfl : e = y := by
            by_contra hOther
            have hAbove := (Sorted.last (hOk.sorted.sublist
              List.filter_sublist) hLast hIn).resolve_left hOther
            have hExtent := (hOk.fine.ok y hY).extent
              (hSpare y hY).1
            -- the last one before the offset would meet it
            refine hOther (hOk.fine.eq_of_holds (b := y.offset)
              hE hY ((holds_extent (hSpare e hE).1).mpr
                ⟨hAbove.le, by omega⟩)
              ((holds_extent (hSpare y hY).1).mpr
                ⟨Nat.le_refl _, by omega⟩))
          have hFits := ((hOk.fine.ok e hE).extent
            (hSpare e hE).1).1
          dsimp only
          rw [if_neg (by rw [(hSpare e hE).1]; decide), if_pos]
          refine ⟨(hSpare e hE).1, ?_⟩
          rwa [Nat.mod_eq_of_lt hFits]

theorem mem_treeSearchOffset
    (hSpare : Spare entries)
    (hFound : treeSearchOffset bitmapFirst unit entries offset =
      some r) :
    r ∈ entries := by
  unfold treeSearchOffset at hFound
  cases hAt : entryAt bitmapFirst entries offset with
  | some x =>
      have hX := (mem_entryAt hAt).1
      rw [hAt] at hFound
      dsimp only at hFound
      rw [(hSpare x hX).1] at hFound
      exact Option.some.inj hFound ▸ hX
  | none =>
      rw [hAt] at hFound
      dsimp only at hFound
      cases hLast : (entries.filter fun x =>
          x.offset < offset).getLast? with
      | none =>
          rw [hLast] at hFound
          cases hFound
      | some x =>
          have hX := (List.mem_filter.mp
            (List.mem_of_getLast? hLast)).1
          rw [hLast] at hFound
          dsimp only at hFound
          rw [if_neg (by rw [(hSpare x hX).1]; decide)] at hFound
          split_ifs at hFound
          exact Option.some.inj hFound ▸ hX

theorem rbPrev_eq
    {rest : List Entry}
    (hSorted : Sorted (entries ++ r :: rest)) :
    rbPrev (entries ++ r :: rest) r = entries.getLast? := by
  have hOut : ∀ x ∈ entries, x ≠ r := fun x hX =>
    ((List.pairwise_append.mp hSorted).2.2 x hX r
      List.mem_cons_self).ne
  unfold rbPrev
  rw [List.takeWhile_append_of_pos (by simpa using hOut),
    List.takeWhile_cons_of_neg (by simp), List.append_nil]

/- An extent behind the new one, and one before it, is found. -/
theorem rightInfo_of_start
    (hOk : ctl.Ok unit)
    (hSpare : Spare ctl.entries)
    (hFits : info.offset + info.bytes < 2 ^ 64)
    (hE : e ∈ ctl.entries)
    (hStart : info.offset + info.bytes = e.offset) :
    rightInfo bitmapFirst unit ctl.entries info = some e := by
  have hSome := ((hOk.fine.ok e hE).extent (hSpare e hE).1).2
  unfold rightInfo
  rw [Nat.mod_eq_of_lt hFits]
  exact treeSearchOffset_of_holds hOk hSpare hE
    ((holds_extent (hSpare e hE).1).mpr
      ⟨hStart.ge, by omega⟩)

theorem leftInfo_of_end
    (hOk : ctl.Ok unit)
    (hSpare : Spare ctl.entries)
    (hInfo : info.bitmap = none)
    (hFine : Fine unit (info :: ctl.entries))
    (hE : e ∈ ctl.entries)
    (hEnd : e.offset + e.bytes = info.offset) :
    leftInfo bitmapFirst unit ctl.entries info = some e := by
  rcases fine_cons.mp hFine with ⟨hOkInfo, hApart, -⟩
  have hSome := ((hOk.fine.ok e hE).extent (hSpare e hE).1).2
  have hFits := hOkInfo.extent hInfo
  -- without a neighbour of the right one
  have hSearch : treeSearchOffset bitmapFirst unit ctl.entries
      ((info.offset + (2 ^ 64 - 1)) % 2 ^ 64) = some e := by
    have hBefore : (info.offset + (2 ^ 64 - 1)) % 2 ^ 64 =
        info.offset - 1 := by
      omega
    rw [hBefore]
    exact treeSearchOffset_of_holds hOk hSpare hE
      ((holds_extent (hSpare e hE).1).mpr
        ⟨by omega, by omega⟩)
  unfold leftInfo
  cases hRight : rightInfo bitmapFirst unit ctl.entries info with
  | none => exact hSearch
  | some r =>
      have hR := mem_treeSearchOffset hSpare hRight
      have hStart := (rightInfo_start hOk hInfo hFine hRight
        (hSpare r hR).1).2
      rw [Option.bind_some]
      cases hPrev : rbPrev ctl.entries r with
      | none => exact hSearch
      | some q =>
          rcases List.append_of_mem hR with ⟨front, back, hParts⟩
          have hSorted := hOk.sorted
          rw [hParts] at hSorted hPrev
          rw [rbPrev_eq hSorted] at hPrev
          rcases List.pairwise_append.mp hSorted with
            ⟨hFront, hBack, hCross⟩
          have hQ := List.mem_of_getLast? hPrev
          have hQ' : q ∈ ctl.entries := by
            rw [hParts]
            exact List.mem_append_left _ hQ
          have hExtent := (hOk.fine.ok q hQ').extent
            (hSpare q hQ').1
          have hHere : q.Holds unit q.offset :=
            (holds_extent (hSpare q hQ').1).mpr
              ⟨Nat.le_refl _, by omega⟩
          have hBelow := hCross q hQ r List.mem_cons_self
          by_contra hOther
          have hNe : e ≠ q := fun hSame => hOther (by rw [hSame])
          have hIn : e ∈ front := by
            have hE' := hE
            rw [hParts] at hE'
            refine (List.mem_append.mp hE').resolve_right ?_
            intro hAfter
            rcases List.mem_cons.mp hAfter with rfl | hAfter
            · omega
            · have hLe := ((List.pairwise_cons.mp hBack).1 e
                hAfter).le
              omega
          have hAbove := (Sorted.last hFront hPrev
            hIn).resolve_left hNe
          have hGap := (hSpare e hE).2 q hQ'
          by_cases hMeets : q.offset < e.offset + e.bytes
          · exact hNe (hOk.fine.eq_of_holds hE hQ'
              ((holds_extent (hSpare e hE).1).mpr
                ⟨hAbove.le, hMeets⟩) hHere)
          · -- between the two, where the new extent is
            refine hApart q hQ' q.offset ((holds_extent
              hInfo).mpr ⟨by omega, ?_⟩) hHere
            rcases hBelow with hLess | ⟨-, -, hNot⟩
            · omega
            · rw [(hSpare r hR).1] at hNot
              cases hNot

variable (bitmapFirst) in
/- Nothing starts where what is joined on the right ends. -/
theorem joinRight_spare
    (hOk : ctl.Ok unit)
    (hSpare : Spare ctl.entries)
    (hInfo : info.bitmap = none)
    (hFine : Fine unit (info :: ctl.entries)) :
    ∃ right joined, joinRight ctl info
        (rightInfo bitmapFirst unit ctl.entries info) =
          (right, joined) ∧
      joined.offset = info.offset ∧
      joined.offset + joined.bytes < 2 ^ 64 ∧
      ∀ x ∈ right.entries, x ∈ ctl.entries ∧
        joined.offset + joined.bytes ≠ x.offset := by
  have hFits := ((hFine.ok info List.mem_cons_self).extent
    hInfo).1
  cases hRight : rightInfo bitmapFirst unit ctl.entries info
    with
  | none =>
      refine ⟨ctl, info, rfl, rfl, hFits, fun x hX =>
        ⟨hX, fun hStart => ?_⟩⟩
      rw [rightInfo_of_start hOk hSpare hFits hX hStart]
        at hRight
      cases hRight
  | some r =>
      have hR := mem_treeSearchOffset hSpare hRight
      have hStart := (rightInfo_start hOk hInfo hFine hRight
        (hSpare r hR).1).2
      have hEnd := ((hOk.fine.ok r hR).extent (hSpare r hR).1).1
      have hBytes : (info.bytes + r.bytes) % 2 ^ 64 =
          info.bytes + r.bytes := Nat.mod_eq_of_lt (by omega)
      refine ⟨_, _, if_neg (by rw [(hSpare r hR).1]; decide),
        rfl, ?_, fun x hX => ?_⟩
      · dsimp only
        omega
      · have hX' := List.mem_of_mem_erase hX
        have hGap := (hSpare r hR).2 x hX'
        refine ⟨hX', ?_⟩
        dsimp only
        omega

/- Nothing that stays in the tree touches the joined extent. -/
theorem tryMergeFreeSpace_spare
    {mid : Ctl}
    {wider : Entry}
    (hOk : ctl.Ok unit)
    (hSpare : Spare ctl.entries)
    (hInfo : info.bitmap = none)
    (hFine : Fine unit (info :: ctl.entries))
    (hMerge : tryMergeFreeSpace bitmapFirst unit ctl info =
      .ok (mid, wider)) :
    ∀ x ∈ mid.entries, x ∈ ctl.entries ∧
      x.offset + x.bytes ≠ wider.offset ∧
      wider.offset + wider.bytes ≠ x.offset := by
  rcases joinRight_spare bitmapFirst hOk hSpare hInfo hFine with
    ⟨right, joined, hJoin, hOffset, hEnd, hRest⟩
  have hNot : ¬ FreedLeft bitmapFirst unit ctl.entries info :=
    not_freedLeft hOk hInfo hFine
  unfold tryMergeFreeSpace at hMerge
  rw [hJoin] at hMerge
  -- an extent that ends at the new one would be on its left
  have hOther : ∀ x ∈ ctl.entries,
      x.offset + x.bytes = info.offset →
        leftInfo bitmapFirst unit ctl.entries info = some x :=
    fun x hX hEnd =>
      leftInfo_of_end hOk hSpare hInfo hFine hX hEnd
  cases hLeft : leftInfo bitmapFirst unit ctl.entries info with
  | none =>
      rw [hLeft] at hMerge hOther
      cases hMerge
      refine fun x hX => ⟨(hRest x hX).1, fun hEnd => ?_,
        (hRest x hX).2⟩
      cases hOther x (hRest x hX).1 (hEnd.trans hOffset)
  | some l =>
      rw [hLeft] at hMerge hOther
      dsimp only at hMerge
      rw [if_neg hNot] at hMerge
      by_cases hNext : l.bitmap = none ∧
          (l.offset + l.bytes) % 2 ^ 64 = info.offset
      · rw [if_pos hNext] at hMerge
        cases hMerge
        have hL := leftInfo_mem hOk hLeft hNext.1
        have hLow := ((hOk.fine.ok l hL).extent hNext.1).1
        rw [Nat.mod_eq_of_lt hLow] at hNext
        intro x hX
        have hX' := List.mem_of_mem_erase hX
        have hGap := (hRest x hX').2
        refine ⟨(hRest x hX').1,
          (hSpare x (hRest x hX').1).2 l hL, ?_⟩
        dsimp only
        rw [Nat.mod_eq_of_lt (by omega)]
        omega
      · rw [if_neg hNext] at hMerge
        cases hMerge
        refine fun x hX => ⟨(hRest x hX).1, fun hEnd => ?_,
          (hRest x hX).2⟩
        have hX' := (hRest x hX).1
        cases hOther x hX' (hEnd.trans hOffset)
        refine hNext ⟨(hSpare l hX').1, ?_⟩
        rw [Nat.mod_eq_of_lt ((hOk.fine.ok l hX').extent
          (hSpare l hX').1).1]
        exact hEnd.trans hOffset

variable (bitmapFirst) in
theorem addFreeSpace_spare
    {bytes : Nat}
    (hOk : ctl.Ok unit)
    (hSpare : Spare ctl.entries)
    (hFine : Fine unit (⟨offset, bytes, none⟩ :: ctl.entries)) :
    ∃ more,
      addFreeSpace bitmapFirst unit ctl offset bytes = .ok more ∧
        more.Ok unit ∧ Spare more.entries ∧
        ∀ b, Holding unit more.entries b ↔
          Holding unit (⟨offset, bytes, none⟩ :: ctl.entries)
            b := by
  rcases tryMergeFreeSpace_spec bitmapFirst hOk rfl hFine with
    ⟨mid, wider, hMerge, hMerging⟩
  rcases hMerging.ok.link hMerging.extent hMerging.fine with
    ⟨more, hLink, hMore, hPerm⟩
  have hRest := tryMergeFreeSpace_spare hOk hSpare rfl hFine
    hMerge
  have hSome := ((hMerging.fine.ok wider
    List.mem_cons_self).extent hMerging.extent).2
  refine ⟨more, ?_, hMore, ?_,
    (hMerging.kept.trans (.of_perm hPerm.symm)).holding⟩
  · unfold addFreeSpace
    rw [hMerge]
    dsimp only
    rw [hLink]
  · intro e hE
    simp only [hPerm.mem_iff, List.forall_mem_cons] at hE ⊢
    rcases List.mem_cons.mp hE with rfl | hE
    · exact ⟨hMerging.extent, by omega,
        fun x hX => (hRest x hX).2.2⟩
    · have hOld := hSpare e (hRest e hE).1
      exact ⟨hOld.1, (hRest e hE).2.1,
        fun x hX => hOld.2 x (hRest x hX).1⟩

----------
-- Any Order
----------

/- The extents of some ranges. -/
def extents
    (ranges : List (Nat × Nat)) : List Entry :=
  ranges.map fun r => ⟨r.1, r.2, none⟩

variable (bitmapFirst) (unit) in
/- Some calls of `btrfs_add_free_space`. -/
def addAll
    (ctl : Ctl)
    (ranges : List (Nat × Nat)) : Except Fault Ctl :=
  ranges.foldlM
    (fun ctl r => addFreeSpace bitmapFirst unit ctl r.1 r.2) ctl

/- The bytes on either side of an extent are not free. -/
theorem Spare.ends
    (hSpare : Spare ctl.entries)
    (hOk : ctl.Ok unit)
    (hE : e ∈ ctl.entries) :
    ¬ Holding unit ctl.entries (e.offset + e.bytes) ∧
      (0 < e.offset →
        ¬ Holding unit ctl.entries (e.offset - 1)) := by
  have hExtent := (hOk.fine.ok e hE).extent (hSpare e hE).1
  -- of two extents that meet, neither goes further
  have hSelf : ∀ y ∈ ctl.entries,
      max e.offset y.offset < e.offset + e.bytes →
      max e.offset y.offset < y.offset + y.bytes → e = y :=
    fun y hY hHere hThere => hOk.fine.eq_of_holds hE hY
      ((holds_extent (hSpare e hE).1).mpr
        ⟨le_max_left _ _, hHere⟩)
      ((holds_extent (hSpare y hY).1).mpr
        ⟨le_max_right _ _, hThere⟩)
  constructor
  · rintro ⟨y, hY, hHolds⟩
    rw [holds_extent (hSpare y hY).1] at hHolds
    have hGap := (hSpare e hE).2 y hY
    have hSame := hSelf y hY (by omega) (by omega)
    subst hSame
    omega
  · rintro hPos ⟨y, hY, hHolds⟩
    rw [holds_extent (hSpare y hY).1] at hHolds
    have hGap := (hSpare y hY).2 e hE
    have hSame := hSelf y hY (by omega) (by omega)
    subst hSame
    omega

/- Two trees of the same free bytes have the same extents. -/
theorem mem_of_holding
    {more : Ctl}
    (hOk : ctl.Ok unit)
    (hSpare : Spare ctl.entries)
    (hMore : more.Ok unit)
    (hSpare' : Spare more.entries)
    (hSame : ∀ b, Holding unit more.entries b ↔
      Holding unit ctl.entries b)
    (hE : e ∈ ctl.entries) :
    e ∈ more.entries := by
  have hExtent := (hOk.fine.ok e hE).extent (hSpare e hE).1
  have hHolds : ∀ b, e.Holds unit b ↔
      e.offset ≤ b ∧ b < e.offset + e.bytes := fun b =>
    holds_extent (hSpare e hE).1
  rcases (hSame e.offset).mpr ⟨e, hE, (hHolds _).mpr
    ⟨Nat.le_refl _, by omega⟩⟩ with ⟨x, hX, hThere⟩
  have hHolds' : ∀ b, x.Holds unit b ↔
      x.offset ≤ b ∧ b < x.offset + x.bytes := fun b =>
    holds_extent (hSpare' x hX).1
  rw [hHolds'] at hThere
  rcases hSpare.ends hOk hE with ⟨hBehind, hBefore⟩
  have hStart : x.offset = e.offset := by
    by_contra hNot
    exact hBefore (by omega) ((hSame _).mp
      ⟨x, hX, (hHolds' _).mpr ⟨by omega, by omega⟩⟩)
  have hEnd : x.bytes = e.bytes := by
    rcases Nat.lt_trichotomy x.bytes e.bytes with
      hLess | hEq | hMore'
    · exact absurd ((hSame _).mpr ⟨e, hE, (hHolds _).mpr
        ⟨by omega, by omega⟩⟩) (hSpare'.ends hMore hX).1
    · exact hEq
    · exact absurd ((hSame _).mp ⟨x, hX, (hHolds' _).mpr
        ⟨by omega, by omega⟩⟩) hBehind
  have hAll : x = e := by
    cases x
    cases e
    cases (hSpare _ hE).1
    cases (hSpare' _ hX).1
    cases hStart
    cases hEnd
    rfl
  exact hAll ▸ hX

theorem entries_unique
    {more : Ctl}
    (hOk : ctl.Ok unit)
    (hSpare : Spare ctl.entries)
    (hMore : more.Ok unit)
    (hSpare' : Spare more.entries)
    (hSame : ∀ b, Holding unit more.entries b ↔
      Holding unit ctl.entries b) :
    more.entries = ctl.entries := by
  have hNodup : ∀ {ctl : Ctl}, ctl.Ok unit →
      ctl.entries.Nodup := fun hOk =>
    hOk.sorted.imp Entry.Above.ne
  refine List.Perm.eq_of_pairwise ?_
    hMore.sorted hOk.sorted ((List.perm_ext_iff_of_nodup
      (hNodup hMore) (hNodup hOk)).mpr fun e => ⟨?_, ?_⟩)
  · exact fun a b _ _ hAB hBA => absurd rfl (hAB.trans hBA).ne
  · exact mem_of_holding hMore hSpare' hOk hSpare fun b =>
      (hSame b).symm
  · exact mem_of_holding hOk hSpare hMore hSpare' hSame

theorem holding_append
    {s t : List Entry}
    {b : Nat} :
    Holding unit (s ++ t) b ↔
      Holding unit s b ∨ Holding unit t b := by
  unfold Holding
  simp only [List.mem_append, or_and_right, exists_or]

/- The calls return, and no two extents touch after them. -/
theorem addAll_spec
    (bitmapFirst : List Entry → Nat → Bool)
    (hOk : ctl.Ok unit)
    (hSpare : Spare ctl.entries)
    {ranges : List (Nat × Nat)}
    (hFine : Fine unit (extents ranges ++ ctl.entries)) :
    ∃ more, addAll unit bitmapFirst ctl ranges = .ok more ∧
      more.Ok unit ∧ Spare more.entries ∧
      ∀ b, Holding unit more.entries b ↔
        Holding unit (extents ranges ++ ctl.entries) b := by
  induction ranges generalizing ctl with
  | nil => exact ⟨ctl, rfl, hOk, hSpare, fun _ => Iff.rfl⟩
  | cons r ranges ih =>
      rcases fine_cons.mp hFine with ⟨-, hApart, hRest⟩
      rcases List.pairwise_append.mp hRest.apart with
        ⟨hRanges, -, hCross⟩
      rcases addFreeSpace_spare bitmapFirst hOk hSpare
        (hFine.sublist ((List.sublist_append_right _ _).cons_cons
          _)) with ⟨mid, hAdd, hMid, hSpare', hSame⟩
      have hNext : Fine unit (extents ranges ++ mid.entries) := by
        refine ⟨fun x hX => ?_, List.pairwise_append.mpr
          ⟨hRanges, hMid.fine.apart, ?_⟩⟩
        · rcases List.mem_append.mp hX with hX | hX
          · exact hRest.ok x (List.mem_append_left _ hX)
          · exact hMid.fine.ok x hX
        · intro x hX y hY b hHere hThere
          rcases holding_cons.mp ((hSame b).mp ⟨y, hY, hThere⟩)
            with hNew | ⟨z, hZ, hOld⟩
          · exact hApart x (List.mem_append_left _ hX) b hNew
              hHere
          · exact hCross x hX z hZ b hHere hOld
      rcases ih hMid hSpare' hNext with
        ⟨more, hAll, hMore, hLast, hHolding⟩
      refine ⟨more, ?_, hMore, hLast, fun b => ?_⟩
      · unfold addAll at hAll ⊢
        rw [List.foldlM_cons, hAdd]
        exact hAll
      · rw [hHolding b, holding_append, hSame b, holding_cons,
          or_left_comm, ← holding_append, ← holding_cons]
        rfl

/-
  Free space may be added in any order: no call ends with
  `BUG_ON`, and the tree has the same extents, which are those
  of the free bytes and do not touch.
-/
theorem addAll_anyOrder
    (unit : SectorSize)
    (bitmapFirst : List Entry → Nat → Bool)
    {ctl : Ctl}
    {ranges : List (Nat × Nat)}
    (hOk : ctl.Ok unit)
    (hSpare : Spare ctl.entries)
    (hFine : Fine unit (extents ranges ++ ctl.entries)) :
    ∃ entries, Spare entries ∧
      (∀ b, Holding unit entries b ↔
        Holding unit ctl.entries b ∨
          ∃ r ∈ ranges, r.1 ≤ b ∧ b < r.1 + r.2) ∧
      ∀ order, order.Perm ranges →
        ∃ more,
          addAll unit bitmapFirst ctl order = .ok more ∧
            more.Ok unit ∧ more.entries = entries := by
  rcases addAll_spec bitmapFirst hOk hSpare hFine with
    ⟨more, -, hMore, hSpare', hSame⟩
  refine ⟨more.entries, hSpare', fun b => ?_,
    fun order hPerm => ?_⟩
  · rw [hSame b, holding_append, or_comm]
    refine or_congr_right ?_
    unfold Holding extents
    simp only [List.mem_map, exists_exists_and_eq_and]
    rfl
  · have hEntries : (extents ranges ++ ctl.entries).Perm
        (extents order ++ ctl.entries) :=
      (hPerm.symm.map _).append_right _
    rcases addAll_spec bitmapFirst hOk hSpare
      (hFine.perm hEntries) with
      ⟨other, hAll, hOther, hSpare'', hSame'⟩
    exact ⟨other, hAll, hOther, entries_unique hMore hSpare'
      hOther hSpare'' fun b => (hSame' b).trans
        ((holding_perm hEntries).symm.trans (hSame b).symm)⟩

theorem bits_small : BITS_PER_BITMAP * 4096 < 2 ^ 31 := by
  decide

/- A page behind the one that is added next. -/
theorem addAll_anyOrder_pages :
    ∃ entries, Spare entries ∧
      (∀ b, Holding ⟨4096, page_pos, bits_small⟩ entries b ↔
        Holding ⟨4096, page_pos, bits_small⟩ [] b ∨
          ∃ r ∈ [(4096, 4096), (0, 4096)],
            r.1 ≤ b ∧ b < r.1 + r.2) ∧
      ∀ order, order.Perm [(4096, 4096), (0, 4096)] →
        ∃ more,
          addAll ⟨4096, page_pos, bits_small⟩ (fun _ _ => true)
              ⟨[], 0, 0, 0⟩ order = .ok more ∧
            more.Ok ⟨4096, page_pos, bits_small⟩ ∧
            more.entries = entries := by
  have hNone : ∀ e : Entry, e ∉ [] := fun _ => List.not_mem_nil
  have hOk : Ctl.Ok ⟨4096, page_pos, bits_small⟩
      ⟨[], 0, 0, 0⟩ :=
    ⟨.nil, ⟨fun e hE => absurd hE (hNone e), .nil⟩, rfl, rfl⟩
  refine addAll_anyOrder _ _ hOk
    (fun e hE => absurd hE (hNone e))
    ⟨?_, List.pairwise_pair.mpr ?_⟩
  · intro e hE
    rcases List.mem_pair.mp hE with rfl | rfl
    · exact ⟨show 4096 + 4096 < 2 ^ 64 by decide,
        fun _ => page_pos⟩
    · exact ⟨show 0 + 4096 < 2 ^ 64 by decide,
        fun _ => page_pos⟩
  · intro b hFirst hSecond
    have hLow : 4096 ≤ b := ((holds_extent rfl).mp hFirst).1
    have hHigh : b < 0 + 4096 :=
      ((holds_extent rfl).mp hSecond).2
    omega

end FreeSpaceCache

end BtrfsProgs
