import Mathlib

/-
  The array of `struct btrfs_qgroup_inherit`, from `qgroup.c`.

  Main declarations:
    * `Inherit` and `qgroupInheritRealloc`
    * `qgroupInheritAddGroup` and `qgroupInheritAddCopy`
    * `Built`
    * `inherit_built_iff`
-/

----------
-- The Array
----------

namespace BtrfsProgs

namespace Qgroup

/-
  `struct btrfs_qgroup_inherit`; `qgroups` is what has been
  allocated of it, in words of 64 bits.
-/
structure Inherit where
  num_qgroups : Nat
  num_ref_copies : Nat
  num_excl_copies : Nat
  qgroups : List Nat
deriving Repr, DecidableEq

/-
  The words of `qgroup_inherit_size`, without those of the
  structure in front.
-/
def Inherit.words
    (i : Inherit) : Nat :=
  i.num_qgroups + 2 * i.num_ref_copies +
    2 * i.num_excl_copies

/- What `qgroup_inherit_realloc` takes for it. -/
def Inherit.nitems
    (i : Inherit) : Nat :=
  i.num_qgroups + i.num_ref_copies + i.num_excl_copies

/- `memcpy` of words; `none` is an access outside. -/
def memcpy
    (dst : List Nat)
    (dstPos : Nat)
    (src : List Nat)
    (srcPos count : Nat) : Option (List Nat) :=
  if srcPos + count ≤ src.length ∧
      dstPos + count ≤ dst.length then
    some (dst.take dstPos ++ (src.drop srcPos).take count ++
      dst.drop (dstPos + count))
  else none

/- A word is stored. -/
def Inherit.put
    (i : Inherit)
    (pos v : Nat) : Option Inherit :=
  if pos < i.qgroups.length then
    some { i with qgroups := i.qgroups.set pos v }
  else none

/-
  `qgroup_inherit_realloc`, with memory left. A length below
  zero is a huge one for `memcpy`.
-/
def qgroupInheritRealloc
    (inherit : Option Inherit)
    (n pos : Nat) : Option Inherit :=
  match inherit with
  | none => some ⟨0, 0, 0, List.replicate n 0⟩
  | some i => do
      let out := List.replicate (i.nitems + n) 0
      let out ← memcpy out 0 i.qgroups 0 pos
      if pos ≤ i.nitems then
        let out ← memcpy out (pos + n) i.qgroups pos
          (i.nitems - pos)
        some { i with qgroups := out }
      else none

/- `qgroup_inherit_add_group`, with a valid argument. -/
def qgroupInheritAddGroup
    (inherit : Option Inherit)
    (qgroupid : Nat) : Option Inherit := do
  let pos := (inherit.map (·.num_qgroups)).getD 0
  let i ← qgroupInheritRealloc inherit 1 pos
  let i ← i.put i.num_qgroups qgroupid
  some { i with num_qgroups := i.num_qgroups + 1 }

/- The type of a copy: of what is referenced, or exclusive. -/
inductive CopyType where
  | ref
  | excl
deriving Repr, DecidableEq

/- `qgroup_inherit_add_copy`, with a valid argument. -/
def qgroupInheritAddCopy
    (inherit : Option Inherit)
    (qgroupSrc qgroupDst : Nat)
    (type : CopyType) : Option Inherit := do
  let pos := (inherit.map fun i =>
    i.num_qgroups + i.num_ref_copies * 2 *
      (if type = .ref then 0 else 1)).getD 0
  let i ← qgroupInheritRealloc inherit 2 pos
  let i ← i.put pos qgroupSrc
  let i ← i.put (pos + 1) qgroupDst
  some (if type = .ref then
    { i with num_ref_copies := i.num_ref_copies + 1 }
  else { i with num_excl_copies := i.num_excl_copies + 1 })

----------
-- Calls
----------

/- A call, with the ids of its argument. -/
inductive Add where
  | group (qgroupid : Nat)
  | copy (type : CopyType) (src dst : Nat)
deriving Repr, DecidableEq

def Add.isGroup : Add → Bool
  | group _ => true
  | copy .. => false

/- How many words it needs. -/
def Add.size : Add → Nat
  | group _ => 1
  | copy .. => 2

def Add.run
    (inherit : Option Inherit) : Add → Option Inherit
  | group qgroupid => qgroupInheritAddGroup inherit qgroupid
  | copy type src dst =>
      qgroupInheritAddCopy inherit src dst type

/- Calls in turn, from the null pointer on. -/
def runAdds
    (adds : List Add) : Option (Option Inherit) :=
  adds.foldlM (fun inherit add => (add.run inherit).map some)
    none

/- What the calls name. -/
def groupsOf
    (adds : List Add) : List Nat :=
  adds.filterMap fun
    | .group qgroupid => some qgroupid
    | .copy .. => none

def copiesOf
    (type : CopyType)
    (adds : List Add) : List (Nat × Nat) :=
  adds.filterMap fun
    | .group _ => none
    | .copy t src dst => if t = type then some (src, dst) else none

/- Pairs, word by word. -/
def flat
    (pairs : List (Nat × Nat)) : List Nat :=
  pairs.flatMap fun p => [p.1, p.2]

/-
  The array of the calls: the groups in their order, then the
  pairs of each type, in memory that is allocated.
-/
def Holds
    (adds : List Add) : Option Inherit → Prop
  | none => adds = []
  | some i =>
      i.num_qgroups = (groupsOf adds).length ∧
        i.num_ref_copies = (copiesOf .ref adds).length ∧
        i.num_excl_copies = (copiesOf .excl adds).length ∧
        i.words ≤ i.qgroups.length ∧
        ∃ refs excls,
          refs.Perm (copiesOf .ref adds) ∧
            excls.Perm (copiesOf .excl adds) ∧
            i.qgroups.take i.words =
              groupsOf adds ++ flat refs ++ flat excls

/- No call leaves the array, and it is that of the calls. -/
def Built
    (adds : List Add) : Prop :=
  ∃ inherit, runAdds adds = some inherit ∧ Holds adds inherit

----------
-- One Call
----------

section Calls

variable {i i' : Inherit} {add : Add}
variable {adds : List Add} {inherit : Option Inherit}

theorem length_memcpy
    {dst src out : List Nat}
    {dstPos srcPos count : Nat}
    (hCopy : memcpy dst dstPos src srcPos count = some out) :
    out.length = dst.length := by
  unfold memcpy at hCopy
  by_cases hIn : srcPos + count ≤ src.length ∧
      dstPos + count ≤ dst.length
  · rw [if_pos hIn] at hCopy
    cases hCopy
    simp only [List.length_append, List.length_take,
      List.length_drop]
    omega
  · rw [if_neg hIn] at hCopy
    cases hCopy

theorem put_some
    {pos v : Nat}
    (hPut : i.put pos v = some i') :
    i' = { i with qgroups := i.qgroups.set pos v } := by
  unfold Inherit.put at hPut
  by_cases hIn : pos < i.qgroups.length
  · rw [if_pos hIn] at hPut
    exact (Option.some.inj hPut).symm
  · rw [if_neg hIn] at hPut
    cases hPut

/- The new array has room for the items and the call. -/
theorem realloc_some
    {n pos : Nat}
    (hRealloc : qgroupInheritRealloc (some i) n pos = some i') :
    ∃ out, i' = { i with qgroups := out } ∧
      out.length = i.nitems + n := by
  unfold qgroupInheritRealloc at hRealloc
  simp only [Option.bind_eq_bind, Option.bind_eq_some_iff]
    at hRealloc
  rcases hRealloc with ⟨first, hFirst, hRest⟩
  by_cases hPos : pos ≤ i.nitems
  · rw [if_pos hPos, Option.bind_eq_some_iff] at hRest
    rcases hRest with ⟨out, hOut, hSome⟩
    refine ⟨out, (Option.some.inj hSome).symm, ?_⟩
    rw [length_memcpy hOut, length_memcpy hFirst,
      List.length_replicate]
  · rw [if_neg hPos] at hRest
    cases hRest

/- The counts after a call, and the size of the array. -/
theorem run_some
    (hRun : add.run (some i) = some i') :
    i'.num_qgroups =
        i.num_qgroups + (groupsOf [add]).length ∧
      i'.num_ref_copies =
        i.num_ref_copies + (copiesOf .ref [add]).length ∧
      i'.num_excl_copies =
        i.num_excl_copies + (copiesOf .excl [add]).length ∧
      i'.qgroups.length = i.nitems + add.size := by
  cases add with
  | group qgroupid =>
      unfold Add.run qgroupInheritAddGroup at hRun
      simp only [Option.bind_eq_bind, Option.bind_eq_some_iff]
        at hRun
      rcases hRun with ⟨b, hRealloc, c, hPut, hSome⟩
      rcases realloc_some hRealloc with ⟨out, rfl, hLength⟩
      rw [← Option.some.inj hSome, put_some hPut]
      refine ⟨rfl, rfl, rfl, ?_⟩
      rw [List.length_set, hLength]
      rfl
  | copy type src dst =>
      unfold Add.run qgroupInheritAddCopy at hRun
      simp only [Option.bind_eq_bind, Option.bind_eq_some_iff]
        at hRun
      rcases hRun with ⟨b, hRealloc, c, hPut, d, hPut', hSome⟩
      rcases realloc_some hRealloc with ⟨out, rfl, hLength⟩
      rw [← Option.some.inj hSome, put_some hPut', put_some hPut]
      cases type with
      | ref =>
          refine ⟨rfl, rfl, rfl, ?_⟩
          rw [if_pos rfl]
          simp only [List.length_set, hLength]
          rfl
      | excl =>
          refine ⟨rfl, rfl, rfl, ?_⟩
          rw [if_neg (by decide)]
          simp only [List.length_set, hLength]
          rfl

/- Calls, and one more. -/
theorem runAdds_concat
    (adds : List Add)
    (add : Add) :
    runAdds (adds ++ [add]) =
      (runAdds adds).bind fun inherit =>
        (add.run inherit).map some := by
  unfold runAdds
  rw [List.foldlM_append]
  simp only [List.foldlM_cons, List.foldlM_nil, bind_pure]
  rfl

theorem runAdds_null
    (hRun : runAdds adds = some none) :
    adds = [] := by
  rcases List.eq_nil_or_concat adds with hNil | ⟨front, add, rfl⟩
  · exact hNil
  · rw [List.concat_eq_append, runAdds_concat,
      Option.bind_eq_some_iff] at hRun
    rcases hRun with ⟨inherit, _, hLast⟩
    rw [Option.map_eq_some_iff] at hLast
    rcases hLast with ⟨i, _, hSome⟩
    cases hSome

/- The first call. -/
theorem run_none
    (add : Add) :
    ∃ i, add.run none = some i ∧
      i.num_qgroups = (groupsOf [add]).length ∧
        i.num_ref_copies = (copiesOf .ref [add]).length ∧
        i.num_excl_copies = (copiesOf .excl [add]).length := by
  cases add with
  | group qgroupid => exact ⟨_, rfl, rfl, rfl, rfl⟩
  | copy type src dst =>
      cases type with
      | ref
      | excl => exact ⟨_, rfl, rfl, rfl, rfl⟩

theorem groupsOf_append
    (adds more : List Add) :
    groupsOf (adds ++ more) = groupsOf adds ++ groupsOf more :=
  List.filterMap_append

theorem copiesOf_append
    (type : CopyType)
    (adds more : List Add) :
    copiesOf type (adds ++ more) =
      copiesOf type adds ++ copiesOf type more :=
  List.filterMap_append

/- The counts are those of the calls. -/
theorem runAdds_counts
    (hRun : runAdds adds = some (some i)) :
    i.num_qgroups = (groupsOf adds).length ∧
      i.num_ref_copies = (copiesOf .ref adds).length ∧
      i.num_excl_copies = (copiesOf .excl adds).length := by
  induction adds using List.reverseRecOn generalizing i with
  | nil => cases hRun
  | append_singleton adds add ih =>
      rw [runAdds_concat, Option.bind_eq_some_iff] at hRun
      rcases hRun with ⟨inherit, hFront, hLast⟩
      rw [Option.map_eq_some_iff] at hLast
      rcases hLast with ⟨i', hLast, hSame⟩
      cases hSame
      simp only [groupsOf_append, copiesOf_append,
        List.length_append]
      cases inherit with
      | none =>
          rcases run_none add with ⟨j, hFirst, hCounts⟩
          rw [hFirst] at hLast
          cases hLast
          rw [runAdds_null hFront]
          simpa [groupsOf, copiesOf] using hCounts
      | some p =>
          rcases ih hFront with ⟨hGroups, hRefs, hExcls⟩
          rcases run_some hLast with ⟨hG, hR, hE, _⟩
          rw [hG, hR, hE, hGroups, hRefs, hExcls]
          exact ⟨rfl, rfl, rfl⟩

/- An array of groups only. -/
def plain
    (gs : List Nat) : Option Inherit :=
  if gs = [] then none else some ⟨gs.length, 0, 0, gs⟩

/- Behind groups, the new array is right. -/
theorem realloc_plain
    (gs : List Nat)
    (n : Nat) :
    qgroupInheritRealloc (plain gs) n gs.length =
      some ⟨gs.length, 0, 0, gs ++ List.replicate n 0⟩ := by
  unfold plain
  by_cases hNil : gs = []
  · subst hNil
    rfl
  · rw [if_neg hNil]
    unfold qgroupInheritRealloc Inherit.nitems memcpy
    simp

theorem pos_plain
    (gs : List Nat) :
    ((plain gs).map (·.num_qgroups)).getD 0 = gs.length := by
  unfold plain
  by_cases hNil : gs = []
  · subst hNil
    rfl
  · rw [if_neg hNil]
    rfl

theorem posCopy_plain
    (gs : List Nat)
    (k : Nat) :
    ((plain gs).map fun i =>
      i.num_qgroups + i.num_ref_copies * 2 * k).getD 0 =
        gs.length := by
  unfold plain
  by_cases hNil : gs = []
  · subst hNil
    rfl
  · rw [if_neg hNil]
    simp

theorem addGroup_plain
    (gs : List Nat)
    (qgroupid : Nat) :
    qgroupInheritAddGroup (plain gs) qgroupid =
      some ⟨gs.length + 1, 0, 0, gs ++ [qgroupid]⟩ := by
  unfold qgroupInheritAddGroup
  rw [pos_plain]
  dsimp only
  rw [realloc_plain]
  simp [Inherit.put]

theorem addCopy_plain
    (gs : List Nat)
    (src dst : Nat)
    (type : CopyType) :
    qgroupInheritAddCopy (plain gs) src dst type =
      some (if type = .ref then
        ⟨gs.length, 1, 0, gs ++ [src, dst]⟩
      else ⟨gs.length, 0, 1, gs ++ [src, dst]⟩) := by
  unfold qgroupInheritAddCopy
  rw [posCopy_plain]
  dsimp only
  rw [realloc_plain]
  simp [Inherit.put]

/- Calls that add groups leave just these. -/
theorem runAdds_groups
    (hGroups : ∀ add ∈ adds, add.isGroup = true) :
    runAdds adds = some (plain (groupsOf adds)) ∧
      copiesOf .ref adds = [] ∧ copiesOf .excl adds = [] := by
  induction adds using List.reverseRecOn with
  | nil => exact ⟨rfl, rfl, rfl⟩
  | append_singleton adds add ih =>
      rcases ih fun a hIn =>
        hGroups a (List.mem_append_left _ hIn) with
        ⟨hRun, hRefs, hExcls⟩
      have hLast := hGroups add (by simp)
      cases add with
      | copy type src dst => cases hLast
      | group qgroupid =>
          rw [runAdds_concat, hRun, copiesOf_append, hRefs,
            copiesOf_append, hExcls, groupsOf_append]
          refine ⟨?_, rfl, rfl⟩
          change (qgroupInheritAddGroup _ qgroupid).map some = _
          rw [addGroup_plain]
          unfold plain
          rw [if_neg (by simp [groupsOf]), List.length_append]
          rfl

/- A copy makes the array shorter than what it is to hold. -/
theorem words_gt
    (hCopy : ∃ a ∈ adds, a.isGroup = false)
    (hFront : runAdds adds = some (some i))
    (hLast : add.run (some i) = some i') :
    i'.qgroups.length < i'.words := by
  rcases runAdds_counts hFront with ⟨_, hRefs, hExcls⟩
  rcases run_some hLast with ⟨hG, hR, hE, hLength⟩
  have hSome : 0 < i.num_ref_copies + i.num_excl_copies := by
    rcases hCopy with ⟨a, hIn, hKind⟩
    cases a with
    | group qgroupid => cases hKind
    | copy type src dst =>
        have hPair : (src, dst) ∈ copiesOf type adds :=
          List.mem_filterMap.mpr ⟨_, hIn, if_pos rfl⟩
        have hPos := List.length_pos_of_mem hPair
        rw [hRefs, hExcls]
        cases type with
        | ref => exact Nat.add_pos_left hPos _
        | excl => exact Nat.add_pos_right _ hPos
  have hSize : (groupsOf [add]).length +
      2 * (copiesOf .ref [add]).length +
        2 * (copiesOf .excl [add]).length = add.size := by
    cases add with
    | group qgroupid => rfl
    | copy type src dst =>
        cases type with
        | ref => rfl
        | excl => rfl
  unfold Inherit.words
  rw [hLength, hG, hR, hE]
  unfold Inherit.nitems
  omega

/- An array that holds what the calls name, and no more. -/
theorem holds_of
    {refs excls : List (Nat × Nat)}
    (hRefs : copiesOf .ref adds = refs)
    (hExcls : copiesOf .excl adds = excls) :
    Holds adds (some ⟨(groupsOf adds).length, refs.length,
      excls.length, groupsOf adds ++ flat refs ++ flat excls⟩) := by
  have hFlat : ∀ pairs : List (Nat × Nat),
      (flat pairs).length = 2 * pairs.length := by
    intro pairs
    unfold flat
    rw [List.length_flatMap]
    simp [Nat.mul_comm]
  have hWords : Inherit.words ⟨(groupsOf adds).length,
      refs.length, excls.length,
        groupsOf adds ++ flat refs ++ flat excls⟩ =
        (groupsOf adds ++ flat refs ++ flat excls).length := by
    rw [List.length_append, List.length_append, hFlat, hFlat]
    rfl
  refine ⟨rfl, by rw [hRefs], by rw [hExcls], Nat.le_of_eq hWords, refs,
    excls, ?_, ?_, ?_⟩
  · rw [hRefs]
  · rw [hExcls]
  · rw [hWords]
    exact List.take_length

/- The last call after groups leaves the right array. -/
theorem built_concat
    (hGroups : ∀ a ∈ adds, a.isGroup = true) :
    Built (adds ++ [add]) := by
  rcases runAdds_groups hGroups with ⟨hRun, hRefs, hExcls⟩
  have hOne := groupsOf_append adds [add]
  have hTwo := copiesOf_append .ref adds [add]
  have hThree := copiesOf_append .excl adds [add]
  rw [hRefs, List.nil_append] at hTwo
  rw [hExcls, List.nil_append] at hThree
  have hHolds := holds_of hTwo hThree
  rw [hOne] at hHolds
  refine ⟨_, ?_, hHolds⟩
  rw [runAdds_concat, hRun]
  cases add with
  | group qgroupid =>
      change (qgroupInheritAddGroup _ qgroupid).map some = _
      rw [addGroup_plain]
      simp [groupsOf, copiesOf, flat]
  | copy type src dst =>
      change (qgroupInheritAddCopy _ src dst type).map some = _
      rw [addCopy_plain]
      cases type with
      | ref
      | excl => simp [groupsOf, copiesOf, flat]

end Calls

/-
  The array is built right exactly if all calls but the last
  one add groups: behind a copy, every new array is too small.
-/
theorem inherit_built_iff
    (adds : List Add) :
    Built adds ↔ ∀ add ∈ adds.dropLast, add.isGroup = true := by
  rcases List.eq_nil_or_concat adds with rfl | ⟨front, last, rfl⟩
  · exact iff_of_true ⟨none, rfl, rfl⟩ (by simp)
  rw [List.concat_eq_append, List.dropLast_concat]
  constructor
  · rintro ⟨inherit, hRun, hHolds⟩ add hIn
    by_contra hCopy
    rw [Bool.not_eq_true] at hCopy
    rw [runAdds_concat, Option.bind_eq_some_iff] at hRun
    rcases hRun with ⟨prev, hFront, hLast⟩
    rw [Option.map_eq_some_iff] at hLast
    rcases hLast with ⟨i, hLast, rfl⟩
    cases prev with
    | none =>
        rw [runAdds_null hFront] at hIn
        cases hIn
    | some p =>
        have hMore := words_gt ⟨add, hIn, hCopy⟩ hFront hLast
        exact absurd hHolds.2.2.2.1 (Nat.not_le.mpr hMore)
  · exact built_concat

/- Of two copies, the first one loses its destination. -/
theorem two_copies_not_built :
    runAdds [.copy .ref 5 6, .copy .ref 7 8] =
        some (some ⟨0, 2, 0, [7, 8, 5]⟩) ∧
      ¬Built [.copy .ref 5 6, .copy .ref 7 8] := by
  have hRun : runAdds [.copy .ref 5 6, .copy .ref 7 8] =
      some (some ⟨0, 2, 0, [7, 8, 5]⟩) := by
    decide
  refine ⟨hRun, ?_⟩
  rintro ⟨inherit, hSome, hHolds⟩
  rw [hRun] at hSome
  rw [← Option.some.inj hSome] at hHolds
  exact absurd hHolds.2.2.2.1 (by decide)

end Qgroup

end BtrfsProgs
