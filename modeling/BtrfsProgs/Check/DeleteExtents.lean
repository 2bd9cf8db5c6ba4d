import BtrfsProgs.ExtentRefs.Items
import BtrfsProgs.Lib.CountIn
import BtrfsProgs.Lib.Loop

/-
  How `delete_extent_records` deletes the items of an extent,
  and what `update_block_group` takes back for it.

  The extent tree is the list of its items: a search ends at
  the last item that is not above its key.

  Main declarations:
    * `updateBlockGroup` and `updateBlockGroupLoop_spec`
    * `deleteTurn` and `deleteExtentRecords`
    * `Exact` and `Deletable`
    * `deleteExtentRecords_exact_iff`
-/

----------
-- Block Groups
----------

namespace BtrfsProgs

namespace Check

namespace DeleteExtents

open ExtentRefs
open OrderedItems

/- A block group in memory, less its flags. -/
structure BlockGroup where
  start : Nat
  size : Nat
  used : Nat
  dirty : Bool := false
deriving Repr, DecidableEq

/- The group has the byte. -/
def BlockGroup.Has
    (group : BlockGroup)
    (b : Nat) : Prop :=
  group.start ≤ b ∧ b < group.start + group.size

instance
    (group : BlockGroup) : DecidablePred group.Has :=
  fun _ => inferInstanceAs (Decidable (_ ∧ _))

/-
  A turn of the loop of `update_block_group`: the group that
  `btrfs_lookup_block_group` finds is charged for what it has
  of the range.
-/
def chargeGroup
    (bytenr total : Nat) :
    List BlockGroup → Option (Nat × List BlockGroup)
  | [] => none
  | group :: rest =>
      if group.start ≤ bytenr ∧
          bytenr < (group.start + group.size) % 2 ^ 64 then
        let num :=
          min total (group.size - (bytenr - group.start))
        some (num,
          { group with
            used := u64Sub group.used num
            dirty := true } :: rest)
      else
        (chargeGroup bytenr total rest).map fun found =>
          (found.1, group :: found.2)

/- The loop, in which every turn takes something. -/
def updateBlockGroupLoop :
    Nat → Nat → Nat → List BlockGroup → Int × List BlockGroup
  | 0, _, _, groups => (0, groups)
  | fuel + 1, bytenr, total, groups =>
      if total = 0 then (0, groups)
      else
        match chargeGroup bytenr total groups with
        | none => (-1, groups)
        | some (num, charged) =>
            updateBlockGroupLoop fuel (bytenr + num)
              (total - num) charged

/- What the repair works on. -/
structure Repair (V : Type) where
  items : List (Key × V)
  groups : List BlockGroup
  superUsed : Nat
  rootUsed : Nat

/- `btrfs_update_block_group` with `alloc` and `mark_free` 0. -/
def updateBlockGroup
    {V : Type}
    (fs : Repair V)
    (bytenr numBytes : Nat) : Int × Repair V :=
  let updated :=
    updateBlockGroupLoop numBytes bytenr numBytes fs.groups
  (updated.1,
    { fs with
      superUsed := u64Sub fs.superUsed numBytes
      rootUsed := u64Sub fs.rootUsed numBytes
      groups := updated.2 })

/- Groups that share no byte, and end within 64 bits. -/
structure GroupsOk
    (groups : List BlockGroup) : Prop where
  apart :
    groups.Pairwise fun a b => ∀ x, a.Has x → ¬ b.Has x
  bounded : ∀ g ∈ groups, g.start + g.size < 2 ^ 64

/- Every byte of the range is in a group. -/
def Covered
    (groups : List BlockGroup)
    (bytenr num : Nat) : Prop :=
  ∀ x, bytenr ≤ x → x < bytenr + num → ∃ g ∈ groups, g.Has x

/- The bytes of a range that a group has. -/
def BlockGroup.share
    (group : BlockGroup)
    (bytenr num : Nat) : Nat :=
  countIn group.Has bytenr (bytenr + num)

/- The group after it was charged for some bytes. -/
def Charged
    (num : BlockGroup → Nat)
    (g g' : BlockGroup) : Prop :=
  g'.start = g.start ∧ g'.size = g.size ∧
    g'.used + num g ≡ g.used [MOD 2 ^ 64]

theorem u64Sub_add
    {a b : Nat}
    (hBound : b < 2 ^ 64) :
    u64Sub a b + b ≡ a [MOD 2 ^ 64] := by
  have hSame : u64Sub a b + b ≡ a + 2 ^ 64 - b + b
      [MOD 2 ^ 64] :=
    (Nat.mod_modEq _ _).add_right b
  have hBack : a + 2 ^ 64 - b + b = a + 2 ^ 64 := by omega
  rw [hBack] at hSame
  exact hSame.trans (by simp [Nat.ModEq])

theorem Charged.same_has
    {num : BlockGroup → Nat}
    {g g' : BlockGroup}
    (hCharged : Charged num g g')
    {x : Nat} :
    g'.Has x ↔ g.Has x := by
  unfold BlockGroup.Has
  rw [hCharged.1, hCharged.2.1]

theorem Charged.none
    {num : BlockGroup → Nat}
    {g : BlockGroup}
    (hNone : num g = 0) :
    Charged num g g := by
  refine ⟨rfl, rfl, ?_⟩
  rw [hNone]
  exact Nat.ModEq.refl _

theorem charged_none
    {num : BlockGroup → Nat}
    {groups : List BlockGroup}
    (hNone : ∀ g ∈ groups, num g = 0) :
    List.Forall₂ (Charged num) groups groups :=
  List.forall₂_same.mpr fun g hg => .none (hNone g hg)

theorem GroupsOk.tail
    {g : BlockGroup}
    {groups : List BlockGroup}
    (hOk : GroupsOk (g :: groups)) :
    GroupsOk groups where
  apart := (List.pairwise_cons.mp hOk.apart).2
  bounded := fun h hMem =>
    hOk.bounded h (List.mem_cons_of_mem _ hMem)

/- The group that is found has all of the first bytes. -/
theorem chargeGroup_spec
    {groups : List BlockGroup}
    (hOk : GroupsOk groups)
    {bytenr total : Nat}
    (hTotal : 0 < total)
    (hThere : ∃ g ∈ groups, g.Has bytenr) :
    ∃ num charged,
      chargeGroup bytenr total groups = some (num, charged) ∧
      0 < num ∧ num ≤ total ∧
      (∃ g ∈ groups, ∀ b, bytenr ≤ b → b < bytenr + num →
        g.Has b) ∧
      List.Forall₂ (Charged fun g => g.share bytenr num)
        groups charged := by
  induction groups with
  | nil =>
      rcases hThere with ⟨g, hg, _⟩
      cases hg
  | cons g rest ih =>
      have hBound := hOk.bounded g List.mem_cons_self
      have hOthers := (List.pairwise_cons.mp hOk.apart).1
      unfold chargeGroup
      rw [Nat.mod_eq_of_lt hBound]
      by_cases hHas : g.Has bytenr
      · rcases hHas with ⟨hLow, hHigh⟩
        rw [if_pos ⟨hLow, hHigh⟩]
        generalize hNum :
          min total (g.size - (bytenr - g.start)) = num
        have hMin := Nat.min_le_right total
          (g.size - (bytenr - g.start))
        have hIn : ∀ b, bytenr ≤ b → b < bytenr + num →
            g.Has b := by
          intro b hFrom hTo
          exact ⟨by omega, by omega⟩
        refine ⟨num, _, rfl, ?_, ?_, ?_, ?_⟩
        · rw [← hNum]
          exact Nat.lt_min.mpr ⟨hTotal, by omega⟩
        · rw [← hNum]
          exact Nat.min_le_left _ _
        · exact ⟨g, List.mem_cons_self, hIn⟩
        · constructor
          · refine ⟨rfl, rfl, ?_⟩
            have hShare : g.share bytenr num = num := by
              unfold BlockGroup.share
              rw [countIn_all hIn]
              omega
            dsimp only
            rw [hShare]
            apply u64Sub_add
            omega
          · apply charged_none
            intro h hh
            exact countIn_none fun b hFrom hTo =>
              hOthers h hh b (hIn b hFrom hTo)
      · have hOut : ¬ (g.start ≤ bytenr ∧
            bytenr < g.start + g.size) := hHas
        rw [if_neg hOut]
        have hRest : ∃ h ∈ rest, h.Has bytenr := by
          rcases hThere with ⟨h, hh, hHasIt⟩
          rcases List.mem_cons.mp hh with rfl | hh
          · exact absurd hHasIt hHas
          · exact ⟨h, hh, hHasIt⟩
        rcases ih hOk.tail hRest with
          ⟨num, charged, hFound, hPos, hLe, ⟨h, hh, hIn⟩, hEach⟩
        rw [hFound]
        refine ⟨num, g :: charged, rfl, hPos, hLe, ?_, ?_⟩
        · exact ⟨h, List.mem_cons_of_mem _ hh, hIn⟩
        · refine .cons (.none ?_) hEach
          exact countIn_none fun b hFrom hTo hIts =>
            hOthers h hh b hIts (hIn b hFrom hTo)

section Shares

variable {groups groups' : List BlockGroup}
variable {num : BlockGroup → Nat}

theorem forall₂_has
    (hEach : List.Forall₂ (Charged num) groups groups')
    {x : Nat} :
    (∃ g ∈ groups', g.Has x) ↔ ∃ g ∈ groups, g.Has x := by
  induction hEach with
  | nil => exact Iff.rfl
  | cons hCharged _ ih =>
      simp only [List.exists_mem_cons_iff, hCharged.same_has,
        ih]

theorem GroupsOk.charged
    (hOk : GroupsOk groups)
    (hEach : List.Forall₂ (Charged num) groups groups') :
    GroupsOk groups' := by
  induction hEach with
  | nil => exact hOk
  | cons hCharged hEach ih =>
      have hTail := ih hOk.tail
      constructor
      · refine List.pairwise_cons.mpr ⟨?_, hTail.apart⟩
        intro h hh x hHas hAlso
        have hOld := hCharged.same_has.mp hHas
        rcases (forall₂_has hEach).mp ⟨h, hh, hAlso⟩ with
          ⟨k, hk, hIn⟩
        exact (List.pairwise_cons.mp hOk.apart).1 k hk x hOld
          hIn
      · intro h hh
        rcases List.mem_cons.mp hh with rfl | hh
        · rw [hCharged.1, hCharged.2.1]
          exact hOk.bounded _ List.mem_cons_self
        · exact hTail.bounded h hh

theorem Covered.charged
    {bytenr n : Nat}
    (hCovered : Covered groups bytenr n)
    (hEach : List.Forall₂ (Charged num) groups groups') :
    Covered groups' bytenr n :=
  fun x hFrom hTo =>
    (forall₂_has hEach).mpr (hCovered x hFrom hTo)

theorem Charged.share_eq
    {g g' : BlockGroup}
    (hCharged : Charged num g g')
    (bytenr n : Nat) :
    g'.share bytenr n = g.share bytenr n :=
  countIn_congr fun _ _ _ => hCharged.same_has

/- One charge after another is both at once. -/
theorem forall₂_trans
    {groups'' : List BlockGroup}
    {more : BlockGroup → Nat}
    (hMore :
      ∀ g g', Charged num g g' → more g' = more g)
    (hEach : List.Forall₂ (Charged num) groups groups')
    (hNext : List.Forall₂ (Charged more) groups' groups'') :
    List.Forall₂ (Charged fun g => num g + more g)
      groups groups'' := by
  induction hEach generalizing groups'' with
  | nil =>
      cases hNext
      exact .nil
  | @cons g g' _ _ hFirst _ ih =>
      cases hNext with
      | @cons _ g'' _ _ hSecond hRest =>
          refine .cons ⟨?_, ?_, ?_⟩ (ih hRest)
          · exact hSecond.1.trans hFirst.1
          · exact hSecond.2.1.trans hFirst.2.1
          · have hSum := hSecond.2.2.add_right (num g)
            rw [hMore g g' hFirst] at hSum
            have hSame : g''.used + (num g + more g) =
                g''.used + more g + num g := by omega
            rw [hSame]
            exact hSum.trans hFirst.2.2

end Shares

/- The loop charges every group for its share. -/
theorem updateBlockGroupLoop_spec
    (fuel : Nat)
    {groups : List BlockGroup}
    (hOk : GroupsOk groups)
    {bytenr total : Nat}
    (hCovered : Covered groups bytenr total)
    (hFuel : total ≤ fuel) :
    ∃ charged,
      updateBlockGroupLoop fuel bytenr total groups =
        (0, charged) ∧
      List.Forall₂ (Charged fun g => g.share bytenr total)
        groups charged := by
  have hDone : ∀ (groups : List BlockGroup) (bytenr : Nat),
      List.Forall₂ (Charged fun g => g.share bytenr 0)
        groups groups :=
    fun groups bytenr => charged_none fun g _ =>
      countIn_empty (by omega)
  induction fuel generalizing groups bytenr total with
  | zero =>
      have hZero : total = 0 := by omega
      subst hZero
      exact ⟨groups, rfl, hDone groups bytenr⟩
  | succ fuel ih =>
      unfold updateBlockGroupLoop
      by_cases hZero : total = 0
      · rw [if_pos hZero]
        subst hZero
        exact ⟨groups, rfl, hDone groups bytenr⟩
      · rw [if_neg hZero]
        have hFirst := hCovered bytenr (Nat.le_refl _)
          (by omega)
        rcases chargeGroup_spec hOk
          (Nat.pos_of_ne_zero hZero) hFirst with
          ⟨num, charged, hFound, hPos, hLe, _, hEach⟩
        simp only [hFound]
        have hRest : Covered charged (bytenr + num)
            (total - num) := by
          intro x hFrom hTo
          exact (forall₂_has hEach).mpr
            (hCovered x (by omega) (by omega))
        rcases ih (hOk.charged hEach) hRest (by omega) with
          ⟨last, hLast, hLastEach⟩
        refine ⟨last, hLast, ?_⟩
        have hBoth := forall₂_trans
          (fun g g' hCharged =>
            hCharged.share_eq (bytenr + num) (total - num))
          hEach hLastEach
        refine hBoth.imp ?_
        intro g g' hCharged
        refine ⟨hCharged.1, hCharged.2.1, ?_⟩
        have hSplit : g.share bytenr total =
            g.share bytenr num +
              g.share (bytenr + num) (total - num) := by
          have hEnd : bytenr + num + (total - num) =
              bytenr + total := by omega
          unfold BlockGroup.share
          rw [hEnd]
          exact countIn_split (by omega) (by omega)
        dsimp only
        rw [hSplit]
        exact hCharged.2.2

----------
-- The Loop
----------

/- The types whose items are deleted. -/
def Handled
    (type : Nat) : Prop :=
  type = EXTENT_ITEM_KEY ∨ type = METADATA_ITEM_KEY ∨
    type = TREE_BLOCK_REF_KEY ∨ type = EXTENT_DATA_REF_KEY ∨
    type = EXTENT_REF_V0_KEY ∨ type = SHARED_BLOCK_REF_KEY ∨
    type = SHARED_DATA_REF_KEY

instance : DecidablePred Handled :=
  fun _ => inferInstanceAs (Decidable (_ ∨ _))

/- The search key, and the filesystem, from turn to turn. -/
structure Turn (V : Type) where
  key : Key
  fs : Repair V

variable {V : Type}

/- The bytes that an item's extent has, if it is one. -/
def freedBytes
    (leafsize : Nat)
    (key : Key) : Nat :=
  if key.type = EXTENT_ITEM_KEY then key.offset
  else if key.type = METADATA_ITEM_KEY then leafsize
  else 0

/-
  What follows the deletion of an item; what is returned where
  the bytes are in no block group.
-/
def deleteFound
    (leafsize bytenr : Nat)
    (t : Turn V)
    (found : Key) : Turn V ⊕ (Int × Repair V) :=
  let fs := { t.fs with items := erase found t.fs.items }
  if found.type = EXTENT_ITEM_KEY ∨
      found.type = METADATA_ITEM_KEY then
    let updated :=
      updateBlockGroup fs bytenr (freedBytes leafsize found)
    if updated.1 ≠ 0 then .inr updated
    else .inl ⟨t.key, updated.2⟩
  else .inl ⟨t.key, fs⟩

/-
  A turn of the loop.  For another type the key moves to the
  type below, 255 below 0; the offset that is set for type 0
  is overwritten.
-/
def deleteTurn
    (leafsize bytenr : Nat)
    (t : Turn V) : Turn V ⊕ (Int × Repair V) :=
  match lastUpTo t.key t.fs.items with
  | none => .inr (0, t.fs)
  | some (found, _) =>
      if found.objectid ≠ bytenr then .inr (0, t.fs)
      else if ¬ Handled found.type then
        if found.type = 0 ∧ found.offset = 0 then .inr (0, t.fs)
        else
          .inl
            ⟨{ t.key with
                type := (found.type + 255) % 256
                offset := 2 ^ 64 - 1 }, t.fs⟩
      else deleteFound leafsize bytenr t found

def deleteExtentRecords
    (leafsize bytenr fuel : Nat)
    (fs : Repair V) : Option (Int × Repair V) :=
  Loop.run (deleteTurn leafsize bytenr) fuel
    ⟨⟨bytenr, 255, 2 ^ 64 - 1⟩, fs⟩

----------
-- Exactness
----------

/- A tree with keys as on disk, and groups as in memory. -/
structure Repair.Ok
    (fs : Repair V) : Prop where
  ascending : Ascending fs.items
  types : ∀ item ∈ fs.items, item.1.type < 256
  offsets : ∀ item ∈ fs.items, item.1.offset < 2 ^ 64
  groups : GroupsOk fs.groups

/- The key of an item that has to be deleted. -/
def Target
    (bytenr : Nat)
    (key : Key) : Prop :=
  key.objectid = bytenr ∧ Handled key.type

instance
    (bytenr : Nat) : DecidablePred (Target bytenr) :=
  fun _ => inferInstanceAs (Decidable (_ ∧ _))

/- The sizes of the extents that are freed. -/
def freed
    (leafsize bytenr : Nat)
    (items : List (Key × V)) : List Nat :=
  (items.filter fun item => Target bytenr item.1).map
    fun item => freedBytes leafsize item.1

/-
  The items are gone and no others, and the bytes of every
  extent are taken back once.
-/
structure Taken
    (leafsize bytenr : Nat)
    (fs out : Repair V) : Prop where
  items : out.items =
    fs.items.filter fun item => ¬ Target bytenr item.1
  superUsed :
    out.superUsed + (freed leafsize bytenr fs.items).sum ≡
      fs.superUsed [MOD 2 ^ 64]
  rootUsed :
    out.rootUsed + (freed leafsize bytenr fs.items).sum ≡
      fs.rootUsed [MOD 2 ^ 64]
  groups :
    List.Forall₂
      (Charged fun g =>
        ((freed leafsize bytenr fs.items).map
          (g.share bytenr)).sum)
      fs.groups out.groups

/-
  The loop ends with the items taken, and every freed byte is
  taken from a block group.
-/
def Exact
    (leafsize bytenr : Nat)
    (fs : Repair V) : Prop :=
  (∃ fuel ret out,
    deleteExtentRecords leafsize bytenr fuel fs =
      some (ret, out) ∧
    Taken leafsize bytenr fs out) ∧
  ∀ num ∈ freed leafsize bytenr fs.items,
    (fs.groups.map fun g => g.share bytenr num).sum = num

/-
  No item of type 0 with an offset, and all extents in block
  groups.
-/
structure Deletable
    (leafsize bytenr : Nat)
    (fs : Repair V) : Prop where
  zero : ∀ item ∈ fs.items, item.1.objectid = bytenr →
    item.1.type = 0 → item.1.offset = 0
  covered : ∀ item ∈ fs.items, Target bytenr item.1 →
    Covered fs.groups bytenr (freedBytes leafsize item.1)

/- Groups that share no byte have together what is in one. -/
theorem share_sum
    {groups : List BlockGroup}
    (hOk : GroupsOk groups)
    (bytenr num : Nat) :
    (groups.map fun g => g.share bytenr num).sum =
      countIn (fun x => ∃ g ∈ groups, g.Has x) bytenr
        (bytenr + num) := by
  induction groups with
  | nil =>
      rw [countIn_none]
      · rfl
      · intro x _ _ hIn
        rcases hIn with ⟨g, hg, _⟩
        cases hg
  | cons g rest ih =>
      rw [List.map_cons, List.sum_cons, ih hOk.tail]
      have hApart : ∀ x, g.Has x →
          ¬ ∃ h ∈ rest, h.Has x := by
        intro x hHas hIn
        rcases hIn with ⟨h, hh, hAlso⟩
        exact (List.pairwise_cons.mp hOk.apart).1 h hh x hHas
          hAlso
      unfold BlockGroup.share
      rw [← countIn_or hApart]
      apply countIn_congr
      intro x _ _
      simp only [List.mem_cons, exists_eq_or_imp]

theorem share_sum_iff
    {groups : List BlockGroup}
    (hOk : GroupsOk groups)
    (bytenr num : Nat) :
    (groups.map fun g => g.share bytenr num).sum = num ↔
      Covered groups bytenr num := by
  rw [share_sum hOk]
  have hLen : bytenr + num - bytenr = num := by omega
  constructor
  · intro hSum
    exact countIn_eq_iff.mp (hSum.trans hLen.symm)
  · intro hCovered
    exact (countIn_eq_iff.mpr hCovered).trans hLen

/- The second half of exactness is that all is covered. -/
theorem whole_iff
    {leafsize bytenr : Nat}
    {fs : Repair V}
    (hOk : fs.Ok) :
    (∀ num ∈ freed leafsize bytenr fs.items,
      (fs.groups.map fun g => g.share bytenr num).sum = num) ↔
    ∀ item ∈ fs.items, Target bytenr item.1 →
      Covered fs.groups bytenr (freedBytes leafsize item.1) := by
  constructor
  · intro hWhole item hItem hTarget
    apply (share_sum_iff hOk.groups _ _).mp
    apply hWhole
    refine List.mem_map.mpr ⟨item, ?_, rfl⟩
    exact List.mem_filter.mpr ⟨hItem, by simpa using hTarget⟩
  · intro hCovered num hNum
    rcases List.mem_map.mp hNum with ⟨item, hItem, rfl⟩
    rcases List.mem_filter.mp hItem with ⟨hIn, hTarget⟩
    apply (share_sum_iff hOk.groups _ _).mpr
    exact hCovered item hIn (by simpa using hTarget)

----------
-- A Turn
----------

/- Where the loop is between two turns. -/
structure Turn.At
    (leafsize bytenr : Nat)
    (t : Turn V) : Prop where
  ok : t.fs.Ok
  objectid : t.key.objectid = bytenr
  type : t.key.type < 256
  offset : t.key.offset = 2 ^ 64 - 1
  covered : ∀ item ∈ t.fs.items, Target bytenr item.1 →
    Covered t.fs.groups bytenr (freedBytes leafsize item.1)

/- The last item up to the search key. -/
structure Turn.Finds
    (t : Turn V)
    (item : Key × V) : Prop where
  mem : item ∈ t.fs.items
  le : item.1 ≤ t.key
  last : ∀ other ∈ t.fs.items, other.1 ≤ t.key →
    other.1 ≤ item.1

/- What a turn can do. -/
inductive Step
    (leafsize bytenr : Nat)
    (t : Turn V) : Turn V ⊕ (Int × Repair V) → Prop where
  | none
      (hNone : ∀ item ∈ t.fs.items, item.1 ≤ t.key →
        item.1.objectid = bytenr →
          item.1 = ⟨bytenr, 0, 0⟩) :
      Step leafsize bytenr t (.inr (0, t.fs))
  | pass {item : Key × V}
      (hFinds : t.Finds item)
      (hIs : item.1.objectid = bytenr)
      (hOther : ¬ Handled item.1.type)
      (hSome : ¬ (item.1.type = 0 ∧ item.1.offset = 0)) :
      Step leafsize bytenr t
        (.inl ⟨⟨bytenr, (item.1.type + 255) % 256,
          2 ^ 64 - 1⟩, t.fs⟩)
  | delete {item : Key × V}
      (hFinds : t.Finds item)
      (hTarget : Target bytenr item.1) :
      Step leafsize bytenr t
        (deleteFound leafsize bytenr t item.1)

variable {t : Turn V}

theorem deleteTurn_step
    {leafsize bytenr : Nat}
    (hAt : t.At leafsize bytenr) :
    Step leafsize bytenr t (deleteTurn leafsize bytenr t) := by
  have hAsc := hAt.ok.ascending
  unfold deleteTurn
  cases hLast : lastUpTo t.key t.fs.items with
  | none =>
      have hNone := hAsc.lastUpTo_none hLast
      exact .none fun item hItem hLe =>
        absurd hLe (hNone item hItem)
  | some item =>
      rcases hAsc.lastUpTo_some hLast with ⟨hMem, hLe, hMost⟩
      have hFinds : t.Finds item := ⟨hMem, hLe, hMost⟩
      rcases item with ⟨found, v⟩
      dsimp only
      by_cases hIs : found.objectid = bytenr
      · rw [if_neg (not_not.mpr hIs)]
        by_cases hHandled : Handled found.type
        · rw [if_neg (not_not.mpr hHandled)]
          exact .delete hFinds ⟨hIs, hHandled⟩
        · rw [if_pos hHandled]
          by_cases hZero : found.type = 0 ∧ found.offset = 0
          · rw [if_pos hZero]
            refine .none ?_
            intro item hItem hItemLe hItemIs
            have hUp := hMost item hItem hItemLe
            rcases Key.le_iff.mp hUp with hLess | ⟨_, hRest⟩
            · change _ < found.objectid at hLess
              omega
            · change _ < found.type ∨ _ = found.type ∧
                _ ≤ found.offset at hRest
              apply Key.ext hItemIs
              · change item.1.type = 0
                omega
              · change item.1.offset = 0
                omega
          · rw [if_neg hZero]
            have hKey : t.key.objectid = bytenr := hAt.objectid
            rw [hKey]
            exact .pass hFinds hIs hHandled hZero
      · rw [if_pos hIs]
        refine .none ?_
        intro item hItem hItemLe hItemIs
        exfalso
        have hUp := Key.le_iff.mp (hMost item hItem hItemLe)
        have hKey := hAt.objectid
        have hDown := Key.le_iff.mp hLe
        dsimp only at hUp hDown
        omega

/- The deletion of an item that is charged in full. -/
structure Deleted
    (leafsize bytenr : Nat)
    (fs fs' : Repair V)
    (found : Key) : Prop where
  items : fs'.items = erase found fs.items
  superUsed :
    fs'.superUsed + freedBytes leafsize found ≡ fs.superUsed
      [MOD 2 ^ 64]
  rootUsed :
    fs'.rootUsed + freedBytes leafsize found ≡ fs.rootUsed
      [MOD 2 ^ 64]
  groups :
    List.Forall₂
      (Charged fun g =>
        g.share bytenr (freedBytes leafsize found))
      fs.groups fs'.groups

theorem deleteFound_spec
    {leafsize bytenr : Nat}
    (hAt : t.At leafsize bytenr)
    (hLeafsize : leafsize < 2 ^ 32)
    {item : Key × V}
    (hFinds : t.Finds item)
    (hTarget : Target bytenr item.1) :
    ∃ fs', deleteFound leafsize bytenr t item.1 =
        .inl ⟨t.key, fs'⟩ ∧
      Deleted leafsize bytenr t.fs fs' item.1 := by
  have hOffset := hAt.ok.offsets item hFinds.mem
  have hBound : freedBytes leafsize item.1 < 2 ^ 64 := by
    unfold freedBytes
    split
    · exact hOffset
    · split <;> omega
  unfold deleteFound
  by_cases hExtent : item.1.type = EXTENT_ITEM_KEY ∨
      item.1.type = METADATA_ITEM_KEY
  · rw [if_pos hExtent]
    have hCovered := hAt.covered item hFinds.mem hTarget
    rcases updateBlockGroupLoop_spec _ hAt.ok.groups hCovered
      (Nat.le_refl _) with ⟨charged, hLoop, hEach⟩
    unfold updateBlockGroup
    simp only [hLoop]
    exact ⟨_, rfl, rfl, u64Sub_add hBound, u64Sub_add hBound,
      hEach⟩
  · rw [if_neg hExtent]
    push Not at hExtent
    have hNone : freedBytes leafsize item.1 = 0 := by
      unfold freedBytes
      rw [if_neg hExtent.1, if_neg hExtent.2]
    refine ⟨_, rfl, rfl, ?_, ?_, ?_⟩
    · rw [hNone]
      exact Nat.ModEq.refl _
    · rw [hNone]
      exact Nat.ModEq.refl _
    · apply charged_none
      intro g _
      rw [hNone]
      exact countIn_empty (by omega)

----------
-- After a Deletion
----------

section Deletion

variable {leafsize bytenr : Nat}
variable {fs fs' out : Repair V}
variable {item : Key × V}

/- The items that are left, and what is freed from now on. -/
theorem erase_target
    (leafsize : Nat)
    (hOk : fs.Ok)
    (hMem : item ∈ fs.items)
    (hTarget : Target bytenr item.1) :
    ((erase item.1 fs.items).filter fun i =>
        ¬ Target bytenr i.1) =
      (fs.items.filter fun i => ¬ Target bytenr i.1) ∧
    ((freed leafsize bytenr fs.items).Perm
      (freedBytes leafsize item.1 ::
        freed leafsize bytenr (erase item.1 fs.items))) := by
  have hAsc := hOk.ascending
  rcases List.append_of_mem hMem with ⟨front, after, hSplit⟩
  rw [hSplit] at hAsc ⊢
  rw [hAsc.erase_split]
  constructor
  · rw [List.filter_append, List.filter_append,
      List.filter_cons_of_neg (by simpa using hTarget)]
  · unfold freed
    rw [List.filter_append, List.filter_append,
      List.filter_cons_of_pos (by simpa using hTarget),
      List.map_append, List.map_append, List.map_cons]
    exact List.perm_middle

theorem Deleted.ok
    (hDeleted : Deleted leafsize bytenr fs fs' item.1)
    (hOk : fs.Ok) :
    fs'.Ok where
  ascending := by
    rw [hDeleted.items]
    exact hOk.ascending.erase item.1
  types := by
    rw [hDeleted.items]
    intro other hOther
    exact hOk.types other (mem_erase.mp hOther).1
  offsets := by
    rw [hDeleted.items]
    intro other hOther
    exact hOk.offsets other (mem_erase.mp hOther).1
  groups := hOk.groups.charged hDeleted.groups

/- What is taken after a deletion is taken with it. -/
theorem Deleted.taken
    (hDeleted : Deleted leafsize bytenr fs fs' item.1)
    (hOk : fs.Ok)
    (hMem : item ∈ fs.items)
    (hTarget : Target bytenr item.1)
    (hTaken : Taken leafsize bytenr fs' out) :
    Taken leafsize bytenr fs out := by
  rcases erase_target leafsize hOk hMem hTarget with
    ⟨hItems, hFreed⟩
  rw [← hDeleted.items] at hItems hFreed
  have hSum : (freed leafsize bytenr fs.items).sum =
      (freed leafsize bytenr fs'.items).sum +
        freedBytes leafsize item.1 := by
    rw [hFreed.sum_eq, List.sum_cons, Nat.add_comm]
  have hUsed : ∀ a b c : Nat,
      a + (freed leafsize bytenr fs'.items).sum ≡ b
        [MOD 2 ^ 64] →
      b + freedBytes leafsize item.1 ≡ c [MOD 2 ^ 64] →
      a + (freed leafsize bytenr fs.items).sum ≡ c
        [MOD 2 ^ 64] := by
    intro a b c hAfter hNow
    rw [hSum, ← Nat.add_assoc]
    exact (hAfter.add_right _).trans hNow
  constructor
  · exact hTaken.items.trans hItems
  · exact hUsed _ _ _ hTaken.superUsed hDeleted.superUsed
  · exact hUsed _ _ _ hTaken.rootUsed hDeleted.rootUsed
  · have hShare : ∀ g g' : BlockGroup,
        Charged (fun g =>
          g.share bytenr (freedBytes leafsize item.1)) g g' →
        ((freed leafsize bytenr fs'.items).map
          (g'.share bytenr)).sum =
        ((freed leafsize bytenr fs'.items).map
          (g.share bytenr)).sum := by
      intro g g' hCharged
      have hSame : g'.share bytenr = g.share bytenr :=
        funext fun n => hCharged.share_eq bytenr n
      rw [hSame]
    have hBoth := forall₂_trans hShare hDeleted.groups
      hTaken.groups
    refine hBoth.imp ?_
    intro g g' hCharged
    refine ⟨hCharged.1, hCharged.2.1, ?_⟩
    have hShares := (hFreed.map (g.share bytenr)).sum_eq
    rw [List.map_cons, List.sum_cons] at hShares
    dsimp only
    rw [hShares]
    exact hCharged.2.2

/- Nothing is left to take. -/
theorem Taken.none
    (hNone : ∀ item ∈ fs.items, ¬ Target bytenr item.1) :
    Taken leafsize bytenr fs fs := by
  have hFreed : freed leafsize bytenr fs.items = [] := by
    unfold freed
    have hEmpty : (fs.items.filter fun item =>
        decide (Target bytenr item.1)) = [] := by
      apply List.filter_eq_nil_iff.mpr
      intro item hItem
      simpa using hNone item hItem
    rw [hEmpty]
    rfl
  constructor
  · symm
    apply List.filter_eq_self.mpr
    intro item hItem
    simpa using hNone item hItem
  · rw [hFreed]
    exact Nat.ModEq.refl _
  · rw [hFreed]
    exact Nat.ModEq.refl _
  · apply charged_none
    intro g _
    rw [hFreed]
    rfl

end Deletion

theorem Turn.At.deleted
    {leafsize bytenr : Nat}
    {fs' : Repair V}
    {item : Key × V}
    (hAt : t.At leafsize bytenr)
    (hDeleted : Deleted leafsize bytenr t.fs fs' item.1) :
    Turn.At leafsize bytenr ⟨t.key, fs'⟩ where
  ok := hDeleted.ok hAt.ok
  objectid := hAt.objectid
  type := hAt.type
  offset := hAt.offset
  covered := by
    rw [hDeleted.items]
    intro other hOther hTarget
    have hOld := hAt.covered other (mem_erase.mp hOther).1
      hTarget
    exact hOld.charged hDeleted.groups

/- The search goes on below a type that is not handled. -/
theorem Turn.At.pass
    {leafsize bytenr : Nat}
    {type : Nat}
    (hAt : t.At leafsize bytenr)
    (hType : type < 256) :
    Turn.At leafsize bytenr
      ⟨⟨bytenr, type, 2 ^ 64 - 1⟩, t.fs⟩ :=
  ⟨hAt.ok, rfl, hType, rfl, hAt.covered⟩

----------
-- Runs
----------

/- Where the loop is on its way to the end. -/
structure Turn.Sinks
    (leafsize bytenr : Nat)
    (t : Turn V) : Prop where
  there : t.At leafsize bytenr
  above : ∀ item ∈ t.fs.items, Target bytenr item.1 →
    item.1 ≤ t.key
  zero : ∀ item ∈ t.fs.items, item.1.objectid = bytenr →
    item.1.type = 0 → item.1.offset = 0

/- The items that are left, and then the types. -/
def Turn.rank
    (t : Turn V) : Nat :=
  t.fs.items.length * 256 + t.key.type

theorem Turn.Sinks.turn
    {leafsize bytenr : Nat}
    {t t' : Turn V}
    (hLeafsize : leafsize < 2 ^ 32)
    (hSinks : t.Sinks leafsize bytenr)
    (hTurn : deleteTurn leafsize bytenr t = .inl t') :
    t'.Sinks leafsize bytenr ∧ t'.rank < t.rank ∧
      ∀ out, Taken leafsize bytenr t'.fs out →
        Taken leafsize bytenr t.fs out := by
  have hAt := hSinks.there
  have hStep := deleteTurn_step hAt
  generalize hOut : deleteTurn leafsize bytenr t = w at hStep
  rw [hOut] at hTurn
  cases hStep with
  | none hNone => cases hTurn
  | @pass item hFinds hIs hOther hSome =>
      cases hTurn
      have hZero : item.1.type ≠ 0 := by
        intro hType
        exact hSome ⟨hType,
          hSinks.zero item hFinds.mem hIs hType⟩
      have hType := hAt.ok.types item hFinds.mem
      have hBelow : (item.1.type + 255) % 256 =
          item.1.type - 1 := by omega
      have hKey := hAt.objectid
      have hKeyLe := Key.le_iff.mp hFinds.le
      rw [hBelow]
      refine ⟨⟨hAt.pass (by omega), ?_, hSinks.zero⟩, ?_,
        fun _ hTaken => hTaken⟩
      · intro other hOther' hTarget
        have hLe := hFinds.last other hOther'
          (hSinks.above other hOther' hTarget)
        have hOffset := hAt.ok.offsets other hOther'
        have hNot : other.1.type ≠ item.1.type := by
          intro hSame
          exact hOther (hSame ▸ hTarget.2)
        have hObject := hTarget.1
        apply Key.le_iff.mpr
        have hOrder := Key.le_iff.mp hLe
        dsimp only
        omega
      · unfold Turn.rank
        dsimp only
        omega
  | @delete item hFinds hTarget =>
      rcases deleteFound_spec hAt hLeafsize hFinds hTarget with
        ⟨fs', hFound, hDeleted⟩
      rw [hFound] at hTurn
      cases hTurn
      have hLength :
          fs'.items.length + 1 = t.fs.items.length := by
        rw [hDeleted.items]
        have hAsc := hAt.ok.ascending
        rcases List.append_of_mem hFinds.mem with
          ⟨front, after, hSplit⟩
        rw [hSplit] at hAsc ⊢
        rw [hAsc.erase_split]
        simp only [List.length_append, List.length_cons]
        omega
      refine ⟨⟨hAt.deleted hDeleted, ?_, ?_⟩, ?_, ?_⟩
      · intro other hOther
        rw [hDeleted.items] at hOther
        exact hSinks.above other (mem_erase.mp hOther).1
      · intro other hOther
        rw [hDeleted.items] at hOther
        exact hSinks.zero other (mem_erase.mp hOther).1
      · unfold Turn.rank
        dsimp only
        omega
      · intro out hTaken
        exact hDeleted.taken hAt.ok hFinds.mem hTarget hTaken

theorem Turn.Sinks.done
    {leafsize bytenr : Nat}
    {w : Int × Repair V}
    (hLeafsize : leafsize < 2 ^ 32)
    (hSinks : t.Sinks leafsize bytenr)
    (hTurn : deleteTurn leafsize bytenr t = .inr w) :
    Taken leafsize bytenr t.fs w.2 := by
  have hAt := hSinks.there
  have hStep := deleteTurn_step hAt
  generalize hOut : deleteTurn leafsize bytenr t = v at hStep
  rw [hOut] at hTurn
  cases hStep with
  | none hNone =>
      cases hTurn
      apply Taken.none
      intro item hItem hTarget
      have hIs := hNone item hItem
        (hSinks.above item hItem hTarget) hTarget.1
      rw [hIs] at hTarget
      have hHandled : Handled 0 := hTarget.2
      exact absurd hHandled (by decide)
  | pass hFinds hIs hOther hSome => cases hTurn
  | delete hFinds hTarget =>
      rcases deleteFound_spec hAt hLeafsize hFinds hTarget with
        ⟨fs', hFound, _⟩
      rw [hFound] at hTurn
      cases hTurn

/- An item of type 0 with an offset keeps the loop going. -/
theorem Turn.At.goes_on
    {leafsize bytenr : Nat}
    {item : Key × V}
    (hLeafsize : leafsize < 2 ^ 32)
    (hIs : item.1.objectid = bytenr)
    (hType : item.1.type = 0)
    (hOffset : item.1.offset ≠ 0)
    (t : Turn V)
    (hAt : t.At leafsize bytenr ∧ item ∈ t.fs.items) :
    ∃ t', deleteTurn leafsize bytenr t = .inl t' ∧
      t'.At leafsize bytenr ∧ item ∈ t'.fs.items := by
  rcases hAt with ⟨hAt, hThere⟩
  have hStep := deleteTurn_step hAt
  generalize hOut : deleteTurn leafsize bytenr t = w at hStep
  cases hStep with
  | none hNone =>
      have hLe : item.1 ≤ t.key := by
        have hBound := hAt.ok.offsets item hThere
        have hKey := hAt.objectid
        have hEnd := hAt.offset
        apply Key.le_iff.mpr
        omega
      have hZero := hNone item hThere hLe hIs
      rw [hZero] at hOffset
      exact absurd rfl hOffset
  | @pass found hFinds hFoundIs hOther hSome =>
      exact ⟨_, rfl, hAt.pass (Nat.mod_lt _ (by decide)),
        hThere⟩
  | @delete found hFinds hTarget =>
      rcases deleteFound_spec hAt hLeafsize hFinds hTarget with
        ⟨fs', hFound, hDeleted⟩
      refine ⟨⟨t.key, fs'⟩, hFound, hAt.deleted hDeleted, ?_⟩
      rw [hDeleted.items]
      refine mem_erase.mpr ⟨hThere, ?_⟩
      intro hSame
      have hHandled := hTarget.2
      rw [← hSame, hType] at hHandled
      exact absurd hHandled (by decide)

section Start

variable {leafsize bytenr : Nat}
variable {fs : Repair V}

/- The state in which the loop begins. -/
theorem at_start
    (hOk : fs.Ok)
    (hCovered : ∀ item ∈ fs.items, Target bytenr item.1 →
      Covered fs.groups bytenr (freedBytes leafsize item.1)) :
    Turn.At leafsize bytenr
      ⟨⟨bytenr, 255, 2 ^ 64 - 1⟩, fs⟩ :=
  ⟨hOk, rfl, Nat.lt_succ_self 255, rfl, hCovered⟩

theorem zero_of_exact
    (hOk : fs.Ok)
    (hLeafsize : leafsize < 2 ^ 32)
    (hExact : Exact leafsize bytenr fs) :
    ∀ item ∈ fs.items, item.1.objectid = bytenr →
      item.1.type = 0 → item.1.offset = 0 := by
  intro item hItem hIs hType
  rcases hExact with ⟨⟨fuel, ret, out, hRun, _⟩, hWhole⟩
  by_contra hOffset
  have hAt := at_start hOk ((whole_iff hOk).mp hWhole)
  have hNever := Loop.run_none
    (Turn.At.goes_on hLeafsize hIs hType hOffset)
    ⟨hAt, hItem⟩ fuel
  unfold deleteExtentRecords at hRun
  rw [hNever] at hRun
  cases hRun

end Start

/-
  `delete_extent_records` is exact just when no item of type 0
  has an offset and the extents are in block groups.
-/
theorem deleteExtentRecords_exact_iff
    (leafsize bytenr : Nat)
    (fs : Repair V)
    (hOk : fs.Ok)
    (hLeafsize : leafsize < 2 ^ 32) :
    Exact leafsize bytenr fs ↔
      Deletable leafsize bytenr fs := by
  constructor
  · intro hExact
    exact ⟨zero_of_exact hOk hLeafsize hExact,
      (whole_iff hOk).mp hExact.2⟩
  · intro hDeletable
    refine ⟨?_, (whole_iff hOk).mpr hDeletable.covered⟩
    have hSinks : Turn.Sinks leafsize bytenr
        ⟨⟨bytenr, 255, 2 ^ 64 - 1⟩, fs⟩ := by
      refine ⟨at_start hOk hDeletable.covered, ?_,
        hDeletable.zero⟩
      intro item hItem hTarget
      have hType := hOk.types item hItem
      have hOffset := hOk.offsets item hItem
      have hIs := hTarget.1
      apply Key.le_iff.mpr
      dsimp only
      omega
    have hEnds := Loop.ends_of_rank
      (P := Turn.Sinks leafsize bytenr)
      (R := fun t w => Taken leafsize bytenr t.fs w.2)
      Turn.rank
      (fun t t' hAt hTurn =>
        ⟨(hAt.turn hLeafsize hTurn).1,
          (hAt.turn hLeafsize hTurn).2.1,
          fun w => (hAt.turn hLeafsize hTurn).2.2 w.2⟩)
      (fun t w hAt hTurn => hAt.done hLeafsize hTurn)
      hSinks
    rcases hEnds with ⟨fuel, ⟨ret, out⟩, hRun, hTaken⟩
    exact ⟨fuel, ret, out, hRun, hTaken⟩

/- An extent with its references, and items around it. -/
def oneExtent : Repair Unit :=
  ⟨[(⟨4096, 1, 7⟩, ()), (⟨4096, 168, 8192⟩, ()),
      (⟨4096, 176, 5⟩, ()), (⟨12288, 168, 4096⟩, ())],
    [⟨0, 65536, 12288, false⟩], 12288, 4096⟩

theorem oneExtent_exact : Exact 4096 4096 oneExtent := by
  have hOk : oneExtent.Ok :=
    ⟨by unfold Ascending oneExtent; decide, by decide,
      by decide, List.pairwise_singleton _ _, by decide⟩
  refine (deleteExtentRecords_exact_iff 4096 4096 oneExtent hOk
    (by decide)).mpr ⟨by decide, ?_⟩
  intro item hItem hTarget x hFrom hTo
  refine ⟨⟨0, 65536, 12288, false⟩,
    List.mem_singleton_self _, ?_⟩
  have hFreed : ∀ item ∈ oneExtent.items,
      Target 4096 item.1 →
        freedBytes 4096 item.1 ≤ 8192 := by decide
  have hLe := hFreed item hItem hTarget
  exact ⟨Nat.zero_le _, by dsimp only; omega⟩

/- An item of type 0 with an offset, and nothing else. -/
def typeZero : Repair Unit :=
  ⟨[(⟨4096, 0, 5⟩, ())], [⟨0, 65536, 8192, false⟩], 8192, 4096⟩

/- The loop does not end on it. -/
theorem typeZero_not_exact : ¬ Exact 4096 4096 typeZero := by
  intro hExact
  have hOk : typeZero.Ok :=
    ⟨List.pairwise_singleton _ _, by decide, by decide,
      List.pairwise_singleton _ _, by decide⟩
  have hZero := zero_of_exact hOk (by decide) hExact
    (⟨4096, 0, 5⟩, ()) (List.mem_singleton_self _) rfl rfl
  cases hZero

end DeleteExtents

end Check

end BtrfsProgs
