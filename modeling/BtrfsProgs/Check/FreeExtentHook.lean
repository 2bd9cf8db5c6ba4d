import BtrfsProgs.ExtentCaches.Ranges

/-
  `free_extent_hook`, from `cmds-check.c`: what a repair that
  drops a reference leaves of the record of the extent.

  A back reference that has lost all it stood for is to go;
  the hook tests for one that still has a reference instead.

  Main declarations:
    * `ExtentRecord` and `maybeFreeExtentRec`
    * `freeExtentHook`
    * `Rescanned` and `KeepsBooks`
    * `Lowers`
    * `freeExtentHook_exact_iff`
-/

----------
-- Records
----------

namespace BtrfsProgs

namespace Check

namespace FreeExtent

open ExtentCaches SearchTree

/- `BTRFS_FIRST_FREE_OBJECTID`. -/
def FIRST_FREE_OBJECTID : Nat := 256

/- `struct extent_backref`. -/
structure ExtentBackref where
  found_extent_tree : Bool
  full_backref : Bool
  found_ref : Bool

/- `root` is also `parent`, which has the same place. -/
structure TreeBackref where
  node : ExtentBackref
  root : Nat

structure DataBackref where
  node : ExtentBackref
  root : Nat
  owner : Nat
  offset : Nat
  disk_bytenr : Nat
  bytes : Nat
  num_refs : UInt32
  found_ref : UInt32

/- One with `is_data`, or without. -/
inductive Backref where
  | tree (back : TreeBackref)
  | data (back : DataBackref)

def Backref.node : Backref → ExtentBackref
  | .tree back => back.node
  | .data back => back.node

/- `struct extent_record`, what the hook makes use of. -/
structure ExtentRecord where
  start : Nat
  nr : Nat
  refs : UInt64
  extent_item_refs : UInt64
  num_duplicates : Nat
  content_checked : Bool
  owner_ref_checked : Bool
  backrefs : List Backref

----------
-- Complete Records
----------

/- What is wrong with a back reference alone. -/
def Backref.err
    (rec : ExtentRecord) : Backref → Bool
  | .tree back =>
      !back.node.found_extent_tree || !back.node.found_ref
  | .data back =>
      !back.node.found_extent_tree ||
        back.found_ref != back.num_refs ||
        back.disk_bytenr != rec.start ||
        back.bytes != rec.nr

/- What it adds to `found`. -/
def Backref.found : Backref → UInt64
  | .tree _ => 1
  | .data back => back.found_ref.toUInt64

/- The loop of `all_backpointers_checked`, from a place on. -/
def backpointersFrom
    (rec : ExtentRecord)
    (found : UInt64) : List Backref → Int
  | [] => if found ≠ rec.refs then 1 else 0
  | back :: rest =>
      if back.err rec then 1
      else backpointersFrom rec (found + back.found) rest

/- `all_backpointers_checked`, without printing. -/
def allBackpointersChecked
    (rec : ExtentRecord) : Int :=
  backpointersFrom rec 0 rec.backrefs

/- The test of `maybe_free_extent_rec`. -/
def ExtentRecord.Complete
    (rec : ExtentRecord) : Prop :=
  rec.content_checked = true ∧ rec.owner_ref_checked = true ∧
    rec.extent_item_refs = rec.refs ∧ 0 < rec.refs ∧
    rec.num_duplicates = 0 ∧ allBackpointersChecked rec = 0

instance
    (rec : ExtentRecord) : Decidable rec.Complete :=
  inferInstanceAs (Decidable (_ ∧ _ ∧ _ ∧ _ ∧ _ ∧ _))

----------
-- Back References of a Record
----------

/- What a list has at a place, with what is around it. -/
abbrev Found (β : Type) : Type :=
  List Backref × β × List Backref

/- The first back reference that is a wanted one. -/
def findBack
    {β : Type}
    (want : Backref → Option β) :
    List Backref → Option (Found β)
  | [] => none
  | back :: rest =>
      match want back with
      | some b => some ([], b, rest)
      | none =>
          match findBack want rest with
          | some (before, b, after) =>
              some (back :: before, b, after)
          | none => none

/- `find_tree_backref`. -/
def findTreeBackref
    (rec : ExtentRecord)
    (parent root : Nat) : Option (Found TreeBackref) :=
  findBack
    (fun
      | .data _ => none
      | .tree back =>
          if 0 < parent then
            if back.node.full_backref ∧ parent = back.root then
              some back
            else none
          else if back.node.full_backref then none
          else if back.root = root then some back
          else none)
    rec.backrefs

/- `find_data_backref`. -/
def findDataBackref
    (rec : ExtentRecord)
    (parent root owner offset : Nat)
    (found_ref : Bool)
    (disk_bytenr bytes : Nat) : Option (Found DataBackref) :=
  findBack
    (fun
      | .tree _ => none
      | .data back =>
          if 0 < parent then
            if back.node.full_backref ∧ parent = back.root then
              some back
            else none
          else if back.node.full_backref then none
          else if back.root = root ∧ back.owner = owner ∧
              back.offset = offset then
            if found_ref ∧ back.node.found_ref ∧
                (back.bytes ≠ bytes ∨
                  back.disk_bytenr ≠ disk_bytenr) then none
            else some back
          else none)
    rec.backrefs

----------
-- The Hook
----------

/- The arguments of the hook. -/
structure Free where
  bytenr : Nat
  num_bytes : Nat
  parent : Nat
  root_objectid : Nat
  owner : Nat
  offset : Nat
  refs_to_drop : Nat

/- A counter of a record, less what is dropped. -/
def lower
    (counter : UInt64)
    (there : Bool)
    (n : Nat) : UInt64 :=
  if there ∧ counter ≠ 0 then counter - .ofNat n
  else counter

/- A counter of a data reference. -/
def lowerBack
    (counter : UInt32)
    (there : Bool)
    (n : Nat) : UInt32 :=
  if there then counter - .ofNat n else counter

def DataBackref.drop
    (n : Nat)
    (back : DataBackref) : DataBackref :=
  let found_ref := lowerBack back.found_ref
    back.node.found_ref n
  let num_refs := lowerBack back.num_refs
    back.node.found_extent_tree n
  { back with
    found_ref := found_ref
    num_refs := num_refs
    node :=
      { back.node with
        found_ref := back.node.found_ref && found_ref != 0
        found_extent_tree :=
          back.node.found_extent_tree && num_refs != 0 } }

def TreeBackref.drop
    (back : TreeBackref) : TreeBackref :=
  { back with
    node :=
      { back.node with
        found_ref := false
        found_extent_tree := false } }

/- With the test for `list_del`. -/
def keepBack
    (back : Backref) : List Backref :=
  if !back.node.found_extent_tree && back.node.found_ref then []
  else [back]

/- The record without the references, if it has had them. -/
def dropFrom
    (f : Free)
    (rec : ExtentRecord) : Option ExtentRecord :=
  if FIRST_FREE_OBJECTID ≤ f.owner then
    match
      findDataBackref rec f.parent f.root_objectid f.owner
        f.offset true f.bytenr f.num_bytes
    with
    | none => none
    | some (before, back, after) =>
        some
          { rec with
            refs :=
              lower rec.refs back.node.found_ref f.refs_to_drop
            extent_item_refs :=
              lower rec.extent_item_refs
                back.node.found_extent_tree f.refs_to_drop
            backrefs :=
              before ++
                keepBack (.data (back.drop f.refs_to_drop)) ++
                after }
  else
    match findTreeBackref rec f.parent f.root_objectid with
    | none => none
    | some (before, back, after) =>
        some
          { rec with
            refs := lower rec.refs back.node.found_ref 1
            extent_item_refs :=
              lower rec.extent_item_refs
                back.node.found_extent_tree 1
            backrefs :=
              before ++ keepBack (.tree back.drop) ++ after }

/- The cache, and the record that each of its entries is in. -/
structure Books where
  extent_cache : SearchTree ExtentCaches.CacheExtent
  record : ExtentCaches.CacheExtent → ExtentRecord

/- `maybe_free_extent_rec` -/
def maybeFreeExtentRec
    (color : Rebalance ExtentCaches.CacheExtent)
    (s : Books)
    (pe : TreePlace ExtentCaches.CacheExtent) : Books :=
  if (s.record pe.node).Complete then
    { s with extent_cache := ExtentCaches.removeCacheExtent color pe }
  else s

/- `free_extent_hook` -/
def freeExtentHook
    (color : Rebalance ExtentCaches.CacheExtent)
    (s : Books)
    (f : Free) : Books :=
  match ExtentCaches.lookupCacheExtent s.extent_cache f.bytenr
      f.num_bytes with
  | none => s
  | some pe =>
      match dropFrom f (s.record pe.node) with
      | none => s
      | some rec =>
          maybeFreeExtentRec color
            { s with record := Function.update s.record pe.node rec }
            pe

----------
-- Books That Are Kept
----------

/- The back reference that the dropped references are in. -/
def Free.find
    (f : Free)
    (rec : ExtentRecord) : Option (Found Backref) :=
  if FIRST_FREE_OBJECTID ≤ f.owner then
    (findDataBackref rec f.parent f.root_objectid f.owner
      f.offset true f.bytenr f.num_bytes).map
      fun (before, back, after) => (before, .data back, after)
  else
    (findTreeBackref rec f.parent f.root_objectid).map
      fun (before, back, after) => (before, .tree back, after)

/- How many there are: a tree block is referred to once. -/
def Free.dropped
    (f : Free) : Backref → Nat
  | .tree _ => 1
  | .data _ => f.refs_to_drop

/- A counter has lost just the references that were there. -/
def Less
    (there : Bool)
    (n old new : Nat) : Prop :=
  new + (if there then n else 0) = old

/- A data reference with what is left of it. -/
structure Left
    (n : Nat)
    (back back' : DataBackref) : Prop where
  found : Less back.node.found_ref n back.found_ref.toNat
    back'.found_ref.toNat
  listed : Less back.node.found_extent_tree n
    back.num_refs.toNat back'.num_refs.toNat
  found_ref : back'.node.found_ref =
    (back.node.found_ref && back'.found_ref != 0)
  found_extent_tree : back'.node.found_extent_tree =
    (back.node.found_extent_tree && back'.num_refs != 0)
  full_backref :
    back'.node.full_backref = back.node.full_backref
  root : back'.root = back.root
  owner : back'.owner = back.owner
  offset : back'.offset = back.offset
  disk_bytenr : back'.disk_bytenr = back.disk_bytenr
  bytes : back'.bytes = back.bytes

/-
  What stays in the list for a back reference: none at all
  where it is neither found in the extent tree nor referenced
  by a tree.
-/
def Stays
    (n : Nat) : Backref → List Backref → Prop
  | .tree _, left => left = []
  | .data back, left =>
      ∃ back', Left n back back' ∧
        left =
          if back'.node.found_extent_tree ∨
              back'.node.found_ref then [.data back']
          else []

/-
  The record as a scan of the trees gives it that finds all
  that was found before but the dropped references.
-/
structure WithoutRefs
    (f : Free)
    (rec : ExtentRecord)
    (place : Found Backref)
    (rec' : ExtentRecord) : Prop where
  refs : Less place.2.1.node.found_ref (f.dropped place.2.1)
    rec.refs.toNat rec'.refs.toNat
  extent_item_refs : Less place.2.1.node.found_extent_tree
    (f.dropped place.2.1) rec.extent_item_refs.toNat
    rec'.extent_item_refs.toNat
  backrefs : ∃ left, Stays f.refs_to_drop place.2.1 left ∧
    rec'.backrefs = place.1 ++ left ++ place.2.2
  start : rec'.start = rec.start
  nr : rec'.nr = rec.nr
  num_duplicates : rec'.num_duplicates = rec.num_duplicates
  content_checked : rec'.content_checked = rec.content_checked
  owner_ref_checked :
    rec'.owner_ref_checked = rec.owner_ref_checked

/- What a scan makes of a record, once it is over. -/
def Rescanned
    (f : Free)
    (rec rec' : ExtentRecord) : Prop :=
  match f.find rec with
  | none => rec' = rec
  | some place => WithoutRefs f rec place rec'

/-
  A record is out of the cache just when it is complete, and
  else it is the record of its entry.
-/
structure Settled
    (s : Books)
    (pe : TreePlace ExtentCaches.CacheExtent)
    (rec : ExtentRecord)
    (s' : Books) : Prop where
  freed : rec.Complete →
    s'.extent_cache.toList = pe.before ++ pe.after
  kept : ¬ rec.Complete →
    s'.extent_cache = s.extent_cache ∧ s'.record pe.node = rec
  others : ∀ e, e ≠ pe.node → s'.record e = s.record e

/- The records after the hook are those of a fresh scan. -/
def KeepsBooks
    (color : Rebalance ExtentCaches.CacheExtent)
    (s : Books)
    (f : Free) : Prop :=
  match ExtentCaches.lookupCacheExtent s.extent_cache f.bytenr
      f.num_bytes with
  | none => freeExtentHook color s f = s
  | some pe =>
      ∃ rec, Rescanned f (s.record pe.node) rec ∧
        Settled s pe rec (freeExtentHook color s f)

/-
  When the hook is right about a record: it has no such back
  reference and is not complete, or it has a data reference
  that the extent tree still has more references of, and no
  counter is below what is taken from it.
-/
def Lowers
    (f : Free)
    (rec : ExtentRecord) : Prop :=
  match f.find rec with
  | none => ¬ rec.Complete
  | some (_, .tree _, _) => False
  | some (_, .data back, _) =>
      back.node.found_extent_tree = true ∧
        f.refs_to_drop < back.num_refs.toNat ∧
        f.refs_to_drop ≤ rec.extent_item_refs.toNat ∧
        (back.node.found_ref = true →
          f.refs_to_drop ≤ back.found_ref.toNat ∧
            f.refs_to_drop ≤ rec.refs.toNat)

----------
-- Counters
----------

/- A machine subtraction that comes out exact. -/
theorem sub_exact_iff
    {size n old new : Nat}
    (hOld : old < size) :
    new + n = old ↔
      n ≤ old ∧ new = (size - n % size + old) % size := by
  constructor
  · intro hSum
    have hSmall : n % size = n := Nat.mod_eq_of_lt (by omega)
    have hPlace : size - n + old = (old - n) + size := by omega
    rw [hSmall, hPlace, Nat.add_mod_right,
      Nat.mod_eq_of_lt (by omega)]
    omega
  · intro hBoth
    rcases hBoth with ⟨hLe, hNew⟩
    have hSmall : n % size = n := Nat.mod_eq_of_lt (by omega)
    have hPlace : size - n + old = (old - n) + size := by omega
    rw [hSmall, hPlace, Nat.add_mod_right,
      Nat.mod_eq_of_lt (by omega)] at hNew
    omega

theorem less_lower_iff
    {there : Bool}
    {n : Nat}
    {old new : UInt64} :
    Less there n old.toNat new.toNat ↔
      (there = true → n ≤ old.toNat) ∧
        new = lower old there n := by
  unfold Less lower
  cases there with
  | false => simp [UInt64.toNat_inj]
  | true =>
      rw [if_pos rfl, forall_prop_of_true rfl]
      by_cases hZero : old = 0
      · rw [if_neg (fun h => h.2 hZero), hZero,
          ← UInt64.toNat_inj]
        have hNone : (0 : UInt64).toNat = 0 := rfl
        omega
      · rw [if_pos ⟨rfl, hZero⟩, ← UInt64.toNat_inj,
          UInt64.toNat_sub, UInt64.toNat_ofNat']
        exact sub_exact_iff old.toNat_lt

theorem less_lowerBack_iff
    {there : Bool}
    {n : Nat}
    {old new : UInt32} :
    Less there n old.toNat new.toNat ↔
      (there = true → n ≤ old.toNat) ∧
        new = lowerBack old there n := by
  unfold Less lowerBack
  cases there with
  | false => simp [UInt32.toNat_inj]
  | true =>
      rw [if_pos rfl, if_pos rfl, forall_prop_of_true rfl,
        ← UInt32.toNat_inj, UInt32.toNat_sub,
        UInt32.toNat_ofNat']
      exact sub_exact_iff old.toNat_lt

/- What is left of a data reference, if there was enough. -/
theorem left_iff
    {n : Nat}
    {back back' : DataBackref} :
    Left n back back' ↔
      ((back.node.found_ref = true →
          n ≤ back.found_ref.toNat) ∧
        (back.node.found_extent_tree = true →
          n ≤ back.num_refs.toNat)) ∧
        back' = back.drop n := by
  constructor
  · intro hLeft
    have hFound := less_lowerBack_iff.mp hLeft.found
    have hListed := less_lowerBack_iff.mp hLeft.listed
    refine ⟨⟨hFound.1, hListed.1⟩, ?_⟩
    rcases back' with
      ⟨⟨_, _, _⟩, _, _, _, _, _, num_refs, found_ref⟩
    rcases hLeft with
      ⟨_, _, hRef, hTree, hFull, rfl, rfl, rfl, rfl, rfl⟩
    dsimp only at hFound hListed hRef hTree hFull
    unfold DataBackref.drop
    dsimp only
    rw [← hFound.2, ← hListed.2, hRef, hTree, hFull]
  · intro hBoth
    rcases hBoth with ⟨⟨hFound, hListed⟩, rfl⟩
    exact ⟨less_lowerBack_iff.mpr ⟨hFound, rfl⟩,
      less_lowerBack_iff.mpr ⟨hListed, rfl⟩, rfl, rfl, rfl,
      rfl, rfl, rfl, rfl, rfl⟩

----------
-- Records after a Drop
----------

def Backref.drop
    (n : Nat) : Backref → Backref
  | .tree back => .tree back.drop
  | .data back => .data (back.drop n)

/- The record with other counters and another list. -/
def dropped
    (f : Free)
    (rec : ExtentRecord)
    (place : Found Backref)
    (left : List Backref) : ExtentRecord :=
  { rec with
    refs := lower rec.refs place.2.1.node.found_ref
      (f.dropped place.2.1)
    extent_item_refs :=
      lower rec.extent_item_refs
        place.2.1.node.found_extent_tree (f.dropped place.2.1)
    backrefs := place.1 ++ left ++ place.2.2 }

/- The hook's record of a place. -/
theorem dropFrom_eq
    (f : Free)
    (rec : ExtentRecord) :
    dropFrom f rec = (f.find rec).map fun place =>
      dropped f rec place
        (keepBack (place.2.1.drop f.refs_to_drop)) := by
  unfold dropFrom Free.find
  by_cases hData : FIRST_FREE_OBJECTID ≤ f.owner
  · rw [if_pos hData, if_pos hData]
    cases findDataBackref rec f.parent f.root_objectid f.owner
        f.offset true f.bytenr f.num_bytes with
    | none => rfl
    | some place => rfl
  · rw [if_neg hData, if_neg hData]
    cases findTreeBackref rec f.parent f.root_objectid with
    | none => rfl
    | some place => rfl

/- The record of a fresh scan of it. -/
theorem withoutRefs_iff
    {f : Free}
    {rec rec' : ExtentRecord}
    {place : Found Backref} :
    WithoutRefs f rec place rec' ↔
      ((place.2.1.node.found_ref = true →
          f.dropped place.2.1 ≤ rec.refs.toNat) ∧
        (place.2.1.node.found_extent_tree = true →
          f.dropped place.2.1 ≤ rec.extent_item_refs.toNat)) ∧
      ∃ left, Stays f.refs_to_drop place.2.1 left ∧
        rec' = dropped f rec place left := by
  constructor
  · intro hWithout
    have hRefs := less_lower_iff.mp hWithout.refs
    have hItem := less_lower_iff.mp hWithout.extent_item_refs
    refine ⟨⟨hRefs.1, hItem.1⟩, ?_⟩
    rcases hWithout.backrefs with ⟨left, hStays, hBacks⟩
    refine ⟨left, hStays, ?_⟩
    rcases rec' with ⟨_, _, refs, item_refs, _, _, _, backs⟩
    rcases hWithout with
      ⟨_, _, _, rfl, rfl, rfl, rfl, rfl⟩
    dsimp only at hRefs hItem hBacks
    unfold dropped
    rw [← hRefs.2, ← hItem.2, ← hBacks]
  · intro hBoth
    rcases hBoth with ⟨⟨hRefs, hItem⟩, left, hStays, rfl⟩
    exact ⟨less_lower_iff.mpr ⟨hRefs, rfl⟩,
      less_lower_iff.mpr ⟨hItem, rfl⟩, ⟨left, hStays, rfl⟩,
      rfl, rfl, rfl, rfl, rfl⟩

----------
-- What Comes of the Record
----------

theorem backpointersFrom_zero
    {rec : ExtentRecord}
    {found : UInt64}
    {backs : List Backref}
    (hZero : backpointersFrom rec found backs = 0) :
    ∀ back ∈ backs, back.err rec = false := by
  induction backs generalizing found with
  | nil =>
      intro back hBack
      cases hBack
  | cons back rest ih =>
      unfold backpointersFrom at hZero
      by_cases hErr : back.err rec = true
      · rw [if_pos hErr] at hZero
        cases hZero
      · rw [if_neg hErr] at hZero
        intro b hB
        rcases List.mem_cons.mp hB with rfl | hB
        · exact Bool.eq_false_iff.mpr hErr
        · exact ih hZero b hB

/- All of a complete record is in the extent tree. -/
theorem ExtentRecord.Complete.listed
    {rec : ExtentRecord}
    {back : Backref}
    (hComplete : rec.Complete)
    (hBack : back ∈ rec.backrefs) :
    back.node.found_extent_tree = true := by
  have hErr := backpointersFrom_zero hComplete.2.2.2.2.2 back
    hBack
  cases back with
  | tree back =>
      simp only [Backref.err, Bool.or_eq_false_iff,
        Bool.not_eq_false'] at hErr
      exact hErr.1
  | data back =>
      simp only [Backref.err, Bool.or_eq_false_iff,
        Bool.not_eq_false'] at hErr
      exact hErr.1.1.1

section Settle

variable {color : Rebalance ExtentCaches.CacheExtent}
variable {s s' : Books}
variable {f : Free}
variable {pe : TreePlace ExtentCaches.CacheExtent}
variable {rec rec' : ExtentRecord}

/- The place is one of the cache, so it is there or it is not. -/
theorem not_erased
    (hPlace : pe.tree = s.extent_cache) :
    s.extent_cache.toList ≠ pe.before ++ pe.after := by
  intro hSame
  rw [← hPlace, pe.toList_tree] at hSame
  have hLength := congrArg List.length hSame
  simp at hLength

/- There is only one record that the books can be settled for. -/
theorem Settled.unique
    (hPlace : pe.tree = s.extent_cache)
    (hSettled : Settled s pe rec s')
    (hOther : Settled s pe rec' s') :
    (rec.Complete ↔ rec'.Complete) ∧
      (¬ rec.Complete → rec = rec') := by
  have hErased := not_erased hPlace
  have hSame : ∀ {a b : ExtentRecord}, Settled s pe a s' →
      Settled s pe b s' → a.Complete → b.Complete := by
    intro a b hA hB hComplete
    by_contra hNot
    have hGone := hA.freed hComplete
    rw [(hB.kept hNot).1] at hGone
    exact hErased hGone
  have hBoth : rec.Complete ↔ rec'.Complete :=
    ⟨hSame hSettled hOther, hSame hOther hSettled⟩
  refine ⟨hBoth, ?_⟩
  intro hNot
  have hHere := (hSettled.kept hNot).2
  have hThere := (hOther.kept fun h => hNot (hBoth.mpr h)).2
  rw [← hHere, hThere]

/- The hook settles the books for the record that it makes. -/
theorem freeExtentHook_settled
    (color : Rebalance ExtentCaches.CacheExtent)
    (hLookup :
      ExtentCaches.lookupCacheExtent s.extent_cache f.bytenr
          f.num_bytes =
        some pe)
    (hDrop : dropFrom f (s.record pe.node) = some rec) :
    Settled s pe rec (freeExtentHook color s f) := by
  unfold freeExtentHook
  rw [hLookup]
  dsimp only
  rw [hDrop]
  dsimp only
  unfold maybeFreeExtentRec
  dsimp only
  have hHere : Function.update s.record pe.node rec pe.node =
      rec :=
    Function.update_self ..
  have hOthers : ∀ e, e ≠ pe.node →
      Function.update s.record pe.node rec e = s.record e :=
    fun e hOther => Function.update_of_ne hOther _ _
  by_cases hComplete : rec.Complete
  · rw [if_pos (by rw [hHere]; exact hComplete)]
    refine ⟨fun _ => ?_, fun hNot => absurd hComplete hNot,
      hOthers⟩
    exact (color.toList_run _).trans pe.toList_erase
  · rw [if_neg (by rw [hHere]; exact hComplete)]
    exact ⟨fun h => absurd h hComplete,
      fun _ => ⟨rfl, hHere⟩, hOthers⟩

theorem freeExtentHook_none
    (hLookup :
      ExtentCaches.lookupCacheExtent s.extent_cache f.bytenr
          f.num_bytes =
        some pe)
    (hDrop : dropFrom f (s.record pe.node) = none) :
    freeExtentHook color s f = s := by
  unfold freeExtentHook
  rw [hLookup]
  dsimp only
  rw [hDrop]

----------
-- When the Hook Is Right
----------

/-
  A back reference that is not in the extent tree makes a
  difference: no record with it is complete.
-/
theorem not_both_settled
    (back : Backref)
    {place : Found Backref}
    (hPlace : pe.tree = s.extent_cache)
    (hUnlisted : back.node.found_extent_tree = false)
    (hWith : Settled s pe (dropped f rec place [back]) s')
    (hGone : Settled s pe (dropped f rec place []) s') :
    False := by
  have hNot : ¬ (dropped f rec place [back]).Complete := by
    intro hComplete
    have hMem : back ∈ (dropped f rec place [back]).backrefs :=
      by simp [dropped]
    have hListed := hComplete.listed hMem
    rw [hUnlisted] at hListed
    cases hListed
  have hSame := (hWith.unique hPlace hGone).2 hNot
  have hLength := congrArg
    (fun r : ExtentRecord => r.backrefs.length) hSame
  simp [dropped] at hLength

/- The hook never deletes the back reference of a tree block. -/
theorem tree_not_settled
    {before after : List Backref}
    {back : TreeBackref}
    (hPlace : pe.tree = s.extent_cache)
    (hHook : Settled s pe
      (dropped f rec (before, .tree back, after)
        (keepBack (.tree back.drop))) s')
    (hScan : WithoutRefs f rec (before, .tree back, after) rec')
    (hSettled : Settled s pe rec' s') :
    False := by
  rcases withoutRefs_iff.mp hScan with ⟨_, left, hStays, rfl⟩
  obtain rfl : left = [] := hStays
  exact not_both_settled (.tree back.drop) hPlace rfl hHook
    hSettled

/- What the extent tree has left of a data reference. -/
theorem drop_listed_iff
    {n : Nat}
    {back : DataBackref}
    (hEnough : back.node.found_extent_tree = true →
      n ≤ back.num_refs.toNat) :
    (back.drop n).node.found_extent_tree = true ↔
      back.node.found_extent_tree = true ∧
        n < back.num_refs.toNat := by
  have hLess := less_lowerBack_iff.mpr
    ⟨hEnough, rfl⟩
  unfold Less at hLess
  unfold DataBackref.drop
  dsimp only
  rw [Bool.and_eq_true, bne_iff_ne, ne_eq,
    ← UInt32.toNat_inj]
  have hZero : (0 : UInt32).toNat = 0 := rfl
  cases hThere : back.node.found_extent_tree with
  | false => simp
  | true =>
      rw [hThere, if_pos rfl] at hLess
      rw [hZero, and_congr_right_iff]
      intro _
      omega

/- The hook is right where the back reference has to stay. -/
theorem data_settled_iff
    {before after : List Backref}
    {back : DataBackref}
    (hPlace : pe.tree = s.extent_cache)
    (hHook : Settled s pe
      (dropped f rec (before, .data back, after)
        (keepBack (.data (back.drop f.refs_to_drop)))) s') :
    (∃ rec', WithoutRefs f rec (before, .data back, after)
        rec' ∧ Settled s pe rec' s') ↔
      back.node.found_extent_tree = true ∧
        f.refs_to_drop < back.num_refs.toNat ∧
        f.refs_to_drop ≤ rec.extent_item_refs.toNat ∧
        (back.node.found_ref = true →
          f.refs_to_drop ≤ back.found_ref.toNat ∧
            f.refs_to_drop ≤ rec.refs.toNat) := by
  constructor
  · intro hThere
    rcases hThere with ⟨rec', hScan, hSettled⟩
    rcases withoutRefs_iff.mp hScan with
      ⟨⟨hRefs, hItem⟩, left, ⟨back', hLeft, hList⟩, rfl⟩
    rcases left_iff.mp hLeft with ⟨⟨hFound, hListed⟩, rfl⟩
    have hStill :
        (back.drop f.refs_to_drop).node.found_extent_tree =
          true := by
      by_contra hNot
      have hUnlisted := Bool.eq_false_iff.mpr hNot
      unfold keepBack at hHook
      rw [hList] at hSettled
      cases hRef :
          (back.drop f.refs_to_drop).node.found_ref with
      | false =>
          simp only [Backref.node, hUnlisted, hRef,
            Bool.and_false, Bool.false_eq_true, or_self,
            if_false] at hHook hSettled
          exact not_both_settled (.data _) hPlace hUnlisted
            hHook hSettled
      | true =>
          simp only [Backref.node, hUnlisted, hRef,
            Bool.not_false, Bool.and_true, or_true,
            if_true] at hHook hSettled
          exact not_both_settled (.data _) hPlace hUnlisted
            hSettled hHook
    have hMore := (drop_listed_iff hListed).mp hStill
    exact ⟨hMore.1, hMore.2, hItem hMore.1,
      fun hOn => ⟨hFound hOn, hRefs hOn⟩⟩
  · intro hCond
    rcases hCond with ⟨hListed, hMore, hItem, hCounts⟩
    have hStill := (drop_listed_iff (n := f.refs_to_drop)
      fun _ => Nat.le_of_lt hMore).mpr ⟨hListed, hMore⟩
    refine ⟨_, withoutRefs_iff.mpr ⟨⟨?_, ?_⟩, _, ?_, rfl⟩,
      hHook⟩
    · exact fun hOn => (hCounts hOn).2
    · exact fun _ => hItem
    · refine ⟨back.drop f.refs_to_drop, left_iff.mpr
        ⟨⟨fun hOn => (hCounts hOn).1,
          fun _ => Nat.le_of_lt hMore⟩, rfl⟩, ?_⟩
      unfold keepBack
      simp only [Backref.node, hStill, Bool.not_true,
        Bool.false_and, Bool.false_eq_true, if_false, true_or,
        if_true]

/-
  The books are kept just where there is no record, or one
  that the hook is right about.
-/
theorem freeExtentHook_exact_iff
    (color : Rebalance ExtentCaches.CacheExtent)
    (s : Books)
    (f : Free) :
    KeepsBooks color s f ↔
      ∀ pe,
        ExtentCaches.lookupCacheExtent s.extent_cache f.bytenr
            f.num_bytes = some pe →
          Lowers f (s.record pe.node) := by
  unfold KeepsBooks
  cases hLookup : ExtentCaches.lookupCacheExtent s.extent_cache f.bytenr
      f.num_bytes with
  | none =>
      refine iff_of_true ?_ (fun pe h => by cases h)
      unfold freeExtentHook
      rw [hLookup]
  | some pe =>
      have hPlace : pe.tree = s.extent_cache :=
        TreePlace.search_tree hLookup
      have hDrop := dropFrom_eq f (s.record pe.node)
      have hOne : (∀ p, some pe = some p →
          Lowers f (s.record p.node)) ↔
            Lowers f (s.record pe.node) :=
        ⟨fun h => h pe rfl, fun h p hp => by cases hp; exact h⟩
      rw [hOne]
      dsimp only
      unfold Rescanned Lowers
      cases hFind : f.find (s.record pe.node) with
      | none =>
          rw [hFind, Option.map_none] at hDrop
          rw [freeExtentHook_none hLookup hDrop]
          dsimp only
          constructor
          · intro hThere hComplete
            rcases hThere with ⟨rec, rfl, hSettled⟩
            exact not_erased hPlace (hSettled.freed hComplete)
          · intro hNot
            exact ⟨_, rfl, fun h => absurd h hNot,
              fun _ => ⟨rfl, rfl⟩, fun _ _ => rfl⟩
      | some place =>
          rw [hFind, Option.map_some] at hDrop
          have hHook := freeExtentHook_settled color hLookup
            hDrop
          rcases place with ⟨before, back, after⟩
          cases back with
          | tree back =>
              dsimp only
              refine iff_of_false ?_ id
              intro hThere
              rcases hThere with ⟨rec, hScan, hSettled⟩
              exact tree_not_settled hPlace hHook hScan hSettled
          | data back => exact data_settled_iff hPlace hHook

/-
  A tree block of the roots 5 and 7, of which the last one is
  dropped: with root 5 alone the record is complete.
-/
def twoRoots : Books where
  extent_cache := .node .leaf ⟨0, 4096, 4096⟩ .leaf
  record := fun _ =>
    { start := 4096
      nr := 4096
      refs := 2
      extent_item_refs := 2
      num_duplicates := 0
      content_checked := true
      owner_ref_checked := true
      backrefs := [.tree ⟨⟨true, false, true⟩, 5⟩,
        .tree ⟨⟨true, false, true⟩, 7⟩] }

def dropSeven : Free where
  bytenr := 4096
  num_bytes := 4096
  parent := 0
  root_objectid := 7
  owner := 0
  offset := 0
  refs_to_drop := 1

theorem twoRoots_not_kept :
    ¬ KeepsBooks unturned twoRoots dropSeven := by
  have hLookup :
      ExtentCaches.lookupCacheExtent twoRoots.extent_cache 4096
      4096 = some ⟨.leaf, ⟨0, 4096, 4096⟩, .leaf, []⟩ := rfl
  intro hKept
  unfold KeepsBooks at hKept
  rw [show ExtentCaches.lookupCacheExtent twoRoots.extent_cache
    dropSeven.bytenr dropSeven.num_bytes = _ from hLookup]
    at hKept
  rcases hKept with ⟨rec, hScan, hSettled⟩
  have hHook := freeExtentHook_settled unturned
    (s := twoRoots) (f := dropSeven) hLookup rfl
  exact tree_not_settled rfl hHook hScan hSettled

end Settle

end FreeExtent

end Check

end BtrfsProgs
