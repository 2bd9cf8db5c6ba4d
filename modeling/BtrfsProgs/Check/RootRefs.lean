import BtrfsProgs.Lib.Loop
import BtrfsProgs.Lib.Supported

/-
  The root records of `cmds-check.c`: how the scan of the
  trees builds them, and how `check_root_refs` finds the
  roots that are not referenced.

  A root cache is the list of its records, in the order in
  which the tree is walked.

  Main declarations:
    * `addRootBackref` and `build`
    * `propagateTurn` and `checkRootRefs`
    * `Counted.scan`
-/

----------
-- Records
----------

namespace BtrfsProgs

namespace Check

namespace RootRefs

def BTRFS_FS_TREE_OBJECTID : Nat := 5

def BTRFS_FIRST_FREE_OBJECTID : Nat := 256

def BTRFS_LAST_FREE_OBJECTID : Nat := 2 ^ 64 - 256

def REF_ERR_NO_DIR_ITEM : Nat := 1 <<< 0

def REF_ERR_NO_DIR_INDEX : Nat := 1 <<< 1

def REF_ERR_INDEX_UNMATCH : Nat := 1 <<< 6

def REF_ERR_NO_ROOT_REF : Nat := 1 <<< 9

def REF_ERR_NO_ROOT_BACKREF : Nat := 1 <<< 10

def REF_ERR_DUP_ROOT_REF : Nat := 1 <<< 11

def REF_ERR_DUP_ROOT_BACKREF : Nat := 1 <<< 12

/- The types of items that `add_root_backref` takes. -/
inductive ItemType where
  | dirItem
  | dirIndex
  | rootRef
  | rootBackref
deriving Repr, DecidableEq

/- `struct root_backref` -/
structure RootBackref where
  refRoot : Nat
  dir : Nat
  index : Nat
  name : List UInt8
  errors : Nat := 0
  foundDirItem : Bool := false
  foundDirIndex : Bool := false
  foundBackRef : Bool := false
  foundForwardRef : Bool := false
  reachable : Bool := false
deriving Repr, DecidableEq

/- `struct root_record` -/
structure RootRecord where
  objectid : Nat
  foundRootItem : Bool := false
  foundRef : Nat := 0
  backrefs : List RootBackref := []
deriving Repr, DecidableEq

abbrev RootCache : Type := List RootRecord

----------
-- The Cache
----------

/- `insert_cache_extent`, which keeps the order of the keys. -/
def insertRec
    (rec : RootRecord) : RootCache → RootCache
  | [] => [rec]
  | r :: rest =>
      if rec.objectid < r.objectid then rec :: r :: rest
      else r :: insertRec rec rest

def lookupRec
    (cache : RootCache)
    (objectid : Nat) : Option RootRecord :=
  cache.find? fun r => r.objectid == objectid

/- `get_root_rec`: the record, and the cache with it. -/
def getRootRec
    (cache : RootCache)
    (objectid : Nat) : RootRecord × RootCache :=
  match lookupRec cache objectid with
  | some rec => (rec, cache)
  | none =>
      let blank : RootRecord := { objectid := objectid }
      (blank, insertRec blank cache)

/- A record of the cache, changed in its place. -/
def storeRec
    (cache : RootCache)
    (rec : RootRecord) : RootCache :=
  cache.map fun r =>
    if r.objectid = rec.objectid then rec else r

/- `search_cache_extent` from 0, as the record's number. -/
def firstRec
    (cache : RootCache) : Option Nat :=
  (cache.map RootRecord.objectid).head?

/- The numbers of the records from one of them on. -/
def recsFrom
    (cache : RootCache)
    (objectid : Nat) : List Nat :=
  (cache.map RootRecord.objectid).dropWhile (· != objectid)

/- `next_cache_extent` -/
def nextRec
    (cache : RootCache)
    (objectid : Nat) : Option Nat :=
  (recsFrom cache objectid).tail.head?

----------
-- Building the Records
----------

/- What a call of `add_root_backref` reports. -/
structure RootItem where
  rootId : Nat
  refRoot : Nat
  dir : Nat
  index : Nat
  name : List UInt8
  itemType : ItemType
  errors : Nat
deriving Repr, DecidableEq

/-
  `get_root_backref`: the back reference, new if need be,
  with those in front of it and those after it.
-/
def getRootBackref
    (item : RootItem) :
    List RootBackref →
      List RootBackref × RootBackref × List RootBackref
  | [] =>
      ([], { refRoot := item.refRoot, dir := item.dir,
             index := item.index, name := item.name }, [])
  | b :: rest =>
      if b.refRoot ≠ item.refRoot ∨ b.dir ≠ item.dir ∨
          b.name ≠ item.name then
        let found := getRootBackref item rest
        (b :: found.1, found.2)
      else ([], b, rest)

/- The errors and the index, before the type is looked at. -/
def noteIndex
    (item : RootItem)
    (backref : RootBackref) : RootBackref :=
  let backref :=
    { backref with errors := backref.errors ||| item.errors }
  if item.itemType ≠ .dirItem then
    if backref.foundDirIndex ∨ backref.foundBackRef ∨
        backref.foundForwardRef then
      if backref.index ≠ item.index then
        { backref with
          errors := backref.errors ||| REF_ERR_INDEX_UNMATCH }
      else backref
    else { backref with index := item.index }
  else backref

/- What the type sets, and by how much `found_ref` grows. -/
def noteType
    (itemType : ItemType)
    (backref : RootBackref) : RootBackref × Nat :=
  match itemType with
  | .dirItem =>
      ({ backref with foundDirItem := true },
        if backref.foundForwardRef then 1 else 0)
  | .dirIndex => ({ backref with foundDirIndex := true }, 0)
  | .rootRef =>
      if backref.foundForwardRef then
        ({ backref with
            errors := backref.errors ||| REF_ERR_DUP_ROOT_REF,
            foundForwardRef := true }, 0)
      else
        ({ backref with foundForwardRef := true },
          if backref.foundDirItem then 1 else 0)
  | .rootBackref =>
      if backref.foundBackRef then
        ({ backref with
            errors :=
              backref.errors ||| REF_ERR_DUP_ROOT_BACKREF,
            foundBackRef := true }, 0)
      else ({ backref with foundBackRef := true }, 0)

/- `if (found_forward_ref && found_dir_item) reachable = 1` -/
def noteReachable
    (backref : RootBackref) : RootBackref :=
  if backref.foundForwardRef ∧ backref.foundDirItem then
    { backref with reachable := true }
  else backref

/- What a call makes of a back reference. -/
def noteItem
    (item : RootItem)
    (backref : RootBackref) : RootBackref × Nat :=
  let noted := noteType item.itemType (noteIndex item backref)
  (noteReachable noted.1, noted.2)

def addRootBackref
    (cache : RootCache)
    (item : RootItem) : RootCache :=
  let found := getRootRec cache item.rootId
  let place := getRootBackref item found.1.backrefs
  let noted := noteItem item place.2.1
  storeRec found.2
    { found.1 with
      foundRef := found.1.foundRef + noted.2
      backrefs := place.1 ++ noted.1 :: place.2.2 }

/-
  What the scan of the trees does to the root cache:
  `check_fs_root` with the root's `refs`, or a call of
  `add_root_backref`.
-/
inductive Scan where
  | fsRoot (objectid refs : Nat)
  | item (item : RootItem)
deriving Repr, DecidableEq

def scan
    (cache : RootCache) : Scan → RootCache
  | .fsRoot objectid refs =>
      let found := getRootRec cache objectid
      if refs > 0 then
        storeRec found.2 { found.1 with foundRootItem := true }
      else found.2
  | .item item => addRootBackref cache item

def build
    (scans : List Scan) : RootCache :=
  scans.foldl scan []

/- The directory item that is reported, if it is one. -/
def Scan.dirItem : Scan → Option (Nat × Nat × Nat × List UInt8)
  | .fsRoot _ _ => none
  | .item i =>
      if i.itemType = .dirItem then
        some (i.rootId, i.refRoot, i.dir, i.name)
      else none

----------
-- The Check
----------

/-
  The pass over the back references of a record, with those
  it is done with; the record is kept up to date in the
  cache.
-/
def checkBackrefs
    (rec : RootRecord)
    (done : List RootBackref) :
    List RootBackref → RootCache × Bool → RootCache × Bool
  | [], state => state
  | b :: todo, (cache, loop) =>
      if !b.reachable then
        checkBackrefs rec (done ++ [b]) todo (cache, loop)
      else
        let found := getRootRec cache b.refRoot
        if found.1.foundRef > 0 then
          checkBackrefs rec (done ++ [b]) todo (found.2, loop)
        else
          let b' := { b with reachable := false }
          let rec' :=
            { rec with
              backrefs := done ++ b' :: todo
              foundRef := rec.foundRef - 1 }
          checkBackrefs rec' (done ++ [b']) todo
            (storeRec found.2 rec',
              loop || rec'.foundRef == 0)

/- The loop over the records, and over them again. -/
structure Walk where
  cache : RootCache
  loop : Bool
  cursor : Option Nat

def propagateTurn
    (w : Walk) : Walk ⊕ RootCache :=
  match w.cursor with
  | none =>
      if w.loop then
        .inl ⟨w.cache, false, firstRec w.cache⟩
      else .inr w.cache
  | some objectid =>
      match lookupRec w.cache objectid with
      | none => .inl { w with cursor := none }
      | some rec =>
          let next := nextRec w.cache objectid
          if rec.foundRef = 0 then
            .inl { w with cursor := next }
          else
            let state :=
              checkBackrefs rec [] rec.backrefs
                (w.cache, w.loop)
            .inl ⟨state.1, state.2, next⟩

/- The lines that the check prints. -/
inductive Message where
  | notReferenced (objectid : Nat)
  | refs (objectid foundRef : Nat) (foundRootItem : Bool)
  | unresolved (backref : RootBackref)
deriving Repr, DecidableEq

/- The errors for what was not found of a back reference. -/
def refErrors
    (b : RootBackref) : RootBackref :=
  { b with
    errors := b.errors |||
      (if b.foundDirItem then 0 else REF_ERR_NO_DIR_ITEM) |||
      (if b.foundDirIndex then 0
        else REF_ERR_NO_DIR_INDEX) |||
      (if b.foundBackRef then 0
        else REF_ERR_NO_ROOT_BACKREF) |||
      (if b.foundForwardRef then 0
        else REF_ERR_NO_ROOT_REF) }

/- A root that may be deleted has lost its references. -/
def RootRecord.Lost
    (rec : RootRecord) : Prop :=
  rec.foundRef = 0 ∧
    BTRFS_FIRST_FREE_OBJECTID ≤ rec.objectid ∧
    rec.objectid ≤ BTRFS_LAST_FREE_OBJECTID

instance
    (rec : RootRecord) : Decidable rec.Lost :=
  inferInstanceAs (Decidable (_ ∧ _ ∧ _))

/- What is printed for a record that is not passed. -/
def reportBackrefs
    (rec : RootRecord) : List Message :=
  let backrefs := rec.backrefs.map refErrors
  let error :=
    (decide (rec.foundRef > 0) && !rec.foundRootItem) ||
      backrefs.any fun b => b.reachable && b.errors != 0
  let shown :=
    backrefs.filter fun b =>
      b.reachable && !(b.errors == 0 && rec.foundRootItem)
  if error then
    .refs rec.objectid rec.foundRef rec.foundRootItem ::
      shown.map .unresolved
  else []

/-
  A turn of the last loop.  An orphan item, or that there is
  no root item, excuses a lost root.
-/
def reportRec
    (checkOrphanItem : Nat → Int)
    (rec : RootRecord) : List Message :=
  if rec.Lost then
    if checkOrphanItem rec.objectid = 0 then []
    else if !rec.foundRootItem then []
    else .notReferenced rec.objectid :: reportBackrefs rec
  else reportBackrefs rec

def Message.isError : Message → Bool
  | .notReferenced _ => true
  | .refs _ _ _ => true
  | .unresolved _ => false

/- The records after the loop, what is printed and returned. -/
structure Outcome where
  cache : RootCache
  messages : List Message
  ret : Int
deriving Repr, DecidableEq

def reportRecs
    (checkOrphanItem : Nat → Int)
    (cache : RootCache) : Outcome :=
  let messages := cache.flatMap (reportRec checkOrphanItem)
  ⟨cache, messages,
    if messages.countP Message.isError > 0 then 1 else 0⟩

/- The top-level tree is referenced. -/
def markTop
    (cache : RootCache) : RootCache :=
  let found := getRootRec cache BTRFS_FS_TREE_OBJECTID
  storeRec found.2 { found.1 with foundRef := 1 }

def checkRootRefs
    (checkOrphanItem : Nat → Int)
    (fuel : Nat)
    (cache : RootCache) : Option Outcome :=
  (Loop.run propagateTurn fuel
    ⟨markTop cache, true, none⟩).map
      (reportRecs checkOrphanItem)

----------
-- Facts about the Cache
----------

/- The numbers of the records, which are all different. -/
def ids
    (cache : RootCache) : List Nat :=
  cache.map RootRecord.objectid

def Distinct
    (cache : RootCache) : Prop :=
  (ids cache).Nodup

theorem mem_ids
    {cache : RootCache}
    {rec : RootRecord}
    (hMem : rec ∈ cache) :
    rec.objectid ∈ ids cache :=
  List.mem_map_of_mem hMem

theorem lookupRec_some
    {cache : RootCache}
    {objectid : Nat}
    {rec : RootRecord}
    (hFound : lookupRec cache objectid = some rec) :
    rec ∈ cache ∧ rec.objectid = objectid := by
  have hMem := List.mem_of_find?_eq_some hFound
  have hIs := List.find?_some hFound
  exact ⟨hMem, by simpa using hIs⟩

theorem lookupRec_none
    {cache : RootCache}
    {objectid : Nat}
    (hNone : lookupRec cache objectid = none) :
    objectid ∉ ids cache := by
  intro hMem
  rcases List.mem_map.mp hMem with ⟨rec, hRec, hIs⟩
  have hNot := List.find?_eq_none.mp hNone rec hRec
  exact hNot (by simpa using hIs)

theorem insertRec_split
    (rec : RootRecord)
    (cache : RootCache) :
    ∃ front after, cache = front ++ after ∧
      insertRec rec cache = front ++ rec :: after := by
  induction cache with
  | nil => exact ⟨[], [], rfl, rfl⟩
  | cons r rest ih =>
      unfold insertRec
      by_cases hLess : rec.objectid < r.objectid
      · rw [if_pos hLess]
        exact ⟨[], r :: rest, rfl, rfl⟩
      · rw [if_neg hLess]
        rcases ih with ⟨front, after, hRest, hNew⟩
        refine ⟨r :: front, after, ?_, ?_⟩
        · rw [hRest]; rfl
        · rw [hNew]; rfl

theorem Distinct.eq_of_mem
    {cache : RootCache}
    (hDistinct : Distinct cache)
    {a b : RootRecord}
    (ha : a ∈ cache)
    (hb : b ∈ cache)
    (hSame : a.objectid = b.objectid) :
    a = b :=
  List.inj_on_of_nodup_map hDistinct ha hb hSame

/- What `get_root_rec` gives for a cache. -/
inductive Fetched
    (cache : RootCache)
    (objectid : Nat) : RootRecord × RootCache → Prop where
  | old {rec : RootRecord}
      (hMem : rec ∈ cache)
      (hIs : rec.objectid = objectid) :
      Fetched cache objectid (rec, cache)
  | new {front after : RootCache}
      (hCache : cache = front ++ after)
      (hNew : objectid ∉ ids cache) :
      Fetched cache objectid
        ({ objectid := objectid },
          front ++ { objectid := objectid } :: after)

theorem getRootRec_fetched
    (cache : RootCache)
    (objectid : Nat) :
    Fetched cache objectid (getRootRec cache objectid) := by
  unfold getRootRec
  cases hFound : lookupRec cache objectid with
  | some rec =>
      rcases lookupRec_some hFound with ⟨hMem, hIs⟩
      exact .old hMem hIs
  | none =>
      have hNew := lookupRec_none hFound
      rcases insertRec_split { objectid := objectid } cache with
        ⟨front, after, hCache, hInsert⟩
      simp only [hInsert]
      exact .new hCache hNew

namespace Fetched

variable {cache : RootCache}
variable {objectid : Nat}
variable {found : RootRecord × RootCache}

theorem mem
    (hFetched : Fetched cache objectid found) :
    found.1 ∈ found.2 ∧ found.1.objectid = objectid := by
  cases hFetched with
  | old hMem hIs => exact ⟨hMem, hIs⟩
  | new hCache hNew => exact ⟨by simp, rfl⟩

theorem there
    (hFetched : Fetched cache objectid found) :
    found.1.objectid ∈ ids found.2 :=
  mem_ids hFetched.mem.1

theorem distinct
    (hFetched : Fetched cache objectid found)
    (hDistinct : Distinct cache) :
    Distinct found.2 := by
  cases hFetched with
  | old hMem hIs => exact hDistinct
  | @new front after hCache hNew =>
      subst hCache
      have hPerm : (ids (front ++
          { objectid := objectid } :: after)).Perm
          (objectid :: ids (front ++ after)) := by
        unfold ids
        exact List.Perm.map _ List.perm_middle
      exact hPerm.nodup_iff.mpr
        (List.nodup_cons.mpr ⟨hNew, hDistinct⟩)

theorem mem_iff
    (hFetched : Fetched cache objectid found)
    {r : RootRecord} :
    r ∈ found.2 ↔ r = found.1 ∨ r ∈ cache := by
  cases hFetched with
  | old hMem hIs =>
      constructor
      · exact Or.inr
      · intro hr
        rcases hr with rfl | hr
        · exact hMem
        · exact hr
  | new hCache hNew =>
      subst hCache
      simp only [List.mem_append, List.mem_cons]
      tauto

theorem ids_sublist
    (hFetched : Fetched cache objectid found) :
    (ids cache).Sublist (ids found.2) := by
  cases hFetched with
  | old hMem hIs => exact List.Sublist.refl _
  | new hCache hNew =>
      subst hCache
      apply List.Sublist.map
      exact List.Sublist.append (List.Sublist.refl _)
        (List.sublist_cons_self _ _)

/- A record that was not there has nothing in it. -/
theorem old_or_blank
    (hFetched : Fetched cache objectid found) :
    found.1 ∈ cache ∨
      found.1 = { objectid := objectid } ∧
        objectid ∉ ids cache := by
  cases hFetched with
  | old hMem hIs => exact Or.inl hMem
  | new hCache hNew => exact Or.inr ⟨rfl, hNew⟩

end Fetched

section Store

variable {front after : RootCache}
variable {old rec : RootRecord}

theorem storeRec_ids
    (cache : RootCache) :
    ids (storeRec cache rec) = ids cache := by
  unfold ids storeRec
  rw [List.map_map]
  apply List.map_congr_left
  intro r hr
  by_cases hSame : r.objectid = rec.objectid
  · simp [hSame]
  · simp [hSame]

theorem Distinct.store
    {cache : RootCache}
    (hDistinct : Distinct cache) :
    Distinct (storeRec cache rec) := by
  unfold Distinct
  rw [storeRec_ids]
  exact hDistinct

theorem mem_storeRec
    {cache : RootCache}
    {r : RootRecord}
    (hThere : rec.objectid ∈ ids cache) :
    r ∈ storeRec cache rec ↔
      r = rec ∨ r ∈ cache ∧ r.objectid ≠ rec.objectid := by
  unfold storeRec
  rw [List.mem_map]
  constructor
  · intro hMem
    rcases hMem with ⟨x, hx, hIs⟩
    by_cases hSame : x.objectid = rec.objectid
    · rw [if_pos hSame] at hIs
      exact Or.inl hIs.symm
    · rw [if_neg hSame] at hIs
      subst hIs
      exact Or.inr ⟨hx, hSame⟩
  · intro hMem
    rcases hMem with rfl | ⟨hr, hOther⟩
    · rcases List.mem_map.mp hThere with ⟨x, hx, hIs⟩
      exact ⟨x, hx, if_pos hIs⟩
    · exact ⟨r, hr, if_neg hOther⟩

theorem storeRec_split
    (hDistinct : Distinct (front ++ old :: after))
    (hSame : old.objectid = rec.objectid) :
    storeRec (front ++ old :: after) rec =
      front ++ rec :: after := by
  have hNot : ∀ r ∈ front ++ after,
      r.objectid ≠ rec.objectid := by
    have hPerm : (ids (front ++ old :: after)).Perm
        (old.objectid :: ids (front ++ after)) :=
      List.Perm.map _ List.perm_middle
    have hFresh :=
      (List.nodup_cons.mp (hPerm.nodup_iff.mp hDistinct)).1
    intro r hr hIs
    apply hFresh
    rw [hSame, ← hIs]
    exact List.mem_map_of_mem hr
  have hKeep : ∀ part : RootCache,
      (∀ r ∈ part, r.objectid ≠ rec.objectid) →
      storeRec part rec = part := by
    intro part hPart
    unfold storeRec
    calc part.map _ = part.map id := by
          apply List.map_congr_left
          intro r hr
          simp [hPart r hr]
      _ = part := List.map_id _
  have hFront := hKeep front fun r hr =>
    hNot r (List.mem_append_left _ hr)
  have hAfter := hKeep after fun r hr =>
    hNot r (List.mem_append_right _ hr)
  unfold storeRec at hFront hAfter ⊢
  rw [List.map_append, List.map_cons, hFront, hAfter,
    if_pos hSame]

end Store

----------
-- Records as Built
----------

/- The directory items that have been reported. -/
abbrev Reported : Type := List (Nat × Nat × Nat × List UInt8)

/- `found_ref` counts the back references that are reachable. -/
structure RootRecord.WellCounted
    (rec : RootRecord)
    (items : Reported) : Prop where
  counted :
    rec.foundRef = rec.backrefs.countP RootBackref.reachable
  both : ∀ b ∈ rec.backrefs,
    b.reachable = (b.foundForwardRef && b.foundDirItem)
  told : ∀ b ∈ rec.backrefs, b.foundDirItem = true →
    (rec.objectid, b.refRoot, b.dir, b.name) ∈ items

/- Each record counts what the items report. -/
structure Counted
    (items : Reported)
    (cache : RootCache) : Prop where
  distinct : Distinct cache
  each : ∀ rec ∈ cache, rec.WellCounted items

theorem RootRecord.WellCounted.blank
    (objectid : Nat)
    (items : Reported) :
    RootRecord.WellCounted { objectid := objectid } items where
  counted := rfl
  both := by simp
  told := by simp

theorem RootRecord.WellCounted.mono
    {rec : RootRecord}
    {items more : Reported}
    (hCounted : rec.WellCounted items) :
    rec.WellCounted (items ++ more) where
  counted := hCounted.counted
  both := hCounted.both
  told := fun b hb hDir =>
    List.mem_append_left _ (hCounted.told b hb hDir)

theorem Counted.fetched
    {items : Reported}
    {cache : RootCache}
    (hCounted : Counted items cache)
    {objectid : Nat}
    {found : RootRecord × RootCache}
    (hFetched : Fetched cache objectid found) :
    Counted items found.2 ∧ found.1.WellCounted items := by
  have hFirst : found.1.WellCounted items := by
    rcases hFetched.old_or_blank with hOld | ⟨hBlank, _⟩
    · exact hCounted.each found.1 hOld
    · rw [hBlank]
      exact .blank objectid items
  refine ⟨⟨hFetched.distinct hCounted.distinct, ?_⟩, hFirst⟩
  intro r hr
  rcases hFetched.mem_iff.mp hr with rfl | hr
  · exact hFirst
  · exact hCounted.each r hr

theorem Counted.store
    {items more : Reported}
    {cache : RootCache}
    (hCounted : Counted items cache)
    {rec : RootRecord}
    (hThere : rec.objectid ∈ ids cache)
    (hRec : rec.WellCounted (items ++ more)) :
    Counted (items ++ more) (storeRec cache rec) where
  distinct := hCounted.distinct.store
  each := by
    intro r hr
    rcases (mem_storeRec hThere).mp hr with rfl | ⟨hr, _⟩
    · exact hRec
    · exact (hCounted.each r hr).mono

/- The back reference is for the item, in the list or new. -/
theorem getRootBackref_spec
    (item : RootItem)
    (backrefs : List RootBackref) :
    let found := getRootBackref item backrefs
    (found.2.1.refRoot = item.refRoot ∧
      found.2.1.dir = item.dir ∧
      found.2.1.name = item.name) ∧
    (backrefs = found.1 ++ found.2.1 :: found.2.2 ∨
      backrefs = found.1 ∧ found.2.2 = [] ∧
      found.2.1 =
        { refRoot := item.refRoot, dir := item.dir,
          index := item.index, name := item.name }) := by
  induction backrefs with
  | nil => exact ⟨⟨rfl, rfl, rfl⟩, Or.inr ⟨rfl, rfl, rfl⟩⟩
  | cons b rest ih =>
      unfold getRootBackref
      by_cases hOther : b.refRoot ≠ item.refRoot ∨
          b.dir ≠ item.dir ∨ b.name ≠ item.name
      · rw [if_pos hOther]
        rcases ih with ⟨hFor, hSplit⟩
        refine ⟨hFor, ?_⟩
        rcases hSplit with hOld | ⟨hRest, hEmpty, hNew⟩
        · exact Or.inl (congrArg (b :: ·) hOld)
        · exact Or.inr ⟨congrArg (b :: ·) hRest, hEmpty, hNew⟩
      · rw [if_neg hOther]
        push Not at hOther
        exact ⟨hOther, Or.inl rfl⟩

theorem noteIndex_same
    (item : RootItem)
    (b : RootBackref) :
    (noteIndex item b).refRoot = b.refRoot ∧
      (noteIndex item b).dir = b.dir ∧
      (noteIndex item b).name = b.name ∧
      (noteIndex item b).foundDirItem = b.foundDirItem ∧
      (noteIndex item b).foundForwardRef = b.foundForwardRef ∧
      (noteIndex item b).reachable = b.reachable := by
  unfold noteIndex
  dsimp only
  split
  · split
    · split <;> exact ⟨rfl, rfl, rfl, rfl, rfl, rfl⟩
    · exact ⟨rfl, rfl, rfl, rfl, rfl, rfl⟩
  · exact ⟨rfl, rfl, rfl, rfl, rfl, rfl⟩

/-
  The flags stay in step, and `found_ref` grows just when the
  back reference becomes reachable.
-/
theorem noteItem_spec
    (item : RootItem)
    (b : RootBackref)
    (hBoth :
      b.reachable = (b.foundForwardRef && b.foundDirItem))
    (hOnce :
      item.itemType = .dirItem → b.foundDirItem = false) :
    let noted := noteItem item b
    (noted.1.refRoot = b.refRoot ∧ noted.1.dir = b.dir ∧
      noted.1.name = b.name) ∧
    noted.1.reachable =
      (noted.1.foundForwardRef && noted.1.foundDirItem) ∧
    (noted.1.foundDirItem = true →
      b.foundDirItem = true ∨ item.itemType = .dirItem) ∧
    noted.1.reachable.toNat = b.reachable.toNat + noted.2 := by
  rcases noteIndex_same item b with
    ⟨hRoot, hDir, hName, hItem, hForward, hReach⟩
  unfold noteItem
  generalize noteIndex item b = c at *
  rw [← hItem, ← hForward, ← hReach] at hBoth
  rw [← hItem] at hOnce ⊢
  rw [← hRoot, ← hDir, ← hName, ← hReach]
  cases hType : item.itemType with
  | dirItem =>
      have hFresh := hOnce hType
      cases hSeen : c.foundForwardRef <;>
        simp_all [noteType, noteReachable]
  | dirIndex
  | rootRef =>
      cases hSeen : c.foundForwardRef <;>
        cases hThere : c.foundDirItem <;>
        simp_all [noteType, noteReachable]
  | rootBackref =>
      cases hBack : c.foundBackRef <;>
        cases hSeen : c.foundForwardRef <;>
        cases hThere : c.foundDirItem <;>
        simp_all [noteType, noteReachable]

theorem countP_middle
    (front after : List RootBackref)
    (b : RootBackref) :
    (front ++ b :: after).countP RootBackref.reachable =
      front.countP RootBackref.reachable +
        b.reachable.toNat +
        after.countP RootBackref.reachable := by
  rw [List.countP_append, List.countP_cons]
  cases b.reachable with
  | false => simp
  | true =>
      simp
      omega

/- One call keeps the count, for an item not yet reported. -/
theorem RootRecord.WellCounted.note
    {rec : RootRecord}
    {items : Reported}
    (hCounted : rec.WellCounted items)
    (item : RootItem)
    (hRoot : item.rootId = rec.objectid)
    (hNew : ∀ key ∈ (Scan.item item).dirItem, key ∉ items) :
    let place := getRootBackref item rec.backrefs
    let noted := noteItem item place.2.1
    RootRecord.WellCounted
      { rec with
        foundRef := rec.foundRef + noted.2
        backrefs := place.1 ++ noted.1 :: place.2.2 }
      (items ++ (Scan.item item).dirItem.toList) := by
  intro place noted
  rcases getRootBackref_spec item rec.backrefs with
    ⟨⟨hFor, hDir, hName⟩, hSplit⟩
  change place.2.1.refRoot = _ at hFor
  change place.2.1.dir = _ at hDir
  change place.2.1.name = _ at hName
  change rec.backrefs = place.1 ++ place.2.1 :: place.2.2 ∨
    rec.backrefs = place.1 ∧ place.2.2 = [] ∧ place.2.1 = _
    at hSplit
  have hPlace :
      (place.2.1.reachable =
        (place.2.1.foundForwardRef &&
          place.2.1.foundDirItem)) ∧
      (place.2.1.foundDirItem = true →
        (rec.objectid, item.refRoot, item.dir, item.name) ∈
          items) ∧
      rec.foundRef = place.1.countP RootBackref.reachable +
        place.2.1.reachable.toNat +
        place.2.2.countP RootBackref.reachable ∧
      ∀ b ∈ place.1 ++ place.2.2, b ∈ rec.backrefs := by
    rcases hSplit with hOld | ⟨hOld, hEmpty, hFresh⟩
    · have hIn : place.2.1 ∈ rec.backrefs := by
        rw [hOld]; simp
      refine ⟨hCounted.both _ hIn, ?_, ?_, ?_⟩
      · intro hSeen
        have hTold := hCounted.told _ hIn hSeen
        rw [hFor, hDir, hName] at hTold
        exact hTold
      · rw [hCounted.counted, hOld, countP_middle]
      · intro b hb
        rw [hOld]
        rcases List.mem_append.mp hb with hb | hb
        · exact List.mem_append_left _ hb
        · exact List.mem_append_right _
            (List.mem_cons_of_mem _ hb)
    · refine ⟨by rw [hFresh]; rfl, ?_, ?_, ?_⟩
      · rw [hFresh]
        intro hSeen
        cases hSeen
      · rw [hCounted.counted, hOld, hEmpty, hFresh]
        simp
      · intro b hb
        rw [hEmpty, List.append_nil] at hb
        rw [hOld]
        exact hb
  rcases hPlace with ⟨hBoth, hTold, hCount, hOthers⟩
  have hOnce : item.itemType = .dirItem →
      place.2.1.foundDirItem = false := by
    intro hType
    cases hSeen : place.2.1.foundDirItem with
    | false => rfl
    | true =>
        exfalso
        have hIn := hTold hSeen
        rw [← hRoot] at hIn
        exact hNew _ (by simp [Scan.dirItem, hType]) hIn
  rcases noteItem_spec item place.2.1 hBoth hOnce with
    ⟨⟨hRefRoot, hRefDir, hRefName⟩, hNoted, hDirItem, hGrown⟩
  change noted.1.refRoot = _ at hRefRoot
  change noted.1.dir = _ at hRefDir
  change noted.1.name = _ at hRefName
  change noted.1.reachable.toNat = _ + noted.2 at hGrown
  constructor
  · dsimp only
    rw [countP_middle, hGrown, hCount]
    omega
  · intro b hb
    rcases List.mem_append.mp hb with hb | hb
    · exact hCounted.both b
        (hOthers b (List.mem_append_left _ hb))
    · rcases List.mem_cons.mp hb with rfl | hb
      · exact hNoted
      · exact hCounted.both b
          (hOthers b (List.mem_append_right _ hb))
  · intro b hb hSeen
    have hOld : ∀ c ∈ place.1 ++ place.2.2,
        c.foundDirItem = true →
        (rec.objectid, c.refRoot, c.dir, c.name) ∈
          items ++ (Scan.item item).dirItem.toList :=
      fun c hc hDirSeen =>
        List.mem_append_left _
          (hCounted.told c (hOthers c hc) hDirSeen)
    rcases List.mem_append.mp hb with hb | hb
    · exact hOld b (List.mem_append_left _ hb) hSeen
    · rcases List.mem_cons.mp hb with rfl | hb
      · dsimp only
        rw [hRefRoot, hRefDir, hRefName, hFor, hDir, hName]
        rcases hDirItem hSeen with hBefore | hType
        · exact List.mem_append_left _ (hTold hBefore)
        · apply List.mem_append_right
          simp [Scan.dirItem, hType, hRoot]
      · exact hOld b (List.mem_append_right _ hb) hSeen

/- Scanning keeps the counts right. -/
theorem Counted.scan
    {items : Reported}
    {cache : RootCache}
    (hCounted : Counted items cache)
    (s : Scan)
    (hNew : ∀ key ∈ s.dirItem, key ∉ items) :
    Counted (items ++ s.dirItem.toList)
      (RootRefs.scan cache s) := by
  cases s with
  | fsRoot objectid refs =>
      have hFetched := getRootRec_fetched cache objectid
      rcases hCounted.fetched hFetched with ⟨hNext, hRec⟩
      have hSame : items ++
          (Scan.fsRoot objectid refs).dirItem.toList =
          items ++ [] := rfl
      rw [hSame]
      unfold RootRefs.scan
      by_cases hRefs : refs > 0
      · simp only [if_pos hRefs]
        refine hNext.store ?_ ?_
        · exact hFetched.there
        · have hMore : (getRootRec cache objectid).1.WellCounted
              (items ++ []) := hRec.mono
          exact ⟨hMore.counted, hMore.both, hMore.told⟩
      · simp only [if_neg hRefs, List.append_nil]
        exact hNext
  | item item =>
      have hFetched := getRootRec_fetched cache item.rootId
      rcases hCounted.fetched hFetched with ⟨hNext, hRec⟩
      refine hNext.store ?_ ?_
      · exact hFetched.there
      · exact hRec.note item hFetched.mem.2.symm hNew

/- So they are after any scan that reports an item once. -/
theorem counted_build
    (scans : List Scan)
    (hOnce : (scans.filterMap Scan.dirItem).Nodup) :
    Counted (scans.filterMap Scan.dirItem) (build scans) := by
  unfold build
  have hRun : ∀ (items : Reported) (cache : RootCache)
      (rest : List Scan),
      Counted items cache →
      (items ++ rest.filterMap Scan.dirItem).Nodup →
      Counted (items ++ rest.filterMap Scan.dirItem)
        (rest.foldl RootRefs.scan cache) := by
    intro items cache rest
    induction rest generalizing items cache with
    | nil =>
        intro hCounted _
        simpa using hCounted
    | cons s rest ih =>
        intro hCounted hNodup
        have hSplit : items ++
            (s :: rest).filterMap Scan.dirItem =
            (items ++ s.dirItem.toList) ++
              rest.filterMap Scan.dirItem := by
          rw [List.append_assoc]
          cases hKey : s.dirItem <;>
            simp [hKey]
        rw [hSplit] at hNodup ⊢
        apply ih _ _ _ hNodup
        apply hCounted.scan
        intro key hKey hOld
        have hApart :=
          (List.nodup_append.mp
            (List.nodup_append.mp hNodup).1).2.2
        exact hApart key hOld key
          (Option.mem_toList.mpr hKey) rfl
  have hEmpty : Counted [] ([] : RootCache) :=
    ⟨List.nodup_nil, by simp⟩
  simpa using hRun [] [] scans hEmpty (by simpa using hOnce)

end RootRefs

end Check

end BtrfsProgs
