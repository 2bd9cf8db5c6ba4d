import BtrfsProgs.Lib.OneToOne
import BtrfsProgs.SubvolList.ResolveRoot

/-
  `__filter_and_sort_subvol`, from `btrfs-list.c`.

  `filter_root` looks at the deleted flag only when the set has
  a filter besides it.

  Main declarations:
    * `sortComp` and `sortTreeInsert`
    * `filterRoot` and `filterAndSortSubvol`
    * `order` and `Listing`
    * `filterAndSortSubvol_listing_iff`
-/

----------
-- Comparers
----------

namespace BtrfsProgs

namespace SubvolList

open Checked

def EEXIST : Int := -17

/- The characters of `full_path`, which is not `NULL` here. -/
def RootInfo.fullPath
    (ri : RootInfo) : List UInt8 :=
  (ri.full_path.getD []).takeWhile (· ≠ 0)

def compEntryWithGen :=
  compEntryWith RootInfo.gen

def compEntryWithOgen :=
  compEntryWith RootInfo.ogen

/- `strcmp` orders strings by their first unequal bytes. -/
def compEntryWithPath :=
  compEntryWith RootInfo.fullPath

/- `enum btrfs_list_comp_enum`. -/
inductive ListComp where
  | rootid
  | ogen
  | gen
  | path
deriving Repr, DecidableEq

/- `all_comp_funcs`. -/
def ListComp.compFunc :
    ListComp → RootInfo → RootInfo → Bool → Int
  | .rootid => compEntryWithRootid
  | .ogen => compEntryWithOgen
  | .gen => compEntryWithGen
  | .path => compEntryWithPath

/- `struct btrfs_list_comparer`. -/
structure Comparer where
  comp_func : ListComp
  is_descending : Bool
deriving Repr, DecidableEq

def Comparer.compare
    (c : Comparer)
    (entry1 entry2 : RootInfo) : Int :=
  c.comp_func.compFunc entry1 entry2 c.is_descending

/- The loop of `sort_comp`. -/
def sortCompLoop
    (entry1 entry2 : RootInfo) : List Comparer → Bool → Int
  | [], rootid_compared =>
      if rootid_compared then 0
      else compEntryWithRootid entry1 entry2 false
  | c :: comps, rootid_compared =>
      let ret := c.compare entry1 entry2
      if ret ≠ 0 then ret
      else
        sortCompLoop entry1 entry2 comps
          (rootid_compared || c.comp_func = .rootid)

/- `sort_comp`; a set that is `NULL` has no comparers. -/
def sortComp
    (entry1 entry2 : RootInfo)
    (set : List Comparer) : Int :=
  sortCompLoop entry1 entry2 set false

/-
  `sort_tree_insert`, with `rb_insert_color` for what it does
  to the shape of a tree.
-/
def sortTreeInsert
    (rbInsertColor : SearchTree.Rebalance RootInfo)
    (sort_tree : SearchTree RootInfo)
    (ins : RootInfo)
    (comp_set : List Comparer) : Int × SearchTree RootInfo :=
  let dir curr := way (sortComp ins curr comp_set)
  match sort_tree.insert dir ins with
  | none => (EEXIST, sort_tree)
  | some tree => (0, rbInsertColor.run tree)

----------
-- Filters
----------

/- `enum btrfs_list_filter_enum`. -/
inductive ListFilter where
  | rootid
  | snapshot_only
  | flags
  | gen_equal
  | gen_less
  | gen_more
  | cgen_equal
  | cgen_less
  | cgen_more
  | topid_equal
  | full_path
  | by_parent
  | deleted
deriving Repr, DecidableEq

/-
  `struct btrfs_list_filter`, with the bytes that `data` points
  to where it is a pointer.
-/
structure Filter where
  filter_func : ListFilter
  data : Nat
  uuid : List UInt8
deriving Repr, DecidableEq

/- `struct btrfs_list_filter_set`. -/
structure FilterSet where
  only_deleted : Bool
  filters : List Filter
deriving Repr, DecidableEq

/- `btrfs_list_setup_filter`. -/
def btrfsListSetupFilter
    (set : FilterSet)
    (filter : Filter) : FilterSet :=
  if filter.filter_func = .deleted then
    { set with only_deleted := true }
  else
    { set with filters := set.filters ++ [filter] }

def filterByRootid (ri : RootInfo) (data : Nat) : Bool :=
  ri.root_id = data

def filterSnapshot (ri : RootInfo) : Bool :=
  ri.root_offset ≠ 0

/- The result is an `int`. -/
def filterFlags (ri : RootInfo) (flags : Nat) : Bool :=
  (ri.flags &&& flags) % 2 ^ 32 ≠ 0

def filterGenMore (ri : RootInfo) (data : Nat) : Bool :=
  ri.gen ≥ data

def filterGenLess (ri : RootInfo) (data : Nat) : Bool :=
  ri.gen ≤ data

def filterGenEqual (ri : RootInfo) (data : Nat) : Bool :=
  ri.gen = data

def filterCgenMore (ri : RootInfo) (data : Nat) : Bool :=
  ri.ogen ≥ data

def filterCgenLess (ri : RootInfo) (data : Nat) : Bool :=
  ri.ogen ≤ data

def filterCgenEqual (ri : RootInfo) (data : Nat) : Bool :=
  ri.ogen = data

def filterTopidEqual (ri : RootInfo) (data : Nat) : Bool :=
  ri.top_id = data

def filterByParent
    (ri : RootInfo)
    (uuid : List UInt8) : Bool :=
  ri.puuid = uuid

def filterDeleted (ri : RootInfo) : Bool :=
  ri.deleted

/- `"<FS_TREE>"`. -/
def FS_TREE_NAME : List UInt8 :=
  ascii "<FS_TREE>"

/- What `filter_full_path` does to the record. -/
def filterFullPath
    (ri : RootInfo)
    (data : Nat) : Except Fault RootInfo :=
  match ri.full_path with
  | some full_path =>
      if ri.top_id ≠ data then do
        let add_len := FS_TREE_NAME.length
        let len ← stringEnd full_path
        let tmp := List.replicate (len + add_len + 2) 0
        let tmp ← write tmp (add_len + 1)
          (← readBytes full_path 0 len)
        let tmp ← write tmp (len + add_len + 1) [0]
        let tmp ← write tmp add_len [SLASH]
        let tmp ← write tmp 0 FS_TREE_NAME
        return { ri with full_path := some tmp }
      else
        return ri
  | none => return ri

/- The answer of a filter other than `filter_full_path`. -/
def Filter.passes
    (f : Filter)
    (ri : RootInfo) : Bool :=
  match f.filter_func with
  | .rootid => filterByRootid ri f.data
  | .snapshot_only => filterSnapshot ri
  | .flags => filterFlags ri f.data
  | .gen_equal => filterGenEqual ri f.data
  | .gen_less => filterGenLess ri f.data
  | .gen_more => filterGenMore ri f.data
  | .cgen_equal => filterCgenEqual ri f.data
  | .cgen_less => filterCgenLess ri f.data
  | .cgen_more => filterCgenMore ri f.data
  | .topid_equal => filterTopidEqual ri f.data
  | .full_path => true
  | .by_parent => filterByParent ri f.uuid
  | .deleted => filterDeleted ri

/- `filter_func`, with the record that it leaves. -/
def Filter.apply
    (f : Filter)
    (ri : RootInfo) : Except Fault (Bool × RootInfo) :=
  match f.filter_func with
  | .full_path => (true, ·) <$> filterFullPath ri f.data
  | _ => .ok (f.passes ri, ri)

/- The loop of `filter_root`. -/
def filterLoop :
    List Filter → RootInfo → Except Fault (Bool × RootInfo)
  | [], ri => .ok (true, ri)
  | f :: filters, ri =>
      match f.apply ri with
      | .error fault => .error fault
      | .ok (ret, ri) =>
          if ret then filterLoop filters ri
          else .ok (false, ri)

/- `filter_root`. -/
def filterRoot
    (ri : RootInfo)
    (set : Option FilterSet) :
    Except Fault (Bool × RootInfo) :=
  match set with
  | none => .ok (true, ri)
  | some set =>
      if set.filters.length = 0 then .ok (true, ri)
      else if set.only_deleted && !ri.deleted then
        .ok (false, ri)
      else if !set.only_deleted && ri.deleted then
        .ok (false, ri)
      else
        filterLoop set.filters ri

----------
-- The Function
----------

/- `strdup("DELETED")` for a record that is not resolved. -/
def markDeleted
    (ret : Int)
    (entry : RootInfo) : RootInfo :=
  if ret = ENOENT then
    { entry with
      full_path := some (ascii "DELETED" ++ [0])
      deleted := true }
  else
    entry

/-
  The loop of `__filter_and_sort_subvol`.  What it changes in a
  record is nothing that `resolve_root` reads of another one.
-/
def filterAndSortLoop
    (rbInsertColor : SearchTree.Rebalance RootInfo)
    (all_subvols : RootTable)
    (filter_set : Option FilterSet)
    (comp_set : List Comparer)
    (top_id fuel : Nat) :
    List RootInfo → SearchTree RootInfo →
      Option (Except Fault (SearchTree RootInfo))
  | [], sort_tree => some (.ok sort_tree)
  | entry :: rest, sort_tree =>
      match resolveRoot all_subvols entry top_id fuel with
      | none => none
      | some (.error fault) => some (.error fault)
      | some (.ok (ret, entry)) =>
          match filterRoot (markDeleted ret entry) filter_set with
          | .error fault => some (.error fault)
          | .ok (ret, entry) =>
              filterAndSortLoop rbInsertColor all_subvols
                filter_set comp_set top_id fuel rest
                (if ret then
                  (sortTreeInsert rbInsertColor sort_tree entry
                    comp_set).2
                else sort_tree)

/-
  `__filter_and_sort_subvol`, with some turns for each walk of
  `resolve_root`; the tree is passed from its last record on.
-/
def filterAndSortSubvol
    (rbInsertColor : SearchTree.Rebalance RootInfo)
    (all_subvols : RootTable)
    (filter_set : Option FilterSet)
    (comp_set : List Comparer)
    (top_id fuel : Nat) :
    Option (Except Fault (SearchTree RootInfo)) :=
  filterAndSortLoop rbInsertColor all_subvols filter_set
    comp_set top_id fuel all_subvols.tree.toList.reverse .leaf

----------
-- What It Is to List
----------

/-
  The lexicographic order of the comparers, then of the ids.
-/
def order
    (comp_set : List Comparer) :
    RootInfo → RootInfo → Ordering :=
  comp_set.foldr
    (fun c rest =>
      compareLex (fun a b => way (c.compare a b)) rest)
    (compareOn RootInfo.root_id)

/- The record with its path, or marked as deleted. -/
def Settled
    (all_subvols : RootTable)
    (top_id : Nat)
    (r entry : RootInfo) : Prop :=
  ∃ ret r', Resolved all_subvols r top_id (.ok (ret, r')) ∧
    entry = markDeleted ret r'

def onlyDeleted
    (set : Option FilterSet) : Bool :=
  set.any FilterSet.only_deleted

def filtersOf
    (set : Option FilterSet) : List Filter :=
  (set.map FilterSet.filters).getD []

/- The record is asked for. -/
def wanted
    (set : Option FilterSet)
    (entry : RootInfo) : Bool :=
  entry.deleted = onlyDeleted set &&
    (filtersOf set).all fun f => f.passes entry

/- The path that a filter leaves in the record. -/
def Filter.rewritten
    (f : Filter)
    (entry : RootInfo) : RootInfo :=
  if f.filter_func = .full_path ∧ entry.top_id ≠ f.data then
    { entry with
      full_path :=
        entry.full_path.map (FS_TREE_NAME ++ SLASH :: ·) }
  else
    entry

/- The record as the filters leave it. -/
def shown
    (set : Option FilterSet)
    (entry : RootInfo) : RootInfo :=
  (filtersOf set).foldl (fun entry f => f.rewritten entry) entry

/-
  The tree has every record that is asked for, once and with
  the path that the filters leave, in the order of the set.
-/
def Listing
    (all_subvols : RootTable)
    (set : Option FilterSet)
    (comp_set : List Comparer)
    (top_id : Nat)
    (tree : SearchTree RootInfo) : Prop :=
  (∃ entries, List.Forall₂ (Settled all_subvols top_id)
      all_subvols.tree.toList entries ∧
    tree.toList.Perm
      ((entries.filter (wanted set)).map (shown set))) ∧
  tree.toList.Pairwise fun a b => order comp_set a b = .lt

/- The record is deleted, by its flag or for want of a path. -/
def Deleted
    (all_subvols : RootTable)
    (top_id : Nat)
    (r : RootInfo) : Prop :=
  r.deleted = true ∨ ∀ chain, ¬ Climb all_subvols top_id r chain

----------
-- The Order
----------

section Order

variable {comps : List Comparer}
variable {a b : RootInfo}

instance transCmp_compEntryWith
    {β : Type}
    [Ord β]
    [Std.TransOrd β]
    (key : RootInfo → β)
    (is_descending : Bool) :
    Std.TransCmp fun a b =>
      way (compEntryWith key a b is_descending) := by
  have hAscending : Std.TransCmp (compareOn key) := inferInstance
  cases is_descending with
  | false =>
      have hSame : (fun a b => way (compEntryWith key a b false)) =
          compareOn key := by
        funext a b
        rw [way_compEntryWith]
        rfl
      rw [hSame]
      exact hAscending
  | true =>
      have hSame : (fun a b => way (compEntryWith key a b true)) =
          fun a b => compareOn key b a := by
        funext a b
        rw [way_compEntryWith, if_pos rfl]
        have hSwap : compareOn key b a =
            (compareOn key a b).swap :=
          Std.OrientedCmp.eq_swap
        exact hSwap.symm
      rw [hSame]
      exact Std.TransCmp.opposite

instance transCmp_compare
    (c : Comparer) :
    Std.TransCmp fun a b => way (c.compare a b) := by
  cases c with
  | mk comp_func is_descending =>
      cases comp_func with
      | rootid
      | ogen
      | gen
      | path => exact transCmp_compEntryWith _ _

instance transCmp_order
    (comps : List Comparer) :
    Std.TransCmp (order comps) := by
  induction comps with
  | nil =>
      exact inferInstanceAs
        (Std.TransCmp (compareOn RootInfo.root_id))
  | cons c comps ih =>
      exact inferInstanceAs (Std.TransCmp
        (compareLex (fun a b => way (c.compare a b))
          (order comps)))

/- Records that are level in the order have one id. -/
theorem root_id_of_order_eq
    (hLevel : order comps a b = .eq) :
    a.root_id = b.root_id := by
  induction comps with
  | nil => exact Nat.compare_eq_eq.mp hLevel
  | cons c comps ih =>
      have hBoth := Ordering.then_eq_eq.mp hLevel
      exact ih hBoth.2

theorem way_eq_iff
    {ret : Int} :
    way ret = .eq ↔ ret = 0 := by
  unfold way
  split_ifs with hLess hMore
  · simp only [false_iff]
    omega
  · simp only [false_iff]
    omega
  · simp only [true_iff]
    omega

/- The loop goes by the order of the comparers that are left. -/
theorem way_sortCompLoop
    {rootid_compared : Bool}
    (hCompared :
      rootid_compared = true → a.root_id = b.root_id) :
    way (sortCompLoop a b comps rootid_compared) =
      order comps a b := by
  induction comps generalizing rootid_compared with
  | nil =>
      unfold sortCompLoop
      cases rootid_compared with
      | false => exact way_rootid a b
      | true =>
          have hSame : compareOn RootInfo.root_id a b = .eq :=
            Nat.compare_eq_eq.mpr (hCompared rfl)
          exact hSame.symm
  | cons c comps ih =>
      have hOrder : order (c :: comps) a b =
          (way (c.compare a b)).then (order comps a b) := rfl
      unfold sortCompLoop
      rw [hOrder]
      dsimp only
      by_cases hZero : c.compare a b = 0
      · rw [if_neg (not_not.mpr hZero),
          way_eq_iff.mpr hZero]
        apply ih
        intro hOr
        rcases (Bool.or_eq_true _ _).mp hOr with hOld | hNew
        · exact hCompared hOld
        · -- two records level in the id
          have hFunc := of_decide_eq_true hNew
          have hLevel := way_eq_iff.mpr hZero
          unfold Comparer.compare at hLevel
          rw [hFunc] at hLevel
          unfold ListComp.compFunc compEntryWithRootid at hLevel
          dsimp only at hLevel
          rw [way_compEntryWith] at hLevel
          split_ifs at hLevel
          · rw [Ordering.swap_eq_eq] at hLevel
            exact Nat.compare_eq_eq.mp hLevel
          · exact Nat.compare_eq_eq.mp hLevel
      · rw [if_pos hZero]
        have hNot : way (c.compare a b) ≠ .eq :=
          fun hEq => hZero (way_eq_iff.mp hEq)
        cases hWay : way (c.compare a b) with
        | lt => rfl
        | gt => rfl
        | eq => exact absurd hWay hNot

theorem way_sortComp
    (a b : RootInfo)
    (comps : List Comparer) :
    way (sortComp a b comps) = order comps a b :=
  way_sortCompLoop fun hFalse => by cases hFalse

/- A record with an id of its own is put where it belongs. -/
theorem sortTreeInsert_sorted
    (rbInsertColor : SearchTree.Rebalance RootInfo)
    {tree : SearchTree RootInfo}
    (ins : RootInfo)
    (hSorted :
      tree.toList.Pairwise fun a b => order comps a b = .lt)
    (hNew : ∀ r ∈ tree.toList, r.root_id ≠ ins.root_id) :
    (sortTreeInsert rbInsertColor tree ins comps).1 = 0 ∧
      (sortTreeInsert rbInsertColor tree ins
        comps).2.toList.Perm
        (ins :: tree.toList) ∧
      (sortTreeInsert rbInsertColor tree ins
        comps).2.toList.Pairwise
          fun a b => order comps a b = .lt := by
  have hWays : (fun curr => way (sortComp ins curr comps)) =
      order comps ins := by
    funext curr
    exact way_sortComp ins curr comps
  have hCut : SearchTree.Cut (order comps ins) tree := by
    apply hSorted.imp
    intro a b hLess
    refine ⟨fun hIns => Std.TransCmp.lt_trans hIns hLess, ?_⟩
    intro hIns
    have hBack := Std.OrientedCmp.lt_of_gt hIns
    exact Std.OrientedCmp.gt_of_lt
      (Std.TransCmp.lt_trans hLess hBack)
  have hInsert := SearchTree.insert_ordered (x := ins) hCut
    hSorted (fun a _ hGt => Std.OrientedCmp.lt_of_gt hGt)
    (fun a _ hLt => hLt)
  unfold sortTreeInsert
  dsimp only
  rw [hWays]
  cases hSome : tree.insert (order comps ins) ins with
  | none =>
      rw [hSome] at hInsert
      rcases hInsert with ⟨r, hr, hLevel⟩
      exact absurd (root_id_of_order_eq hLevel).symm
        (hNew r hr)
  | some tree' =>
      rw [hSome] at hInsert
      dsimp only
      rw [rbInsertColor.toList_run]
      exact ⟨rfl, hInsert.2.1, hInsert.2.2⟩

end Order

----------
-- The Filters
----------

section Filters

variable {entry : RootInfo}
variable {f : Filter}
variable {filters : List Filter}

/- The record points to a string with its zero byte. -/
def Named
    (entry : RootInfo) : Prop :=
  ∃ text, entry.full_path = some (text ++ [0]) ∧ 0 ∉ text

/- The path is the only field that a filter changes. -/
theorem Filter.rewritten_eq
    (f : Filter)
    (entry : RootInfo) :
    ∃ full_path,
      f.rewritten entry = { entry with full_path } := by
  unfold rewritten
  split
  · exact ⟨_, rfl⟩
  · exact ⟨entry.full_path, rfl⟩

theorem Filter.passes_rewritten
    (f g : Filter)
    (entry : RootInfo) :
    f.passes (g.rewritten entry) = f.passes entry := by
  rcases g.rewritten_eq entry with ⟨full_path, hSame⟩
  rw [hSame]
  rfl

theorem Filter.rewritten_named
    (f : Filter)
    (hNamed : Named entry) :
    Named (f.rewritten entry) := by
  rcases hNamed with ⟨text, hPath, hNoNul⟩
  unfold rewritten
  split
  · refine ⟨FS_TREE_NAME ++ SLASH :: text, ?_, ?_⟩
    · simp [hPath]
    · rw [List.mem_append, List.mem_cons]
      intro hIn
      rcases hIn with hName | hSlash | hText
      · exact absurd hName (by decide)
      · exact absurd hSlash (by decide)
      · exact hNoNul hText
  · exact ⟨text, hPath, hNoNul⟩

/- Every write is in the memory, which holds the new path. -/
theorem filterFullPath_named
    (hIs : f.filter_func = .full_path)
    (hNamed : Named entry) :
    filterFullPath entry f.data = .ok (f.rewritten entry) := by
  rcases hNamed with ⟨text, hPath, hNoNul⟩
  unfold filterFullPath Filter.rewritten
  rw [hPath]
  dsimp only
  by_cases hTop : entry.top_id = f.data
  · rw [if_neg (not_not.mpr hTop),
      if_neg fun hBoth => hBoth.2 hTop]
    rfl
  have hRoom : text.length + FS_TREE_NAME.length + 2 =
      FS_TREE_NAME.length + 2 + text.length := by
    omega
  have hLength : stringEnd (text ++ [0]) =
      .ok text.length := by
    have hSame : text ++ [0] = text ++ 0 :: [] := rfl
    rcases runs_stringEnd hSame hNoNul with
      ⟨len, hLen, hIsLen⟩
    rw [hLen, hIsLen]
  have hEnd :
      write ((List.replicate FS_TREE_NAME.length 0 ++ [0]) ++
          (text ++ [0]))
        (text.length + FS_TREE_NAME.length + 1) [0] =
      .ok ((List.replicate FS_TREE_NAME.length 0 ++ [0]) ++
          (text ++ [0])) := by
    have hLast := write_end
      ((List.replicate FS_TREE_NAME.length 0 ++ [0]) ++ text)
    have hPlace :
        ((List.replicate FS_TREE_NAME.length (0 : UInt8) ++
            [0]) ++ text).length =
          text.length + FS_TREE_NAME.length + 1 := by
      simp only [List.length_append, List.length_replicate,
        List.length_singleton]
      omega
    rw [hPlace, List.append_assoc _ text] at hLast
    exact hLast
  rw [if_pos hTop, if_pos ⟨hIs, hTop⟩, hLength]
  dsimp only [bind, Except.bind]
  rw [readBytes_text]
  dsimp only
  rw [hRoom]
  rw [write_text]
  dsimp only
  rw [hEnd]
  dsimp only
  rw [write_slash]
  dsimp only
  rw [write_head]
  rfl

theorem Filter.apply_named
    (f : Filter)
    (hNamed : Named entry) :
    f.apply entry =
      .ok (f.passes entry, f.rewritten entry) := by
  by_cases hIs : f.filter_func = .full_path
  · have hRewritten := filterFullPath_named hIs hNamed
    unfold Filter.apply Filter.passes
    rw [hIs]
    dsimp only
    rw [hRewritten]
    rfl
  · have hSame : f.rewritten entry = entry :=
      if_neg fun hBoth => hIs hBoth.1
    rw [hSame]
    unfold Filter.apply
    cases hFunc : f.filter_func with
    | full_path => exact absurd hFunc hIs
    | _ => rfl

/- The answer is that of all filters for the record before. -/
theorem filterLoop_named
    (filters : List Filter)
    (hNamed : Named entry) :
    ∃ entry',
      filterLoop filters entry =
          .ok (filters.all fun f => f.passes entry, entry') ∧
        ((filters.all fun f => f.passes entry) = true →
          entry' = filters.foldl
            (fun entry f => f.rewritten entry) entry) := by
  induction filters generalizing entry with
  | nil => exact ⟨entry, rfl, fun _ => rfl⟩
  | cons f filters ih =>
      unfold filterLoop
      rw [f.apply_named hNamed]
      dsimp only
      rw [List.all_cons]
      cases hPasses : f.passes entry with
      | false => exact ⟨_, rfl, fun hFalse => by cases hFalse⟩
      | true =>
          rcases ih (f.rewritten_named hNamed) with
            ⟨entry', hLoop, hShown⟩
          have hSame : (filters.all fun g =>
              g.passes (f.rewritten entry)) =
              filters.all fun g => g.passes entry := by
            congr 1
            funext g
            exact g.passes_rewritten f entry
          rw [hSame] at hLoop hShown
          exact ⟨entry', hLoop, hShown⟩

/- What `filter_root` answers. -/
def kept
    (set : Option FilterSet)
    (entry : RootInfo) : Bool :=
  (filtersOf set).isEmpty || wanted set entry

theorem filterRoot_named
    (set : Option FilterSet)
    (hNamed : Named entry) :
    ∃ entry',
      filterRoot entry set = .ok (kept set entry, entry') ∧
        (kept set entry = true → entry' = shown set entry) := by
  unfold kept wanted shown
  cases set with
  | none => exact ⟨entry, rfl, fun _ => rfl⟩
  | some set =>
      have hFilters : filtersOf (some set) = set.filters := rfl
      have hOnly : onlyDeleted (some set) = set.only_deleted :=
        rfl
      unfold filterRoot
      dsimp only
      rw [hFilters, hOnly]
      cases hEmpty : set.filters with
      | nil => exact ⟨entry, rfl, fun _ => rfl⟩
      | cons f filters =>
          rw [if_neg (by simp)]
          rcases filterLoop_named (f :: filters) hNamed with
            ⟨entry', hLoop, hShown⟩
          cases hFlag : set.only_deleted with
          | false =>
              cases hDeleted : entry.deleted with
              | false => exact ⟨entry', hLoop, hShown⟩
              | true =>
                  exact ⟨_, rfl, fun hFalse => by
                    cases hFalse⟩
          | true =>
              cases hDeleted : entry.deleted with
              | false =>
                  exact ⟨_, rfl, fun hFalse => by
                    cases hFalse⟩
              | true => exact ⟨entry', hLoop, hShown⟩

theorem shown_root_id
    (set : Option FilterSet)
    (entry : RootInfo) :
    (shown set entry).root_id = entry.root_id := by
  unfold shown
  induction filtersOf set generalizing entry with
  | nil => rfl
  | cons f filters ih =>
      rw [List.foldl_cons, ih]
      rcases f.rewritten_eq entry with ⟨full_path, hSame⟩
      rw [hSame]

end Filters

----------
-- Settled Records
----------

section Settled

variable {all_subvols : RootTable}
variable {top_id : Nat}
variable {r entry : RootInfo}

theorem joined_noNul
    (chain : List RootInfo) :
    0 ∉ joined chain := by
  unfold joined
  induction chain with
  | nil => exact List.not_mem_nil
  | cons r chain ih =>
      cases chain with
      | nil =>
          rw [List.map_cons, List.map_nil,
            List.intercalate_singleton]
          exact r.path.noNul
      | cons next chain =>
          rw [List.map_cons, List.map_cons,
            List.intercalate_cons_cons]
          rw [List.map_cons] at ih
          intro hIn
          rcases List.mem_append.mp hIn with hIn | hRest
          · rcases List.mem_append.mp hIn with hPath | hSlash
            · exact r.path.noNul hPath
            · exact absurd hSlash (by decide)
          · exact ih hRest

/-
  A settled record has its path and its flag, and is else the
  record that it was.
-/
theorem Settled.cases
    (hSettled : Settled all_subvols top_id r entry) :
    Named entry ∧ entry.root_id = r.root_id ∧
      (entry.deleted = true ↔ Deleted all_subvols top_id r) := by
  rcases hSettled with ⟨ret, r', hResolved, hEntry⟩
  rcases hResolved with
    ⟨chain, outer, hClimb, hResult⟩ | ⟨hNone, hResult⟩
  · cases hResult
    have hSame : entry = _ := hEntry.trans
      (if_neg (show ¬ (0 : Int) = ENOENT by decide))
    subst hSame
    refine ⟨⟨joined (outer :: chain), rfl, joined_noNul _⟩,
      rfl, ?_⟩
    constructor
    · exact fun hDeleted => .inl hDeleted
    · intro hDeleted
      rcases hDeleted with hFlag | hNone
      · exact hFlag
      · exact absurd hClimb (hNone _)
  · cases hResult
    have hSame : entry = _ := hEntry.trans (if_pos rfl)
    subst hSame
    exact ⟨⟨ascii "DELETED", rfl, by decide⟩, rfl,
      fun _ => .inr hNone, fun _ => rfl⟩

end Settled

----------
-- The Loop
----------

section Run

variable {rbInsertColor : SearchTree.Rebalance RootInfo}
variable {all_subvols : RootTable}
variable {set : Option FilterSet}
variable {comps : List Comparer}
variable {top_id fuel : Nat}
variable {l : List RootInfo}
variable {tree tree' : SearchTree RootInfo}

/- Some turns are enough for every record of a list. -/
theorem resolved_all
    (hNot : ∀ r ∈ l, ¬ Looping all_subvols top_id r) :
    ∃ fuel, ∀ r ∈ l, ∃ result,
      resolveRoot all_subvols r top_id fuel = some result ∧
        Resolved all_subvols r top_id result := by
  induction l with
  | nil => exact ⟨0, fun r hr => by cases hr⟩
  | cons r l ih =>
      rcases resolveRoot_resolved (hNot r List.mem_cons_self)
        with ⟨first, result, hRun, hResolved⟩
      rcases ih fun r hr =>
        hNot r (List.mem_cons_of_mem _ hr) with ⟨rest, hRest⟩
      refine ⟨max first rest, ?_⟩
      intro r' hr'
      rcases List.mem_cons.mp hr' with rfl | hr'
      · exact ⟨result,
          Loop.run_mono hRun (Nat.le_max_left _ _), hResolved⟩
      · rcases hRest r' hr' with ⟨result', hRun', hResolved'⟩
        exact ⟨result',
          Loop.run_mono hRun' (Nat.le_max_right _ _),
          hResolved'⟩

/- A loop that returns has resolved every record. -/
theorem resolved_of_loop
    (hLoop : filterAndSortLoop rbInsertColor all_subvols set
      comps top_id fuel l tree = some (.ok tree')) :
    ∀ r ∈ l, ¬ Looping all_subvols top_id r ∧
      ∃ result,
        resolveRoot all_subvols r top_id fuel = some result ∧
          Resolved all_subvols r top_id result := by
  induction l generalizing tree with
  | nil =>
      intro r hr
      cases hr
  | cons first l ih =>
      unfold filterAndSortLoop at hLoop
      cases hRun : resolveRoot all_subvols first top_id fuel with
      | none =>
          rw [hRun] at hLoop
          cases hLoop
      | some result =>
          rw [hRun] at hLoop
          have hNot : ¬ Looping all_subvols top_id first := by
            intro hLooping
            rw [hLooping.resolveRoot_none fuel] at hRun
            cases hRun
          have hHere : Resolved all_subvols first top_id
              result := by
            rcases resolveRoot_resolved hNot with
              ⟨enough, result', hRun', hResolved⟩
            exact Loop.run_unique hRun' hRun ▸ hResolved
          cases result with
          | error fault => cases hLoop
          | ok pair =>
              dsimp only at hLoop
              cases hFilter : filterRoot
                  (markDeleted pair.1 pair.2) set with
              | error fault =>
                  rw [hFilter] at hLoop
                  cases hLoop
              | ok answer =>
                  rw [hFilter] at hLoop
                  intro r hr
                  rcases List.mem_cons.mp hr with rfl | hr
                  · exact ⟨hNot, _, hRun, hHere⟩
                  · exact ih hLoop r hr

/- What a turn does to the tree, with the record settled. -/
theorem sorted_turn
    (rbInsertColor : SearchTree.Rebalance RootInfo)
    (set : Option FilterSet)
    (entry : RootInfo)
    (hSorted :
      tree.toList.Pairwise fun a b => order comps a b = .lt)
    (hNew : ∀ a ∈ tree.toList, a.root_id ≠ entry.root_id) :
    let next :=
      if kept set entry then
        (sortTreeInsert rbInsertColor tree (shown set entry)
          comps).2
      else
        tree
    next.toList.Perm
        (([entry].filter (kept set)).map (shown set) ++
          tree.toList) ∧
      next.toList.Pairwise fun a b => order comps a b = .lt := by
  dsimp only
  cases hKept : kept set entry with
  | false =>
      rw [if_neg (by decide), List.filter_cons_of_neg
        (by rw [hKept]; decide)]
      exact ⟨.refl _, hSorted⟩
  | true =>
      rw [if_pos rfl, List.filter_cons_of_pos hKept]
      have hInsert := sortTreeInsert_sorted rbInsertColor
        (shown set entry) hSorted (by
          intro a ha
          rw [shown_root_id]
          exact hNew a ha)
      exact hInsert.2

theorem filterAndSortLoop_kept
    (rbInsertColor : SearchTree.Rebalance RootInfo)
    (set : Option FilterSet)
    (comps : List Comparer)
    (tree : SearchTree RootInfo)
    (hAll : ∀ r ∈ l, ∃ result,
      resolveRoot all_subvols r top_id fuel = some result ∧
        Resolved all_subvols r top_id result)
    (hIds : l.Pairwise fun a b => a.root_id ≠ b.root_id)
    (hSorted :
      tree.toList.Pairwise fun a b => order comps a b = .lt)
    (hNew : ∀ a ∈ tree.toList, ∀ r ∈ l,
      a.root_id ≠ r.root_id) :
    ∃ entries tree',
      filterAndSortLoop rbInsertColor all_subvols set comps
          top_id fuel l tree = some (.ok tree') ∧
        List.Forall₂ (Settled all_subvols top_id) l entries ∧
        tree'.toList.Perm
          ((entries.filter (kept set)).map (shown set) ++
            tree.toList) ∧
        tree'.toList.Pairwise
          fun a b => order comps a b = .lt := by
  induction l generalizing tree with
  | nil => exact ⟨[], tree, rfl, .nil, .refl _, hSorted⟩
  | cons r l ih =>
      rcases hAll r List.mem_cons_self with
        ⟨result, hRun, hResolved⟩
      have hOk : ∃ ret r', result = .ok (ret, r') := by
        rcases hResolved with ⟨_, _, _, hIs⟩ | ⟨_, hIs⟩
        · exact ⟨_, _, hIs⟩
        · exact ⟨_, _, hIs⟩
      rcases hOk with ⟨ret, r', rfl⟩
      have hSettled : Settled all_subvols top_id r
          (markDeleted ret r') := ⟨ret, r', hResolved, rfl⟩
      rcases Settled.cases hSettled with ⟨hNamed, hId, _⟩
      rcases filterRoot_named set hNamed with
        ⟨entry', hFilter, hShown⟩
      rcases List.pairwise_cons.mp hIds with ⟨hApart, hRest⟩
      have hTurn := sorted_turn rbInsertColor set
        (markDeleted ret r') hSorted fun a ha => by
          rw [hId]
          exact hNew a ha r List.mem_cons_self
      have hNext : (if kept set (markDeleted ret r') then
            (sortTreeInsert rbInsertColor tree entry' comps).2
          else tree) =
          if kept set (markDeleted ret r') then
            (sortTreeInsert rbInsertColor tree
              (shown set (markDeleted ret r')) comps).2
          else tree := by
        split_ifs with hKept
        · rw [hShown hKept]
        · rfl
      dsimp only at hTurn
      rw [← hNext] at hTurn
      have hKnown : ∀ a ∈ (if kept set (markDeleted ret r') then
            (sortTreeInsert rbInsertColor tree entry' comps).2
          else tree).toList,
          ∀ q ∈ l, a.root_id ≠ q.root_id := by
        intro a ha q hq
        rcases List.mem_append.mp (hTurn.1.mem_iff.mp ha) with
          hOwn | hOld
        · rcases List.mem_map.mp hOwn with ⟨e, he, rfl⟩
          have hIs := List.mem_singleton.mp
            (List.mem_filter.mp he).1
          rw [shown_root_id, hIs, hId]
          exact hApart q hq
        · exact hNew a hOld q (List.mem_cons_of_mem _ hq)
      rcases ih _ (fun q hq =>
          hAll q (List.mem_cons_of_mem _ hq)) hRest hTurn.2
          hKnown with ⟨entries, tree', hLoop, hEntries, hPerm,
            hOrdered⟩
      refine ⟨markDeleted ret r' :: entries, tree', ?_,
        .cons hSettled hEntries, ?_, hOrdered⟩
      · unfold filterAndSortLoop
        rw [hRun]
        dsimp only
        rw [hFilter]
        exact hLoop
      · refine hPerm.trans ?_
        rw [← List.singleton_append (l := entries),
          List.filter_append, List.map_append]
        refine (List.Perm.append_left _ hTurn.1).trans ?_
        rw [← List.append_assoc]
        exact List.perm_append_comm.append_right _

/- The whole tree of records, as the loop goes through it. -/
theorem filterAndSortSubvol_kept
    (rbInsertColor : SearchTree.Rebalance RootInfo)
    (set : Option FilterSet)
    (comps : List Comparer)
    (hAll : ∀ r ∈ all_subvols.tree.toList.reverse, ∃ result,
      resolveRoot all_subvols r top_id fuel = some result ∧
        Resolved all_subvols r top_id result) :
    ∃ entries tree,
      filterAndSortSubvol rbInsertColor all_subvols set comps
          top_id fuel = some (.ok tree) ∧
        List.Forall₂ (Settled all_subvols top_id)
          all_subvols.tree.toList entries ∧
        tree.toList.Perm
          ((entries.filter (kept set)).map (shown set)) ∧
        tree.toList.Pairwise
          fun a b => order comps a b = .lt := by
  have hIds : all_subvols.tree.toList.reverse.Pairwise
      fun a b => a.root_id ≠ b.root_id := by
    rw [List.pairwise_reverse]
    exact all_subvols.ascending.imp fun hLess hSame => by
      omega
  rcases filterAndSortLoop_kept rbInsertColor set comps .leaf
    hAll hIds .nil
    (fun a ha => by cases ha) with
    ⟨entries, tree, hRun, hEntries, hPerm, hSorted⟩
  refine ⟨entries.reverse, tree, hRun, ?_, ?_, hSorted⟩
  · rw [← List.forall₂_reverse_iff, List.reverse_reverse]
    exact hEntries
  · refine hPerm.trans ?_
    rw [show (SearchTree.leaf (α := RootInfo)).toList = []
      from rfl, List.append_nil, List.filter_reverse,
      List.map_reverse]
    exact (List.reverse_perm _).symm

end Run

----------
-- When the Listing Is Exact
----------

section Listing

variable {all_subvols : RootTable}
variable {set : Option FilterSet}
variable {top_id : Nat}
variable {entries : List RootInfo}

/-
  No way up runs into a cycle, and there is a filter or no
  record whose deleted flag is not the one that is asked for.
-/
def Listable
    (all_subvols : RootTable)
    (set : Option FilterSet)
    (top_id : Nat) : Prop :=
  (∀ r ∈ all_subvols.tree.toList,
    ¬ Looping all_subvols top_id r) ∧
  (filtersOf set ≠ [] ∨
    ∀ r ∈ all_subvols.tree.toList,
      (Deleted all_subvols top_id r ↔ onlyDeleted set = true))

/- What is kept is what is asked for. -/
theorem filter_kept
    (hEntries : List.Forall₂ (Settled all_subvols top_id)
      all_subvols.tree.toList entries)
    (hListable : Listable all_subvols set top_id) :
    entries.filter (kept set) = entries.filter (wanted set) := by
  apply List.filter_congr
  intro entry hEntry
  unfold kept
  rcases hListable.2 with hFilters | hFlags
  · rw [List.isEmpty_eq_false_iff.mpr hFilters,
      Bool.false_or]
  · rcases OneToOne.mem_left hEntries.flip entry hEntry with
      ⟨r, hr, hSettled⟩
    cases hFilters : filtersOf set with
    | cons f filters => rfl
    | nil =>
        -- without a filter the flag is all that is asked for
        unfold wanted
        rw [hFilters]
        have hSame : entry.deleted = onlyDeleted set :=
          Bool.eq_iff_iff.mpr
            ((Settled.cases hSettled).2.2.trans (hFlags r hr))
        simp [hSame]

/- Without a filter every record is in the tree. -/
theorem flags_of_listing
    {entries' : List RootInfo}
    {tree : SearchTree RootInfo}
    (hFilters : filtersOf set = [])
    (hEntries : List.Forall₂ (Settled all_subvols top_id)
      all_subvols.tree.toList entries)
    (hKept : tree.toList.Perm
      ((entries.filter (kept set)).map (shown set)))
    (hEntries' : List.Forall₂ (Settled all_subvols top_id)
      all_subvols.tree.toList entries')
    (hWanted : tree.toList.Perm
      ((entries'.filter (wanted set)).map (shown set))) :
    ∀ r ∈ all_subvols.tree.toList,
      (Deleted all_subvols top_id r ↔
        onlyDeleted set = true) := by
  have hWhole : entries.filter (kept set) = entries := by
    rw [List.filter_eq_self]
    intro entry _
    unfold kept
    rw [hFilters]
    rfl
  have hLength := hKept.length_eq.symm.trans hWanted.length_eq
  rw [hWhole, List.length_map, List.length_map,
    ← hEntries.length_eq, hEntries'.length_eq] at hLength
  have hAll := List.length_filter_eq_length_iff.mp hLength.symm
  intro r hr
  rcases OneToOne.mem_left hEntries' r hr with
    ⟨entry, hEntry, hSettled⟩
  have hHere := hAll entry hEntry
  unfold wanted at hHere
  rw [Bool.and_eq_true, decide_eq_true_eq] at hHere
  have hFlag := (Settled.cases hSettled).2.2
  rw [← hFlag, hHere.1]

end Listing

/-
  `__filter_and_sort_subvol` lists what is asked for in order
  just when no way up runs into a cycle and there is a filter,
  or no record that the deleted flag alone keeps out.
-/
theorem filterAndSortSubvol_listing_iff
    (rbInsertColor : SearchTree.Rebalance RootInfo)
    (all_subvols : RootTable)
    (set : Option FilterSet)
    (comps : List Comparer)
    (top_id : Nat) :
    (∃ fuel tree,
      filterAndSortSubvol rbInsertColor all_subvols set comps
          top_id fuel = some (.ok tree) ∧
        Listing all_subvols set comps top_id tree) ↔
      Listable all_subvols set top_id := by
  constructor
  · intro hListing
    rcases hListing with
      ⟨fuel, tree, hRun, ⟨entries', hEntries', hWanted⟩, _⟩
    have hResolved := resolved_of_loop hRun
    refine ⟨fun r hr =>
      (hResolved r (List.mem_reverse.mpr hr)).1, ?_⟩
    by_cases hFilters : filtersOf set = []
    · rcases filterAndSortSubvol_kept rbInsertColor set comps
        (fun r hr => (hResolved r hr).2) with
        ⟨entries, tree', hRun', hEntries, hKept, _⟩
      rw [hRun] at hRun'
      cases hRun'
      exact .inr (flags_of_listing hFilters hEntries hKept
        hEntries' hWanted)
    · exact .inl hFilters
  · intro hListable
    rcases resolved_all (l := all_subvols.tree.toList.reverse)
      (fun r hr => hListable.1 r (List.mem_reverse.mp hr)) with
      ⟨fuel, hAll⟩
    rcases filterAndSortSubvol_kept rbInsertColor set comps
      hAll with ⟨entries, tree, hRun, hEntries, hKept, hSorted⟩
    rw [filter_kept hEntries hListable] at hKept
    exact ⟨fuel, tree, hRun, ⟨entries, hEntries, hKept⟩,
      hSorted⟩

/- Only the deleted subvolumes are asked for. -/
def deletedOnly : FilterSet :=
  btrfsListSetupFilter ⟨false, []⟩ ⟨.deleted, 0, []⟩

/- A table with one subvolume, which is at the top. -/
def oneSubvol : RootTable where
  tree := .node .leaf (subvol 256 5 nameA) .leaf
  ascending := by decide

/- A tree that is left as it is. -/
def keepShape : SearchTree.Rebalance RootInfo where
  run := id
  toList_run := fun _ => rfl

/- The subvolume is listed, which is not deleted. -/
theorem filterAndSortSubvol_lists_present :
    (∃ tree,
      filterAndSortSubvol keepShape oneSubvol
          (some deletedOnly) [] 5 1 = some (.ok tree) ∧
        tree.toList.map RootInfo.root_id = [256] ∧
        tree.toList.map RootInfo.deleted = [false]) ∧
      ¬ ∃ fuel tree,
        filterAndSortSubvol keepShape oneSubvol
            (some deletedOnly) [] 5 fuel = some (.ok tree) ∧
          Listing oneSubvol (some deletedOnly) [] 5 tree := by
  refine ⟨⟨_, rfl, rfl, rfl⟩, ?_⟩
  intro hListing
  rcases hListing with
    ⟨fuel, tree, hRun, ⟨entries', hEntries', hWanted⟩, _⟩
  have hResolved := resolved_of_loop hRun
  rcases filterAndSortSubvol_kept keepShape (some deletedOnly)
    [] (fun r hr => (hResolved r hr).2) with
    ⟨entries, tree', hRun', hEntries, hKept, _⟩
  rw [hRun] at hRun'
  cases hRun'
  have hFlags := flags_of_listing rfl hEntries hKept hEntries'
    hWanted
  have hDeleted := (hFlags (subvol 256 5 nameA)
    List.mem_cons_self).mpr rfl
  rcases hDeleted with hFlag | hNone
  · cases hFlag
  · exact hNone _ (.top (by decide) (.inr rfl))

end SubvolList

end BtrfsProgs
