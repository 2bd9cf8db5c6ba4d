import BtrfsProgs.Basic
import BtrfsProgs.Lib.Checked
import BtrfsProgs.Lib.Loop
import BtrfsProgs.Lib.SearchTree

/-
  `resolve_root`, from `btrfs-list.c`.

  The walk follows `ref_tree` from record to record and keeps
  no note of where it has been.

  Main declarations:
    * `RootInfo` and `RootTable`
    * `resolveTurn` and `resolveRoot`
    * `Climb` and `Looping`
    * `resolveRoot_resolved_iff`
-/

----------
-- Root Records
----------

namespace BtrfsProgs

namespace SubvolList

open Checked

/- The characters of a C string, without the zero byte. -/
structure CString where
  chars : List UInt8
  noNul : 0 ∉ chars
deriving DecidableEq

instance : Inhabited CString :=
  ⟨⟨[], List.not_mem_nil⟩⟩

/-
  `struct root_info`, as it is after `lookup_ino_path`.
  `full_path` is the memory that it points to, if any.
-/
structure RootInfo where
  root_id : Nat
  root_offset : Nat
  flags : Nat
  ref_tree : Nat
  top_id : Nat
  gen : Nat
  ogen : Nat
  puuid : List UInt8
  path : CString
  full_path : Option (List UInt8)
  deleted : Bool
deriving DecidableEq, Inhabited

/- `comp_entry_with_…`, for something of the record. -/
def compEntryWith
    {β : Type}
    [Ord β]
    (key : RootInfo → β)
    (entry1 entry2 : RootInfo)
    (is_descending : Bool) : Int :=
  let ret : Int :=
    match compare (key entry1) (key entry2) with
    | .gt => 1
    | .lt => -1
    | .eq => 0
  if is_descending then -ret else ret

def compEntryWithRootid :=
  compEntryWith RootInfo.root_id

/- Where a descent goes from a node: left of it below zero. -/
def way
    (ret : Int) : Ordering :=
  if ret < 0 then .lt else if ret > 0 then .gt else .eq

/- The tree of root records that `root_tree_insert` builds. -/
structure RootTable where
  tree : SearchTree RootInfo
  ascending :
    tree.toList.Pairwise fun a b => a.root_id < b.root_id

/- `root_tree_search`. -/
def rootTreeSearch
    (root_tree : RootTable)
    (root_id : Nat) : Option RootInfo :=
  let tmp : RootInfo := { (default : RootInfo) with root_id }
  root_tree.tree.search fun entry =>
    way (compEntryWithRootid tmp entry false)

----------
-- The Function
----------

def BTRFS_FS_TREE_OBJECTID : Nat := 5

def ENOENT : Int := -2

/- `'/'`. -/
def SLASH : UInt8 := 47

/-
  The variables of the walk. `len` is an `int`, so paths are
  shorter than 2^31 bytes.
-/
structure ResolveState where
  found : RootInfo
  full_path : Option (List UInt8)
  len : Nat

/- The path of a record before what is there, and its length. -/
def prependPath
    (path : CString)
    (full_path : Option (List UInt8))
    (len : Nat) : Except Fault (List UInt8 × Nat) :=
  let add_len := path.chars.length
  match full_path with
  | some full_path => do
      let tmp := List.replicate (add_len + 2 + len) 0
      let tmp ← write tmp (add_len + 1)
        (← readBytes full_path 0 len)
      let tmp ← write tmp add_len [SLASH]
      let tmp ← write tmp 0 path.chars
      let tmp ← write tmp (add_len + len + 1) [0]
      return (tmp, len + (add_len + 1))
  | none => return (path.chars ++ [0], add_len)

/- A turn of the walk. -/
def resolveTurn
    (rl : RootTable)
    (ri : RootInfo)
    (top_id : Nat)
    (s : ResolveState) :
    ResolveState ⊕ Except Fault (Int × RootInfo) :=
  if s.found.ref_tree = 0 then .inr (.ok (ENOENT, ri))
  else
    match prependPath s.found.path s.full_path s.len with
    | .error fault => .inr (.error fault)
    | .ok (full_path, len) =>
        let next := s.found.ref_tree
        if next = top_id then
          .inr (.ok (0,
            { ri with top_id, full_path := some full_path }))
        else if next = BTRFS_FS_TREE_OBJECTID then
          .inr (.ok (0,
            { ri with
              top_id := next
              full_path := some full_path }))
        else
          match rootTreeSearch rl next with
          | none => .inr (.ok (ENOENT, ri))
          | some found =>
              .inl { found, full_path := some full_path, len }

/-
  `resolve_root`, for some turns of its loop, with the record
  that it leaves.
-/
def resolveRoot
    (rl : RootTable)
    (ri : RootInfo)
    (top_id fuel : Nat) :
    Option (Except Fault (Int × RootInfo)) :=
  Loop.run (resolveTurn rl ri top_id) fuel ⟨ri, none, 0⟩

----------
-- The Way Up
----------

/- The walk goes on from a record at another one. -/
def Up
    (rl : RootTable)
    (top_id : Nat)
    (a b : RootInfo) : Prop :=
  a.ref_tree ≠ 0 ∧ a.ref_tree ≠ top_id ∧
    a.ref_tree ≠ BTRFS_FS_TREE_OBJECTID ∧
    b ∈ rl.tree.toList ∧ b.root_id = a.ref_tree

/-
  The records from the outermost one, whose parent is the top,
  down to a record.
-/
inductive Climb
    (rl : RootTable)
    (top_id : Nat) : RootInfo → List RootInfo → Prop where
  | top
      {ri : RootInfo}
      (hThere : ri.ref_tree ≠ 0)
      (hTop : ri.ref_tree = top_id ∨
        ri.ref_tree = BTRFS_FS_TREE_OBJECTID) :
      Climb rl top_id ri [ri]
  | up
      {ri parent : RootInfo}
      {chain : List RootInfo}
      (hUp : Up rl top_id ri parent)
      (hChain : Climb rl top_id parent chain) :
      Climb rl top_id ri (chain ++ [ri])

/- The paths of the records with slashes between them. -/
def joined
    (chain : List RootInfo) : List UInt8 :=
  [SLASH].intercalate (chain.map fun r => r.path.chars)

/-
  What `resolve_root` is to do: 0 with the joined path for a
  record below the top, else `-ENOENT` and no other change.
-/
def Resolved
    (rl : RootTable)
    (ri : RootInfo)
    (top_id : Nat)
    (result : Except Fault (Int × RootInfo)) : Prop :=
  (∃ chain outer, Climb rl top_id ri (outer :: chain) ∧
    result = .ok (0,
      { ri with
        top_id := outer.ref_tree
        full_path := some (joined (outer :: chain) ++ [0]) })) ∨
  ((∀ chain, ¬ Climb rl top_id ri chain) ∧
    result = .ok (ENOENT, ri))

/- The way up from the record runs into a cycle. -/
def Looping
    (rl : RootTable)
    (top_id : Nat)
    (ri : RootInfo) : Prop :=
  ∃ r, Relation.ReflTransGen (Up rl top_id) ri r ∧
    Relation.TransGen (Up rl top_id) r r

----------
-- Walks Without a Cycle
----------

/- In a finite set, a walk ends that meets no cycle. -/
theorem acc_of_acyclic
    {α : Type}
    {R : α → α → Prop}
    {start : α}
    {l : List α}
    (hIn : ∀ a b, R a b → b ∈ l)
    (hAcyclic : ∀ c, Relation.ReflTransGen R start c →
      ¬ Relation.TransGen R c c) :
    Acc (fun b a => R a b) start := by
  let Met := { c // Relation.ReflTransGen R start c }
  have hFinite : Finite Met := by
    apply Set.Finite.to_subtype
    apply (List.finite_toSet (start :: l)).subset
    intro c hMet
    rcases Relation.ReflTransGen.cases_tail hMet with
      hSame | ⟨b, _, hTurn⟩
    · exact hSame ▸ List.mem_cons_self
    · exact List.mem_cons_of_mem _ (hIn b c hTurn)
  let before (b a : Met) := Relation.TransGen R a.1 b.1
  have hTrans : IsTrans Met before :=
    ⟨fun _ _ _ hFirst hSecond => hSecond.trans hFirst⟩
  have hIrrefl : Std.Irrefl before :=
    ⟨fun c => hAcyclic c.1 c.2⟩
  have hWf := Finite.wellFounded_of_trans_of_irrefl before
  have hAll : ∀ c : Met, Acc (fun b a => R a b) c.1 := by
    intro c
    induction c using hWf.induction with
    | _ c ih =>
        constructor
        intro b hTurn
        exact ih ⟨b, c.2.tail hTurn⟩ (.single hTurn)
  exact hAll ⟨start, .refl⟩

/- What runs into a cycle goes on, and still runs into it. -/
theorem caught_up
    {α : Type}
    {R : α → α → Prop}
    {a : α}
    (hCaught :
      ∃ c, Relation.ReflTransGen R a c ∧
        Relation.TransGen R c c) :
    ∃ b, R a b ∧
      ∃ c, Relation.ReflTransGen R b c ∧
        Relation.TransGen R c c := by
  rcases hCaught with ⟨c, hMet, hCycle⟩
  rcases Relation.ReflTransGen.cases_head hMet with
    rfl | ⟨b, hUp, hRest⟩
  · rcases Relation.TransGen.head'_iff.mp hCycle with
      ⟨b, hUp, hBack⟩
    exact ⟨b, hUp, a, hBack, hCycle⟩
  · exact ⟨b, hUp, c, hRest, hCycle⟩

----------
-- Searching and Writing
----------

section Parts

variable {rl : RootTable}
variable {top_id root_id len : Nat}
variable {a b c r : RootInfo}

/- A comparison turns by the order of the two keys. -/
theorem way_compEntryWith
    {β : Type}
    [Ord β]
    (key : RootInfo → β)
    (entry1 entry2 : RootInfo)
    (is_descending : Bool) :
    way (compEntryWith key entry1 entry2 is_descending) =
      if is_descending then
        (compare (key entry1) (key entry2)).swap
      else
        compare (key entry1) (key entry2) := by
  unfold compEntryWith
  cases compare (key entry1) (key entry2) with
  | lt
  | eq
  | gt => cases is_descending <;> rfl

/- The way that the search for an id takes. -/
theorem way_rootid
    (tmp entry : RootInfo) :
    way (compEntryWithRootid tmp entry false) =
      compare tmp.root_id entry.root_id :=
  way_compEntryWith RootInfo.root_id tmp entry false

/- The record that is found has the id. -/
theorem rootTreeSearch_some
    (hFound : rootTreeSearch rl root_id = some r) :
    r ∈ rl.tree.toList ∧ r.root_id = root_id := by
  rcases SearchTree.search_some hFound with ⟨hMem, hWay⟩
  rw [way_rootid, Nat.compare_eq_eq] at hWay
  exact ⟨hMem, hWay.symm⟩

/- A search that finds none has missed none. -/
theorem rootTreeSearch_none
    (hNone : rootTreeSearch rl root_id = none) :
    ∀ r ∈ rl.tree.toList, r.root_id ≠ root_id := by
  intro r hr hIs
  refine SearchTree.search_none ?_ hNone r hr ?_
  · apply rl.ascending.imp
    intro a b hLess
    dsimp only
    rw [way_rootid, way_rootid, Nat.compare_eq_lt,
      Nat.compare_eq_lt, Nat.compare_eq_gt, Nat.compare_eq_gt]
    dsimp only
    omega
  · rw [way_rootid, Nat.compare_eq_eq]
    exact hIs.symm

/- Two records of the table with one id are the same. -/
theorem RootTable.root_id_inj
    (hFirst : a ∈ rl.tree.toList)
    (hSecond : b ∈ rl.tree.toList)
    (hSame : a.root_id = b.root_id) :
    a = b := by
  rcases List.append_of_mem hFirst with
    ⟨before, after, hSplit⟩
  have hOrder := rl.ascending
  rw [hSplit] at hOrder hSecond
  have hParts := List.pairwise_append.mp hOrder
  rcases List.mem_append.mp hSecond with hb | hb
  · have hLess := hParts.2.2 b hb a List.mem_cons_self
    omega
  · rcases List.mem_cons.mp hb with rfl | hb
    · rfl
    · have hLess := (List.pairwise_cons.mp hParts.2.1).1 b hb
      omega

theorem Up.unique
    (hFirst : Up rl top_id a b)
    (hSecond : Up rl top_id a c) :
    b = c :=
  RootTable.root_id_inj hFirst.2.2.2.1 hSecond.2.2.2.1
    (hFirst.2.2.2.2.trans hSecond.2.2.2.2.symm)

/- A path with what was joined before behind it. -/
def withRest
    (head : List UInt8) : Option (List UInt8) → List UInt8
  | none => head
  | some text => head ++ SLASH :: text

/- The memory has the text, and `len` is its length. -/
def Holds
    (s : ResolveState)
    (rest : Option (List UInt8)) : Prop :=
  s.full_path = rest.map (· ++ [0]) ∧
    s.len = (rest.map List.length).getD 0

/- The text in front of its end is all that is copied. -/
theorem readBytes_text
    (text : List UInt8) :
    readBytes (text ++ [0]) 0 text.length = .ok text := by
  unfold readBytes
  rw [if_pos (by simp)]
  simp

/- New memory has room for a head, a slash, a text, its end. -/
theorem write_text
    (n : Nat)
    (text : List UInt8) :
    write (.replicate (n + 2 + text.length) 0) (n + 1) text =
      .ok ((List.replicate n 0 ++ [0]) ++ (text ++ [0])) := by
  have hRoom :
      List.replicate (n + 2 + text.length) (0 : UInt8) =
        (.replicate n 0 ++ [0]) ++
          (.replicate text.length 0 ++ [0]) := by
    rw [← List.replicate_succ', ← List.replicate_succ',
      List.replicate_append_replicate]
    congr 1
    omega
  rw [hRoom]
  exact write_part _ _ _ (by simp) (by simp)

theorem write_slash
    (n : Nat)
    (text : List UInt8) :
    write ((.replicate n 0 ++ [0]) ++ (text ++ [0])) n
        [SLASH] =
      .ok (List.replicate n 0 ++
        ([SLASH] ++ (text ++ [0]))) := by
  rw [List.append_assoc]
  exact write_part _ _ _ (by simp) rfl

theorem write_head
    (head back : List UInt8) :
    write (.replicate head.length 0 ++ back) 0 head =
      .ok (head ++ back) :=
  write_part [] (.replicate head.length 0) back rfl (by simp)

/- Writing the end of a text once more changes nothing. -/
theorem write_end
    (text : List UInt8) :
    write (text ++ [0]) text.length [0] =
      .ok (text ++ [0]) :=
  write_part text [0] [] rfl rfl

/- Every write is in the memory, which holds the new path. -/
theorem prependPath_holds
    {s : ResolveState}
    {rest : Option (List UInt8)}
    (path : CString)
    (hHolds : Holds s rest) :
    prependPath path s.full_path s.len =
      .ok (withRest path.chars rest ++ [0],
        (withRest path.chars rest).length) := by
  rcases hHolds with ⟨hPath, hLen⟩
  rw [hPath, hLen]
  cases rest with
  | none => rfl
  | some text =>
      have hEnd :
          write (path.chars ++ ([SLASH] ++ (text ++ [0])))
            (path.chars.length + text.length + 1) [0] =
          .ok (path.chars ++ ([SLASH] ++ (text ++ [0]))) := by
        have hLast := write_end (path.chars ++ SLASH :: text)
        simpa [Nat.add_assoc] using hLast
      unfold prependPath
      dsimp only [Option.map_some, Option.getD_some]
      rw [readBytes_text]
      dsimp only [bind, Except.bind]
      rw [write_text]
      dsimp only
      rw [write_slash]
      dsimp only
      rw [write_head]
      dsimp only
      rw [hEnd]
      dsimp only [pure, Except.pure, withRest]
      simp
      omega

end Parts

----------
-- The Turns
----------

section Turns

variable {rl : RootTable}
variable {ri parent : RootInfo}
variable {top_id : Nat}
variable {s : ResolveState}
variable {rest : Option (List UInt8)}

theorem resolveTurn_gone
    (hGone : s.found.ref_tree = 0) :
    resolveTurn rl ri top_id s = .inr (.ok (ENOENT, ri)) :=
  if_pos hGone

/- The parent of the record is the top. -/
theorem resolveTurn_top
    (hHolds : Holds s rest)
    (hThere : s.found.ref_tree ≠ 0)
    (hTop : s.found.ref_tree = top_id ∨
      s.found.ref_tree = BTRFS_FS_TREE_OBJECTID) :
    resolveTurn rl ri top_id s =
      .inr (.ok (0,
        { ri with
          top_id := s.found.ref_tree
          full_path := some
            (withRest s.found.path.chars rest ++ [0]) })) := by
  unfold resolveTurn
  rw [if_neg hThere, prependPath_holds _ hHolds]
  dsimp only
  by_cases hGiven : s.found.ref_tree = top_id
  · rw [if_pos hGiven, hGiven]
  · have hTree := hTop.resolve_left hGiven
    rw [if_neg hGiven, if_pos hTree]

theorem resolveTurn_absent
    (hHolds : Holds s rest)
    (hThere : s.found.ref_tree ≠ 0)
    (hTop : ¬ (s.found.ref_tree = top_id ∨
      s.found.ref_tree = BTRFS_FS_TREE_OBJECTID))
    (hNone : rootTreeSearch rl s.found.ref_tree = none) :
    resolveTurn rl ri top_id s = .inr (.ok (ENOENT, ri)) := by
  rcases not_or.mp hTop with ⟨hGiven, hTree⟩
  unfold resolveTurn
  rw [if_neg hThere, prependPath_holds _ hHolds]
  dsimp only
  rw [if_neg hGiven, if_neg hTree, hNone]

/- The walk goes on at the parent, with the path prepended. -/
theorem resolveTurn_up
    (ri : RootInfo)
    (hHolds : Holds s rest)
    (hUp : Up rl top_id s.found parent) :
    ∃ s',
      resolveTurn rl ri top_id s = .inl s' ∧
        s'.found = parent ∧
        Holds s' (some (withRest s.found.path.chars rest)) := by
  rcases hUp with ⟨hThere, hGiven, hTree, hMem, hIs⟩
  unfold resolveTurn
  rw [if_neg hThere, prependPath_holds _ hHolds]
  dsimp only
  rw [if_neg hGiven, if_neg hTree]
  cases hFound : rootTreeSearch rl s.found.ref_tree with
  | none => exact absurd hIs (rootTreeSearch_none hFound _ hMem)
  | some found =>
      rcases rootTreeSearch_some hFound with ⟨hIn, hId⟩
      exact ⟨_, rfl,
        RootTable.root_id_inj hIn hMem (hId.trans hIs.symm),
        rfl, rfl⟩

/- A chain that goes on above a record goes on at its parent. -/
theorem Climb.above
    {chain : List RootInfo}
    (hUp : Up rl top_id ri parent)
    (hChain : Climb rl top_id ri chain) :
    ∃ chain', chain = chain' ++ [ri] ∧
      Climb rl top_id parent chain' := by
  cases hChain with
  | top _ hTop =>
      rcases hTop with hGiven | hTree
      · exact absurd hGiven hUp.2.1
      · exact absurd hTree hUp.2.2.1
  | up hOther hAbove =>
      rw [hUp.unique hOther]
      exact ⟨_, rfl, hAbove⟩

theorem joined_append
    (outer : RootInfo)
    (below : List RootInfo)
    (ri : RootInfo) :
    joined (outer :: below ++ [ri]) =
      joined (outer :: below) ++ SLASH :: ri.path.chars := by
  unfold joined
  induction below generalizing outer with
  | nil => simp [List.intercalate_cons_cons]
  | cons next below ih =>
      have hNext := ih next
      simp only [List.cons_append, List.map_cons,
        List.intercalate_cons_cons] at hNext ⊢
      rw [hNext]
      simp only [List.append_assoc]

/- The paths above a record, then its own, then the rest. -/
theorem withRest_joined
    (outer : RootInfo)
    (below : List RootInfo)
    (ri : RootInfo)
    (rest : Option (List UInt8)) :
    withRest (joined (outer :: below ++ [ri])) rest =
      withRest (joined (outer :: below))
        (some (withRest ri.path.chars rest)) := by
  rw [joined_append]
  cases rest with
  | none => rfl
  | some text => simp [withRest]

end Turns

----------
-- The Walk
----------

section Walk

variable {rl : RootTable}
variable {ri r : RootInfo}
variable {top_id : Nat}
variable {s : ResolveState}

/- What the walk comes to from a record and a path so far. -/
def ResolvedFrom
    (rl : RootTable)
    (ri : RootInfo)
    (top_id : Nat)
    (r : RootInfo)
    (rest : Option (List UInt8))
    (result : Except Fault (Int × RootInfo)) : Prop :=
  (∃ chain outer, Climb rl top_id r (outer :: chain) ∧
    result = .ok (0,
      { ri with
        top_id := outer.ref_tree
        full_path := some
          (withRest (joined (outer :: chain)) rest ++ [0]) })) ∨
  ((∀ chain, ¬ Climb rl top_id r chain) ∧
    result = .ok (ENOENT, ri))

/- What the walk comes to from a parent it comes to before. -/
theorem ResolvedFrom.back
    {parent : RootInfo}
    {rest : Option (List UInt8)}
    {result : Except Fault (Int × RootInfo)}
    (hUp : Up rl top_id r parent)
    (hResolved : ResolvedFrom rl ri top_id parent
      (some (withRest r.path.chars rest)) result) :
    ResolvedFrom rl ri top_id r rest result := by
  rcases hResolved with
    ⟨chain, outer, hClimb, hResult⟩ | ⟨hNone, hResult⟩
  · refine Or.inl ⟨chain ++ [r], outer, hClimb.up hUp, ?_⟩
    rw [← List.cons_append, withRest_joined]
    exact hResult
  · refine Or.inr ⟨?_, hResult⟩
    intro chain hChain
    rcases hChain.above hUp with ⟨above, _, hAbove⟩
    exact hNone above hAbove

/- A walk that can go up only so often comes to its end. -/
theorem resolve_from
    (ri : RootInfo)
    {rest : Option (List UInt8)}
    (hAcc : Acc (fun b a => Up rl top_id a b) r)
    (hFound : s.found = r)
    (hHolds : Holds s rest) :
    Loop.Ends (resolveTurn rl ri top_id)
      (ResolvedFrom rl ri top_id r rest) s := by
  induction hAcc generalizing s rest with
  | intro r _ ih =>
      subst hFound
      by_cases hGone : s.found.ref_tree = 0
      · refine .done (resolveTurn_gone hGone) (.inr ⟨?_, rfl⟩)
        intro chain hChain
        cases hChain with
        | top hThere _ => exact hThere hGone
        | up hUp _ => exact hUp.1 hGone
      by_cases hTop : s.found.ref_tree = top_id ∨
          s.found.ref_tree = BTRFS_FS_TREE_OBJECTID
      · exact .done (resolveTurn_top hHolds hGone hTop)
          (.inl ⟨[], s.found, .top hGone hTop, by
            simp [joined]⟩)
      cases hSearch : rootTreeSearch rl s.found.ref_tree with
      | none =>
          refine .done
            (resolveTurn_absent hHolds hGone hTop hSearch)
            (.inr ⟨?_, rfl⟩)
          intro chain hChain
          cases hChain with
          | top _ hIs => exact hTop hIs
          | up hUp _ =>
              exact rootTreeSearch_none hSearch _
                hUp.2.2.2.1 hUp.2.2.2.2
      | some parent =>
          rcases not_or.mp hTop with ⟨hGiven, hTree⟩
          have hUp : Up rl top_id s.found parent :=
            ⟨hGone, hGiven, hTree,
              rootTreeSearch_some hSearch⟩
          rcases resolveTurn_up ri hHolds hUp with
            ⟨s', hTurn, hNext, hHolds'⟩
          exact .turn hTurn ((ih parent hUp hNext hHolds').mono
            fun result hResolved => hResolved.back hUp)

/- The walk is caught in a cycle, with a next record. -/
theorem Looping.up
    (hLooping : Looping rl top_id r) :
    ∃ parent, Up rl top_id r parent ∧
      Looping rl top_id parent :=
  caught_up hLooping

/- A walk into a cycle has no end. -/
theorem Looping.resolveRoot_none
    (hLooping : Looping rl top_id ri)
    (fuel : Nat) :
    resolveRoot rl ri top_id fuel = none := by
  apply Loop.run_none
    (P := fun s => Looping rl top_id s.found ∧
      ∃ rest, Holds s rest)
  · intro s hAt
    rcases hAt with ⟨hCaught, rest, hHolds⟩
    rcases hCaught.up with ⟨parent, hUp, hNext⟩
    rcases resolveTurn_up ri hHolds hUp with
      ⟨s', hTurn, hFound, hHolds'⟩
    exact ⟨s', hTurn, hFound ▸ hNext, _, hHolds'⟩
  · exact ⟨hLooping, none, rfl, rfl⟩

/- A walk that meets no cycle is resolved. -/
theorem resolveRoot_resolved
    (hNot : ¬ Looping rl top_id ri) :
    ∃ fuel result,
      resolveRoot rl ri top_id fuel = some result ∧
        Resolved rl ri top_id result := by
  have hAcc : Acc (fun b a => Up rl top_id a b) ri :=
    acc_of_acyclic (fun a b hUp => hUp.2.2.2.1)
      (fun c hMet hCycle => hNot ⟨c, hMet, hCycle⟩)
  have hStart : Holds ⟨ri, none, 0⟩ none := ⟨rfl, rfl⟩
  exact resolve_from ri hAcc rfl hStart

end Walk

/-
  `resolve_root` returns what it is to return just when the
  way up from the record does not run into a cycle.
-/
theorem resolveRoot_resolved_iff
    (rl : RootTable)
    (ri : RootInfo)
    (top_id : Nat) :
    (∃ fuel result,
      resolveRoot rl ri top_id fuel = some result ∧
        Resolved rl ri top_id result) ↔
      ¬ Looping rl top_id ri := by
  constructor
  · intro hEnds hLooping
    rcases hEnds with ⟨fuel, result, hRun, _⟩
    rw [hLooping.resolveRoot_none fuel] at hRun
    cases hRun
  · exact resolveRoot_resolved

/- A subvolume with an id, a parent and a name. -/
def subvol
    (root_id ref_tree : Nat)
    (path : CString) : RootInfo :=
  { (default : RootInfo) with root_id, ref_tree, path }

def nameA : CString := ⟨[97], by decide⟩

def nameB : CString := ⟨[98], by decide⟩

/- Two subvolumes, each of which is said to be in the other. -/
def crossed : RootTable where
  tree := .node .leaf (subvol 256 257 nameA)
    (.node .leaf (subvol 257 256 nameB) .leaf)
  ascending := by decide

/- Nothing is returned for a record of a cycle. -/
theorem resolveRoot_not_resolved :
    ¬ ∃ fuel result,
      resolveRoot crossed (subvol 256 257 nameA) 5 fuel =
          some result ∧
        Resolved crossed (subvol 256 257 nameA) 5 result := by
  intro hEnds
  rcases hEnds with ⟨fuel, result, hRun, _⟩
  have hFirst : Up crossed 5 (subvol 256 257 nameA)
      (subvol 257 256 nameB) := by
    unfold Up
    decide
  have hSecond : Up crossed 5 (subvol 257 256 nameB)
      (subvol 256 257 nameA) := by
    unfold Up
    decide
  have hLooping : Looping crossed 5 (subvol 256 257 nameA) :=
    ⟨_, .refl, .head hFirst (.single hSecond)⟩
  rw [hLooping.resolveRoot_none fuel] at hRun
  cases hRun

end SubvolList

end BtrfsProgs
