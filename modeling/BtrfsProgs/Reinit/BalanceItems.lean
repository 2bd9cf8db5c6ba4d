import BtrfsProgs.Lib.LeafList
import BtrfsProgs.Reinit.ExtentTree

/-
  What `reset_balance` leaves in the tree of roots, with the
  leaves that the tree is made of.

  A search for a key that is not there can end behind the last
  item of a leaf, where the loop takes the run for done.

  Main declarations:
    * `Leafy` and `LeafEnv.ops`
    * `Cleared` and `Stuck`
    * `resetBalance_clears_iff`
-/

----------
-- A Tree of Leaves
----------

namespace BtrfsProgs

namespace Reinit

namespace BalanceItems

open LeafList

variable {α : Type}

/-
  The leaves of a tree, in order, none of which is empty, and
  how many calls changed or searched the tree.
-/
structure Leafy (α : Type) where
  leaves : List (List (Key × α))
  calls : Nat
  filled : ∀ leaf ∈ leaves, leaf ≠ []
  ascending : Ascending Prod.fst leaves.flatten

def Leafy.items
    (t : Leafy α) : List (Key × α) :=
  t.leaves.flatten

/-
  The errors of `btrfs_search_slot`, and `btrfs_del_items`,
  which may move items between leaves and which, if it returns
  0, deletes some items of a leaf and keeps the others.
-/
structure LeafEnv (α : Type) where
  searchError : Nat → Option Int
  searchError_neg :
    ∀ n error, searchError n = some error → error < 0
  delItems : Nat → Nat → Nat → Leafy α → Int × Leafy α
  delItems_items :
    ∀ t front passed gone rest behind,
      t.leaves = front ++ (passed ++ gone ++ rest) :: behind →
        gone ≠ [] →
        (delItems front.length passed.length gone.length t).1 =
            0 →
          (delItems front.length passed.length gone.length
              t).2.items =
            front.flatten ++ passed ++ rest ++ behind.flatten

/- The slot of a search, with its result. -/
def LeafEnv.search
    (env : LeafEnv α)
    (key : Key)
    (t : Leafy α) : Int × Leafy α × Nat × Nat :=
  let slot := searchSlot Prod.fst key t.leaves
  let ret : Int :=
    match env.searchError t.calls with
    | some error => error
    | none =>
        if slot.items.head?.map Prod.fst = some key then 0 else 1
  (ret, { t with calls := t.calls + 1 }, slot.front.length,
    slot.passed.length)

def LeafEnv.ops
    (env : LeafEnv α) : RootTree (Leafy α) Nat where
  keys t := t.items.map Prod.fst
  leafKeys t leaf := (t.leaves.getD leaf []).map Prod.fst
  searchSlot := env.search
  delItems := env.delItems

----------
-- What Is to Be Removed
----------

/- The pending items of the balance. -/
def InRun
    (key : Key) : Prop :=
  key.objectid = TREE_RELOC_OBJECTID ∧ ROOT_ITEM_KEY ≤ key.type

instance
    (key : Key) : Decidable (InRun key) :=
  inferInstanceAs (Decidable (_ ∧ _))

/- They are gone, with the balance item and nothing else. -/
def Cleared
    (before after : Leafy α) : Prop :=
  (∀ item ∈ after.items, ¬ InRun item.1) ∧
    after.items = before.items.filter fun item =>
      ¬ InRun item.1 ∧ item.1 ≠ balanceKey

/- The loop ends, and clears the tree if 0 is returned. -/
def Clears
    (env : LeafEnv α)
    (readDataReloc : Int)
    (t : Leafy α) : Prop :=
  ∃ fuel ret after made,
    resetBalance fuel env.ops readDataReloc t =
      some (ret, after, made) ∧
      (ret = 0 → Cleared t after)

/- The loop begins, without the balance item. -/
def Begins
    (env : LeafEnv α)
    (t : Leafy α)
    (s : RelocScan (Leafy α) Nat) : Prop :=
  ∃ found leaf slot gone ret next place offset,
    env.search balanceKey t = (0, found, leaf, slot) ∧
      env.delItems leaf slot 1 found = (0, gone) ∧
      env.search relocKey gone = (ret, next, place, offset) ∧
        0 ≤ ret ∧
        s = ⟨next, place, offset, relocKey, false, 0, 0⟩

/-
  A search ended behind the last item of a leaf, and there are
  items to remove in the leaves to come.
-/
def Stuck
    (s : RelocScan (Leafy α) Nat) : Prop :=
  (s.t.leaves.getD s.leaf []).length ≤ s.slot ∧
    s.found = false ∧ ∃ item ∈ s.t.items, InRun item.1

----------
-- Leaves and Items
----------

section Parts

variable {leaves : List (List (Key × α))}

theorem flatten_parts
    (leaves : List (List (Key × α)))
    (n : Nat) :
    leaves.flatten = (leaves.take n).flatten ++
      leaves.getD n [] ++ (leaves.drop (n + 1)).flatten := by
  nth_rewrite 1 [← List.take_append_drop n leaves]
  rw [List.flatten_append, List.append_assoc]
  congr 1
  by_cases hLess : n < leaves.length
  · rw [List.drop_eq_getElem_cons hLess, List.flatten_cons,
      List.getD_eq_getElem _ _ hLess]
  · rw [List.drop_of_length_le (by omega),
      List.drop_of_length_le (by omega),
      List.getD_eq_default _ _ (by omega)]
    rfl

theorem place_parts
    (key : Key)
    (leaves : List (List (Key × α))) :
    let slot := searchSlot Prod.fst key leaves
    leaves.take slot.front.length = slot.front ∧
      leaves.getD slot.front.length [] =
          slot.passed ++ slot.items ∧
        leaves.drop (slot.front.length + 1) = slot.leaves := by
  intro slot
  by_cases hNone : leaves = []
  · subst hNone
    exact ⟨rfl, rfl, rfl⟩
  · have hJoin : slot.front ++
        (slot.passed ++ slot.items) :: slot.leaves = leaves :=
      searchSlot_join Prod.fst key hNone
    rw [← hJoin]
    simp

/- What a search passes is below its key, and the rest is not. -/
theorem place_order
    (t : Leafy α)
    (key : Key) :
    let slot := searchSlot Prod.fst key t.leaves
    (∀ item ∈ slot.front.flatten ++ slot.passed,
        item.1 < key) ∧
      ∀ item ∈ slot.items ++ slot.leaves.flatten,
        key ≤ item.1 := by
  intro slot
  constructor
  · intro item hItem
    rw [searchSlot_before key t.filled t.ascending] at hItem
    have hBelow := List.mem_takeWhile_imp hItem
    rwa [decide_eq_true_eq] at hBelow
  · intro item hItem
    rw [searchSlot_from key t.filled t.ascending] at hItem
    exact ((mem_dropWhile_iff t.ascending).mp hItem).2

end Parts

variable {key : Key}

theorem le_reloc
    (hKey : relocKey ≤ key)
    (hNot : ¬ TREE_RELOC_OBJECTID < key.objectid) :
    InRun key := by
  rw [Key.le_iff] at hKey
  unfold relocKey at hKey
  unfold InRun
  dsimp only at hKey
  omega

theorem InRun.reloc_le
    (hRun : InRun key) :
    relocKey ≤ key := by
  rw [Key.le_iff]
  unfold InRun at hRun
  unfold relocKey
  dsimp only
  omega

/- The key of the search after an item. -/
def nextKey
    (key : Key) : Key :=
  { key with offset := (key.offset + 1) % 2 ^ 64 }

theorem nextKey_le
    {key other : Key}
    (hLess : key < other) :
    nextKey key ≤ other := by
  have hMod := Nat.mod_le (key.offset + 1) (2 ^ 64)
  rw [Key.lt_iff] at hLess
  rw [Key.le_iff]
  unfold nextKey
  dsimp only
  omega

theorem InRun.nextKey
    (hRun : InRun key) :
    InRun (nextKey key) :=
  hRun

----------
-- The Loop
----------

section Scan

variable {env : LeafEnv α} {others : List (Key × α)}
  {s b : RelocScan (Leafy α) Nat}
  {passed run rest : List (Key × α)}

/-
  The state of the loop in a leaf: what it passed is below the
  items to remove, those that it counts are such items, and the
  rest is not below them.
-/
structure At
    (others : List (Key × α))
    (s : RelocScan (Leafy α) Nat)
    (passed run rest : List (Key × α)) : Prop where
  leaf : s.t.leaves.getD s.leaf [] = passed ++ run ++ rest
  slot : s.slot = passed.length + run.length
  count : s.delNr = run.length
  start : run ≠ [] → s.delSlot = passed.length
  found : s.found = true ↔ run ≠ []
  key : ∀ last, run.getLast? = some last → s.key = last.1
  below : ∀ item ∈ (s.t.leaves.take s.leaf).flatten ++ passed,
    item.1 < relocKey
  inRun : ∀ item ∈ run, InRun item.1
  above : ∀ item ∈ rest ++
      (s.t.leaves.drop (s.leaf + 1)).flatten,
    relocKey ≤ item.1
  others : (s.t.items.filter fun item => ¬ InRun item.1) =
    others

theorem At.items
    (hAt : At others s passed run rest) :
    s.t.items = (s.t.leaves.take s.leaf).flatten ++
      (passed ++ run ++ rest) ++
        (s.t.leaves.drop (s.leaf + 1)).flatten := by
  rw [← hAt.leaf]
  exact flatten_parts _ _

/- The state after a search that no pending item is before. -/
theorem at_search
    (env : LeafEnv α)
    {t : Leafy α}
    {key : Key}
    (hKey : relocKey ≤ key)
    (hNone : ∀ item ∈ t.items, item.1 < key →
      item.1 < relocKey)
    (hOthers : (t.items.filter fun item => ¬ InRun item.1) =
      others)
    (delSlot : Nat) :
    At others
      ⟨(env.search key t).2.1, (env.search key t).2.2.1,
        (env.search key t).2.2.2, key, false, delSlot, 0⟩
      (searchSlot Prod.fst key t.leaves).passed []
      (searchSlot Prod.fst key t.leaves).items := by
  have hParts := place_parts key t.leaves
  have hOrder := place_order t key
  have hWhole := searchSlot_flatten Prod.fst key t.leaves
  dsimp only at hParts hOrder
  refine ⟨?_, rfl, rfl, fun hSome => absurd rfl hSome,
    by simp, by simp, ?_, by simp, ?_, hOthers⟩
  · rw [List.append_nil]
    exact hParts.2.1
  · intro item hItem
    change item ∈ (t.leaves.take (searchSlot Prod.fst key
      t.leaves).front.length).flatten ++ _ at hItem
    rw [hParts.1] at hItem
    refine hNone item ?_ (hOrder.1 item hItem)
    unfold Leafy.items
    rw [← hWhole, List.append_assoc]
    exact List.mem_append_left _ hItem
  · intro item hItem
    change item ∈ _ ++ (t.leaves.drop ((searchSlot Prod.fst key
      t.leaves).front.length + 1)).flatten at hItem
    rw [hParts.2.2] at hItem
    exact hKey.trans (hOrder.2 item hItem)

/- The deletion of what is counted leaves the other items. -/
theorem At.deleted
    (hAt : At others s passed run rest)
    (hSome : run ≠ [])
    (hZero : (env.delItems s.leaf s.delSlot s.delNr s.t).1 =
      0) :
    (env.delItems s.leaf s.delSlot s.delNr s.t).2.items =
        (s.t.leaves.take s.leaf).flatten ++ passed ++ rest ++
          (s.t.leaves.drop (s.leaf + 1)).flatten ∧
      ((env.delItems s.leaf s.delSlot s.delNr
        s.t).2.items.filter fun item => ¬ InRun item.1) =
          others := by
  have hLess : s.leaf < s.t.leaves.length := by
    by_contra hOut
    have hLeaf := hAt.leaf
    rw [List.getD_eq_default _ _ (by omega)] at hLeaf
    simp only [List.nil_eq, List.append_eq_nil_iff] at hLeaf
    exact hSome hLeaf.1.2
  have hLeaves : s.t.leaves = s.t.leaves.take s.leaf ++
      (passed ++ run ++ rest) ::
        s.t.leaves.drop (s.leaf + 1) := by
    rw [← hAt.leaf, List.getD_eq_getElem _ _ hLess,
      ← List.drop_eq_getElem_cons hLess,
      List.take_append_drop]
  have hFront : (s.t.leaves.take s.leaf).length = s.leaf :=
    List.length_take_of_le hLess.le
  have hItems := env.delItems_items s.t _ _ _ _ _ hLeaves hSome
  rw [hFront, ← hAt.start hSome, ← hAt.count] at hItems
  refine ⟨hItems hZero, ?_⟩
  have hGone : (run.filter fun item => ¬ InRun item.1) = [] := by
    rw [List.filter_eq_nil_iff]
    intro item hItem
    simpa using hAt.inRun item hItem
  rw [hItems hZero, ← hAt.others, hAt.items]
  simp only [List.filter_append, hGone, List.nil_append,
    List.append_assoc]

/- What the loop reads is the first item of the rest. -/
theorem At.leafKeys
    (env : LeafEnv α)
    (hAt : At others s passed run rest) :
    (env.ops.leafKeys s.t s.leaf)[s.slot]? =
      rest.head?.map Prod.fst := by
  change ((s.t.leaves.getD s.leaf []).map Prod.fst)[s.slot]? = _
  rw [hAt.leaf, hAt.slot, List.getElem?_map,
    ← List.length_append, List.getElem?_append_right (by omega),
    Nat.sub_self, List.head?_eq_getElem?]

/- An item that is to be removed is counted. -/
theorem At.counted
    (env : LeafEnv α)
    {item : Key × α}
    (hAt : At others s passed run (item :: rest))
    (hNot : ¬ TREE_RELOC_OBJECTID < item.1.objectid) :
    ∃ b, relocTurn env.ops s = .inl b ∧ b.t = s.t ∧
      b.delNr = s.delNr + 1 ∧
      At others b passed (run ++ [item]) rest := by
  have hRun : InRun item.1 :=
    le_reloc (hAt.above item (by simp)) hNot
  have hKeys := hAt.leafKeys env
  have hCount := hAt.count
  have hSlot := hAt.slot
  rw [List.head?_cons, Option.map_some] at hKeys
  refine ⟨{ s with
    key := item.1
    found := true
    delSlot := if s.delNr = 0 then s.slot else s.delSlot
    delNr := s.delNr + 1
    slot := s.slot + 1 }, ?_, rfl, rfl, ?_⟩
  · unfold relocTurn
    rw [hKeys]
    dsimp only
    rw [if_neg hNot, if_neg (not_not.mpr hRun.1)]
    by_cases hFirst : s.delNr = 0
    · rw [if_pos hFirst, if_pos hFirst, hFirst]
    · rw [if_neg hFirst, if_neg hFirst]
  · refine ⟨?_, ?_, ?_, ?_, by simp, by simp, hAt.below, ?_,
      ?_, hAt.others⟩
    · rw [hAt.leaf]
      simp only [List.append_assoc, List.cons_append,
        List.nil_append]
    · rw [List.length_append, List.length_singleton]
      dsimp only
      omega
    · rw [List.length_append, List.length_singleton, ← hCount]
    · intro _
      dsimp only
      by_cases hFirst : s.delNr = 0
      · rw [if_pos hFirst]
        omega
      · rw [if_neg hFirst]
        refine hAt.start ?_
        intro hNil
        rw [hNil] at hCount
        exact hFirst hCount
    · intro other hOther
      rcases List.mem_append.mp hOther with hIn | hIn
      · exact hAt.inRun other hIn
      · rw [List.mem_singleton.mp hIn]
        exact hRun
    · exact fun other hOther =>
        hAt.above other (List.mem_cons_of_mem _ hOther)

/- After a deletion the search has no pending item before. -/
theorem At.next
    (hAt : At others s passed run [])
    (hSome : run ≠ [])
    (hZero : (env.delItems s.leaf s.delSlot s.delNr s.t).1 = 0) :
    let t := (env.delItems s.leaf s.delSlot s.delNr s.t).2
    relocKey ≤ nextKey s.key ∧
      ∀ item ∈ t.items, item.1 < nextKey s.key →
        item.1 < relocKey := by
  intro t
  have hDeleted := (hAt.deleted hSome hZero).1
  have hKey := hAt.key _ (List.getLast?_eq_some_getLast hSome)
  have hLast := List.getLast_mem hSome
  have hRun := hAt.inRun _ hLast
  rw [hKey]
  refine ⟨hRun.nextKey.reloc_le, ?_⟩
  intro item hItem hLess
  change item ∈ (env.delItems s.leaf s.delSlot s.delNr
    s.t).2.items at hItem
  rw [hDeleted, List.append_nil] at hItem
  rcases List.mem_append.mp hItem with hFront | hBehind
  · exact hAt.below item hFront
  · -- what is behind the leaf is above its last item
    have hOrder := s.t.ascending
    change (s.t.items).Pairwise _ at hOrder
    rw [hAt.items, List.append_nil] at hOrder
    have hAbove := (List.pairwise_append.mp hOrder).2.2 _
      (List.mem_append_right _ (List.mem_append_right _ hLast))
      item hBehind
    exact absurd hLess (not_lt.mpr (nextKey_le hAbove))

/- What is left when the deletion and the search are done. -/
def rank
    (s : RelocScan (Leafy α) Nat) : Nat :=
  2 * s.t.items.length - s.delNr

/- A turn of the loop. -/
theorem At.turn
    (env : LeafEnv α)
    (hAt : At others s passed run rest) :
    match relocTurn env.ops s with
    | .inl b =>
        (∃ passed run rest, At others b passed run rest) ∧
          rank b < rank s
    | .inr (.error (ret, _)) => ret ≠ 0
    | .inr (.ok b) =>
        (run = [] ∧ rest = [] ∧ b = s) ∨
          ∃ item tail, rest = item :: tail ∧
            TREE_RELOC_OBJECTID < item.1.objectid ∧
              b = { s with key := item.1, found := true } := by
  have hItems := congrArg List.length hAt.items
  have hKeys := hAt.leafKeys env
  have hCount := hAt.count
  simp only [List.length_append] at hItems
  cases rest with
  | cons item rest =>
      by_cases hNot : TREE_RELOC_OBJECTID < item.1.objectid
      · have hTurn : relocTurn env.ops s =
            .inr (.ok { s with key := item.1, found := true }) := by
          unfold relocTurn
          rw [hKeys, List.head?_cons, Option.map_some]
          dsimp only
          rw [if_pos hNot]
        rw [hTurn]
        exact .inr ⟨item, rest, rfl, hNot, rfl⟩
      · rcases hAt.counted env hNot with
          ⟨b, hTurn, hSame, hMore, hNext⟩
        rw [hTurn]
        refine ⟨⟨_, _, _, hNext⟩, ?_⟩
        rw [List.length_cons] at hItems
        unfold rank
        rw [hSame, hMore]
        omega
  | nil =>
      rw [List.head?_nil, Option.map_none] at hKeys
      by_cases hSome : run = []
      · have hFound : s.found = false := by
          rw [← Bool.not_eq_true, hAt.found]
          exact not_not.mpr hSome
        have hTurn : relocTurn env.ops s = .inr (.ok s) := by
          unfold relocTurn
          rw [hKeys]
          dsimp only
          rw [if_pos (by simp [hFound])]
        rw [hTurn]
        exact .inl ⟨hSome, rfl, rfl⟩
      · have hNr : s.delNr ≠ 0 := by
          rw [hCount]
          exact fun hNil => hSome (List.length_eq_zero_iff.mp hNil)
        have hTurn : relocTurn env.ops s =
            (let d := env.delItems s.leaf s.delSlot s.delNr s.t
             if d.1 ≠ 0 then .inr (.error (d.1, d.2))
             else
              let r := env.search (nextKey s.key) d.2
              if r.1 < 0 then .inr (.error (r.1, r.2.1))
              else .inl ⟨r.2.1, r.2.2.1, r.2.2.2, nextKey s.key,
                false, s.delSlot, 0⟩) := by
          unfold relocTurn
          rw [hKeys]
          dsimp only
          rw [if_neg (by simp [hAt.found.mpr hSome]),
            if_neg hNr]
          rfl
        rw [hTurn]
        dsimp only
        by_cases hZero :
            (env.delItems s.leaf s.delSlot s.delNr s.t).1 = 0
        · rw [if_neg (not_not.mpr hZero)]
          by_cases hError : (env.search (nextKey s.key)
              (env.delItems s.leaf s.delSlot s.delNr s.t).2).1 < 0
          · rw [if_pos hError]
            exact hError.ne
          · rw [if_neg hError]
            have hNext := hAt.next hSome hZero
            have hDeleted := hAt.deleted hSome hZero
            have hLess := congrArg List.length hDeleted.1
            simp only [List.length_append] at hLess
            refine ⟨⟨_, _, _, at_search env hNext.1 hNext.2
              hDeleted.2 _⟩, ?_⟩
            unfold rank
            change 2 * (env.delItems s.leaf s.delSlot s.delNr
              s.t).2.items.length - 0 < _
            omega
        · rw [if_pos hZero]
          exact hZero

/- An item behind the pending ones ends them. -/
theorem At.clear
    {item other : Key × α}
    (hAt : At others s passed run (item :: rest))
    (hBehind : TREE_RELOC_OBJECTID < item.1.objectid)
    (hOther : other ∈ (s.t.leaves.take s.leaf).flatten ++ passed ++
      (item :: rest) ++ (s.t.leaves.drop (s.leaf + 1)).flatten) :
    ¬ InRun other.1 := by
  intro hRun
  rw [List.append_assoc] at hOther
  rcases List.mem_append.mp hOther with hBelow | hAbove
  · exact absurd (hAt.below other hBelow)
      (not_lt.mpr hRun.reloc_le)
  · have hOrder := s.t.ascending
    change (s.t.items).Pairwise _ at hOrder
    rw [hAt.items, List.append_assoc, List.append_assoc] at hOrder
    have hRest := (List.pairwise_append.mp
      (List.pairwise_append.mp hOrder).2.1).2.1
    rcases List.mem_cons.mp hAbove with hSame | hAfter
    · rw [hSame] at hRun
      exact hBehind.ne' hRun.1
    · have hLess := (List.pairwise_cons.mp hRest).1 other hAfter
      rw [Key.lt_iff] at hLess
      have hId := hRun.1
      omega

----------
-- The Result
----------

/- What `reset_balance` returns after the loop. -/
def finish
    (env : LeafEnv α)
    (readDataReloc : Int) :
    Except (Int × Leafy α) (RelocScan (Leafy α) Nat) →
      Int × Leafy α × Bool
  | .error (ret, t) => (ret, t, false)
  | .ok s =>
      let (ret, t) :=
        if s.delNr = 0 then (0, s.t)
        else env.delItems s.leaf s.delSlot s.delNr s.t
      if ret ≠ 0 then (ret, t, false)
      else if readDataReloc ≠ 0 then (readDataReloc, t, false)
      else (0, t, true)

/- A result of 0 is that of a tree that is cleared. -/
def Right
    (env : LeafEnv α)
    (readDataReloc : Int)
    (others : List (Key × α))
    (w : Except (Int × Leafy α) (RelocScan (Leafy α) Nat)) :
    Prop :=
  let result := finish env readDataReloc w
  result.1 = 0 →
    (∀ item ∈ result.2.1.items, ¬ InRun item.1) ∧
      (result.2.1.items.filter fun item => ¬ InRun item.1) =
        others

variable {readDataReloc : Int}

/- If the last deletion clears the tree, the result is right. -/
theorem right_of_last
    {ret : Int}
    {t : Leafy α}
    (hLast :
      (if s.delNr = 0 then (0, s.t)
        else env.delItems s.leaf s.delSlot s.delNr s.t) =
          (ret, t))
    (hClear : ret = 0 → readDataReloc = 0 →
      (∀ item ∈ t.items, ¬ InRun item.1) ∧
        (t.items.filter fun item => ¬ InRun item.1) = others) :
    Right env readDataReloc others (.ok s) := by
  unfold Right finish
  dsimp only
  rw [hLast]
  intro hZero
  by_cases hRet : ret = 0
  · rw [if_neg (not_not.mpr hRet)] at hZero ⊢
    by_cases hRead : readDataReloc = 0
    · rw [if_neg (not_not.mpr hRead)]
      exact hClear hRet hRead
    · rw [if_pos hRead] at hZero
      exact absurd hZero hRead
  · rw [if_pos hRet] at hZero
    exact absurd hZero hRet

/- The loop ends right where no search is stuck. -/
theorem At.right
    {w : Except (Int × Leafy α) (RelocScan (Leafy α) Nat)}
    (hAt : At others s passed run rest)
    (hFree : readDataReloc ≠ 0 ∨ ¬ Stuck s)
    (hEnd : relocTurn env.ops s = .inr w) :
    Right env readDataReloc others w := by
  have hTurn := hAt.turn env
  rw [hEnd] at hTurn
  cases w with
  | error e =>
      intro hZero
      exact absurd hZero hTurn
  | ok b =>
      rcases hTurn with ⟨hRun, hRest, rfl⟩ |
        ⟨item, tail, hRest, hBehind, rfl⟩
      · subst hRun hRest
        refine right_of_last (if_pos hAt.count) ?_
        intro _ hRead
        refine ⟨?_, hAt.others⟩
        intro item hItem hRun
        rcases hFree with hNot | hFree
        · exact hNot hRead
        · refine hFree ⟨?_, ?_, item, hItem, hRun⟩
          · rw [hAt.leaf, hAt.slot]
            simp
          · rw [← Bool.not_eq_true, hAt.found]
            exact fun hNil => hNil rfl
      · subst hRest
        by_cases hSome : run = []
        · subst hSome
          refine right_of_last (if_pos hAt.count) ?_
          intro _ _
          refine ⟨?_, hAt.others⟩
          intro other hOther
          change other ∈ s.t.items at hOther
          rw [hAt.items, List.append_nil,
            ← List.append_assoc] at hOther
          exact hAt.clear hBehind hOther
        · have hNr : s.delNr ≠ 0 := by
            rw [hAt.count]
            exact fun hNil =>
              hSome (List.length_eq_zero_iff.mp hNil)
          refine right_of_last (if_neg hNr) ?_
          intro hZero _
          have hDeleted := hAt.deleted hSome hZero
          refine ⟨?_, hDeleted.2⟩
          intro other hOther
          rw [hDeleted.1] at hOther
          exact hAt.clear hBehind hOther

/- Where a search is stuck, the loop ends. -/
theorem At.stuck
    (env : LeafEnv α)
    (hAt : At others s passed run rest)
    (hStuck : Stuck s) :
    relocTurn env.ops s = .inr (.ok s) ∧ s.delNr = 0 := by
  have hKeys := hAt.leafKeys env
  have hRun : run = [] := by
    by_contra hSome
    have hFound := hAt.found.mpr hSome
    rw [hStuck.2.1] at hFound
    cases hFound
  have hRest : rest = [] := by
    have hLeaf := hStuck.1
    rw [hAt.leaf, hAt.slot, List.length_append,
      List.length_append] at hLeaf
    exact List.length_eq_zero_iff.mp (by omega)
  rw [hRest, List.head?_nil, Option.map_none] at hKeys
  constructor
  · unfold relocTurn
    rw [hKeys]
    dsimp only
    rw [if_pos (by simp [hStuck.2.1])]
  · rw [hAt.count, hRun]
    rfl

/- Every state of the loop is in a leaf. -/
theorem at_keeps
    (a b : RelocScan (Leafy α) Nat)
    (hAt : ∃ others passed run rest,
      @At α others a passed run rest)
    (hTurn : relocTurn env.ops a = .inl b) :
    ∃ others passed run rest, @At α others b passed run rest := by
  rcases hAt with ⟨others, passed, run, rest, hAt⟩
  have hNext := hAt.turn env
  rw [hTurn] at hNext
  exact ⟨others, hNext.1⟩

/- The loop ends, and ends right if no search gets stuck. -/
theorem ends_right
    (hStart : (∃ passed run rest, At others s passed run rest) ∧
      (readDataReloc ≠ 0 ∨
        ∀ b, Loop.Comes (relocTurn env.ops) s b → ¬ Stuck b)) :
    Loop.Ends (relocTurn env.ops)
      (Right env readDataReloc others) s := by
  refine @Loop.ends_of_rank _ _ _ (fun a =>
    (∃ passed run rest, At others a passed run rest) ∧
      (readDataReloc ≠ 0 ∨
        ∀ b, Loop.Comes (relocTurn env.ops) a b → ¬ Stuck b))
    (fun _ => Right env readDataReloc others) rank ?_ ?_ s hStart
  · intro a b hBoth hTurn
    rcases hBoth with ⟨⟨passed, run, rest, hAt⟩, hFree⟩
    have hNext := hAt.turn env
    rw [hTurn] at hNext
    refine ⟨⟨hNext.1, ?_⟩, hNext.2, fun _ hRight => hRight⟩
    exact hFree.imp_right fun hAll c hComes =>
      hAll c (hComes.head hTurn)
  · intro a w hBoth hEnd
    rcases hBoth with ⟨⟨passed, run, rest, hAt⟩, hFree⟩
    exact hAt.right (hFree.imp_right fun hAll =>
      hAll a (Loop.Comes.refl a)) hEnd

end Scan

/- Only one item has a key. -/
theorem filter_key
    {front behind : List (Key × α)}
    {item : Key × α}
    (hOrder :
      Ascending Prod.fst (front ++ item :: behind)) :
    ((front ++ item :: behind).filter fun other =>
      other.1 ≠ item.1) = front ++ behind := by
  rcases List.pairwise_append.mp hOrder with
    ⟨_, hRest, hAcross⟩
  have hBehind := (List.pairwise_cons.mp hRest).1
  rw [List.filter_append, List.filter_cons_of_neg (by simp)]
  congr 1
  · rw [List.filter_eq_self]
    intro other hOther
    exact decide_eq_true
      (hAcross other hOther item List.mem_cons_self).ne
  · rw [List.filter_eq_self]
    intro other hOther
    exact decide_eq_true (hBehind other hOther).ne'

section Start

variable {env : LeafEnv α} {t : Leafy α}
  {s : RelocScan (Leafy α) Nat}

theorem search_ret
    (env : LeafEnv α)
    (key : Key)
    (t : Leafy α) :
    (env.search key t).1 < 0 ∨
      (env.search key t).1 =
        if (searchSlot Prod.fst key t.leaves).items.head?.map
          Prod.fst = some key then 0 else 1 := by
  unfold LeafEnv.search
  dsimp only
  cases hError : env.searchError t.calls with
  | none => exact .inr rfl
  | some error => exact .inl (env.searchError_neg _ _ hError)

/- The loop begins with the balance item removed. -/
theorem Begins.at
    (hBegins : Begins env t s) :
    ∃ passed run rest,
      At ((t.items.filter fun item =>
          item.1 ≠ balanceKey).filter fun item =>
            ¬ InRun item.1) s passed run rest := by
  rcases hBegins with ⟨found, leaf, slot, gone, ret, next, place,
    offset, hFound, hGone, hSearch, _, rfl⟩
  have hRet := search_ret env balanceKey t
  rw [hFound] at hRet
  have hHead : (searchSlot Prod.fst balanceKey
      t.leaves).items.head?.map Prod.fst = some balanceKey := by
    rcases hRet with hNeg | hIs
    · exact absurd hNeg (lt_irrefl 0)
    · by_contra hNot
      rw [if_neg hNot] at hIs
      cases hIs
  have hSlot := hFound
  unfold LeafEnv.search at hSlot
  rw [Prod.mk.injEq, Prod.mk.injEq, Prod.mk.injEq] at hSlot
  rcases hSlot with ⟨_, rfl, rfl, rfl⟩
  cases hItems : (searchSlot Prod.fst balanceKey
      t.leaves).items with
  | nil =>
      rw [hItems] at hHead
      cases hHead
  | cons item tail =>
      rw [hItems, List.head?_cons, Option.map_some,
        Option.some.injEq] at hHead
      have hSome : t.leaves ≠ [] := by
        intro hNil
        rw [hNil] at hItems
        cases hItems
      have hJoin := searchSlot_join Prod.fst balanceKey hSome
      have hWhole := searchSlot_flatten Prod.fst balanceKey
        t.leaves
      rw [hItems] at hJoin hWhole
      have hLeft := env.delItems_items
        { t with calls := t.calls + 1 } _ _ [item] tail _
        (by simpa using hJoin.symm) (by simp)
      rw [List.length_singleton, hGone] at hLeft
      have hOrder := t.ascending
      rw [← hWhole, List.append_assoc, List.cons_append]
        at hOrder
      have hFilter := filter_key hOrder
      rw [hHead] at hFilter
      have hItemsGone : gone.items = t.items.filter fun item =>
          item.1 ≠ balanceKey := by
        rw [hLeft rfl]
        change _ = t.leaves.flatten.filter _
        rw [← hWhole, List.append_assoc (_ ++ _) (_ :: _),
          List.cons_append, hFilter, List.append_assoc (_ ++ _)]
      have hAt := @at_search _ _ env gone relocKey le_rfl
        (fun _ _ hLess => hLess) rfl 0
      rw [hSearch, hItemsGone] at hAt
      exact ⟨_, _, _, hAt⟩

/- Then its result is that of the loop. -/
theorem Begins.reset
    (hBegins : Begins env t s)
    (readDataReloc : Int)
    (fuel : Nat) :
    resetBalance fuel env.ops readDataReloc t =
      (Loop.run (relocTurn env.ops) fuel s).map
        (finish env readDataReloc) := by
  rcases hBegins with ⟨found, leaf, slot, gone, ret, next, place,
    offset, hFound, hGone, hSearch, hRet, rfl⟩
  have hFirst : env.ops.searchSlot balanceKey t =
      (0, found, leaf, slot) := hFound
  have hDel : env.ops.delItems leaf slot 1 found =
      (0, gone) := hGone
  have hNext : env.ops.searchSlot relocKey gone =
      (ret, next, place, offset) := hSearch
  unfold resetBalance
  simp only [hFirst, hDel, hNext, ne_eq, not_true_eq_false,
    if_false, if_neg (not_lt.mpr hRet)]
  cases Loop.run _ fuel _ with
  | none => rfl
  | some w =>
      cases w with
      | error e => rfl
      | ok b =>
          unfold finish
          rw [Option.map_some]
          dsimp only
          rw [apply_ite some, apply_ite some]
          rfl

/- A search for a key that is there is at its item. -/
theorem search_found
    {key : Key}
    {v : α}
    (hIn : (key, v) ∈ t.items) :
    (searchSlot Prod.fst key t.leaves).items.head?.map
      Prod.fst = some key := by
  have hFrom := searchSlot_from key t.filled t.ascending
  have hWhere := (mem_dropWhile_iff t.ascending).mpr
    (And.intro hIn (le_refl key))
  cases hWhole : t.leaves.flatten.dropWhile
      (fun item => decide (item.1 < key)) with
  | nil =>
      rw [hWhole] at hWhere
      cases hWhere
  | cons first rest =>
      have hFirst : first.1 = key := by
        have hOrder := List.Pairwise.sublist
          (List.dropWhile_sublist fun item =>
            decide (item.1 < key)) t.ascending
        have hAbove := (mem_dropWhile_iff t.ascending).mp
          (by rw [hWhole]; exact List.mem_cons_self)
        rw [hWhole] at hOrder hWhere
        rcases List.mem_cons.mp hWhere with hIs | hBehind
        · rw [← hIs]
        · exact absurd
            ((List.pairwise_cons.mp hOrder).1 _ hBehind)
            (not_lt.mpr hAbove.2)
      have hSome := searchSlot_items t.filled t.ascending hWhole
        hFirst
      rcases List.exists_cons_of_ne_nil hSome with
        ⟨item, items, hItems⟩
      rw [hWhole, hItems] at hFrom
      cases hFrom
      rw [hItems, List.head?_cons, Option.map_some, hFirst]

/- The loop begins, or an error is returned before it. -/
theorem begins_or
    {v : α}
    (hBalance : (balanceKey, v) ∈ t.items)
    (readDataReloc : Int) :
    (∃ s, Begins env t s) ∨
      ∃ ret after, ret ≠ 0 ∧
        resetBalance 0 env.ops readDataReloc t =
          some (ret, after, false) := by
  have hRet := search_ret env balanceKey t
  rw [if_pos (search_found hBalance)] at hRet
  rcases hFirst : env.ops.searchSlot balanceKey t with
    ⟨ret, found, leaf, slot⟩
  rcases hDel : env.ops.delItems leaf slot 1 found with
    ⟨ret', gone⟩
  rcases hNext : env.ops.searchSlot relocKey gone with
    ⟨ret'', next, place, offset⟩
  change env.search balanceKey t = _ at hFirst
  rw [hFirst] at hRet
  by_cases hFound : ret = 0
  · subst hFound
    by_cases hGone : ret' = 0
    · subst hGone
      by_cases hError : ret'' < 0
      · refine .inr ⟨ret'', next, hError.ne, ?_⟩
        change env.ops.searchSlot balanceKey t = _ at hFirst
        unfold resetBalance
        simp only [hFirst, hDel, hNext, ne_eq,
          not_true_eq_false, if_false, if_pos hError]
      · exact .inl ⟨_, found, leaf, slot, gone, ret'', next,
          place, offset, hFirst, hDel, hNext,
          not_lt.mp hError, rfl⟩
    · refine .inr ⟨ret', gone, hGone, ?_⟩
      change env.ops.searchSlot balanceKey t = _ at hFirst
      unfold resetBalance
      simp only [hFirst, hDel, ne_eq, not_true_eq_false,
        if_false, if_pos hGone]
  · have hNeg : ret < 0 := by
      rcases hRet with hNeg | hZero
      · exact hNeg
      · exact absurd hZero hFound
    refine .inr ⟨ret, found, hFound, ?_⟩
    change env.ops.searchSlot balanceKey t = _ at hFirst
    unfold resetBalance
    simp only [hFirst, if_pos hFound, if_neg (not_lt.mpr hNeg.le)]

/-
  The pending items are cleared whenever the result is 0 just
  when no search gets stuck, or the data reloc tree cannot be
  read.
-/
theorem resetBalance_clears_iff
    (env : LeafEnv α)
    (readDataReloc : Int)
    (t : Leafy α)
    (v : α)
    (hBalance : (balanceKey, v) ∈ t.items) :
    Clears env readDataReloc t ↔
      readDataReloc ≠ 0 ∨
        ∀ s, Begins env t s →
          ∀ b, Loop.Comes (relocTurn env.ops) s b →
            ¬ Stuck b := by
  constructor
  · intro hClears
    rw [or_iff_not_imp_left]
    intro hZero s hBegins b hComes hStuck
    rcases hClears with ⟨fuel, ret, after, made, hRun, hCleared⟩
    rcases hComes.keeps at_keeps ⟨_, hBegins.at⟩ with
      ⟨others, passed, run, rest, hAt⟩
    rcases hAt.stuck env hStuck with ⟨hEnd, hNr⟩
    rw [hBegins.reset] at hRun
    rcases Option.map_eq_some_iff.mp hRun with
      ⟨w, hLoop, hFinish⟩
    rw [Loop.run_of_comes hLoop hComes hEnd] at hFinish
    have hResult : finish env readDataReloc (.ok b) =
        (0, b.t, true) := by
      unfold finish
      simp only [if_pos hNr, ne_eq, not_true_eq_false, if_false,
        if_neg hZero]
    rw [hResult] at hFinish
    cases hFinish
    rcases hStuck.2.2 with ⟨item, hItem, hRun⟩
    exact (hCleared rfl).1 item hItem hRun
  · intro hFree
    rcases begins_or hBalance readDataReloc with
      ⟨s, hBegins⟩ | ⟨ret, after, hError, hRun⟩
    · have hStart : (∃ passed run rest, At _ s passed run rest) ∧
          (readDataReloc ≠ 0 ∨
            ∀ b, Loop.Comes (relocTurn env.ops) s b →
              ¬ Stuck b) :=
        ⟨hBegins.at, hFree.imp_right fun hAll =>
          hAll s hBegins⟩
      rcases ends_right hStart with ⟨fuel, w, hRun, hRight⟩
      refine ⟨fuel, (finish env readDataReloc w).1,
        (finish env readDataReloc w).2.1,
        (finish env readDataReloc w).2.2, ?_, ?_⟩
      · rw [hBegins.reset, hRun]
        rfl
      · intro hZero
        rcases hRight hZero with ⟨hNone, hOthers⟩
        refine ⟨hNone, ?_⟩
        rw [List.filter_filter] at hOthers
        refine Eq.trans ?_ (hOthers.trans ?_)
        · symm
          rw [List.filter_eq_self]
          intro item hItem
          exact decide_eq_true (hNone item hItem)
        · congr 1
          funext item
          exact (Bool.decide_and (¬ InRun item.1)
            (item.1 ≠ balanceKey)).symm
    · exact ⟨0, ret, after, false, hRun,
        fun hZero => absurd hZero hError⟩

end Start

----------
-- Two Leaves
----------

/- A deletion that moves no item to another leaf. -/
def Leafy.delItems
    (leaf slot nr : Nat)
    (t : Leafy α) : Leafy α where
  leaves :=
    (t.leaves.modify leaf fun items =>
      items.take slot ++ items.drop (slot + nr)).filter
        fun items => !items.isEmpty
  calls := t.calls
  filled := by
    intro items hItems
    simpa using (List.mem_filter.mp hItems).2
  ascending := by
    rw [List.flatten_filter_not_isEmpty]
    refine List.Pairwise.sublist ?_ t.ascending
    by_cases hLess : leaf < t.leaves.length
    · have hWhole : t.leaves.flatten = (t.leaves.take leaf).flatten ++
          (t.leaves[leaf] ++
            (t.leaves.drop (leaf + 1)).flatten) := by
        rw [flatten_parts t.leaves leaf,
          List.getD_eq_getElem _ _ hLess, List.append_assoc]
      rw [hWhole, List.modify_eq_take_cons_drop hLess,
        List.flatten_append, List.flatten_cons]
      refine .append_left (.append_right ?_ _) _
      nth_rewrite 3 [← List.take_append_drop slot t.leaves[leaf]]
      rw [← List.drop_drop]
      exact .append_left (List.drop_sublist nr _) _
    · rw [List.modify_eq_self (not_lt.mp hLess)]

def deleteEnv : LeafEnv α where
  searchError _ := none
  searchError_neg _ _ hError := by cases hError
  delItems leaf slot nr t := (0, t.delItems leaf slot nr)
  delItems_items := by
    intro t front passed gone rest behind hLeaves _ _
    unfold Leafy.items Leafy.delItems
    dsimp only
    have hLess : front.length <
        (front ++ (passed ++ gone ++ rest) :: behind).length := by
      simp
    rw [List.flatten_filter_not_isEmpty, hLeaves,
      List.modify_eq_take_cons_drop hLess]
    simp

/- The pending items begin a leaf, behind the other roots. -/
def apart : Leafy Unit where
  leaves :=
    [[(⟨2, ROOT_ITEM_KEY, 0⟩, ()), (⟨5, ROOT_ITEM_KEY, 0⟩, ()),
      (⟨DATA_RELOC_TREE_OBJECTID, ROOT_ITEM_KEY, 0⟩, ())],
     [(⟨TREE_RELOC_OBJECTID, ROOT_ITEM_KEY, 256⟩, ()),
      (⟨TREE_RELOC_OBJECTID, ROOT_ITEM_KEY, 257⟩, ()),
      (⟨TREE_RELOC_OBJECTID, ROOT_ITEM_KEY, 258⟩, ()),
      (balanceKey, ())]]
  calls := 0
  filled := by decide
  ascending := by decide

/- The result is 0, and no pending item is removed. -/
theorem resetBalance_keeps_pending :
    (balanceKey, ()) ∈ apart.items ∧
      (∀ fuel,
        (resetBalance (fuel + 1) deleteEnv.ops 0 apart).map
            (fun result => (result.1, result.2.1.items.filter
              fun item => InRun item.1)) =
          some (0, apart.items.filter
            fun item => InRun item.1)) ∧
        ¬ Clears deleteEnv 0 apart := by
  refine ⟨by decide, fun fuel => rfl, ?_⟩
  intro hClears
  rcases hClears with ⟨fuel, ret, after, made, hRun, hCleared⟩
  cases fuel with
  | zero => cases hRun
  | succ fuel =>
      cases hRun
      exact (hCleared rfl).1
        (⟨TREE_RELOC_OBJECTID, ROOT_ITEM_KEY, 256⟩, ())
        (by decide) (by decide)

/- The result is an instance of these leaves. -/
theorem resetBalance_clears_apart :
    Clears deleteEnv 0 apart ↔
      (0 : Int) ≠ 0 ∨
        ∀ s, Begins deleteEnv apart s →
          ∀ b, Loop.Comes (relocTurn deleteEnv.ops) s b →
            ¬ Stuck b :=
  resetBalance_clears_iff deleteEnv 0 apart () (by decide)

end BalanceItems

end Reinit

end BtrfsProgs
