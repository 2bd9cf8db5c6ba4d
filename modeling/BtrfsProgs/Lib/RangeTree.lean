import Mathlib

/-
  Ordered collections of disjoint half-open ranges, kept as
  the in-order list of a balanced search tree.

  A `Cursor` is one node of the tree together with the nodes
  on either side of it, so that predecessor and successor
  steps are local.

  Main declarations:
    * `RangeTree.Ordered`
    * `RangeTree.search`, `RangeTree.search_spec` and
      `RangeTree.search_of_mem`
    * `RangeTree.insert`, `RangeTree.insert_spec` and
      `RangeTree.insert_ordered`
-/

----------
-- Ranges and Cursors
----------

/- A value that occupies the half-open range `[lo, hi)`. -/
class Ranged (α : Type) where
  lo : α → Nat
  hi : α → Nat

namespace RangeTree

variable {α : Type} [Ranged α]

open Ranged

/- A node of the tree and the nodes before and after it. -/
structure Cursor (α : Type) where
  before : List α
  node : α
  after : List α
deriving Repr, DecidableEq

namespace Cursor

/- The whole tree seen from a cursor. -/
def tree
    (c : Cursor α) : List α :=
  c.before ++ c.node :: c.after

/- The successor of the node under the cursor. -/
def next
    (c : Cursor α) : Option (Cursor α) :=
  match c.after with
  | [] => none
  | n :: rest => some ⟨c.before ++ [c.node], n, rest⟩

end Cursor

/-
  The first node that is not entirely before `x`: the node
  containing `x`, or else the next one after it.
-/
def search : List α → Nat → Option (Cursor α)
  | [], _ => none
  | n :: rest, x =>
      if hi n ≤ x then
        (search rest x).map fun c =>
          { c with before := n :: c.before }
      else
        some ⟨[], n, rest⟩

/-
  Link a node at its place.  The result is `none` when the
  range of the new node meets the range of an old one.
-/
def insert : List α → α → Option (Cursor α)
  | [], x => some ⟨[], x, []⟩
  | n :: rest, x =>
      if hi n ≤ lo x then
        (insert rest x).map fun c =>
          { c with before := n :: c.before }
      else if hi x ≤ lo n then
        some ⟨[], x, n :: rest⟩
      else
        none

/-
  Ranges are non-empty, pairwise disjoint, and listed in
  ascending order.
-/
structure Ordered
    (t : List α) : Prop where
  nonempty : ∀ n ∈ t, lo n < hi n
  sorted : t.Pairwise fun a b => hi a ≤ lo b

namespace Ordered

theorem nil :
    Ordered ([] : List α) :=
  ⟨by simp, List.Pairwise.nil⟩

theorem append_iff
    {s t : List α} :
    Ordered (s ++ t) ↔
      Ordered s ∧ Ordered t ∧
        ∀ a ∈ s, ∀ b ∈ t, hi a ≤ lo b := by
  constructor
  · intro hOrdered
    rcases List.pairwise_append.mp hOrdered.sorted with
      ⟨hLeft, hRight, hCross⟩
    refine ⟨⟨?_, hLeft⟩, ⟨?_, hRight⟩, hCross⟩
    · intro n hn
      exact hOrdered.nonempty n (List.mem_append_left _ hn)
    · intro n hn
      exact hOrdered.nonempty n (List.mem_append_right _ hn)
  · rintro ⟨hLeft, hRight, hCross⟩
    refine ⟨?_, List.pairwise_append.mpr
      ⟨hLeft.sorted, hRight.sorted, hCross⟩⟩
    intro n hn
    rcases List.mem_append.mp hn with h | h
    · exact hLeft.nonempty n h
    · exact hRight.nonempty n h

theorem cons_iff
    {n : α}
    {t : List α} :
    Ordered (n :: t) ↔
      lo n < hi n ∧ Ordered t ∧ ∀ b ∈ t, hi n ≤ lo b := by
  constructor
  · intro hOrdered
    rcases List.pairwise_cons.mp hOrdered.sorted with
      ⟨hHead, hTail⟩
    refine ⟨hOrdered.nonempty n List.mem_cons_self,
      ⟨?_, hTail⟩, hHead⟩
    intro m hm
    exact hOrdered.nonempty m (List.mem_cons_of_mem _ hm)
  · rintro ⟨hNode, hTail, hCross⟩
    refine ⟨?_, List.pairwise_cons.mpr
      ⟨hCross, hTail.sorted⟩⟩
    intro m hm
    rcases List.mem_cons.mp hm with rfl | h
    · exact hNode
    · exact hTail.nonempty m h

/- A cursor's tree, unfolded into its three parts. -/
theorem cursor_iff
    {before after : List α}
    {n : α} :
    Ordered (before ++ n :: after) ↔
      Ordered before ∧ Ordered after ∧ lo n < hi n ∧
        (∀ a ∈ before, hi a ≤ lo n) ∧
        (∀ b ∈ after, hi n ≤ lo b) ∧
        (∀ a ∈ before, ∀ b ∈ after, hi a ≤ lo b) := by
  rw [append_iff, cons_iff]
  constructor
  · rintro ⟨hBefore, ⟨hNode, hAfter, hNodeAfter⟩, hCross⟩
    refine ⟨hBefore, hAfter, hNode, ?_, hNodeAfter, ?_⟩
    · intro a ha
      exact hCross a ha n List.mem_cons_self
    · intro a ha b hb
      exact hCross a ha b (List.mem_cons_of_mem _ hb)
  · rintro ⟨hBefore, hAfter, hNode, hLow, hHigh, hCross⟩
    refine ⟨hBefore, ⟨hNode, hAfter, hHigh⟩, ?_⟩
    intro a ha b hb
    rcases List.mem_cons.mp hb with rfl | h
    · exact hLow a ha
    · exact hCross a ha b h

end Ordered

----------
-- Searching
----------

variable {t : List α}

/- Every node is entirely before a point nothing reaches. -/
theorem search_eq_none
    {x : Nat}
    (hSearch : search t x = none) :
    ∀ n ∈ t, hi n ≤ x := by
  induction t with
  | nil => simp
  | cons n rest ih =>
      unfold search at hSearch
      split at hSearch
      · rename_i hBefore
        intro m hm
        rcases List.mem_cons.mp hm with rfl | h
        · exact hBefore
        · exact ih (by simpa using hSearch) m h
      · simp at hSearch

variable {c : Cursor α}

/-
  A search stops at the first node that reaches past `x`.
-/
theorem search_spec
    {x : Nat}
    (hSearch : search t x = some c) :
    t = c.tree ∧ (∀ a ∈ c.before, hi a ≤ x) ∧
      x < hi c.node := by
  induction t generalizing c with
  | nil => simp [search] at hSearch
  | cons n rest ih =>
      unfold search at hSearch
      split at hSearch
      · rename_i hBefore
        rcases Option.map_eq_some_iff.mp hSearch with
          ⟨d, hRest, rfl⟩
        rcases ih hRest with ⟨rfl, hLow, hReach⟩
        refine ⟨by simp [Cursor.tree], ?_, hReach⟩
        intro a ha
        rcases List.mem_cons.mp ha with rfl | h
        · exact hBefore
        · exact hLow a h
      · rename_i hReach
        obtain rfl := Option.some.inj hSearch
        refine ⟨by simp [Cursor.tree], by simp, ?_⟩
        exact Nat.lt_of_not_le hReach

/- A search stops at the node that holds `x`. -/
theorem search_of_mem
    (hOrdered : Ordered t)
    {n : α}
    (hn : n ∈ t)
    {x : Nat}
    (hLow : lo n ≤ x)
    (hHigh : x < hi n) :
    ∃ c : Cursor α, search t x = some c ∧ c.node = n := by
  cases hSearch : search t x with
  | none =>
      have hBefore := search_eq_none hSearch n hn
      omega
  | some c =>
      rcases search_spec hSearch with ⟨hTree, hBefore, hReach⟩
      refine ⟨c, rfl, ?_⟩
      rw [hTree] at hOrdered hn
      rcases Ordered.cursor_iff.mp hOrdered with
        ⟨_, _, _, _, hAfter, _⟩
      rcases List.mem_append.mp hn with h | h
      · have hEnd := hBefore _ h
        omega
      · rcases List.mem_cons.mp h with h | h
        · exact h.symm
        · have hStart := hAfter _ h
          omega

----------
-- Linking
----------

variable {x : α}

/- A node goes between the nodes before and after it. -/
theorem insert_append
    {before after : List α}
    (hBefore : ∀ a ∈ before, hi a ≤ lo x)
    (hAfter : ∀ b ∈ after, hi x ≤ lo b)
    (hNonempty : ∀ b ∈ after, lo x < hi b) :
    insert (before ++ after) x =
      some ⟨before, x, after⟩ := by
  induction before with
  | nil =>
      cases after with
      | nil => rfl
      | cons n rest =>
          have hLow := hNonempty n List.mem_cons_self
          have hHigh := hAfter n List.mem_cons_self
          rw [List.nil_append, insert,
            if_neg (by omega), if_pos hHigh]
  | cons n rest ih =>
      have hHead := hBefore n List.mem_cons_self
      have hRest := ih fun a ha =>
        hBefore a (List.mem_cons_of_mem _ ha)
      rw [List.cons_append, insert, if_pos hHead, hRest]
      rfl

/- A successful link places the node in the old tree. -/
theorem insert_spec
    (hInsert : insert t x = some c) :
    c.node = x ∧ t = c.before ++ c.after := by
  induction t generalizing c with
  | nil =>
      obtain rfl := Option.some.inj hInsert
      exact ⟨rfl, rfl⟩
  | cons n rest ih =>
      unfold insert at hInsert
      split at hInsert
      · rcases Option.map_eq_some_iff.mp hInsert with
          ⟨d, hRest, rfl⟩
        rcases ih hRest with ⟨hNode, rfl⟩
        exact ⟨hNode, rfl⟩
      · split at hInsert
        · obtain rfl := Option.some.inj hInsert
          exact ⟨rfl, rfl⟩
        · simp at hInsert

/- The nodes after a link are the old ones and the new one. -/
theorem insert_mem_iff
    (hInsert : insert t x = some c)
    (n : α) :
    n ∈ c.tree ↔ n = x ∨ n ∈ t := by
  rcases insert_spec hInsert with ⟨rfl, rfl⟩
  simp only [Cursor.tree, List.mem_append, List.mem_cons]
  tauto

/- A link keeps the tree in order. -/
theorem insert_ordered
    (hOrdered : Ordered t)
    (hNonempty : lo x < hi x)
    (hInsert : insert t x = some c) :
    Ordered c.tree := by
  induction t generalizing c with
  | nil =>
      obtain rfl := Option.some.inj hInsert
      exact Ordered.cons_iff.mpr
        ⟨hNonempty, Ordered.nil, by simp⟩
  | cons n rest ih =>
      rcases Ordered.cons_iff.mp hOrdered with
        ⟨hNode, hRest, hAfter⟩
      unfold insert at hInsert
      split at hInsert
      · rename_i hBefore
        rcases Option.map_eq_some_iff.mp hInsert with
          ⟨d, hInner, rfl⟩
        refine Ordered.cons_iff.mpr
          ⟨hNode, ih hRest hInner, ?_⟩
        intro m hm
        rcases (insert_mem_iff hInner m).mp hm with rfl | hm
        · exact hBefore
        · exact hAfter m hm
      · split at hInsert
        · rename_i hHigh
          obtain rfl := Option.some.inj hInsert
          refine Ordered.cons_iff.mpr
            ⟨hNonempty, hOrdered, ?_⟩
          intro m hm
          rcases List.mem_cons.mp hm with rfl | hm
          · exact hHigh
          · have hFar := hAfter m hm
            change hi x ≤ lo m
            omega
        · simp at hInsert

/- A link fails only at a node that meets the new range. -/
theorem insert_eq_none
    (hInsert : insert t x = none) :
    ∃ n ∈ t, lo x < hi n ∧ lo n < hi x := by
  induction t with
  | nil => simp [insert] at hInsert
  | cons n rest ih =>
      unfold insert at hInsert
      split at hInsert
      · rcases ih (by simpa using hInsert) with
          ⟨m, hm, hMeets⟩
        exact ⟨m, List.mem_cons_of_mem _ hm, hMeets⟩
      · split at hInsert
        · simp at hInsert
        · exact ⟨n, List.mem_cons_self, by omega, by omega⟩

/- Nodes listed in order are all different. -/
theorem Ordered.nodup
    (hOrdered : Ordered t) :
    t.Nodup := by
  induction t with
  | nil => exact List.nodup_nil
  | cons n rest ih =>
      rcases Ordered.cons_iff.mp hOrdered with
        ⟨hNode, hRest, hAfter⟩
      refine List.nodup_cons.mpr ⟨?_, ih hRest⟩
      intro hMem
      have hFar := hAfter n hMem
      omega

/- Two nodes are the same or have disjoint ranges. -/
theorem Ordered.apart
    (hOrdered : Ordered t)
    {a b : α}
    (ha : a ∈ t)
    (hb : b ∈ t) :
    a = b ∨ hi a ≤ lo b ∨ hi b ≤ lo a := by
  induction t with
  | nil => cases ha
  | cons n rest ih =>
      rcases Ordered.cons_iff.mp hOrdered with
        ⟨_, hRest, hAfter⟩
      rcases List.mem_cons.mp ha with rfl | hIn
      · rcases List.mem_cons.mp hb with rfl | hIn'
        · exact Or.inl rfl
        · exact Or.inr (Or.inl (hAfter b hIn'))
      · rcases List.mem_cons.mp hb with rfl | hIn'
        · exact Or.inr (Or.inr (hAfter a hIn))
        · exact ih hRest hIn hIn'

theorem Ordered.sublist
    {s t : List α}
    (hOrdered : Ordered t)
    (hSub : s.Sublist t) :
    Ordered s where
  nonempty := fun n hn => hOrdered.nonempty n (hSub.subset hn)
  sorted := hOrdered.sorted.sublist hSub

end RangeTree
