import Mathlib

/-
  A sorted list in pieces, and the place of a key in it.

  A search goes to the last piece that begins at the key or
  before it, so the place can be behind the items of a piece.

  Main declarations:
    * `Slot` and `searchSlot`
    * `searchSlot_join`
    * `searchSlot_before` and `searchSlot_from`
    * `searchSlot_items`
-/

----------
-- Lists in Key Order
----------

namespace LeafList

variable {K α : Type}
variable [LinearOrder K]
variable (keyOf : α → K)

/- The keys are in ascending order. -/
def Ascending
    (items : List α) : Prop :=
  items.Pairwise fun a b => keyOf a < keyOf b

instance
    (items : List α) : Decidable (Ascending keyOf items) :=
  inferInstanceAs
    (Decidable (items.Pairwise fun a b => keyOf a < keyOf b))

variable {keyOf}
variable {key : K}
variable {items : List α}

/- In order, what a lower part satisfies comes first. -/
theorem takeWhile_eq_filter
    {p : α → Bool}
    (hAscending : Ascending keyOf items)
    (hDown : ∀ a b, a ∈ items → b ∈ items →
      keyOf a < keyOf b → p b = true → p a = true) :
    items.takeWhile p = items.filter p := by
  induction items with
  | nil => rfl
  | cons item items ih =>
      rcases List.pairwise_cons.mp hAscending with
        ⟨hLater, hRest⟩
      cases hHere : p item with
      | true =>
          rw [List.takeWhile_cons_of_pos hHere,
            List.filter_cons_of_pos hHere,
            ih hRest fun a b ha hb =>
              hDown a b (List.mem_cons_of_mem _ ha)
                (List.mem_cons_of_mem _ hb)]
      | false =>
          have hNone : items.filter p = [] := by
            rw [List.filter_eq_nil_iff]
            intro b hb hIs
            have hFirst := hDown item b List.mem_cons_self
              (List.mem_cons_of_mem _ hb) (hLater b hb) hIs
            rw [hHere] at hFirst
            cases hFirst
          rw [List.takeWhile_cons_of_neg (by simp [hHere]),
            List.filter_cons_of_neg (by simp [hHere]), hNone]

/- What is left from a key on is not below the key. -/
theorem mem_dropWhile_iff
    (hAscending : Ascending keyOf items)
    {item : α} :
    item ∈ items.dropWhile (fun a => keyOf a < key) ↔
      item ∈ items ∧ key ≤ keyOf item := by
  induction items with
  | nil => simp
  | cons first items ih =>
      rcases List.pairwise_cons.mp hAscending with
        ⟨hLater, hRest⟩
      by_cases hBelow : keyOf first < key
      · rw [List.dropWhile_cons_of_pos (by simpa using hBelow),
          ih hRest, List.mem_cons]
        constructor
        · exact fun hBoth => ⟨.inr hBoth.1, hBoth.2⟩
        · intro hBoth
          rcases hBoth.1 with rfl | hIn
          · exact absurd hBelow (not_lt.mpr hBoth.2)
          · exact ⟨hIn, hBoth.2⟩
      · rw [List.dropWhile_cons_of_neg (by simpa using hBelow)]
        constructor
        · intro hIn
          refine ⟨hIn, ?_⟩
          rcases List.mem_cons.mp hIn with rfl | hIn
          · exact not_lt.mp hBelow
          · exact (not_lt.mp hBelow).trans (hLater _ hIn).le
        · exact fun hBoth => hBoth.1

/- A key is that of one item. -/
theorem Ascending.inj
    (hAscending : Ascending keyOf items)
    {a b : α}
    (ha : a ∈ items)
    (hb : b ∈ items)
    (hSame : keyOf a = keyOf b) :
    a = b := by
  have hKeys : (items.map keyOf).Nodup :=
    (List.pairwise_map.mpr hAscending).imp ne_of_lt
  exact List.inj_on_of_nodup_map hKeys ha hb hSame

theorem Ascending.nodup
    (hAscending : Ascending keyOf items) :
    items.Nodup :=
  hAscending.imp fun hLess hSame => by
    rw [hSame] at hLess
    exact lt_irrefl _ hLess

----------
-- Places
----------

/-
  A place: the pieces before, the items of its piece that are
  passed and those to come, and the pieces behind.
-/
structure Slot (α : Type) where
  front : List (List α)
  passed : List α
  items : List α
  leaves : List (List α)
deriving Repr, DecidableEq

variable (keyOf)

/- The first item of a piece is not behind a key. -/
def startsBy
    (key : K)
    (leaf : List α) : Bool :=
  leaf.head?.any fun item => keyOf item ≤ key

/- The place of the first item of a piece that is not below. -/
def searchSlot
    (key : K) :
    List (List α) → Slot α
  | [] => ⟨[], [], [], []⟩
  | leaf :: leaves =>
      if leaves.head?.any (startsBy keyOf key) then
        let slot := searchSlot key leaves
        { slot with front := leaf :: slot.front }
      else
        { front := []
          passed := leaf.takeWhile fun item => keyOf item < key
          items := leaf.dropWhile fun item => keyOf item < key
          leaves := leaves }

variable {keyOf}
variable {leaves : List (List α)}

theorem searchSlot_cons_of_pos
    {leaf : List α}
    (hBy : leaves.head?.any (startsBy keyOf key) = true) :
    searchSlot keyOf key (leaf :: leaves) =
      { searchSlot keyOf key leaves with
        front := leaf :: (searchSlot keyOf key leaves).front } :=
  if_pos hBy

theorem searchSlot_cons_of_neg
    {leaf : List α}
    (hBy : ¬ leaves.head?.any (startsBy keyOf key) = true) :
    searchSlot keyOf key (leaf :: leaves) =
      { front := []
        passed := leaf.takeWhile fun item => keyOf item < key
        items := leaf.dropWhile fun item => keyOf item < key
        leaves := leaves } :=
  if_neg hBy

/- The parts of a place make up the pieces. -/
theorem searchSlot_join
    (keyOf : α → K)
    (key : K)
    (hSome : leaves ≠ []) :
    (searchSlot keyOf key leaves).front ++
        ((searchSlot keyOf key leaves).passed ++
            (searchSlot keyOf key leaves).items) ::
          (searchSlot keyOf key leaves).leaves =
      leaves := by
  induction leaves with
  | nil => exact absurd rfl hSome
  | cons leaf leaves ih =>
      by_cases hBy : leaves.head?.any (startsBy keyOf key) = true
      · have hRest : leaves ≠ [] := by
          intro hNil
          rw [hNil] at hBy
          cases hBy
        rw [searchSlot_cons_of_pos hBy]
        exact congrArg (leaf :: ·) (ih hRest)
      · rw [searchSlot_cons_of_neg hBy]
        dsimp only
        rw [List.takeWhile_append_dropWhile, List.nil_append]

theorem searchSlot_flatten
    (keyOf : α → K)
    (key : K)
    (leaves : List (List α)) :
    (searchSlot keyOf key leaves).front.flatten ++
        (searchSlot keyOf key leaves).passed ++
        (searchSlot keyOf key leaves).items ++
        (searchSlot keyOf key leaves).leaves.flatten =
      leaves.flatten := by
  cases leaves with
  | nil => rfl
  | cons leaf leaves =>
      have hJoin := searchSlot_join keyOf key
        (List.cons_ne_nil leaf leaves)
      have hFlat := congrArg List.flatten hJoin
      rw [List.flatten_append, List.flatten_cons] at hFlat
      rw [← hFlat]
      simp only [List.append_assoc]

/- A piece behind the place begins behind the key. -/
theorem searchSlot_behind
    (keyOf : α → K)
    (key : K)
    (leaves : List (List α)) :
    ¬ (searchSlot keyOf key leaves).leaves.head?.any
      (startsBy keyOf key) = true := by
  induction leaves with
  | nil => exact Bool.false_ne_true
  | cons leaf leaves ih =>
      by_cases hBy : leaves.head?.any (startsBy keyOf key) = true
      · rw [searchSlot_cons_of_pos hBy]
        exact ih
      · rw [searchSlot_cons_of_neg hBy]
        exact hBy

/- The search points to the first item that is not before. -/
theorem searchSlot_from
    (key : K)
    (hNonempty : ∀ leaf ∈ leaves, leaf ≠ [])
    (hAscending : Ascending keyOf leaves.flatten) :
    (searchSlot keyOf key leaves).items ++
        (searchSlot keyOf key leaves).leaves.flatten =
      leaves.flatten.dropWhile fun item => keyOf item < key := by
  induction leaves with
  | nil => rfl
  | cons leaf leaves ih =>
      unfold Ascending at hAscending
      rw [List.flatten_cons, List.pairwise_append] at hAscending
      rcases hAscending with ⟨_, hRest, hAcross⟩
      have hFilled : ∀ leaf ∈ leaves, leaf ≠ [] :=
        fun l hl => hNonempty l (List.mem_cons_of_mem _ hl)
      rw [List.flatten_cons]
      by_cases hBy : leaves.head?.any (startsBy keyOf key) = true
      · rw [searchSlot_cons_of_pos hBy]
        dsimp only
        rw [ih hFilled hRest]
        cases leaves with
        | nil => cases hBy
        | cons next leaves =>
            rcases List.exists_cons_of_ne_nil
              (hFilled next List.mem_cons_self) with
              ⟨first, others, rfl⟩
            have hFirst : keyOf first ≤ key := by
              simpa [startsBy] using hBy
            have hAll : ∀ a ∈ leaf,
                decide (keyOf a < key) = true :=
              fun a ha => decide_eq_true
                ((hAcross a ha first (List.mem_append_left _
                  List.mem_cons_self)).trans_le hFirst)
            rw [List.dropWhile_append_of_pos hAll]
      · rw [searchSlot_cons_of_neg hBy]
        have hBehind : leaves.flatten.dropWhile
            (fun item => decide (keyOf item < key)) =
              leaves.flatten := by
          cases leaves with
          | nil => rfl
          | cons next leaves =>
              rcases List.exists_cons_of_ne_nil
                (hFilled next List.mem_cons_self) with
                ⟨first, others, rfl⟩
              have hFirst : key < keyOf first := by
                simpa [startsBy] using hBy
              rw [List.flatten_cons, List.cons_append,
                List.dropWhile_cons_of_neg]
              simpa using hFirst.le
        rw [List.dropWhile_append]
        split_ifs with hEmpty
        · rw [List.isEmpty_iff] at hEmpty
          rw [hEmpty, hBehind, List.nil_append]
        · rfl

/- The items before the place are below the key. -/
theorem searchSlot_before
    (key : K)
    (hNonempty : ∀ leaf ∈ leaves, leaf ≠ [])
    (hAscending : Ascending keyOf leaves.flatten) :
    (searchSlot keyOf key leaves).front.flatten ++
        (searchSlot keyOf key leaves).passed =
      leaves.flatten.takeWhile fun item => keyOf item < key := by
  have hWhole := searchSlot_flatten keyOf key leaves
  rw [List.append_assoc, searchSlot_from key hNonempty
    hAscending] at hWhole
  refine List.append_cancel_right (hWhole.trans ?_)
  exact (List.takeWhile_append_dropWhile).symm

/- A place between what is below the key and what is not. -/
theorem searchSlot_parts
    {below above : List α}
    (hNonempty : ∀ leaf ∈ leaves, leaf ≠ [])
    (hAscending : Ascending keyOf leaves.flatten)
    (hParts : leaves.flatten = below ++ above)
    (hBelow : ∀ item ∈ below, keyOf item < key)
    (hAbove : ∀ item ∈ above, key ≤ keyOf item) :
    (searchSlot keyOf key leaves).front.flatten ++
          (searchSlot keyOf key leaves).passed = below ∧
      (searchSlot keyOf key leaves).items ++
          (searchSlot keyOf key leaves).leaves.flatten =
        above := by
  have hPass : ∀ item ∈ below,
      decide (keyOf item < key) = true :=
    fun item hItem => decide_eq_true (hBelow item hItem)
  have hStay : above.dropWhile
      (fun item => decide (keyOf item < key)) = above := by
    cases above with
    | nil => rfl
    | cons first rest =>
        rw [List.dropWhile_cons_of_neg]
        simpa using hAbove first List.mem_cons_self
  have hFrom := searchSlot_from key hNonempty hAscending
  rw [hParts, List.dropWhile_append_of_pos hPass, hStay] at hFrom
  refine ⟨?_, hFrom⟩
  have hWhole := searchSlot_flatten keyOf key leaves
  rw [List.append_assoc, hFrom, hParts] at hWhole
  exact List.append_cancel_right hWhole

/- A search for the first key of what is left finds its item. -/
theorem searchSlot_items
    {first : α}
    {rest : List α}
    (hNonempty : ∀ leaf ∈ leaves, leaf ≠ [])
    (hAscending : Ascending keyOf leaves.flatten)
    (hFirst :
      leaves.flatten.dropWhile (fun item => keyOf item < key) =
        first :: rest)
    (hKey : keyOf first = key) :
    (searchSlot keyOf key leaves).items ≠ [] := by
  intro hNone
  have hFrom := searchSlot_from key hNonempty hAscending
  have hBehind := searchSlot_behind keyOf key leaves
  rw [hNone, List.nil_append, hFirst] at hFrom
  -- the first item is the first of the piece behind
  cases hLeaves : (searchSlot keyOf key leaves).leaves with
  | nil =>
      rw [hLeaves] at hFrom
      cases hFrom
  | cons leaf behind =>
      have hIn : leaf ∈ leaves := by
        have hSome : leaves ≠ [] := by
          intro hNil
          rw [hNil] at hLeaves
          cases hLeaves
        rw [← searchSlot_join keyOf key hSome, hLeaves]
        simp
      rcases List.exists_cons_of_ne_nil (hNonempty leaf hIn) with
        ⟨other, others, rfl⟩
      rw [hLeaves] at hFrom hBehind
      cases hFrom
      rw [← hKey] at hBehind
      exact hBehind (by simp [startsBy])

end LeafList
