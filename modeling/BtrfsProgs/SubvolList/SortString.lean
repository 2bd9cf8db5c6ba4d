import BtrfsProgs.Lib.CText
import BtrfsProgs.SubvolList.FilterSort

/-
  `btrfs_list_parse_sort_string`, from `btrfs-list.c`.

  Main declarations:
    * `setupComparer` and `parseSortString`
    * `Item` and `Exact`
    * `parseSortString_exact_iff`
-/

----------
-- The Functions
----------

namespace BtrfsProgs

namespace SubvolList

/- `all_sort_items`. -/
def ListComp.name : ListComp → List UInt8
  | .rootid => [114, 111, 111, 116, 105, 100]
  | .ogen => [111, 103, 101, 110]
  | .gen => [103, 101, 110]
  | .path => [112, 97, 116, 104]

def allSortItems : List ListComp :=
  [.rootid, .ogen, .gen, .path]

namespace SortString

/- `btrfs_list_get_sort_item`; `none` is -1. -/
def getSortItem
    (sort_name : List UInt8) : Option ListComp :=
  allSortItems.find? fun item => item.name = sort_name

/-
  `struct btrfs_list_comparer_set`; `total` is the length of
  `comps`, and an entry with no `comp_func` is `none`.
-/
structure ComparerSet where
  comps : List (Option Comparer)
  ncomps : Nat

/- `BTRFS_LIST_NCOMPS_INCREASE`. -/
def NCOMPS_INCREASE : Nat := 2 * 4

def allocComparerSet : ComparerSet :=
  ⟨List.replicate NCOMPS_INCREASE none, 0⟩

/- The set with room for one more. -/
def ComparerSet.grow
    (set : ComparerSet) : ComparerSet :=
  if set.ncomps = set.comps.length then
    { set with
      comps := set.comps ++ List.replicate NCOMPS_INCREASE none }
  else set

/- `btrfs_list_setup_comparer`; `none` is a `BUG_ON`. -/
def setupComparer
    (set : ComparerSet)
    (comparer : Option ListComp)
    (is_descending : Bool) : Option ComparerSet :=
  match comparer with
  | none => none
  | some item =>
      if set.comps.length < set.ncomps then none
      else
        match set.grow.comps[set.ncomps]? with
        | some none =>
            some
              { comps := set.grow.comps.set set.ncomps
                  (some ⟨item, is_descending⟩)
                ncomps := set.ncomps + 1 }
        | _ => none

/- `flag` after the inner loop. -/
def flagged
    (p : List UInt8) : Bool :=
  allSortItems.any fun item => item.name = p ∨ item.name = p.tail

/- The outer loop, for the tokens that are left. -/
def sortStringLoop :
    List (List UInt8) → ComparerSet → Option (Int × ComparerSet)
  | [], comps => some (0, comps)
  | p :: tokens, comps =>
      if flagged p = false then some (-1, comps)
      else
        let (order, p) := CText.sign p
        match setupComparer comps (getSortItem p) order with
        | none => none
        | some comps => sortStringLoop tokens comps

/- `btrfs_list_parse_sort_string`. -/
def parseSortString
    (opt_arg : List UInt8)
    (comps : ComparerSet) : Option (Int × ComparerSet) :=
  sortStringLoop (CText.strtok 44 opt_arg) comps

----------
-- The Grammar
----------

/- The comparers of a set, with nothing behind them. -/
def ComparerSet.Holds
    (set : ComparerSet)
    (comps : List Comparer) : Prop :=
  set.ncomps = comps.length ∧ ∃ spare,
    set.comps = comps.map some ++ List.replicate spare none

/- A name with or without a sign, and the comparer it is for. -/
inductive Item : List UInt8 → Comparer → Prop
  | plain (item : ListComp) : Item item.name ⟨item, false⟩
  | plus (item : ListComp) : Item (43 :: item.name) ⟨item, false⟩
  | minus (item : ListComp) : Item (45 :: item.name) ⟨item, true⟩

/-
  Just the strings of the grammar give 0 and their comparers,
  in order, and the others -1.
-/
def Exact
    (s : List UInt8) : Prop :=
  ∀ set comps, ComparerSet.Holds set comps →
    (∀ items, List.Forall₂ Item (CText.strtok 44 s) items →
      ∃ after, parseSortString s set = some (0, after) ∧
        after.Holds (comps ++ items)) ∧
      ((¬ ∃ items, List.Forall₂ Item (CText.strtok 44 s) items) →
        ∃ after, parseSortString s set = some (-1, after))

/- One byte before a name, which makes it no item. -/
def Mistaken
    (token : List UInt8) : Prop :=
  (¬ ∃ comparer, Item token comparer) ∧
    ∃ b, ∃ item : ListComp, token = b :: item.name

----------
-- One Token
----------

theorem setupComparer_holds
    {set : ComparerSet}
    {comps : List Comparer}
    (hSet : set.Holds comps)
    (item : ListComp)
    (is_descending : Bool) :
    ∃ after,
      setupComparer set (some item) is_descending = some after ∧
        after.Holds (comps ++ [⟨item, is_descending⟩]) := by
  rcases hSet with ⟨hCount, spare, hComps⟩
  have hLength : set.comps.length = comps.length + spare := by
    simp [hComps]
  have hGrown : ∃ more, set.grow.comps =
      comps.map some ++ none :: List.replicate more none := by
    unfold ComparerSet.grow
    cases spare with
    | zero =>
        rw [if_pos (by omega)]
        exact ⟨7, by simp [hComps, NCOMPS_INCREASE]⟩
    | succ more =>
        rw [if_neg (by omega)]
        exact ⟨more, hComps⟩
  rcases hGrown with ⟨more, hGrown⟩
  have hNext : set.grow.comps[set.ncomps]? = some none := by
    rw [hGrown, hCount, List.getElem?_append_right (by simp)]
    simp
  have hRun : setupComparer set (some item) is_descending =
      some
        { comps := set.grow.comps.set set.ncomps
            (some ⟨item, is_descending⟩)
          ncomps := set.ncomps + 1 } := by
    unfold setupComparer
    dsimp only
    rw [if_neg (by omega), hNext]
  refine ⟨_, hRun, by simp [hCount], more, ?_⟩
  simp [hGrown, hCount]

theorem getSortItem_name
    (item : ListComp) :
    getSortItem item.name = some item := by
  cases item <;> decide

theorem sign_name
    (item : ListComp) :
    CText.sign item.name = (false, item.name) := by
  cases item <;> rfl

theorem flagged_iff
    {token : List UInt8} :
    flagged token = true ↔
      ∃ item : ListComp, item.name = token ∨
        item.name = token.tail := by
  have hAll : ∀ item : ListComp, item ∈ allSortItems := by
    intro item
    cases item <;> decide
  simp [flagged, hAll]

/- What the code makes of a token of the grammar. -/
theorem item_read
    {token : List UInt8}
    {comparer : Comparer}
    (hItem : Item token comparer) :
    flagged token = true ∧ (CText.sign token).1 =
        comparer.is_descending ∧
      getSortItem (CText.sign token).2 =
        some comparer.comp_func := by
  rw [flagged_iff]
  cases hItem with
  | plain item =>
      rw [sign_name]
      exact ⟨⟨item, .inl rfl⟩, rfl, getSortItem_name item⟩
  | plus item
  | minus item =>
      exact ⟨⟨item, .inr rfl⟩, rfl, getSortItem_name item⟩

theorem name_ne_nil
    (item : ListComp) :
    item.name ≠ [] := by
  cases item <;> decide

/- The code takes any byte before a name for its sign. -/
theorem mistaken_iff
    {token : List UInt8}
    (hNone : ¬ ∃ comparer, Item token comparer) :
    Mistaken token ↔ flagged token = true := by
  rw [flagged_iff]
  constructor
  · intro hMistaken
    rcases hMistaken.2 with ⟨b, item, rfl⟩
    exact ⟨item, .inr rfl⟩
  · intro hNamed
    rcases hNamed with ⟨item, rfl | hTail⟩
    · exact absurd ⟨_, .plain item⟩ hNone
    · cases token with
      | nil => exact absurd hTail (name_ne_nil item)
      | cons b token => exact ⟨hNone, b, item, by rw [hTail]; rfl⟩

theorem getSortItem_mistaken
    {token : List UInt8}
    (hMistaken : Mistaken token) :
    getSortItem (CText.sign token).2 = none := by
  rcases hMistaken with ⟨hNone, b, item, rfl⟩
  have hPlus : b ≠ 43 := by
    rintro rfl
    exact hNone ⟨_, .plus item⟩
  have hMinus : b ≠ 45 := by
    rintro rfl
    exact hNone ⟨_, .minus item⟩
  have hSign : CText.sign (b :: item.name) =
      (false, b :: item.name) := by
    unfold CText.sign
    split <;> simp_all
  rw [hSign]
  cases hFound : getSortItem (b :: item.name) with
  | none => rfl
  | some other =>
      have hName := List.find?_some hFound
      refine absurd ⟨⟨other, false⟩, ?_⟩ hNone
      rw [← of_decide_eq_true hName]
      exact .plain other

----------
-- All Tokens
----------

section Tokens

variable {token : List UInt8}
  {before after : List (List UInt8)} {items comps : List Comparer} {set : ComparerSet}

theorem sortStringLoop_items
    (hItems : List.Forall₂ Item before items)
    (hSet : set.Holds comps)
    (after : List (List UInt8)) :
    ∃ set', set'.Holds (comps ++ items) ∧
      sortStringLoop (before ++ after) set =
        sortStringLoop after set' := by
  induction hItems generalizing set comps with
  | nil => exact ⟨set, by rwa [List.append_nil], rfl⟩
  | cons hItem hItems ih =>
      rename_i token comparer before items
      rcases item_read hItem with ⟨hFlag, hOrder, hFound⟩
      rcases setupComparer_holds hSet comparer.comp_func
        comparer.is_descending with ⟨next, hNext, hHolds⟩
      rcases ih hHolds with ⟨set', hSet', hLoop⟩
      refine ⟨set', by simpa using hSet', ?_⟩
      rw [List.cons_append, sortStringLoop, hFlag,
        if_neg (by decide)]
      dsimp only
      rw [hFound, hOrder, hNext]
      exact hLoop

/- The first token that is no item, if there is one. -/
theorem items_or_first
    (tokens : List (List UInt8)) :
    (∃ items, List.Forall₂ Item tokens items) ∨
      ∃ before token after items,
        tokens = before ++ token :: after ∧
          List.Forall₂ Item before items ∧
            ¬ ∃ comparer, Item token comparer := by
  induction tokens with
  | nil => exact .inl ⟨[], .nil⟩
  | cons token tokens ih =>
      by_cases hSome : ∃ comparer, Item token comparer
      · rcases hSome with ⟨comparer, hItem⟩
        rcases ih with ⟨items, hItems⟩ |
          ⟨before, other, after, items, rfl, hItems, hNone⟩
        · exact .inl ⟨_, .cons hItem hItems⟩
        · exact .inr ⟨_, other, after, _, rfl,
            .cons hItem hItems, hNone⟩
      · exact .inr ⟨[], token, tokens, [], rfl, .nil, hSome⟩

theorem sortStringLoop_mistaken
    (hMistaken : Mistaken token) :
    sortStringLoop (token :: after) set = none := by
  rw [sortStringLoop,
    if_neg (by simp [(mistaken_iff hMistaken.1).mp hMistaken])]
  dsimp only
  rw [getSortItem_mistaken hMistaken]
  rfl

end Tokens

theorem holds_alloc :
    allocComparerSet.Holds [] :=
  ⟨rfl, NCOMPS_INCREASE, rfl⟩

/-
  The parser accepts just its grammar if no token that is no
  item, with only items before it, has a byte before a name.
-/
theorem parseSortString_exact_iff
    (s : List UInt8) :
    Exact s ↔ ∀ before token after items,
      CText.strtok 44 s = before ++ token :: after →
        List.Forall₂ Item before items → ¬ Mistaken token := by
  unfold Exact parseSortString
  constructor
  · intro hExact before token after items hTokens hItems hMistaken
    have hOut : ¬ ∃ items,
        List.Forall₂ Item (CText.strtok 44 s) items := by
      intro hAll
      rcases hAll with ⟨all, hAll⟩
      rw [hTokens] at hAll
      have hRest := List.forall₂_drop_append _ _ _ hAll.flip
      generalize all.drop before.length = rest at hRest
      cases hRest with
      | cons hItem _ => exact hMistaken.1 ⟨_, hItem⟩
    rcases (hExact _ _ holds_alloc).2 hOut with ⟨out, hRun⟩
    rcases sortStringLoop_items hItems holds_alloc
      (token :: after) with ⟨set', _, hLoop⟩
    rw [hTokens, hLoop, sortStringLoop_mistaken hMistaken] at hRun
    cases hRun
  · intro hNever set comps hSet
    constructor
    · intro items hItems
      rcases sortStringLoop_items hItems hSet [] with
        ⟨set', hSet', hLoop⟩
      rw [List.append_nil] at hLoop
      exact ⟨set', hLoop, hSet'⟩
    · intro hOut
      rcases items_or_first (CText.strtok 44 s) with hAll |
        ⟨before, token, after, items, hTokens, hItems, hNone⟩
      · exact absurd hAll hOut
      · have hRight := hNever _ _ _ _ hTokens hItems
        rw [mistaken_iff hNone, Bool.not_eq_true] at hRight
        rcases sortStringLoop_items hItems hSet
          (token :: after) with ⟨set', _, hLoop⟩
        refine ⟨set', ?_⟩
        rw [hTokens, hLoop, sortStringLoop, if_pos hRight]

/- `xrootid` gets to the `BUG_ON` of an index out of range. -/
theorem parseSortString_bug :
    parseSortString [120, 114, 111, 111, 116, 105, 100]
        allocComparerSet = none ∧
      ¬ Exact [120, 114, 111, 111, 116, 105, 100] := by
  have hRun : parseSortString
      [120, 114, 111, 111, 116, 105, 100] allocComparerSet =
      none := by
    decide +kernel
  refine ⟨hRun, fun hExact => ?_⟩
  rcases hExact _ _ holds_alloc with ⟨hIn, hOut⟩
  rw [hRun] at hIn hOut
  by_cases hAll : ∃ items, List.Forall₂ Item (CText.strtok 44
      [120, 114, 111, 111, 116, 105, 100]) items
  · rcases hAll with ⟨items, hItems⟩
    rcases hIn items hItems with ⟨_, hSome, _⟩
    cases hSome
  · rcases hOut hAll with ⟨_, hSome⟩
    cases hSome

end SortString

end SubvolList

end BtrfsProgs
