import BtrfsProgs.Image.Collision

/-
  The names of a dump get consistent substitutes.

  Main declarations:
    * `Renames` and `Consistent`
    * `PrefixFree`
    * `findCollisions_consistent_iff`
-/

----------
-- Sequences of Names
----------

namespace BtrfsProgs

namespace Image

/- `find_collision` for one name after another. -/
def findCollisions
    (rand : Nat → Nat)
    (rebalance : SearchTree.Rebalance NameEntry) :
    NameState → List (List UInt8) → Option (List NameEntry)
  | _, [] => some []
  | md, name :: names =>
      match findCollision rand rebalance md name with
      | none => none
      | some (val, md) =>
          (findCollisions rand rebalance md names).map (val :: ·)

/- The entry of which a name gets the substitute. -/
structure Renames
    (name : List UInt8)
    (val : NameEntry) : Prop where
  made : val.val = name
  length : val.sub.length = name.length
  collides :
    (∃ t, Candidate t ∧ t.length = name.length ∧
      Collides name t) → Collides name val.sub

/-
  Every name of a sequence gets a substitute of its own, and
  the same one every time.
-/
def Consistent
    (rand : Nat → Nat)
    (rebalance : SearchTree.Rebalance NameEntry)
    (names : List (List UInt8)) : Prop :=
  ∃ vals,
    findCollisions rand rebalance ⟨.leaf, 0⟩ names =
      some vals ∧
    List.Forall₂ Renames names vals ∧
    ∀ p ∈ names.zip vals, ∀ q ∈ names.zip vals,
      p.1 = q.1 → p.2.sub = q.2.sub

/- No name is empty or goes on as another one. -/
structure PrefixFree
    (names : List (List UInt8)) : Prop where
  nonempty : ∀ a ∈ names, a ≠ []
  alone : ∀ a ∈ names, ∀ b ∈ names, a <+: b → a = b

theorem PrefixFree.mono
    {names more : List (List UInt8)}
    (hFree : PrefixFree more)
    (hSub : names ⊆ more) :
    PrefixFree names :=
  ⟨fun a ha => hFree.nonempty a (hSub ha),
    fun a ha b hb => hFree.alone a (hSub ha) b (hSub hb)⟩

----------
-- The Comparison
----------

section Compare

theorem memcmp_take
    (a b : List UInt8) :
    memcmp (a.take (min a.length b.length))
        (b.take (min a.length b.length)) =
      memcmp a b := by
  induction a generalizing b with
  | nil => simp [memcmp]
  | cons c a ih =>
      cases b with
      | nil => simp [memcmp]
      | cons d b =>
          rw [List.length_cons, List.length_cons,
            Nat.add_min_add_right, List.take_succ_cons,
            List.take_succ_cons, memcmp, memcmp, ih]

theorem nameCmp_eq
    (ins : List UInt8)
    (entry : NameEntry) :
    nameCmp ins entry = memcmp ins entry.val :=
  memcmp_take ins entry.val

/- The comparison stops at the end of the shorter name. -/
theorem memcmp_eq_iff
    {a b : List UInt8} :
    memcmp a b = .eq ↔ a <+: b ∨ b <+: a := by
  induction a generalizing b with
  | nil => simp [memcmp]
  | cons c a ih =>
      cases b with
      | nil => simp [memcmp]
      | cons d b =>
          rw [memcmp, List.cons_prefix_cons,
            List.cons_prefix_cons, ← UInt8.toNat_inj,
            ← UInt8.toNat_inj]
          rcases lt_trichotomy c.toNat d.toNat with
            hLt | hEq | hGt
          · simp [hLt, hLt.ne, hLt.ne']
          · simp [hEq, ih]
          · simp [hGt, hGt.not_gt, hGt.ne, hGt.ne']

theorem memcmp_swap
    {a b : List UInt8} :
    memcmp a b = .gt ↔ memcmp b a = .lt := by
  induction a generalizing b with
  | nil => cases b <;> simp [memcmp]
  | cons c a ih =>
      cases b with
      | nil => simp [memcmp]
      | cons d b =>
          rw [memcmp, memcmp]
          rcases lt_trichotomy c.toNat d.toNat with
            hLt | hEq | hGt
          · simp [hLt, hLt.not_gt]
          · simp [hEq, ih]
          · simp [hGt, hGt.not_gt]

theorem memcmp_trans
    {a b c : List UInt8}
    (hab : memcmp a b = .lt)
    (hbc : memcmp b c = .lt) :
    memcmp a c = .lt := by
  induction a generalizing b c with
  | nil => simp [memcmp] at hab
  | cons x a ih =>
      cases b with
      | nil => simp [memcmp] at hab
      | cons y b =>
          cases c with
          | nil => simp [memcmp] at hbc
          | cons z c =>
              rw [memcmp] at hab hbc ⊢
              rcases lt_trichotomy x.toNat y.toNat with
                hxy | hxy | hxy
              · rcases lt_trichotomy y.toNat z.toNat with
                  hyz | hyz | hyz
                · simp [hxy.trans hyz]
                · simp [← hyz, hxy]
                · simp [hyz, hyz.not_gt] at hbc
              · rw [← hxy] at hbc
                rcases lt_trichotomy x.toNat z.toNat with
                  hxz | hxz | hxz
                · simp [hxz]
                · simp only [hxy, lt_irrefl, if_false] at hab
                  simp only [hxz, lt_irrefl, if_false] at hbc
                  simp only [hxz, lt_irrefl, if_false]
                  exact ih hab hbc
                · simp [hxz, hxz.not_gt] at hbc
              · simp [hxy, hxy.not_gt] at hab

end Compare

----------
-- One Name
----------

/- The names of a tree come in their order. -/
def Ordered
    (tree : SearchTree NameEntry) : Prop :=
  tree.toList.Pairwise fun a b => memcmp a.val b.val = .lt

/- The tree has an entry for every name that was seen. -/
structure Inv
    (md : NameState)
    (seen : List (List UInt8)) : Prop where
  ordered : Ordered md.nameTree
  names :
    ∀ name, name ∈ seen ↔
      ∃ e ∈ md.nameTree.toList, e.val = name
  renames : ∀ e ∈ md.nameTree.toList, Renames e.val e

theorem Ordered.cut
    {tree : SearchTree NameEntry}
    (hOrdered : Ordered tree)
    (name : List UInt8) :
    SearchTree.Cut (nameCmp name) tree := by
  apply List.Pairwise.imp _ hOrdered
  intro a b hab
  rw [nameCmp_eq, nameCmp_eq]
  constructor
  · intro hLt
    exact memcmp_trans hLt hab
  · intro hGt
    rw [memcmp_swap] at hGt ⊢
    exact memcmp_trans hab hGt

theorem memcmp_self
    (a : List UInt8) :
    memcmp a a = .eq :=
  memcmp_eq_iff.mpr (Or.inl (List.prefix_refl a))

/- A name has one entry. -/
theorem Ordered.unique
    {tree : SearchTree NameEntry}
    (hOrdered : Ordered tree)
    {a b : NameEntry}
    (ha : a ∈ tree.toList)
    (hb : b ∈ tree.toList)
    (hEq : a.val = b.val) :
    a = b := by
  have hNodup : (tree.toList.map NameEntry.val).Nodup := by
    rw [List.Nodup, List.pairwise_map]
    apply hOrdered.imp
    intro c d hLt hSame
    rw [hSame, memcmp_self] at hLt
    cases hLt
  exact List.inj_on_of_nodup_map hNodup ha hb hEq

theorem Ordered.insert
    {tree tree' : SearchTree NameEntry}
    {name : List UInt8}
    {val : NameEntry}
    (hOrdered : Ordered tree)
    (hInsert :
      tree.insert (nameCmp name) val = some tree')
    (hVal : val.val = name) :
    Ordered tree' ∧
      ∀ e, e ∈ tree'.toList ↔ e = val ∨ e ∈ tree.toList := by
  obtain ⟨before, behind, hOld, hNew, hGt, hLt⟩ :=
    SearchTree.insert_spec (hOrdered.cut name) hInsert
  unfold Ordered at hOrdered ⊢
  rw [hOld, List.pairwise_append] at hOrdered
  rcases hOrdered with ⟨hBefore, hBehind, hAcross⟩
  constructor
  · rw [hNew, List.pairwise_append, List.pairwise_cons]
    refine ⟨hBefore, ⟨?_, hBehind⟩, ?_⟩
    · intro b hb
      rw [hVal, ← nameCmp_eq]
      exact hLt b hb
    · intro a ha b hb
      rcases List.mem_cons.mp hb with rfl | hb
      · rw [hVal, ← memcmp_swap, ← nameCmp_eq]
        exact hGt a ha
      · exact hAcross a ha b hb
  · intro e
    rw [hNew, hOld]
    simp only [List.mem_append, List.mem_cons]
    tauto

section Step

variable {rand : Nat → Nat}
variable {rebalance : SearchTree.Rebalance NameEntry}
variable {md : NameState}
variable {seen : List (List UInt8)}
variable {name : List UInt8}

/- The loop gives an entry that renames the name. -/
theorem tryAll_renames
    (rand : Nat → Nat)
    (draws : Nat)
    (hName : name ≠ []) :
    ∃ found sub,
      tryAll name (candidates name.length)
          (List.replicate name.length 32) =
        some (found, sub) ∧
      Renames name
        ⟨name, if found then sub
          else generateGarbage rand draws name.length⟩ := by
  have hTried : Tried name
      (tryAll name (candidates name.length)
        (List.replicate name.length 32)) := by
    apply tryAll_spec hName List.length_replicate
    · intro c hc
      rw [List.eq_of_mem_replicate hc]
      unfold Printable
      decide
    · intro t _ _ hRank
      rw [rank_spaces] at hRank
      cases hRank
    · exact Nat.le_add_right _ _
  rcases hTried with ⟨s, hRun, hLength, hHit⟩ | ⟨s, hRun, hNone⟩
  · exact ⟨true, s, hRun, rfl, hLength, fun _ => hHit⟩
  · refine ⟨false, s, hRun, rfl, ?_, ?_⟩
    · simp [generateGarbage]
    · rintro ⟨t, ht, htLength, hCollides⟩
      exact absurd hCollides (hNone t ht htLength)

/- A name gets its own entry if none goes on as another. -/
theorem findCollision_served
    (rand : Nat → Nat)
    (rebalance : SearchTree.Rebalance NameEntry)
    (hInv : Inv md seen)
    (hFree : PrefixFree (name :: seen)) :
    ∃ val md',
      findCollision rand rebalance md name =
        some (val, md') ∧
      Renames name val ∧ Inv md' (name :: seen) ∧
      val ∈ md'.nameTree.toList ∧
      ∀ e ∈ md.nameTree.toList, e ∈ md'.nameTree.toList := by
  unfold findCollision
  cases hSearch : md.nameTree.search (nameCmp name) with
  | some val =>
      obtain ⟨hIn, hEq⟩ := SearchTree.search_some hSearch
      have hSeen : val.val ∈ seen :=
        (hInv.names _).mpr ⟨val, hIn, rfl⟩
      have hMade : val.val = name := by
        rw [nameCmp_eq, memcmp_eq_iff] at hEq
        rcases hEq with hFront | hFront
        · exact (hFree.alone _ List.mem_cons_self _
            (List.mem_cons_of_mem _ hSeen) hFront).symm
        · exact hFree.alone _ (List.mem_cons_of_mem _ hSeen)
            _ List.mem_cons_self hFront
      have hRenames := hInv.renames val hIn
      rw [hMade] at hRenames hSeen
      refine ⟨val, md, rfl, hRenames, ?_, hIn, fun e he => he⟩
      refine ⟨hInv.ordered, ?_, hInv.renames⟩
      intro n
      rw [List.mem_cons, ← hInv.names n]
      constructor
      · rintro (rfl | hn)
        · exact hSeen
        · exact hn
      · exact Or.inr
  | none =>
      obtain ⟨found, sub, hTry, hRenames⟩ :=
        tryAll_renames rand md.draws
          (hFree.nonempty name List.mem_cons_self)
      obtain ⟨tree, hInsert⟩ := SearchTree.insert_of_search
        (⟨name, if found then sub
          else generateGarbage rand md.draws name.length⟩ :
          NameEntry) hSearch
      obtain ⟨hOrdered, hMem⟩ := hInv.ordered.insert hInsert rfl
      simp only [hTry, hInsert]
      refine ⟨_, _, rfl, hRenames, ⟨?_, ?_, ?_⟩, ?_, ?_⟩
      · unfold Ordered
        rw [rebalance.toList_run]
        exact hOrdered
      · intro n
        simp only [rebalance.toList_run, hMem, List.mem_cons,
          hInv.names n]
        constructor
        · rintro (rfl | ⟨e, he, hn⟩)
          · exact ⟨_, Or.inl rfl, rfl⟩
          · exact ⟨e, Or.inr he, hn⟩
        · rintro ⟨e, rfl | he, hn⟩
          · exact Or.inl hn.symm
          · exact Or.inr ⟨e, he, hn⟩
      · intro e he
        rw [rebalance.toList_run, hMem] at he
        rcases he with rfl | he
        · exact hRenames
        · exact hInv.renames e he
      · rw [rebalance.toList_run, hMem]
        exact Or.inl rfl
      · intro e he
        rw [rebalance.toList_run, hMem]
        exact Or.inr he

/- The first name that goes on as another gets its entry. -/
theorem findCollision_confused
    {val : NameEntry}
    {md' : NameState}
    (hInv : Inv md seen)
    (hSeen : PrefixFree seen)
    (hRun :
      findCollision rand rebalance md name = some (val, md'))
    (hMade : val.val = name) :
    PrefixFree (name :: seen) := by
  unfold findCollision at hRun
  cases hSearch : md.nameTree.search (nameCmp name) with
  | some e =>
      rw [hSearch] at hRun
      cases hRun
      obtain ⟨hIn, _⟩ := SearchTree.search_some hSearch
      have hOld : name ∈ seen :=
        (hInv.names _).mpr ⟨val, hIn, hMade⟩
      exact hSeen.mono (List.cons_subset.mpr
        ⟨hOld, List.Subset.refl _⟩)
  | none =>
      have hMiss : ∀ a ∈ seen, ¬ (name <+: a ∨ a <+: name) := by
        intro a ha hFront
        obtain ⟨e, he, rfl⟩ := (hInv.names a).mp ha
        apply SearchTree.search_none (hInv.ordered.cut name)
          hSearch e he
        rw [nameCmp_eq, memcmp_eq_iff]
        exact hFront
      have hName : name ≠ [] := by
        rintro rfl
        rw [hSearch] at hRun
        simp [tryAll, candidates] at hRun
      constructor
      · intro a ha
        rcases List.mem_cons.mp ha with rfl | ha
        · exact hName
        · exact hSeen.nonempty a ha
      · intro a ha b hb hFront
        rw [List.mem_cons] at ha hb
        rcases ha with hName | ha
        · rcases hb with hName' | hb
          · rw [hName, hName']
          · rw [hName] at hFront
            exact absurd (Or.inl hFront) (hMiss b hb)
        · rcases hb with hName' | hb
          · rw [hName'] at hFront
            exact absurd (Or.inr hFront) (hMiss a ha)
          · exact hSeen.alone a ha b hb hFront

end Step

----------
-- Runs
----------

section Run

variable {rand : Nat → Nat}
variable {rebalance : SearchTree.Rebalance NameEntry}

/-
  Every name gets its own entry, and names that are in the
  tree keep theirs.
-/
theorem findCollisions_served
    (rand : Nat → Nat)
    (rebalance : SearchTree.Rebalance NameEntry)
    {md : NameState}
    {seen names : List (List UInt8)}
    (hInv : Inv md seen)
    (hFree : PrefixFree (names ++ seen)) :
    ∃ vals,
      findCollisions rand rebalance md names = some vals ∧
      List.Forall₂ Renames names vals ∧
      (∀ p ∈ names.zip vals, ∀ e ∈ md.nameTree.toList,
        e.val = p.1 → p.2 = e) ∧
      ∀ p ∈ names.zip vals, ∀ q ∈ names.zip vals,
        p.1 = q.1 → p.2 = q.2 := by
  induction names generalizing md seen with
  | nil => exact ⟨[], rfl, .nil, by simp, by simp⟩
  | cons name names ih =>
      have hHere : PrefixFree (name :: seen) := by
        apply hFree.mono
        intro a ha
        rw [List.cons_append, List.mem_cons]
        rcases List.mem_cons.mp ha with rfl | ha
        · exact Or.inl rfl
        · exact Or.inr (List.mem_append_right _ ha)
      have hNext : PrefixFree (names ++ name :: seen) :=
        hFree.mono (List.perm_middle.subset)
      obtain ⟨val, md', hCall, hRenames, hInv', hIn, hOld⟩ :=
        findCollision_served rand rebalance hInv hHere
      obtain ⟨vals, hRun, hAll, hKeep, hSame⟩ := ih hInv' hNext
      refine ⟨val :: vals, ?_, .cons hRenames hAll, ?_, ?_⟩
      · simp only [findCollisions, hCall, hRun,
          Option.map_some]
      · intro p hp e he hEq
        rw [List.zip_cons_cons, List.mem_cons] at hp
        rcases hp with rfl | hp
        · exact hInv'.ordered.unique hIn (hOld e he)
            (hRenames.made.trans hEq.symm)
        · exact hKeep p hp e (hOld e he) hEq
      · intro p hp q hq hEq
        rw [List.zip_cons_cons, List.mem_cons] at hp hq
        rcases hp with rfl | hp
        · rcases hq with rfl | hq
          · rfl
          · exact (hKeep q hq val hIn
              (hRenames.made.trans hEq)).symm
        · rcases hq with rfl | hq
          · exact hKeep p hp val hIn
              (hRenames.made.trans hEq.symm)
          · exact hSame p hp q hq hEq

theorem findCollisions_confused
    {md : NameState}
    {seen names : List (List UInt8)}
    {vals : List NameEntry}
    (hInv : Inv md seen)
    (hSeen : PrefixFree seen)
    (hRun :
      findCollisions rand rebalance md names = some vals)
    (hAll : List.Forall₂ Renames names vals) :
    PrefixFree (names ++ seen) := by
  induction names generalizing md seen vals with
  | nil => exact hSeen
  | cons name names ih =>
      cases hAll with
      | cons hRenames hAll =>
          unfold findCollisions at hRun
          cases hCall : findCollision rand rebalance md name with
          | none =>
              rw [hCall] at hRun
              cases hRun
          | some res =>
              rcases res with ⟨val, md'⟩
              rw [hCall] at hRun
              obtain ⟨rest, hRest, hVals⟩ :=
                Option.map_eq_some_iff.mp hRun
              cases hVals
              have hHere := findCollision_confused hInv hSeen
                hCall hRenames.made
              obtain ⟨val', md'', hCall', _, hInv', _⟩ :=
                findCollision_served rand rebalance hInv hHere
              rw [hCall] at hCall'
              cases hCall'
              have hFree := ih hInv' hHere hRest hAll
              exact hFree.mono (List.perm_middle.symm.subset)

theorem inv_empty
    (draws : Nat) :
    Inv ⟨.leaf, draws⟩ [] :=
  ⟨List.Pairwise.nil, by simp [SearchTree.toList],
    by simp [SearchTree.toList]⟩

/-
  The names of a sequence get consistent substitutes exactly
  if none of them is empty or goes on as another one.
-/
theorem findCollisions_consistent_iff
    (rand : Nat → Nat)
    (rebalance : SearchTree.Rebalance NameEntry)
    (names : List (List UInt8)) :
    Consistent rand rebalance names ↔ PrefixFree names := by
  constructor
  · rintro ⟨vals, hRun, hAll, _⟩
    have hFree := findCollisions_confused (inv_empty 0)
      ⟨by simp, by simp⟩ hRun hAll
    rw [List.append_nil] at hFree
    exact hFree
  · intro hFree
    rw [← List.append_nil names] at hFree
    obtain ⟨vals, hRun, hAll, _, hSame⟩ :=
      findCollisions_served rand rebalance (inv_empty 0)
        hFree
    exact ⟨vals, hRun, hAll, fun p hp q hq hEq =>
      congrArg NameEntry.sub (hSame p hp q hq hEq)⟩

/- The name `ab` gets the substitute of the name `a`. -/
theorem findCollisions_prefix_confused :
    ¬ Consistent (fun _ => 0) ⟨id, fun _ => rfl⟩
      [[97], [97, 98]] := by
  rintro ⟨vals, hRun, hAll, _⟩
  have hFree := findCollisions_confused (inv_empty 0)
    ⟨by simp, by simp⟩ hRun hAll
  have hSame := hFree.alone [97] (by simp) [97, 98] (by simp)
    ⟨[98], rfl⟩
  cases hSame

end Run

end Image

end BtrfsProgs
