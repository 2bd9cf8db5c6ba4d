import BtrfsProgs.Check.RootRefs

/-
  The roots that `check_root_refs` leaves referenced are the
  greatest fixed point of the rule that a root stays while a
  reachable back reference comes from one that does.

  Main declarations:
    * `Refers` and `Referenced`
    * `Sound` and `checkBackrefs_spec`
    * `propagate_ends`
    * `checkRootRefs_orderFree`
-/

----------
-- The Rule
----------

namespace BtrfsProgs

namespace Check

namespace RootRefs

/- A reachable back reference of a root comes from another. -/
def Refers
    (cache : RootCache)
    (r s : Nat) : Prop :=
  ∃ rec ∈ cache, rec.objectid = r ∧
    ∃ b ∈ rec.backrefs, b.reachable = true ∧ b.refRoot = s

/- The roots that stay referenced. -/
def Referenced
    (cache : RootCache) : Set Nat :=
  Supported.largest (· = BTRFS_FS_TREE_OBJECTID)
    (Refers cache)

/- The roots with `found_ref > 0`. -/
def living
    (cache : RootCache) : Set Nat :=
  { r | ∃ rec ∈ cache, rec.objectid = r ∧ 0 < rec.foundRef }

/- The roots that the check has to report. -/
def Unreferenced
    (checkOrphanItem : Nat → Int)
    (cache : RootCache) : Set Nat :=
  { r | BTRFS_FIRST_FREE_OBJECTID ≤ r ∧
    r ≤ BTRFS_LAST_FREE_OBJECTID ∧
    r ∉ Referenced cache ∧ checkOrphanItem r ≠ 0 ∧
    ∃ rec ∈ cache, rec.objectid = r ∧
      rec.foundRootItem = true }

/- What is left of a record's references comes from roots
   that are referenced. -/
def RootRecord.Settled
    (rec : RootRecord)
    (cache : RootCache) : Prop :=
  ∀ b ∈ rec.backrefs, b.reachable = true →
    b.refRoot ∈ living cache

----------
-- What the Loop Keeps
----------

/- The counts are those of the reachable backrefs. -/
structure Sound
    (start cache : RootCache) : Prop where
  distinct : Distinct cache
  counted : ∀ rec ∈ cache,
    rec.objectid ≠ BTRFS_FS_TREE_OBJECTID →
      rec.foundRef = rec.backrefs.countP RootBackref.reachable
  top : ∀ rec ∈ cache,
    rec.objectid = BTRFS_FS_TREE_OBJECTID →
      0 < rec.foundRef ∧
        ∀ b ∈ rec.backrefs, b.reachable = false
  trim :
    Supported.Trim (· = BTRFS_FS_TREE_OBJECTID)
      (Refers start) (living cache) (Refers cache)
  told : ∀ rec ∈ cache, rec.foundRootItem = true →
    ∃ old ∈ start, old.objectid = rec.objectid ∧
      old.foundRootItem = true
  kept : ∀ old ∈ start, ∃ rec ∈ cache,
    rec.objectid = old.objectid ∧
      rec.foundRootItem = old.foundRootItem

section Fetch

variable {start cache : RootCache}
variable {objectid : Nat}
variable {found : RootRecord × RootCache}

/- A new record is not referenced and refers to nothing. -/
theorem Fetched.living_eq
    (hFetched : Fetched cache objectid found) :
    living found.2 = living cache := by
  ext r
  constructor
  · intro hMem
    rcases hMem with ⟨rec, hRec, hIs, hPos⟩
    rcases hFetched.mem_iff.mp hRec with hSame | hOld
    · rcases hFetched.old_or_blank with hThere | ⟨hBlank, _⟩
      · exact ⟨rec, hSame ▸ hThere, hIs, hPos⟩
      · rw [hSame, hBlank] at hPos
        exact absurd hPos (Nat.lt_irrefl 0)
    · exact ⟨rec, hOld, hIs, hPos⟩
  · intro hMem
    rcases hMem with ⟨rec, hRec, hIs, hPos⟩
    exact ⟨rec, hFetched.mem_iff.mpr (Or.inr hRec), hIs, hPos⟩

theorem Fetched.refers_iff
    (hFetched : Fetched cache objectid found)
    {r s : Nat} :
    Refers found.2 r s ↔ Refers cache r s := by
  constructor
  · intro hRefers
    rcases hRefers with ⟨rec, hRec, hIs, b, hb, hFrom⟩
    rcases hFetched.mem_iff.mp hRec with hSame | hOld
    · rcases hFetched.old_or_blank with hThere | ⟨hBlank, _⟩
      · exact ⟨rec, hSame ▸ hThere, hIs, b, hb, hFrom⟩
      · rw [hSame, hBlank] at hb
        cases hb
    · exact ⟨rec, hOld, hIs, b, hb, hFrom⟩
  · intro hRefers
    rcases hRefers with ⟨rec, hRec, hRest⟩
    exact ⟨rec, hFetched.mem_iff.mpr (Or.inr hRec), hRest⟩

theorem Fetched.same_of_pos
    (hFetched : Fetched cache objectid found)
    (hPos : found.1.foundRef > 0) :
    found.2 = cache := by
  cases hFetched with
  | old hMem hIs => rfl
  | new hCache hNew => exact absurd hPos (Nat.lt_irrefl 0)

/- A record that is fetched is like those of the cache. -/
theorem Fetched.each
    (hFetched : Fetched cache objectid found)
    {P : RootRecord → Prop}
    (hEach : ∀ rec ∈ cache, P rec)
    (hBlank : objectid ∉ ids cache →
      P { objectid := objectid }) :
    ∀ rec ∈ found.2, P rec := by
  intro rec hRec
  rcases hFetched.mem_iff.mp hRec with hSame | hOld
  · rcases hFetched.old_or_blank with hThere | ⟨hIs, hNew⟩
    · exact hSame ▸ hEach _ hThere
    · rw [hSame, hIs]
      exact hBlank hNew
  · exact hEach rec hOld

theorem Sound.top_mem
    (hSound : Sound start cache) :
    BTRFS_FS_TREE_OBJECTID ∈ living cache :=
  hSound.trim.keeps (Supported.mem_largest.mpr (Or.inl rfl))

theorem mem_ids_of_living
    {r : Nat}
    (hLive : r ∈ living cache) :
    r ∈ ids cache := by
  rcases hLive with ⟨rec, hRec, hIs, _⟩
  exact hIs ▸ mem_ids hRec

theorem Sound.fetch
    (hSound : Sound start cache)
    (hFetched : Fetched cache objectid found) :
    Sound start found.2 where
  distinct := hFetched.distinct hSound.distinct
  counted :=
    hFetched.each hSound.counted fun _ _ => rfl
  top := by
    apply hFetched.each hSound.top
    intro hNew hIs
    change objectid = _ at hIs
    rw [hIs] at hNew
    exact absurd (mem_ids_of_living hSound.top_mem) hNew
  trim := by
    rw [hFetched.living_eq]
    apply hSound.trim.cut
    · intro a b hRefers
      exact hFetched.refers_iff.mp hRefers
    · intro a b hRefers _
      exact hFetched.refers_iff.mpr hRefers
  told := by
    apply hFetched.each hSound.told
    intro _ hItem
    cases hItem
  kept := by
    intro old hOld
    rcases hSound.kept old hOld with ⟨rec, hRec, hIs⟩
    exact ⟨rec, hFetched.mem_iff.mpr (Or.inr hRec), hIs⟩

end Fetch

/- A back reference that has been cleared. -/
def RootBackref.clear
    (b : RootBackref) : RootBackref :=
  { b with reachable := false }

/- The record without one of its references. -/
def RootRecord.drop
    (rec : RootRecord)
    (done todo : List RootBackref)
    (b : RootBackref) : RootRecord :=
  { rec with
    backrefs := done ++ b.clear :: todo
    foundRef := rec.foundRef - 1 }

section Clear

variable {start cache : RootCache}
variable {rec : RootRecord}
variable {done todo : List RootBackref}
variable {b : RootBackref}

theorem mem_drop
    (hMem : rec ∈ cache)
    {r : RootRecord} :
    r ∈ storeRec cache (rec.drop done todo b) ↔
      r = rec.drop done todo b ∨
        r ∈ cache ∧ r.objectid ≠ rec.objectid := by
  have hThere : rec.objectid ∈ ids cache := mem_ids hMem
  exact mem_storeRec hThere

/- The references that are left were there. -/
theorem refers_of_drop
    (hMem : rec ∈ cache)
    (hBackrefs : rec.backrefs = done ++ b :: todo)
    {r s : Nat}
    (hRefers :
      Refers (storeRec cache (rec.drop done todo b)) r s) :
    Refers cache r s := by
  rcases hRefers with ⟨x, hx, hIs, c, hc, hReach, hFrom⟩
  rcases (mem_drop hMem).mp hx with rfl | ⟨hOld, _⟩
  · refine ⟨rec, hMem, hIs, c, ?_, hReach, hFrom⟩
    rw [hBackrefs]
    rcases List.mem_append.mp hc with hc | hc
    · exact List.mem_append_left _ hc
    · rcases List.mem_cons.mp hc with rfl | hc
      · cases hReach
      · exact List.mem_append_right _
          (List.mem_cons_of_mem _ hc)
  · exact ⟨x, hOld, hIs, c, hc, hReach, hFrom⟩

/- Only the reference that is cleared goes. -/
theorem refers_drop
    (hDistinct : Distinct cache)
    (hMem : rec ∈ cache)
    (hBackrefs : rec.backrefs = done ++ b :: todo)
    {r s : Nat}
    (hOther : b.refRoot ≠ s)
    (hRefers : Refers cache r s) :
    Refers (storeRec cache (rec.drop done todo b)) r s := by
  rcases hRefers with ⟨x, hx, hIs, c, hc, hReach, hFrom⟩
  by_cases hSame : x.objectid = rec.objectid
  · have hRec := hDistinct.eq_of_mem hx hMem hSame
    subst hRec
    refine ⟨x.drop done todo b,
      (mem_drop hMem).mpr (Or.inl rfl), hIs, c, ?_, hReach,
      hFrom⟩
    rw [hBackrefs] at hc
    rcases List.mem_append.mp hc with hc | hc
    · exact List.mem_append_left _ hc
    · rcases List.mem_cons.mp hc with hcb | hc
      · exact absurd (hcb ▸ hFrom) hOther
      · exact List.mem_append_right _
          (List.mem_cons_of_mem _ hc)
  · exact ⟨x, (mem_drop hMem).mpr (Or.inr ⟨hx, hSame⟩), hIs,
      c, hc, hReach, hFrom⟩

/- The others stay, and this one does with one more left. -/
theorem living_drop
    (hMem : rec ∈ cache)
    {r : Nat} :
    r ∈ living (storeRec cache (rec.drop done todo b)) ↔
      r ∈ living cache ∧
        (r = rec.objectid → 1 < rec.foundRef) := by
  constructor
  · intro hLive
    rcases hLive with ⟨x, hx, hIs, hPos⟩
    rcases (mem_drop hMem).mp hx with rfl | ⟨hOld, hOther⟩
    · change 0 < rec.foundRef - 1 at hPos
      exact ⟨⟨rec, hMem, hIs, by omega⟩, fun _ => by omega⟩
    · refine ⟨⟨x, hOld, hIs, hPos⟩, ?_⟩
      intro hSame
      exact absurd (hIs.trans hSame) hOther
  · intro hLive
    rcases hLive with ⟨⟨x, hx, hIs, hPos⟩, hMore⟩
    by_cases hSame : x.objectid = rec.objectid
    · have hLeft := hMore (hIs.symm.trans hSame)
      refine ⟨rec.drop done todo b,
        (mem_drop hMem).mpr (Or.inl rfl), ?_, ?_⟩
      · exact hSame.symm.trans hIs
      · change 0 < rec.foundRef - 1
        omega
    · exact ⟨x, (mem_drop hMem).mpr (Or.inr ⟨hx, hSame⟩),
        hIs, hPos⟩

theorem Sound.drop
    (hSound : Sound start cache)
    (hMem : rec ∈ cache)
    (hBackrefs : rec.backrefs = done ++ b :: todo)
    (hReach : b.reachable = true)
    (hGone : b.refRoot ∉ living cache) :
    Sound start (storeRec cache (rec.drop done todo b)) := by
  have hIn : b ∈ rec.backrefs := by
    rw [hBackrefs]
    simp
  have hNotTop : rec.objectid ≠ BTRFS_FS_TREE_OBJECTID := by
    intro hTop
    have hNone := (hSound.top rec hMem hTop).2 b hIn
    rw [hReach] at hNone
    cases hNone
  have hCount := hSound.counted rec hMem hNotTop
  have hLeft : (rec.drop done todo b).foundRef =
      (rec.drop done todo b).backrefs.countP
        RootBackref.reachable := by
    rw [hBackrefs, countP_middle, hReach] at hCount
    change rec.foundRef - 1 =
      (done ++ b.clear :: todo).countP RootBackref.reachable
    rw [countP_middle, hCount]
    change _ = _ + 0 + _
    simp only [Bool.toNat_true]
    omega
  have hEach : ∀ P : RootRecord → Prop,
      P (rec.drop done todo b) → (∀ r ∈ cache, P r) →
      ∀ r ∈ storeRec cache (rec.drop done todo b), P r := by
    intro P hNew hOld r hr
    rcases (mem_drop hMem).mp hr with rfl | ⟨hr, _⟩
    · exact hNew
    · exact hOld r hr
  constructor
  · exact hSound.distinct.store
  · exact hEach _ (fun _ => hLeft) hSound.counted
  · exact hEach _ (fun hTop => absurd hTop hNotTop)
      hSound.top
  · have hCut : Supported.Trim (· = BTRFS_FS_TREE_OBJECTID)
        (Refers start) (living cache)
        (Refers (storeRec cache (rec.drop done todo b))) := by
      apply hSound.trim.cut
      · intro r s hRefers
        exact refers_of_drop hMem hBackrefs hRefers
      · intro r s hRefers hLive
        apply refers_drop hSound.distinct hMem hBackrefs _
          hRefers
        intro hSame
        exact hGone (hSame ▸ hLive)
    apply hCut.drop
    intro r hLive hDead
    have hIs : r = rec.objectid ∧ rec.foundRef ≤ 1 := by
      by_contra hNot
      apply hDead
      refine (living_drop hMem).mpr
        ⟨hLive, ?_⟩
      intro hSame
      by_contra hFew
      exact hNot ⟨hSame, by omega⟩
    rcases hIs with ⟨rfl, hFew⟩
    refine ⟨hNotTop, ?_⟩
    intro s hRefers
    rcases hRefers with ⟨x, hx, hIs, c, hc, hSeen, _⟩
    rcases (mem_drop hMem).mp hx with rfl | ⟨_, hOther⟩
    · have hZero : (rec.drop done todo b).backrefs.countP
          RootBackref.reachable = 0 := by
        rw [← hLeft]
        change rec.foundRef - 1 = 0
        omega
      exact List.countP_eq_zero.mp hZero c hc hSeen
    · exact hOther hIs
  · exact hEach _ (hSound.told rec hMem) hSound.told
  · intro old hOld
    rcases hSound.kept old hOld with ⟨x, hx, hIs, hItem⟩
    by_cases hSame : x.objectid = rec.objectid
    · have hRec := hSound.distinct.eq_of_mem hx hMem hSame
      subst hRec
      exact ⟨_, (mem_drop hMem).mpr (Or.inl rfl), hIs, hItem⟩
    · exact ⟨x, (mem_drop hMem).mpr (Or.inr ⟨hx, hSame⟩),
        hIs, hItem⟩

end Clear

----------
-- The Pass over a Record
----------

/- How many back references are reachable. -/
def reachables
    (cache : RootCache) : Nat :=
  (cache.map fun rec =>
    rec.backrefs.countP RootBackref.reachable).sum

theorem Fetched.reachables_eq
    {cache : RootCache}
    {objectid : Nat}
    {found : RootRecord × RootCache}
    (hFetched : Fetched cache objectid found) :
    reachables found.2 = reachables cache := by
  cases hFetched with
  | old hMem hIs => rfl
  | new hCache hNew =>
      subst hCache
      simp [reachables]

theorem reachables_drop
    {cache : RootCache}
    {rec : RootRecord}
    {done todo : List RootBackref}
    {b : RootBackref}
    (hDistinct : Distinct cache)
    (hMem : rec ∈ cache)
    (hBackrefs : rec.backrefs = done ++ b :: todo)
    (hReach : b.reachable = true) :
    reachables (storeRec cache (rec.drop done todo b)) <
      reachables cache := by
  rcases List.append_of_mem hMem with ⟨front, after, rfl⟩
  have hSplit :
      storeRec (front ++ rec :: after) (rec.drop done todo b) =
        front ++ rec.drop done todo b :: after :=
    storeRec_split hDistinct rfl
  rw [hSplit]
  have hLess :
      (rec.drop done todo b).backrefs.countP
        RootBackref.reachable <
      rec.backrefs.countP RootBackref.reachable := by
    rw [hBackrefs]
    change (done ++ b.clear :: todo).countP _ < _
    rw [countP_middle, countP_middle, hReach]
    change _ + 0 + _ < _
    simp only [Bool.toNat_true]
    omega
  unfold reachables
  simp only [List.map_append, List.map_cons, List.sum_append,
    List.sum_cons]
  omega

/- What the pass over the record with a number does. -/
structure Passed
    (objectid : Nat)
    (cache : RootCache)
    (loop : Bool)
    (state : RootCache × Bool) : Prop where
  sublist : (ids cache).Sublist (ids state.1)
  others : ∀ r ∈ state.1, r.objectid ≠ objectid →
    r ∈ cache ∨ r.foundRef = 0
  quiet : state.2 = false →
    loop = false ∧ living state.1 = living cache ∧
      ∀ r ∈ state.1, r.objectid = objectid → r.Settled state.1
  less : reachables state.1 < reachables cache ∨
    state = (cache, loop)

/- A pass that goes on after one reference has been cleared. -/
theorem Passed.after
    {cache : RootCache}
    {loop : Bool}
    {rec : RootRecord}
    {done todo : List RootBackref}
    {b : RootBackref}
    {found : RootRecord × RootCache}
    {state : RootCache × Bool}
    (hFetched : Fetched cache b.refRoot found)
    (hDistinct : Distinct cache)
    (hMem : rec ∈ cache)
    (hBackrefs : rec.backrefs = done ++ b :: todo)
    (hReach : b.reachable = true)
    (hLiving : rec.foundRef - 1 ≠ 0 →
      living (storeRec found.2 (rec.drop done todo b)) =
        living cache)
    (hRest : Passed rec.objectid
      (storeRec found.2 (rec.drop done todo b))
      (loop || rec.foundRef - 1 == 0) state) :
    Passed rec.objectid cache loop state := by
  have hThere : rec ∈ found.2 :=
    hFetched.mem_iff.mpr (Or.inr hMem)
  constructor
  · have hStored := hRest.sublist
    rw [storeRec_ids] at hStored
    exact hFetched.ids_sublist.trans hStored
  · intro r hr hOther
    rcases hRest.others r hr hOther with hOld | hZero
    · rcases (mem_drop hThere).mp hOld with rfl | ⟨hOld, _⟩
      · exact absurd rfl hOther
      · rcases hFetched.mem_iff.mp hOld with rfl | hOld
        · rcases hFetched.old_or_blank with hOld | ⟨hIs, _⟩
          · exact Or.inl hOld
          · exact Or.inr (by rw [hIs])
        · exact Or.inl hOld
    · exact Or.inr hZero
  · intro hQuiet
    rcases hRest.quiet hQuiet with ⟨hLoop, hSame, hSettled⟩
    rcases Bool.or_eq_false_iff.mp hLoop with ⟨hOff, hLeft⟩
    refine ⟨hOff, ?_, hSettled⟩
    rw [hSame]
    exact hLiving (by simpa using hLeft)
  · have hFewer := reachables_drop
      (hFetched.distinct hDistinct) hThere hBackrefs hReach
    rw [hFetched.reachables_eq] at hFewer
    rcases hRest.less with hLess | hIs
    · exact Or.inl (by omega)
    · rw [hIs]
      exact Or.inl hFewer

/- The number of a root without references is not living. -/
theorem not_living
    {cache : RootCache}
    (hDistinct : Distinct cache)
    {rec : RootRecord}
    (hMem : rec ∈ cache)
    (hZero : ¬ rec.foundRef > 0) :
    rec.objectid ∉ living cache := by
  intro hLive
  rcases hLive with ⟨x, hx, hIs, hPos⟩
  have hSame := hDistinct.eq_of_mem hx hMem hIs
  subst hSame
  exact hZero hPos

theorem checkBackrefs_spec
    {start : RootCache}
    (done todo : List RootBackref)
    (loop : Bool)
    {rec : RootRecord}
    {cache : RootCache}
    (hSound : Sound start cache)
    (hMem : rec ∈ cache)
    (hBackrefs : rec.backrefs = done ++ todo)
    (hDone : ∀ b ∈ done, b.reachable = true →
      loop = false → b.refRoot ∈ living cache) :
    let state := checkBackrefs rec done todo (cache, loop)
    Sound start state.1 ∧
      Passed rec.objectid cache loop state := by
  induction todo generalizing rec done cache loop with
  | nil =>
      refine ⟨hSound, List.Sublist.refl _, ?_, ?_, Or.inr rfl⟩
      · intro r hr _
        exact Or.inl hr
      · intro hQuiet
        refine ⟨hQuiet, rfl, ?_⟩
        intro r hr hSame b hb hReach
        have hRec := hSound.distinct.eq_of_mem hr hMem hSame
        subst hRec
        rw [hBackrefs, List.append_nil] at hb
        exact hDone b hb hReach hQuiet
  | cons b todo ih =>
      have hNext : rec.backrefs = (done ++ [b]) ++ todo := by
        rw [hBackrefs, List.append_assoc]
        rfl
      unfold checkBackrefs
      cases hReach : b.reachable with
      | false =>
          apply ih _ _ hSound hMem hNext
          intro c hc hSeen
          rcases List.mem_append.mp hc with hc | hc
          · exact hDone c hc hSeen
          · rw [List.mem_singleton.mp hc, hReach] at hSeen
            cases hSeen
      | true =>
          have hFetched := getRootRec_fetched cache b.refRoot
          by_cases hLive :
              (getRootRec cache b.refRoot).1.foundRef > 0
          · have hIn : b.refRoot ∈ living cache := by
              rw [← hFetched.living_eq]
              exact ⟨_, hFetched.mem.1, hFetched.mem.2, hLive⟩
            have hSame : (getRootRec cache b.refRoot).2 =
                cache := hFetched.same_of_pos hLive
            simp only [Bool.not_true, Bool.false_eq_true,
              if_false, if_pos hLive, hSame]
            apply ih _ _ hSound hMem hNext
            intro c hc hSeen
            rcases List.mem_append.mp hc with hc | hc
            · exact hDone c hc hSeen
            · rw [List.mem_singleton.mp hc]
              exact fun _ => hIn
          · simp only [Bool.not_true, Bool.false_eq_true,
              if_false, if_neg hLive]
            generalize getRootRec cache b.refRoot = found at *
            have hFound := hSound.fetch hFetched
            have hThere : rec ∈ found.2 :=
              hFetched.mem_iff.mpr (Or.inr hMem)
            have hGone : b.refRoot ∉ living found.2 := by
              rw [← hFetched.mem.2]
              exact not_living hFound.distinct
                hFetched.mem.1 hLive
            have hDropped :=
              hFound.drop hThere hBackrefs hReach hGone
            have hLiving : rec.foundRef - 1 ≠ 0 →
                living
                  (storeRec found.2 (rec.drop done todo b)) =
                living cache := by
              intro hLeft
              rw [← hFetched.living_eq]
              ext r
              rw [living_drop hThere]
              constructor
              · exact And.left
              · exact fun hIn => ⟨hIn, fun _ => by omega⟩
            have hRest := ih (done ++ [b.clear])
              (loop || rec.foundRef - 1 == 0) hDropped
              ((mem_drop hThere).mpr (Or.inl rfl))
              (by simp [RootRecord.drop]) (by
                intro c hc hSeen hQuiet
                rcases Bool.or_eq_false_iff.mp hQuiet with
                  ⟨hOff, hLeft⟩
                rw [hLiving (by simpa using hLeft)]
                rcases List.mem_append.mp hc with hc | hc
                · exact hDone c hc hSeen hOff
                · rw [List.mem_singleton.mp hc] at hSeen
                  cases hSeen)
            exact ⟨hRest.1, .after hFetched hSound.distinct
              hMem hBackrefs hReach hLiving hRest.2⟩

----------
-- The Loop over the Records
----------

section Cursor

variable {numbers : List Nat}
variable {c n : Nat}
variable {rest : List Nat}

theorem dropWhile_mem
    (hMem : c ∈ numbers) :
    ∃ rest, numbers.dropWhile (· != c) = c :: rest := by
  induction numbers with
  | nil => cases hMem
  | cons a numbers ih =>
      by_cases hSame : a = c
      · subst hSame
        exact ⟨numbers, by simp⟩
      · have hTail : c ∈ numbers := by
          rcases List.mem_cons.mp hMem with hHead | hTail
          · exact absurd hHead.symm hSame
          · exact hTail
        rcases ih hTail with ⟨rest, hRest⟩
        exact ⟨rest, by simp [hSame, hRest]⟩

/- From the next number on there is the rest. -/
theorem dropWhile_next
    (hNodup : numbers.Nodup)
    (hFrom : numbers.dropWhile (· != c) = c :: n :: rest) :
    numbers.dropWhile (· != n) = n :: rest := by
  have hSplit := List.takeWhile_append_dropWhile
    (p := (· != c)) (l := numbers)
  rw [hFrom] at hSplit
  rw [← hSplit] at hNodup ⊢
  rcases List.nodup_append.mp hNodup with
    ⟨_, hTail, hApart⟩
  have hOther : c ≠ n := by
    intro hSame
    exact (List.nodup_cons.mp hTail).1
      (hSame ▸ List.mem_cons_self)
  have hFront : ∀ a ∈ numbers.takeWhile (· != c),
      (a != n) = true := by
    intro a ha
    have hNot := hApart a ha n (by simp)
    simpa using hNot
  rw [List.dropWhile_append_of_pos hFront]
  simp [hOther]

theorem dropWhile_sublist
    {more : List Nat}
    (hSublist : numbers.Sublist more)
    (hNodup : more.Nodup)
    (hMem : c ∈ numbers) :
    (numbers.dropWhile (· != c)).Sublist
      (more.dropWhile (· != c)) := by
  induction hSublist with
  | slnil => cases hMem
  | @cons numbers more a hSub ih =>
      have hOther : a ≠ c := by
        intro hSame
        exact (List.nodup_cons.mp hNodup).1
          (hSame ▸ hSub.subset hMem)
      have hTail := ih (List.nodup_cons.mp hNodup).2 hMem
      simpa [hOther] using hTail
  | @cons_cons numbers more a hSub ih =>
      by_cases hSame : a = c
      · subst hSame
        simpa using hSub
      · have hTail : c ∈ numbers := by
          rcases List.mem_cons.mp hMem with hHead | hTail
          · exact absurd hHead.symm hSame
          · exact hTail
        have hRest := ih (List.nodup_cons.mp hNodup).2 hTail
        simpa [hSame] using hRest

end Cursor

/- The records that the pass has still to come to. -/
def Walk.unvisited
    (w : Walk) : List Nat :=
  match w.cursor with
  | none => []
  | some objectid => recsFrom w.cache objectid

/- What each turn of the walk keeps. -/
structure Walk.Good
    (start : RootCache)
    (w : Walk) : Prop where
  sound : Sound start w.cache
  there : ∀ objectid ∈ w.cursor, objectid ∈ ids w.cache
  visited : w.loop = false → ∀ rec ∈ w.cache,
    0 < rec.foundRef → rec.objectid ∉ w.unvisited →
      rec.Settled w.cache

/- What falls: the references, the passes, the records. -/
def Walk.rank
    (w : Walk) : ℕ ×ₗ ℕ ×ₗ ℕ :=
  toLex (reachables w.cache,
    toLex (w.loop.toNat, w.unvisited.length))

/- Where the cursor goes there is the rest of the records. -/
theorem unvisited_next
    {cache : RootCache}
    {objectid : Nat}
    (loop : Bool)
    (hDistinct : Distinct cache)
    (hThere : objectid ∈ ids cache) :
    recsFrom cache objectid =
      objectid ::
        Walk.unvisited ⟨cache, loop, nextRec cache objectid⟩ := by
  rcases dropWhile_mem hThere with ⟨rest, hRest⟩
  have hFrom : recsFrom cache objectid = objectid :: rest :=
    hRest
  unfold Walk.unvisited nextRec
  rw [hFrom]
  cases rest with
  | nil => rfl
  | cons n rest =>
      change _ = objectid :: recsFrom cache n
      have hNext := dropWhile_next hDistinct hRest
      unfold recsFrom
      exact congrArg (objectid :: ·) hNext.symm

theorem nextRec_there
    {cache : RootCache}
    {objectid n : Nat}
    (hNext : n ∈ nextRec cache objectid) :
    n ∈ ids cache := by
  have hTail := List.mem_of_mem_head? hNext
  have hDrop := List.mem_of_mem_tail hTail
  exact (List.dropWhile_sublist _).subset hDrop

/- A turn of the loop within a pass, or into the next. -/
theorem Walk.Good.turn
    {start : RootCache}
    {w v : Walk}
    (hGood : w.Good start)
    (hTurn : propagateTurn w = .inl v) :
    v.Good start ∧ v.rank < w.rank := by
  rcases w with ⟨cache, loop, cursor⟩
  have hDistinct : Distinct cache := hGood.sound.distinct
  unfold propagateTurn at hTurn
  cases cursor with
  | none =>
      cases loop with
      | false => cases hTurn
      | true =>
          rcases Sum.inl.inj hTurn
          refine ⟨⟨hGood.sound, ?_, ?_⟩, ?_⟩
          · intro objectid hFirst
            exact List.mem_of_mem_head? hFirst
          · intro _ rec hRec _ hNot
            exfalso
            apply hNot
            unfold Walk.unvisited firstRec
            cases cache with
            | nil => cases hRec
            | cons first rest =>
                have hIn := mem_ids hRec
                simpa [recsFrom, ids] using hIn
          · apply Prod.Lex.toLex_lt_toLex.mpr
            refine Or.inr ⟨rfl, ?_⟩
            apply Prod.Lex.toLex_lt_toLex.mpr
            exact Or.inl (by simp)
  | some objectid =>
      have hThere : objectid ∈ ids cache :=
        hGood.there objectid rfl
      have hNext := fun loop =>
        unvisited_next loop hDistinct hThere
      cases hFound : lookupRec cache objectid with
      | none => exact absurd hThere (lookupRec_none hFound)
      | some rec =>
          rcases lookupRec_some hFound with ⟨hMem, hIs⟩
          simp only [hFound] at hTurn
          by_cases hZero : rec.foundRef = 0
          · rw [if_pos hZero] at hTurn
            rcases Sum.inl.inj hTurn
            refine ⟨⟨hGood.sound, ?_, ?_⟩, ?_⟩
            · intro n hn
              exact nextRec_there hn
            · intro hQuiet r hr hPos hNot
              apply hGood.visited hQuiet r hr hPos
              intro hIn
              change r.objectid ∈ recsFrom cache objectid at hIn
              rw [hNext loop] at hIn
              rcases List.mem_cons.mp hIn with hSame | hRest
              · have hRec := hDistinct.eq_of_mem hr hMem
                  (hSame.trans hIs.symm)
                subst hRec
                omega
              · exact hNot hRest
            · apply Prod.Lex.toLex_lt_toLex.mpr
              refine Or.inr ⟨rfl, ?_⟩
              apply Prod.Lex.toLex_lt_toLex.mpr
              refine Or.inr ⟨rfl, ?_⟩
              change _ < (recsFrom cache objectid).length
              rw [hNext loop]
              exact Nat.lt_succ_self _
          · rw [if_neg hZero] at hTurn
            rcases Sum.inl.inj hTurn
            have hPass := checkBackrefs_spec [] rec.backrefs
              loop hGood.sound hMem
              (List.nil_append _).symm (by simp)
            rw [hIs] at hPass
            generalize checkBackrefs rec [] rec.backrefs
              (cache, loop) = state at *
            rcases state with ⟨after, flag⟩
            rcases hPass with ⟨hSound, hPassed⟩
            refine ⟨⟨hSound, ?_, ?_⟩, ?_⟩
            · intro n hn
              exact hPassed.sublist.subset (nextRec_there hn)
            · intro hQuiet r hr hPos hNot
              rcases hPassed.quiet hQuiet with
                ⟨hOff, hLiving, hSettled⟩
              by_cases hSame : r.objectid = objectid
              · exact hSettled r hr hSame
              · have hOld : r ∈ cache := by
                  rcases hPassed.others r hr hSame with
                    hOld | hNone
                  · exact hOld
                  · omega
                have hBefore := hGood.visited hOff r hOld hPos (by
                  intro hIn
                  change r.objectid ∈
                    recsFrom cache objectid at hIn
                  rw [hNext loop] at hIn
                  rcases List.mem_cons.mp hIn with
                    hHead | hRest
                  · exact hSame hHead
                  · apply hNot
                    unfold Walk.unvisited at hRest ⊢
                    cases hCursor : nextRec cache objectid with
                    | none =>
                        rw [hCursor] at hRest
                        exact hRest
                    | some n =>
                        rw [hCursor] at hRest
                        have hSub := dropWhile_sublist
                          hPassed.sublist hSound.distinct
                          (nextRec_there hCursor)
                        exact hSub.subset hRest)
                intro b hb hReach
                have hIn := hBefore b hb hReach
                rw [← hLiving] at hIn
                exact hIn
            · apply Prod.Lex.toLex_lt_toLex.mpr
              rcases hPassed.less with hLess | hSame
              · exact Or.inl hLess
              · rcases hSame
                refine Or.inr ⟨rfl, ?_⟩
                apply Prod.Lex.toLex_lt_toLex.mpr
                refine Or.inr ⟨rfl, ?_⟩
                change _ < (recsFrom cache objectid).length
                rw [hNext loop]
                exact Nat.lt_succ_self _

/- Where the loop ends nothing is left to remove. -/
theorem Walk.Good.done
    {start : RootCache}
    {w : Walk}
    {out : RootCache}
    (hGood : w.Good start)
    (hTurn : propagateTurn w = .inr out) :
    Sound start out ∧ living out = Referenced start := by
  rcases w with ⟨cache, loop, cursor⟩
  unfold propagateTurn at hTurn
  cases cursor with
  | some objectid =>
      cases hFound : lookupRec cache objectid with
      | none => simp [hFound] at hTurn
      | some rec =>
          simp only [hFound] at hTurn
          by_cases hZero : rec.foundRef = 0
          · rw [if_pos hZero] at hTurn
            cases hTurn
          · rw [if_neg hZero] at hTurn
            cases hTurn
  | none =>
      cases loop with
      | true => cases hTurn
      | false =>
          rcases Sum.inr.inj hTurn
          have hSound : Sound start cache := hGood.sound
          refine ⟨hSound, hSound.trim.settles ?_⟩
          intro r hLive
          rcases hLive with ⟨rec, hRec, hIs, hPos⟩
          by_cases hTop : rec.objectid = BTRFS_FS_TREE_OBJECTID
          · exact Or.inl (hIs.symm.trans hTop)
          · have hCount := hSound.counted rec hRec hTop
            rw [hCount] at hPos
            rcases List.countP_pos_iff.mp hPos with
              ⟨b, hb, hReach⟩
            have hSettled := hGood.visited rfl rec hRec
              (hCount ▸ hPos) (by simp [Walk.unvisited])
            refine Or.inr ⟨b.refRoot, hSettled b hb hReach, ?_⟩
            exact ⟨rec, hRec, hIs, b, hb, hReach, rfl⟩

/- The loop ends, with the roots that stay referenced. -/
theorem propagate_ends
    {start : RootCache}
    {w : Walk}
    (hGood : w.Good start) :
    Loop.Ends propagateTurn
      (fun out =>
        Sound start out ∧ living out = Referenced start) w :=
  Loop.ends_of_wellFounded
    (P := Walk.Good start)
    (R := fun _ out =>
      Sound start out ∧ living out = Referenced start)
    Walk.rank
    (fun _ _ hAt hTurn =>
      ⟨(hAt.turn hTurn).1, (hAt.turn hTurn).2,
        fun _ hOut => hOut⟩)
    (fun _ _ hAt hTurn => hAt.done hTurn)
    hGood

----------
-- The Start and the Report
----------

/- No reachable back reference is on the top-level tree. -/
def TopFree
    (cache : RootCache) : Prop :=
  ∀ rec ∈ cache, rec.objectid = BTRFS_FS_TREE_OBJECTID →
    ∀ b ∈ rec.backrefs, b.reachable = false

instance
    (cache : RootCache) : Decidable (TopFree cache) :=
  inferInstanceAs (Decidable (∀ rec ∈ cache, _ → ∀ b ∈ _, _))

theorem mem_markTop
    {cache : RootCache}
    {rec : RootRecord}
    (hRec : rec ∈ markTop cache) :
    (rec.objectid = BTRFS_FS_TREE_OBJECTID ∧
      rec.foundRef = 1 ∧
      ((∃ old ∈ cache, old.objectid = rec.objectid ∧
          old.backrefs = rec.backrefs ∧
          old.foundRootItem = rec.foundRootItem) ∨
        rec.backrefs = [] ∧ rec.foundRootItem = false ∧
          BTRFS_FS_TREE_OBJECTID ∉ ids cache)) ∨
    rec ∈ cache ∧
      rec.objectid ≠ BTRFS_FS_TREE_OBJECTID := by
  have hFetched :=
    getRootRec_fetched cache BTRFS_FS_TREE_OBJECTID
  rcases hFetched.mem with ⟨_, hTop⟩
  unfold markTop at hRec
  generalize getRootRec cache BTRFS_FS_TREE_OBJECTID = found
    at *
  let marked : RootRecord := { found.1 with foundRef := 1 }
  have hThere : marked.objectid ∈ ids found.2 :=
    hFetched.there
  rcases (mem_storeRec hThere).mp hRec with
    rfl | ⟨hOld, hOther⟩
  · refine Or.inl ⟨hTop, rfl, ?_⟩
    rcases hFetched.old_or_blank with hOld | ⟨hBlank, hNew⟩
    · exact Or.inl ⟨found.1, hOld, rfl, rfl, rfl⟩
    · refine Or.inr ⟨?_, ?_, hNew⟩
      · change found.1.backrefs = []
        rw [hBlank]
      · change found.1.foundRootItem = false
        rw [hBlank]
  · change rec.objectid ≠ found.1.objectid at hOther
    rw [hTop] at hOther
    rcases hFetched.mem_iff.mp hOld with rfl | hOld
    · exact absurd hTop hOther
    · exact Or.inr ⟨hOld, hOther⟩

theorem top_mem_markTop
    (cache : RootCache) :
    BTRFS_FS_TREE_OBJECTID ∈ living (markTop cache) := by
  have hFetched :=
    getRootRec_fetched cache BTRFS_FS_TREE_OBJECTID
  unfold markTop
  generalize getRootRec cache BTRFS_FS_TREE_OBJECTID = found
    at *
  let marked : RootRecord := { found.1 with foundRef := 1 }
  have hThere : marked.objectid ∈ ids found.2 :=
    hFetched.there
  exact ⟨marked, (mem_storeRec hThere).mpr (Or.inl rfl),
    hFetched.mem.2, Nat.one_pos⟩

/- The other records are left as they are. -/
theorem mem_markTop_of_mem
    {cache : RootCache}
    {rec : RootRecord}
    (hRec : rec ∈ cache)
    (hOther : rec.objectid ≠ BTRFS_FS_TREE_OBJECTID) :
    rec ∈ markTop cache := by
  have hFetched :=
    getRootRec_fetched cache BTRFS_FS_TREE_OBJECTID
  unfold markTop
  generalize getRootRec cache BTRFS_FS_TREE_OBJECTID = found
    at *
  let marked : RootRecord := { found.1 with foundRef := 1 }
  have hThere : marked.objectid ∈ ids found.2 :=
    hFetched.there
  refine (mem_storeRec hThere).mpr (Or.inr ⟨?_, ?_⟩)
  · exact hFetched.mem_iff.mpr (Or.inr hRec)
  · change rec.objectid ≠ found.1.objectid
    rw [hFetched.mem.2]
    exact hOther

theorem Distinct.markTop
    {cache : RootCache}
    (hDistinct : Distinct cache) :
    Distinct (RootRefs.markTop cache) := by
  have hFetched :=
    getRootRec_fetched cache BTRFS_FS_TREE_OBJECTID
  exact (hFetched.distinct hDistinct).store

theorem refers_markTop
    {cache : RootCache}
    (hTop : TopFree cache)
    {r s : Nat} :
    Refers (markTop cache) r s ↔ Refers cache r s := by
  constructor
  · intro hRefers
    rcases hRefers with ⟨rec, hRec, hIs, b, hb, hReach, hFrom⟩
    rcases mem_markTop hRec with
      ⟨hMarked, _, hOld | ⟨hEmpty, _⟩⟩ | ⟨hOld, _⟩
    · rcases hOld with ⟨old, hOld, hSame, hBackrefs, _⟩
      rw [← hBackrefs] at hb
      have hNone := hTop old hOld (hSame.trans hMarked) b hb
      rw [hReach] at hNone
      cases hNone
    · rw [hEmpty] at hb
      cases hb
    · exact ⟨rec, hOld, hIs, b, hb, hReach, hFrom⟩
  · intro hRefers
    rcases hRefers with ⟨rec, hRec, hIs, b, hb, hReach, hFrom⟩
    have hOther : rec.objectid ≠ BTRFS_FS_TREE_OBJECTID := by
      intro hMarked
      have hNone := hTop rec hRec hMarked b hb
      rw [hReach] at hNone
      cases hNone
    exact ⟨rec, mem_markTop_of_mem hRec hOther, hIs, b, hb,
      hReach, hFrom⟩

/- The state in which the loop begins. -/
theorem sound_markTop
    {items : Reported}
    {cache : RootCache}
    (hCounted : Counted items cache)
    (hTop : TopFree cache) :
    Sound cache (markTop cache) := by
  constructor
  · exact hCounted.distinct.markTop
  · intro rec hRec hOther
    rcases mem_markTop hRec with ⟨hMarked, _⟩ | ⟨hOld, _⟩
    · exact absurd hMarked hOther
    · exact (hCounted.each rec hOld).counted
  · intro rec hRec hMarked
    rcases mem_markTop hRec with
      ⟨_, hOne, hOld | ⟨hEmpty, _⟩⟩ | ⟨_, hOther⟩
    · rcases hOld with ⟨old, hOld, hSame, hBackrefs, _⟩
      refine ⟨by omega, ?_⟩
      rw [← hBackrefs]
      exact hTop old hOld (hSame.trans hMarked)
    · rw [hEmpty]
      exact ⟨by omega, by simp⟩
    · exact absurd hMarked hOther
  · have hAll : Supported.largest
        (· = BTRFS_FS_TREE_OBJECTID) (Refers cache) ⊆
          living (markTop cache) := by
      intro r hr
      rcases Supported.mem_largest.mp hr with
        rfl | ⟨s, _, hRefers⟩
      · exact top_mem_markTop cache
      · rcases (refers_markTop hTop).mpr hRefers with
          ⟨rec, hRec, hIs, b, hb, hReach, _⟩
        refine ⟨rec, hRec, hIs, ?_⟩
        rcases mem_markTop hRec with ⟨_, hOne, _⟩ | ⟨hOld, _⟩
        · omega
        · rw [(hCounted.each rec hOld).counted]
          exact List.countP_pos_iff.mpr ⟨b, hb, hReach⟩
    apply (Supported.Trim.start hAll).cut
    · intro r s hRefers
      exact (refers_markTop hTop).mp hRefers
    · intro r s hRefers _
      exact (refers_markTop hTop).mpr hRefers
  · intro rec hRec hItem
    rcases mem_markTop hRec with
      ⟨_, _, hOld | ⟨_, hNone, _⟩⟩ | ⟨hOld, _⟩
    · rcases hOld with ⟨old, hOld, hSame, _, hFlag⟩
      exact ⟨old, hOld, hSame, hFlag.trans hItem⟩
    · rw [hItem] at hNone
      cases hNone
    · exact ⟨rec, hOld, rfl, hItem⟩
  · intro old hOld
    by_cases hMarked : old.objectid = BTRFS_FS_TREE_OBJECTID
    · rcases top_mem_markTop cache with ⟨rec, hRec, hIs, _⟩
      refine ⟨rec, hRec, hIs.trans hMarked.symm, ?_⟩
      rcases mem_markTop hRec with
        ⟨_, _, hThere⟩ | ⟨_, hOther⟩
      · rcases hThere with
          ⟨same, hSame, hId, _, hFlag⟩ | ⟨_, _, hNew⟩
        · have hOne := hCounted.distinct.eq_of_mem hOld hSame
            ((hMarked.trans hIs.symm).trans hId.symm)
          rw [hOne, hFlag]
        · exact absurd (hMarked ▸ mem_ids hOld) hNew
      · exact absurd hIs hOther
    · exact ⟨old, mem_markTop_of_mem hOld hMarked, rfl, rfl⟩

theorem notReferenced_mem
    {checkOrphanItem : Nat → Int}
    {cache : RootCache}
    {r : Nat} :
    .notReferenced r ∈
        (reportRecs checkOrphanItem cache).messages ↔
      ∃ rec ∈ cache, rec.objectid = r ∧ rec.Lost ∧
        checkOrphanItem r ≠ 0 ∧ rec.foundRootItem = true := by
  have hOther : ∀ rec : RootRecord,
      .notReferenced r ∉ reportBackrefs rec := by
    intro rec
    unfold reportBackrefs
    dsimp only
    split
    · simp
    · simp
  have hRec : ∀ rec : RootRecord,
      .notReferenced r ∈ reportRec checkOrphanItem rec ↔
        rec.objectid = r ∧ rec.Lost ∧
          checkOrphanItem r ≠ 0 ∧
          rec.foundRootItem = true := by
    intro rec
    unfold reportRec
    by_cases hLost : rec.Lost
    · by_cases hOrphan : checkOrphanItem rec.objectid = 0
      · simp only [if_pos hLost, if_pos hOrphan]
        constructor
        · intro hMem
          cases hMem
        · rintro ⟨rfl, _, hNot, _⟩
          exact absurd hOrphan hNot
      · cases hItem : rec.foundRootItem with
        | false => simp [hLost, hOrphan]
        | true =>
            simp only [if_pos hLost, if_neg hOrphan,
              Bool.not_true, Bool.false_eq_true, if_false,
              List.mem_cons, hOther, or_false,
              Message.notReferenced.injEq]
            constructor
            · intro hIs
              subst hIs
              exact ⟨rfl, hLost, hOrphan, trivial⟩
            · intro hAll
              exact hAll.1.symm
    · simp only [if_neg hLost]
      constructor
      · intro hMem
        exact absurd hMem (hOther rec)
      · intro hAll
        exact absurd hAll.2.1 hLost
  unfold reportRecs
  simp only [List.mem_flatMap, hRec]

theorem not_living_iff
    {cache : RootCache}
    (hDistinct : Distinct cache)
    {rec : RootRecord}
    (hMem : rec ∈ cache) :
    rec.objectid ∉ living cache ↔ rec.foundRef = 0 := by
  constructor
  · intro hNot
    by_contra hPos
    exact hNot ⟨rec, hMem, rfl, by omega⟩
  · intro hZero
    exact not_living hDistinct hMem (by omega)

/- What is printed is what has to be reported. -/
theorem Sound.reports
    {checkOrphanItem : Nat → Int}
    {start out : RootCache}
    (hSound : Sound start out)
    (hLiving : living out = Referenced start)
    {r : Nat} :
    .notReferenced r ∈
        (reportRecs checkOrphanItem out).messages ↔
      r ∈ Unreferenced checkOrphanItem start := by
  rw [notReferenced_mem]
  constructor
  · intro hPrinted
    rcases hPrinted with
      ⟨rec, hRec, hIs, ⟨hZero, hFirst, hLast⟩, hOrphan, hItem⟩
    have hDead := (not_living_iff hSound.distinct hRec).mpr hZero
    rcases hSound.told rec hRec hItem with
      ⟨old, hOld, hSame, hFlag⟩
    rw [hLiving] at hDead
    rw [hIs] at hDead hFirst hLast hSame
    exact ⟨hFirst, hLast, hDead, hOrphan, old, hOld, hSame,
      hFlag⟩
  · intro hHas
    rcases hHas with
      ⟨hFirst, hLast, hDead, hOrphan, old, hOld, hIs, hItem⟩
    rcases hSound.kept old hOld with ⟨rec, hRec, hSame, hFlag⟩
    have hNumber := hSame.trans hIs
    rw [← hLiving, ← hNumber] at hDead
    have hZero := (not_living_iff hSound.distinct hRec).mp hDead
    rw [← hNumber] at hFirst hLast
    exact ⟨rec, hRec, hNumber, ⟨hZero, hFirst, hLast⟩, hOrphan,
      hFlag.trans hItem⟩

section Order

variable {cache cache' : RootCache}

theorem refers_perm
    (hPerm : cache.Perm cache') :
    Refers cache = Refers cache' := by
  funext r s
  unfold Refers
  simp only [hPerm.mem_iff]

theorem referenced_perm
    (hPerm : cache.Perm cache') :
    Referenced cache = Referenced cache' := by
  unfold Referenced
  rw [refers_perm hPerm]

theorem unreferenced_perm
    (checkOrphanItem : Nat → Int)
    (hPerm : cache.Perm cache') :
    Unreferenced checkOrphanItem cache =
      Unreferenced checkOrphanItem cache' := by
  unfold Unreferenced
  rw [referenced_perm hPerm]
  simp only [hPerm.mem_iff]

theorem Counted.perm
    {items : Reported}
    (hCounted : Counted items cache')
    (hPerm : cache.Perm cache') :
    Counted items cache where
  distinct :=
    (List.Perm.map _ hPerm).nodup_iff.mpr hCounted.distinct
  each := fun rec hRec =>
    hCounted.each rec (hPerm.mem_iff.mp hRec)

end Order

/- Two roots that only refer to each other, and one that the
   top-level tree refers to. -/
def exampleScans : List Scan :=
  [ .fsRoot 5 1, .fsRoot 256 1, .fsRoot 257 1, .fsRoot 258 1,
    .item ⟨256, 257, 256, 2, [97], .dirItem, 0⟩,
    .item ⟨256, 257, 256, 2, [97], .rootRef, 0⟩,
    .item ⟨257, 256, 256, 2, [98], .rootRef, 0⟩,
    .item ⟨257, 256, 256, 2, [98], .dirItem, 0⟩,
    .item ⟨258, 5, 256, 2, [99], .rootRef, 0⟩,
    .item ⟨258, 5, 256, 2, [99], .dirItem, 0⟩ ]

end RootRefs

end Check

end BtrfsProgs
