import BtrfsProgs.ExtentIo.Queries
import BtrfsProgs.ExtentTree.Reserve

/-
  The search for a free extent ends, and what it finds is in
  one block group that may be allocated from.

  The turns of `find_free_extent` are counted by how often it
  may still start anew, and by the addresses that are left.
  Those of `find_search_start` are counted by the groups that
  are left, once from its group on and once from the start.

  Main declarations:
    * `SameGroups` and `Space.Fits`
    * `searchGroup_enough`
    * `findSearchStart_ends`
    * `FreePlace`
    * `findFreeExtent_ends_sound`
-/

----------
-- Groups That Are Kept
----------

namespace BtrfsProgs

namespace ExtentTree

open Check
open ExtentIo
open RangeTree
open Volumes

/- The group, whether it has been read or not. -/
def BlockGroup.unread
    (group : BlockGroup) : BlockGroup :=
  { group with cached := false }

@[simp]
theorem BlockGroup.unread_end
    (group : BlockGroup) :
    group.unread.end_ = group.end_ :=
  rfl

section Unread

variable {g h : BlockGroup}

theorem BlockGroup.unread_start_eq
    (hUnread : g.unread = h.unread) :
    g.start = h.start := by
  have hSame := congrArg BlockGroup.start hUnread
  exact hSame

theorem BlockGroup.unread_end_eq
    (hUnread : g.unread = h.unread) :
    g.end_ = h.end_ := by
  have hSame := congrArg BlockGroup.end_ hUnread
  exact hSame

theorem BlockGroup.unread_ro_eq
    (hUnread : g.unread = h.unread) :
    g.ro = h.ro := by
  have hSame := congrArg BlockGroup.ro hUnread
  exact hSame

theorem BlockGroup.unread_bits_eq
    (bits : BitVec 64)
    (hUnread : g.unread = h.unread) :
    blockGroupBits g bits = blockGroupBits h bits := by
  have hSame := congrArg (blockGroupBits · bits) hUnread
  exact hSame

end Unread

/- The groups are the same, but for what has been read. -/
def SameGroups
    (s t : Space) : Prop :=
  t.groups.map BlockGroup.unread =
    s.groups.map BlockGroup.unread

/-
  Addresses do not wrap: no free byte is the last of all, and
  a stripe, whose size is a power of two, fits behind every
  group.
-/
structure Space.Fits
    (space : Space) : Prop where
  free : ∀ x, Marked space.freeSpaceCache x → x < u64Max
  stripesize : space.stripesize ∣ 2 ^ 64
  groups :
    ∀ g ∈ space.groups, g.end_ + space.stripesize ≤ 2 ^ 64

section Groups

variable {s t : Space}

theorem SameGroups.exists_mem
    {g : BlockGroup}
    (hSame : SameGroups s t)
    (hMem : g ∈ t.groups) :
    ∃ h ∈ s.groups, h.unread = g.unread := by
  have hIn : g.unread ∈ t.groups.map BlockGroup.unread :=
    List.mem_map_of_mem hMem
  rw [hSame] at hIn
  exact List.mem_map.mp hIn

theorem SameGroups.length
    (hSame : SameGroups s t) :
    t.groups.length = s.groups.length := by
  have hLength := congrArg List.length hSame
  rw [List.length_map, List.length_map] at hLength
  exact hLength

/- What has less of a list has less members that have it. -/
theorem countP_lt_of_mem
    {α : Type}
    {p q : α → Bool}
    {l : List α}
    {a : α}
    (hLess : ∀ b, p b = true → q b = true)
    (hMem : a ∈ l)
    (hHas : q a = true)
    (hNot : p a = false) :
    l.countP p < l.countP q := by
  rcases List.append_of_mem hMem with ⟨before, after, rfl⟩
  have hBefore := List.countP_mono_left (l := before)
    fun b _ => hLess b
  have hAfter := List.countP_mono_left (l := after)
    fun b _ => hLess b
  rw [List.countP_append, List.countP_append,
    List.countP_cons_of_pos hHas,
    List.countP_cons_of_neg (by simp [hNot])]
  omega

/- How many groups end behind an address. -/
def groupsBehind
    (space : Space)
    (bytenr : Nat) : Nat :=
  (space.groups.map BlockGroup.unread).countP
    fun g => bytenr < g.end_

theorem SameGroups.groupsBehind
    (hSame : SameGroups s t)
    (bytenr : Nat) :
    groupsBehind t bytenr = groupsBehind s bytenr := by
  unfold ExtentTree.groupsBehind
  rw [hSame]

/- A group that ends behind the address is one more. -/
theorem groupsBehind_lt
    {group : BlockGroup}
    {bytenr : Nat}
    (hMem : group ∈ s.groups)
    (hBehind : bytenr < group.end_) :
    groupsBehind s group.end_ < groupsBehind s bytenr := by
  have hIn : group.unread ∈ s.groups.map BlockGroup.unread :=
    List.mem_map_of_mem hMem
  refine countP_lt_of_mem ?_ hIn (decide_eq_true hBehind) ?_
  · intro other hLater
    rw [decide_eq_true_eq] at hLater ⊢
    exact hBehind.trans hLater
  · rw [decide_eq_false_iff_not]
    exact Nat.lt_irrefl _

theorem lookupFirstBlockGroup_behind
    {group : BlockGroup}
    {bytenr : Nat}
    (hLookup : lookupFirstBlockGroup s bytenr = some group) :
    bytenr < group.end_ := by
  have hFound := List.find?_some hLookup
  rw [decide_eq_true_eq] at hFound
  exact (Nat.le_max_left _ _).trans_lt hFound

end Groups

----------
-- Reading a Group
----------

section Reading

variable {tree : ExtentIoTree}

theorem setExtentDirty_some
    {start end_ : Nat}
    (hTree : Uniform EXTENT_DIRTY tree)
    (hRange : start ≤ end_)
    (hTop : end_ < u64Max) :
    ∃ tree', setExtentDirty tree start end_ = some tree' := by
  rcases hTree.setExtentBits EXTENT_DIRTY_ne_zero hRange hTop
    with ⟨tree', hSet, _⟩
  exact ⟨tree', hSet⟩

theorem cacheLoop_some
    {group : BlockGroup}
    (leafsize : Nat)
    (hTop : group.end_ < u64Max)
    (keys : List ExtentKey)
    (last : Nat)
    (hTree : Uniform EXTENT_DIRTY tree) :
    ∃ last' tree',
      cacheLoop leafsize group keys last tree =
          some (last', tree') ∧
        Uniform EXTENT_DIRTY tree' := by
  induction keys generalizing last tree with
  | nil => exact ⟨last, tree, rfl, hTree⟩
  | cons key keys ih =>
      unfold cacheLoop
      split_ifs with hBefore hBehind hExtent hGap
      · exact ih last hTree
      · exact ⟨last, tree, rfl, hTree⟩
      · rcases setExtentDirty_some hTree
          (show last ≤ key.objectid - 1 by omega)
          (show key.objectid - 1 < u64Max by omega) with
          ⟨next, hSet⟩
        have hNext := (setExtentDirty_marked hTree (by omega)
          (by omega) hSet).1
        rcases ih (key.extentEnd leafsize) hNext with
          ⟨last', tree', hLoop, hUniform⟩
        refine ⟨last', tree', ?_, hUniform⟩
        rw [hSet]
        exact hLoop
      · exact ih (key.extentEnd leafsize) hTree
      · exact ih last hTree

theorem cacheGaps_some
    {leafsize : Nat}
    {group : BlockGroup}
    (hTop : group.end_ < u64Max)
    (keys : List ExtentKey)
    (hTree : Uniform EXTENT_DIRTY tree) :
    ∃ tree', cacheGaps leafsize keys group tree =
      some tree' := by
  rcases cacheLoop_some leafsize hTop
    (keys.dropWhile fun key =>
      key.objectid < max group.start SUPER_INFO_OFFSET)
    (max group.start SUPER_INFO_OFFSET) hTree with
    ⟨last, next, hLoop, hUniform⟩
  unfold cacheGaps
  dsimp only
  rw [hLoop]
  dsimp only [Option.bind_eq_bind, Option.bind_some]
  split_ifs with hMore
  · exact setExtentDirty_some hUniform (by omega) (by omega)
  · exact ⟨next, rfl⟩

/- What reading a group does to the space. -/
structure Read
    (s t : Space) : Prop where
  searched : Searched s t
  same : SameGroups s t
  stripesize : t.stripesize = s.stripesize
  fits : s.Ok → s.Fits → t.Fits

theorem Read.refl
    (s : Space) :
    Read s s :=
  ⟨Searched.refl s, rfl, rfl, fun _ hFits => hFits⟩

theorem Read.trans
    {s t u : Space}
    (hFirst : Read s t)
    (hThen : Read t u) :
    Read s u where
  searched := hFirst.searched.trans hThen.searched
  same := Eq.trans hThen.same hFirst.same
  stripesize := hThen.stripesize.trans hFirst.stripesize
  fits := fun hOk hFits =>
    hThen.fits (hFirst.searched.ok hOk) (hFirst.fits hOk hFits)

/- Reading a group of the space does not fail. -/
theorem cacheBlockGroup_read
    {space : Space}
    {group : BlockGroup}
    (hOk : space.Ok)
    (hGroup : group ∈ space.groups) :
    ∃ space', cacheBlockGroup space group = some space' ∧
      Read space space' := by
  have hTop := hOk.group_end hGroup
  have hSorted := items_keys_sorted hOk
  rcases hOk.groups group hGroup with
    ⟨chunk, hChunk, hStart, _, hFits⟩
  have hPos := superStripes_pos hOk.chunks hChunk hFits
  rw [hStart] at hPos
  rcases cacheGaps_some hTop
    (space.items.map ExtentEntry.key) hOk.free with
    ⟨gaps, hGaps⟩
  have hWithin := cacheGaps_within hTop hSorted hOk.free hGaps
  rcases clearStripes_spec hPos hWithin.1 with
    ⟨free, hFree, _, hLess⟩
  by_cases hCached : group.cached = true
  · refine ⟨space, ?_, Read.refl space⟩
    unfold cacheBlockGroup
    rw [if_pos hCached]
  · have hSome : cacheBlockGroup space group = some
        { space with
          freeSpaceCache := free
          groups := space.groups.map fun g =>
            if g.start = group.start then
              { g with cached := true }
            else
              g } := by
      unfold cacheBlockGroup removeSbFromCache
      rw [if_neg hCached, hGaps]
      dsimp only [Option.bind_eq_bind, Option.bind_some]
      rw [hFree]
      rfl
    have hSame : (space.groups.map fun g =>
        if g.start = group.start then
          { g with cached := true }
        else
          g).map BlockGroup.unread =
        space.groups.map BlockGroup.unread := by
      rw [List.map_map]
      apply List.map_congr_left
      intro g _
      rw [Function.comp_apply]
      split_ifs
      · rfl
      · rfl
    refine ⟨_, hSome, cacheBlockGroup_searched hGroup hSome,
      hSame, rfl, ?_⟩
    intro _ hFits
    refine ⟨?_, hFits.stripesize, ?_⟩
    · intro x hMarked
      rcases hWithin.2 x ((hLess x).mp hMarked).1 with
        hOld | hNew
      · exact hFits.free x hOld
      · omega
    · intro g hMem
      have hIn : g.unread ∈
          space.groups.map BlockGroup.unread := by
        rw [← hSame]
        exact List.mem_map_of_mem hMem
      rcases List.mem_map.mp hIn with ⟨h, hOld, hUnread⟩
      rw [← g.unread_end, ← hUnread, h.unread_end]
      exact hFits.groups h hOld

end Reading

----------
-- Searching a Group
----------

section Group

variable {free : ExtentIoTree}
variable {num groupEnd : Nat}

/- How many states end at an address or behind it. -/
def statesFrom
    (free : ExtentIoTree)
    (last : Nat) : Nat :=
  free.countP fun s => last ≤ s.end_

/- Every turn goes past a state. -/
theorem statesFrom_lt
    {last lo hi : Nat}
    (hTree : WellFormed free)
    (hFind :
      findFirstExtentBit free last EXTENT_DIRTY =
        some (lo, hi)) :
    statesFrom free (hi + 1) < statesFrom free last := by
  have hReach := (findFirstExtentBit_marked hFind).1
  rcases findFirstExtentBit_least hTree hFind with
    ⟨s, hMem, _, hEnd, _⟩
  refine countP_lt_of_mem ?_ hMem ?_ ?_
  · intro t hLater
    rw [decide_eq_true_eq] at hLater ⊢
    omega
  · rw [decide_eq_true_eq]
    omega
  · rw [decide_eq_false_iff_not]
    omega

/- The loop in a group ends: more turns make no difference. -/
theorem searchGroup_more
    {fuel last : Nat}
    (more : Nat)
    (hTree : WellFormed free)
    (hFuel : statesFrom free last < fuel) :
    searchGroup free num groupEnd (fuel + more) last =
      searchGroup free num groupEnd fuel last := by
  induction fuel generalizing last with
  | zero => omega
  | succ fuel ih =>
      rw [Nat.add_right_comm fuel 1 more]
      unfold searchGroup
      cases hFind :
          findFirstExtentBit free last EXTENT_DIRTY with
      | none => rfl
      | some found =>
          have hLess := statesFrom_lt hTree hFind
          dsimp only
          rw [ih (by omega)]

theorem searchGroup_enough
    (more last : Nat)
    (hTree : WellFormed free) :
    searchGroup free num groupEnd (free.length + 1 + more)
        last =
      searchGroup free num groupEnd (free.length + 1) last := by
  apply searchGroup_more more hTree
  exact Nat.lt_succ_of_le List.countP_le_length

/- The place is in the rest of the group. -/
theorem searchGroup_place
    {fuel last start : Nat}
    (hSearch :
      searchGroup free num groupEnd fuel last = some start) :
    last ≤ start ∧ start + num ≤ groupEnd := by
  induction fuel generalizing last with
  | zero => cases hSearch
  | succ fuel ih =>
      unfold searchGroup at hSearch
      cases hFind :
          findFirstExtentBit free last EXTENT_DIRTY with
      | none =>
          rw [hFind] at hSearch
          cases hSearch
      | some found =>
          have hReach := (findFirstExtentBit_marked hFind).1
          rw [hFind] at hSearch
          dsimp only at hSearch
          split_ifs at hSearch with hShort hOut
          · have hRest := ih hSearch
            exact ⟨by omega, hRest.2⟩
          · cases hSearch
            exact ⟨Nat.le_max_left _ _, by omega⟩

/- The loop in a group ends, however many turns it may take. -/
def GroupSearchEnds
    (space : Space) : Prop :=
  ∀ num groupEnd last more,
    searchGroup space.freeSpaceCache num groupEnd
        (space.freeSpaceCache.length + 1 + more) last =
      searchGroup space.freeSpaceCache num groupEnd
        (space.freeSpaceCache.length + 1) last

end Group

----------
-- The Search over Groups
----------

/- What the end of a search says. -/
def Ended
    (space : Space)
    (searchStart num : Nat)
    (data : BitVec 64) : SearchEnd → Prop
  | .found group start =>
      (∃ g ∈ space.groups, g.unread = group.unread) ∧
        group.ro = false ∧ blockGroupBits group data = true ∧
        searchStart ≤ start ∧ group.start ≤ start ∧
        start + num ≤ group.end_ ∧
        ∀ x, start ≤ x → x < start + num →
          Marked space.freeSpaceCache x
  | .noSpace last => lookupFirstBlockGroup space last = none
  | .warned => lookupBlockGroup space searchStart = none

/- `out:` says that there is nothing behind the place. -/
theorem ended_searchOut
    {space : Space}
    {searchStart last : Nat}
    (num : Nat)
    (data : BitVec 64)
    (hLast : lookupFirstBlockGroup space last = none) :
    Ended space searchStart num data
      (searchOut space searchStart last) := by
  unfold searchOut
  cases hAt : lookupBlockGroup space searchStart with
  | none => exact hAt
  | some group => exact hLast

section Search

variable {searchStart num : Nat}
variable {data : BitVec 64}

/- The turns that are left are enough. -/
theorem findSearchStartLoop_ends
    {fuel : Nat}
    {space : Space}
    {cache : BlockGroup}
    {wrapped : Bool}
    (hOk : space.Ok)
    (hCache : cache ∈ space.groups)
    (hFuel : (if wrapped then 0 else space.groups.length) +
      groupsBehind space cache.end_ < fuel) :
    ∃ space' result,
      findSearchStartLoop searchStart num data fuel space
          cache wrapped = some (space', result) ∧
        Read space space' ∧
        Ended space' searchStart num data result := by
  induction fuel generalizing space cache wrapped with
  | zero => omega
  | succ fuel ih =>
      rcases cacheBlockGroup_read hOk hCache with
        ⟨next, hNext, hRead⟩
      have hOkNext := hRead.searched.ok hOk
      have hLength := hRead.same.length
      have hBehind := hRead.same.groupsBehind
      unfold findSearchStartLoop
      rw [hNext]
      dsimp only [Option.bind_eq_bind, Option.bind_some]
      cases hPlace : (if (cache.ro || !blockGroupBits cache data)
          = true then none
        else searchGroup next.freeSpaceCache num cache.end_
          (next.freeSpaceCache.length + 1)
            (max searchStart cache.start)) with
      | some start =>
          refine ⟨next, .found cache start, rfl, hRead, ?_⟩
          split_ifs at hPlace with hUsable
          have hPlaceAt := searchGroup_place hPlace
          have hGroup := hRead.same.symm
          rw [Bool.or_eq_true, not_or, Bool.not_eq_true,
            Bool.not_eq_true', Bool.not_eq_false] at hUsable
          refine ⟨SameGroups.exists_mem hGroup hCache,
            hUsable.1, hUsable.2, by omega, by omega,
            hPlaceAt.2, searchGroup_free hPlace⟩
      | none =>
          dsimp only
          cases hLookup :
              lookupFirstBlockGroup next cache.end_ with
          | some group =>
              have hMem := lookupFirstBlockGroup_mem hLookup
              have hLater := groupsBehind_lt hMem
                (lookupFirstBlockGroup_behind hLookup)
              rw [hBehind cache.end_] at hLater
              have hLeft :
                  (if wrapped then 0 else next.groups.length) +
                    groupsBehind next group.end_ < fuel := by
                rw [hLength]
                omega
              rcases ih hOkNext hMem hLeft with
                ⟨space', result, hLoop, hRest, hEnded⟩
              exact ⟨space', result, hLoop, hRead.trans hRest,
                hEnded⟩
          | none =>
              cases wrapped with
              | true =>
                  exact ⟨next, _, rfl, hRead,
                    ended_searchOut num data hLookup⟩
              | false =>
                  rw [if_neg Bool.false_ne_true] at hFuel
                  cases hAgain :
                      lookupFirstBlockGroup next
                        searchStart with
                  | none =>
                      refine ⟨next,
                        searchOut next searchStart searchStart,
                        ?_, hRead,
                        ended_searchOut num data hAgain⟩
                      dsimp only
                      rw [if_neg Bool.false_ne_true]
                  | some group =>
                      have hMem :=
                        lookupFirstBlockGroup_mem hAgain
                      have hLater := groupsBehind_lt hMem
                        (lookupFirstBlockGroup_behind hAgain)
                      have hMost :
                          groupsBehind next searchStart ≤
                            next.groups.length := by
                        unfold groupsBehind
                        refine List.countP_le_length.trans ?_
                        rw [List.length_map]
                      have hLeft :
                          (if true then 0
                            else next.groups.length) +
                            groupsBehind next group.end_ <
                              fuel := by
                        rw [if_pos rfl]
                        omega
                      rcases ih hOkNext hMem hLeft with
                        ⟨space', result, hLoop, hRest, hEnded⟩
                      refine ⟨space', result, ?_,
                        hRead.trans hRest, hEnded⟩
                      dsimp only
                      rw [if_neg Bool.false_ne_true]
                      exact hLoop

theorem findSearchStart_ends
    {space : Space}
    {cache : Option BlockGroup}
    (totalNeeded : Nat)
    (data : BitVec 64)
    (hOk : space.Ok)
    (hCache : ∀ g, cache = some g → g ∈ space.groups)
    (hNone : cache = none →
      lookupFirstBlockGroup space searchStart = none) :
    ∃ space' result,
      findSearchStart space cache searchStart totalNeeded
          data = some (space', result) ∧
        Read space space' ∧
        Ended space' searchStart (asInt totalNeeded) data
          result := by
  unfold findSearchStart
  cases cache with
  | none =>
      exact ⟨space, _, rfl, Read.refl space,
        ended_searchOut _ _ (hNone rfl)⟩
  | some cache =>
      have hMost : groupsBehind space cache.end_ ≤
          space.groups.length := by
        unfold groupsBehind
        refine List.countP_le_length.trans ?_
        rw [List.length_map]
      apply findSearchStartLoop_ends hOk (hCache cache rfl)
      rw [if_neg Bool.false_ne_true]
      omega

end Search

----------
-- A Turn of the Search
----------

section Align

variable {stripesize : Nat}

theorem stripeAlign_lt
    (stripesize val : Nat) :
    stripeAlign stripesize val < 2 ^ 64 := by
  unfold stripeAlign
  exact (Nat.div_mul_le_self _ _).trans_lt
    (Nat.mod_lt _ (by decide))

/- Below the end of a group, aligning does not wrap. -/
theorem le_stripeAlign
    {val top : Nat}
    (hPower : stripesize ∣ 2 ^ 64)
    (hRoom : top + stripesize ≤ 2 ^ 64)
    (hVal : val < top) :
    val ≤ stripeAlign stripesize val := by
  have hPos : 0 < stripesize :=
    Nat.pos_of_dvd_of_pos hPower (by decide)
  unfold stripeAlign
  rw [Nat.mod_eq_of_lt (by omega)]
  have hSplit :=
    Nat.div_add_mod (val + (stripesize - 1)) stripesize
  have hInner :=
    Nat.mod_lt (val + (stripesize - 1)) hPos
  rw [Nat.mul_comm] at hSplit
  omega

end Align

/- What is handed out, once the search has read groups. -/
structure FreePlace
    (space space' : Space)
    (req : Request)
    (start : Nat) : Prop where
  free : ∀ x, start ≤ x → x < start + req.numBytes →
    Marked space'.freeSpaceCache x
  group : ∃ g ∈ space.groups,
    g.ro = false ∧ blockGroupBits g req.data = true ∧
      g.start ≤ start ∧ start + req.numBytes ≤ g.end_
  notInserted : ∀ op ∈ space.extentIns,
    ∀ x, start ≤ x → x < start + req.numBytes →
      ¬(op.bytenr ≤ x ∧ x < op.bytenr + op.numBytes)
  notPinned : ∀ x, start ≤ x → x < start + req.numBytes →
    ¬Marked space.pinnedExtents x
  notExcluded : ∀ x, start ≤ x → x < start + req.numBytes →
    ¬(req.excludeStart ≤ x ∧
      x < req.excludeStart + req.excludeNr)

section Turns

variable {req : Request}
variable {space space' : Space}
variable {group : BlockGroup}
variable {start num : Nat}
variable {searchStart totalNeeded : Nat}
variable {wrapped fullScan : Bool}
variable {pick : Option Nat}

theorem FreePlace.before
    {next : Space}
    (hRead : Read space next)
    (hPlace : FreePlace next space' req start) :
    FreePlace space space' req start where
  free := hPlace.free
  group := by
    rcases hPlace.group with
      ⟨g, hMem, hRo, hBits, hLow, hHigh⟩
    rcases hRead.same.exists_mem hMem with ⟨h, hOld, hUnread⟩
    refine ⟨h, hOld, ?_, ?_, ?_, ?_⟩
    · rw [h.unread_ro_eq hUnread]
      exact hRo
    · rw [h.unread_bits_eq req.data hUnread]
      exact hBits
    · rw [h.unread_start_eq hUnread]
      exact hLow
    · rw [h.unread_end_eq hUnread]
      exact hHigh
  notInserted := by
    rw [← hRead.searched.extentIns]
    exact hPlace.notInserted
  notPinned := by
    rw [← hRead.searched.pinned]
    exact hPlace.notPinned
  notExcluded := hPlace.notExcluded

/- A place that is found and passes the checks. -/
theorem checkPlace_free
    (hOk : space.Ok)
    (hExclude : req.excludeStart + req.excludeNr < 2 ^ 64)
    (hNum : req.numBytes ≤ num)
    (hEnded : Ended space searchStart num req.data
      (.found group start))
    (hCheck : checkPlace space req group start = none) :
    FreePlace space space req start := by
  rcases hEnded with
    ⟨⟨g, hMem, hUnread⟩, hRo, hBits, _, hLow, hHigh, hFree⟩
  have hStart := g.unread_start_eq hUnread
  have hEnd := g.unread_end_eq hUnread
  unfold checkPlace at hCheck
  dsimp only at hCheck
  rw [Nat.mod_eq_of_lt hExclude] at hCheck
  split_ifs at hCheck with hOut hIns hPinned hExcluded
  constructor
  case free =>
    intro x hFrom hTo
    exact hFree x hFrom (by omega)
  case group =>
    refine ⟨g, hMem, ?_, ?_, by omega, by omega⟩
    · rw [g.unread_ro_eq hUnread]
      exact hRo
    · rw [g.unread_bits_eq req.data hUnread]
      exact hBits
  case notInserted =>
    intro op hOp x hFrom hTo hIn
    apply hIns
    rw [List.any_eq_true]
    refine ⟨op, hOp, ?_⟩
    rw [Bool.and_eq_true, decide_eq_true_eq,
      decide_eq_true_eq]
    omega
  case notPinned =>
    intro x hFrom hTo
    exact hOk.pinned.testRangeBit EXTENT_DIRTY_ne_zero
      (Bool.eq_false_of_not_eq_true hPinned) hFrom (by omega)
  case notExcluded =>
    intro x hFrom hTo hIn
    exact hExcluded ⟨by omega, by omega, by omega⟩

/- A check that fails goes on behind the place. -/
theorem checkPlace_behind
    {next : Nat}
    (hPos : 0 < req.numBytes)
    (hNum : req.numBytes ≤ num)
    (hEnded : Ended space searchStart num req.data
      (.found group start))
    (hCheck : checkPlace space req group start = some next) :
    searchStart < next := by
  rcases hEnded with ⟨_, _, _, hFrom, _, hHigh, _⟩
  unfold checkPlace at hCheck
  dsimp only at hCheck
  split_ifs at hCheck with hOut hIns hPinned hExcluded
  · omega
  · cases hCheck
    omega
  · cases hCheck
    omega
  · cases hCheck
    omega

/- How many times the search may still start anew. -/
def stagesLeft
    (wrapped fullScan : Bool) : Nat :=
  if fullScan then 0 else if wrapped then 1 else 2

/- The turns that are left. -/
def turnsLeft
    (space : Space)
    (searchStart : Nat)
    (wrapped fullScan : Bool) : Nat :=
  stagesLeft wrapped fullScan * (2 ^ 64 + 1) +
    (2 ^ 64 - stripeAlign space.stripesize searchStart)

/- The size that is asked for, the extent at least. -/
def Needed
    (req : Request)
    (totalNeeded : Nat)
    (fullScan : Bool) : Prop :=
  totalNeeded = req.numBytes + req.emptySize ∨
    (fullScan = true ∧ totalNeeded = req.numBytes)

/- A turn ends the search, or leaves less turns. -/
inductive Turn
    (req : Request)
    (space : Space)
    (searchStart totalNeeded : Nat)
    (wrapped fullScan : Bool)
    (pick : Option Nat) : Prop where
  | done
      (space' : Space)
      (result : FindEnd)
      (hLoop : ∀ picks,
        findFreeExtentLoop req (pick :: picks) space
            searchStart totalNeeded wrapped fullScan =
          some (space', result))
      (hRead : Read space space')
      (hPlace : ∀ start, result = .found start →
        FreePlace space space' req start)
  | next
      (space' : Space)
      (searchStart' totalNeeded' : Nat)
      (wrapped' fullScan' : Bool)
      (hLoop : ∀ picks,
        findFreeExtentLoop req (pick :: picks) space
            searchStart totalNeeded wrapped fullScan =
          findFreeExtentLoop req picks space' searchStart'
            totalNeeded' wrapped' fullScan')
      (hRead : Read space space')
      (hNeeded : Needed req totalNeeded' fullScan')
      (hLess :
        turnsLeft space' searchStart' wrapped' fullScan' <
          turnsLeft space searchStart wrapped fullScan)

/- The search starts anew, if it has not done so often. -/
theorem turnsLeft_anew
    {next : Nat}
    {wrapped' fullScan' : Bool}
    (hLess : stagesLeft wrapped' fullScan' <
      stagesLeft wrapped fullScan) :
    turnsLeft space' next wrapped' fullScan' <
      turnsLeft space searchStart wrapped fullScan := by
  unfold turnsLeft
  have hMul := Nat.mul_le_mul_right (2 ^ 64 + 1)
    (Nat.succ_le_of_lt hLess)
  have hTop := stripeAlign_lt space.stripesize searchStart
  rw [Nat.succ_mul] at hMul
  omega

/- The search goes on behind the place. -/
theorem turnsLeft_behind
    {next : Nat}
    (wrapped fullScan : Bool)
    (hOk : space.Ok)
    (hFits : space.Fits)
    (hRead : Read space space')
    (hBehind :
      stripeAlign space.stripesize searchStart < next)
    (hLookup :
      lookupFirstBlockGroup space' next = some group) :
    turnsLeft space' next wrapped fullScan <
      turnsLeft space searchStart wrapped fullScan := by
  have hMem := lookupFirstBlockGroup_mem hLookup
  have hInside := lookupFirstBlockGroup_behind hLookup
  have hFits' := hRead.fits hOk hFits
  have hAlign := le_stripeAlign hFits'.stripesize
    (hFits'.groups group hMem) hInside
  have hLess := stripeAlign_lt space'.stripesize next
  have hSame := hRead.stripesize
  unfold turnsLeft
  rw [hSame] at hAlign hLess ⊢
  omega

/- Without a group to try there is none behind the place. -/
theorem lookupFirst_of_tried_none
    (space : Space)
    (pick : Option Nat)
    (first second : Nat)
    (hTried :
      ((groupAt space pick <|>
        lookupFirstBlockGroup space first) <|>
          lookupFirstBlockGroup space second) = none) :
    lookupFirstBlockGroup space first = none := by
  cases hAt : groupAt space pick with
  | some g =>
      rw [hAt] at hTried
      cases hTried
  | none =>
      cases hFirst : lookupFirstBlockGroup space first with
      | some g =>
          rw [hAt, hFirst] at hTried
          cases hTried
      | none => rfl

/- A turn from `new_group:` on. -/
theorem Turn.newGroup
    {next : Space}
    (after : Nat)
    (hOk : space.Ok)
    (hFits : space.Fits)
    (hNeeded : Needed req totalNeeded fullScan)
    (hRead : Read space next)
    (hBehind : lookupFirstBlockGroup next after ≠ none →
      stripeAlign space.stripesize searchStart < after)
    (hStep : ∀ picks,
      findFreeExtentLoop req (pick :: picks) space searchStart
          totalNeeded wrapped fullScan =
        match lookupFirstBlockGroup next after with
        | some _ =>
            findFreeExtentLoop req picks next after totalNeeded
              wrapped fullScan
        | none =>
            if fullScan then
              some (next, .noSpace)
            else if wrapped then
              findFreeExtentLoop req picks next req.searchStart
                (totalNeeded - req.emptySize) true true
            else
              findFreeExtentLoop req picks next req.searchStart
                totalNeeded true false) :
    Turn req space searchStart totalNeeded wrapped fullScan
      pick := by
  cases hLookup : lookupFirstBlockGroup next after with
  | some group =>
      rw [hLookup] at hStep hBehind
      have hLess := turnsLeft_behind wrapped fullScan hOk
        hFits hRead
        (hBehind (Option.some_ne_none group)) hLookup
      exact .next next after totalNeeded wrapped fullScan hStep
        hRead hNeeded hLess
  | none =>
      rw [hLookup] at hStep
      dsimp only at hStep
      cases fullScan with
      | true =>
          refine .done next .noSpace hStep hRead ?_
          intro start hStart
          cases hStart
      | false =>
          have hAll : totalNeeded =
              req.numBytes + req.emptySize := by
            rcases hNeeded with hAll | hFull
            · exact hAll
            · cases hFull.1
          cases wrapped with
          | true =>
              exact .next next req.searchStart
                (totalNeeded - req.emptySize) true true hStep
                hRead (Or.inr ⟨rfl, by omega⟩)
                (turnsLeft_anew (by decide))
          | false =>
              exact .next next req.searchStart totalNeeded true
                false hStep hRead (Or.inl hAll)
                (turnsLeft_anew (by decide))

/- Every turn ends the search, or leaves less turns. -/
theorem findFreeExtentLoop_turn
    (searchStart : Nat)
    (wrapped : Bool)
    (pick : Option Nat)
    (hReq : req.Ok)
    (hExclude : req.excludeStart + req.excludeNr < 2 ^ 64)
    (hOk : space.Ok)
    (hFits : space.Fits)
    (hNeeded : Needed req totalNeeded fullScan) :
    Turn req space searchStart totalNeeded wrapped fullScan
      pick := by
  have hSmall := hReq.small
  have hNum : asInt totalNeeded = totalNeeded := by
    apply asInt_of_lt
    rcases hNeeded with hAll | hFull
    · omega
    · omega
  have hEnough : req.numBytes ≤ totalNeeded := by
    rcases hNeeded with hAll | hFull
    · omega
    · omega
  rcases findSearchStart_ends totalNeeded req.data hOk
    (fun g hg => tried_mem hg)
    (lookupFirst_of_tried_none space pick
      (stripeAlign space.stripesize searchStart)
      req.searchStart) with
    ⟨next, result, hFind, hRead, hEnded⟩
  rw [hNum] at hEnded
  cases result with
  | warned =>
      refine .done next .aborted ?_ hRead ?_
      · intro picks
        rw [findFreeExtentLoop]
        dsimp only
        rw [hFind]
        rfl
      · intro start hStart
        cases hStart
  | noSpace last =>
      apply Turn.newGroup last hOk hFits hNeeded hRead
      · intro hSome
        exact absurd hEnded hSome
      · intro picks
        rw [findFreeExtentLoop]
        dsimp only
        rw [hFind]
        rfl
  | found group start =>
      cases hCheck : checkPlace next req group start with
      | some after =>
          apply Turn.newGroup after hOk hFits hNeeded hRead
          · intro _
            exact checkPlace_behind hReq.pos hEnough hEnded
              hCheck
          · intro picks
            rw [findFreeExtentLoop]
            dsimp only
            rw [hFind]
            dsimp only [Option.bind_eq_bind, Option.bind_some]
            rw [hCheck]
            rfl
      | none =>
          have hPlace := checkPlace_free
            (hRead.searched.ok hOk) hExclude hEnough hEnded
            hCheck
          refine .done next (.found start) ?_ hRead ?_
          · intro picks
            rw [findFreeExtentLoop]
            dsimp only
            rw [hFind]
            dsimp only [Option.bind_eq_bind, Option.bind_some]
            rw [hCheck]
          · intro start' hStart
            cases hStart
            exact hPlace.before hRead

----------
-- The Whole Search
----------

/- Whatever groups are proposed, the search ends. -/
theorem findFreeExtentLoop_ends
    (hReq : req.Ok)
    (hExclude : req.excludeStart + req.excludeNr < 2 ^ 64)
    (picks : Nat → Option Nat)
    (hOk : space.Ok)
    (hFits : space.Fits)
    (hNeeded : Needed req totalNeeded fullScan) :
    ∃ n space' result,
      findFreeExtentLoop req ((List.range n).map picks) space
          searchStart totalNeeded wrapped fullScan =
        some (space', result) := by
  -- the turns that are left bound the run
  induction hTurns :
      turnsLeft space searchStart wrapped fullScan
    using Nat.strong_induction_on
    generalizing picks space searchStart totalNeeded wrapped
      fullScan with
  | h turns ih =>
      have hFirst (n : Nat) : (List.range (n + 1)).map picks =
          picks 0 :: (List.range n).map
            fun i => picks (i + 1) := by
        rw [List.range_succ_eq_map, List.map_cons,
          List.map_map]
        rfl
      rcases findFreeExtentLoop_turn searchStart wrapped
        (picks 0) hReq hExclude hOk hFits hNeeded with
        ⟨next, result, hLoop, _, _⟩ |
        ⟨next, start', needed', wrapped', fullScan', hLoop,
          hRead, hNeeded', hLess⟩
      · refine ⟨1, next, result, ?_⟩
        rw [hFirst]
        exact hLoop _
      · rw [hTurns] at hLess
        rcases ih _ hLess (fun i => picks (i + 1))
          (hRead.searched.ok hOk) (hRead.fits hOk hFits)
          hNeeded' rfl with ⟨n, space', result, hRest⟩
        refine ⟨n + 1, space', result, ?_⟩
        rw [hFirst, hLoop]
        exact hRest

/- However the search goes, what it returns is free. -/
theorem findFreeExtentLoop_place
    {picks : List (Option Nat)}
    {result : FindEnd}
    (hReq : req.Ok)
    (hExclude : req.excludeStart + req.excludeNr < 2 ^ 64)
    (hOk : space.Ok)
    (hFits : space.Fits)
    (hNeeded : Needed req totalNeeded fullScan)
    (hLoop :
      findFreeExtentLoop req picks space searchStart
        totalNeeded wrapped fullScan = some (space', result)) :
    Read space space' ∧
      ∀ start, result = .found start →
        FreePlace space space' req start := by
  induction picks generalizing space searchStart totalNeeded
    wrapped fullScan with
  | nil => cases hLoop
  | cons pick picks ih =>
      rcases findFreeExtentLoop_turn searchStart wrapped
        pick hReq hExclude hOk hFits hNeeded with
        ⟨next, found, hStep, hRead, hPlace⟩ |
        ⟨next, start', needed', wrapped', fullScan', hStep,
          hRead, hNeeded', _⟩
      · rw [hStep] at hLoop
        cases hLoop
        exact ⟨hRead, hPlace⟩
      · rw [hStep] at hLoop
        rcases ih (hRead.searched.ok hOk)
          (hRead.fits hOk hFits) hNeeded' hLoop with
          ⟨hRest, hPlace⟩
        exact ⟨hRead.trans hRest,
          fun start hStart => (hPlace start hStart).before hRead⟩

/-
  Whatever groups `btrfs_find_block_group` proposes, the
  search ends, if only by an abort, and so does its loop in
  each group it reads; and when it returns a place, the place
  is free, in one group that may be allocated from, and meets
  nothing that is inserted, pinned or excluded.
-/
theorem findFreeExtent_ends_sound
    (hReq : req.Ok)
    (hExclude : req.excludeStart + req.excludeNr < 2 ^ 64)
    (hOk : space.Ok)
    (hFits : space.Fits) :
    (∀ picks : Nat → Option Nat, ∃ n space' result,
      findFreeExtent req ((List.range n).map picks) space =
        some (space', result)) ∧
      (∀ space', Read space space' → GroupSearchEnds space') ∧
      ∀ picks space' start,
        findFreeExtent req picks space =
            some (space', .found start) →
          FreePlace space space' req start := by
  refine ⟨?_, ?_, ?_⟩
  · intro picks
    exact findFreeExtentLoop_ends hReq hExclude picks hOk hFits
      (Or.inl rfl)
  · intro space' hRead num groupEnd last more
    have hTree := (hRead.searched.ok hOk).free
    exact searchGroup_enough more last hTree.wellFormed
  · intro picks space' start hFind
    have hSound := findFreeExtentLoop_place hReq hExclude hOk
      hFits (Or.inl rfl) hFind
    exact hSound.2 start rfl

end Turns

/- A group of two blocks, and one that is being inserted. -/
def threeBlocks : Space where
  mapTree := [firstChunk.toMapLookup]
  leafsize := 4096
  stripesize := 4096
  items :=
    [⟨⟨131072, EXTENT_ITEM_KEY, 4096⟩, 1⟩,
      ⟨⟨135168, EXTENT_ITEM_KEY, 4096⟩, 1⟩]
  groups := [⟨0, 1048576, 4, false, false⟩]
  freeSpaceCache := []
  pinnedExtents := []
  extentIns := [⟨139264, 4096, 0⟩]

/- A block behind them, but not at 143360. -/
def fifthBlock : Request where
  numBytes := 4096
  emptySize := 0
  searchStart := 131072
  excludeStart := 143360
  excludeNr := 4096
  data := 4

theorem threeBlocks_ok :
    threeBlocks.Ok := by
  have hUniform := Uniform.nil EXTENT_DIRTY
  refine ⟨hUniform, hUniform, by decide, ?_, ?_⟩
  · exact RangeTree.Ordered.cons_iff.mpr
      ⟨by decide, RangeTree.Ordered.nil, by simp⟩
  · intro g hg
    cases List.mem_singleton.mp hg
    exact ⟨firstChunk, List.mem_singleton_self _, rfl, rfl,
      by decide⟩

theorem threeBlocks_fits :
    threeBlocks.Fits where
  free := by
    rintro x ⟨s, hs, _⟩
    cases hs
  stripesize := by decide
  groups := by decide

theorem threeBlocks_found :
    (findFreeExtent fifthBlock [none, none, none]
      threeBlocks).map Prod.snd =
        some (.found 147456) := by
  decide +kernel

theorem findFreeExtent_ends_sound_threeBlocks :
    (∃ n space' result,
      findFreeExtent fifthBlock
          ((List.range n).map fun _ => none) threeBlocks =
        some (space', result)) ∧
      ∃ space',
        findFreeExtent fifthBlock [none, none, none]
            threeBlocks = some (space', .found 147456) ∧
          FreePlace threeBlocks space' fifthBlock 147456 := by
  have hReq : fifthBlock.Ok := ⟨by decide, by decide⟩
  have hAll := findFreeExtent_ends_sound hReq (by decide)
    threeBlocks_ok threeBlocks_fits
  rcases Option.map_eq_some_iff.mp threeBlocks_found with
    ⟨⟨space', result⟩, hFind, rfl⟩
  exact ⟨hAll.1 fun _ => none, space', hFind,
    hAll.2.2 _ _ _ hFind⟩

end ExtentTree

end BtrfsProgs
