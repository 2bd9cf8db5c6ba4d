import BtrfsProgs.Check.WalkTrees
import BtrfsProgs.Lib.Worklist

/-
  Runs of the walk over a forest.

  The walk takes a block out of `seen` when it takes it up, so
  a parent reached later queues the block again; and a block
  taken from the readahead window is read with the size of
  the block before it.  Where neither happens, every reachable
  block is read once, with its size.

  Main declarations:
    * `Forest.StepOk`
    * `Forest.WalkInv` and `Forest.runNextBlock_inv`
    * `Forest.runBlocks_visits_once`
-/

----------
-- Queueing Blocks
----------

namespace BtrfsProgs

namespace Check

namespace Forest

variable {ρ : Type}
variable {forest : Forest ρ}

/- The entry waits in one of the two queues. -/
def Queued
    (walk : Walk ρ)
    (e : CacheExtent) : Prop :=
  e ∈ walk.pending ∨ e ∈ walk.nodes

/- The queues hold blocks, and `seen` what they hold. -/
structure Queues
    (forest : Forest ρ)
    (walk : Walk ρ) : Prop where
  pending : forest.Good walk.pending
  nodes : forest.Good walk.nodes
  seen : forest.Good walk.seen
  seen_iff : ∀ e, e ∈ walk.seen ↔ Queued walk e

/- What queueing leaves alone. -/
structure SameVisits
    (walk walk' : Walk ρ) : Prop where
  reada : walk'.reada = walk.reada
  visited : walk'.visited = walk.visited
  extentCache : walk'.extentCache = walk.extentCache

theorem addPending_spec
    {queue seen : CacheTree}
    (hQueue : forest.Good queue)
    (hSeen : forest.Good seen)
    {e : CacheExtent}
    (hBlock : forest.IsBlock e) :
    forest.Good (addPending queue seen e.start e.size).1 ∧
      forest.Good (addPending queue seen e.start e.size).2 ∧
      (∀ f, f ∈ (addPending queue seen e.start e.size).1 ↔
        f ∈ queue ∨ (f = e ∧ e ∉ seen)) ∧
      (∀ f, f ∈ (addPending queue seen e.start e.size).2 ↔
        f ∈ seen ∨ f = e) := by
  rcases add_spec hSeen hBlock with
    ⟨hGoodSeen, hMemSeen, hNew⟩
  rcases add_spec hQueue hBlock with
    ⟨hGoodQueue, hMemQueue, _⟩
  unfold addPending
  cases hAdd : addCacheExtent seen e.start e.size with
  | mk added seen' =>
      rw [hAdd] at hGoodSeen hMemSeen hNew
      cases added with
      | true =>
          have hFresh : e ∉ seen := hNew.mp rfl
          refine ⟨hGoodQueue, hGoodSeen, ?_, ?_⟩
          · intro f
            rw [hMemQueue]
            tauto
          · intro f
            rw [hMemSeen]
            tauto
      | false =>
          have hOld : e ∈ seen := by
            by_contra hFresh
            exact Bool.false_ne_true (hNew.mpr hFresh)
          refine ⟨hQueue, hGoodSeen, ?_, ?_⟩
          · intro f
            tauto
          · intro f
            rw [hMemSeen]
            tauto

variable {walk : Walk ρ}

/- Queueing a block adds it to what is queued. -/
theorem queueBlock_spec
    (hQueues : forest.Queues walk)
    (level : Nat)
    {bytenr size : Nat}
    (hBlock : forest.IsBlock ⟨bytenr, size⟩) :
    forest.Queues (queueBlock walk level bytenr size) ∧
      SameVisits walk (queueBlock walk level bytenr size) ∧
      ∀ f, Queued (queueBlock walk level bytenr size) f ↔
        Queued walk f ∨ f = ⟨bytenr, size⟩ := by
  have hIff := hQueues.seen_iff
  unfold queueBlock
  split
  · rcases addPending_spec hQueues.nodes hQueues.seen hBlock
      with ⟨hNodes, hSeen, hMemNodes, hMemSeen⟩
    have hQueued : ∀ f,
        f ∈ walk.pending ∨
            f ∈ (addPending walk.nodes walk.seen bytenr
              size).1 ↔
          Queued walk f ∨ f = ⟨bytenr, size⟩ := by
      intro f
      rw [hMemNodes, hIff, Queued, Queued]
      by_cases hf : f = ⟨bytenr, size⟩
      · subst hf
        tauto
      · tauto
    refine ⟨⟨hQueues.pending, hNodes, hSeen, ?_⟩,
      ⟨rfl, rfl, rfl⟩, hQueued⟩
    intro f
    rw [hMemSeen, hIff]
    exact (hQueued f).symm
  · rcases addPending_spec hQueues.pending hQueues.seen hBlock
      with ⟨hPending, hSeen, hMemPending, hMemSeen⟩
    have hQueued : ∀ f,
        f ∈ (addPending walk.pending walk.seen bytenr
              size).1 ∨
            f ∈ walk.nodes ↔
          Queued walk f ∨ f = ⟨bytenr, size⟩ := by
      intro f
      rw [hMemPending, hIff, Queued, Queued]
      by_cases hf : f = ⟨bytenr, size⟩
      · subst hf
        tauto
      · tauto
    refine ⟨⟨hPending, hQueues.nodes, hSeen, ?_⟩,
      ⟨rfl, rfl, rfl⟩, hQueued⟩
    intro f
    rw [hMemSeen, hIff]
    exact (hQueued f).symm

/- Queueing several blocks, one after another. -/
theorem queueAll_spec
    (hQueues : forest.Queues walk)
    (items : List (Nat × Nat))
    (hBlocks :
      ∀ i ∈ items, forest.IsBlock
        ⟨i.1, forest.device.levelSize i.2⟩) :
    let walk' := items.foldl
      (fun walk i =>
        queueBlock walk i.2 i.1
          (forest.device.levelSize i.2)) walk
    forest.Queues walk' ∧ SameVisits walk walk' ∧
      ∀ f, Queued walk' f ↔
        Queued walk f ∨ ∃ i ∈ items,
          f = ⟨i.1, forest.device.levelSize i.2⟩ := by
  induction items generalizing walk with
  | nil => exact ⟨hQueues, ⟨rfl, rfl, rfl⟩, by simp⟩
  | cons i rest ih =>
      rcases queueBlock_spec hQueues i.2
          (hBlocks i List.mem_cons_self) with
        ⟨hFirst, hSame, hQueued⟩
      rcases ih hFirst fun j hj =>
          hBlocks j (List.mem_cons_of_mem _ hj) with
        ⟨hRest, hSame', hQueued'⟩
      refine ⟨hRest, ⟨hSame'.reada.trans hSame.reada,
        hSame'.visited.trans hSame.visited,
        hSame'.extentCache.trans hSame.extentCache⟩, ?_⟩
      intro f
      rw [List.foldl_cons, hQueued', hQueued]
      simp only [List.mem_cons, exists_eq_or_imp]
      tauto

----------
-- Picking a Block
----------

theorem gatherPending_subset
    (lookup room : Nat)
    (rest : List CacheExtent) :
    ∀ e ∈ gatherPending lookup room rest, e ∈ rest := by
  induction rest generalizing lookup room with
  | nil => simp [gatherPending]
  | cons next rest ih =>
      intro e he
      cases room with
      | zero => simp [gatherPending] at he
      | succ room =>
          simp only [gatherPending] at he
          split at he
          · cases he
          · rcases List.mem_cons.mp he with rfl | he
            · exact List.mem_cons_self
            · exact List.mem_cons_of_mem _ (ih _ _ e he)

/- What a pick returns, and where it comes from. -/
inductive Picked
    (walk : Walk ρ) :
    Option (Bool × List CacheExtent) → Prop where
  | done
      (hReada : searchCacheExtent walk.reada 0 = none)
      (hNodes : searchCacheExtent walk.nodes 0 = none)
      (hPending : searchCacheExtent walk.pending 0 = none) :
      Picked walk none
  | reada
      {cache : CacheExtent}
      {rest : List CacheExtent}
      (hReada :
        searchCacheExtent walk.reada 0 = some (cache, rest)) :
      Picked walk
        (some (true, [⟨cache.start, walk.bits0.size⟩]))
  | window
      {b : CacheExtent}
      {bits : List CacheExtent}
      (hReada : searchCacheExtent walk.reada 0 = none)
      (hQueued : ∀ e ∈ b :: bits, Queued walk e) :
      Picked walk (some (false, b :: bits))

theorem searchNodes_mem
    {nodes : CacheTree}
    {last : Nat}
    {cache : CacheExtent}
    {rest : List CacheExtent}
    (hSearch : searchNodes nodes last = some (cache, rest)) :
    ∀ e ∈ cache :: rest, e ∈ nodes := by
  unfold searchNodes at hSearch
  simp only at hSearch
  split at hSearch
  case h_1 hit hFound =>
    rw [hSearch] at hFound
    exact search_mem hFound
  case h_2 => exact search_mem hSearch

theorem searchNodes_eq_none
    {nodes : CacheTree}
    {last : Nat}
    (hSearch : searchNodes nodes last = none) :
    searchCacheExtent nodes 0 = none := by
  unfold searchNodes at hSearch
  simp only at hSearch
  split at hSearch
  · cases hSearch
  · exact hSearch

/- A window opens with its node; the rest is queued too. -/
theorem nodeWindow_spec
    (pending : CacheTree)
    (cache : CacheExtent)
    (rest : List CacheExtent) :
    ∃ bits, nodeWindow pending cache rest = cache :: bits ∧
      ∀ e ∈ bits, e ∈ rest ∨ e ∈ pending := by
  have hTake :
      (cache :: rest).take BITS_NR = cache :: rest.take 1023 :=
    rfl
  have hRest : ∀ e ∈ rest.take 1023, e ∈ rest ∨ e ∈ pending := by
    intro e he
    exact Or.inl (List.mem_of_mem_take he)
  unfold nodeWindow
  simp only [hTake]
  split
  · split
    · exact ⟨_, rfl, hRest⟩
    case h_2 next later hPending =>
      refine ⟨_, List.cons_append, ?_⟩
      intro e he
      rcases List.mem_append.mp he with he | he
      · exact hRest e he
      · exact Or.inr (search_mem hPending e
          (gatherPending_subset _ _ _ e he))
  · exact ⟨_, rfl, hRest⟩

theorem pickNextPending_picked
    (walk : Walk ρ) :
    Picked walk (pickNextPending walk) := by
  unfold pickNextPending
  cases hReada : searchCacheExtent walk.reada 0 with
  | some hit => exact Picked.reada hReada
  | none =>
      cases hNodes : searchNodes walk.nodes walk.last with
      | some hit =>
          have hMem := searchNodes_mem hNodes
          rcases nodeWindow_spec walk.pending hit.1 hit.2 with
            ⟨bits, hWindow, hBits⟩
          simp only [hWindow]
          apply Picked.window hReada
          intro e he
          rcases List.mem_cons.mp he with rfl | he
          · exact Or.inr (hMem _ List.mem_cons_self)
          · rcases hBits e he with he | he
            · exact Or.inr
                (hMem e (List.mem_cons_of_mem _ he))
            · exact Or.inl he
      | none =>
          have hNone := searchNodes_eq_none hNodes
          cases hPending :
              searchCacheExtent walk.pending 0 with
          | none => exact Picked.done hReada hNone hPending
          | some hit =>
              apply Picked.window hReada
              intro e he
              have hTaken : e ∈
                  (hit.1 :: hit.2).take BITS_NR := he
              exact Or.inl (search_mem hPending e
                (List.mem_of_mem_take hTaken))

----------
-- Steps that Go Well
----------

/- The blocks that a block points to. -/
def children
    (forest : Forest ρ)
    (b : Nat × Block ρ) : List (Nat × Block ρ) :=
  forest.blocks.filter fun c => c.1 ∈ b.2.ptrs

/- The blocks that are queued first. -/
def rootBlocks
    (forest : Forest ρ) : List (Nat × Block ρ) :=
  forest.blocks.filter fun b =>
    (b.1, b.2.level) ∈ forest.roots

/-
  Before the call, the entry at the head of the readahead
  window has the size that `bits[0]` was left with, and the
  block to be taken up points to no block visited already.
-/
structure StepOk
    (device : Device ρ)
    (walk : Walk ρ) : Prop where
  size_kept :
    ∀ cache rest,
      searchCacheExtent walk.reada 0 = some (cache, rest) →
        cache.size = walk.bits0.size
  ptrs_fresh :
    ∀ fromReada b bits block,
      pickNextPending walk = some (fromReada, b :: bits) →
      device.readTreeBlock b.start b.size = some block →
        ∀ v ∈ walk.visited, v.start ∉ block.ptrs

/-
  The walk has visited `order`, latest first, and the rest of
  the forest hangs from what is queued.
-/
structure WalkInv
    (forest : Forest ρ)
    (walk : Walk ρ)
    (order : List (Nat × Block ρ)) : Prop where
  queues : forest.Queues walk
  reada : forest.Good walk.reada
  reada_queued : ∀ e ∈ walk.reada, Queued walk e
  order_mem : ∀ b ∈ order, b ∈ forest.blocks
  visited_eq : walk.visited = order.map forest.extent
  work :
    Worklist.Inv forest.children forest.rootBlocks
      (fun b => b ∈ forest.blocks ∧
        Queued walk (forest.extent b))
      order
  extentCache_eq :
    walk.extentCache =
      order.reverse.flatMap fun b => b.2.refs

theorem children_extent_iff
    {b : Nat × Block ρ}
    (hb : b ∈ forest.blocks)
    (e : CacheExtent) :
    (∃ ptr ∈ b.2.ptrs,
        e = ⟨ptr, forest.device.levelSize (b.2.level - 1)⟩) ↔
      ∃ c ∈ forest.children b, e = forest.extent c := by
  constructor
  · intro hPtr
    rcases hPtr with ⟨ptr, hPtr, rfl⟩
    rcases forest.children_mem b hb ptr hPtr with
      ⟨c, hc, hAddr, hLevel⟩
    refine ⟨c, List.mem_filter.mpr ⟨hc, ?_⟩, ?_⟩
    · simpa [hAddr] using hPtr
    · simp only [extent, Device.extent, hAddr,
        ← hLevel, Nat.add_sub_cancel]
  · intro hChild
    rcases hChild with ⟨c, hChild, rfl⟩
    rcases List.mem_filter.mp hChild with ⟨hc, hPtr⟩
    have hPtr := of_decide_eq_true hPtr
    rcases forest.children_mem b hb c.1 hPtr with
      ⟨d, hd, hAddr, hLevel⟩
    have hSame := block_unique hd hc hAddr
    subst hSame
    refine ⟨d.1, hPtr, ?_⟩
    simp only [extent, Device.extent, ← hLevel,
      Nat.add_sub_cancel]

theorem addWindow_spec
    {reada : CacheTree}
    (hGood : forest.Good reada)
    {bits : List CacheExtent}
    (hBlocks : ∀ e ∈ bits, forest.IsBlock e) :
    forest.Good (addWindow false bits reada) ∧
      ∀ f ∈ addWindow false bits reada,
        f ∈ bits ∨ f ∈ reada := by
  induction bits generalizing reada with
  | nil => exact ⟨hGood, fun f hf => Or.inr hf⟩
  | cons e rest ih =>
      rcases add_spec hGood (hBlocks e List.mem_cons_self) with
        ⟨hAdded, hMem, _⟩
      rcases ih hAdded fun f hf =>
          hBlocks f (List.mem_cons_of_mem _ hf) with
        ⟨hRest, hSub⟩
      refine ⟨hRest, ?_⟩
      intro f hf
      rcases hSub f hf with hf | hf
      · exact Or.inl (List.mem_cons_of_mem _ hf)
      · rcases (hMem f).mp hf with rfl | hf
        · exact Or.inl List.mem_cons_self
        · exact Or.inr hf

theorem Queues.isBlock
    (hQueues : forest.Queues walk)
    {e : CacheExtent}
    (hQueued : Queued walk e) :
    forest.IsBlock e := by
  rcases hQueued with hMem | hMem
  · exact hQueues.pending.blocks e hMem
  · exact hQueues.nodes.blocks e hMem

/- Dropping a block takes it out of what is queued. -/
theorem dropBlock_spec
    (hQueues : forest.Queues walk)
    (choices : Choices)
    {reada : CacheTree}
    (hReada : forest.Good reada)
    (hSub : ∀ e ∈ reada, Queued walk e)
    {e : CacheExtent}
    (hBlock : forest.IsBlock e) :
    let dropped := dropBlock choices walk reada e
    forest.Queues dropped ∧ forest.Good dropped.reada ∧
      (∀ f ∈ dropped.reada, Queued dropped f) ∧
      ∀ f, Queued dropped f ↔ Queued walk f ∧ f ≠ e := by
  intro dropped
  rcases drop_spec hQueues.pending hBlock choices.pending with
    ⟨hPending, hMemPending⟩
  rcases drop_spec hQueues.nodes hBlock choices.nodes with
    ⟨hNodes, hMemNodes⟩
  rcases drop_spec hQueues.seen hBlock choices.seen with
    ⟨hSeen, hMemSeen⟩
  rcases drop_spec hReada hBlock choices.reada with
    ⟨hReada', hMemReada⟩
  have hQueued :
      ∀ f, Queued dropped f ↔ Queued walk f ∧ f ≠ e := by
    intro f
    have hLeft : f ∈ dropped.pending ↔ _ := hMemPending f
    have hRight : f ∈ dropped.nodes ↔ _ := hMemNodes f
    rw [Queued, Queued, hLeft, hRight]
    tauto
  refine ⟨⟨hPending, hNodes, hSeen, ?_⟩, hReada', ?_, hQueued⟩
  · intro f
    rw [hQueued, ← hQueues.seen_iff]
    exact hMemSeen f
  · intro f hf
    rcases (hMemReada f).mp hf with ⟨hMem, hNe⟩
    exact (hQueued f).mpr ⟨hSub f hMem, hNe⟩

/- Reading a block queues its children. -/
theorem readBlock_spec
    (hQueues : forest.Queues walk)
    {b : Nat × Block ρ}
    (hb : b ∈ forest.blocks) :
    let walk' := readBlock forest.device walk
      (forest.extent b).start (forest.extent b).size
    forest.Queues walk' ∧ walk'.reada = walk.reada ∧
      walk'.visited = walk.visited ∧
      walk'.extentCache = walk.extentCache ++ b.2.refs ∧
      ∀ f, Queued walk' f ↔
        Queued walk f ∨
          ∃ c ∈ forest.children b, f = forest.extent c := by
  intro walk'
  have hRead :
      forest.device.readTreeBlock (forest.extent b).start
        (forest.extent b).size = some b.2 :=
    forest.readable b hb
  have hWalk : walk' =
      (b.2.ptrs.map fun ptr => (ptr, b.2.level - 1)).foldl
        (fun walk i =>
          queueBlock walk i.2 i.1
            (forest.device.levelSize i.2))
        { walk with
          extentCache := walk.extentCache ++ b.2.refs } := by
    unfold walk' readBlock
    rw [hRead, List.foldl_map]
    rfl
  have hQueues' : forest.Queues
      { walk with
        extentCache := walk.extentCache ++ b.2.refs } :=
    ⟨hQueues.pending, hQueues.nodes, hQueues.seen,
      hQueues.seen_iff⟩
  have hBlocks :
      ∀ i ∈ b.2.ptrs.map fun ptr => (ptr, b.2.level - 1),
        forest.IsBlock
          ⟨i.1, forest.device.levelSize i.2⟩ := by
    intro i hi
    rcases List.mem_map.mp hi with ⟨ptr, hPtr, rfl⟩
    rcases (children_extent_iff hb _).mp ⟨ptr, hPtr, rfl⟩ with
      ⟨c, hc, hEq⟩
    exact ⟨c, (List.mem_filter.mp hc).1, hEq⟩
  rcases queueAll_spec hQueues' _ hBlocks with
    ⟨hAll, hSame, hQueued⟩
  rw [hWalk]
  refine ⟨hAll, hSame.reada, hSame.visited,
    hSame.extentCache, ?_⟩
  intro f
  rw [hQueued, ← children_extent_iff hb]
  simp only [List.mem_map, exists_exists_and_eq_and]
  exact Iff.rfl

variable {order : List (Nat × Block ρ)}

/- Taking up a queued block whose children are all new. -/
theorem takeBlock_inv
    (hInv : forest.WalkInv walk order)
    (choices : Choices)
    {reada : CacheTree}
    (hReada : forest.Good reada)
    (hSub : ∀ e ∈ reada, Queued walk e)
    {b : Nat × Block ρ}
    (hb : b ∈ forest.blocks)
    (hQueued : Queued walk (forest.extent b))
    (hFresh : ∀ c ∈ forest.children b, c ∉ order) :
    forest.WalkInv
      (readBlock forest.device
        (dropBlock choices walk reada (forest.extent b))
        (forest.extent b).start (forest.extent b).size)
      (b :: order) := by
  rcases dropBlock_spec hInv.queues choices hReada hSub
      ⟨b, hb, rfl⟩ with
    ⟨hQueues, hReada', hSub', hDropped⟩
  rcases readBlock_spec hQueues hb with
    ⟨hQueues', hSame, hVisited, hCache, hRead⟩
  refine ⟨hQueues', ?_, ?_, ?_, ?_, ?_, ?_⟩
  · rw [hSame]
    exact hReada'
  · intro e he
    rw [hSame] at he
    exact (hRead e).mpr (Or.inl (hSub' e he))
  · intro c hc
    rcases List.mem_cons.mp hc with rfl | hc
    · exact hb
    · exact hInv.order_mem c hc
  · rw [hVisited]
    exact congrArg (List.cons _) hInv.visited_eq
  · apply hInv.work.visit ⟨hb, hQueued⟩
    · intro c hc
      refine ⟨?_, hFresh c hc⟩
      -- a block does not point to itself: levels descend
      intro hSelf
      rcases List.mem_filter.mp hc with ⟨hMem, hPtr⟩
      rcases forest.children_mem b hb c.1
          (of_decide_eq_true hPtr) with
        ⟨d, hd, hAddr, hLevel⟩
      have hSame := block_unique hd hMem hAddr
      subst hSame
      rw [hSelf] at hLevel
      omega
    · intro c
      rw [hRead, hDropped]
      constructor
      · intro hc
        rcases hc with ⟨hMem, ⟨hOld, hNe⟩ | ⟨d, hd, hEq⟩⟩
        · left
          refine ⟨⟨hMem, hOld⟩, ?_⟩
          intro hSame
          exact hNe (by rw [hSame])
        · right
          rw [extent_inj hMem (List.mem_filter.mp hd).1 hEq]
          exact hd
      · intro hc
        rcases hc with ⟨⟨hMem, hOld⟩, hNe⟩ | hc
        · refine ⟨hMem, Or.inl ⟨hOld, ?_⟩⟩
          intro hEq
          exact hNe (extent_inj hMem hb hEq)
        · exact ⟨(List.mem_filter.mp hc).1,
            Or.inr ⟨c, hc, rfl⟩⟩
  · rw [hCache, List.reverse_cons, List.flatMap_append,
      ← hInv.extentCache_eq]
    simp only [List.flatMap_cons, List.flatMap_nil,
      List.append_nil]
    rfl

/- A call that ends the walk finds nothing queued. -/
theorem runNextBlock_eq_none
    (hInv : forest.WalkInv walk order)
    {choices : Choices}
    (hRun : runNextBlock forest.device choices walk = none)
    (e : CacheExtent) :
    ¬ Queued walk e := by
  have hPicked := pickNextPending_picked walk
  unfold runNextBlock at hRun
  generalize pickNextPending walk = picked at hPicked hRun
  cases hPicked with
  | done hReada hNodes hPending =>
      have hNil := search_zero_eq_none hInv.queues.nodes hNodes
      have hNil' :=
        search_zero_eq_none hInv.queues.pending hPending
      simp [Queued, hNil, hNil']
  | reada => cases hRun
  | window => cases hRun

/- A call that goes well visits one more block. -/
theorem runNextBlock_inv
    {walk walk' : Walk ρ}
    (hInv : forest.WalkInv walk order)
    (hOk : StepOk forest.device walk)
    {choices : Choices}
    (hRun :
      runNextBlock forest.device choices walk = some walk') :
    ∃ b, forest.WalkInv walk' (b :: order) := by
  have hPicked := pickNextPending_picked walk
  have hFresh := hOk.ptrs_fresh
  unfold runNextBlock at hRun
  generalize pickNextPending walk = picked
    at hPicked hRun hFresh
  -- a block that `order` holds has been visited
  have hNew :
      ∀ b ∈ forest.blocks,
        (∀ v ∈ walk.visited, v.start ∉ b.2.ptrs) →
          ∀ c ∈ forest.children b, c ∉ order := by
    intro b _ hPtrs c hc hMem
    apply hPtrs (forest.extent c)
    · rw [hInv.visited_eq]
      exact List.mem_map_of_mem hMem
    · exact of_decide_eq_true (List.mem_filter.mp hc).2
  cases hPicked with
  | done => cases hRun
  | @reada cache rest hReada =>
      have hCache := search_mem hReada cache List.mem_cons_self
      have hSize := hOk.size_kept cache rest hReada
      have hQueued := hInv.reada_queued cache hCache
      rcases hInv.queues.isBlock hQueued with ⟨b, hb, rfl⟩
      rw [← hSize] at hRun hFresh
      cases hRun
      refine ⟨b, takeBlock_inv hInv choices hInv.reada
        hInv.reada_queued hb hQueued (hNew b hb ?_)⟩
      exact hFresh true _ _ b.2 rfl (forest.readable b hb)
  | @window e bits hReada hWindow =>
      have hQueued := hWindow e List.mem_cons_self
      rcases hInv.queues.isBlock hQueued with ⟨b, hb, rfl⟩
      rcases addWindow_spec hInv.reada fun f hf =>
          hInv.queues.isBlock (hWindow f hf) with
        ⟨hGood, hSub⟩
      cases hRun
      refine ⟨b, takeBlock_inv hInv choices hGood ?_ hb
        hQueued (hNew b hb ?_)⟩
      · intro f hf
        rcases hSub f hf with hf | hf
        · exact hWindow f hf
        · exact hInv.reada_queued f hf
      · exact hFresh false _ _ b.2 rfl (forest.readable b hb)

----------
-- Whole Runs
----------

theorem queueRoots_inv
    (forest : Forest ρ)
    (bits0 : CacheExtent) :
    forest.WalkInv
      (queueRoots forest.device bits0 forest.roots) [] := by
  have hEmpty : forest.Queues
      (⟨[], [], [], [], bits0, 0, [], []⟩ : Walk ρ) :=
    ⟨Good.nil, Good.nil, Good.nil, by simp [Queued]⟩
  have hBlocks :
      ∀ r ∈ forest.roots, forest.IsBlock
        ⟨r.1, forest.device.levelSize r.2⟩ := by
    intro r hr
    rcases forest.roots_mem r hr with
      ⟨b, hb, hAddr, hLevel⟩
    refine ⟨b, hb, ?_⟩
    simp only [extent, Device.extent, hAddr, hLevel]
  rcases queueAll_spec hEmpty forest.roots hBlocks with
    ⟨hQueues, hSame, hQueued⟩
  refine ⟨hQueues, ?_, ?_, by simp, ?_, ?_, ?_⟩
  · exact hSame.reada ▸ Good.nil
  · intro e he
    have hNil : (queueRoots forest.device bits0
        forest.roots).reada = [] := hSame.reada
    rw [hNil] at he
    cases he
  · exact hSame.visited
  · apply Worklist.Inv.init
    intro b
    have hIff : Queued (queueRoots forest.device bits0
        forest.roots) (forest.extent b) ↔ _ :=
      hQueued (forest.extent b)
    rw [hIff]
    constructor
    · intro hb
      rcases hb with ⟨hb, hOld | ⟨r, hr, hEq⟩⟩
      · simp [Queued] at hOld
      · rcases forest.roots_mem r hr with
          ⟨c, hc, hAddr, hLevel⟩
        have hSame : b = c :=
          block_unique hb hc
            ((congrArg CacheExtent.start hEq).trans
              hAddr.symm)
        subst hSame
        apply List.mem_filter.mpr
        refine ⟨hb, decide_eq_true ?_⟩
        rw [hAddr, hLevel]
        exact hr
    · intro hb
      rcases List.mem_filter.mp hb with ⟨hb, hRoot⟩
      exact ⟨hb, Or.inr ⟨_, of_decide_eq_true hRoot, rfl⟩⟩
  · exact hSame.extentCache

/- The state of a run all of whose calls go well. -/
theorem runBlocks_inv
    (forest : Forest ρ)
    (bits0 : CacheExtent)
    (choices : Nat → Choices)
    (hOk :
      ∀ n walk,
        runBlocks forest.device choices
            (queueRoots forest.device bits0 forest.roots) n =
          (false, walk) →
        StepOk forest.device walk)
    (n : Nat) :
    ∃ ended walk order,
      runBlocks forest.device choices
          (queueRoots forest.device bits0 forest.roots) n =
        (ended, walk) ∧
      forest.WalkInv walk order ∧
      (ended = false → order.length = n) ∧
      (ended = true → ∀ e, ¬ Queued walk e) := by
  induction n with
  | zero =>
      exact ⟨false, _, [], rfl, queueRoots_inv forest bits0,
        fun _ => rfl, by simp⟩
  | succ n ih =>
      rcases ih with
        ⟨ended, walk, order, hRun, hInv, hCount, hDone⟩
      unfold runBlocks
      rw [hRun]
      cases ended with
      | true =>
          exact ⟨true, walk, order, rfl, hInv, by simp, hDone⟩
      | false =>
          simp only
          cases hNext : runNextBlock forest.device (choices n)
              walk with
          | none =>
              exact ⟨true, walk, order, rfl, hInv, by simp,
                fun _ => runNextBlock_eq_none hInv hNext⟩
          | some walk' =>
              rcases runNextBlock_inv hInv (hOk n walk hRun)
                  hNext with ⟨b, hInv'⟩
              refine ⟨false, walk', b :: order, rfl, hInv',
                ?_, by simp⟩
              intro _
              rw [List.length_cons, hCount rfl]

/-
  A run all of whose calls go well ends; by then it has read
  every reachable block once, in some order and with its own
  size, and has recorded what the items of each block add.
-/
theorem runBlocks_visits_once
    (forest : Forest ρ)
    (bits0 : CacheExtent)
    (choices : Nat → Choices)
    (hOk :
      ∀ n walk,
        runBlocks forest.device choices
            (queueRoots forest.device bits0 forest.roots) n =
          (false, walk) →
        StepOk forest.device walk) :
    ∃ (n : Nat) (walk : Walk ρ)
        (order : List (Nat × Block ρ)),
      runBlocks forest.device choices
          (queueRoots forest.device bits0 forest.roots) n =
        (true, walk) ∧
      order.Nodup ∧
      (∀ b, b ∈ order ↔ Worklist.Reaches forest.children
        forest.rootBlocks b) ∧
      walk.visited.reverse = order.map forest.extent ∧
      walk.extentCache = order.flatMap fun b => b.2.refs := by
  rcases runBlocks_inv forest bits0 choices hOk
      (forest.blocks.length + 1) with
    ⟨ended, walk, order, hRun, hInv, hCount, hDone⟩
  cases ended with
  | false =>
      -- more blocks visited than the forest has
      have hSub : order ⊆ forest.blocks := hInv.order_mem
      have hLength :=
        (hInv.work.nodup.subperm hSub).length_le
      rw [hCount rfl] at hLength
      omega
  | true =>
      have hComplete := hInv.work.complete
        (fun b hb => hDone rfl _ hb.2)
      refine ⟨_, walk, order.reverse, hRun, ?_, ?_, ?_, ?_⟩
      · exact List.nodup_reverse.mpr hInv.work.nodup
      · intro b
        rw [List.mem_reverse]
        exact hComplete b
      · rw [hInv.visited_eq, List.map_reverse]
      · exact hInv.extentCache_eq

end Forest

/- A filesystem of four-kilobyte blocks. -/
def exampleDevice
    (blocks : List (Nat × Block Nat)) : Device Nat where
  leafsize := 4096
  nodesize := 4096
  readTreeBlock := fun bytenr size =>
    if size = 4096 then
      (blocks.find? fun b => b.1 = bytenr).map Prod.snd
    else
      none

/- Two roots that share a leaf. -/
def twoRoots : List (Nat × Block Nat) :=
  [(409600, ⟨1, [1232896], []⟩), (819200, ⟨1, [1232896], []⟩),
    (1232896, ⟨0, [], [7]⟩)]

def twoRootsForest : Forest Nat where
  device := exampleDevice twoRoots
  blocks := twoRoots
  roots := [(409600, 1), (819200, 1)]
  leafsize_pos := by decide
  nodesize_pos := by decide
  readable := by simp [twoRoots, exampleDevice, Device.levelSize]
  disjoint := by decide
  children_mem := by simp [twoRoots]
  roots_mem := by simp [twoRoots]

theorem twoRoots_ptrs
    {bytenr size : Nat}
    {block : Block Nat}
    (hRead :
      twoRootsForest.device.readTreeBlock bytenr size =
        some block) :
    ∀ ptr ∈ block.ptrs, ptr = 1232896 := by
  have hMem : ∃ b ∈ twoRoots, b.2 = block := by
    simp only [twoRootsForest, exampleDevice] at hRead
    split at hRead
    · rcases Option.map_eq_some_iff.mp hRead with
        ⟨b, hFind, rfl⟩
      exact ⟨b, List.mem_of_find?_eq_some hFind, rfl⟩
    · cases hRead
  rcases hMem with ⟨b, hb, rfl⟩
  revert b
  simp [twoRoots]

/- Until the leaf is visited, every call goes well. -/
theorem twoRoots_stepOk
    {walk : Walk Nat}
    (hSize : ∀ e ∈ walk.reada, e.size = walk.bits0.size)
    (hLeaf : ∀ v ∈ walk.visited, v.start ≠ 1232896) :
    Forest.StepOk twoRootsForest.device walk where
  size_kept := by
    intro cache rest hSearch
    exact hSize cache
      (Forest.search_mem hSearch cache List.mem_cons_self)
  ptrs_fresh := by
    intro fromReada b bits block _ hRead v hv hPtr
    exact hLeaf v hv (twoRoots_ptrs hRead _ hPtr)

/- The run over the two trees. -/
def twoRootsRun (n : Nat) : Bool × Walk Nat :=
  runBlocks twoRootsForest.device (fun _ => ⟨0, 0, 0, 0⟩)
    (queueRoots twoRootsForest.device ⟨0, 0⟩
      twoRootsForest.roots) n

theorem twoRootsRun_ended
    (n : Nat) :
    (twoRootsRun (n + 4)).1 = true := by
  induction n with
  | zero => decide
  | succ n ih =>
      unfold twoRootsRun at ih ⊢
      rw [runBlocks]
      split
      · rfl
      case h_2 walk hRun =>
        rw [hRun] at ih
        cases ih

theorem runBlocks_visits_once_twoRoots :
    ∃ (n : Nat) (walk : Walk Nat)
        (order : List (Nat × Block Nat)),
      twoRootsRun n = (true, walk) ∧ order.Nodup ∧
        walk.extentCache = order.flatMap fun b => b.2.refs := by
  rcases Forest.runBlocks_visits_once twoRootsForest ⟨0, 0⟩
      (fun _ => ⟨0, 0, 0, 0⟩) (by
        intro n walk hRun
        have hWalk : walk = (twoRootsRun n).2 := by
          rw [twoRootsRun, hRun]
        have hLive : (twoRootsRun n).1 = false := by
          rw [twoRootsRun, hRun]
        subst hWalk
        match n with
        | 0 => exact twoRoots_stepOk (by decide) (by decide)
        | 1 => exact twoRoots_stepOk (by decide) (by decide)
        | 2 => exact twoRoots_stepOk (by decide) (by decide)
        | 3 =>
            have hDone :
                pickNextPending (twoRootsRun 3).2 = none := by
              decide
            constructor
            · intro cache rest hSearch
              have hNone :
                  searchCacheExtent (twoRootsRun 3).2.reada 0 =
                    none := by
                decide
              rw [hNone] at hSearch
              cases hSearch
            · intro fromReada b bits block hPick
              rw [hDone] at hPick
              cases hPick
        | n + 4 =>
            rw [twoRootsRun_ended] at hLive
            cases hLive) with
    ⟨n, walk, order, hRun, hNodup, _, _, hCache⟩
  exact ⟨n, walk, order, hRun, hNodup, hCache⟩

/-
  A leaf that is a child of a small tree and, further down,
  of a deep one.  It lies close behind a node of the deep
  tree, is read with that node's window, and is queued again
  when its other parent is read.
-/
def deepAndShallow : List (Nat × Block Nat) :=
  [(409600, ⟨1, [1232896], []⟩), (819200, ⟨3, [1228800], []⟩),
    (1228800, ⟨2, [204800], []⟩), (204800, ⟨1, [1232896], []⟩),
    (1232896, ⟨0, [], [7]⟩)]

def deepAndShallowForest : Forest Nat where
  device := exampleDevice deepAndShallow
  blocks := deepAndShallow
  roots := [(409600, 1), (819200, 3)]
  leafsize_pos := by decide
  nodesize_pos := by decide
  readable := by
    simp [deepAndShallow, exampleDevice, Device.levelSize]
  disjoint := by decide
  children_mem := by simp [deepAndShallow]
  roots_mem := by simp [deepAndShallow]

theorem runBlocks_visits_twice :
    ∃ walk,
      runBlocks deepAndShallowForest.device
          (fun _ => ⟨0, 0, 0, 0⟩)
          (queueRoots deepAndShallowForest.device ⟨0, 0⟩
            deepAndShallowForest.roots) 7 = (true, walk) ∧
        ¬ walk.visited.Nodup ∧ walk.extentCache = [7, 7] := by
  refine ⟨_, rfl, ?_, ?_⟩
  · decide
  · decide

end Check

end BtrfsProgs
