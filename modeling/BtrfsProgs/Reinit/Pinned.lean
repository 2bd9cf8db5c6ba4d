import BtrfsProgs.Reinit.Pin

/-
  The ranges that `pin_metadata_blocks` pins are those of the
  blocks of the trees it follows.

  Main declarations:
    * `inTree_pinned` and `rootItem_pinned`
    * `followed_pinned`
    * `pinned_followed`
-/

----------
-- All Blocks That Are Followed
----------

namespace BtrfsProgs

namespace Reinit

variable {fs : Filesystem}
variable {fuel : Nat}
variable {eb : TreeBlock}
variable {treeRoot : Bool}
variable {pinned pinned' : Pins}

theorem keeps_pinDownTreeBlocks
    (fs : Disk)
    (fuel : Nat) :
    Keeps (pinDownTreeBlocks fs fuel) := by
  intro tmp below p p' hTurn
  exact List.Subset.trans (List.subset_cons_self ..)
    (pinDownTreeBlocks_subset hTurn)

/- Each pointer of a node has had its turn. -/
theorem child_turn
    {level c : Nat}
    (hLevel : eb.level = level + 1)
    (hRun :
      pinDownTreeBlocks fs.toDisk (fuel + 1) eb treeRoot
        pinned = some (.ok pinned'))
    (hMem : c ∈ eb.blockptrs) :
    ∃ p p',
      pinChild fs.toDisk (pinDownTreeBlocks fs.toDisk fuel)
          (level + 1) treeRoot c p = some (.ok p') ∧
        p' ⊆ pinned' := by
  rw [pinDownTreeBlocks, hLevel, if_neg (Nat.succ_ne_zero _)]
    at hRun
  exact pinEach_turn
    (fun _ _ _ _ hTurn =>
      (keeps_pinDownTreeBlocks _ _).child hTurn)
    hRun hMem

/- So has each item of a leaf. -/
theorem rootItem_turn
    {item : Key × Loc}
    (hLeaf : eb.level = 0)
    (hRun :
      pinDownTreeBlocks fs.toDisk (fuel + 1) eb treeRoot
        pinned = some (.ok pinned'))
    (hMem : item ∈ eb.items) :
    ∃ p p',
      pinRootItem fs.toDisk (pinDownTreeBlocks fs.toDisk fuel)
          item p = some (.ok p') ∧
        p' ⊆ pinned' := by
  rw [pinDownTreeBlocks, if_pos hLeaf] at hRun
  exact pinEach_turn
    (fun _ _ _ _ hTurn =>
      (keeps_pinDownTreeBlocks _ _).rootItem hTurn)
    hRun hMem

/- The blocks of a tree are pinned, each by its own size. -/
theorem inTree_pinned
    {at_ : Loc}
    (hWhole : Whole fs eb)
    (hRun :
      pinDownTreeBlocks fs.toDisk fuel eb treeRoot pinned =
        some (.ok pinned'))
    (hIn : InTree fs.toDisk eb.loc at_) :
    fs.range at_ ∈ pinned' := by
  induction fuel generalizing eb treeRoot pinned pinned' with
  | zero => cases hRun
  | succ fuel ih =>
      have hSelf : fs.range eb.loc ∈ pinned' := by
        have hHead := pinDownTreeBlocks_subset hRun
          (List.mem_cons_self ..)
        rw [hWhole.len] at hHead
        exact hHead
      rcases inTree_cases hWhole hIn with
        hHere | ⟨c, level, hMem, hLevel, hBelow⟩
      · rw [hHere]
        exact hSelf
      · rcases child_turn hLevel hRun hMem with
          ⟨p, p', hTurn, hSub⟩
        rcases pinChild_cases hTurn with
          ⟨hOne, _, hPin⟩ | ⟨tmp, hRead, hRest⟩
        · -- The leaves below are not read.
          have hZero : level = 0 := by omega
          subst hZero
          cases hBelow
          refine hSub ?_
          rw [hPin]
          exact List.mem_cons_self ..
        · rcases hWhole.child hLevel hMem hRead with
            ⟨hTmp, hLoc⟩
          exact hSub (ih hTmp hRest (hLoc ▸ hBelow))

/- So are those of the roots in the tree of roots. -/
theorem rootItem_pinned
    {b : Nat}
    {leaf : TreeBlock}
    {key : Key}
    {root at_ : Loc}
    (hWhole : Whole fs eb)
    (hRun :
      pinDownTreeBlocks fs.toDisk fuel eb true pinned =
        some (.ok pinned'))
    (hLeaf : InTree fs.toDisk eb.loc ⟨b, 0⟩)
    (hRead : fs.readTreeBlock b fs.leafsize = some leaf)
    (hItem : (key, root) ∈ leaf.items)
    (hType : key.type = ROOT_ITEM_KEY)
    (hFollowed : skipped key.objectid = false)
    (hIn : InTree fs.toDisk root at_) :
    fs.range at_ ∈ pinned' := by
  induction fuel generalizing eb pinned pinned' with
  | zero => cases hRun
  | succ fuel ih =>
      rcases inTree_cases hWhole hLeaf with
        hHere | ⟨c, level, hMem, hLevel, hBelow⟩
      · have hZero : eb.level = 0 :=
          (congrArg Loc.level hHere).symm
        have hStart : eb.start = b :=
          (congrArg Loc.bytenr hHere).symm
        have hSame : leaf = eb := by
          unfold Whole at hWhole
          rw [hStart, hZero] at hWhole
          exact Option.some.inj (hRead.symm.trans hWhole)
        subst hSame
        rcases rootItem_turn hZero hRun hItem with
          ⟨p, p', hTurn, hSub⟩
        rcases pinRootItem_cases hTurn with
          ⟨_, hType' | hSkipped⟩ | ⟨_, _, tmp, hTmp, hRest⟩
        · exact absurd hType hType'
        · rw [hFollowed] at hSkipped
          cases hSkipped
        · rcases hWhole.rootItem hItem hType hTmp with
            ⟨hWholeTmp, hLoc⟩
          exact hSub
            (inTree_pinned hWholeTmp hRest (hLoc ▸ hIn))
      · rcases child_turn hLevel hRun hMem with
          ⟨p, p', hTurn, hSub⟩
        rcases pinChild_cases hTurn with
          ⟨_, hNot, _⟩ | ⟨tmp, hTmp, hRest⟩
        · cases hNot
        · rcases hWhole.child hLevel hMem hTmp with
            ⟨hWholeTmp, hLoc⟩
          exact hSub (ih hWholeTmp hRest (hLoc ▸ hBelow))

theorem followed_pinned
    {at_ : Loc}
    (hRun :
      pinMetadataBlocks fs.toDisk fuel = some (.ok pinned'))
    (hFollowed : Followed fs.toDisk at_) :
    fs.range at_ ∈ pinned' := by
  unfold pinMetadataBlocks at hRun
  split at hRun
  · rename_i p hChunk
    have hSub := keeps_pinDownTreeBlocks _ _ _ _ _ _ hRun
    rcases hFollowed with
      hIn | hIn | ⟨key, root, hRoot, hFollowed, hIn⟩
    · exact hSub (inTree_pinned fs.chunkRoot_read hChunk hIn)
    · exact inTree_pinned fs.treeRoot_read hRun hIn
    · rcases hRoot with ⟨hType, b, leaf, hLeaf, hRead, hItem⟩
      exact rootItem_pinned fs.treeRoot_read hRun hLeaf hRead
        hItem hType hFollowed hIn
  · rename_i hNot
    exact absurd hRun (hNot _)

----------
-- No Other Blocks
----------

theorem InTree.trans
    {fs : Disk}
    {a b c : Loc}
    (hFirst : InTree fs a b)
    (hSecond : InTree fs b c) :
    InTree fs a c := by
  induction hFirst with
  | root => exact hSecond
  | child hRead hMem _ ih =>
      exact .child hRead hMem (ih hSecond)

theorem Followed.inTree
    {fs : Disk}
    {a b : Loc}
    (hFollowed : Followed fs a)
    (hIn : InTree fs a b) :
    Followed fs b := by
  rcases hFollowed with
    hHere | hHere | ⟨key, root, hRoot, hSome, hHere⟩
  · exact .inl (hHere.trans hIn)
  · exact .inr (.inl (hHere.trans hIn))
  · exact .inr (.inr ⟨key, root, hRoot, hSome,
      hHere.trans hIn⟩)

/- Every pin is the range of a block that is followed. -/
def OnlyFollowed
    (fs : Disk)
    (pinned : Pins) : Prop :=
  ∀ r ∈ pinned, ∃ at_, Followed fs at_ ∧ r = fs.range at_

theorem OnlyFollowed.cons
    {fs : Disk}
    {pinned : Pins}
    {at_ : Loc}
    (hPinned : OnlyFollowed fs pinned)
    (hFollowed : Followed fs at_) :
    OnlyFollowed fs (fs.range at_ :: pinned) := by
  intro r hMem
  rcases List.mem_cons.mp hMem with hHead | hTail
  · exact ⟨at_, hFollowed, hHead⟩
  · exact hPinned r hTail

theorem pinDownTreeBlocks_only
    (hWhole : Whole fs eb)
    (hFollowed : Followed fs.toDisk eb.loc)
    (hRun :
      pinDownTreeBlocks fs.toDisk fuel eb treeRoot pinned =
        some (.ok pinned'))
    (hPinned : OnlyFollowed fs.toDisk pinned) :
    OnlyFollowed fs.toDisk pinned' := by
  induction fuel generalizing eb treeRoot pinned pinned' with
  | zero => cases hRun
  | succ fuel ih =>
      have hHere :
          OnlyFollowed fs.toDisk
            ((eb.start, eb.len) :: pinned) := by
        rw [hWhole.len]
        exact hPinned.cons hFollowed
      rw [pinDownTreeBlocks] at hRun
      split at hRun
      · rename_i hLeaf
        refine pinEach_keeps ?_ hRun hHere
        rintro ⟨key, root⟩ hItem p p' hTurn hOnly
        rcases pinRootItem_cases hTurn with
          ⟨hSame, _⟩ | ⟨hType, hSome, tmp, hRead, hRest⟩
        · rw [hSame]
          exact hOnly
        · rcases hWhole.rootItem hItem hType hRead with
            ⟨hTmp, hLoc⟩
          have hRoot : HasRoot fs.toDisk key root := by
            have hSelf := hWhole
            unfold Whole at hSelf
            rw [hLeaf] at hSelf
            exact ⟨hType, eb.start, eb,
              fs.root_items hWhole hLeaf hItem hType,
              hSelf, hItem⟩
          refine ih hTmp ?_ hRest hOnly
          rw [hLoc]
          exact .inr (.inr ⟨key, root, hRoot, hSome, .root _⟩)
      · rename_i hNode
        obtain ⟨level, hLevel⟩ : ∃ level, eb.level = level + 1 :=
          Nat.exists_eq_succ_of_ne_zero hNode
        have hChild : ∀ c ∈ eb.blockptrs,
            Followed fs.toDisk ⟨c, level⟩ := by
          intro c hMem
          refine hFollowed.inTree ?_
          have hSelf := hWhole
          unfold Whole at hSelf
          unfold TreeBlock.loc
          rw [hLevel] at hSelf ⊢
          exact .child hSelf hMem (.root _)
        refine pinEach_keeps ?_ hRun hHere
        intro c hMem p p' hTurn hOnly
        rcases pinChild_cases hTurn with
          ⟨hOne, _, hPin⟩ | ⟨tmp, hRead, hRest⟩
        · have hZero : level = 0 := by omega
          subst hZero
          rw [hPin]
          exact hOnly.cons (hChild c hMem)
        · rcases hWhole.child hLevel hMem hRead with
            ⟨hTmp, hLoc⟩
          refine ih hTmp ?_ hRest hOnly
          rw [hLoc]
          exact hChild c hMem

theorem pinned_followed
    (hRun :
      pinMetadataBlocks fs.toDisk fuel = some (.ok pinned')) :
    OnlyFollowed fs.toDisk pinned' := by
  unfold pinMetadataBlocks at hRun
  split at hRun
  · rename_i p hChunk
    have hFirst : OnlyFollowed fs.toDisk p :=
      pinDownTreeBlocks_only fs.chunkRoot_read
        (.inl (.root _)) hChunk
        (fun r hMem => absurd hMem List.not_mem_nil)
    exact pinDownTreeBlocks_only fs.treeRoot_read
      (.inr (.inl (.root _))) hRun hFirst
  · rename_i hNot
    exact absurd hRun (hNot _)

end Reinit

end BtrfsProgs
