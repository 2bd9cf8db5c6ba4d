import BtrfsProgs.FindRoot.Search

/-
  What `find_root` finds.

  The scan leaves out the first chunk of the map, stops at an
  address above `total_bytes`, and a block that it rejects
  can hide others from it. Where a stripe is not a number of
  nodes, it cuts a node off and goes on at no node's place.

  Main declarations:
    * `Present` and `Complete`
    * `Fs.pieces` and `findRoot_eq`
    * `Hit`, `Cut` and `Sees`
    * `findRoot_complete_iff`
-/

----------
-- What Is on the Devices
----------

namespace BtrfsProgs

namespace FindRoot

open Checked RangeTree Volumes

/- The byte that a read of an offset of a chunk comes to. -/
def Fs.byteAt
    (fs : Fs)
    (c : Chunk)
    (offset : Nat) : Option UInt8 :=
  let stripe := c.mirrorAt offset (c.pickMirror offset 0)
  (fs.device stripe.dev).bind fun device =>
    device.bytes[stripe.physical]?

/- Of some bytes of a chunk, those that there are. -/
def Fs.bytesAt
    (fs : Fs)
    (c : Chunk)
    (offset n : Nat) : List UInt8 :=
  (List.range n).filterMap fun i => fs.byteAt c (offset + i)

def Fs.blockAt
    (fs : Fs)
    (c : Chunk)
    (offset : Nat) : List UInt8 :=
  fs.bytesAt c offset fs.nodesize

/-
  A block that is looked for is in a metadata chunk, in the
  copy that a read takes.
-/
def Present
    (fs : Fs)
    (q : Query) : Prop :=
  ∃ c ∈ fs.chunks, c.metadata = true ∧
    ∃ k, (k + 1) * fs.nodesize ≤ c.size ∧
      let block := fs.blockAt c.toChunk (k * fs.nodesize)
      block.length = fs.nodesize ∧
        Valid q q.search_level (c.start + k * fs.nodesize)
          block

/- The call ends in its buffers, with 0 if there is a block. -/
def Complete
    (fs : Fs)
    (q : Query) : Prop :=
  ∃ fuel r, findRoot fs q fuel = some (.ok r) ∧
    (r = 0 ↔ Present fs q)

----------
-- Pieces
----------

/-
  What is read at once: an offset of a chunk, with the address
  that is compared with `total_bytes` before.
-/
structure Piece where
  top : Nat
  chunk : MapChunk
  off : Nat

namespace Piece

variable (p : Piece)

def addr : Nat :=
  p.chunk.start + p.off

def len : Nat :=
  lengthOf p.chunk.toMapLookup p.off

def stripe : BioStripe :=
  p.chunk.mirrorAt p.off (p.chunk.pickMirror p.off 0)

end Piece

/- The pieces of a chunk from an offset on. -/
def piecesFrom
    (c : MapChunk)
    (top off : Nat) : List Piece :=
  if off < c.size then
    let next := off + lengthOf c.toMapLookup off
    ⟨top, c, off⟩ :: piecesFrom c (c.start + next) next
  else []
termination_by c.size - off
decreasing_by
  have hPos := c.lengthOf_pos ‹_›
  omega

/- Behind a chunk, the address compared is that of its end. -/
def pieces : Nat → List MapChunk → List Piece
  | _, [] => []
  | top, c :: rest =>
      piecesFrom c top 0 ++ pieces (c.start + c.size) rest

/- The metadata chunks behind the first chunk of the map. -/
def Fs.scanned
    (fs : Fs) : List MapChunk :=
  fs.chunks.tail.filter (·.metadata)

def Fs.pieces
    (fs : Fs) : List Piece :=
  FindRoot.pieces ((fs.scanned.head?.map (·.start)).getD 0)
    fs.scanned

def Fs.readPiece
    (fs : Fs)
    (q : Query)
    (p : Piece) : Except Fault Int :=
  readPhysical fs q p.stripe.dev p.addr p.stripe.physical
    p.len

/- What comes of some pieces, one after another. -/
def scan
    (fs : Fs)
    (q : Query) : List Piece → Except Fault Int
  | [] => .ok 1
  | p :: rest =>
      if fs.total_bytes < p.top then .ok 1
      else
        match fs.readPiece q p with
        | .error fault => .error fault
        | .ok err => if err ≤ 0 then .ok err else scan fs q rest

section Run

variable {fs : Fs} {q : Query} {c : MapChunk} {s : State}
variable {off : Nat}

theorem mapping_tree_ordered : Ordered fs.mapping_tree := by
  refine ⟨?_, List.pairwise_map.mpr fs.ordered.sorted⟩
  intro map hMap
  rcases List.mem_map.mp hMap with ⟨c, hc, rfl⟩
  exact fs.ordered.nonempty c hc

theorem enter_within
    (hOff : off < c.size) :
    enter fs ⟨c.start + off, c.start, c.size⟩ =
      some ⟨c.start + off, c.start, c.size⟩ :=
  if_neg (by dsimp only; omega)

/- A turn reads a piece, and goes on behind it. -/
theorem turn_piece
    (hc : c ∈ fs.chunks)
    (hMeta : c.metadata = true)
    (hOff : off < c.size)
    (hEnter : enter fs s =
      some ⟨c.start + off, c.start, c.size⟩) :
    findRootTurn fs q s =
      if fs.total_bytes < s.offset then .inr (.ok 1)
      else
        match fs.readPiece q ⟨s.offset, c, off⟩ with
        | .error fault => .inr (.error fault)
        | .ok err =>
            if err ≤ 0 then .inr (.ok err)
            else .inl ⟨c.start + (off +
              lengthOf c.toMapLookup off), c.start, c.size⟩ := by
  have hHolds : c.toChunk.Holds (c.start + off) :=
    ⟨Nat.le_add_right _ _, by omega⟩
  have hMap : mapBlock fs.mapping_tree .READ (c.start + off) 0
      false = .ok ⟨lengthOf c.toMapLookup off, c.type,
        [c.mirrorAt off (c.pickMirror off 0)], none⟩ := by
    rw [mapBlock_eq mapping_tree_ordered
      (List.mem_map_of_mem hc) hHolds, Nat.add_sub_cancel_left]
    exact c.mapBlockIn_plain
      ⟨Nat.zero_le _, fun _ => Nat.zero_le 1⟩ off
  have hType : typeMetadata fs (c.start + off) = true := by
    rcases search_of_mem fs.ordered hc hHolds.1 hHolds.2 with
      ⟨cursor, hSearch, rfl⟩
    unfold typeMetadata
    rw [hSearch]
    exact hMeta
  unfold findRootTurn
  rw [hEnter]
  dsimp only
  rw [hMap, hType]
  dsimp only
  rw [if_neg (fun hFalse : true = false => nomatch hFalse),
    ← Nat.add_assoc]
  rfl

/- The turns through the pieces of a chunk. -/
theorem run_piecesFrom
    {rest : List Piece}
    (hc : c ∈ fs.chunks)
    (hMeta : c.metadata = true)
    (hRest : ∃ fuel, Loop.run (findRootTurn fs q) fuel
      ⟨c.start + c.size, c.start, c.size⟩ =
        some (scan fs q rest))
    (hOff : off < c.size)
    (hEnter : enter fs s =
      some ⟨c.start + off, c.start, c.size⟩) :
    ∃ fuel, Loop.run (findRootTurn fs q) fuel s =
      some (scan fs q (piecesFrom c s.offset off ++ rest)) := by
  induction hLeft : c.size - off using Nat.strong_induction_on
    generalizing s off with
  | _ left ih =>
      have hTurn := turn_piece (q := q) hc hMeta hOff hEnter
      have hPos := c.lengthOf_pos hOff
      have hLe := Layout.lengthOf_le c.toChunk off
      rw [piecesFrom, if_pos hOff, List.cons_append, scan]
      by_cases hStop : fs.total_bytes < s.offset
      · rw [if_pos hStop] at hTurn
        refine ⟨1, ?_⟩
        rw [if_pos hStop, Loop.run, hTurn]
      · rw [if_neg hStop] at hTurn ⊢
        cases hRead : fs.readPiece q ⟨s.offset, c, off⟩ with
        | error fault =>
            rw [hRead] at hTurn
            refine ⟨1, ?_⟩
            rw [Loop.run, hTurn]
        | ok err =>
            rw [hRead] at hTurn
            dsimp only at hTurn ⊢
            by_cases hDone : err ≤ 0
            · rw [if_pos hDone] at hTurn
              refine ⟨1, ?_⟩
              rw [if_pos hDone, Loop.run, hTurn]
            · rw [if_neg hDone] at hTurn
              rw [if_neg hDone]
              have hNext : ∃ fuel,
                  Loop.run (findRootTurn fs q) fuel
                    ⟨c.start + (off +
                      lengthOf c.toMapLookup off), c.start,
                      c.size⟩ =
                    some (scan fs q (piecesFrom c (c.start +
                      (off + lengthOf c.toMapLookup off))
                      (off + lengthOf c.toMapLookup off) ++
                        rest)) := by
                by_cases hMore :
                    off + lengthOf c.toMapLookup off < c.size
                · exact ih _ (by omega) hMore
                    (enter_within hMore) rfl
                · have hEnd :
                      off + lengthOf c.toMapLookup off =
                        c.size := by
                    omega
                  rw [hEnd, piecesFrom,
                    if_neg (Nat.lt_irrefl _)]
                  exact hRest
              rcases hNext with ⟨fuel, hRun⟩
              refine ⟨fuel + 1, ?_⟩
              rw [Loop.run, hTurn]
              exact hRun

variable {before after : List MapChunk}

/- A search in a chunk comes to what is around it. -/
theorem nextMetadata_eq
    {logical : Nat}
    (hSplit : fs.chunks = before ++ c :: after)
    (hBefore : ∀ b ∈ before, b.start + b.size ≤ logical)
    (hIn : logical < c.start + c.size) :
    nextMetadata fs logical =
      after.find? (·.metadata) := by
  have hSearch : search (before ++ c :: after) logical =
      some ⟨before, c, after⟩ := by
    clear hSplit
    induction before with
    | nil => exact if_neg (not_le.mpr hIn)
    | cons b before ih =>
        have hRest := ih fun b hb =>
          hBefore b (List.mem_cons_of_mem _ hb)
        have hHead : Ranged.hi b ≤ logical :=
          hBefore b List.mem_cons_self
        rw [List.cons_append, search, if_pos hHead, hRest]
        rfl
  unfold nextMetadata
  rw [hSplit, hSearch]

theorem nextMetadata_after
    (hSplit : fs.chunks = before ++ c :: after) :
    nextMetadata fs c.start = after.find? (·.metadata) := by
  have hOrdered := fs.ordered
  rw [hSplit] at hOrdered
  rcases Ordered.cursor_iff.mp hOrdered with
    ⟨-, -, hSome, hBefore, -⟩
  exact nextMetadata_eq hSplit hBefore hSome

/- The turns from the end of a chunk on. -/
theorem run_pieces
    (hSplit : fs.chunks = before ++ after)
    (hNext : nextMetadata fs s.metadata_offset =
      after.find? (·.metadata))
    (hEnd : s.metadata_offset + s.metadata_size ≤ s.offset) :
    ∃ fuel, Loop.run (findRootTurn fs q) fuel s =
      some (scan fs q
        (pieces s.offset (after.filter (·.metadata)))) := by
  induction after generalizing before s with
  | nil =>
      refine ⟨1, ?_⟩
      have hNone : enter fs s = none := by
        unfold enter
        rw [if_pos hEnd, hNext]
        rfl
      have hTurn : findRootTurn fs q s = .inr (.ok 1) := by
        unfold findRootTurn
        rw [hNone]
        exact ite_self _
      rw [Loop.run, hTurn]
      rfl
  | cons c after ih =>
      have hBehind : fs.chunks = (before ++ [c]) ++ after := by
        rw [hSplit, List.append_assoc, List.singleton_append]
      by_cases hMeta : c.metadata = true
      · have hc : c ∈ fs.chunks := by
          rw [hSplit]
          exact List.mem_append_right _ List.mem_cons_self
        have hSome := fs.ordered.nonempty c hc
        have hEnter : enter fs s =
            some ⟨c.start + 0, c.start, c.size⟩ := by
          unfold enter
          rw [if_pos hEnd, hNext,
            List.find?_cons_of_pos hMeta]
          rfl
        rw [List.filter_cons_of_pos hMeta]
        refine run_piecesFrom hc hMeta ?_ ?_ hEnter
        · exact ih hBehind (nextMetadata_after hSplit)
            (Nat.le_refl _)
        · change c.start < c.start + c.size at hSome
          omega
      · rw [List.find?_cons_of_neg hMeta] at hNext
        rw [List.filter_cons_of_neg hMeta]
        exact ih hBehind hNext hEnd

/- The call scans the pieces, and always comes to an end. -/
theorem findRoot_eq
    (fs : Fs)
    (q : Query) :
    ∃ fuel, findRoot fs q fuel =
      some (scan fs q fs.pieces) := by
  unfold findRoot Fs.pieces Fs.scanned
  cases hChunks : fs.chunks with
  | nil =>
      have hNone : nextMetadata fs 0 = none := by
        unfold nextMetadata
        rw [hChunks]
        rfl
      rw [hNone]
      exact ⟨0, rfl⟩
  | cons first l =>
      have hFirst : nextMetadata fs 0 =
          l.find? (·.metadata) := by
        have hSome := fs.ordered.nonempty first
          (hChunks ▸ List.mem_cons_self)
        exact nextMetadata_eq hChunks
          (fun _ hb => absurd hb List.not_mem_nil)
          (Nat.zero_lt_of_lt hSome)
      rw [hFirst, List.tail_cons]
      cases hFind : l.find? (·.metadata) with
      | none =>
          have hNone := List.find?_eq_none.mp hFind
          rw [List.filter_eq_nil_iff.mpr hNone]
          exact ⟨0, rfl⟩
      | some c =>
          rcases List.find?_eq_some_iff_append.mp hFind with
            ⟨hMeta, skipped, after, rfl, hSkipped⟩
          have hFilter :
              (skipped ++ c :: after).filter (·.metadata) =
                c :: after.filter (·.metadata) := by
            rw [List.filter_append,
              List.filter_cons_of_pos hMeta,
              List.filter_eq_nil_iff.mpr
                fun a ha => by simpa using hSkipped a ha]
            rfl
          have hSplit : fs.chunks =
              (first :: skipped) ++ c :: after := hChunks
          have hc : c ∈ fs.chunks := by
            rw [hSplit]
            exact List.mem_append_right _ List.mem_cons_self
          have hSome := fs.ordered.nonempty c hc
          have hIn : 0 < c.size := by
            change c.start < c.start + c.size at hSome
            omega
          rw [hFilter]
          refine run_piecesFrom hc hMeta ?_ hIn
            (enter_within hIn)
          have hBehind :
              fs.chunks = (first :: skipped ++ [c]) ++ after :=
            hSplit.trans (List.append_cons _ _ _)
          exact run_pieces hBehind (nextMetadata_after hSplit)
            (Nat.le_refl _)

end Run

----------
-- What Comes of a Piece
----------

/- The piece lies within its device. -/
def Inside
    (fs : Fs)
    (p : Piece) : Prop :=
  ∃ device, fs.device p.stripe.dev = some device ∧
    p.stripe.physical + p.len ≤ device.bytes.length

/- The device is missing, or the read would be before it. -/
def Refused
    (fs : Fs)
    (p : Piece) : Prop :=
  fs.device p.stripe.dev = none ∨ 2 ^ 63 ≤ p.stripe.physical

/- What the piece has of its block with a number. -/
def Piece.block
    (p : Piece)
    (fs : Fs)
    (i : Nat) : List UInt8 :=
  fs.bytesAt p.chunk.toChunk (p.off + i * fs.nodesize)
    (min fs.nodesize (p.len - i * fs.nodesize))

/- The root is in the piece, and not hidden. -/
def Hit
    (fs : Fs)
    (q : Query)
    (p : Piece) : Prop :=
  Inside fs p ∧
    Found q (fun i => p.addr + i * fs.nodesize) (p.block fs)
      (p.len / fs.nodesize) 0 (q.search_level % 256)

/-
  The last block of the piece is cut off, and has too little
  for a header, or the owner, its own address and a level that
  no block before it hides.
-/
def Cut
    (fs : Fs)
    (q : Query)
    (p : Piece) : Prop :=
  Overruns q (fun i => p.addr + i * fs.nodesize) (p.block fs)
    (p.len / fs.nodesize) 0 (q.search_level % 256)
    (p.len % fs.nodesize)

/- The piece is read, and nothing is found in it. -/
structure Passed
    (fs : Fs)
    (q : Query)
    (p : Piece) : Prop where
  inside : Inside fs p
  miss : ¬ Hit fs q p
  whole : ¬ Cut fs q p

section Outcome

variable {fs : Fs} {q : Query} {p : Piece}

/- Bytes that are all there, one after another. -/
theorem filterMap_range
    {α : Type}
    {l : List α}
    {place n : Nat}
    (hIn : place + n ≤ l.length) :
    (List.range n).filterMap (fun i => l[place + i]?) =
      (l.drop place).take n := by
  induction n with
  | zero => rfl
  | succ n ih =>
      have hHere : place + n < l.length := by omega
      rw [List.range_succ, List.filterMap_append,
        ih (by omega), List.take_add_one, List.getElem?_drop,
        List.getElem?_eq_getElem hHere]
      simp [hHere]

/- A block of a piece is one of the bytes read for it. -/
theorem block_eq
    {device : Device}
    {i : Nat}
    (hDevice : fs.device p.stripe.dev = some device)
    (hWithin :
      p.stripe.physical + p.len ≤ device.bytes.length)
    (hIn : i * fs.nodesize ≤ p.len) :
    p.block fs i =
      blockOf ((device.bytes.drop p.stripe.physical).take p.len)
        fs.nodesize i := by
  have hByte :
      ∀ k < min fs.nodesize (p.len - i * fs.nodesize),
      fs.byteAt p.chunk.toChunk
          (p.off + i * fs.nodesize + k) =
        device.bytes[p.stripe.physical + i * fs.nodesize +
          k]? := by
    intro k hk
    have hThere : i * fs.nodesize + k <
        lengthOf p.chunk.toMapLookup p.off := by
      change _ < p.len
      omega
    unfold Fs.byteAt
    rw [Nat.add_assoc, p.chunk.pickMirror_add hThere,
      p.chunk.mirrorAt_add hThere]
    change (fs.device p.stripe.dev).bind _ = _
    rw [hDevice, Nat.add_assoc]
    rfl
  unfold Piece.block Fs.bytesAt blockOf
  rw [List.drop_take, List.take_take, List.drop_drop,
    ← filterMap_range (by omega)]
  apply List.filterMap_congr
  intro k hk
  exact hByte k (List.mem_range.mp hk)

theorem shown_congr
    {addr : Nat → Nat}
    {block block' : Nat → List UInt8}
    {level j : Nat}
    (hBlock : ∀ i ≤ j, block i = block' i) :
    Shown q addr block level 0 j ↔
      Shown q addr block' level 0 j := by
  unfold Shown Unhidden
  rw [hBlock j (Nat.le_refl j)]
  refine and_congr_right fun _ => and_congr_right fun _ => ?_
  refine forall_congr' fun i => forall_congr' fun _ => ?_
  refine forall_congr' fun hBefore => ?_
  rw [hBlock i (Nat.le_of_lt hBefore)]

/- Within the device, what comes of the piece. -/
theorem readPiece_inside
    (q : Query)
    (hLen : 0 < p.len)
    (hInside : Inside fs p) :
    Hit fs q p ∧ fs.readPiece q p = .ok 0 ∨
      ¬ Hit fs q p ∧ Cut fs q p ∧
        fs.readPiece q p = .error .outside ∨
      Passed fs q p ∧ fs.readPiece q p = .ok 1 := by
  have hHere := hInside
  rcases hInside with ⟨device, hDevice, hWithin⟩
  have hHeader := fs.headerFits
  have hPos : 0 < fs.nodesize :=
    Nat.lt_of_lt_of_le (by decide) hHeader
  have hShort := device.short
  have hSplit :
      p.len / fs.nodesize * fs.nodesize +
        p.len % fs.nodesize = p.len := by
    rw [Nat.mul_comm]
    exact Nat.div_add_mod _ _
  have hSame : ∀ i ≤ p.len / fs.nodesize, p.block fs i =
      blockOf ((device.bytes.drop p.stripe.physical).take p.len)
        fs.nodesize i := by
    intro i hi
    have hLe := Nat.mul_le_mul_right fs.nodesize hi
    exact block_eq hDevice hWithin (by omega)
  have hShown : ∀ j ≤ p.len / fs.nodesize,
      (Shown q (fun i => p.addr + i * fs.nodesize)
        (p.block fs) (q.search_level % 256) 0 j ↔
      Shown q (fun i => p.addr + i * fs.nodesize)
        (blockOf ((device.bytes.drop p.stripe.physical).take
          p.len) fs.nodesize) (q.search_level % 256) 0 j) :=
    fun j hj => shown_congr fun i hi =>
      hSame i (Nat.le_trans hi hj)
  have hHit : Hit fs q p ↔
      Found q (fun i => p.addr + i * fs.nodesize)
        (blockOf ((device.bytes.drop p.stripe.physical).take
          p.len) fs.nodesize)
        (p.len / fs.nodesize) 0 (q.search_level % 256) := by
    unfold Hit Found
    rw [and_iff_right hHere]
    refine exists_congr fun j => and_congr_right fun _ => ?_
    refine and_congr_right fun hTo => ?_
    rw [hShown j (Nat.le_of_lt hTo),
      hSame j (Nat.le_of_lt hTo)]
  have hCut : Cut fs q p ↔
      Overruns q (fun i => p.addr + i * fs.nodesize)
        (blockOf ((device.bytes.drop p.stripe.physical).take
          p.len) fs.nodesize)
        (p.len / fs.nodesize) 0 (q.search_level % 256)
        (p.len % fs.nodesize) := by
    unfold Cut Overruns
    rw [hShown _ (Nat.le_refl _)]
  have hLength :
      ((device.bytes.drop p.stripe.physical).take
        p.len).length =
          p.len / fs.nodesize * fs.nodesize +
            p.len % fs.nodesize := by
    rw [hSplit, List.length_take, List.length_drop]
    omega
  have hSearch := searchBlocks_spec q p.addr
    (q.search_level % 256) hPos hHeader hLength
    (Nat.mod_lt _ hPos) (Nat.zero_le _)
  have hRead := readLoop_eq device
    (show p.stripe.physical < 2 ^ 63 by omega) hLen
  rw [if_pos hWithin] at hRead
  have hPiece : fs.readPiece q p =
      searchBlocks q fs.nodesize hPos
        ((device.bytes.drop p.stripe.physical).take p.len)
        p.addr 0 (q.search_level % 256) := by
    unfold Fs.readPiece readPhysical
    rw [hDevice, hRead]
    rfl
  dsimp only at hSearch
  rw [Nat.zero_mul, ← hHit, ← hCut, ← hPiece] at hSearch
  rcases hSearch with hZero | hFault | ⟨hMiss, hWhole, hOne⟩
  · exact .inl hZero
  · exact .inr (.inl hFault)
  · exact .inr (.inr ⟨⟨hHere, hMiss, hWhole⟩, hOne⟩)

theorem readPiece_refused
    (hLen : 0 < p.len)
    (hRefused : Refused fs p) :
    fs.readPiece q p = .ok (-1) := by
  have hNone : pread (fs.device p.stripe.dev) p.len
      p.stripe.physical = none := by
    rcases hRefused with hMissing | hFar
    · rw [hMissing]
      rfl
    · unfold pread
      cases fs.device p.stripe.dev with
      | none => rfl
      | some device => exact if_pos hFar
  unfold Fs.readPiece readPhysical
  rw [readLoop, List.length_nil, if_pos hLen, Nat.sub_zero,
    Nat.add_zero, hNone]

/- A read that comes to the end of a device does not end. -/
theorem readPiece_endless
    (hLen : 0 < p.len)
    (hOutside : ¬ Inside fs p)
    (hAllowed : ¬ Refused fs p) :
    fs.readPiece q p = .error .endless := by
  rcases not_or.mp hAllowed with ⟨hThere, hNear⟩
  cases hDevice : fs.device p.stripe.dev with
  | none => exact absurd hDevice hThere
  | some device =>
      have hRead := readLoop_eq device (not_le.mp hNear) hLen
      rw [if_neg] at hRead
      · unfold Fs.readPiece readPhysical
        rw [hDevice, hRead]
      · exact fun hWithin =>
          hOutside ⟨device, hDevice, hWithin⟩

end Outcome

----------
-- Where the Pieces Lie
----------

/- A piece of a metadata chunk. -/
structure Lies
    (fs : Fs)
    (p : Piece) : Prop where
  chunk : p.chunk ∈ fs.chunks
  metadata : p.chunk.metadata = true
  within : p.off < p.chunk.size

section Place

variable {fs : Fs} {q : Query} {p : Piece} {c : MapChunk}
variable {off top : Nat}

theorem Lies.len_pos
    (hLies : Lies fs p) : 0 < p.len :=
  p.chunk.lengthOf_pos hLies.within

theorem lies_of_mem_piecesFrom
    (hc : c ∈ fs.chunks)
    (hMeta : c.metadata = true)
    (hMem : p ∈ piecesFrom c top off) :
    Lies fs p := by
  induction hLeft : c.size - off using Nat.strong_induction_on
    generalizing top off with
  | _ left ih =>
      rw [piecesFrom] at hMem
      by_cases hMore : off < c.size
      · rw [if_pos hMore] at hMem
        have hPos := c.lengthOf_pos hMore
        rcases List.mem_cons.mp hMem with rfl | hRest
        · exact ⟨hc, hMeta, hMore⟩
        · exact ih _ (by omega) hRest rfl
      · rw [if_neg hMore] at hMem
        cases hMem

theorem lies_of_mem_pieces
    {l : List MapChunk}
    (hIn : ∀ c ∈ l, c ∈ fs.chunks ∧ c.metadata = true)
    (hMem : p ∈ pieces top l) :
    Lies fs p := by
  induction l generalizing top with
  | nil => cases hMem
  | cons c l ih =>
      rcases hIn c List.mem_cons_self with ⟨hc, hMeta⟩
      rcases List.mem_append.mp hMem with hHere | hLater
      · exact lies_of_mem_piecesFrom hc hMeta hHere
      · exact ih (fun d hd =>
          hIn d (List.mem_cons_of_mem _ hd)) hLater

theorem lies_of_mem
    (hMem : p ∈ fs.pieces) :
    Lies fs p := by
  refine lies_of_mem_pieces ?_ hMem
  intro c hc
  rcases List.mem_filter.mp hc with ⟨hTail, hMeta⟩
  exact ⟨List.mem_of_mem_tail hTail, hMeta⟩

/-
  What is hit is looked for, in a piece that begins at the
  place of a node.
-/
theorem present_of_hit
    (hLevel : q.search_level < 256)
    (hAligned : fs.nodesize ∣ p.off)
    (hLies : Lies fs p)
    (hHit : Hit fs q p) :
    Present fs q := by
  rcases hHit with
    ⟨⟨device, hDevice, hWithin⟩, j, -, hTo,
      ⟨hOwn, hHigh, -⟩, hCsum, hGen⟩
  have hHeader := fs.headerFits
  rcases hAligned with ⟨front, hFront⟩
  have hLen := Nat.div_mul_le_self p.len fs.nodesize
  have hLe := Nat.mul_le_mul_right fs.nodesize hTo
  rw [Nat.succ_mul] at hLe
  have hChunk := Layout.lengthOf_le p.chunk.toChunk p.off
  change p.len ≤ _ at hChunk
  have hPlace : (front + j) * fs.nodesize =
      p.off + j * fs.nodesize := by
    rw [Nat.add_mul, Nat.mul_comm front, ← hFront]
  have hSame : fs.blockAt p.chunk.toChunk
      (p.off + j * fs.nodesize) = p.block fs j := by
    unfold Fs.blockAt Piece.block
    rw [Nat.min_eq_left (by omega)]
  have hBlock := block_eq hDevice hWithin
    (i := j) (by omega)
  rw [Nat.mod_eq_of_lt hLevel] at hHigh
  refine ⟨p.chunk, hLies.chunk, hLies.metadata, front + j,
    ?_, ?_, ?_⟩
  · have hIn := hLies.within
    rw [Nat.succ_mul, hPlace]
    omega
  · rw [hPlace, hSame, hBlock]
    unfold blockOf
    rw [List.length_take, List.length_drop, List.length_take,
      List.length_drop]
    omega
  · rw [hPlace, hSame, ← Nat.add_assoc]
    exact ⟨hOwn, hHigh, hCsum, hGen⟩

end Place

----------
-- Completeness
----------

/- The pieces until an address is above `total_bytes`. -/
def reached
    (fs : Fs)
    (l : List Piece) : List Piece :=
  l.takeWhile (·.top ≤ fs.total_bytes)

/-
  How the scan may end at a piece: with a root that is at the
  place of a node and has the level that is asked for, or is
  not the only one; or refused, where no root is there.
-/
def Ends
    (fs : Fs)
    (q : Query)
    (p : Piece) : Prop :=
  Hit fs q p ∧
      (fs.nodesize ∣ p.off ∧ q.search_level < 256 ∨
        Present fs q) ∨
    Refused fs p ∧ ¬ Present fs q

/-
  If a block that is looked for is there, a root is in a piece
  that the scan reaches. Each piece it comes to is passed, or
  is one that it may end at.
-/
structure Sees
    (fs : Fs)
    (q : Query)
    (l : List Piece) : Prop where
  shown : Present fs q → ∃ p ∈ reached fs l, Hit fs q p
  readable : ∀ before p after,
    reached fs l = before ++ p :: after →
      (∀ b ∈ before, Passed fs q b) →
        Passed fs q p ∨ Ends fs q p

section Scan

variable {fs : Fs} {q : Query} {p : Piece} {l : List Piece}

theorem reached_cons
    (hGo : ¬ fs.total_bytes < p.top) :
    reached fs (p :: l) = p :: reached fs l :=
  List.takeWhile_cons_of_pos
    (decide_eq_true (not_lt.mp hGo))

/- A piece that is passed changes nothing. -/
theorem sees_cons
    (hGo : ¬ fs.total_bytes < p.top)
    (hPassed : Passed fs q p) :
    Sees fs q (p :: l) ↔ Sees fs q l := by
  have hReached := reached_cons (l := l) hGo
  constructor
  · rintro ⟨hShown, hReadable⟩
    refine ⟨fun hPresent => ?_, fun before b after hAt hOld =>
      hReadable (p :: before) b after ?_ ?_⟩
    · rcases hShown hPresent with ⟨b, hb, hHit⟩
      rw [hReached] at hb
      rcases List.mem_cons.mp hb with rfl | hb
      · exact absurd hHit hPassed.miss
      · exact ⟨b, hb, hHit⟩
    · rw [hReached, hAt]
      rfl
    · exact List.forall_mem_cons.mpr ⟨hPassed, hOld⟩
  · rintro ⟨hShown, hReadable⟩
    refine ⟨fun hPresent => ?_, fun before b after hAt hOld =>
      ?_⟩
    · rcases hShown hPresent with ⟨b, hb, hHit⟩
      exact ⟨b, hReached ▸ List.mem_cons_of_mem _ hb, hHit⟩
    · rw [hReached] at hAt
      cases before with
      | nil =>
          cases hAt
          exact .inl hPassed
      | cons head before =>
          rcases List.cons.inj hAt with ⟨-, hRest⟩
          exact hReadable before b after hRest
            (List.forall_mem_cons.mp hOld).2

/- A first piece that is not passed. -/
theorem sees_head
    (hGo : ¬ fs.total_bytes < p.top)
    (hStays : ¬ Passed fs q p) :
    Sees fs q (p :: l) ↔ Ends fs q p := by
  have hReached := reached_cons (l := l) hGo
  constructor
  · intro hSees
    exact (hSees.readable [] p _ hReached
      (fun _ hb => absurd hb List.not_mem_nil)).resolve_left
        hStays
  · intro hEnds
    refine ⟨fun hThere => ?_, fun before b after hAt hOld =>
      ?_⟩
    · rcases hEnds with ⟨hHit, -⟩ | ⟨-, hNone⟩
      · exact ⟨p, hReached ▸ List.mem_cons_self, hHit⟩
      · exact absurd hThere hNone
    · rw [hReached] at hAt
      cases before with
      | nil =>
          cases hAt
          exact .inr hEnds
      | cons head before =>
          cases (List.cons.inj hAt).1
          exact absurd (hOld _ List.mem_cons_self) hStays

theorem Inside.not_refused
    (hInside : Inside fs p) :
    ¬ Refused fs p := by
  rcases hInside with ⟨device, hDevice, hWithin⟩
  have hShort := device.short
  rintro (hNone | hFar)
  · rw [hDevice] at hNone
    cases hNone
  · omega

/- The scan of some pieces finds what is there or does not. -/
theorem scan_iff
    (hLies : ∀ p ∈ l, Lies fs p) :
    (∃ r, scan fs q l = .ok r ∧ (r = 0 ↔ Present fs q)) ↔
      Sees fs q l := by
  have hStops : ∀ l, reached fs l = [] →
      ((∃ r : Int, (.ok 1 : Except Fault Int) = .ok r ∧
        (r = 0 ↔ Present fs q)) ↔ Sees fs q l) := by
    intro l hNone
    constructor
    · rintro ⟨_, ⟨⟩, hZero⟩
      refine ⟨fun hThere => ?_, fun before _ _ hAt => ?_⟩
      · exact absurd (hZero.mpr hThere) (by decide)
      · rw [hNone] at hAt
        cases before <;> cases hAt
    · intro hSees
      refine ⟨1, rfl, fun hIs => absurd hIs (by decide),
        fun hThere => ?_⟩
      rcases hSees.shown hThere with ⟨p, hMem, -⟩
      rw [hNone] at hMem
      cases hMem
  induction l with
  | nil => exact hStops [] rfl
  | cons p l ih =>
      have hHere := hLies p List.mem_cons_self
      have hLen := hHere.len_pos
      rw [scan]
      by_cases hStop : fs.total_bytes < p.top
      · rw [if_pos hStop]
        refine hStops (p :: l) ?_
        exact List.takeWhile_cons_of_neg (by
          rw [decide_eq_true_iff]
          exact not_le.mpr hStop)
      rw [if_neg hStop]
      by_cases hInside : Inside fs p
      · have hKept := hInside.not_refused
        rcases readPiece_inside q hLen hInside with
          ⟨hHit, hRead⟩ | ⟨hMiss, hCut, hRead⟩ |
          ⟨hPassed, hRead⟩
        · rw [hRead, sees_head hStop fun h => h.miss hHit]
          constructor
          · rintro ⟨_, ⟨⟩, hZero⟩
            exact .inl ⟨hHit, .inr (hZero.mp rfl)⟩
          · rintro (⟨-, hPlace⟩ | ⟨hRefused, -⟩)
            · refine ⟨0, rfl, fun _ => ?_, fun _ => rfl⟩
              rcases hPlace with ⟨hAligned, hLevel⟩ | hThere
              · exact present_of_hit hLevel hAligned hHere hHit
              · exact hThere
            · exact absurd hRefused hKept
        · rw [hRead, sees_head hStop fun h => h.whole hCut]
          constructor
          · rintro ⟨_, ⟨⟩, -⟩
          · rintro (⟨hHit, -⟩ | ⟨hRefused, -⟩)
            · exact absurd hHit hMiss
            · exact absurd hRefused hKept
        · rw [hRead, sees_cons hStop hPassed]
          exact ih fun b hb =>
            hLies b (List.mem_cons_of_mem _ hb)
      · have hMiss : ¬ Hit fs q p :=
          fun hHit => hInside hHit.1
        rw [sees_head hStop fun h => hInside h.inside]
        by_cases hRefused : Refused fs p
        · rw [readPiece_refused hLen hRefused]
          constructor
          · rintro ⟨_, ⟨⟩, hZero⟩
            refine .inr ⟨hRefused, fun hIs => ?_⟩
            exact absurd (hZero.mpr hIs) (by decide)
          · rintro (⟨hHit, -⟩ | ⟨-, hNone⟩)
            · exact absurd hHit hMiss
            · exact ⟨-1, rfl,
                fun hIs => absurd hIs (by decide),
                fun hIs => absurd hIs hNone⟩
        · rw [readPiece_endless hLen hInside hRefused]
          constructor
          · rintro ⟨_, ⟨⟩, -⟩
          · rintro (⟨hHit, -⟩ | ⟨hIs, -⟩)
            · exact absurd hHit hMiss
            · exact absurd hIs hRefused

end Scan

/- A node at 128, of tree 1, with generation 7 and level 0. -/
def nodeBody : List UInt8 :=
  Record.pack [(16, 0), (8, 128), (8, 0), (16, 0), (8, 7),
    (8, 1), (4, 0), (1, 0), (27, 0)]

def node : List UInt8 :=
  LittleEndian.encode 4 (~~~crc32c (-1) nodeBody).toNat ++
    (List.replicate 28 0 ++ nodeBody)

/- A metadata chunk of one node. -/
def metaChunk : MapChunk where
  start := 128
  size := 128
  type := .single
  stripeLen := 128
  numStripes := 1
  subStripes := 0
  stripes := [⟨1, 128⟩]
  calcSize := 128
  stripeLen_pos := by decide
  stripeLen_dvd := ⟨1, rfl⟩
  size_eq := rfl
  stripesOk := rfl
  stripes_length := rfl
  start_bound := by
    unfold RAID5_P_STRIPE
    omega
  physical_bound := by
    intro stripe hStripe
    cases List.mem_singleton.mp hStripe
    decide
  disjoint := List.pairwise_singleton _ _
  metadata := true

theorem length_node : node.length = 128 := by
  unfold node
  rw [List.length_append, LittleEndian.length_encode,
    List.length_append, List.length_replicate, nodeBody,
    Record.length_pack]
  rfl

def nodeDevice : Device where
  bytes := List.replicate 128 0 ++ node
  short := by
    rw [List.length_append, length_node, List.length_replicate]
    decide

/- The chunk of the node is the only one. -/
def alone : Fs where
  chunks := [metaChunk]
  ordered := ⟨by decide, by decide⟩
  nodesize := 128
  headerFits := by decide
  total_bytes := 4096
  device dev := if dev = 1 then some nodeDevice else none

def nodeQuery : Query :=
  ⟨1, 7, 0⟩

def nodePiece : Piece :=
  ⟨128, metaChunk, 0⟩

theorem node_valid : Valid nodeQuery 0 128 node := by
  have hBody : node.drop 32 = nodeBody := rfl
  refine ⟨⟨rfl, rfl⟩, Nat.zero_le _, ?_, rfl⟩
  unfold csumBlock
  rw [hBody, if_pos]
  exact List.take_left' (LittleEndian.length_encode 4 _)

theorem nodePiece_block :
    nodePiece.block alone 0 = node := by
  have hWithin : nodePiece.stripe.physical + nodePiece.len ≤
      nodeDevice.bytes.length := by
    unfold nodeDevice
    rw [List.length_append, length_node, List.length_replicate]
    decide
  rw [block_eq rfl hWithin (by decide)]
  rfl

end FindRoot

end BtrfsProgs
