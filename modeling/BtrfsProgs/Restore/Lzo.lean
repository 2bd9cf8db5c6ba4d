import BtrfsProgs.Lib.Checked
import BtrfsProgs.Lib.LittleEndian
import BtrfsProgs.Lib.Loop

/-
  `decompress_lzo`, from `cmds-restore.c`.

  Nothing is compared with the length of the input, and every
  segment is offered room for a whole page of output.

  Main declarations:
    * `Lzo`
    * `lzoTurn` and `decompressLzo`
    * `Laid` and `HasRoom`
    * `decompressLzo_inside_iff`
-/

----------
-- The Library
----------

namespace BtrfsProgs

namespace LzoSegments

open Checked
open Record

def LZO_E_OK : Int := 0

def LZO_LEN : Nat := 4

def PAGE_CACHE_SIZE : Nat := 4096

def lzo1xWorstCompress
    (x : Nat) : Nat :=
  x + x / 16 + 64 + 3

/-
  What a call of `lzo1x_decompress_safe` returns, how much it
  reads from its source and what it writes.
-/
structure LzoCall where
  ret : Int
  read : Nat
  written : List UInt8
deriving Repr

/-
  The LZO library: what `lzo_init` returns, and a decompressor
  that uses at most what it is offered.
-/
structure Lzo where
  lzo_init : Int
  lzo1x_decompress_safe : (Nat → UInt8) → Nat → Nat → LzoCall
  read_le :
    ∀ src in_len new_len,
      (lzo1x_decompress_safe src in_len new_len).read ≤ in_len
  written_le :
    ∀ src in_len new_len,
      (lzo1x_decompress_safe src in_len
        new_len).written.length ≤ new_len

----------
-- The Function
----------

/-
  The variables of the loop.  `inbuf` has moved on by `tot_in`
  and `outbuf` by `out_len` bytes.
-/
structure LzoState where
  tot_in : Nat
  out_len : Nat
  outbuf : List UInt8

/- What the function returns and leaves. -/
structure LzoResult where
  ret : Int
  decompress_len : Nat
  outbuf : List UInt8

/- `read_compress_length`, at a place of the input. -/
def readCompressLength
    (inbuf : List UInt8)
    (place : Nat) : Except Fault Nat :=
  read inbuf place LZO_LEN

/- The call for a segment, in the memory that there is. -/
def decompressSegment
    (lzo : Lzo)
    (inbuf : List UInt8)
    (place in_len : Nat)
    (s : LzoState) : Except Fault (Int × Nat × List UInt8) :=
  let c := lzo.lzo1x_decompress_safe
    (fun i => inbuf.getD (place + i) 0) in_len
    (lzo1xWorstCompress PAGE_CACHE_SIZE)
  if place + c.read ≤ inbuf.length then
    (write s.outbuf s.out_len c.written).map fun outbuf =>
      (c.ret, c.written.length, outbuf)
  else
    .error .outside

/- A turn of the loop. -/
def lzoTurn
    (lzo : Lzo)
    (inbuf : List UInt8)
    (decompress_len tot_len : Nat)
    (s : LzoState) : LzoState ⊕ Except Fault LzoResult :=
  if s.tot_in < tot_len then
    match readCompressLength inbuf s.tot_in with
    | .error fault => .inr (.error fault)
    | .ok in_len =>
        let tot_in := s.tot_in + LZO_LEN
        match decompressSegment lzo inbuf tot_in in_len s with
        | .error fault => .inr (.error fault)
        | .ok (ret, new_len, outbuf) =>
            if ret ≠ LZO_E_OK then
              .inr (.ok ⟨-1, decompress_len, outbuf⟩)
            else
              .inl
                { tot_in := tot_in + in_len
                  out_len := s.out_len + new_len
                  outbuf := outbuf }
  else
    .inr (.ok ⟨0, s.out_len, s.outbuf⟩)

/-
  `decompress_lzo`, for some turns of its loop.  The buffers
  have `compress_len` and `*decompress_len` bytes.
-/
def decompressLzo
    (lzo : Lzo)
    (inbuf outbuf : List UInt8)
    (fuel : Nat) : Option (Except Fault LzoResult) :=
  if lzo.lzo_init ≠ LZO_E_OK then
    some (.ok ⟨-1, outbuf.length, outbuf⟩)
  else
    match readCompressLength inbuf 0 with
    | .error fault => some (.error fault)
    | .ok tot_len =>
        Loop.run (lzoTurn lzo inbuf outbuf.length tot_len) fuel
          ⟨LZO_LEN, 0, outbuf⟩

----------
-- Segments in Their Buffers
----------

/- Some segments, up to the total, lie within the input. -/
inductive Laid
    (inbuf : List UInt8)
    (tot_len : Nat) : Nat → Nat → Prop where
  | done
      {place : Nat}
      (hEnd : tot_len ≤ place) :
      Laid inbuf tot_len place 0
  | segment
      {place n : Nat}
      (hMore : place < tot_len)
      (hLength : place + LZO_LEN ≤ inbuf.length)
      (hData : place + LZO_LEN + field inbuf place LZO_LEN ≤
        inbuf.length)
      (hRest : Laid inbuf tot_len
        (place + LZO_LEN + field inbuf place LZO_LEN) n) :
      Laid inbuf tot_len place (n + 1)

/-
  The segments lie within the input, and the output has room
  for what each of them is offered.
-/
def HasRoom
    (inbuf : List UInt8)
    (decompress_len : Nat) : Prop :=
  LZO_LEN ≤ inbuf.length ∧
    ∃ n, Laid inbuf (field inbuf 0 LZO_LEN) LZO_LEN n ∧
      n * lzo1xWorstCompress PAGE_CACHE_SIZE ≤ decompress_len

/- The call returns, and has used no other memory. -/
def StaysInside
    (lzo : Lzo)
    (inbuf outbuf : List UInt8) : Prop :=
  ∃ fuel result,
    decompressLzo lzo inbuf outbuf fuel = some (.ok result)

----------
-- The Loop
----------

section Run

variable {lzo : Lzo}
variable {inbuf : List UInt8}
variable {decompress_len tot_len place n : Nat}
variable {s : LzoState}

/- A segment with room for its output is decompressed. -/
theorem decompressSegment_inside
    {in_len : Nat}
    (lzo : Lzo)
    (hIn : place + in_len ≤ inbuf.length)
    (hOut : s.out_len + lzo1xWorstCompress PAGE_CACHE_SIZE ≤
      s.outbuf.length) :
    ∃ ret new_len outbuf,
      decompressSegment lzo inbuf place in_len s =
          .ok (ret, new_len, outbuf) ∧
        new_len ≤ lzo1xWorstCompress PAGE_CACHE_SIZE ∧
        outbuf.length = s.outbuf.length := by
  have hRead := lzo.read_le
    (fun i => inbuf.getD (place + i) 0) in_len
    (lzo1xWorstCompress PAGE_CACHE_SIZE)
  have hWritten := lzo.written_le
    (fun i => inbuf.getD (place + i) 0) in_len
    (lzo1xWorstCompress PAGE_CACHE_SIZE)
  unfold decompressSegment
  dsimp only
  generalize lzo.lzo1x_decompress_safe
    (fun i => inbuf.getD (place + i) 0) in_len
    (lzo1xWorstCompress PAGE_CACHE_SIZE) = c at hRead hWritten ⊢
  have hFits : s.out_len + c.written.length ≤
      s.outbuf.length := by
    omega
  rw [if_pos (by omega)]
  rcases runs_write hFits with ⟨outbuf, hWrite, hLength, _⟩
  rw [hWrite]
  exact ⟨c.ret, c.written.length, outbuf, rfl, hWritten,
    hLength⟩

/- Segments that are laid out with room are gone through. -/
theorem lzoTurn_inside
    (lzo : Lzo)
    (decompress_len : Nat)
    (hLaid : Laid inbuf tot_len s.tot_in n)
    (hRoom : s.out_len +
      n * lzo1xWorstCompress PAGE_CACHE_SIZE ≤
        s.outbuf.length) :
    Loop.Ends (lzoTurn lzo inbuf decompress_len tot_len)
      (fun w => ∃ result, w = .ok result) s := by
  generalize hPlace : s.tot_in = place at hLaid
  induction hLaid generalizing s with
  | done hEnd =>
      refine .done (w := .ok ⟨0, s.out_len, s.outbuf⟩) ?_
        ⟨_, rfl⟩
      unfold lzoTurn
      rw [if_neg (by omega)]
  | @segment place n hMore hLength hData _ ih =>
      rw [Nat.succ_mul] at hRoom
      rcases decompressSegment_inside (s := s) lzo hData
        (by omega) with
        ⟨ret, new_len, outbuf, hSegment, hNew, hSame⟩
      subst hPlace
      have hTurn : lzoTurn lzo inbuf decompress_len tot_len s =
          if ret ≠ LZO_E_OK then
            .inr (.ok ⟨-1, decompress_len, outbuf⟩)
          else
            .inl
              ⟨s.tot_in + LZO_LEN +
                field inbuf s.tot_in LZO_LEN,
                s.out_len + new_len, outbuf⟩ := by
        unfold lzoTurn readCompressLength
        rw [if_pos hMore, read_eq hLength]
        dsimp only
        rw [hSegment]
      by_cases hOk : ret = LZO_E_OK
      · rw [if_neg (not_not.mpr hOk)] at hTurn
        refine .turn hTurn (ih ?_ rfl)
        dsimp only
        omega
      · rw [if_pos hOk] at hTurn
        exact .done hTurn ⟨_, rfl⟩

/- A decompressor that uses all that it is offered. -/
def greedy : Lzo where
  lzo_init := LZO_E_OK
  lzo1x_decompress_safe := fun _ in_len new_len =>
    ⟨LZO_E_OK, in_len, .replicate new_len 0⟩
  read_le := fun _ in_len _ => Nat.le_refl in_len
  written_le := fun _ _ _ => by rw [List.length_replicate]

theorem decompressSegment_greedy
    {in_len new_len : Nat}
    {code : Int}
    {outbuf : List UInt8}
    (hSegment : decompressSegment greedy inbuf place in_len s =
      .ok (code, new_len, outbuf)) :
    place + in_len ≤ inbuf.length ∧
      s.out_len + lzo1xWorstCompress PAGE_CACHE_SIZE ≤
        s.outbuf.length ∧
      code = LZO_E_OK ∧
      new_len = lzo1xWorstCompress PAGE_CACHE_SIZE ∧
      outbuf.length = s.outbuf.length := by
  unfold decompressSegment greedy at hSegment
  dsimp only at hSegment
  generalize lzo1xWorstCompress PAGE_CACHE_SIZE = room
    at hSegment ⊢
  split_ifs at hSegment with hIn
  by_cases hFits : s.out_len +
      (List.replicate room (0 : UInt8)).length ≤
        s.outbuf.length
  · rcases runs_write hFits with ⟨out, hWrite, hSame, _⟩
    rw [hWrite] at hSegment
    cases hSegment
    rw [List.length_replicate] at hFits ⊢
    exact ⟨hIn, hFits, rfl, rfl, hSame⟩
  · unfold write at hSegment
    rw [if_neg hFits] at hSegment
    cases hSegment

/- What the greedy decompressor goes through is laid out. -/
theorem laid_of_greedy
    {fuel : Nat}
    {result : LzoResult}
    (hStart : s.out_len ≤ s.outbuf.length)
    (hRun : Loop.run
      (lzoTurn greedy inbuf decompress_len tot_len) fuel s =
        some (.ok result)) :
    ∃ n, Laid inbuf tot_len s.tot_in n ∧
      s.out_len + n * lzo1xWorstCompress PAGE_CACHE_SIZE ≤
        s.outbuf.length := by
  induction fuel generalizing s with
  | zero => cases hRun
  | succ fuel ih =>
      by_cases hMore : s.tot_in < tot_len
      · unfold Loop.run lzoTurn readCompressLength at hRun
        rw [if_pos hMore] at hRun
        cases hRead : read inbuf s.tot_in LZO_LEN with
        | error fault =>
            rw [hRead] at hRun
            cases hRun
        | ok in_len =>
            rw [hRead] at hRun
            dsimp only at hRun
            rcases le_of_read_eq hRead with ⟨hLength, hIs⟩
            cases hSegment : decompressSegment greedy inbuf
                (s.tot_in + LZO_LEN) in_len s with
            | error fault =>
                rw [hSegment] at hRun
                cases hRun
            | ok answer =>
                rcases answer with ⟨code, new_len, outbuf⟩
                rw [hSegment] at hRun
                rcases decompressSegment_greedy hSegment with
                  ⟨hData, hFits, hCode, hNew, hSame⟩
                dsimp only at hRun
                rw [if_neg (not_not.mpr hCode)] at hRun
                rcases ih (by dsimp only; omega) hRun with
                  ⟨n, hLaid, hRoom⟩
                subst hIs hNew
                refine ⟨n + 1, .segment hMore hLength hData
                  hLaid, ?_⟩
                rw [Nat.succ_mul]
                dsimp only at hRoom
                omega
      · exact ⟨0, .done (not_lt.mp hMore), by omega⟩

end Run

/-
  `decompress_lzo` stays in its buffers with every decompressor
  that uses what it is offered just when the segments lie in
  the input and the output has room for what is offered.
-/
theorem decompressLzo_inside_iff
    (inbuf outbuf : List UInt8) :
    (∀ lzo, StaysInside lzo inbuf outbuf) ↔
      HasRoom inbuf outbuf.length := by
  constructor
  · intro hInside
    rcases hInside greedy with ⟨fuel, result, hRun⟩
    unfold decompressLzo readCompressLength at hRun
    rw [if_neg (show ¬ greedy.lzo_init ≠ LZO_E_OK from
      not_not.mpr rfl)] at hRun
    cases hRead : read inbuf 0 LZO_LEN with
    | error fault =>
        rw [hRead] at hRun
        cases hRun
    | ok tot_len =>
        rw [hRead] at hRun
        rcases le_of_read_eq hRead with ⟨hLength, rfl⟩
        rcases laid_of_greedy (Nat.zero_le _) hRun with
          ⟨n, hLaid, hRoom⟩
        rw [Nat.zero_add] at hLength hRoom
        exact ⟨hLength, n, hLaid, hRoom⟩
  · intro hRoom lzo
    rcases hRoom with ⟨hLength, n, hLaid, hMost⟩
    have hRead : readCompressLength inbuf 0 =
        .ok (field inbuf 0 LZO_LEN) :=
      read_eq (by rw [Nat.zero_add]; exact hLength)
    by_cases hInit : lzo.lzo_init = LZO_E_OK
    · rcases lzoTurn_inside (s := ⟨LZO_LEN, 0, outbuf⟩) lzo
        outbuf.length hLaid (by rw [Nat.zero_add]; exact hMost)
        with ⟨fuel, w, hRun, result, rfl⟩
      refine ⟨fuel, result, ?_⟩
      unfold decompressLzo
      rw [if_neg (not_not.mpr hInit), hRead]
      exact hRun
    · exact ⟨0, _, if_pos hInit⟩

/- A total of 8 bytes in an input that has 4. -/
def cutOff : List UInt8 := [8, 0, 0, 0]

/- The length of the first segment is read behind the input. -/
theorem decompressLzo_reads_outside :
    decompressLzo greedy cutOff (.replicate 4096 0) 1 =
        some (.error .outside) ∧
      ¬ ∀ lzo, StaysInside lzo cutOff (.replicate 4096 0) := by
  refine ⟨rfl, ?_⟩
  intro hInside
  rcases hInside greedy with ⟨fuel, result, hRun⟩
  cases fuel with
  | zero => cases hRun
  | succ fuel => cases hRun

end LzoSegments

end BtrfsProgs
