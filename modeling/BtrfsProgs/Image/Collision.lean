import BtrfsProgs.Crc32c
import BtrfsProgs.Lib.SearchTree

/-
  Substitutes for file names, from `btrfs-image.c`.

  Main declarations:
    * `findCollision`
    * `rank` and `tryAll_spec`
-/

----------
-- Candidates
----------

namespace BtrfsProgs

namespace Image

/- `struct name`. -/
structure NameEntry where
  val : List UInt8
  sub : List UInt8
deriving Repr, DecidableEq

/-
  The names of a dump with their substitutes, and how many
  numbers `rand` has given.
-/
structure NameState where
  nameTree : SearchTree NameEntry
  draws : Nat

/- The checksum of a name in a directory. -/
def nameHash
    (name : List UInt8) : BitVec 32 :=
  crc32c (~~~1) name

/- `memset`. -/
def memset
    (buf : List UInt8)
    (c : UInt8)
    (n : Nat) : List UInt8 :=
  List.replicate n c ++ buf.drop n

/- `val->sub[i]++`, once more at a slash. -/
def bump
    (c : UInt8) : UInt8 :=
  if c + 1 = 47 then c + 1 + 1 else c + 1

/- The `do` loop that passes over the characters 127. -/
def skipFull
    (sub : List UInt8)
    (i : Nat) : Nat :=
  if i + 1 < sub.length then
    if sub.getD (i + 1) 0 = 127 then skipFull sub (i + 1)
    else i + 1
  else i + 1
termination_by sub.length - i

/-
  The `while` loop of `find_collision`, and whether it has
  found a substitute; `none` is a read behind the buffer, or a
  loop that goes on.
-/
def tryAll
    (name : List UInt8) :
    Nat → List UInt8 → Option (Bool × List UInt8)
  | 0, _ => none
  | fuel + 1, sub =>
      if nameHash sub = nameHash name ∧ sub ≠ name then
        some (true, sub)
      else
        match sub with
        | [] => none
        | c :: rest =>
            if c = 127 then
              let i := skipFull sub 0
              if sub.length ≤ i then some (false, sub)
              else
                tryAll name fuel
                  (memset (sub.set i (bump (sub.getD i 0)))
                    32 i)
            else tryAll name fuel (bump c :: rest)

/- The loop of `generate_garbage`. -/
def generateGarbage
    (rand : Nat → Nat)
    (draws nameLen : Nat) : List UInt8 :=
  (List.range nameLen).map fun i =>
    let c := UInt8.ofNat (rand (draws + i) % 94 + 33)
    if c = 47 then c + 1 else c

----------
-- The Tree of Names
----------

/- `memcmp`, of buffers of one length. -/
def memcmp :
    List UInt8 → List UInt8 → Ordering
  | a :: as, b :: bs =>
      if a.toNat < b.toNat then .lt
      else if b.toNat < a.toNat then .gt
      else memcmp as bs
  | _, _ => .eq

/- `name_cmp`. -/
def nameCmp
    (ins : List UInt8)
    (entry : NameEntry) : Ordering :=
  let len := min ins.length entry.val.length
  memcmp (ins.take len) (entry.val.take len)

/- The number of candidates of a length. -/
def candidates
    (nameLen : Nat) : Nat :=
  95 ^ nameLen

/-
  `find_collision` and the entry of which it returns the
  substitute; `none` is the `BUG` of `tree_insert`, or a loop
  without an end.
-/
def findCollision
    (rand : Nat → Nat)
    (rebalance : SearchTree.Rebalance NameEntry)
    (md : NameState)
    (name : List UInt8) : Option (NameEntry × NameState) :=
  match md.nameTree.search (nameCmp name) with
  | some val => some (val, md)
  | none =>
      match tryAll name (candidates name.length)
          (List.replicate name.length 32) with
      | none => none
      | some (found, sub) =>
          let val : NameEntry :=
            ⟨name,
              if found then sub
              else
                generateGarbage rand md.draws name.length⟩
          let draws :=
            if found then md.draws
            else md.draws + name.length
          match md.nameTree.insert (nameCmp name) val with
          | none => none
          | some tree => some (val, ⟨rebalance.run tree, draws⟩)

----------
-- The Order of the Candidates
----------

/- The characters from the space to 127 without the slash. -/
def Printable
    (c : UInt8) : Prop :=
  32 ≤ c.toNat ∧ c.toNat ≤ 127 ∧ c.toNat ≠ 47

def digit
    (c : UInt8) : Nat :=
  if c.toNat < 47 then c.toNat - 32 else c.toNat - 33

/- The place of a candidate in the order of the loop. -/
def rank : List UInt8 → Nat
  | [] => 0
  | c :: cs => digit c + 95 * rank cs

/- Every character is printable. -/
def Candidate
    (s : List UInt8) : Prop :=
  ∀ c ∈ s, Printable c

theorem toNat_eq_127
    (c : UInt8) :
    c = 127 ↔ c.toNat = 127 := by
  rw [← UInt8.toNat_inj]
  rfl

theorem digit_bump
    {c : UInt8}
    (hPrintable : Printable c)
    (hNot : c ≠ 127) :
    Printable (bump c) ∧ digit (bump c) = digit c + 1 := by
  have hNext : (c + 1).toNat = c.toNat + 1 := by
    rw [UInt8.toNat_add]
    have hLt := hPrintable.2.1
    have hOne : (1 : UInt8).toNat = 1 := rfl
    omega
  rw [Ne, toNat_eq_127] at hNot
  have hSlash : c + 1 = 47 ↔ c.toNat = 46 := by
    rw [← UInt8.toNat_inj, hNext]
    have hSlash : (47 : UInt8).toNat = 47 := rfl
    omega
  unfold Printable at *
  unfold bump digit
  by_cases hAt : c.toNat = 46
  · have hTwo : (c + 1 + 1).toNat = c.toNat + 2 := by
      rw [UInt8.toNat_add, hNext]
      have hOne : (1 : UInt8).toNat = 1 := rfl
      omega
    rw [if_pos (hSlash.mpr hAt), hTwo, if_neg (by omega),
      if_pos (by omega)]
    omega
  · rw [if_neg (mt hSlash.mp hAt), hNext]
    split <;> split <;> omega

theorem digit_lt
    {c : UInt8}
    (hPrintable : Printable c) :
    digit c < 95 := by
  unfold Printable at hPrintable
  unfold digit
  split <;> omega

theorem digit_inj
    {c d : UInt8}
    (hc : Printable c)
    (hd : Printable d)
    (hEq : digit c = digit d) :
    c = d := by
  unfold Printable at hc hd
  unfold digit at hEq
  apply UInt8.toNat_inj.mp
  split at hEq <;> split at hEq <;> omega

theorem rank_append
    (s t : List UInt8) :
    rank (s ++ t) = rank s + 95 ^ s.length * rank t := by
  induction s with
  | nil => simp [rank]
  | cons c s ih =>
      rw [List.cons_append, rank, rank, ih, List.length_cons,
        Nat.pow_succ]
      ring

theorem rank_spaces
    (n : Nat) :
    rank (List.replicate n 32) = 0 := by
  induction n with
  | zero => rfl
  | succ n ih =>
      rw [List.replicate_succ, rank, ih]
      rfl

theorem rank_full
    (n : Nat) :
    rank (List.replicate n 127) + 1 = 95 ^ n := by
  induction n with
  | zero => rfl
  | succ n ih =>
      have hDigit : digit 127 = 94 := rfl
      rw [List.replicate_succ, rank, hDigit, Nat.pow_succ,
        ← ih]
      ring

theorem rank_lt
    {s : List UInt8}
    (hCandidate : Candidate s) :
    rank s < 95 ^ s.length := by
  induction s with
  | nil => exact Nat.one_pos
  | cons c s ih =>
      have hHead := digit_lt
        (hCandidate c List.mem_cons_self)
      have hTail := ih fun d hd =>
        hCandidate d (List.mem_cons_of_mem _ hd)
      rw [rank, List.length_cons, Nat.pow_succ]
      omega

theorem rank_inj
    {s t : List UInt8}
    (hs : Candidate s)
    (ht : Candidate t)
    (hLength : s.length = t.length)
    (hRank : rank s = rank t) :
    s = t := by
  induction s generalizing t with
  | nil => exact (List.length_eq_zero_iff.mp hLength.symm).symm
  | cons c s ih =>
      cases t with
      | nil => cases hLength
      | cons d t =>
          have hc := hs c List.mem_cons_self
          have hd := ht d List.mem_cons_self
          have hcLt := digit_lt hc
          have hdLt := digit_lt hd
          rw [rank, rank] at hRank
          have hHead := digit_inj hc hd (by omega)
          have hTail := ih
            (fun e he => hs e (List.mem_cons_of_mem _ he))
            (fun e he => ht e (List.mem_cons_of_mem _ he))
            (Nat.succ.inj hLength) (by omega)
          rw [hHead, hTail]

----------
-- Turns of the Loop
----------

/- The inner loop stops behind the characters 127. -/
theorem skipFull_spec
    {sub : List UInt8}
    {i : Nat}
    (rest : List UInt8)
    (hSub : sub = List.replicate (i + 1) 127 ++ rest) :
    ∃ k tail, sub = List.replicate k 127 ++ tail ∧
      skipFull sub i = k ∧ tail.head? ≠ some 127 := by
  induction rest generalizing i with
  | nil =>
      refine ⟨i + 1, [], hSub, ?_, by simp⟩
      rw [skipFull, if_neg (by simp [hSub])]
  | cons c rest ih =>
      have hIn : i + 1 < sub.length := by
        rw [hSub, List.length_append, List.length_replicate,
          List.length_cons]
        omega
      have hAt : sub.getD (i + 1) 0 = c := by
        simp [hSub]
      by_cases hFull : c = 127
      · have hSub' : sub =
            List.replicate (i + 1 + 1) 127 ++ rest := by
          rw [hSub, hFull,
            List.replicate_succ' (n := i + 1),
            List.append_assoc]
          rfl
        obtain ⟨k, tail, hTail, hSkip, hHead⟩ := ih hSub'
        refine ⟨k, tail, hTail, ?_, hHead⟩
        rw [skipFull, if_pos hIn, hAt, if_pos hFull, hSkip]
      · refine ⟨i + 1, c :: rest, hSub, ?_, by simpa using
          hFull⟩
        rw [skipFull, if_pos hIn, hAt, if_neg hFull]

/- A candidate that is not the last has a next one. -/
theorem candidate_next
    {c : UInt8}
    {k : Nat}
    {cs : List UInt8}
    (hCandidate :
      Candidate (List.replicate k 127 ++ c :: cs))
    (hNot : c ≠ 127) :
    Candidate (List.replicate k 32 ++ bump c :: cs) ∧
      rank (List.replicate k 32 ++ bump c :: cs) =
        rank (List.replicate k 127 ++ c :: cs) + 1 := by
  have hc := hCandidate c (by simp)
  obtain ⟨hBump, hDigit⟩ := digit_bump hc hNot
  constructor
  · intro d hd
    rw [List.mem_append, List.mem_cons] at hd
    rcases hd with hd | rfl | hd
    · rw [List.eq_of_mem_replicate hd]
      unfold Printable
      decide
    · exact hBump
    · exact hCandidate d (by simp [hd])
  · have hFull := rank_full k
    rw [rank_append, rank_append, rank_spaces,
      List.length_replicate, List.length_replicate, rank,
      rank, hDigit]
    calc 0 + 95 ^ k * (digit c + 1 + 95 * rank cs)
        = 95 ^ k * (digit c + 95 * rank cs) + 95 ^ k := by
          ring
      _ = _ := by omega

/- A name with the same checksum, and another one. -/
def Collides
    (name s : List UInt8) : Prop :=
  nameHash s = nameHash name ∧ s ≠ name

/- What the loop gives for a name. -/
def Tried
    (name : List UInt8)
    (res : Option (Bool × List UInt8)) : Prop :=
  (∃ s, res = some (true, s) ∧ s.length = name.length ∧
    Collides name s) ∨
  (∃ s, res = some (false, s) ∧
    ∀ t, Candidate t → t.length = name.length →
      ¬ Collides name t)

/-
  The loop tests every candidate in its order.  The number of
  turns is what the last candidate's place leaves.
-/
theorem tryAll_spec
    {name sub : List UInt8}
    {fuel : Nat}
    (hName : name ≠ [])
    (hLength : sub.length = name.length)
    (hCandidate : Candidate sub)
    (hBelow :
      ∀ t, Candidate t → t.length = name.length →
        rank t < rank sub → ¬ Collides name t)
    (hFuel : 95 ^ name.length ≤ fuel + rank sub) :
    Tried name (tryAll name fuel sub) := by
  induction fuel generalizing sub with
  | zero =>
      have hLt := rank_lt hCandidate
      rw [hLength] at hLt
      omega
  | succ fuel ih =>
      unfold tryAll
      by_cases hHit : nameHash sub = nameHash name ∧ sub ≠ name
      · rw [if_pos hHit]
        exact Or.inl ⟨sub, rfl, hLength, hHit⟩
      rw [if_neg hHit]
      have hUpTo : ∀ t, Candidate t →
          t.length = name.length → rank t ≤ rank sub →
          ¬ Collides name t := by
        intro t ht htLength htRank
        rcases Nat.lt_or_eq_of_le htRank with hLt | hEq
        · exact hBelow t ht htLength hLt
        · rw [rank_inj ht hCandidate
            (htLength.trans hLength.symm) hEq]
          exact hHit
      -- the next candidate is what the characters 127 leave
      have hGo : ∀ k c cs,
          sub = List.replicate k 127 ++ c :: cs → c ≠ 127 →
          Tried name (tryAll name fuel
            (List.replicate k 32 ++ bump c :: cs)) := by
        intro k c cs hSub hNot
        rw [hSub] at hCandidate
        obtain ⟨hNext, hRank⟩ := candidate_next hCandidate hNot
        rw [← hSub] at hRank
        apply ih _ hNext _ (by omega)
        · rw [← hLength, hSub]
          simp
        · intro t ht htLength htRank
          exact hUpTo t ht htLength (by omega)
      cases hSub : sub with
      | nil =>
          rw [hSub] at hLength
          exact absurd (List.length_eq_zero_iff.mp
            hLength.symm) hName
      | cons c rest =>
          by_cases hFull : c = 127
          · rw [hFull] at hSub
            obtain ⟨k, tail, hTail, hSkip, hHead⟩ :=
              skipFull_spec rest
                (hSub.trans rfl : sub =
                  List.replicate (0 + 1) 127 ++ rest)
            simp only [hFull, if_true]
            rw [← hSub, hSkip]
            cases tail with
            | nil =>
                rw [if_pos (by simp [hTail])]
                refine Or.inr ⟨sub, rfl, ?_⟩
                intro t ht htLength
                apply hUpTo t ht htLength
                have hLast := rank_full k
                have hLt := rank_lt ht
                have hk : t.length = k := by
                  rw [htLength, ← hLength, hTail]
                  simp
                rw [List.append_nil] at hTail
                rw [hk] at hLt
                rw [hTail]
                omega
            | cons d cs =>
                rw [if_neg (by simp [hTail])]
                have hNot : d ≠ 127 := by
                  intro hEq
                  exact hHead (by simp [hEq])
                have hBuf : memset (sub.set k
                    (bump (sub.getD k 0))) 32 k =
                      List.replicate k 32 ++ bump d :: cs := by
                  simp [memset, hTail]
                rw [hBuf]
                exact hGo k d cs hTail hNot
          · simp only [if_neg hFull]
            exact hGo 0 c rest hSub hFull

end Image

end BtrfsProgs
