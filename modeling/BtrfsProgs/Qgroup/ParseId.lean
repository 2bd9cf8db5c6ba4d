import BtrfsProgs.Basic
import BtrfsProgs.Lib.CText

/-
  Qgroup ids as text, from `qgroup.c`.

  Main declarations:
    * `parseQgroupid` and `qgroupidText`
    * `Spells` and `Exact`
    * `Regular`
    * `parseQgroupid_exact_iff`
-/

----------
-- Parsing and Printing
----------

namespace BtrfsProgs

namespace Qgroup

open CText Decimal

def slash : UInt8 := 47

/-
  `parse_qgroupid`; `none` is the exit. `strchr` and `strtoull`
  return pointers into the string, given as what they point to.
-/
def parseQgroupid
    (p : List UInt8) : Option Nat :=
  match p.dropWhile (· ≠ slash) with
  | [] =>
      let (id, parseEnd) := strtoull p
      if parseEnd ≠ [] then none else some id
  | s :: rest =>
      let (level, parseEnd) := strtoull p
      if parseEnd ≠ s :: rest then none
      else
        let (id, parseEnd) := strtoull rest
        if parseEnd ≠ [] then none
        else some ((level <<< 48) % 2 ^ 64 ||| id)

/- `"%llu/%llu"` for a qgroup id, as `print_qgroup_column`. -/
def qgroupidText
    (qgroupid : Nat) : List UInt8 :=
  text (qgroupid >>> 48) ++
    slash :: text ((2 ^ 48 - 1) &&& qgroupid)

/- A number in decimal digits. -/
def IsDecimal
    (s : List UInt8)
    (n : Nat) : Prop :=
  s ≠ [] ∧ (∀ b ∈ s, isDigit b = true) ∧ value s = n

/- The two forms of a qgroup id. -/
inductive Spells : List UInt8 → Nat → Prop where
  | id
      {s : List UInt8}
      {n : Nat}
      (hId : IsDecimal s n)
      (hLess : n < 2 ^ 64) : Spells s n
  | levelId
      {l i : List UInt8}
      {level n : Nat}
      (hLevel : IsDecimal l level)
      (hId : IsDecimal i n)
      (hLevelLess : level < 2 ^ 16)
      (hIdLess : n < 2 ^ 48) :
      Spells (l ++ slash :: i) (level * 2 ^ 48 + n)

/- No id is returned but the one that the string spells. -/
def Exact
    (s : List UInt8) : Prop :=
  ∀ qgroupid, parseQgroupid s = some qgroupid →
    Spells s qgroupid

/- What `strtoull` takes to its end. -/
def Taken
    (s : List UInt8) : Prop :=
  s = [] ∨ ∃ n, Reads s n

/- Digits of a number below a bound. -/
def Plain
    (bound : Nat)
    (s : List UInt8) : Prop :=
  ∃ n, IsDecimal s n ∧ n < bound

/-
  The parts of the string are plain, or `strtoull` stops within
  one of them.
-/
def Regular
    (s : List UInt8) : Prop :=
  (slash ∉ s → Taken s → Plain (2 ^ 64) s) ∧
    ∀ l i, s = l ++ slash :: i → slash ∉ l →
      Taken l → Taken i →
        Plain (2 ^ 16) l ∧ Plain (2 ^ 48) i

----------
-- The Parts of a String
----------

section Parts

variable {s l i : List UInt8} {n : Nat}

theorem taken_iff :
    Taken s ↔ (strtoull s).2 = [] := by
  unfold Taken
  by_cases hNil : s = []
  · subst hNil
    exact iff_of_true (.inl rfl) rfl
  · constructor
    · rintro (hIs | ⟨n, hReads⟩)
      · exact absurd hIs hNil
      · rw [(strtoull_end_iff hNil).mpr hReads]
    · intro hEnd
      exact .inr ⟨(strtoull s).1, (strtoull_end_iff hNil).mp
        (Prod.ext rfl hEnd)⟩

theorem IsDecimal.no_slash
    (hDecimal : IsDecimal s n) : slash ∉ s := by
  intro hIn
  have hDigit := hDecimal.2.1 slash hIn
  cases hDigit

/- Plain digits are what they stand for. -/
theorem strtoull_decimal
    (hDecimal : IsDecimal s n)
    (hLess : n < 2 ^ 64) :
    strtoull s = (n, []) := by
  rcases hDecimal with ⟨hSome, hDigits, rfl⟩
  exact (strtoull_end_iff hSome).mpr
    (reads_digits hSome hDigits hLess)

theorem strtoull_slash
    (l i : List UInt8) :
    strtoull (l ++ slash :: i) =
      ((strtoull l).1, (strtoull l).2 ++ slash :: i) :=
  strtoull_append (by decide) (by decide) (by decide)
    (by decide) l i

/- A string is one part, or two of them. -/
theorem parts_cases
    (s : List UInt8) :
    slash ∉ s ∨
      ∃ l i, s = l ++ slash :: i ∧ slash ∉ l := by
  by_cases hIn : slash ∈ s
  · rcases List.eq_append_cons_of_mem hIn with
      ⟨l, i, hParts, hNone⟩
    exact .inr ⟨l, i, hParts, hNone⟩
  · exact .inl hIn

theorem parts_unique
    {l' i' : List UInt8}
    (hSame : l ++ slash :: i = l' ++ slash :: i')
    (hNone : slash ∉ l)
    (hNone' : slash ∉ l') :
    l = l' ∧ i = i' := by
  induction l generalizing l' with
  | nil =>
      cases l' with
      | nil => exact ⟨rfl, (List.cons.inj hSame).2⟩
      | cons b l' =>
          exact absurd ((List.cons.inj hSame).1 ▸
            List.mem_cons_self) hNone'
  | cons b l ih =>
      cases l' with
      | nil =>
          exact absurd ((List.cons.inj hSame).1 ▸
            List.mem_cons_self) hNone
      | cons c l' =>
          rcases List.cons.inj hSame with ⟨rfl, hRest⟩
          rw [List.mem_cons, not_or] at hNone hNone'
          rcases ih hRest hNone.2 hNone'.2 with ⟨rfl, rfl⟩
          exact ⟨rfl, rfl⟩

theorem parseQgroupid_id
    (hNone : slash ∉ s) :
    parseQgroupid s =
      if (strtoull s).2 ≠ [] then none
      else some (strtoull s).1 := by
  have hDrop : s.dropWhile (· ≠ slash) = [] := by
    rw [List.dropWhile_eq_nil_iff]
    intro b hIn
    simp only [ne_eq, decide_not, Bool.not_eq_true',
      decide_eq_false_iff_not]
    exact fun hIs => hNone (hIs ▸ hIn)
  unfold parseQgroupid
  rw [hDrop]

theorem parseQgroupid_levelId
    (hNone : slash ∉ l) :
    parseQgroupid (l ++ slash :: i) =
      if (strtoull l).2 ≠ [] ∨ (strtoull i).2 ≠ [] then none
      else
        some (((strtoull l).1 <<< 48) % 2 ^ 64 |||
          (strtoull i).1) := by
  have hDrop : (l ++ slash :: i).dropWhile (· ≠ slash) =
      slash :: i := by
    rw [List.dropWhile_append_of_pos]
    · exact List.dropWhile_cons_of_neg (by simp)
    · intro b hIn
      simp only [ne_eq, decide_not, Bool.not_eq_true',
        decide_eq_false_iff_not]
      exact fun hIs => hNone (hIs ▸ hIn)
  unfold parseQgroupid
  rw [hDrop, strtoull_slash]
  dsimp only
  by_cases hEnd : (strtoull l).2 = []
  · rw [hEnd, List.nil_append, if_neg (not_not.mpr rfl)]
    by_cases hRest : (strtoull i).2 = []
    · simp [hRest]
    · simp [hRest]
  · have hMoved : (strtoull l).2 ++ slash :: i ≠
        slash :: i :=
      fun hSame => hEnd (List.append_left_eq_self.mp hSame)
    rw [if_pos hMoved, if_pos (.inl hEnd)]

/- A level and an id, put together. -/
theorem level_or_id
    {level : Nat}
    (hLevel : level < 2 ^ 16)
    (hId : n < 2 ^ 48) :
    (level <<< 48) % 2 ^ 64 ||| n = level * 2 ^ 48 + n := by
  rw [Nat.shiftLeft_eq, Nat.mod_eq_of_lt (by omega),
    ← Nat.shiftLeft_eq,
    ← Nat.shiftLeft_add_eq_or_of_lt hId, Nat.shiftLeft_eq]

/- What a string spells is what is parsed. -/
theorem Spells.parse
    (hSpells : Spells s n) :
    parseQgroupid s = some n := by
  cases hSpells with
  | id hId hLess =>
      rw [parseQgroupid_id hId.no_slash,
        strtoull_decimal hId hLess]
      rfl
  | levelId hLevel hId hLevelLess hIdLess =>
      rw [parseQgroupid_levelId hLevel.no_slash,
        strtoull_decimal hLevel (by omega),
        strtoull_decimal hId (by omega), if_neg (by simp),
        level_or_id hLevelLess hIdLess]

/- The printed form of an id spells it. -/
theorem spells_text
    {qgroupid : Nat}
    (hLess : qgroupid < 2 ^ 64) :
    Spells (qgroupidText qgroupid) qgroupid := by
  have hText : ∀ n, IsDecimal (text n) n := fun n =>
    ⟨text_ne_nil n, fun _ hIn => isDigit_of_mem_text hIn,
      value_text n⟩
  have hMask : (2 ^ 48 - 1) &&& qgroupid =
      qgroupid % 2 ^ 48 := by
    rw [Nat.and_comm, Nat.and_two_pow_sub_one_eq_mod]
  have hShift : qgroupid >>> 48 = qgroupid / 2 ^ 48 :=
    Nat.shiftRight_eq_div_pow qgroupid 48
  have hWhole : qgroupid >>> 48 * 2 ^ 48 +
      ((2 ^ 48 - 1) &&& qgroupid) = qgroupid := by
    rw [hMask, hShift]
    exact Nat.div_add_mod' qgroupid (2 ^ 48)
  have hSpells := Spells.levelId (hText (qgroupid >>> 48))
    (hText ((2 ^ 48 - 1) &&& qgroupid))
    (by rw [hShift]; omega) (by rw [hMask]; omega)
  rw [hWhole] at hSpells
  exact hSpells

end Parts

/-
  `parse_qgroupid` returns no other id than the one that is
  spelled exactly for the regular strings; the printed form of
  an id gives it back.
-/
theorem parseQgroupid_exact_iff
    (s : List UInt8) :
    (Exact s ↔ Regular s) ∧
      ∀ qgroupid, qgroupid < 2 ^ 64 →
        parseQgroupid (qgroupidText qgroupid) =
          some qgroupid := by
  refine ⟨?_, fun qgroupid hLess => (spells_text hLess).parse⟩
  constructor
  · intro hExact
    constructor
    · intro hNone hTaken
      have hParse : parseQgroupid s = some (strtoull s).1 := by
        rw [parseQgroupid_id hNone,
          if_neg (not_not.mpr (taken_iff.mp hTaken))]
      generalize (strtoull s).1 = n at hParse
      cases hExact n hParse with
      | id hId hLess => exact ⟨_, hId, hLess⟩
      | levelId hLevel hId hLevelLess hIdLess =>
          exact absurd (by simp) hNone
    · rintro l i rfl hNone hLevel hId
      have hParse : ∃ n,
          parseQgroupid (l ++ slash :: i) = some n := by
        rw [parseQgroupid_levelId hNone, if_neg]
        · exact ⟨_, rfl⟩
        · rw [not_or, not_not, not_not]
          exact ⟨taken_iff.mp hLevel, taken_iff.mp hId⟩
      rcases hParse with ⟨n, hParse⟩
      have hSpells := hExact n hParse
      generalize hWhole : l ++ slash :: i = whole at hSpells
      cases hSpells with
      | id hOne hLess =>
          refine absurd ?_ hOne.no_slash
          rw [← hWhole]
          simp
      | levelId hLevel' hId' hLevelLess hIdLess =>
          rcases parts_unique hWhole hNone hLevel'.no_slash
            with ⟨rfl, rfl⟩
          exact ⟨⟨_, hLevel', hLevelLess⟩, ⟨_, hId', hIdLess⟩⟩
  · rintro ⟨hOne, hTwo⟩ qgroupid hParse
    rcases parts_cases s with hNone | ⟨l, i, rfl, hNone⟩
    · have hTaken : Taken s := by
        rw [taken_iff]
        by_contra hEnd
        rw [parseQgroupid_id hNone, if_pos hEnd] at hParse
        cases hParse
      rcases hOne hNone hTaken with ⟨n, hDecimal, hLess⟩
      have hSpells := Spells.id hDecimal hLess
      rw [hSpells.parse] at hParse
      rwa [← Option.some.inj hParse]
    · have hTaken : Taken l ∧ Taken i := by
        rw [taken_iff, taken_iff]
        by_contra hEnd
        rw [not_and_or] at hEnd
        rw [parseQgroupid_levelId hNone, if_pos hEnd] at hParse
        cases hParse
      rcases hTwo l i rfl hNone hTaken.1 hTaken.2 with
        ⟨⟨level, hLevel, hLevelLess⟩, ⟨n, hId, hIdLess⟩⟩
      have hSpells :=
        Spells.levelId hLevel hId hLevelLess hIdLess
      rw [hSpells.parse] at hParse
      rwa [← Option.some.inj hParse]

/- An id of 49 bits addresses a qgroup of another level. -/
theorem parseQgroupid_aliases :
    parseQgroupid (ascii "0/281474976710657") =
        parseQgroupid (ascii "1/1") ∧
      ¬Exact (ascii "0/281474976710657") := by
  have hParse : parseQgroupid (ascii "0/281474976710657") =
      some (2 ^ 48 + 1) := by
    decide +kernel
  refine ⟨by decide +kernel, fun hExact => ?_⟩
  have hSpells := hExact _ hParse
  generalize hWhole : ascii "0/281474976710657" = whole
    at hSpells
  generalize hValue : 2 ^ 48 + 1 = n at hSpells
  cases hSpells with
  | id hId hLess =>
      refine absurd ?_ hId.no_slash
      rw [← hWhole]
      decide
  | levelId hLevel hId hLevelLess hIdLess =>
      have hParts : ascii "0" ++
          slash :: ascii "281474976710657" = _ := hWhole
      rcases parts_unique hParts (by decide) hLevel.no_slash
        with ⟨rfl, rfl⟩
      rw [← hId.2.2] at hIdLess
      exact absurd hIdLess (by decide +kernel)

end Qgroup

end BtrfsProgs
