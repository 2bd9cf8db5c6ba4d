import Mathlib

/-
  Keys of items, from `ctree.h` and `ctree.c`.

  Main declarations:
    * `Key`
    * `Key.lt_iff`
-/

----------
-- Keys
----------

namespace BtrfsProgs

/- `struct btrfs_key`. -/
@[ext]
structure Key where
  objectid : Nat
  type : Nat
  offset : Nat
deriving Repr, DecidableEq

/- The fields in the order in which keys are compared. -/
def Key.fields
    (k : Key) : Nat ×ₗ Nat ×ₗ Nat :=
  toLex (k.objectid, toLex (k.type, k.offset))

theorem Key.fields_injective :
    Function.Injective Key.fields := by
  intro a b hEq
  have hPair := congrArg ofLex hEq
  have hRest :=
    congrArg ofLex (congrArg Prod.snd hPair)
  exact Key.ext (congrArg Prod.fst hPair)
    (congrArg Prod.fst hRest) (congrArg Prod.snd hRest)

/- `btrfs_comp_cpu_keys`. -/
instance : LinearOrder Key :=
  LinearOrder.lift' Key.fields Key.fields_injective

theorem Key.lt_iff
    {a b : Key} :
    a < b ↔
      a.objectid < b.objectid ∨
        a.objectid = b.objectid ∧
          (a.type < b.type ∨
            a.type = b.type ∧ a.offset < b.offset) := by
  have hDef : a < b ↔ a.fields < b.fields := Iff.rfl
  rw [hDef, Key.fields, Key.fields, Prod.Lex.toLex_lt_toLex,
    Prod.Lex.toLex_lt_toLex]

theorem Key.le_iff
    {a b : Key} :
    a ≤ b ↔
      a.objectid < b.objectid ∨
        a.objectid = b.objectid ∧
          (a.type < b.type ∨
            a.type = b.type ∧ a.offset ≤ b.offset) := by
  have hDef : a ≤ b ↔ a.fields ≤ b.fields := Iff.rfl
  rw [hDef, Key.fields, Key.fields, Prod.Lex.toLex_le_toLex,
    Prod.Lex.toLex_le_toLex]

end BtrfsProgs
