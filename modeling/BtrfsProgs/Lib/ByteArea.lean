import Mathlib

/-
  An area of bytes, with runs of it loaded and stored.

  Main declarations:
    * `ByteArea.load` and `ByteArea.store`
    * `ByteArea.load_congr`
    * `ByteArea.load_store`
-/

----------
-- Runs of an Area
----------

namespace ByteArea

/- The bytes of an area, by address. -/
def Area : Type :=
  Nat → UInt8

/- The run of `n` bytes from `p` on. -/
def load
    (a : Area)
    (p n : Nat) : List UInt8 :=
  (List.range n).map fun i => a (p + i)

/- Put a run of bytes at `p`. -/
def store
    (a : Area)
    (p : Nat)
    (bytes : List UInt8) : Area :=
  fun q => if p ≤ q then bytes.getD (q - p) (a q) else a q

----------
-- Single Bytes
----------

theorem store_outside
    {a : Area}
    {p q : Nat}
    {bytes : List UInt8}
    (hOut : q < p ∨ p + bytes.length ≤ q) :
    store a p bytes q = a q := by
  unfold store
  split
  case isTrue hLe =>
    apply List.getD_eq_default
    omega
  case isFalse => rfl

----------
-- Loads
----------

@[simp]
theorem length_load
    (a : Area)
    (p n : Nat) :
    (load a p n).length = n := by
  simp [load]

/- Runs with the same bytes are loaded alike. -/
theorem load_congr
    {a a' : Area}
    {p p' n : Nat}
    (hEq : ∀ i < n, a' (p' + i) = a (p + i)) :
    load a' p' n = load a p n := by
  apply List.map_congr_left
  intro i hi
  exact hEq i (List.mem_range.mp hi)

theorem load_add
    (a : Area)
    (p m n : Nat) :
    load a p (m + n) =
      load a p m ++ load a (p + m) n := by
  simp [load, List.range_add, Nat.add_assoc,
    Function.comp_def]

theorem take_load
    (a : Area)
    (p : Nat)
    {m n : Nat}
    (hLe : m ≤ n) :
    (load a p n).take m = load a p m := by
  obtain ⟨k, rfl⟩ := Nat.exists_eq_add_of_le hLe
  rw [load_add]
  apply List.take_left'
  exact length_load a p m

theorem getElem?_load
    (a : Area)
    (p : Nat)
    {i n : Nat}
    (hi : i < n) :
    (load a p n)[i]? = some (a (p + i)) := by
  simp [load, hi]

/- What was stored is loaded. -/
theorem load_store
    (a : Area)
    (p : Nat)
    (bytes : List UInt8) :
    load (store a p bytes) p bytes.length = bytes := by
  apply List.ext_getElem
  · exact length_load _ _ _
  · intro i hLeft hRight
    simp [load, store, hRight]

/- A store that does not reach the run. -/
theorem load_store_of_disjoint
    {a : Area}
    {p q n : Nat}
    {bytes : List UInt8}
    (hOut : q + n ≤ p ∨ p + bytes.length ≤ q) :
    load (store a p bytes) q n = load a q n := by
  apply load_congr
  intro i hi
  apply store_outside
  omega

end ByteArea
