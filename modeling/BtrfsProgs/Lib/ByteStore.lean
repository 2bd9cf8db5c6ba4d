import Mathlib

/-
  Devices as stores of cells, read and written in runs.

  Main declarations:
    * `ByteStore.read`, `ByteStore.write`
    * `ByteStore.writeAll_eq`
-/

----------
-- Reading and Writing Runs
----------

namespace ByteStore

variable {β : Type}

/- The cells of every device, by device and address. -/
def Store (β : Type) : Type :=
  Nat → Nat → β

/- The run of `len` cells of a device from `addr` on. -/
def read
    (store : Store β)
    (dev addr len : Nat) : List β :=
  (List.range len).map fun i => store dev (addr + i)

/- A run of values for the cells of a device. -/
structure Run (β : Type) where
  dev : Nat
  addr : Nat
  data : List β
deriving Repr, DecidableEq

/- The run has a value for the cell. -/
def Run.Covers
    (run : Run β)
    (dev addr : Nat) : Prop :=
  run.dev = dev ∧ run.addr ≤ addr ∧
    addr < run.addr + run.data.length

/- Store a run. -/
def write
    (store : Store β)
    (run : Run β) : Store β :=
  fun dev addr =>
    if run.dev = dev ∧ run.addr ≤ addr then
      run.data.getD (addr - run.addr) (store dev addr)
    else
      store dev addr

/- Store several runs, one after another. -/
def writeAll
    (store : Store β)
    (runs : List (Run β)) : Store β :=
  runs.foldl write store

variable {store : Store β}
variable {dev addr : Nat}

theorem write_of_covers
    {run : Run β}
    (hCovers : run.Covers dev addr) :
    some (write store run dev addr) =
      run.data[addr - run.addr]? := by
  rcases hCovers with ⟨hDev, hLow, hHigh⟩
  have hIndex : addr - run.addr < run.data.length := by
    omega
  unfold write
  rw [if_pos ⟨hDev, hLow⟩, List.getD_eq_getElem _ _ hIndex,
    List.getElem?_eq_getElem hIndex]

theorem write_of_not_covers
    {run : Run β}
    (hOutside : ¬ run.Covers dev addr) :
    write store run dev addr = store dev addr := by
  unfold write
  split
  case isTrue hReach =>
    apply List.getD_eq_default
    by_contra hShort
    exact hOutside ⟨hReach.1, hReach.2, by omega⟩
  case isFalse => rfl

/-
  A cell for which every covering run has the same value gets
  that value, or had it already.
-/
theorem writeAll_eq
    {runs : List (Run β)}
    {value : β}
    (hAgree :
      ∀ run ∈ runs, run.Covers dev addr →
        run.data[addr - run.addr]? = some value)
    (hSome :
      (∃ run ∈ runs, run.Covers dev addr) ∨
        store dev addr = value) :
    writeAll store runs dev addr = value := by
  induction runs generalizing store with
  | nil =>
      rcases hSome with ⟨run, hMem, _⟩ | hSome
      · cases hMem
      · exact hSome
  | cons run rest ih =>
      have hRest : ∀ r ∈ rest, r.Covers dev addr →
          r.data[addr - r.addr]? = some value := by
        intro r hr
        exact hAgree r (List.mem_cons_of_mem _ hr)
      apply ih hRest
      by_cases hCovers : run.Covers dev addr
      · right
        have hValue := hAgree run List.mem_cons_self hCovers
        rw [← write_of_covers hCovers] at hValue
        exact Option.some.inj hValue
      · rcases hSome with ⟨r, hMem, hr⟩ | hSome
        · rcases List.mem_cons.mp hMem with rfl | hMem
          · exact absurd hr hCovers
          · exact Or.inl ⟨r, hMem, hr⟩
        · right
          rw [write_of_not_covers hCovers]
          exact hSome

theorem writeAll_of_not_covers
    {runs : List (Run β)}
    (hOutside : ∀ run ∈ runs, ¬ run.Covers dev addr) :
    writeAll store runs dev addr = store dev addr := by
  apply writeAll_eq
  · intro run hRun hCovers
    exact absurd hCovers (hOutside run hRun)
  · exact Or.inr rfl

theorem read_length
    (store : Store β)
    (dev addr len : Nat) :
    (read store dev addr len).length = len := by
  simp [read]

theorem read_get
    (store : Store β)
    (dev addr : Nat)
    {len i : Nat}
    (hi : i < len) :
    (read store dev addr len)[i]? =
      some (store dev (addr + i)) := by
  simp [read, hi]

end ByteStore
