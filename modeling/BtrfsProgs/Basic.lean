import Mathlib
/-
  Outcomes of the modelled C functions.

  A call either returns a value, returns a negative errno, or
  stops the program: a failed `BUG_ON`, an `abort`, or an
  access outside the object it reads.

  Main declarations:
    * `Errno`
    * `Stop`
    * `ascii`
    * `u64Sub`
-/

----------
-- Outcomes
----------

namespace BtrfsProgs

/- The error codes the modelled functions return. -/
inductive Errno where
  | eperm
  | enoent
  | eio
  | eagain
  | enomem
  | eexist
  | einval
  | enospc
deriving Repr, DecidableEq

/- Why a call did not return a value. -/
inductive Stop where
  | err (code : Errno)
  | bug
deriving Repr, DecidableEq

/- The bytes of a text that has ASCII characters only. -/
def ascii
    (text : String) : List UInt8 :=
  text.toList.map fun c => UInt8.ofNat c.toNat

/- Subtraction of `u64` values. -/
def u64Sub
    (a b : Nat) : Nat :=
  (a + 2 ^ 64 - b) % 2 ^ 64

theorem page_pos : 0 < 4096 := by decide

theorem node_pos : 0 < 16384 := by decide

end BtrfsProgs
