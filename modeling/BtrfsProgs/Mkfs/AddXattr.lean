import Mathlib

/-
  `add_xattr_item`, from `mkfs.c`.

  With no delimiter `strtok` gives the string it is called for,
  or `NULL` when that is empty: the walk ends at the byte that
  follows the list.

  Main declarations:
    * `addXattrItem`
    * `Exact`
    * `addXattrItem_exact_iff`
-/

----------
-- The Function
----------

namespace BtrfsProgs

namespace Mkfs

/- A name or a value, in bytes. -/
abbrev Text : Type := List UInt8

/-
  The answers of `getxattr` and `btrfs_insert_xattr_item`, by
  the turn; an error is an `errno`.
-/
structure XattrEnv where
  getxattr : Nat → Text → Except Nat Text
  insert : Nat → Text → Text → Int

def ENOTSUP : Nat := 95

/-
  What a call did: the names it looked up, those it called the
  insertion for and those that went in, how far it read the
  list, and what it returns; `none` is a read behind the array.
-/
structure Did where
  looked : List Text
  tried : List Text
  inserted : List Text
  read : Nat
  ret : Option Int

/- The loop, for the bytes of the array from `next_location`. -/
def xattrLoop
    (env : XattrEnv)
    (turn next_location : Nat)
    (ret : Int)
    (bytes : List UInt8) : Did :=
  match bytes with
  | [] => ⟨[], [], [], next_location + 1, none⟩
  | b :: more =>
      let cur_name := bytes.takeWhile (· ≠ 0)
      let next := next_location + cur_name.length + 1
      if b = 0 then ⟨[], [], [], next, some ret⟩
      else if (bytes.dropWhile (· ≠ 0)) = [] then
        ⟨[], [], [], next, none⟩
      else
        match env.getxattr turn cur_name with
        | .error errno =>
            ⟨[cur_name], [], [], next,
              some (if errno = ENOTSUP then 0 else -1)⟩
        | .ok value =>
            let ret := env.insert turn cur_name value
            let later := xattrLoop env (turn + 1) next ret
              (more.drop cur_name.length)
            { later with
              looked := cur_name :: later.looked
              tried := cur_name :: later.tried
              inserted :=
                if ret = 0 then cur_name :: later.inserted
                else later.inserted
              read := max next later.read }
termination_by bytes.length

/-
  `add_xattr_item`, with the answer of `llistxattr` and the
  array behind that call.
-/
def addXattrItem
    (env : XattrEnv)
    (llistxattr : Except Nat Nat)
    (xattr_list : List UInt8) : Did :=
  match llistxattr with
  | .error errno =>
      ⟨[], [], [], 0, some (if errno = ENOTSUP then 0 else -1)⟩
  | .ok 0 => ⟨[], [], [], 0, some 0⟩
  | .ok (ret + 1) => xattrLoop env 0 0 (ret + 1) xattr_list

----------
-- Exact Imports
----------

/- The names of a list, each with its end. -/
def listed
    (names : List Text) : List UInt8 :=
  names.flatMap (· ++ [0])

/- The names that are to be looked up, to one that has no value. -/
def wanted
    (env : XattrEnv) : Nat → List Text → List Text
  | _, [] => []
  | turn, name :: names =>
      match env.getxattr turn name with
      | .error _ => [name]
      | .ok _ => name :: wanted env (turn + 1) names

/- The error of the first name that has no value. -/
def firstError
    (env : XattrEnv) : Nat → List Text → Option Nat
  | _, [] => none
  | turn, name :: names =>
      match env.getxattr turn name with
      | .error errno => some errno
      | .ok _ => firstError env (turn + 1) names

/- The names before it, which are to be inserted. -/
def valued
    (env : XattrEnv) : Nat → List Text → List Text
  | _, [] => []
  | turn, name :: names =>
      match env.getxattr turn name with
      | .error _ => []
      | .ok _ => name :: valued env (turn + 1) names

/-
  The names of the list are looked up and inserted, in order,
  up to one with no value; no byte behind the list is read, and
  0 is returned only if all are inserted.
-/
structure Exact
    (env : XattrEnv)
    (names : List Text)
    (did : Did) : Prop where
  ends : did.ret ≠ none
  looked : did.looked = wanted env 0 names
  tried : did.tried = valued env 0 names
  inside : did.read ≤ (listed names).length
  stored : did.ret = some 0 → did.inserted = names

section Walk

variable {env : XattrEnv} {names : List Text}

theorem xattrLoop_name
    {name : Text}
    (hName : name ≠ [] ∧ 0 ∉ name)
    (turn next_location : Nat)
    (ret : Int)
    (more : List UInt8) :
    xattrLoop env turn next_location ret (name ++ 0 :: more) =
      match env.getxattr turn name with
      | .error errno =>
          ⟨[name], [], [], next_location + name.length + 1,
            some (if errno = ENOTSUP then 0 else -1)⟩
      | .ok value =>
          let ret := env.insert turn name value
          let later := xattrLoop env (turn + 1)
            (next_location + name.length + 1) ret more
          { later with
            looked := name :: later.looked
            tried := name :: later.tried
            inserted :=
              if ret = 0 then name :: later.inserted
              else later.inserted
            read :=
              max (next_location + name.length + 1)
                later.read } := by
  have hAll : ∀ b ∈ name, decide (b ≠ 0) = true := by
    intro b hMem
    exact decide_eq_true fun hZero => hName.2 (hZero ▸ hMem)
  have hTake : (name ++ 0 :: more).takeWhile (· ≠ 0) = name := by
    rw [List.takeWhile_append_of_pos hAll]
    simp
  have hDrop : (name ++ 0 :: more).dropWhile (· ≠ 0) =
      0 :: more := by
    rw [List.dropWhile_append_of_pos hAll]
    rfl
  cases name with
  | nil => exact absurd rfl hName.1
  | cons b name =>
      have hByte : b ≠ 0 := of_decide_eq_true
        (hAll b List.mem_cons_self)
      have hMore : (name ++ 0 :: more).drop
          (b :: name).length = more := by
        simp
      rw [List.cons_append] at hTake hDrop ⊢
      rw [xattrLoop]
      dsimp only
      rw [hTake, hDrop, hMore, if_neg hByte,
        if_neg (List.cons_ne_nil _ _)]

theorem lt_read
    (env : XattrEnv)
    (turn next_location : Nat)
    (ret : Int)
    (bytes : List UInt8) :
    next_location <
      (xattrLoop env turn next_location ret bytes).read := by
  cases bytes with
  | nil =>
      rw [xattrLoop]
      exact Nat.lt_succ_self _
  | cons b more =>
      rw [xattrLoop]
      dsimp only
      split_ifs
      · dsimp only
        omega
      · dsimp only
        omega
      · cases env.getxattr turn _ with
        | error errno
        | ok value =>
            dsimp only
            omega

/- How far the walk of a list gets, and what it does. -/
theorem xattrLoop_names
    (hNames : ∀ name ∈ names, name ≠ [] ∧ 0 ∉ name)
    (turn next_location : Nat)
    (ret : Int)
    (more : List UInt8) :
    let did := xattrLoop env turn next_location ret
      (listed names ++ more)
    match firstError env turn names with
    | none => next_location + (listed names).length < did.read
    | some errno =>
        did.ret = some (if errno = ENOTSUP then 0 else -1) ∧
          did.looked = wanted env turn names ∧
            did.tried = valued env turn names ∧
              did.read ≤ next_location + (listed names).length ∧
                did.inserted.length < names.length := by
  induction names generalizing turn next_location ret with
  | nil =>
      exact lt_read env turn next_location ret more
  | cons name names ih =>
      have hName := hNames name List.mem_cons_self
      have hLater := ih fun other hMem =>
        hNames other (List.mem_cons_of_mem name hMem)
      have hText : listed (name :: names) ++ more =
          name ++ 0 :: (listed names ++ more) := by
        simp [listed]
      have hLength : (listed (name :: names)).length =
          name.length + 1 + (listed names).length := by
        rw [listed, List.flatMap_cons, List.length_append,
          List.length_append]
        rfl
      dsimp only
      rw [hText, xattrLoop_name hName, hLength]
      unfold firstError wanted valued
      cases hValue : env.getxattr turn name with
      | error errno =>
          dsimp only
          exact ⟨rfl, rfl, rfl, by omega, by simp⟩
      | ok value =>
          have hRest := hLater (turn + 1)
            (next_location + name.length + 1)
            (env.insert turn name value)
          dsimp only at hRest ⊢
          cases hFirst : firstError env (turn + 1) names with
          | none =>
              rw [hFirst] at hRest
              dsimp only at hRest ⊢
              omega
          | some errno =>
              rw [hFirst] at hRest
              rcases hRest with
                ⟨hRet, hLooked, hTried, hRead, hInserted⟩
              refine ⟨hRet, congrArg _ hLooked,
                congrArg _ hTried, by omega, ?_⟩
              split_ifs
              · simpa using hInserted
              · exact Nat.lt_succ_of_lt hInserted

end Walk

/-
  For a list of names in front of any other bytes, the import is
  exact just when the list is empty or a name before any that
  has no support is refused.
-/
theorem addXattrItem_exact_iff
    {env : XattrEnv}
    {names : List Text}
    (hNames : ∀ name ∈ names, name ≠ [] ∧ 0 ∉ name)
    (rest : List UInt8) :
    Exact env names
        (addXattrItem env (.ok (listed names).length)
          (listed names ++ rest)) ↔
      names = [] ∨ ∃ errno, errno ≠ ENOTSUP ∧
        firstError env 0 names = some errno := by
  cases names with
  | nil =>
      refine iff_of_true ⟨?_, rfl, rfl, le_rfl, fun _ => rfl⟩
        (.inl rfl)
      exact Option.some_ne_none 0
  | cons name names =>
      have hLength : ∃ ret,
          (listed (name :: names)).length = ret + 1 :=
        Nat.exists_eq_succ_of_ne_zero (by simp [listed])
      rcases hLength with ⟨ret, hLength⟩
      have hWalk := @xattrLoop_names env _ hNames 0 0 (ret + 1)
        rest
      have hRun : addXattrItem env
          (.ok (listed (name :: names)).length)
          (listed (name :: names) ++ rest) =
          xattrLoop env 0 0 (ret + 1)
            (listed (name :: names) ++ rest) := by
        rw [hLength]
        rfl
      rw [hRun]
      dsimp only at hWalk
      cases hFirst : firstError env 0 (name :: names) with
      | none =>
          rw [hFirst] at hWalk
          refine iff_of_false (fun hExact => ?_) (by simp)
          have hInside := hExact.inside
          dsimp only at hWalk
          omega
      | some errno =>
          rw [hFirst] at hWalk
          rcases hWalk with
            ⟨hRet, hLooked, hTried, hRead, hInserted⟩
          by_cases hSupport : errno = ENOTSUP
          · refine iff_of_false (fun hExact => ?_)
              (by simp [hSupport])
            rw [if_pos hSupport] at hRet
            rw [hExact.stored hRet] at hInserted
            exact lt_irrefl _ hInserted
          · refine iff_of_true ⟨?_, hLooked, hTried, by omega,
              fun hZero => ?_⟩ (.inr ⟨errno, hSupport, rfl⟩)
            · rw [hRet]
              exact Option.some_ne_none _
            · rw [hRet, if_neg hSupport] at hZero
              cases hZero

/- Every name has a value and goes in. -/
def oneName : XattrEnv where
  getxattr _ _ := .ok [49]
  insert _ _ _ := 0

theorem addXattrItem_exact_one :
    Exact oneName [[117]]
        (addXattrItem oneName (.ok (listed [[117]]).length)
          (listed [[117]] ++ [120, 0, 0])) ↔
      [[117]] = ([] : List Text) ∨ ∃ errno, errno ≠ ENOTSUP ∧
        firstError oneName 0 [[117]] = some errno :=
  addXattrItem_exact_iff (by decide) [120, 0, 0]

/- `x` is looked up too, and is no name of the list. -/
theorem addXattrItem_reads_on :
    ¬ Exact oneName [[117]]
      (addXattrItem oneName (.ok 2) [117, 0, 120, 0, 0]) := by
  intro hExact
  have hLooked := hExact.looked
  have hTwo : (addXattrItem oneName (.ok 2)
      [117, 0, 120, 0, 0]).looked = [[117], [120]] := by
    simp [addXattrItem, xattrLoop, oneName]
  rw [hTwo] at hLooked
  cases hLooked

end Mkfs

end BtrfsProgs
