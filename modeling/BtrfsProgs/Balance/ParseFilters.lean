import BtrfsProgs.Lib.CText

/-
  `parse_filters`, from `cmds-balance.c`.

  Main declarations:
    * `parseFilters`
    * `Filters`, for the grammar and for what is accepted
    * `parseFilters_exact_iff`
-/

----------
-- Profiles, Numbers and Ranges
----------

namespace BtrfsProgs

namespace Balance

/- A string, in the bytes in front of its end. -/
abbrev Text : Type := List UInt8

/- The names of `parse_one_profile`, with their bits. -/
def profileNames : List (Text × Nat) :=
  [([114, 97, 105, 100, 48], 1 <<< 3),
    ([114, 97, 105, 100, 49], 1 <<< 4),
    ([114, 97, 105, 100, 49, 48], 1 <<< 6),
    ([114, 97, 105, 100, 53], 1 <<< 7),
    ([114, 97, 105, 100, 54], 1 <<< 8),
    ([100, 117, 112], 1 <<< 5),
    ([115, 105, 110, 103, 108, 101], 1 <<< 48)]

/- `parse_one_profile`; here and below `none` is a failure. -/
def parseOneProfile
    (flags : Nat)
    (profile : Text) : Option Nat :=
  (profileNames.find? fun named => named.1 = profile).map
    fun named => flags ||| named.2

/- `parse_profiles`. -/
def parseProfiles
    (profiles : Text)
    (flags : Nat) : Option Nat :=
  (CText.strtok 124 profiles).foldlM parseOneProfile flags

/- `parse_u64`. -/
def parseU64
    (str : Text) : Option Nat :=
  let (val, endptr) := CText.strtoull str
  if endptr ≠ [] then none else some val

/- What is in front of the first `..`, and what is behind. -/
def strstrDots : Text → Option (Text × Text)
  | [] => none
  | b :: s =>
      if b = 46 ∧ s.head? = some 46 then some ([], s.tail)
      else (strstrDots s).map fun (range, rest) => (b :: range, rest)

/- One end of a range, or what it is when there is no text. -/
def parseEnd
    (default : Nat)
    (str : Text) : Option Nat :=
  if str = [] then some default else parseU64 str

/- `parse_range`. -/
def parseRange
    (range : Text) : Option (Nat × Nat) :=
  match strstrDots range with
  | none => none
  | some (range, rest) =>
      match parseEnd (2 ^ 64 - 1) rest, parseEnd 0 range with
      | some last, some start =>
          if last ≤ start then none
          else if rest = [] ∧ range = [] then none
          else some (start, last)
      | _, _ => none

----------
-- The Filters
----------

/- `struct btrfs_balance_args`. -/
structure BalanceArgs : Type where
  profiles : Nat
  usage : Nat
  devid : Nat
  pstart : Nat
  pend : Nat
  vstart : Nat
  vend : Nat
  target : Nat
  flags : Nat
deriving Repr, DecidableEq

/- The filters that require an argument. -/
inductive Filter where
  | profiles
  | usage
  | devid
  | drange
  | vrange
  | convert

def Filter.name : Filter → Text
  | .profiles => [112, 114, 111, 102, 105, 108, 101, 115]
  | .usage => [117, 115, 97, 103, 101]
  | .devid => [100, 101, 118, 105, 100]
  | .drange => [100, 114, 97, 110, 103, 101]
  | .vrange => [118, 114, 97, 110, 103, 101]
  | .convert => [99, 111, 110, 118, 101, 114, 116]

def allFilters : List Filter :=
  [.profiles, .usage, .devid, .drange, .vrange, .convert]

def softName : Text := [115, 111, 102, 116]

/- What an item of the list says. -/
inductive Change where
  | profiles (bits : List Nat)
  | usage (n : Nat)
  | devid (n : Nat)
  | drange (start last : Nat)
  | vrange (start last : Nat)
  | convert (bit : Nat)
  | soft

/- The arguments with a change, and its bit in `flags`. -/
def Change.apply
    (args : BalanceArgs) : Change → BalanceArgs
  | .profiles bits =>
      { args with
        profiles := bits.foldl (· ||| ·) args.profiles
        flags := args.flags ||| 1 <<< 0 }
  | .usage n =>
      { args with usage := n, flags := args.flags ||| 1 <<< 1 }
  | .devid n =>
      { args with devid := n, flags := args.flags ||| 1 <<< 2 }
  | .drange start last =>
      { args with
        pstart := start
        pend := last
        flags := args.flags ||| 1 <<< 3 }
  | .vrange start last =>
      { args with
        vstart := start
        vend := last
        flags := args.flags ||| 1 <<< 4 }
  | .convert bit =>
      { args with
        target := args.target ||| bit
        flags := args.flags ||| 1 <<< 8 }
  | .soft => { args with flags := args.flags ||| 1 <<< 9 }

/- The branch of a filter whose argument is not empty. -/
def parseArgument
    (args : BalanceArgs)
    (value : Text) : Filter → Option BalanceArgs
  | .profiles =>
      (parseProfiles value args.profiles).map fun profiles =>
        { args with
          profiles := profiles
          flags := args.flags ||| 1 <<< 0 }
  | .usage =>
      match parseU64 value with
      | none => none
      | some usage =>
          if usage > 100 then none
          else
            some
              { args with
                usage := usage
                flags := args.flags ||| 1 <<< 1 }
  | .devid =>
      match parseU64 value with
      | none => none
      | some devid =>
          if devid = 0 then none
          else
            some
              { args with
                devid := devid
                flags := args.flags ||| 1 <<< 2 }
  | .drange =>
      (parseRange value).map fun (start, last) =>
        { args with
          pstart := start
          pend := last
          flags := args.flags ||| 1 <<< 3 }
  | .vrange =>
      (parseRange value).map fun (start, last) =>
        { args with
          vstart := start
          vend := last
          flags := args.flags ||| 1 <<< 4 }
  | .convert =>
      (parseOneProfile args.target value).map fun target =>
        { args with
          target := target
          flags := args.flags ||| 1 <<< 8 }

/- One turn of the loop. -/
def parseItem
    (args : BalanceArgs)
    (this_char : Text) : Option BalanceArgs :=
  let name := this_char.takeWhile (· ≠ 61)
  let value := (this_char.dropWhile (· ≠ 61)).tail
  match allFilters.find? fun filter => filter.name = name with
  | some filter =>
      if value = [] then none else parseArgument args value filter
  | none =>
      if name = softName then
        some { args with flags := args.flags ||| 1 <<< 9 }
      else none

/- `parse_filters`. -/
def parseFilters
    (filters : Option Text)
    (args : BalanceArgs) : Option BalanceArgs :=
  match filters with
  | none => some args
  | some filters => (CText.strtok 44 filters).foldlM parseItem args

----------
-- The Grammar
----------

/- The parts of a list; a loose one has empty parts as well. -/
def parts
    (loose : Bool)
    (delimiter : UInt8)
    (s : Text) : List Text :=
  if loose ∨ s = [] then CText.strtok delimiter s
  else s.splitOn delimiter

/- Decimal digits below 2^64, or loosely what `strtoull` takes. -/
def Number : Bool → Text → Nat → Prop
  | true, s, n => CText.Reads s n
  | false, s, n => s ≠ [] ∧
      (∀ b ∈ s, Decimal.isDigit b = true) ∧
        n = Decimal.value s ∧ n < 2 ^ 64

/- An end of a range, which may be left out. -/
def End
    (loose : Bool)
    (default : Nat)
    (s : Text)
    (n : Nat) : Prop :=
  s = [] ∧ n = default ∨ Number loose s n

/- `first..rest`, with one of both at least. -/
def Range
    (loose : Bool)
    (s : Text)
    (start last : Nat) : Prop :=
  ∃ first rest, s = first ++ 46 :: 46 :: rest ∧
    ¬ (rest = [] ∧ first = []) ∧ End loose 0 first start ∧
      End loose (2 ^ 64 - 1) rest last ∧ start < last

def OneProfile
    (s : Text)
    (bit : Nat) : Prop :=
  (s, bit) ∈ profileNames

/- The text of an argument and what it sets. -/
inductive Argument (loose : Bool) :
    Filter → Text → Change → Prop
  | profiles {s : Text} {bits : List Nat} :
      List.Forall₂ OneProfile (parts loose 124 s) bits →
        Argument loose .profiles s (.profiles bits)
  | usage {s : Text} {n : Nat} :
      Number loose s n → n ≤ 100 →
        Argument loose .usage s (.usage n)
  | devid {s : Text} {n : Nat} :
      Number loose s n → 0 < n →
        Argument loose .devid s (.devid n)
  | drange {s : Text} {start last : Nat} :
      Range loose s start last →
        Argument loose .drange s (.drange start last)
  | vrange {s : Text} {start last : Nat} :
      Range loose s start last →
        Argument loose .vrange s (.vrange start last)
  | convert {s : Text} {bit : Nat} :
      OneProfile s bit → Argument loose .convert s (.convert bit)

/- An item; loosely `soft` has an argument too, of any text. -/
inductive Item (loose : Bool) : Text → Change → Prop
  | argument {filter : Filter} {s : Text} {change : Change} :
      s ≠ [] → Argument loose filter s change →
        Item loose (filter.name ++ 61 :: s) change
  | soft {s : Text} :
      s = [] ∨ loose = true ∧ s.head? = some 61 →
        Item loose (softName ++ s) .soft

/- A list of items in the grammar, or in the loose one. -/
def Filters
    (loose : Bool)
    (s : Text)
    (changes : List Change) : Prop :=
  List.Forall₂ (Item loose) (parts loose 44 s) changes

/-
  Just the lists of the grammar are accepted, and then every
  field holds what is written, with its bits in `flags`.
-/
def Exact
    (s : Text) : Prop :=
  ∀ args,
    (∀ changes, Filters false s changes →
      parseFilters (some s) args =
        some (changes.foldl Change.apply args)) ∧
      ((¬ ∃ changes, Filters false s changes) →
        parseFilters (some s) args = none)

----------
-- What Is Accepted
----------

/- A run of turns that each take a change. -/
theorem foldlM_iff
    {σ τ γ : Type}
    {turn : σ → τ → Option σ}
    {take : σ → γ → σ}
    {Takes : τ → γ → Prop}
    (hTurn : ∀ a t b, turn a t = some b ↔
      ∃ change, Takes t change ∧ b = take a change)
    {ts : List τ}
    {a b : σ} :
    ts.foldlM turn a = some b ↔ ∃ changes,
      List.Forall₂ Takes ts changes ∧ b = changes.foldl take a := by
  induction ts generalizing a with
  | nil =>
      constructor
      · intro hSome
        exact ⟨[], .nil, (Option.some.inj hSome).symm⟩
      · intro hRun
        rcases hRun with ⟨changes, hAll, rfl⟩
        cases hAll
        rfl
  | cons t ts ih =>
      rw [List.foldlM_cons]
      constructor
      · intro hSome
        rcases Option.bind_eq_some_iff.mp hSome with
          ⟨next, hNext, hRest⟩
        rcases (hTurn a t next).mp hNext with
          ⟨change, hTakes, rfl⟩
        rcases ih.mp hRest with ⟨changes, hAll, hEnd⟩
        exact ⟨change :: changes, .cons hTakes hAll, hEnd⟩
      · intro hRun
        rcases hRun with ⟨changes, hAll, hEnd⟩
        cases hAll with
        | cons hTakes hAll =>
            exact Option.bind_eq_some_iff.mpr
              ⟨_, (hTurn a t _).mpr ⟨_, hTakes, rfl⟩,
                ih.mpr ⟨_, hAll, hEnd⟩⟩

section Accepted

variable {s : Text}

theorem parseOneProfile_iff
    (flags : Nat)
    (s : Text)
    (out : Nat) :
    parseOneProfile flags s = some out ↔
      ∃ bit, OneProfile s bit ∧ out = flags ||| bit := by
  unfold parseOneProfile
  rw [Option.map_eq_some_iff]
  constructor
  · intro hFound
    rcases hFound with ⟨named, hNamed, hOut⟩
    refine ⟨named.2, ?_, hOut.symm⟩
    have hName := List.find?_some hNamed
    rw [decide_eq_true_eq] at hName
    rw [← hName]
    exact List.mem_of_find?_eq_some hNamed
  · intro hProfile
    rcases hProfile with ⟨bit, hMem, hOut⟩
    have hFirst : ∀ named ∈ profileNames,
        profileNames.find? (fun other => other.1 = named.1) =
          some named := by
      decide
    exact ⟨(s, bit), hFirst _ hMem, hOut.symm⟩

theorem parseU64_iff
    {n : Nat}
    (hSome : s ≠ []) :
    parseU64 s = some n ↔ CText.Reads s n := by
  rw [← CText.strtoull_end_iff hSome]
  unfold parseU64
  cases CText.strtoull s with
  | mk val endptr =>
      by_cases hEnd : endptr = []
      · simp [hEnd]
      · simp [hEnd]

theorem parseEnd_iff
    {default n : Nat} :
    parseEnd default s = some n ↔ End true default s n := by
  unfold parseEnd End
  by_cases hNone : s = []
  · have hNot : ¬ CText.Reads s n := by
      intro hReads
      rcases hReads with ⟨blanks, signed, digits, negative, hText,
        _, hSign, hDigits, _⟩
      rw [hNone] at hText
      rw [(List.append_eq_nil_iff.mp hText.symm).2] at hSign
      exact hDigits (congrArg Prod.snd hSign).symm
    simp [hNone, Number, hNone ▸ hNot, eq_comm]
  · rw [if_neg hNone, parseU64_iff hNone]
    simp [hNone, Number]

theorem strstrDots_parts
    {first rest : Text}
    (hFound : strstrDots s = some (first, rest)) :
    s = first ++ 46 :: 46 :: rest := by
  induction s generalizing first with
  | nil => cases hFound
  | cons b s ih =>
      unfold strstrDots at hFound
      by_cases hDots : b = 46 ∧ s.head? = some 46
      · rw [if_pos hDots] at hFound
        cases hFound
        rcases List.head?_eq_some_iff.mp hDots.2 with ⟨t, rfl⟩
        rw [hDots.1]
        rfl
      · rw [if_neg hDots] at hFound
        rcases Option.map_eq_some_iff.mp hFound with
          ⟨⟨range, rest'⟩, hRest, hPair⟩
        cases hPair
        rw [ih hRest]
        rfl

theorem strstrDots_first
    {first : Text}
    (rest : Text)
    (hFirst : 46 ∉ first) :
    strstrDots (first ++ 46 :: 46 :: rest) =
      some (first, rest) := by
  induction first with
  | nil => rfl
  | cons b first ih =>
      rcases not_or.mp (List.mem_cons.not.mp hFirst) with
        ⟨hByte, hBehind⟩
      rw [List.cons_append, strstrDots,
        if_neg fun hDots => hByte hDots.1.symm, ih hBehind]
      rfl

theorem not_dot_of_end
    {default n : Nat}
    (hEnd : End true default s n) :
    46 ∉ s := by
  rcases hEnd with ⟨rfl, _⟩ | hReads
  · exact List.not_mem_nil
  rcases hReads with ⟨blanks, signed, digits, negative, rfl,
    hBlanks, hSign, _, hDigits, _⟩
  have hNotDigit : 46 ∉ digits := fun hMem =>
    absurd (hDigits 46 hMem) (by decide)
  intro hMem
  rcases List.mem_append.mp hMem with hBlank | hSigned
  · exact absurd (hBlanks 46 hBlank) (by decide)
  unfold CText.sign at hSign
  split at hSign <;> cases hSign <;>
    simp_all

theorem parseRange_iff
    {start last : Nat} :
    parseRange s = some (start, last) ↔
      Range true s start last := by
  constructor
  · intro hParse
    unfold parseRange at hParse
    cases hDots : strstrDots s with
    | none =>
        rw [hDots] at hParse
        cases hParse
    | some parts =>
        rcases parts with ⟨first, rest⟩
        rw [hDots] at hParse
        dsimp only at hParse
        cases hLast : parseEnd (2 ^ 64 - 1) rest with
        | none =>
            rw [hLast] at hParse
            cases hParse
        | some last' =>
            cases hStart : parseEnd 0 first with
            | none =>
                rw [hLast, hStart] at hParse
                cases hParse
            | some start' =>
                rw [hLast, hStart] at hParse
                dsimp only at hParse
                split_ifs at hParse with hOrder hBoth
                cases hParse
                exact ⟨first, rest, strstrDots_parts hDots,
                  hBoth, parseEnd_iff.mp hStart,
                  parseEnd_iff.mp hLast,
                  Nat.not_le.mp hOrder⟩
  · intro hRange
    rcases hRange with
      ⟨first, rest, rfl, hBoth, hStart, hLast, hOrder⟩
    unfold parseRange
    rw [strstrDots_first rest (not_dot_of_end hStart)]
    dsimp only
    rw [parseEnd_iff.mpr hLast, parseEnd_iff.mpr hStart]
    dsimp only
    rw [if_neg (Nat.not_le.mpr hOrder), if_neg hBoth]

theorem parseArgument_iff
    {filter : Filter}
    {args out : BalanceArgs}
    (hSome : s ≠ []) :
    parseArgument args s filter = some out ↔ ∃ change,
      Argument true filter s change ∧
        out = Change.apply args change := by
  constructor
  · intro hParse
    cases filter with
    | profiles =>
        rcases Option.map_eq_some_iff.mp hParse with
          ⟨flags, hFlags, rfl⟩
        rcases (foldlM_iff parseOneProfile_iff).mp hFlags with
          ⟨bits, hBits, rfl⟩
        exact ⟨_, .profiles hBits, rfl⟩
    | usage =>
        unfold parseArgument at hParse
        cases hRead : parseU64 s with
        | none =>
            rw [hRead] at hParse
            cases hParse
        | some n =>
            rw [hRead] at hParse
            dsimp only at hParse
            split_ifs at hParse with hBig
            cases hParse
            exact ⟨_, .usage ((parseU64_iff hSome).mp hRead)
              (Nat.not_lt.mp hBig), rfl⟩
    | devid =>
        unfold parseArgument at hParse
        cases hRead : parseU64 s with
        | none =>
            rw [hRead] at hParse
            cases hParse
        | some n =>
            rw [hRead] at hParse
            dsimp only at hParse
            split_ifs at hParse with hZero
            cases hParse
            exact ⟨_, .devid ((parseU64_iff hSome).mp hRead)
              (Nat.pos_of_ne_zero hZero), rfl⟩
    | drange =>
        rcases Option.map_eq_some_iff.mp hParse with
          ⟨⟨start, last⟩, hRange, rfl⟩
        exact ⟨_, .drange (parseRange_iff.mp hRange), rfl⟩
    | vrange =>
        rcases Option.map_eq_some_iff.mp hParse with
          ⟨⟨start, last⟩, hRange, rfl⟩
        exact ⟨_, .vrange (parseRange_iff.mp hRange), rfl⟩
    | convert =>
        rcases Option.map_eq_some_iff.mp hParse with
          ⟨target, hTarget, rfl⟩
        rcases (parseOneProfile_iff _ _ _).mp hTarget with
          ⟨bit, hBit, rfl⟩
        exact ⟨_, .convert hBit, rfl⟩
  · intro hChange
    rcases hChange with ⟨change, hArgument, rfl⟩
    unfold parseArgument
    cases hArgument with
    | profiles hBits =>
        have hFlags := (foldlM_iff parseOneProfile_iff
          (a := args.profiles)).mpr ⟨_, hBits, rfl⟩
        exact Option.map_eq_some_iff.mpr ⟨_, hFlags, rfl⟩
    | usage hNumber hBelow =>
        dsimp only
        rw [(parseU64_iff hSome).mpr hNumber]
        exact if_neg (Nat.not_lt.mpr hBelow)
    | devid hNumber hPos =>
        dsimp only
        rw [(parseU64_iff hSome).mpr hNumber]
        exact if_neg hPos.ne'
    | drange hRange
    | vrange hRange =>
        dsimp only
        rw [parseRange_iff.mpr hRange]
        rfl
    | convert hBit =>
        dsimp only
        rw [(parseOneProfile_iff _ _ _).mpr ⟨_, hBit, rfl⟩]
        rfl

theorem name_parts
    {name rest : Text}
    (hName : 61 ∉ name)
    (hRest : rest = [] ∨ rest.head? = some 61) :
    (name ++ rest).takeWhile (· ≠ 61) = name ∧
      (name ++ rest).dropWhile (· ≠ 61) = rest := by
  have hAll : ∀ b ∈ name, decide (b ≠ 61) = true := by
    intro b hMem
    exact decide_eq_true fun hByte => hName (hByte ▸ hMem)
  have hStop : rest.takeWhile (· ≠ 61) = [] ∧
      rest.dropWhile (· ≠ 61) = rest := by
    rcases hRest with rfl | hHead
    · exact ⟨rfl, rfl⟩
    · rcases List.head?_eq_some_iff.mp hHead with ⟨t, rfl⟩
      exact ⟨rfl, rfl⟩
  rw [List.takeWhile_append_of_pos hAll,
    List.dropWhile_append_of_pos hAll, hStop.1, hStop.2,
    List.append_nil]
  exact ⟨rfl, rfl⟩

theorem parts_of_name
    (s : Text) :
    ∃ name rest, s = name ++ rest ∧
      s.takeWhile (· ≠ 61) = name ∧
        s.dropWhile (· ≠ 61) = rest ∧
          (rest = [] ∨ rest.head? = some 61) := by
  refine ⟨_, _, List.takeWhile_append_dropWhile.symm, rfl, rfl,
    ?_⟩
  cases hRest : s.dropWhile (· ≠ 61) with
  | nil => exact .inl rfl
  | cons b rest =>
      have hStop := List.head?_dropWhile_not (· ≠ 61) s
      rw [hRest] at hStop
      exact .inr (congrArg some (by simpa using hStop))

theorem parseItem_iff
    (args : BalanceArgs)
    (s : Text)
    (out : BalanceArgs) :
    parseItem args s = some out ↔ ∃ change,
      Item true s change ∧ out = Change.apply args change := by
  constructor
  · intro hParse
    rcases parts_of_name s with
      ⟨name, rest, hText, hName, hRest, hEnd⟩
    unfold parseItem at hParse
    rw [hName, hRest] at hParse
    dsimp only at hParse
    cases hFound : allFilters.find? (·.name = name) with
    | some filter =>
        rw [hFound] at hParse
        dsimp only at hParse
        split_ifs at hParse with hValue
        rcases (parseArgument_iff hValue).mp hParse with
          ⟨change, hArgument, hOut⟩
        have hItem := Item.argument hValue hArgument
        have hKey := List.find?_some hFound
        rw [decide_eq_true_eq] at hKey
        rcases hEnd with rfl | hHead
        · exact absurd rfl hValue
        · rcases List.head?_eq_some_iff.mp hHead with ⟨t, rfl⟩
          rw [hText, ← hKey]
          exact ⟨change, hItem, hOut⟩
    | none =>
        rw [hFound] at hParse
        dsimp only at hParse
        split_ifs at hParse with hSoft
        cases hParse
        rw [hText, hSoft]
        exact ⟨.soft, .soft (hEnd.imp_right (And.intro rfl)), rfl⟩
  · intro hChange
    rcases hChange with ⟨change, hItem, hOut⟩
    unfold parseItem
    cases hItem with
    | argument hValue hArgument =>
        rename_i filter value
        have hName : 61 ∉ filter.name := by
          cases filter <;> decide
        have hFound : allFilters.find?
            (·.name = filter.name) = some filter := by
          cases filter <;> rfl
        rcases @name_parts _ (61 :: value) hName (.inr rfl) with
          ⟨hTake, hDrop⟩
        rw [hTake, hDrop]
        dsimp only
        rw [hFound]
        exact (if_neg hValue).trans
          ((parseArgument_iff hValue).mpr ⟨_, hArgument, hOut⟩)
    | soft hRest =>
        rcases @name_parts softName _ (by decide)
          (hRest.imp_right And.right) with ⟨hTake, hDrop⟩
        rw [hTake, hDrop, hOut]
        rfl

theorem parseFilters_iff
    {args out : BalanceArgs} :
    parseFilters (some s) args = some out ↔ ∃ changes,
      Filters true s changes ∧
        out = changes.foldl Change.apply args :=
  foldlM_iff parseItem_iff

----------
-- The Grammar in the Loose One
----------

theorem number_loose
    {n : Nat}
    (hNumber : Number false s n) :
    Number true s n := by
  rcases hNumber with ⟨hSome, hDigits, rfl, hFits⟩
  exact CText.reads_digits hSome hDigits hFits

theorem range_loose
    {start last : Nat}
    (hRange : Range false s start last) :
    Range true s start last := by
  rcases hRange with
    ⟨first, rest, hText, hBoth, hStart, hLast, hOrder⟩
  exact ⟨first, rest, hText, hBoth,
    hStart.imp_right number_loose, hLast.imp_right number_loose,
    hOrder⟩

/- Where no part may be empty, dropping the empty ones is idle. -/
theorem parts_loose
    {γ : Type}
    {Takes : Text → γ → Prop}
    {delimiter : UInt8}
    {changes : List γ}
    (hSome : ∀ t change, Takes t change → t ≠ [])
    (hAll : List.Forall₂ Takes (parts false delimiter s)
      changes) :
    List.Forall₂ Takes (parts true delimiter s) changes := by
  have hKept : ∀ {ts : List Text} {cs : List γ},
      List.Forall₂ Takes ts cs →
        ts.filter (fun t => t ≠ []) = ts := by
    intro ts cs hTs
    induction hTs with
    | nil => rfl
    | cons hHead _ ih =>
        rw [List.filter_cons,
          if_pos (decide_eq_true (hSome _ _ hHead)), ih]
  by_cases hNone : s = []
  · rw [hNone] at hAll ⊢
    exact hAll
  · unfold parts at hAll ⊢
    rw [if_neg (by simp [hNone])] at hAll
    rw [if_pos (.inl rfl), CText.strtok, hKept hAll]
    exact hAll

theorem profile_ne_nil
    {bit : Nat}
    (hProfile : OneProfile s bit) :
    s ≠ [] := by
  have hNames : ∀ named ∈ profileNames, named.1 ≠ [] := by
    decide
  exact hNames _ hProfile

theorem argument_loose
    {filter : Filter}
    {change : Change}
    (hArgument : Argument false filter s change) :
    Argument true filter s change := by
  cases hArgument with
  | profiles hBits =>
      exact .profiles (parts_loose
        (fun _ _ hProfile => profile_ne_nil hProfile) hBits)
  | usage hNumber hBelow =>
      exact .usage (number_loose hNumber) hBelow
  | devid hNumber hPos =>
      exact .devid (number_loose hNumber) hPos
  | drange hRange => exact .drange (range_loose hRange)
  | vrange hRange => exact .vrange (range_loose hRange)
  | convert hBit => exact .convert hBit

theorem item_ne_nil
    {loose : Bool}
    {change : Change}
    (hItem : Item loose s change) :
    s ≠ [] := by
  cases hItem with
  | argument _ _ => simp
  | soft _ => simp [softName]

theorem filters_loose
    {changes : List Change}
    (hFilters : Filters false s changes) :
    Filters true s changes := by
  refine (parts_loose (fun _ _ hItem => item_ne_nil hItem)
    hFilters).imp fun t change hItem => ?_
  cases hItem with
  | argument hValue hArgument =>
      exact .argument hValue (argument_loose hArgument)
  | soft hRest =>
      exact .soft (hRest.imp_right fun hLoose => by
        cases hLoose.1)

end Accepted

/-
  The parser accepts just its grammar where it makes no
  difference that it accepts the loose one.
-/
theorem parseFilters_exact_iff
    (s : Text) :
    Exact s ↔ ((∃ changes, Filters true s changes) →
      ∃ changes, Filters false s changes) := by
  constructor
  · intro hExact hLoose
    rcases hLoose with ⟨changes, hLoose⟩
    have hAccepted := (@parseFilters_iff s
      ⟨0, 0, 0, 0, 0, 0, 0, 0, 0⟩ _).mpr ⟨changes, hLoose, rfl⟩
    by_contra hNot
    rw [(hExact _).2 hNot] at hAccepted
    cases hAccepted
  · intro hStrict args
    constructor
    · intro changes hFilters
      exact parseFilters_iff.mpr
        ⟨changes, filters_loose hFilters, rfl⟩
    · intro hNot
      cases hParse : parseFilters (some s) args with
      | none => rfl
      | some out =>
          rcases parseFilters_iff.mp hParse with
            ⟨changes, hLoose, _⟩
          exact absurd (hStrict ⟨changes, hLoose⟩) hNot

/- `devid=-1` is taken for the number 2^64 - 1. -/
theorem parseFilters_accepts_sign :
    parseFilters (some [100, 101, 118, 105, 100, 61, 45, 49])
        ⟨0, 0, 0, 0, 0, 0, 0, 0, 0⟩ =
      some ⟨0, 0, 2 ^ 64 - 1, 0, 0, 0, 0, 0, 4⟩ ∧
      ¬ Exact [100, 101, 118, 105, 100, 61, 45, 49] := by
  have hRun : parseFilters
      (some [100, 101, 118, 105, 100, 61, 45, 49])
      ⟨0, 0, 0, 0, 0, 0, 0, 0, 0⟩ =
      some ⟨0, 0, 2 ^ 64 - 1, 0, 0, 0, 0, 0, 4⟩ := by
    decide +kernel
  refine ⟨hRun, fun hExact => ?_⟩
  have hNever : ∀ text change, Item false text change →
      text ≠ [100, 101, 118, 105, 100, 61, 45, 49] := by
    intro text change hItem hText
    cases hItem with
    | argument _ hArgument =>
        cases hArgument <;> simp [Filter.name] at hText
        case devid _ hNumber =>
          rw [hText] at hNumber
          exact absurd (hNumber.2.1 45 List.mem_cons_self)
            (by decide)
    | soft _ => simp [softName] at hText
  have hOut : ¬ ∃ changes, Filters false
      [100, 101, 118, 105, 100, 61, 45, 49] changes := by
    intro hSome
    rcases hSome with ⟨changes, hFilters⟩
    have hParts : parts false 44
        [100, 101, 118, 105, 100, 61, 45, 49] =
        [[100, 101, 118, 105, 100, 61, 45, 49]] := by
      decide +kernel
    unfold Filters at hFilters
    rw [hParts] at hFilters
    cases hFilters with
    | cons hItem _ => exact hNever _ _ hItem rfl
  have hNone := (hExact ⟨0, 0, 0, 0, 0, 0, 0, 0, 0⟩).2 hOut
  rw [hRun] at hNone
  cases hNone

end Balance

end BtrfsProgs
