import BtrfsProgs.Lib.LittleEndian

/-
  Packed records of little-endian fields.

  Main declarations:
    * `Record.pack` and `Record.field`
    * `Record.field_pack`
    * `Record.field_lt` and `Record.drop_eq_field`
    * `Record.put` and `Record.putField_pack`
    * `Record.unpack` and `Record.pack_unpack`
    * `Record.move_up` and `Record.move_down`
-/

----------
-- Fields
----------

namespace Record

open LittleEndian

/- The bytes of some fields, each with its width. -/
def pack
    (fs : List (Nat × Nat)) : List UInt8 :=
  fs.flatMap fun f => encode f.1 f.2

/- The space of some fields. -/
def space
    (fs : List (Nat × Nat)) : Nat :=
  (fs.map Prod.fst).sum

/- The field of a width at a place of some bytes. -/
def field
    (bytes : List UInt8)
    (place w : Nat) : Nat :=
  decode ((bytes.drop place).take w)

/- Every value fits in the width of its field. -/
def Fits
    (fs : List (Nat × Nat)) : Prop :=
  ∀ f ∈ fs, f.2 < 256 ^ f.1

theorem fits_nil : Fits [] := by
  intro f hMem
  cases hMem

theorem fits_cons
    {w v : Nat}
    {fs : List (Nat × Nat)}
    (hFirst : v < 256 ^ w)
    (hRest : Fits fs) :
    Fits ((w, v) :: fs) := by
  intro f hMem
  cases hMem with
  | head => exact hFirst
  | tail _ hLater => exact hRest f hLater

@[simp]
theorem length_pack
    (fs : List (Nat × Nat)) :
    (pack fs).length = space fs := by
  simp [pack, space, List.length_flatMap]

/- A field of a packed record is what was packed. -/
theorem field_pack
    {fs : List (Nat × Nat)}
    {w v : Nat}
    (i place : Nat)
    (tail : List UInt8)
    (hFits : Fits fs)
    (hAt : fs[i]? = some (w, v))
    (hPlace : space (fs.take i) = place) :
    field (pack fs ++ tail) place w = v := by
  have hMem := List.mem_of_getElem? hAt
  obtain ⟨hLt, hGet⟩ := List.getElem?_eq_some_iff.mp hAt
  have hParts : pack fs ++ tail =
      pack (fs.take i) ++
        (encode w v ++ (pack (fs.drop (i + 1)) ++ tail)) := by
    have hSplit : fs =
        fs.take i ++ (w, v) :: fs.drop (i + 1) := by
      rw [← hGet, ← List.drop_eq_getElem_cons hLt,
        List.take_append_drop]
    conv_lhs => rw [hSplit]
    simp [pack, List.flatMap_append]
  unfold field
  rw [hParts, ← hPlace, List.drop_left' (length_pack _),
    List.take_left' (length_encode w v)]
  exact decode_encode_of_lt (hFits _ hMem)

----------
-- Fields of Any Bytes
----------

section Fields

variable {bytes rest : List UInt8} {place w : Nat}

theorem field_lt
    (bytes : List UInt8)
    (place w : Nat) :
    field bytes place w < 256 ^ w := by
  unfold field
  apply Nat.lt_of_lt_of_le (decode_lt _)
  apply Nat.pow_le_pow_right (by decide)
  rw [List.length_take]
  exact Nat.min_le_left w _

/- A field that starts what is left of some bytes. -/
theorem field_of_drop
    {v : Nat}
    (hDrop : bytes.drop place = encode w v ++ rest)
    (hFits : v < 256 ^ w) :
    field bytes place w = v := by
  unfold field
  rw [hDrop, List.take_left' (length_encode w v)]
  exact decode_encode_of_lt hFits

theorem drop_of_drop
    {front : List UInt8}
    (hDrop : bytes.drop place = front ++ rest) :
    bytes.drop (place + front.length) = rest := by
  rw [← List.drop_drop, hDrop, List.drop_left]

/- What is left of some bytes starts with its field. -/
theorem drop_eq_field
    (hLe : place + w ≤ bytes.length) :
    bytes.drop place =
      encode w (field bytes place w) ++
        bytes.drop (place + w) := by
  have hLen : ((bytes.drop place).take w).length = w := by
    simp only [List.length_take, List.length_drop]
    omega
  have hField := encode_decode ((bytes.drop place).take w)
  rw [hLen] at hField
  unfold field
  rw [hField, ← List.drop_drop, List.take_append_drop]

/- A field behind some bytes. -/
theorem field_drop
    (bytes : List UInt8)
    (front place w : Nat) :
    field bytes (front + place) w =
      field (bytes.drop front) place w := by
  unfold field
  rw [List.drop_drop]

end Fields

----------
-- Fields That Are Set
----------

/- Put bytes over those from a place on. -/
def put
    (bytes : List UInt8)
    (place : Nat)
    (new : List UInt8) : List UInt8 :=
  bytes.take place ++ new ++ bytes.drop (place + new.length)

def putField
    (bytes : List UInt8)
    (place w v : Nat) : List UInt8 :=
  put bytes place (encode w v)

theorem put_middle
    {a b c new : List UInt8}
    {place : Nat}
    (hPlace : a.length = place)
    (hLength : b.length = new.length) :
    put (a ++ (b ++ c)) place new = a ++ (new ++ c) := by
  unfold put
  rw [List.take_left' hPlace, ← hPlace, ← hLength,
    ← List.length_append, ← List.append_assoc a b,
    List.drop_left, List.append_assoc]

theorem put_behind
    {front bytes new : List UInt8}
    {start place : Nat}
    (hFront : front.length = start) :
    put (front ++ bytes) (start + place) new =
      front ++ put bytes place new := by
  unfold put
  rw [← hFront, List.take_length_add_append, Nat.add_assoc,
    List.drop_length_add_append]
  simp only [List.append_assoc]

/- A field of a packed record is set. -/
theorem putField_pack
    {fs : List (Nat × Nat)}
    {w old : Nat}
    (i place v : Nat)
    (tail : List UInt8)
    (hAt : fs[i]? = some (w, old))
    (hPlace : space (fs.take i) = place) :
    putField (pack fs ++ tail) place w v =
      pack (fs.set i (w, v)) ++ tail := by
  rcases List.getElem?_eq_some_iff.mp hAt with ⟨hLt, hGet⟩
  have hSplit : fs =
      fs.take i ++ (w, old) :: fs.drop (i + 1) := by
    rw [← hGet, ← List.drop_eq_getElem_cons hLt,
      List.take_append_drop]
  have hParts : pack fs ++ tail =
      pack (fs.take i) ++ (encode w old ++
        (pack (fs.drop (i + 1)) ++ tail)) := by
    conv_lhs => rw [hSplit]
    simp [pack, List.flatMap_append]
  have hSet : fs.set i (w, v) =
      fs.take i ++ (w, v) :: fs.drop (i + 1) := by
    rw [List.set_eq_take_append_cons_drop, if_pos hLt]
  unfold putField
  rw [hParts, put_middle ((length_pack _).trans hPlace)
    (by simp), hSet]
  simp [pack, List.flatMap_append]

theorem putField_behind
    {front bytes : List UInt8}
    {start : Nat}
    (place w v : Nat)
    (hFront : front.length = start) :
    putField (front ++ bytes) (start + place) w v =
      front ++ putField bytes place w v :=
  put_behind hFront

/- The fields of some widths that some bytes are. -/
def unpack : List Nat → List UInt8 → List (Nat × Nat)
  | [], _ => []
  | w :: ws, bytes =>
      (w, field bytes 0 w) :: unpack ws (bytes.drop w)

theorem pack_unpack
    (ws : List Nat)
    (bytes : List UInt8)
    (hLength : bytes.length = ws.sum) :
    pack (unpack ws bytes) = bytes := by
  induction ws generalizing bytes with
  | nil => exact (List.eq_nil_of_length_eq_zero hLength).symm
  | cons w ws ih =>
      rw [List.sum_cons] at hLength
      have hFits : 0 + w ≤ bytes.length := by omega
      have hFirst := drop_eq_field hFits
      have hRest := ih (bytes.drop w) (by
        rw [List.length_drop]
        omega)
      rw [List.drop_zero, Nat.zero_add] at hFirst
      conv_rhs => rw [hFirst, ← hRest]
      rfl

----------
-- Bytes That Are Moved
----------

/- `memmove` inside some bytes. -/
def move
    (bytes : List UInt8)
    (dest frm n : Nat) : List UInt8 :=
  put bytes dest ((bytes.drop frm).take n)

/- A tail is moved up, over what is behind it. -/
theorem move_up
    {front tail room : List UInt8}
    {start : Nat}
    (hFront : front.length = start) :
    move (front ++ (tail ++ room)) (start + room.length) start
        tail.length =
      front ++ ((tail ++ room).take room.length ++ tail) := by
  unfold move
  rw [List.drop_left' hFront, List.take_left,
    put_behind hFront]
  unfold put
  rw [List.drop_eq_nil_of_le (by
    rw [List.length_append]
    omega), List.append_nil]

/- The move is left out when there is no tail. -/
theorem move_up_if
    {front tail room : List UInt8}
    {start size : Nat}
    (hFront : front.length = start)
    (hRoom : room.length = size) :
    ∃ gap, gap.length = size ∧
      (if start < (front ++ (tail ++ room)).length - size then
          move (front ++ (tail ++ room)) (start + size) start
            ((front ++ (tail ++ room)).length - size - start)
        else front ++ (tail ++ room)) =
        front ++ (gap ++ tail) := by
  have hLength : (front ++ (tail ++ room)).length =
      start + (tail.length + size) := by
    rw [List.length_append, List.length_append, hFront, hRoom]
  by_cases hTail : tail.length = 0
  · have hNil := List.eq_nil_of_length_eq_zero hTail
    refine ⟨room, hRoom, ?_⟩
    rw [if_neg (by omega), hNil, List.nil_append,
      List.append_nil]
  · have hTaken : ((tail ++ room).take size).length = size := by
      rw [List.length_take, List.length_append]
      omega
    have hMove := @move_up front tail room start hFront
    rw [hRoom] at hMove
    have hCount : (front ++ (tail ++ room)).length - size -
        start = tail.length := by
      omega
    refine ⟨_, hTaken, ?_⟩
    rw [if_pos (by omega), hCount]
    exact hMove

/- A tail is moved down, over what is before it. -/
theorem move_down
    {front gone tail : List UInt8}
    {start : Nat}
    (hFront : front.length = start) :
    (move (front ++ (gone ++ tail)) start
        (start + gone.length) tail.length).take
          (start + tail.length) =
      front ++ tail := by
  have hDrop : (front ++ (gone ++ tail)).drop
      (start + gone.length) = tail := by
    rw [← List.append_assoc]
    apply List.drop_left'
    rw [List.length_append, hFront]
  have hMove : move (front ++ (gone ++ tail)) (start + 0)
      (start + gone.length) tail.length =
        front ++ put (gone ++ tail) 0 tail := by
    unfold move
    rw [hDrop, List.take_length, put_behind hFront]
  rw [Nat.add_zero] at hMove
  rw [hMove]
  unfold put
  rw [List.take_zero, List.nil_append, ← List.append_assoc]
  apply List.take_left'
  rw [List.length_append, hFront]

/- The move is left out when there is no tail. -/
theorem move_down_if
    {front gone tail : List UInt8}
    {start size : Nat}
    (hFront : front.length = start)
    (hGone : gone.length = size) :
    (if start + size < (front ++ (gone ++ tail)).length then
        move (front ++ (gone ++ tail)) start (start + size)
          ((front ++ (gone ++ tail)).length - start - size)
      else front ++ (gone ++ tail)).take
        ((front ++ (gone ++ tail)).length - size) =
      front ++ tail := by
  have hLength : (front ++ (gone ++ tail)).length =
      start + (size + tail.length) := by
    rw [List.length_append, List.length_append, hFront, hGone]
  have hTotal : (front ++ (gone ++ tail)).length - size =
      start + tail.length := by
    omega
  rw [hTotal]
  by_cases hTail : tail.length = 0
  · have hNil := List.eq_nil_of_length_eq_zero hTail
    rw [if_neg (by omega), hNil, List.append_nil,
      List.append_nil, List.length_nil, Nat.add_zero]
    exact List.take_left' hFront
  · have hCount : (front ++ (gone ++ tail)).length - start -
        size = tail.length := by
      omega
    rw [if_pos (by omega), hCount, ← hGone]
    exact move_down hFront

end Record
