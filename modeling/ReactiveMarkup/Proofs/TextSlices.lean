import ReactiveMarkup.Proofs.Lexing

/-! Slices of encoded texts. A slice from one byte to another exists only if both lie within the
text and between characters. -/

namespace ReactiveMarkup

namespace Text

/-- What is left of a text from a byte on; nothing at a byte past the end or inside a character. -/
def fromByte? : Nat → List Char → Option (List Char)
  | 0, chars => some chars
  | _ + 1, [] => none
  | byte + 1, c :: rest => if c.utf8Size ≤ byte + 1 then fromByte? (byte + 1 - c.utf8Size) rest else none

/-- The characters in front of a byte; nothing at a byte past the end or inside a character. -/
def uptoByte? : Nat → List Char → Option (List Char)
  | 0, _ => some []
  | _ + 1, [] => none
  | byte + 1, c :: rest =>
    if c.utf8Size ≤ byte + 1 then (uptoByte? (byte + 1 - c.utf8Size) rest).map (c :: ·) else none

def slice? (start stop : Nat) (text : List Char) : Option (List Char) :=
  if start ≤ stop then (fromByte? start text).bind (uptoByte? (stop - start)) else none

/-- An offset that lies between characters, with what comes behind it. -/
def Reaches (text : List Char) (offset : Nat) (rest : List Char) : Prop :=
  ∃ front, text = front ++ rest ∧ byteSize front = offset

variable {text rest chars : List Char} {offset : Nat}

theorem byteSize_pos {c : Char} : 0 < byteSize (c :: rest) := Nat.add_pos_left (Char.utf8Size_pos c) _

theorem byteSize_eq_zero (empty : byteSize chars = 0) : chars = [] := by
  cases chars with
  | nil => rfl
  | cons c rest => exact absurd empty (Nat.ne_of_gt byteSize_pos)

theorem length_le_byteSize (chars : List Char) : chars.length ≤ byteSize chars := by
  induction chars with
  | nil => exact Nat.le_refl 0
  | cons c rest ih =>
    have positive := Char.utf8Size_pos c
    rw [List.length_cons, byteSize]
    omega

theorem byteSize_toList (value : String) : byteSize value.toList = value.utf8ByteSize := by
  have sizes (chars : List Char) : byteSize chars = (String.ofList chars).utf8ByteSize := by
    induction chars with
    | nil => rfl
    | cons c rest ih =>
      rw [byteSize, ih, String.ofList_cons, String.utf8ByteSize_append, String.utf8ByteSize_singleton]
  rw [sizes, String.ofList_toList]

theorem fromByte?_cons (c : Char) (rest : List Char) (byte : Nat) : fromByte? (c.utf8Size + byte) (c :: rest) = fromByte? byte rest := by
  have positive := Char.utf8Size_pos c
  obtain ⟨size, same⟩ := Nat.exists_eq_succ_of_ne_zero (show c.utf8Size + byte ≠ 0 by omega)
  have behind : size + 1 - c.utf8Size = byte := by omega
  rw [same, fromByte?, if_pos (by omega), behind]

theorem uptoByte?_cons (c : Char) (rest : List Char) (byte : Nat) :
    uptoByte? (c.utf8Size + byte) (c :: rest) = (uptoByte? byte rest).map (c :: ·) := by
  have positive := Char.utf8Size_pos c
  obtain ⟨size, same⟩ := Nat.exists_eq_succ_of_ne_zero (show c.utf8Size + byte ≠ 0 by omega)
  have behind : size + 1 - c.utf8Size = byte := by omega
  rw [same, uptoByte?, if_pos (by omega), behind]

theorem fromByte?_append (front rest : List Char) : fromByte? (byteSize front) (front ++ rest) = some rest := by
  induction front with
  | nil => rw [byteSize, List.nil_append, fromByte?]
  | cons c front ih => rw [byteSize, List.cons_append, fromByte?_cons, ih]

theorem uptoByte?_append (front rest : List Char) : uptoByte? (byteSize front) (front ++ rest) = some front := by
  induction front with
  | nil => rw [byteSize, uptoByte?]
  | cons c front ih => rw [byteSize, List.cons_append, uptoByte?_cons, ih, Option.map_some]

theorem fromByte?_past (past : byteSize text < offset) : fromByte? offset text = none := by
  induction text generalizing offset with
  | nil =>
    obtain ⟨size, rfl⟩ := Nat.exists_eq_succ_of_ne_zero (Nat.ne_of_gt past)
    rw [fromByte?]
  | cons c rest ih =>
    rw [byteSize] at past
    obtain ⟨more, rfl⟩ := Nat.exists_eq_add_of_le (show c.utf8Size ≤ offset by omega)
    rw [fromByte?_cons, ih (by omega)]

theorem Reaches.fromByte? (reaches : Reaches text offset rest) : fromByte? offset text = some rest := by
  obtain ⟨front, rfl, rfl⟩ := reaches
  exact fromByte?_append front rest

theorem Reaches.start (text : List Char) : Reaches text 0 text := ⟨[], rfl, rfl⟩

theorem Reaches.stop (text : List Char) : Reaches text (byteSize text) [] := ⟨text, (List.append_nil text).symm, rfl⟩

theorem Reaches.size (reaches : Reaches text offset rest) : offset + byteSize rest = byteSize text := by
  obtain ⟨front, rfl, rfl⟩ := reaches
  exact (byteSize_append front rest).symm

theorem Reaches.lt_size {c : Char} (reaches : Reaches text offset (c :: rest)) : offset < byteSize text := by
  rw [← reaches.size]
  exact Nat.lt_add_of_pos_right byteSize_pos

theorem lt_size_of_fromByte? {c : Char} (found : Text.fromByte? offset text = some (c :: rest)) : offset < byteSize text := by
  induction text generalizing offset with
  | nil =>
    cases offset with
    | zero => cases found
    | succ byte =>
      rw [Text.fromByte?] at found
      cases found
  | cons first more ih =>
    have positive := Char.utf8Size_pos first
    rw [byteSize]
    obtain short | long : offset < first.utf8Size ∨ first.utf8Size ≤ offset := Nat.lt_or_ge ..
    · omega
    · obtain ⟨byte, rfl⟩ := Nat.exists_eq_add_of_le long
      rw [fromByte?_cons] at found
      have before := ih found
      omega

/-- What is left tells where it starts. -/
theorem Reaches.unique {other : Nat} (reaches : Reaches text offset rest) (same : Reaches text other rest) : offset = other := by
  have size := reaches.size
  have sizeOther := same.size
  omega

/-- Any number of characters further on. -/
theorem Reaches.add (reaches : Reaches text offset (chars ++ rest)) : Reaches text (offset + byteSize chars) rest := by
  obtain ⟨front, rfl, rfl⟩ := reaches
  exact ⟨front ++ chars, (List.append_assoc ..).symm, byteSize_append front chars⟩

theorem Reaches.tail {c : Char} (reaches : Reaches text offset (c :: rest)) : Reaches text (offset + c.utf8Size) rest :=
  Reaches.add (show Reaches text offset ([c] ++ rest) from reaches)

theorem Reaches.drop (reaches : Reaches text offset rest) (count : Nat) :
    Reaches text (offset + byteSize (rest.take count)) (rest.drop count) :=
  Reaches.add (by rwa [List.take_append_drop])

theorem Reaches.slice? (reaches : Reaches text offset (chars ++ rest)) : slice? offset (offset + byteSize chars) text = some chars := by
  rw [Text.slice?, if_pos (Nat.le_add_right ..), reaches.fromByte?, Nat.add_sub_cancel_left]
  exact uptoByte?_append chars rest

end Text

/-- A cursor into a text stands where it says. -/
def Cursor.On (text : List Char) (cursor : Cursor) : Prop := Text.Reaches text cursor.offset cursor.rest

theorem Cursor.On.drop {text : List Char} {cursor : Cursor} (on : cursor.On text) (count : Nat) : (cursor.drop count).On text :=
  Text.Reaches.drop on count

end ReactiveMarkup
