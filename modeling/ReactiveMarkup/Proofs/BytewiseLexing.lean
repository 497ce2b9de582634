import ReactiveMarkup.Proofs.TextSlices

/-! The tokens of a text, cut by a scanner that keeps a byte index and takes slices of the text.
Nothing comes of a slice that does not exist, and nothing of a loop that does not move on. -/

namespace ReactiveMarkup.Bytewise

open ReactiveMarkup.Expression ReactiveMarkup.Text

section Scanner

variable (text : List Char)

/-- The character at a byte; the null character where none starts. -/
def charAt (byte : Nat) : Char := ((fromByte? byte text).bind List.head?).getD '\x00'

def advance (byte : Nat) : Nat := byte + (charAt text byte).utf8Size

/-- Steps over characters of a class. The null character is of no class that is stepped over. -/
def skipWhile (p : Char → Bool) (byte : Nat) : Nat :=
  if byte < byteSize text ∧ p (charAt text byte) = true then skipWhile p (advance text byte) else byte
termination_by byteSize text - byte
decreasing_by
  have positive := Char.utf8Size_pos (charAt text byte)
  simp only [advance]
  omega

theorem le_skipWhile (p : Char → Bool) (byte : Nat) : byte ≤ skipWhile text p byte := by
  fun_induction skipWhile text p byte with
  | case1 byte more ih => exact Nat.le_trans (Nat.le_add_right ..) ih
  | case2 byte ended => exact Nat.le_refl byte

/-- A token with its text, and the byte behind it. -/
def cut (lexeme : Lexeme) (start stop byte : Nat) : Option (Token × Nat) := do
  let chars ← slice? start stop text
  return (⟨lexeme, start, chars⟩, byte)

/-- A faulty token takes up at least a byte, and ends with the text at the latest. -/
def cutFault (cause : TokenFault) (start byte : Nat) : Option (Token × Nat) :=
  cut text (.fault cause) start (min (max byte (start + 1)) (byteSize text)) byte

def scanWord (start : Nat) : Option (Token × Nat) := do
  let stop := skipWhile text isIdentifierPart (advance text start)
  let name ← slice? start stop text
  cut text (word (.ofList name)) start stop stop

/-- The number that a slice spells. -/
def cutNumber (start stop : Nat) : Option (Token × Nat) := do
  let digits ← slice? start stop text
  let value ← Number.read? (.ofList digits)
  cut text (.number value) start stop stop

def scanNumber (start : Nat) : Option (Token × Nat) :=
  let whole := skipWhile text Char.isDigit start
  let byte :=
    if charAt text whole = '.' ∧ (charAt text (whole + 1)).isDigit = true then skipWhile text Char.isDigit (advance text whole)
    else whole
  if charAt text byte = 'e' ∨ charAt text byte = 'E' then
    let behind := advance text byte
    let digits := if charAt text behind = '+' ∨ charAt text behind = '-' then advance text behind else behind
    if (charAt text digits).isDigit = true then cutNumber text start (skipWhile text Char.isDigit digits)
    else cutFault text .exponent start digits
  else cutNumber text start byte

/-- Steps over a number of hexadecimal digits; whether there were so many, and where they end. -/
def skipHex : Nat → Nat → Bool × Nat
  | 0, byte => (true, byte)
  | count + 1, byte => if isHexDigit (charAt text byte) then skipHex count (advance text byte) else (false, byte)

/-- The character with a code in hexadecimal digits. -/
def charOfHex? (digits : List Char) : Option Char :=
  let code := digits.foldl (fun code c => code * 16 + hexDigitValue c) 0
  if code.isValidChar then some (Char.ofNat code) else none

/-- The character that an escape stands for, if there is one, and the byte behind the escape. -/
def scanEscape (byte : Nat) : Option (Option Char × Nat) :=
  let behind := advance text byte
  if charAt text byte = 'u' then
    let hex := skipHex text 4 behind
    if hex.1 then do
      let digits ← slice? behind hex.2 text
      return (charOfHex? digits, hex.2)
    else some (none, hex.2)
  else some (some (unescape (charAt text byte)), behind)

def consQuoted (c : Char) (scanned : Except TokenFault (List Char) × Nat) : Except TokenFault (List Char) × Nat :=
  (scanned.1.map (c :: ·), scanned.2)

/-- The characters of a string up to its closing quote. -/
def scanQuoted (quote : Char) (byte : Nat) : Option (Except TokenFault (List Char) × Nat) :=
  if byte < byteSize text then
    if charAt text byte = quote then some (.ok [], advance text byte)
    else if charAt text byte = '\\' then
      match scanEscape text (advance text byte) with
      | none => none
      | some (none, stop) => some (.error .unicode, stop)
      | some (some c, stop) => if byte < stop then (scanQuoted quote stop).map (consQuoted c) else none
    else (scanQuoted quote (advance text byte)).map (consQuoted (charAt text byte))
  else some (.error .unterminated, byte)
termination_by byteSize text - byte
decreasing_by
  · omega
  · have positive := Char.utf8Size_pos (charAt text byte)
    simp only [advance]
    omega

def scanString (start : Nat) : Option (Token × Nat) := do
  let (value, stop) ← scanQuoted text (charAt text start) (advance text start)
  match value with
  | .ok value => cut text (.string (.ofList value)) start stop stop
  | .error cause => cutFault text cause start stop

/-- A question mark and a point before a digit are a condition and a fraction. -/
def scanOperator (start : Nat) : Option (Token × Nat) := do
  let rest ← fromByte? start text
  match operators.find? fun symbol => startsWith rest symbol && !(symbol == "?." && (charAt text (start + 2)).isDigit) with
  | some symbol => cut text (.operator symbol) start (start + symbol.utf8ByteSize) (start + symbol.utf8ByteSize)
  | none => cutFault text (.character (charAt text start)) start (advance text start)

/-- The token that starts at a byte, and the byte behind it. -/
def scan (start : Nat) : Option (Token × Nat) :=
  let c := charAt text start
  if isIdentifierStart c then scanWord text start
  else if c.isDigit || (c == '.' && (charAt text (start + 1)).isDigit) then scanNumber text start
  else if isMark c then cut text (.mark c) start (advance text start) (advance text start)
  else if c = '\'' ∨ c = '"' then scanString text start
  else scanOperator text start

/-- The tokens from a byte on. -/
def tokensFrom (byte : Nat) : Option (List Token) :=
  let start := skipWhile text isBlank byte
  if start < byteSize text then
    match scan text start with
    | none => none
    | some (token, stop) => if start < stop then (tokensFrom stop).map (token :: ·) else none
  else some []
termination_by byteSize text - byte
decreasing_by
  have steps := le_skipWhile text isBlank byte
  omega

end Scanner

/-! The scanner stands where the characters say. -/

section Agreement

variable {text rest chars front : List Char} {byte start stop : Nat} {lexeme : Lexeme}

theorem charAt_cons {c : Char} (reaches : Reaches text byte (c :: rest)) : charAt text byte = c := by
  rw [charAt, reaches.fromByte?]
  rfl

theorem charAt_nil (reaches : Reaches text byte []) : charAt text byte = '\x00' := by
  rw [charAt, reaches.fromByte?]
  rfl

theorem advance_cons {c : Char} (reaches : Reaches text byte (c :: rest)) : advance text byte = byte + c.utf8Size := by
  rw [advance, charAt_cons reaches]

theorem head?_eq_charAt {p : Char → Bool} (no : p '\x00' = false) (reaches : Reaches text byte rest) :
    rest.head?.any p = p (charAt text byte) := by
  cases rest with
  | nil => rw [charAt_nil reaches, no]; rfl
  | cons c rest => rw [charAt_cons reaches]; rfl

theorem skipWhile_eq (p : Char → Bool) (reaches : Reaches text byte rest) :
    skipWhile text p byte = byte + byteSize (rest.takeWhile p) := by
  induction rest generalizing byte with
  | nil =>
    have size := reaches.size
    rw [byteSize] at size
    rw [skipWhile, if_neg (by omega)]
    rfl
  | cons c rest ih =>
    have size := reaches.size
    have positive : 0 < byteSize (c :: rest) := byteSize_pos
    rw [skipWhile, charAt_cons reaches, advance_cons reaches]
    cases holds : p c with
    | true =>
      rw [if_pos ⟨by omega, rfl⟩, ih reaches.tail, List.takeWhile_cons_of_pos holds, byteSize]
      omega
    | false =>
      rw [if_neg (fun more => Bool.false_ne_true more.2), List.takeWhile_cons_of_neg (by simp [holds])]
      rfl

theorem skipped (p : Char → Bool) (reaches : Reaches text byte rest) :
    Reaches text (byte + byteSize (rest.takeWhile p)) (rest.dropWhile p) :=
  Reaches.add (by rwa [List.takeWhile_append_dropWhile])

/-- Nothing is left, or what is left is reached. A scanner may stand past the end of the text. -/
def Behind (text : List Char) (byte : Nat) (rest : List Char) : Prop :=
  Reaches text byte rest ∨ (byteSize text < byte ∧ rest = [])

/-! Tokens are cut from the front of what is left. -/

/-- What the scanner makes of a token at a byte. -/
def Scans (text : List Char) (start : Nat) (chars : List Char) (scanned : Scanned) (result : Option (Token × Nat)) : Prop :=
  ∃ stop, result = some (⟨scanned.1, start, chars.take scanned.2⟩, stop) ∧ start < stop ∧ Behind text stop (chars.drop scanned.2)

theorem cut_eq (lexeme : Lexeme) (byte : Nat) (reaches : Reaches text start (front ++ rest)) :
    cut text lexeme start (start + byteSize front) byte = some (⟨lexeme, start, front⟩, byte) := by
  rw [cut, reaches.slice?]
  rfl

/-- A token that ends before what is left. -/
theorem scans_upto (lexeme : Lexeme) {width : Nat} (reaches : Reaches text start chars) (ends : Reaches text stop (chars.drop width))
    (later : start < stop) : Scans text start chars (lexeme, width) (cut text lexeme start stop stop) := by
  have isStop := (reaches.drop width).unique ends
  refine ⟨stop, ?_, later, .inl ends⟩
  rw [← isStop]
  exact cut_eq lexeme _ (by rwa [List.take_append_drop])

theorem scans_cut (lexeme : Lexeme) (reaches : Reaches text start (front ++ rest)) (filled : front ≠ []) :
    Scans text start (front ++ rest) (lexeme, front.length) (cut text lexeme start (start + byteSize front) (start + byteSize front)) := by
  have positive : 0 < byteSize front := Nat.pos_of_ne_zero fun empty => filled (byteSize_eq_zero empty)
  apply scans_upto lexeme reaches
  · rw [List.drop_left]
    exact reaches.add
  · exact Nat.lt_add_of_pos_right positive

/-- A faulty token may end with the text while the scanner is past it. -/
theorem scans_fault (cause : TokenFault) {width : Nat} (reaches : Reaches text start chars) (ends : Behind text stop (chars.drop width))
    (later : start < stop) : Scans text start chars (.fault cause, width) (cutFault text cause start stop) := by
  have size := (reaches.drop width).size
  have cutting : min (max stop (start + 1)) (byteSize text) = start + byteSize (chars.take width) := by
    obtain ends | ⟨past, ended⟩ := ends
    · have isStop := (reaches.drop width).unique ends
      omega
    · rw [ended, byteSize] at size
      omega
  refine ⟨stop, ?_, later, ends⟩
  rw [cutFault, cutting]
  exact cut_eq _ _ (by rwa [List.take_append_drop])

/-! Words. -/

theorem scans_word {c : Char} (reaches : Reaches text start (c :: rest)) :
    Scans text start (c :: rest) (word (.ofList (c :: rest.takeWhile isIdentifierPart)), (c :: rest.takeWhile isIdentifierPart).length)
      (scanWord text start) := by
  have split : c :: rest = (c :: rest.takeWhile isIdentifierPart) ++ rest.dropWhile isIdentifierPart := by
    rw [List.cons_append, List.takeWhile_append_dropWhile]
  have stop : skipWhile text isIdentifierPart (advance text start) = start + byteSize (c :: rest.takeWhile isIdentifierPart) := by
    rw [advance_cons reaches, skipWhile_eq _ reaches.tail, byteSize, Nat.add_assoc]
  rw [split] at reaches
  rw [scanWord, stop, reaches.slice?]
  have scans := scans_cut (word (.ofList (c :: rest.takeWhile isIdentifierPart))) reaches (List.cons_ne_nil _ _)
  rwa [← split] at scans

/-! Numbers. -/

theorem takeWhile_append {p : Char → Bool} (all : ∀ c ∈ front, p c = true) (ended : ∀ c ∈ rest.head?, p c = false) :
    (front ++ rest).takeWhile p = front := by
  apply takeWhile_append_of_stop all
  intro c tail same
  exact ended c (by rw [same]; rfl)

theorem dropWhile_append {p : Char → Bool} (all : ∀ c ∈ front, p c = true) (ended : ∀ c ∈ rest.head?, p c = false) :
    (front ++ rest).dropWhile p = rest := by
  have whole := List.takeWhile_append_dropWhile (p := p) (l := front ++ rest)
  rw [takeWhile_append all ended] at whole
  exact List.append_cancel_left whole

/-- Digits with an optional fraction and an exponent are read as a number. -/
theorem read?_number {whole fraction behind : List Char} {exponent : Int} (wholeDigits : ∀ c ∈ whole, c.isDigit = true)
    (fractionDigits : ∀ c ∈ fraction, c.isDigit = true) (filled : whole ≠ [] ∨ fraction ≠ [])
    (ended : ∀ c ∈ behind.head?, c.isDigit = false ∧ c ≠ '.') (reads : Number.readExponent? behind = some exponent) :
    Number.read? (.ofList (whole ++ Number.pointed fraction ++ behind)) = some (Number.ofDigits false whole fraction exponent) := by
  have point : ∀ c ∈ (Number.pointed fraction ++ behind).head?, c.isDigit = false := by
    cases fraction with
    | nil => exact fun c member => (ended c member).1
    | cons d digits =>
      intro c member
      cases member
      rfl
  have decimal : Number.readDecimal? false (whole ++ Number.pointed fraction ++ behind) =
      some (Number.ofDigits false whole fraction exponent) := by
    rw [Number.readDecimal?, List.append_assoc, takeWhile_append wholeDigits point, dropWhile_append wholeDigits point]
    cases fraction with
    | nil =>
      have someWhole : whole.isEmpty = false := by simpa using filled
      cases behind with
      | nil => simp [Number.pointed, someWhole, reads]
      | cons c more =>
        have noPoint : c ≠ '.' := (ended c rfl).2
        simp [Number.pointed, someWhole, reads, noPoint]
    | cons d digits =>
      have noDigit : ∀ c ∈ behind.head?, c.isDigit = false := fun c member => (ended c member).1
      have taken := takeWhile_append fractionDigits noDigit
      have left := dropWhile_append fractionDigits noDigit
      simp only [Number.pointed, List.isEmpty_cons, List.cons_append, Bool.false_eq_true, if_false] at taken left ⊢
      simp [taken, left, reads]
  obtain ⟨c, more, chars, first⟩ : ∃ c more, whole ++ Number.pointed fraction ++ behind = c :: more ∧ (c.isDigit = true ∨ c = '.') := by
    cases whole with
    | cons c more => exact ⟨c, more ++ Number.pointed fraction ++ behind, rfl, .inl (wholeDigits c List.mem_cons_self)⟩
    | nil =>
      cases fraction with
      | cons c more => exact ⟨'.', c :: more ++ behind, rfl, .inr rfl⟩
      | nil => exact (filled.elim (absurd rfl) (absurd rfl))
  have noLetter : c.isAlpha = false := by
    obtain digit | rfl := first
    · rw [← Bool.not_eq_true]
      intro letter
      have start : isIdentifierStart c = true := by rw [isIdentifierStart, letter, Bool.true_or, Bool.true_or]
      rw [isDigit_iff] at digit
      rw [isIdentifierStart_iff] at start
      omega
    · rfl
  have unsigned : Number.readSign (c :: more) = (false, c :: more) := by
    rw [Number.readSign.eq_def]
    split
    next same => cases same; exact absurd first (by decide)
    next same => cases same; exact absurd first (by decide)
    next => rfl
  have noWord {word : List Char} (letter : word.head?.any Char.isAlpha = true) : (c :: more).map Char.toLower ≠ word := by
    intro same
    rw [← same, List.map_cons, List.head?_cons, Option.any_some, Char.isAlpha_toLower_eq_isAlpha, noLetter] at letter
    exact Bool.false_ne_true letter
  rw [Number.read?, String.toList_ofList, chars, unsigned]
  dsimp only
  rw [if_neg, if_neg (noWord rfl), ← chars, decimal]
  rintro (inf | infinity)
  · exact noWord rfl inf
  · exact noWord rfl infinity

theorem drop_takeWhile (p : Char → Bool) (chars : List Char) : chars.drop (chars.takeWhile p).length = chars.dropWhile p := by
  have dropped : (chars.takeWhile p ++ chars.dropWhile p).drop (chars.takeWhile p).length = chars.dropWhile p := List.drop_left
  rwa [List.takeWhile_append_dropWhile] at dropped

theorem all_takeWhile (p : Char → Bool) (chars : List Char) : ∀ c ∈ chars.takeWhile p, p c = true := by
  intro c member
  exact List.mem_takeWhile_imp member

/-- A fraction at the front of what is left. -/
theorem fraction_spec (reaches : Reaches text byte chars) :
    ∃ digits left, chars = Number.pointed digits ++ left ∧ (∀ c ∈ digits, c.isDigit = true) ∧
      (fractionDigits chars).getD [] = digits ∧
      ((fractionDigits chars).elim 0 fun digits => digits.length + 1) = (Number.pointed digits).length ∧
      ((fractionDigits chars).isSome = true → digits ≠ []) ∧
      (if charAt text byte = '.' ∧ (charAt text (byte + 1)).isDigit = true then skipWhile text Char.isDigit (advance text byte) else byte) =
        byte + byteSize (Number.pointed digits) := by
  by_cases point : charAt text byte = '.' ∧ (charAt text (byte + 1)).isDigit = true
  · obtain ⟨isPoint, isDigit⟩ := point
    cases chars with
    | nil => exact absurd (charAt_nil reaches ▸ isPoint) (by decide)
    | cons c rest =>
      rw [charAt_cons reaches] at isPoint
      subst isPoint
      have behind : Reaches text (byte + 1) rest := reaches.tail
      cases rest with
      | nil => exact absurd (charAt_nil behind ▸ isDigit) (by decide)
      | cons d more =>
        rw [charAt_cons behind] at isDigit
        have found : fractionDigits ('.' :: d :: more) = some ((d :: more).takeWhile Char.isDigit) := if_pos isDigit
        have filled : ((d :: more).takeWhile Char.isDigit).isEmpty = false := by rw [List.takeWhile_cons_of_pos isDigit]; rfl
        have stands : Number.pointed ((d :: more).takeWhile Char.isDigit) = '.' :: (d :: more).takeWhile Char.isDigit := by
          rw [Number.pointed, filled]
          rfl
        refine ⟨(d :: more).takeWhile Char.isDigit, (d :: more).dropWhile Char.isDigit, ?_, all_takeWhile _ _, ?_, ?_, ?_, ?_⟩
        · rw [stands, List.cons_append, List.takeWhile_append_dropWhile]
        · rw [found, Option.getD_some]
        · rw [found, stands, Option.elim_some, List.length_cons]
        · intro _ empty
          rw [empty] at filled
          exact Bool.false_ne_true filled.symm
        · rw [if_pos ⟨charAt_cons reaches, by rwa [charAt_cons behind]⟩, advance_cons reaches, stands]
          show skipWhile text Char.isDigit (byte + 1) = byte + (1 + byteSize ((d :: more).takeWhile Char.isDigit))
          rw [skipWhile_eq _ behind, Nat.add_assoc]
  · have missing : fractionDigits chars = none := by
      rw [fractionDigits.eq_def]
      split
      next c rest =>
        rw [if_neg]
        intro isDigit
        exact point ⟨charAt_cons reaches, by rwa [charAt_cons (show Reaches text (byte + 1) (c :: rest) from reaches.tail)]⟩
      next => rfl
    refine ⟨[], chars, rfl, List.forall_mem_nil _, ?_, ?_, ?_, ?_⟩
    · rw [missing, Option.getD_none]
    · rw [missing]
      rfl
    · intro found
      rw [missing] at found
      exact absurd found Bool.false_ne_true
    · rw [if_neg point]
      rfl

/-- A sign at the front of what is left. -/
theorem sign_spec (reaches : Reaches text byte chars) :
    ∃ sign, chars = sign ++ (Number.readSign chars).2 ∧
      (if charAt text byte = '+' ∨ charAt text byte = '-' then advance text byte else byte) = byte + byteSize sign ∧
      ∀ digits, (∀ c ∈ digits, c.isDigit = true) → Number.readSign (sign ++ digits) = ((Number.readSign chars).1, digits) := by
  rw [Number.readSign.eq_def]
  split
  next rest =>
    refine ⟨['-'], rfl, ?_, fun _ _ => rfl⟩
    rw [charAt_cons reaches, if_pos (.inr rfl), advance_cons reaches]
    rfl
  next rest =>
    refine ⟨['+'], rfl, ?_, fun _ _ => rfl⟩
    rw [charAt_cons reaches, if_pos (.inl rfl), advance_cons reaches]
    rfl
  next noMinus noPlus =>
    refine ⟨[], rfl, ?_, ?_⟩
    · rw [if_neg]
      · rfl
      · cases chars with
        | nil =>
          rw [charAt_nil reaches]
          decide
        | cons c rest =>
          rw [charAt_cons reaches]
          intro sign
          obtain rfl | rfl := sign
          · exact noPlus rest rfl
          · exact noMinus rest rfl
    · intro digits all
      rw [Number.readSign.eq_def, List.nil_append]
      split
      next rest => exact absurd (all '-' List.mem_cons_self) (by decide)
      next rest => exact absurd (all '+' List.mem_cons_self) (by decide)
      next => rfl

theorem cutNumber_eq {whole fraction power : List Char} {exponent : Int} (wholeDigits : ∀ c ∈ whole, c.isDigit = true)
    (fractionDigits : ∀ c ∈ fraction, c.isDigit = true) (filled : whole ≠ [] ∨ fraction ≠ [])
    (ended : ∀ c ∈ power.head?, c.isDigit = false ∧ c ≠ '.') (reads : Number.readExponent? power = some exponent)
    (reaches : Reaches text start (whole ++ Number.pointed fraction ++ power ++ rest)) :
    cutNumber text start (start + byteSize (whole ++ Number.pointed fraction ++ power)) =
      cut text (.number (Number.ofDigits false whole fraction exponent)) start
        (start + byteSize (whole ++ Number.pointed fraction ++ power))
        (start + byteSize (whole ++ Number.pointed fraction ++ power)) := by
  rw [cutNumber, reaches.slice?]
  show (Number.read? _ >>= _) = _
  rw [read?_number wholeDigits fractionDigits filled ended reads]
  rfl

/-- A number without an exponent. -/
theorem scans_plain {whole fraction : List Char} (wholeDigits : ∀ c ∈ whole, c.isDigit = true)
    (fractionDigits : ∀ c ∈ fraction, c.isDigit = true)
    (filled : whole ≠ [] ∨ fraction ≠ []) (reaches : Reaches text start (whole ++ Number.pointed fraction ++ rest)) :
    Scans text start (whole ++ Number.pointed fraction ++ rest)
      (.number (Number.ofDigits false whole fraction 0), whole.length + (Number.pointed fraction).length)
      (cutNumber text start (start + byteSize whole + byteSize (Number.pointed fraction))) := by
  have some : whole ++ Number.pointed fraction ≠ [] := by
    intro empty
    obtain ⟨noWhole, noFraction⟩ := List.append_eq_nil_iff.1 empty
    obtain someWhole | someFraction := filled
    · exact someWhole noWhole
    · rw [Number.pointed, if_neg (by simpa using someFraction)] at noFraction
      exact List.cons_ne_nil _ _ noFraction
  have noPower : Reaches text start (whole ++ Number.pointed fraction ++ [] ++ rest) := by rwa [List.append_nil]
  have cutting := cutNumber_eq wholeDigits fractionDigits filled (by simp) rfl noPower
  rw [List.append_nil, byteSize_append, ← Nat.add_assoc] at cutting
  have scans := scans_cut (.number (Number.ofDigits false whole fraction 0)) reaches some
  rwa [List.length_append, byteSize_append, ← Nat.add_assoc, ← cutting] at scans

/-- A number with an exponent, or with the mark of one only. -/
theorem scans_power {whole fraction tail : List Char} {mark : Char} (wholeDigits : ∀ c ∈ whole, c.isDigit = true)
    (fractionDigits : ∀ c ∈ fraction, c.isDigit = true) (filled : whole ≠ [] ∨ fraction ≠ []) (power : mark = 'e' ∨ mark = 'E')
    (reaches : Reaches text start (whole ++ Number.pointed fraction ++ mark :: tail))
    (moved : byte = start + byteSize whole + byteSize (Number.pointed fraction) + mark.utf8Size)
    (digitsAt : stop = if charAt text byte = '+' ∨ charAt text byte = '-' then advance text byte else byte) :
    Scans text start (whole ++ Number.pointed fraction ++ mark :: tail)
      (if ((Number.readSign tail).2.takeWhile Char.isDigit).isEmpty = true then
        (.fault .exponent, whole.length + (Number.pointed fraction).length + 1 + (tail.length - (Number.readSign tail).2.length))
      else
        (.number (Number.ofDigits false whole fraction
          (Number.exponentValue (Number.readSign tail).1 ((Number.readSign tail).2.takeWhile Char.isDigit))),
          whole.length + (Number.pointed fraction).length + 1 + (tail.length - (Number.readSign tail).2.length) +
            ((Number.readSign tail).2.takeWhile Char.isDigit).length))
      (if (charAt text stop).isDigit = true then cutNumber text start (skipWhile text Char.isDigit stop)
      else cutFault text .exponent start stop) := by
  have behind : Reaches text byte tail := by
    have reached := reaches.add.tail
    rwa [byteSize_append, ← Nat.add_assoc, ← moved] at reached
  obtain ⟨sign, signed, isStop, reads⟩ := sign_spec behind
  rw [isStop] at digitsAt
  generalize Number.readSign tail = read at *
  obtain ⟨negative, unsigned⟩ := read
  dsimp only at signed reads ⊢
  subst signed
  have unsignedAt : Reaches text stop unsigned := digitsAt ▸ behind.add
  have signWidth : (sign ++ unsigned).length - unsigned.length = sign.length := by
    rw [List.length_append]
    omega
  have first : (unsigned.takeWhile Char.isDigit).isEmpty = !(charAt text stop).isDigit := by
    cases unsigned with
    | nil =>
      rw [charAt_nil unsignedAt]
      rfl
    | cons c rest =>
      rw [charAt_cons unsignedAt, List.takeWhile_cons]
      cases c.isDigit <;> rfl
  rw [first, signWidth]
  cases isDigit : (charAt text stop).isDigit with
  | false =>
    have shape : whole ++ Number.pointed fraction ++ mark :: (sign ++ unsigned) =
        (whole ++ Number.pointed fraction ++ mark :: sign) ++ unsigned := by
      rw [List.append_assoc _ (mark :: sign), List.cons_append]
    have width : whole.length + (Number.pointed fraction).length + 1 + sign.length =
        (whole ++ Number.pointed fraction ++ mark :: sign).length := by
      simp only [List.length_append, List.length_cons]
      omega
    have ends : (whole ++ Number.pointed fraction ++ mark :: (sign ++ unsigned)).drop
        (whole.length + (Number.pointed fraction).length + 1 + sign.length) = unsigned := by
      rw [shape, width, List.drop_left]
    have positive := Char.utf8Size_pos mark
    exact scans_fault .exponent reaches (.inl (by rwa [ends])) (by omega)
  | true =>
    rw [isDigit] at first
    have shape : whole ++ Number.pointed fraction ++ mark :: (sign ++ unsigned) =
        (whole ++ Number.pointed fraction ++ mark :: (sign ++ unsigned.takeWhile Char.isDigit)) ++ unsigned.dropWhile Char.isDigit := by
      rw [List.append_assoc _ (mark :: _), List.cons_append, List.append_assoc sign, List.takeWhile_append_dropWhile]
    have ended : ∀ c ∈ (mark :: (sign ++ unsigned.takeWhile Char.isDigit)).head?, c.isDigit = false ∧ c ≠ '.' := by
      intro c member
      cases member
      obtain rfl | rfl := power <;> decide
    have exponent : Number.readExponent? (mark :: (sign ++ unsigned.takeWhile Char.isDigit)) =
        some (Number.exponentValue negative (unsigned.takeWhile Char.isDigit)) := by
      have marks : (mark == 'e' || mark == 'E') = true := by simpa using power
      have all : (unsigned.takeWhile Char.isDigit).all Char.isDigit = true := List.all_eq_true.2 (all_takeWhile _ _)
      rw [Number.readExponent?, reads _ (all_takeWhile _ _)]
      simp only [marks, first, all]
      rfl
    rw [shape] at reaches ⊢
    have isStop : skipWhile text Char.isDigit stop =
        start + byteSize (whole ++ Number.pointed fraction ++ mark :: (sign ++ unsigned.takeWhile Char.isDigit)) := by
      rw [skipWhile_eq _ unsignedAt]
      exact (skipped _ unsignedAt).unique reaches.add
    have scans := scans_cut (.number (Number.ofDigits false whole fraction
      (Number.exponentValue negative (unsigned.takeWhile Char.isDigit))))
      reaches (by simp)
    have width : (whole ++ Number.pointed fraction ++ mark :: (sign ++ unsigned.takeWhile Char.isDigit)).length =
        whole.length + (Number.pointed fraction).length + 1 + sign.length + (unsigned.takeWhile Char.isDigit).length := by
      simp only [List.length_append, List.length_cons]
      omega
    rw [width, ← cutNumber_eq wholeDigits fractionDigits filled ended exponent reaches, ← isStop] at scans
    exact scans

theorem scans_number (reaches : Reaches text start chars)
    (starts : chars.takeWhile Char.isDigit ≠ [] ∨ (fractionDigits (chars.dropWhile Char.isDigit)).isSome = true) :
    Scans text start chars (Expression.scanNumber chars) (scanNumber text start) := by
  obtain ⟨fraction, left, shape, digits, isFraction, width, someDigits, index⟩ := fraction_spec (skipped Char.isDigit reaches)
  have filled : chars.takeWhile Char.isDigit ≠ [] ∨ fraction ≠ [] := starts.imp_right someDigits
  have whole := all_takeWhile Char.isDigit chars
  have split : chars = chars.takeWhile Char.isDigit ++ Number.pointed fraction ++ left := by
    rw [List.append_assoc, ← shape, List.takeWhile_append_dropWhile]
  have dropped : chars.drop ((chars.takeWhile Char.isDigit).length + (Number.pointed fraction).length) = left := by
    rw [← List.drop_drop, drop_takeWhile, shape, List.drop_left]
  simp only [Expression.scanNumber, drop_takeWhile, isFraction, width, dropped]
  simp only [scanNumber, skipWhile_eq _ reaches, index]
  generalize chars.takeWhile Char.isDigit = before at *
  subst split
  have plain := scans_plain whole digits filled reaches
  have arrived : Reaches text (start + byteSize before + byteSize (Number.pointed fraction)) left := by
    have reached := reaches.add
    rwa [byteSize_append, ← Nat.add_assoc] at reached
  cases left with
  | nil =>
    rw [charAt_nil arrived, if_neg (by decide)]
    exact plain
  | cons mark tail =>
    rw [charAt_cons arrived]
    dsimp only
    by_cases power : mark = 'e' ∨ mark = 'E'
    · rw [if_pos power, if_pos power, advance_cons arrived]
      exact scans_power whole digits filled power reaches rfl rfl
    · rw [if_neg power, if_neg power]
      exact plain

/-! Strings. -/

theorem skipHex_eq (count : Nat) (reaches : Reaches text byte rest) :
    skipHex text count byte =
      (decide (((rest.take count).takeWhile isHexDigit).length = count), byte + byteSize ((rest.take count).takeWhile isHexDigit)) := by
  induction count generalizing byte rest with
  | zero => rw [skipHex]; rfl
  | succ count ih =>
    rw [skipHex]
    cases rest with
    | nil =>
      rw [charAt_nil reaches]
      rfl
    | cons c rest =>
      rw [charAt_cons reaches, advance_cons reaches, List.take_succ_cons, ih reaches.tail]
      cases hex : isHexDigit c with
      | true =>
        rw [List.takeWhile_cons_of_pos hex, List.length_cons, byteSize, Nat.add_assoc]
        simp
      | false =>
        rw [List.takeWhile_cons_of_neg (by simp [hex])]
        simp [byteSize]

theorem charOfHex?_eq (a b c d : Char) : charOfHex? [a, b, c, d] = charOfCode? a b c d := by
  simp [charOfHex?, charOfCode?]

/-- What the scanner makes of the characters of a string. -/
def ScansQuoted (text : List Char) (byte : Nat) (chars : List Char) (scan : QuotedScan)
    (result : Option (Except TokenFault (List Char) × Nat)) : Prop :=
  ∃ stop, result = some (scan.value, stop) ∧ byte ≤ stop ∧ Behind text stop (chars.drop scan.width) ∧
    (byteSize text < stop → ∃ cause, scan.value = .error cause)

theorem ScansQuoted.cons {scan : QuotedScan} {result : Option (Except TokenFault (List Char) × Nat)} (c : Char)
    (scans : ScansQuoted text stop rest scan result) (le : byte ≤ stop) (width : Nat) (shape : chars.drop width = rest) :
    ScansQuoted text byte chars (scan.cons c width) (result.map (consQuoted c)) := by
  obtain ⟨last, rfl, later, behind, faulty⟩ := scans
  refine ⟨last, rfl, Nat.le_trans le later, ?_, fun past => ?_⟩
  · rwa [QuotedScan.cons, Nat.add_comm, ← List.drop_drop, shape]
  · obtain ⟨cause, isFault⟩ := faulty past
    exact ⟨cause, by rw [QuotedScan.cons, isFault]; rfl⟩

theorem scanQuoted_past (quote : Char) (past : byteSize text ≤ byte) : scanQuoted text quote byte = some (.error .unterminated, byte) := by
  rw [scanQuoted, if_neg (by omega)]

theorem scanQuoted_escape {c quote : Char} (other : quote ≠ '\\') (reaches : Reaches text byte ('\\' :: rest))
    (escaped : scanEscape text (byte + 1) = some (some c, stop)) (later : byte < stop) :
    scanQuoted text quote byte = (scanQuoted text quote stop).map (consQuoted c) := by
  rw [scanQuoted, if_pos reaches.lt_size, charAt_cons reaches, if_neg (Ne.symm other), if_pos rfl, advance_cons reaches]
  rw [show byte + ('\\').utf8Size = byte + 1 from rfl, escaped]
  exact if_pos later

theorem scanQuoted_broken {quote : Char} (other : quote ≠ '\\') (reaches : Reaches text byte ('\\' :: rest))
    (escaped : scanEscape text (byte + 1) = some (none, stop)) : scanQuoted text quote byte = some (.error .unicode, stop) := by
  rw [scanQuoted, if_pos reaches.lt_size, charAt_cons reaches, if_neg (Ne.symm other), if_pos rfl, advance_cons reaches]
  rw [show byte + ('\\').utf8Size = byte + 1 from rfl, escaped]

/-- The digits of a code, as many as there are. -/
def codeDigits (rest : List Char) : List Char := (rest.take 4).takeWhile isHexDigit

theorem reaches_codeDigits (reaches : Reaches text byte rest) :
    Reaches text byte (codeDigits rest ++ rest.drop (codeDigits rest).length) := by
  have start : codeDigits rest = rest.take (codeDigits rest).length := by
    rw [codeDigits]
    exact List.prefix_iff_eq_take.1 ((List.takeWhile_prefix _).trans (List.take_prefix 4 rest))
  have whole := List.take_append_drop (codeDigits rest).length rest
  rw [← start] at whole
  rwa [whole]

theorem scanEscape_code (reaches : Reaches text byte ('u' :: rest)) :
    scanEscape text byte = some (if (codeDigits rest).length = 4 then charOfHex? (codeDigits rest) else none,
      byte + 1 + byteSize (codeDigits rest)) := by
  have behind : Reaches text (byte + 1) rest := reaches.tail
  have size : advance text byte = byte + 1 := advance_cons reaches
  rw [scanEscape, charAt_cons reaches, if_pos rfl, size, skipHex_eq 4 behind]
  show (if decide ((codeDigits rest).length = 4) = true then _ else _) = _
  by_cases four : (codeDigits rest).length = 4
  · rw [if_pos four, if_pos (decide_eq_true four)]
    show (slice? (byte + 1) (byte + 1 + byteSize (codeDigits rest)) text >>= _) = _
    rw [(reaches_codeDigits behind).slice?]
    rfl
  · rw [if_neg four, if_neg (by simpa using four)]
    rfl

theorem scansQuoted_broken {quote : Char} (other : quote ≠ '\\') (reaches : Reaches text byte ('\\' :: 'u' :: rest))
    (noCode : (if (codeDigits rest).length = 4 then charOfHex? (codeDigits rest) else none) = none) :
    ScansQuoted text byte ('\\' :: 'u' :: rest) ⟨.error .unicode, 2 + (codeDigits rest).length⟩ (scanQuoted text quote byte) := by
  have behind : Reaches text (byte + 1) ('u' :: rest) := reaches.tail
  have escaped := scanEscape_code behind
  rw [noCode] at escaped
  refine ⟨byte + 1 + 1 + byteSize (codeDigits rest), scanQuoted_broken other reaches escaped, by omega, .inl ?_, fun _ => ⟨_, rfl⟩⟩
  rw [← List.drop_drop]
  exact (reaches_codeDigits (show Reaches text (byte + 1 + 1) rest from behind.tail)).add

theorem codeDigits_hex {a b c d : Char} (hex : [a, b, c, d].all isHexDigit = true) :
    codeDigits (a :: b :: c :: d :: rest) = [a, b, c, d] := by
  rw [codeDigits]
  exact List.takeWhile_eq_self_iff.2 (List.all_eq_true.1 hex)

theorem scansQuoted (quote : Char) (reaches : Reaches text byte chars) :
    ScansQuoted text byte chars (Expression.scanQuoted quote chars) (scanQuoted text quote byte) := by
  fun_induction Expression.scanQuoted quote chars generalizing byte with
  | case1 =>
    have size := reaches.size
    rw [scanQuoted_past quote (by simp only [byteSize] at size; omega)]
    exact ⟨byte, rfl, Nat.le_refl byte, .inl reaches, fun _ => ⟨_, rfl⟩⟩
  | case2 rest =>
    have size := reaches.tail.size
    refine ⟨byte + quote.utf8Size, ?_, Nat.le_add_right .., .inl reaches.tail, fun past => by omega⟩
    rw [scanQuoted, if_pos reaches.lt_size, charAt_cons reaches, if_pos rfl, advance_cons reaches]
  | case3 other =>
    have ended : Reaches text (byte + 1) [] := reaches.tail
    have size := ended.size
    have escaped : scanEscape text (byte + 1) = some (some '\x00', byte + 1 + 1) := by
      rw [scanEscape, advance, charAt_nil ended, if_neg (by decide)]
      rfl
    rw [byteSize] at size
    rw [scanQuoted_escape (Ne.symm other) reaches escaped (by omega), scanQuoted_past quote (by omega)]
    exact ⟨byte + 1 + 1, rfl, by omega, .inr ⟨by omega, rfl⟩, fun _ => ⟨_, rfl⟩⟩
  | case4 a b c d rest hex value found other ih =>
    have behind : Reaches text (byte + 1) ('u' :: a :: b :: c :: d :: rest) := reaches.tail
    have escaped := scanEscape_code behind
    rw [codeDigits_hex hex, charOfHex?_eq, found] at escaped
    rw [scanQuoted_escape (Ne.symm other) reaches escaped (by omega)]
    have further : Reaches text (byte + 1 + 1 + byteSize [a, b, c, d]) rest :=
      Reaches.add (show Reaches text (byte + 1 + 1) ([a, b, c, d] ++ rest) from behind.tail)
    exact (ih further).cons value (by omega) 6 rfl
  | case5 a b c d rest hex missing other =>
    have broken := scansQuoted_broken (Ne.symm other) reaches (by rw [codeDigits_hex hex, charOfHex?_eq, missing]; rfl)
    rwa [codeDigits_hex hex] at broken
  | case6 a b c d rest noHex other =>
    have digits : codeDigits (a :: b :: c :: d :: rest) = [a, b, c, d].takeWhile isHexDigit := rfl
    refine scansQuoted_broken (Ne.symm other) reaches (if_neg ?_)
    intro four
    refine noHex (List.all_eq_true.2 (List.takeWhile_eq_self_iff.1 ?_))
    exact (List.takeWhile_prefix isHexDigit).eq_of_length (digits ▸ four)
  | case7 rest short other =>
    have few : rest.length < 4 := by
      obtain _ | ⟨a, _ | ⟨b, _ | ⟨c, _ | ⟨d, more⟩⟩⟩⟩ := rest
      case cons.cons.cons.cons => exact (short a b c d more rfl).elim
      all_goals simp
    have digits : codeDigits rest = rest.takeWhile isHexDigit := by rw [codeDigits, List.take_of_length_le (by omega)]
    rw [← digits]
    refine scansQuoted_broken (Ne.symm other) reaches (if_neg ?_)
    have fewer := (List.takeWhile_prefix (l := rest) isHexDigit).length_le
    rw [digits]
    omega
  | case8 e rest noCode other ih =>
    have behind : Reaches text (byte + 1) (e :: rest) := reaches.tail
    have escaped : scanEscape text (byte + 1) = some (some (unescape e), byte + 1 + e.utf8Size) := by
      rw [scanEscape, charAt_cons behind, if_neg noCode, advance_cons behind]
    rw [scanQuoted_escape (Ne.symm other) reaches escaped (by omega)]
    exact (ih behind.tail).cons (unescape e) (by omega) 2 rfl
  | case9 c rest noQuote noEscape ih =>
    rw [scanQuoted, if_pos reaches.lt_size, charAt_cons reaches, if_neg noQuote, if_neg noEscape, advance_cons reaches]
    exact (ih reaches.tail).cons c (Nat.le_add_right ..) 1 rfl

theorem scans_string {quote : Char} (reaches : Reaches text start (quote :: rest)) :
    Scans text start (quote :: rest)
      (match (Expression.scanQuoted quote rest).value with
      | .ok value => (.string (.ofList value), (Expression.scanQuoted quote rest).width + 1)
      | .error cause => (.fault cause, (Expression.scanQuoted quote rest).width + 1))
      (scanString text start) := by
  obtain ⟨stop, found, le, behind, faulty⟩ := scansQuoted quote reaches.tail
  generalize Expression.scanQuoted quote rest = scan at *
  obtain ⟨value, width⟩ := scan
  have later : start < stop := Nat.lt_of_lt_of_le (Nat.lt_add_of_pos_right (Char.utf8Size_pos quote)) le
  rw [scanString, charAt_cons reaches, advance_cons reaches, found]
  cases value with
  | ok value =>
    have reached : Reaches text stop (rest.drop width) := by
      obtain reached | ⟨past, _⟩ := behind
      · exact reached
      · obtain ⟨cause, isFault⟩ := faulty past
        cases isFault
    exact scans_upto (.string (.ofList value)) reaches (show Reaches text stop ((quote :: rest).drop (width + 1)) from reached) later
  | error cause => exact scans_fault cause reaches (show Behind text stop ((quote :: rest).drop (width + 1)) from behind) later

/-! Operators. -/

theorem scans_operator {c : Char} (reaches : Reaches text start (c :: rest)) :
    Scans text start (c :: rest) (Expression.scanOperator c rest) (scanOperator text start) := by
  have same : (fun symbol => startsWith (c :: rest) symbol && !(symbol == "?." && (charAt text (start + 2)).isDigit)) =
      isOperatorAt (c :: rest) := by
    funext symbol
    rw [isOperatorAt]
    cases starts : startsWith (c :: rest) symbol with
    | false => rfl
    | true =>
      by_cases optional : symbol = "?."
      · subst optional
        obtain ⟨more, shape⟩ := List.isPrefixOf_iff_prefix.1 starts
        rw [← shape] at reaches ⊢
        have behind : Reaches text (start + 2) more := reaches.add
        rw [← head?_eq_charAt (show Char.isDigit '\x00' = false from rfl) behind]
        rfl
      · rw [beq_eq_false_iff_ne.2 optional, Bool.false_and, Bool.false_and]
  rw [scanOperator, Expression.scanOperator, reaches.fromByte?]
  simp only [Option.bind_eq_bind, Option.bind_some, same]
  cases found : operators.find? (isOperatorAt (c :: rest)) with
  | some symbol =>
    have holds := List.find?_some found
    rw [isOperatorAt, Bool.and_eq_true] at holds
    obtain ⟨more, shape⟩ := List.isPrefixOf_iff_prefix.1 holds.1
    have spelled : operators.all (fun symbol => !symbol.toList.isEmpty) = true := by decide
    have filled : symbol.toList ≠ [] := by
      have some := List.all_eq_true.1 spelled symbol (List.mem_of_find?_eq_some found)
      simpa using some
    rw [← shape] at reaches ⊢
    dsimp only
    rw [← byteSize_toList, ← String.length_toList]
    exact scans_cut (.operator symbol) reaches filled
  | none =>
    rw [charAt_cons reaches, advance_cons reaches]
    exact scans_fault (.character c) reaches (.inl reaches.tail) (Nat.lt_add_of_pos_right (Char.utf8Size_pos c))

theorem scans_mark {c : Char} (reaches : Reaches text start (c :: rest)) :
    Scans text start (c :: rest) (.mark c, 1) (cut text (.mark c) start (advance text start) (advance text start)) := by
  have scans := scans_cut (.mark c) (show Reaches text start ([c] ++ rest) from reaches) (List.cons_ne_nil c [])
  rwa [show start + byteSize [c] = advance text start from (advance_cons reaches).symm] at scans

theorem scans_lexeme {c : Char} (reaches : Reaches text start (c :: rest)) :
    Scans text start (c :: rest) (scanLexeme c rest) (scan text start) := by
  have next : (charAt text (start + 1)).isDigit = rest.head?.any Char.isDigit ∨ c ≠ '.' := by
    by_cases point : c = '.'
    · subst point
      exact .inl (head?_eq_charAt rfl (show Reaches text (start + 1) rest from reaches.tail)).symm
    · exact .inr point
  have begins : (c.isDigit || (c == '.' && (charAt text (start + 1)).isDigit)) = startsNumber c rest := by
    rw [startsNumber]
    obtain same | other := next
    · rw [same]
    · rw [beq_eq_false_iff_ne.2 other, Bool.false_and, Bool.false_and]
  rw [scan, scanLexeme, charAt_cons reaches, begins]
  dsimp only
  split
  next => exact scans_word reaches
  next =>
  split
  next number =>
    apply scans_number reaches
    rw [startsNumber, Bool.or_eq_true, Bool.and_eq_true, beq_iff_eq] at number
    obtain digit | ⟨rfl, digit⟩ := number
    · rw [List.takeWhile_cons_of_pos digit]
      exact .inl (List.cons_ne_nil _ _)
    · obtain ⟨d, member, isDigit⟩ := (Option.any_eq_true ..).1 digit
      obtain ⟨more, rfl⟩ := List.head?_eq_some_iff.1 member
      refine .inr ?_
      rw [List.dropWhile_cons_of_neg (by decide), fractionDigits, if_pos isDigit]
      rfl
  next =>
  split
  next => exact scans_mark reaches
  next =>
  split
  next => exact scans_string reaches
  next => exact scans_operator reaches

/-! All tokens. -/

theorem tokensFrom_past (past : byteSize text ≤ byte) : tokensFrom text byte = some [] := by
  have steps := le_skipWhile text isBlank byte
  rw [tokensFrom]
  exact if_neg (by omega)

theorem tokensFrom_blank {c : Char} (blank : isBlank c = true) (reaches : Reaches text byte (c :: rest)) :
    tokensFrom text byte = tokensFrom text (byte + c.utf8Size) := by
  have same : skipWhile text isBlank byte = skipWhile text isBlank (byte + c.utf8Size) := by
    rw [skipWhile, charAt_cons reaches, advance_cons reaches, if_pos ⟨reaches.lt_size, blank⟩]
  rw [tokensFrom.eq_def text byte, tokensFrom.eq_def text (byte + c.utf8Size), same]

theorem tokensFrom_visible {c : Char} (visible : isBlank c = false) (reaches : Reaches text byte (c :: rest)) {token : Token}
    (scanned : scan text byte = some (token, stop)) (later : byte < stop) :
    tokensFrom text byte = (tokensFrom text stop).map (token :: ·) := by
  have here : skipWhile text isBlank byte = byte := by
    rw [skipWhile, charAt_cons reaches, if_neg]
    intro more
    rw [visible] at more
    exact Bool.false_ne_true more.2
  rw [tokensFrom]
  simp only [here, if_pos reaches.lt_size, scanned, if_pos later]

/-- The scanner cuts the text into the tokens that its characters are cut into. -/
theorem tokensFrom_eq (reaches : Reaches text byte rest) : tokensFrom text byte = some (tokens byte rest) := by
  fun_induction tokens byte rest with
  | case1 byte =>
    have size := reaches.size
    rw [byteSize] at size
    exact tokensFrom_past (by omega)
  | case2 byte c rest blank ih => rw [tokensFrom_blank blank reaches, ih reaches.tail]
  | case3 byte c rest visible lexeme width scanned token ih =>
    obtain ⟨stop, found, later, behind⟩ := scans_lexeme reaches
    rw [scanned] at found behind
    dsimp only at found behind
    have wide : 0 < width := by
      apply Nat.pos_of_ne_zero
      intro empty
      rw [empty, List.drop_zero] at behind
      obtain reached | ⟨_, ended⟩ := behind
      · exact absurd (reaches.unique reached) (Nat.ne_of_lt later)
      · cases ended
    obtain ⟨width, rfl⟩ := Nat.exists_eq_add_of_le' wide
    have isToken : (⟨lexeme, byte, (c :: rest).take (width + 1)⟩ : Token) = token := rfl
    rw [isToken] at found
    rw [tokensFrom_visible (by simpa using visible) reaches found later]
    obtain reached | ⟨past, ended⟩ := behind
    · have isStop : token.stop = stop := (reaches.drop (width + 1)).unique reached
      rw [← isStop] at reached ⊢
      rw [ih reached]
      rfl
    · have noMore : rest.drop (width + 1 - 1) = [] := ended
      rw [tokensFrom_past (Nat.le_of_lt past), noMore, tokens]
      rfl

end Agreement

end ReactiveMarkup.Bytewise
