import ReactiveMarkup.Expression.Parser
import ReactiveMarkup.Proofs.NumberText

/-! Texts that are cut into known tokens whatever comes behind them, as long as it does not
continue the last token. -/

namespace ReactiveMarkup

theorem Text.byteSize_append (a b : List Char) : Text.byteSize (a ++ b) = Text.byteSize a + Text.byteSize b := by
  induction a with
  | nil => simp [Text.byteSize]
  | cons c rest ih =>
    simp only [List.cons_append, Text.byteSize, ih]
    omega

theorem Text.splitAtByte_append (chars rest : List Char) : Text.splitAtByte (Text.byteSize chars) (chars ++ rest) = (chars, rest) := by
  induction chars with
  | nil =>
    cases rest with
    | nil => rfl
    | cons c more => rw [List.nil_append, Text.byteSize, Text.splitAtByte, if_pos (Char.utf8Size_pos c)]
  | cons c more ih =>
    have behind : c.utf8Size + Text.byteSize more - c.utf8Size = Text.byteSize more := by omega
    rw [List.cons_append, Text.byteSize, Text.splitAtByte, if_neg (by omega), behind, ih]

theorem Cursor.moveTo_append (offset : Nat) (chars rest : List Char) :
    Cursor.moveTo ⟨offset, chars ++ rest⟩ (offset + Text.byteSize chars) = ⟨offset + Text.byteSize chars, rest⟩ := by
  have distance : offset + Text.byteSize chars - offset = Text.byteSize chars := by omega
  simp only [moveTo, distance, Text.splitAtByte_append]

namespace Text

theorem eq_iff_toNat {a b : Char} : a = b ↔ a.toNat = b.toNat := by
  constructor
  · rintro rfl
    rfl
  · intro same
    exact Char.ext (UInt32.toNat_inj.1 same)

theorem isDigit_iff {c : Char} : c.isDigit = true ↔ 48 ≤ c.toNat ∧ c.toNat ≤ 57 := by
  simp [Char.isDigit, UInt32.le_iff_toNat_le]

theorem isIdentifierStart_iff {c : Char} : isIdentifierStart c = true ↔
    (65 ≤ c.toNat ∧ c.toNat ≤ 90) ∨ (97 ≤ c.toNat ∧ c.toNat ≤ 122) ∨ c.toNat = 95 ∨ c.toNat = 36 := by
  simp [isIdentifierStart, Char.isAlpha, Char.isUpper, Char.isLower, UInt32.le_iff_toNat_le, eq_iff_toNat, or_assoc]

theorem isIdentifierPart_iff {c : Char} : isIdentifierPart c = true ↔ isIdentifierStart c = true ∨ c.isDigit = true := by
  simp [isIdentifierPart]

theorem isBlank_iff {c : Char} : isBlank c = true ↔ (c.toNat ≤ 32 ∧ c.toNat ≠ 0) ∨ c.toNat = 160 := by
  simp [isBlank, Char.le_def, UInt32.le_iff_toNat_le, eq_iff_toNat]

theorem not_isBlank_of_isIdentifierPart {c : Char} (part : isIdentifierPart c = true) : isBlank c = false := by
  rw [isIdentifierPart_iff, isIdentifierStart_iff, isDigit_iff] at part
  rw [← Bool.not_eq_true, isBlank_iff]
  omega

theorem takeWhile_append_of_stop {p : Char → Bool} {chars rest : List Char} (all : ∀ c ∈ chars, p c = true)
    (stop : ∀ c tail, rest = c :: tail → p c = false) : (chars ++ rest).takeWhile p = chars := by
  rw [List.takeWhile_append_of_pos all]
  cases rest with
  | nil => simp
  | cons c tail => rw [List.takeWhile_cons_of_neg (by simp [stop c tail rfl]), List.append_nil]

end Text

namespace Expression

/-- What does not continue a word or a number. -/
def Apart (rest : List Char) : Prop :=
  ∀ c tail, rest = c :: tail →
    Text.isIdentifierPart c = false ∧ (c = '.' → tail.head?.any Char.isDigit = false)

/-- What may come behind any token. -/
def Anything (_ : List Char) : Prop := True

/-- Characters that are cut into tokens with the given lexemes. -/
def Lexes (chars : List Char) (lexemes : List Lexeme) (apart : List Char → Prop) : Prop :=
  ∀ offset rest, apart rest → ∃ cut : List Token, cut.map Token.lexeme = lexemes ∧
    tokens offset (chars ++ rest) = cut ++ tokens (offset + Text.byteSize chars) rest ∧
    ∀ last, cut.getLast? = some last → last.stop = offset + Text.byteSize chars

theorem Lexes.append {first second : List Char} {before after : List Lexeme} {apart between : List Char → Prop}
    (lexesFirst : Lexes first before between) (lexesSecond : Lexes second after apart) (nonempty : after ≠ [])
    (separate : ∀ rest, apart rest → between (second ++ rest)) : Lexes (first ++ second) (before ++ after) apart := by
  intro offset rest behind
  obtain ⟨cutFirst, lexemesFirst, tokensFirst, _⟩ := lexesFirst offset (second ++ rest) (separate rest behind)
  obtain ⟨cutSecond, lexemesSecond, tokensSecond, last⟩ := lexesSecond (offset + Text.byteSize first) rest behind
  refine ⟨cutFirst ++ cutSecond, by rw [List.map_append, lexemesFirst, lexemesSecond], ?_, ?_⟩
  · rw [List.append_assoc, tokensFirst, tokensSecond, Text.byteSize_append, List.append_assoc, Nat.add_assoc]
  · intro token isLast
    have some : cutSecond ≠ [] := by
      intro none
      rw [none] at lexemesSecond
      exact nonempty lexemesSecond.symm
    rw [List.getLast?_append_of_ne_nil _ some] at isLast
    rw [last token isLast, Text.byteSize_append, Nat.add_assoc]

theorem Lexes.weaken {chars : List Char} {lexemes : List Lexeme} {apart narrower : List Char → Prop}
    (lexes : Lexes chars lexemes apart) (implies : ∀ rest, narrower rest → apart rest) : Lexes chars lexemes narrower :=
  fun offset rest behind => lexes offset rest (implies rest behind)

/-- A blank in front changes nothing. -/
theorem Lexes.blank {chars : List Char} {lexemes : List Lexeme} {apart : List Char → Prop}
    (lexes : Lexes chars lexemes apart) : Lexes (' ' :: chars) lexemes apart := by
  intro offset rest behind
  obtain ⟨cut, same, tokensCut, last⟩ := lexes (offset + (' ').utf8Size) rest behind
  have size : Text.byteSize (' ' :: chars) = (' ').utf8Size + Text.byteSize chars := rfl
  refine ⟨cut, same, ?_, fun token isLast => by rw [last token isLast, size, Nat.add_assoc]⟩
  rw [List.cons_append, tokens, if_pos (by decide), tokensCut, size, Nat.add_assoc]

/-- One token. -/
theorem lexes_one {c : Char} {chars : List Char} {lexeme : Lexeme} {apart : List Char → Prop}
    (visible : Text.isBlank c = false)
    (scans : ∀ rest, apart rest → scanLexeme c (chars ++ rest) = (lexeme, chars.length + 1)) :
    Lexes (c :: chars) [lexeme] apart := by
  intro offset rest behind
  have width : chars.length + 1 - 1 = chars.length := by omega
  refine ⟨[⟨lexeme, offset, c :: chars⟩], rfl, ?_, ?_⟩
  · rw [List.cons_append, tokens, if_neg (by simp [visible]), scans rest behind]
    simp only [width, List.take_left', List.drop_left', List.singleton_append]
    rfl
  · intro last isLast
    cases isLast
    rfl

/-! Words. -/

theorem lexes_word {name : String} (spelled : Text.isIdentifier name = true) : Lexes name.toList [word name] Apart := by
  cases chars : name.toList with
  | nil => simp [Text.isIdentifier, chars] at spelled
  | cons first rest =>
    simp only [Text.isIdentifier, chars, Bool.and_eq_true, List.all_eq_true] at spelled
    obtain ⟨start, parts⟩ := spelled
    refine lexes_one (Text.not_isBlank_of_isIdentifierPart (Text.isIdentifierPart_iff.2 (.inl start))) fun behind apart => ?_
    have taken : (rest ++ behind).takeWhile Text.isIdentifierPart = rest :=
      Text.takeWhile_append_of_stop parts fun c tail same => (apart c tail same).1
    rw [scanLexeme, if_pos start, taken, ← chars]
    show (word (String.ofList name.toList), name.toList.length) = _
    rw [String.ofList_toList, chars, List.length_cons]

/-! Numbers. -/

private theorem fractionDigits_pointed {fraction rest : List Char} (digits : ∀ c ∈ fraction, c.isDigit = true)
    (apart : Apart rest) : fractionDigits (Number.pointed fraction ++ rest) = if fraction.isEmpty then none else some fraction := by
  cases fraction with
  | nil =>
    cases rest with
    | nil => rfl
    | cons c tail =>
      obtain ⟨_, point⟩ := apart c tail rfl
      simp only [Number.pointed, List.isEmpty_nil, if_true, List.nil_append]
      by_cases isPoint : c = '.'
      · subst isPoint
        cases tail with
        | nil => rfl
        | cons d more =>
          have noDigit : d.isDigit = false := by simpa using point rfl
          simp [fractionDigits, noDigit]
      · simp [fractionDigits, isPoint]
  | cons c tail =>
    have digit : c.isDigit = true := digits c (List.mem_cons_self ..)
    have taken : (c :: tail ++ rest).takeWhile Char.isDigit = c :: tail := by
      refine Text.takeWhile_append_of_stop digits fun d more same => ?_
      rw [← Bool.not_eq_true]
      intro isDigit
      exact absurd (apart d more same).1 (by simp [Text.isIdentifierPart, isDigit])
    simp only [Number.pointed, List.isEmpty_cons, Bool.false_eq_true, if_false, List.cons_append, fractionDigits, digit,
      if_true]
    exact congrArg some taken

theorem scanNumber_of_writes {chars whole fraction : List Char} {value : ℚ}
    (writes : Number.Writes chars whole fraction value) {rest : List Char} (apart : Apart rest) :
    scanNumber (chars ++ rest) = (.number (Number.ofDigits false whole fraction 0), chars.length) := by
  have notPart {c : Char} {tail : List Char} (same : rest = c :: tail) : c.isDigit = false ∧ c ≠ 'e' ∧ c ≠ 'E' := by
    have no := (apart c tail same).1
    refine ⟨?_, ?_, ?_⟩
    · simp only [Text.isIdentifierPart, Bool.or_eq_false_iff] at no
      exact no.2
    · rintro rfl
      exact absurd no (by decide)
    · rintro rfl
      exact absurd no (by decide)
  have taken : (chars ++ rest).takeWhile Char.isDigit = whole := by
    rw [writes.chars, List.append_assoc]
    refine Text.takeWhile_append_of_stop writes.wholeDigits fun c tail same => ?_
    cases shape : fraction with
    | nil =>
      rw [shape] at same
      exact (notPart same).1
    | cons d more =>
      rw [shape] at same
      cases same
      rfl
  have behindWhole : (chars ++ rest).drop whole.length = Number.pointed fraction ++ rest := by
    rw [writes.chars, List.append_assoc, List.drop_left]
  have width : whole.length + ((if fraction.isEmpty then none else some fraction).elim 0 fun digits => digits.length + 1) =
      chars.length := by
    rw [writes.chars, List.length_append, Number.pointed]
    cases fraction <;> simp
  have value' : (if fraction.isEmpty then none else some fraction).getD [] = fraction := by
    cases fraction <;> simp
  simp only [scanNumber, taken, behindWhole, fractionDigits_pointed writes.fractionDigits apart, width, value',
    List.drop_left]
  cases rest with
  | nil => rfl
  | cons c tail =>
    obtain ⟨_, noLower, noUpper⟩ := notPart rfl
    simp [noLower, noUpper]

theorem lexes_number {chars whole fraction : List Char} {value : ℚ} (writes : Number.Writes chars whole fraction value) :
    Lexes chars [.number (Number.ofDigits false whole fraction 0)] Apart := by
  obtain ⟨first, rest, same⟩ := List.exists_cons_of_ne_nil writes.nonempty
  have digit : first.isDigit = true := writes.wholeDigits first (by simp [same])
  have chars' : chars = first :: (rest ++ Number.pointed fraction) := by rw [writes.chars, same, List.cons_append]
  rw [chars']
  refine lexes_one (Text.not_isBlank_of_isIdentifierPart (Text.isIdentifierPart_iff.2 (.inr digit))) fun behind apart => ?_
  have noStart : Text.isIdentifierStart first = false := by
    rw [← Bool.not_eq_true, Text.isIdentifierStart_iff]
    rw [Text.isDigit_iff] at digit
    omega
  have scanned := scanNumber_of_writes writes apart
  rw [chars'] at scanned
  rw [scanLexeme, if_neg (by simp [noStart]), if_pos (by simp [startsNumber, digit])]
  exact scanned

/-! Marks and operators. -/

theorem lexes_mark {c : Char} (visible : Text.isBlank c = false) (mark : isMark c = true)
    (other : Text.isIdentifierStart c = false ∧ c.isDigit = false ∧ (c == '.') = false) :
    Lexes [c] [.mark c] Anything := by
  refine lexes_one visible fun rest _ => ?_
  obtain ⟨noStart, noDigit, noPoint⟩ := other
  rw [scanLexeme, if_neg (by simp [noStart]), if_neg (by simp [startsNumber, noDigit, noPoint]), if_pos mark]
  rfl

theorem lexes_point : Lexes ['.'] [.mark '.'] fun rest => rest.head?.any Char.isDigit = false := by
  refine lexes_one (by decide) fun rest noDigit => ?_
  rw [scanLexeme, if_neg (by decide), if_neg (by simp [startsNumber, noDigit]), if_pos (by decide)]
  rfl

/-- What starts with a blank. -/
def Spaced (rest : List Char) : Prop := ∃ tail, rest = ' ' :: tail

theorem Spaced.apart {rest : List Char} (spaced : Spaced rest) : Apart rest := by
  obtain ⟨tail, rfl⟩ := spaced
  rintro c _ ⟨rfl, rfl⟩
  exact ⟨by decide, fun point => absurd point (by decide)⟩

theorem lexes_symbol {symbol : String} {c : Char} {chars : List Char} (same : symbol.toList = c :: chars)
    (visible : Text.isBlank c = false)
    (scans : ∀ tail, scanLexeme c (chars ++ ' ' :: tail) = (.operator symbol, chars.length + 1)) :
    Lexes symbol.toList [.operator symbol] Spaced := by
  rw [same]
  refine lexes_one visible ?_
  rintro _ ⟨tail, rfl⟩
  exact scans tail

theorem lexes_binary (operator : BinaryOperator) : Lexes operator.symbol.toList [.operator operator.symbol] Spaced := by
  cases operator with
  | power => exact lexes_symbol (show "**".toList = ['*', '*'] from rfl) (by decide) fun _ => rfl
  | multiply => exact lexes_symbol (show "*".toList = ['*'] from rfl) (by decide) fun _ => rfl
  | divide => exact lexes_symbol (show "/".toList = ['/'] from rfl) (by decide) fun _ => rfl
  | modulo => exact lexes_symbol (show "%".toList = ['%'] from rfl) (by decide) fun _ => rfl
  | add => exact lexes_symbol (show "+".toList = ['+'] from rfl) (by decide) fun _ => rfl
  | subtract => exact lexes_symbol (show "-".toList = ['-'] from rfl) (by decide) fun _ => rfl
  | less => exact lexes_symbol (show "<".toList = ['<'] from rfl) (by decide) fun _ => rfl
  | lessEqual => exact lexes_symbol (show "<=".toList = ['<', '='] from rfl) (by decide) fun _ => rfl
  | greater => exact lexes_symbol (show ">".toList = ['>'] from rfl) (by decide) fun _ => rfl
  | greaterEqual => exact lexes_symbol (show ">=".toList = ['>', '='] from rfl) (by decide) fun _ => rfl
  | equal => exact lexes_symbol (show "==".toList = ['=', '='] from rfl) (by decide) fun _ => rfl
  | notEqual => exact lexes_symbol (show "!=".toList = ['!', '='] from rfl) (by decide) fun _ => rfl
  | identical => exact lexes_symbol (show "===".toList = ['=', '=', '='] from rfl) (by decide) fun _ => rfl
  | notIdentical => exact lexes_symbol (show "!==".toList = ['!', '=', '='] from rfl) (by decide) fun _ => rfl
  | and => exact lexes_symbol (show "&&".toList = ['&', '&'] from rfl) (by decide) fun _ => rfl
  | or => exact lexes_symbol (show "||".toList = ['|', '|'] from rfl) (by decide) fun _ => rfl
  | coalesce => exact lexes_symbol (show "??".toList = ['?', '?'] from rfl) (by decide) fun _ => rfl

theorem lexes_question : Lexes ['?'] [.operator "?"] Spaced :=
  lexes_symbol (show "?".toList = ['?'] from rfl) (by decide) fun _ => rfl

theorem lexes_arrow : Lexes ['=', '>'] [.operator "=>"] Spaced :=
  lexes_symbol (show "=>".toList = ['=', '>'] from rfl) (by decide) fun _ => rfl

theorem lexes_optional : Lexes ['?', '.'] [.operator "?."] fun rest => rest.head?.any Char.isDigit = false := by
  refine lexes_one (by decide) fun rest noDigit => ?_
  have found : operators.find? (isOperatorAt ('?' :: '.' :: rest)) = some "?." := by
    simp [operators, isOperatorAt, Text.startsWith, noDigit]
  rw [List.singleton_append, scanLexeme, if_neg (by decide), if_neg (by simp [startsNumber]), if_neg (by decide),
    if_neg (by decide), scanOperator, found]
  rfl

theorem lexes_minus : Lexes ['-'] [.operator "-"] Anything := lexes_one (by decide) fun _ _ => rfl

theorem lexes_plus : Lexes ['+'] [.operator "+"] Anything := lexes_one (by decide) fun _ _ => rfl

theorem lexes_not : Lexes ['!'] [.operator "!"] fun rest => ∃ c tail, rest = c :: tail ∧ c ≠ '=' := by
  refine lexes_one (by decide) ?_
  rintro _ ⟨c, tail, rfl, other⟩
  have found : operators.find? (isOperatorAt ('!' :: c :: tail)) = some "!" := by
    simp [operators, isOperatorAt, Text.startsWith, Ne.symm other]
  rw [List.nil_append, scanLexeme, if_neg (by decide), if_neg (by simp [startsNumber]), if_neg (by decide),
    if_neg (by decide), scanOperator, found]
  rfl

/-! Strings. -/

/-- A spelling between quotes that stands for one character, whatever comes behind it. -/
def Stands (quote c : Char) (spelling : List Char) : Prop :=
  ∀ rest, scanQuoted quote (spelling ++ rest) = (scanQuoted quote rest).cons c spelling.length

theorem stands_plain {quote c : Char} (other : c ≠ quote) (bare : c ≠ '\\') : Stands quote c [c] := by
  intro rest
  rw [List.singleton_append, scanQuoted.eq_def]
  simp [other, bare]

theorem stands_short {quote e : Char} (other : '\\' ≠ quote) (short : e ≠ 'u') : Stands quote (unescape e) ['\\', e] := by
  intro rest
  rw [List.cons_append, List.singleton_append, scanQuoted.eq_def]
  simp [other, short]

/-- A code of two digits is one of four with zeros in front. -/
theorem stands_code {quote c h i : Char} (other : '\\' ≠ quote) (hex : [h, i].all isHexDigit = true)
    (code : hexDigitValue h * 16 + hexDigitValue i = c.toNat) : Stands quote c ['\\', 'u', '0', '0', h, i] := by
  have digits : ['0', '0', h, i].all isHexDigit = true := by simpa [isHexDigit] using hex
  have found : charOfCode? '0' '0' h i = some c := by
    have zero : hexDigitValue '0' = 0 := rfl
    have valid : c.toNat.isValidChar := c.valid
    simp only [charOfCode?, zero, Nat.zero_mul, Nat.zero_add, code, if_pos valid, Char.ofNat_toNat]
  intro rest
  rw [List.cons_append, List.cons_append, scanQuoted.eq_def]
  simp only [List.cons_append, List.nil_append, digits, found, if_true]
  simp [other]

theorem hexDigit_spells {n : Nat} (small : n < 16) : isHexDigit (Text.hexDigit n) = true ∧ hexDigitValue (Text.hexDigit n) = n := by
  revert small
  revert n
  decide

theorem stands_escapeCode {quote c : Char} (other : '\\' ≠ quote) (control : c < ' ') : Stands quote c (Text.escapeCode c) := by
  have small : c.toNat < 32 := control
  obtain ⟨isHigh, high⟩ := hexDigit_spells (show c.toNat / 16 < 16 by omega)
  obtain ⟨isLow, low⟩ := hexDigit_spells (show c.toNat % 16 < 16 by omega)
  refine stands_code other (by simp [isHigh, isLow]) ?_
  rw [high, low]
  omega

theorem stands_single (c : Char) : Stands '\'' c (Text.escapeSingle c) := by
  rw [Text.escapeSingle.eq_def]
  split
  case h_6 noBackslash noQuote _ _ _ =>
    split
    next control => exact stands_escapeCode (by decide) control
    next => exact stands_plain noQuote noBackslash
  all_goals exact stands_short (by decide) (by decide)

/-- Characters that are spelled one by one are read back up to the closing quote. -/
theorem scanQuoted_spelled {quote : Char} {spell : Char → List Char} (stands : ∀ c, Stands quote c (spell c)) (chars rest : List Char) :
    scanQuoted quote (chars.flatMap spell ++ quote :: rest) = ⟨.ok chars, (chars.flatMap spell).length + 1⟩ := by
  induction chars with
  | nil =>
    rw [List.flatMap_nil, List.nil_append, scanQuoted.eq_def]
    simp
  | cons c more ih =>
    rw [List.flatMap_cons, List.append_assoc, stands c, ih]
    simp only [QuotedScan.cons, List.length_append]
    congr 1
    omega

theorem scanLexeme_spelled {quote : Char} {spell : Char → List Char} (isQuote : quote = '\'' ∨ quote = '"')
    (stands : ∀ c, Stands quote c (spell c)) (value : String) (rest : List Char) :
    scanLexeme quote (value.toList.flatMap spell ++ quote :: rest) = (.string value, (value.toList.flatMap spell).length + 2) := by
  have noStart : Text.isIdentifierStart quote = false := by obtain rfl | rfl := isQuote <;> rfl
  have noNumber : startsNumber quote (value.toList.flatMap spell ++ quote :: rest) = false := by obtain rfl | rfl := isQuote <;> rfl
  have noMark : isMark quote = false := by obtain rfl | rfl := isQuote <;> decide
  rw [scanLexeme, if_neg (by simp [noStart]), if_neg (by simp [noNumber]), if_neg (by simp [noMark]), if_pos isQuote,
    scanQuoted_spelled stands]
  simp

theorem lexes_string (value : String) : Lexes (Text.quoteSingle value).toList [.string value] Anything := by
  rw [Text.quoteSingle, String.toList_ofList, List.cons_append]
  refine lexes_one (by decide) fun rest _ => ?_
  rw [List.append_assoc, List.singleton_append, scanLexeme_spelled (.inl rfl) stands_single, List.length_append,
    List.length_singleton]

end Expression

end ReactiveMarkup
