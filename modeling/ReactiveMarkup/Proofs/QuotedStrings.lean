import ReactiveMarkup.Proofs.BytewiseLexing

/-! Strings survive quoting. Whatever the characters of a string, its written forms are read back
as that string: the one between single quotes and the one between double quotes. -/

namespace ReactiveMarkup.Expression

open Text

/-- How a character may be spelled between double quotes. The quote, the backslash and controls
are escaped, controls by a letter or by their code, and nothing else is. -/
inductive Escaped : Char → List Char → Prop
  | quote : Escaped '"' ['\\', '"']
  | backslash : Escaped '\\' ['\\', '\\']
  | letter {c e : Char} (pair : (c, e) ∈ [('\x08', 'b'), ('\x0c', 'f'), ('\n', 'n'), ('\r', 'r'), ('\t', 't')]) :
    Escaped c ['\\', e]
  | code {c h i : Char} (control : c < ' ') (hex : [h, i].all isHexDigit = true)
    (code : hexDigitValue h * 16 + hexDigitValue i = c.toNat) : Escaped c ['\\', 'u', '0', '0', h, i]
  | plain {c : Char} (noControl : ¬ c < ' ') (noQuote : c ≠ '"') (noBackslash : c ≠ '\\') : Escaped c [c]

theorem Escaped.stands {c : Char} {spelling : List Char} (escaped : Escaped c spelling) : Stands '"' c spelling := by
  cases escaped with
  | quote | backslash => exact stands_short (by decide) (by decide)
  | letter pair =>
    simp only [List.mem_cons, Prod.mk.injEq, List.not_mem_nil, or_false] at pair
    obtain ⟨rfl, rfl⟩ | ⟨rfl, rfl⟩ | ⟨rfl, rfl⟩ | ⟨rfl, rfl⟩ | ⟨rfl, rfl⟩ := pair <;> exact stands_short (by decide) (by decide)
  | code _ hex code => exact stands_code (by decide) hex code
  | plain _ noQuote noBackslash => exact stands_plain noQuote noBackslash

theorem escaped_double (c : Char) : Escaped c (escapeDouble c) := by
  rw [escapeDouble.eq_def]
  split
  case h_1 => exact .quote
  case h_2 => exact .backslash
  case h_8 noQuote noBackslash _ _ _ _ _ =>
    split
    next control =>
      have small : c.toNat < 32 := control
      obtain ⟨isHigh, high⟩ := hexDigit_spells (show c.toNat / 16 < 16 by omega)
      obtain ⟨isLow, low⟩ := hexDigit_spells (show c.toNat % 16 < 16 by omega)
      exact .code control (by simp [isHigh, isLow]) (by rw [high, low]; omega)
    next noControl => exact .plain noControl noQuote noBackslash
  all_goals exact .letter (by simp)

/-- A written form of a string. Wherever it stands and whatever comes behind it, it is cut off as one
token with that value, and what comes behind it is cut as it would be without it. -/
def Denotes (written : List Char) (value : String) : Prop :=
  ∀ before behind,
    let start := byteSize before
    let stop := start + byteSize written
    let token : Token := ⟨.string value, start, written⟩
    token.stop = stop ∧ tokens start (written ++ behind) = token :: tokens stop behind ∧
      Bytewise.scan (before ++ (written ++ behind)) start = some (token, stop)

variable {quote : Char} {spell : Char → List Char}

theorem tokens_spelled (isQuote : quote = '\'' ∨ quote = '"') (stands : ∀ c, Stands quote c (spell c)) (value : String) (start : Nat)
    (behind : List Char) :
    tokens start (quote :: value.toList.flatMap spell ++ [quote] ++ behind) =
      ⟨.string value, start, quote :: value.toList.flatMap spell ++ [quote]⟩ ::
        tokens (start + byteSize (quote :: value.toList.flatMap spell ++ [quote])) behind := by
  have visible : isBlank quote = false := by obtain rfl | rfl := isQuote <;> decide
  have shape : quote :: value.toList.flatMap spell ++ [quote] ++ behind = quote :: (value.toList.flatMap spell ++ quote :: behind) := by
    simp
  have front : (value.toList.flatMap spell ++ quote :: behind).take ((value.toList.flatMap spell).length + 1) =
      value.toList.flatMap spell ++ [quote] := by
    rw [List.take_length_add_append, List.take_one, List.head?_cons, Option.toList_some]
  have rest : (value.toList.flatMap spell ++ quote :: behind).drop ((value.toList.flatMap spell).length + 1) = behind := by
    rw [List.drop_length_add_append, List.drop_one, List.tail_cons]
  rw [shape, tokens, if_neg (by simp [visible]), scanLexeme_spelled isQuote stands]
  simp only [Nat.add_one_sub_one, front, rest]
  rfl

open Bytewise in
/-- The scanner that counts bytes is not past the end of the text where a string has ended. -/
theorem scan_spelled (isQuote : quote = '\'' ∨ quote = '"') (stands : ∀ c, Stands quote c (spell c)) (value : String)
    {text behind : List Char} {start : Nat} (reaches : Reaches text start (quote :: value.toList.flatMap spell ++ [quote] ++ behind)) :
    Bytewise.scan text start =
      some (⟨.string value, start, quote :: value.toList.flatMap spell ++ [quote]⟩,
        start + byteSize (quote :: value.toList.flatMap spell ++ [quote])) := by
  have opened : Reaches text start (quote :: (value.toList.flatMap spell ++ quote :: behind)) := by simpa using reaches
  have noStart : isIdentifierStart quote = false := by obtain rfl | rfl := isQuote <;> rfl
  have noDigit : quote.isDigit = false ∧ (quote == '.') = false := by obtain rfl | rfl := isQuote <;> decide
  have noMark : isMark quote = false := by obtain rfl | rfl := isQuote <;> decide
  obtain ⟨stop, scanned, _, ends, past⟩ := scansQuoted quote opened.tail
  rw [scanQuoted_spelled stands] at scanned ends past
  have isEnd : stop = start + byteSize (quote :: value.toList.flatMap spell ++ [quote]) := by
    obtain ended | ⟨isPast, _⟩ := ends
    · rw [List.drop_length_add_append, List.drop_one, List.tail_cons] at ended
      exact ended.unique reaches.add
    · obtain ⟨_, isFault⟩ := past isPast
      cases isFault
  rw [Bytewise.scan, charAt_cons opened, if_neg (by simp [noStart]), if_neg (by simp [noDigit]), if_neg (by simp [noMark]), if_pos isQuote,
    scanString, charAt_cons opened, advance_cons opened, scanned, isEnd, ← String.ofList_toList (s := value)]
  simpa using cut_eq (.string value) _ reaches

theorem denotes_spelled (isQuote : quote = '\'' ∨ quote = '"') (stands : ∀ c, Stands quote c (spell c)) (value : String) :
    Denotes (quote :: value.toList.flatMap spell ++ [quote]) value := by
  intro before behind
  exact ⟨rfl, tokens_spelled isQuote stands value _ behind, scan_spelled isQuote stands value ⟨before, rfl, rfl⟩⟩

/-- Strings survive quoting, between single quotes and between double quotes; between double quotes in
whatever way the characters are escaped that may be. -/
theorem denotes_quoted (value : String) :
    Denotes (quoteSingle value).toList value ∧ Denotes (quoteDouble value).toList value ∧
      ∀ spell : Char → List Char, (∀ c, Escaped c (spell c)) → Denotes ('"' :: value.toList.flatMap spell ++ ['"']) value := by
  have double (spell : Char → List Char) (escaped : ∀ c, Escaped c (spell c)) :
      Denotes ('"' :: value.toList.flatMap spell ++ ['"']) value := denotes_spelled (.inr rfl) (fun c => (escaped c).stands) value
  refine ⟨?_, ?_, double⟩
  · rw [quoteSingle, String.toList_ofList]
    exact denotes_spelled (.inl rfl) stands_single value
  · rw [quoteDouble, String.toList_ofList]
    exact double escapeDouble escaped_double

/-- All kinds of characters that are escaped. -/
theorem denotes_quoted_controls :
    Denotes "'\\u0000\\u0008\\n\\'\"\\\\'".toList "\x00\x08\n'\"\\" ∧
      Denotes "\"\\u0000\\b\\n'\\\"\\\\\"".toList "\x00\x08\n'\"\\" ∧
      (∀ c, Escaped c (escapeDouble c)) ∧
      Denotes ('"' :: "\x00\x08\n'\"\\".toList.flatMap escapeDouble ++ ['"']) "\x00\x08\n'\"\\" := by
  obtain ⟨single, double, other⟩ := denotes_quoted "\x00\x08\n'\"\\"
  exact ⟨single, double, escaped_double, other escapeDouble escaped_double⟩

end ReactiveMarkup.Expression
