import ReactiveMarkup.Proofs.Lexing

/-! The tokens of a printed expression. -/

namespace ReactiveMarkup.Expression

/-- A name that is no keyword. -/
def Named (name : String) : Prop := Text.isIdentifier name = true ∧ keywords.contains name = false

/-- A finite number without a sign. -/
def Numeric (value : Float) : Prop := Number.isFinite value = true ∧ value.toBits.toNat < Nat.pow 2 63

theorem numeric_iff {value : Float} : Numeric value ↔ ∃ bits, bits < Number.infiniteBits ∧ value = Number.signed false bits := by
  constructor
  · rintro ⟨finite, unsigned⟩
    have small := Number.toBits_lt_of_isFinite finite unsigned
    exact ⟨_, small, (Number.signed_toBits (Nat.le_of_lt small)).symm⟩
  · rintro ⟨bits, small, rfl⟩
    have top := Number.infiniteBits_eq
    refine ⟨Number.isFinite_signed small, ?_⟩
    have same : (Number.signed false bits).toBits.toNat = bits := Number.toBits_ofBits bits (Nat.le_of_lt small)
    rw [same, Nat.pow_eq]
    omega

/-- Expressions that a text can spell, up to the numbers in them. -/
inductive Formed (numbers : Float → Prop) : Expression → Prop where
  | number {value : Float} (allowed : numbers value) : Formed numbers (.literal (.number value))
  | string (value : String) : Formed numbers (.literal (.string value))
  | boolean (value : Bool) : Formed numbers (.literal (.boolean value))
  | null : Formed numbers (.literal .null)
  | undefined : Formed numbers (.literal .undefined)
  | identifier {name : String} (named : Named name) : Formed numbers (.identifier name)
  | this : Formed numbers .this
  | array {elements : List Expression} (formed : ∀ e ∈ elements, Formed numbers e) : Formed numbers (.array elements)
  | object {properties : List (Property Expression)} (formed : ∀ p ∈ properties, Formed numbers p.value)
      (shorthands : ∀ p ∈ properties, p.shorthand = true → p.value = .identifier p.key) :
      Formed numbers (.object properties)
  | member {receiver : Expression} {property : String} (optional : Bool) (formed : Formed numbers receiver)
      (spelled : Text.isIdentifier property = true) : Formed numbers (.member receiver property optional)
  | index {receiver key : Expression} (optional : Bool) (formed : Formed numbers receiver) (formedKey : Formed numbers key) :
      Formed numbers (.index receiver key optional)
  | call {callee : Expression} {arguments : List Expression} (optional : Bool) (formed : Formed numbers callee)
      (formedAll : ∀ e ∈ arguments, Formed numbers e) : Formed numbers (.call callee arguments optional)
  | unary {operand : Expression} (operator : UnaryOperator) (formed : Formed numbers operand) :
      Formed numbers (.unary operator operand)
  | binary {left right : Expression} (operator : BinaryOperator) (formedLeft : Formed numbers left)
      (formedRight : Formed numbers right) : Formed numbers (.binary operator left right)
  | conditional {test consequent alternate : Expression} (formedTest : Formed numbers test)
      (formedConsequent : Formed numbers consequent) (formedAlternate : Formed numbers alternate) :
      Formed numbers (.conditional test consequent alternate)
  | arrow {params : List String} {body : Expression} (named : ∀ name ∈ params, Named name)
      (formed : Formed numbers body) : Formed numbers (.arrow params body)

def literalLexeme : Literal → Lexeme
  | .number value => .number value
  | .string value => .string value
  | .boolean value => .keyword (if value then "true" else "false")
  | .null => .keyword "null"
  | .undefined => .keyword "undefined"

def unaryLexeme : UnaryOperator → Lexeme
  | .typeof => .keyword "typeof"
  | operator => .operator operator.symbol

def enclosedIf (condition : Bool) (lexemes : List Lexeme) : List Lexeme :=
  if condition then .mark '(' :: lexemes ++ [.mark ')'] else lexemes

def commaSeparated (parts : List (List Lexeme)) : List Lexeme := [Lexeme.mark ','].intercalate parts

def optionalLexemes (optional : Bool) : List Lexeme := if optional then [.operator "?."] else []

def keyLexeme (key : String) : Lexeme := if Text.isIdentifier key then word key else .string key

mutual
/-- What the text of an expression is cut into. -/
def lexemes : Expression → List Lexeme
  | .literal value => [literalLexeme value]
  | .identifier name => [.identifier name]
  | .this => [.keyword "this"]
  | .array elements => .mark '[' :: commaSeparated (lexemesAll elements) ++ [.mark ']']
  | .object properties => .mark '\x7b' :: commaSeparated (lexemesProperties properties) ++ [.mark '\x7d']
  | .member receiver property optional =>
    enclosedIf (rank receiver < 10) (lexemes receiver) ++
      [if optional then .operator "?." else .mark '.', word property]
  | .index receiver key optional =>
    enclosedIf (rank receiver < 10) (lexemes receiver) ++
      (optionalLexemes optional ++ .mark '[' :: lexemes key ++ [.mark ']'])
  | .call callee arguments optional =>
    enclosedIf (rank callee < 10) (lexemes callee) ++
      (optionalLexemes optional ++ .mark '(' :: commaSeparated (lexemesAll arguments) ++ [.mark ')'])
  | .unary operator operand => unaryLexeme operator :: enclosedIf (rank operand < 9) (lexemes operand)
  | .binary operator left right =>
    let own := operator.level + 1
    enclosedIf (rank left < own || (rank left == own && operator.groupsRight)) (lexemes left) ++
      .operator operator.symbol ::
        enclosedIf (rank right < own || (rank right == own && !operator.groupsRight)) (lexemes right)
  | .conditional test consequent alternate =>
    enclosedIf (rank test ≤ 1) (lexemes test) ++
      .operator "?" :: (lexemes consequent ++ .mark ':' :: lexemes alternate)
  | .arrow params body =>
    .mark '(' :: (commaSeparated (params.map fun name => [.identifier name]) ++
      .mark ')' :: .operator "=>" :: enclosedIf (isObject body) (lexemes body))

def lexemesAll : List Expression → List (List Lexeme)
  | [] => []
  | first :: rest => lexemes first :: lexemesAll rest

def lexemesProperties : List (Property Expression) → List (List Lexeme)
  | [] => []
  | ⟨key, value, shorthand⟩ :: rest =>
    (if shorthand then [.identifier key] else keyLexeme key :: .mark ':' :: lexemes value) :: lexemesProperties rest
end

/-- A text cut into known tokens whose first character starts a token other than an equality. -/
structure Spells (chars : List Char) (lexemes : List Lexeme) (apart : List Char → Prop) : Prop where
  lexes : Lexes chars lexemes apart
  start : ∃ c rest, chars = c :: rest ∧ Text.isBlank c = false ∧ c ≠ '='

theorem Spells.nonempty {chars : List Char} {lexemes : List Lexeme} (spells : Spells chars lexemes Apart) : lexemes ≠ [] := by
  rintro rfl
  obtain ⟨c, rest, rfl, visible, _⟩ := spells.start
  obtain ⟨cut, none, same, _⟩ := spells.lexes 0 [] (by rintro _ _ ⟨⟩)
  rw [List.map_eq_nil_iff] at none
  simp [none, tokens, visible] at same

theorem apart_cons {c : Char} {rest : List Char} (other : Text.isIdentifierPart c = false) (noPoint : c ≠ '.') :
    Apart (c :: rest) := by
  rintro _ _ ⟨rfl, rfl⟩
  exact ⟨other, fun point => absurd point noPoint⟩

theorem spells_of_lexes {c : Char} {chars : List Char} {lexemes : List Lexeme} {apart : List Char → Prop}
    (lexes : Lexes (c :: chars) lexemes apart) (visible : Text.isBlank c = false) (noEquality : c ≠ '=') :
    Spells (c :: chars) lexemes apart :=
  ⟨lexes, c, chars, rfl, visible, noEquality⟩

theorem Spells.weaken {chars : List Char} {lexemes : List Lexeme} (spells : Spells chars lexemes Anything) :
    Spells chars lexemes Apart :=
  ⟨spells.lexes.weaken fun _ _ => trivial, spells.start⟩

/-- A text in front of one whose first character continues no token. -/
theorem Spells.append {first second : List Char} {c : Char} {before after : List Lexeme} {apart : List Char → Prop}
    (spells : Spells first before Apart) (lexes : Lexes (c :: second) after apart) (nonempty : after ≠ [])
    (other : Text.isIdentifierPart c = false) (noPoint : c ≠ '.') :
    Spells (first ++ c :: second) (before ++ after) apart := by
  obtain ⟨d, rest, same, visible, noEquality⟩ := spells.start
  refine ⟨spells.lexes.append lexes nonempty fun behind _ => apart_cons other noPoint, d, rest ++ c :: second, ?_, visible, noEquality⟩
  rw [same, List.cons_append]

theorem Lexes.afterMark {c : Char} {chars : List Char} {lexemes : List Lexeme} {apart : List Char → Prop}
    (lexes : Lexes chars lexemes apart) (nonempty : lexemes ≠ []) (isMark : Lexes [c] [.mark c] Anything) :
    Lexes (c :: chars) (.mark c :: lexemes) apart :=
  isMark.append lexes nonempty fun _ _ => trivial

theorem lexes_open : Lexes ['('] [.mark '('] Anything := lexes_mark (by decide) (by decide) (by decide)

theorem lexes_close : Lexes [')'] [.mark ')'] Anything := lexes_mark (by decide) (by decide) (by decide)

theorem lexes_comma : Lexes [','] [.mark ','] Anything := lexes_mark (by decide) (by decide) (by decide)

theorem lexes_colon : Lexes [':'] [.mark ':'] Anything := lexes_mark (by decide) (by decide) (by decide)

theorem lexes_openBracket : Lexes ['['] [.mark '['] Anything := lexes_mark (by decide) (by decide) (by decide)

theorem lexes_closeBracket : Lexes [']'] [.mark ']'] Anything := lexes_mark (by decide) (by decide) (by decide)

theorem lexes_openBrace : Lexes ['\x7b'] [.mark '\x7b'] Anything := lexes_mark (by decide) (by decide) (by decide)

theorem lexes_closeBrace : Lexes ['\x7d'] [.mark '\x7d'] Anything := lexes_mark (by decide) (by decide) (by decide)

/-- Texts separated by commas in front of a closing text. -/
theorem lexes_separated {α : Type} {text : α → String} {spelling : α → List Lexeme} {closing : Char} {chars : List Char}
    {after : List Lexeme} {apart : List Char → Prop} (items : List α)
    (spells : ∀ item ∈ items, Spells (text item).toList (spelling item) Apart)
    (lexes : Lexes (closing :: chars) after apart) (nonempty : after ≠ [])
    (other : Text.isIdentifierPart closing = false) (noPoint : closing ≠ '.') :
    Lexes ((", ".intercalate (items.map text)).toList ++ closing :: chars)
      (commaSeparated (items.map spelling) ++ after) apart := by
  simp only [String.toList_intercalate, commaSeparated]
  induction items with
  | nil => exact lexes
  | cons first rest ih =>
    have spellsFirst := spells first (List.mem_cons_self ..)
    have ih := ih fun item member => spells item (List.mem_cons_of_mem _ member)
    cases rest with
    | nil => simpa using (spellsFirst.append lexes nonempty other noPoint).lexes
    | cons second more =>
      simp only [List.map_cons, List.intercalate_cons_cons, List.append_assoc] at ih ⊢
      have lexesRest := ih.blank.afterMark (by simp [nonempty]) lexes_comma
      exact (spellsFirst.append lexesRest (by simp) (by decide) (by decide)).lexes

theorem Spells.enclosedIf {text : String} {lexemes : List Lexeme} (spells : Spells text.toList lexemes Apart) (condition : Bool) :
    Spells (parenthesizeIf condition text).toList (enclosedIf condition lexemes) Apart := by
  cases condition with
  | false => exact spells
  | true =>
    have inner := (spells.append lexes_close (by simp) (by decide) (by decide)).lexes.afterMark (by simp) lexes_open
    have whole : Lexes (parenthesizeIf true text).toList (Expression.enclosedIf true lexemes) Anything := by
      simpa [parenthesizeIf, Expression.enclosedIf] using inner
    refine ⟨whole.weaken fun _ _ => trivial, '(', text.toList ++ [')'], ?_, by decide, by decide⟩
    simp [parenthesizeIf]

theorem exists_start_of_isIdentifier {name : String} (spelled : Text.isIdentifier name = true) :
    ∃ c rest, name.toList = c :: rest ∧ Text.isIdentifierStart c = true := by
  cases chars : name.toList with
  | nil => simp [Text.isIdentifier, chars] at spelled
  | cons first rest =>
    simp only [Text.isIdentifier, chars, Bool.and_eq_true] at spelled
    exact ⟨first, rest, rfl, spelled.1⟩

theorem not_isDigit_of_isIdentifierStart {c : Char} (start : Text.isIdentifierStart c = true) : c.isDigit = false := by
  rw [Text.isIdentifierStart_iff] at start
  rw [← Bool.not_eq_true, Text.isDigit_iff]
  omega

theorem spells_word {name : String} (spelled : Text.isIdentifier name = true) : Spells name.toList [word name] Apart := by
  obtain ⟨c, rest, same, start⟩ := exists_start_of_isIdentifier spelled
  have visible := Text.not_isBlank_of_isIdentifierPart (Text.isIdentifierPart_iff.2 (.inl start))
  refine ⟨lexes_word spelled, c, rest, same, visible, ?_⟩
  rintro rfl
  exact absurd start (by decide)

theorem spells_name {name : String} (named : Named name) : Spells name.toList [.identifier name] Apart := by
  have spells := spells_word named.1
  rwa [word, if_neg (ne_true_of_eq_false named.2)] at spells

theorem spells_number {value : Float} (numeric : Numeric value) : Spells (numeral value).toList [.number value] Apart := by
  obtain ⟨bits, small, rfl⟩ := numeric_iff.1 numeric
  obtain ⟨whole, fraction, value, writes, same⟩ := writes_numeral small
  have lexes := lexes_number writes
  rw [same] at lexes
  obtain ⟨first, rest, shape⟩ := List.exists_cons_of_ne_nil writes.nonempty
  have digit : first.isDigit = true := writes.wholeDigits first (by simp [shape])
  have visible := Text.not_isBlank_of_isIdentifierPart (Text.isIdentifierPart_iff.2 (.inr digit))
  refine ⟨lexes, first, rest ++ Number.pointed fraction, ?_, visible, ?_⟩
  · rw [writes.chars, shape, List.cons_append]
  · rintro rfl
    exact absurd digit (by decide)

theorem spells_string (value : String) : Spells (Text.quoteSingle value).toList [.string value] Apart := by
  have quoted : (Text.quoteSingle value).toList = '\'' :: (value.toList.flatMap Text.escapeSingle ++ ['\'']) := by
    rw [Text.quoteSingle, String.toList_ofList, List.cons_append]
  exact ⟨(lexes_string value).weaken fun _ _ => trivial, _, _, quoted, by decide, by decide⟩

theorem spells_unary {text : String} {lexemes : List Lexeme} (operator : UnaryOperator)
    (spells : Spells text.toList lexemes Apart) :
    Spells (printUnary operator text).toList (unaryLexeme operator :: lexemes) Apart := by
  have signed {c : Char} {symbol : String} (sign : Lexes [c] [.operator symbol] Anything) (written : symbol.toList = [c])
      (visible : Text.isBlank c = false) (noEquality : c ≠ '=') (condition : Bool) :
      Spells (if condition then symbol ++ " " ++ text else symbol ++ text).toList (.operator symbol :: lexemes) Apart := by
    cases condition with
    | false =>
      have lexes := sign.append spells.lexes spells.nonempty fun _ _ => trivial
      simpa [written] using spells_of_lexes lexes visible noEquality
    | true =>
      have lexes := sign.append spells.lexes.blank spells.nonempty fun _ _ => trivial
      simpa [written] using spells_of_lexes lexes visible noEquality
  cases operator with
  | typeof =>
    have front : Spells "typeof".toList [.keyword "typeof"] Apart := spells_word (by decide)
    simpa [printUnary, unaryLexeme] using front.append spells.lexes.blank spells.nonempty (by decide) (by decide)
  | not =>
    obtain ⟨c, rest, same, _, noEquality⟩ := spells.start
    have lexes := lexes_not.append spells.lexes spells.nonempty fun behind _ =>
      ⟨c, rest ++ behind, by rw [same, List.cons_append], noEquality⟩
    simpa [printUnary, unaryLexeme, UnaryOperator.symbol] using spells_of_lexes lexes (by decide) (by decide)
  | minus => exact signed lexes_minus rfl (by decide) (by decide) _
  | plus => exact signed lexes_plus rfl (by decide) (by decide) _

theorem spells_key (key : String) : Spells (printKey key).toList [keyLexeme key] Apart := by
  rw [printKey, keyLexeme]
  split
  next spelled => exact spells_word spelled
  next => exact spells_string key

theorem printAll_eq_map (elements : List Expression) : printAll elements = elements.map print := by
  induction elements with
  | nil => rfl
  | cons first rest ih => rw [printAll, ih, List.map_cons]

theorem lexemesAll_eq_map (elements : List Expression) : lexemesAll elements = elements.map lexemes := by
  induction elements with
  | nil => rfl
  | cons first rest ih => rw [lexemesAll, ih, List.map_cons]

def printProperty (property : Property Expression) : String :=
  if property.shorthand then property.key else printKey property.key ++ ": " ++ print property.value

def lexemesProperty (property : Property Expression) : List Lexeme :=
  if property.shorthand then [.identifier property.key]
  else keyLexeme property.key :: .mark ':' :: lexemes property.value

theorem printProperties_eq_map (properties : List (Property Expression)) :
    printProperties properties = properties.map printProperty := by
  induction properties with
  | nil => rfl
  | cons first rest ih => rw [printProperties, ih, List.map_cons, printProperty]

theorem lexemesProperties_eq_map (properties : List (Property Expression)) :
    lexemesProperties properties = properties.map lexemesProperty := by
  induction properties with
  | nil => rfl
  | cons first rest ih => rw [lexemesProperties, ih, List.map_cons, lexemesProperty]

private theorem spells_property {property : Property Expression} (formed : Formed Numeric property.value)
    (shorthand : property.shorthand = true → property.value = .identifier property.key)
    (spells : Spells (print property.value).toList (lexemes property.value) Apart) :
    Spells (printProperty property).toList (lexemesProperty property) Apart := by
  rw [printProperty, lexemesProperty]
  split
  next short =>
    rw [shorthand short] at formed
    cases formed with
    | identifier named => exact spells_name named
  next =>
    have value := spells.lexes.blank.afterMark spells.nonempty lexes_colon
    simpa using (spells_key property.key).append value (by simp) (by decide) (by decide)

/-- Printing gives the tokens of the expression. -/
theorem spells_print {e : Expression} (formed : Formed Numeric e) : Spells (print e).toList (lexemes e) Apart := by
  induction formed with
  | number allowed => exact spells_number allowed
  | string value => exact spells_string value
  | boolean value => cases value <;> exact spells_word (by decide)
  | null => exact spells_word (by decide)
  | undefined => exact spells_word (by decide)
  | identifier named => exact spells_name named
  | this => exact spells_word (by decide)
  | @array elements _ ih =>
    have inner := lexes_separated elements ih lexes_closeBracket (by simp) (by decide) (by decide)
    have whole := spells_of_lexes (inner.afterMark (by simp) lexes_openBracket) (by decide) (by decide)
    simpa [print, lexemes, printAll_eq_map, lexemesAll_eq_map] using whole.weaken
  | @object properties formed shorthands ih =>
    have spells : ∀ p ∈ properties, Spells (printProperty p).toList (lexemesProperty p) Apart := by
      intro p member
      exact spells_property (formed p member) (shorthands p member) (ih p member)
    rw [print, lexemes, printProperties_eq_map, lexemesProperties_eq_map]
    split
    next empty =>
      rw [List.isEmpty_iff] at empty
      subst empty
      exact (spells_of_lexes (lexes_closeBrace.afterMark (by simp) lexes_openBrace) (by decide) (by decide)).weaken
    next =>
      have inner := lexes_separated properties spells lexes_closeBrace.blank (by simp) (by decide) (by decide)
      have whole := spells_of_lexes (inner.blank.afterMark (by simp) lexes_openBrace) (by decide) (by decide)
      simpa using whole.weaken
  | @member receiver property optional _ spelled ih =>
    have front := ih.enclosedIf (rank receiver < 10)
    obtain ⟨c, rest, same, start⟩ := exists_start_of_isIdentifier spelled
    have noDigit : ∀ behind, (property.toList ++ behind).head?.any Char.isDigit = false := by
      intro behind
      simp [same, not_isDigit_of_isIdentifierStart start]
    cases optional with
    | false =>
      have access := lexes_point.append (lexes_word spelled) (by simp) fun behind _ => noDigit behind
      have apart : ∀ behind, Apart behind → Apart (['.'] ++ property.toList ++ behind) := by
        rintro behind _ _ _ ⟨rfl, rfl⟩
        exact ⟨by decide, fun _ => noDigit behind⟩
      have lexes := front.lexes.append access (by simp) apart
      obtain ⟨first, others, shape, visible, noEquality⟩ := front.start
      refine ⟨by simpa [print, lexemes] using lexes, first, others ++ '.' :: property.toList, ?_, visible, noEquality⟩
      simp [print, shape]
    | true =>
      have access := lexes_optional.append (lexes_word spelled) (by simp) fun behind _ => noDigit behind
      simpa [print, lexemes] using front.append access (by simp) (by decide) (by decide)
  | @index receiver key optional _ _ ih ihKey =>
    have front := ih.enclosedIf (rank receiver < 10)
    have inner := ihKey.append lexes_closeBracket (by simp) (by decide) (by decide)
    have access := inner.lexes.afterMark (by simp) lexes_openBracket
    cases optional with
    | false => simpa [print, lexemes, optionalLexemes] using (front.append access (by simp) (by decide) (by decide)).weaken
    | true =>
      have access := lexes_optional.append access (by simp) fun _ _ => rfl
      simpa [print, lexemes, optionalLexemes] using (front.append access (by simp) (by decide) (by decide)).weaken
  | @call callee arguments optional _ _ ih ihAll =>
    have front := ih.enclosedIf (rank callee < 10)
    have inner := lexes_separated arguments ihAll lexes_close (by simp) (by decide) (by decide)
    have access := inner.afterMark (by simp) lexes_open
    cases optional with
    | false =>
      simpa [print, lexemes, optionalLexemes, printAll_eq_map, lexemesAll_eq_map] using
        (front.append access (by simp) (by decide) (by decide)).weaken
    | true =>
      have access := lexes_optional.append access (by simp) fun _ _ => rfl
      simpa [print, lexemes, optionalLexemes, printAll_eq_map, lexemesAll_eq_map] using
        (front.append access (by simp) (by decide) (by decide)).weaken
  | @unary operand operator _ ih =>
    rw [print, lexemes]
    exact spells_unary operator (ih.enclosedIf _)
  | @binary left right operator _ _ ihLeft ihRight =>
    have own := ihLeft.enclosedIf (rank left < operator.level + 1 || (rank left == operator.level + 1 && operator.groupsRight))
    have other :=
      ihRight.enclosedIf (rank right < operator.level + 1 || (rank right == operator.level + 1 && !operator.groupsRight))
    have rest := ((lexes_binary operator).append other.lexes.blank other.nonempty fun _ _ => ⟨_, rfl⟩).blank
    simpa [print, lexemes] using own.append rest (by simp) (by decide) (by decide)
  | @conditional test consequent alternate _ _ _ ihTest ihConsequent ihAlternate =>
    have front := ihTest.enclosedIf (rank test ≤ 1)
    have last := (ihAlternate.lexes.blank.afterMark ihAlternate.nonempty lexes_colon).blank
    have middle := (ihConsequent.append last (by simp) (by decide) (by decide)).lexes.blank
    have rest := (lexes_question.append middle (by simp) fun _ _ => ⟨_, rfl⟩).blank
    simpa [print, lexemes] using front.append rest (by simp) (by decide) (by decide)
  | @arrow params body named _ ih =>
    have body := ih.enclosedIf (isObject body)
    have arrow := (lexes_arrow.append body.lexes.blank body.nonempty fun _ _ => ⟨_, rfl⟩).blank
    have names : ∀ name ∈ params, Spells (id name).toList [Lexeme.identifier name] Apart :=
      fun name member => spells_name (named name member)
    have head := lexes_separated params names (arrow.afterMark (by simp) lexes_close) (by simp) (by decide) (by decide)
    have whole := spells_of_lexes (head.afterMark (by simp) lexes_open) (by decide) (by decide)
    simpa [print, lexemes] using whole

end ReactiveMarkup.Expression
