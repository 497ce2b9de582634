import ReactiveMarkup.Proofs.Phrases

/-! Reading back the tokens of an expression gives the expression, unless an arrow function
has a body that starts with a brace. -/

namespace ReactiveMarkup.Expression

variable {spelling : List Lexeme} {result : Option Expression}

/-! A text that starts with a brace is the text of tokens that start with one. -/

theorem scanNumber_ne_mark (chars : List Char) (m : Char) : (scanNumber chars).1 ≠ .mark m := by
  simp only [scanNumber]
  split
  · split
    · split <;> simp
    · simp
  · simp

theorem eq_of_scanLexeme_mark {c m : Char} {rest : List Char} (scanned : (scanLexeme c rest).1 = .mark m) : m = c := by
  rw [scanLexeme] at scanned
  split at scanned
  · simp only [word] at scanned
    split at scanned <;> cases scanned
  split at scanned
  · exact absurd scanned (scanNumber_ne_mark _ m)
  split at scanned
  · cases scanned
    rfl
  split at scanned
  · dsimp only at scanned
    split at scanned <;> cases scanned
  · rw [scanOperator] at scanned
    split at scanned <;> cases scanned

theorem tokens_visible {c : Char} (visible : Text.isBlank c = false) (offset : Nat) (rest : List Char) :
    ∃ chars behind, tokens offset (c :: rest) = ⟨(scanLexeme c rest).1, offset, chars⟩ :: behind := by
  rw [tokens, if_neg (by simp [visible])]
  exact ⟨_, _, rfl⟩

theorem Spells.braced {chars : List Char} (spells : Spells chars spelling Apart) :
    braced spelling = (chars.head? == some '\x7b') := by
  obtain ⟨c, rest, rfl, visible, _⟩ := spells.start
  obtain ⟨lexeme, others, rfl⟩ := List.exists_cons_of_ne_nil spells.nonempty
  obtain ⟨cut, same, cutTokens, _⟩ := spells.lexes 0 [] (by rintro _ _ ⟨⟩)
  obtain ⟨start, cs, more, rfl, _⟩ := exists_of_map_cons same
  obtain ⟨_, _, scanned⟩ := tokens_visible visible 0 rest
  rw [List.append_nil, scanned] at cutTokens
  have first : (scanLexeme c rest).1 = lexeme := congrArg Token.lexeme (List.cons.inj cutTokens).1
  by_cases brace : c = '\x7b'
  · subst brace
    rw [← first]
    rfl
  · have other : Expression.braced (lexeme :: others) = false := by
      rw [braced.eq_def]
      split
      next m _ shape =>
        cases shape
        rw [eq_of_scanLexeme_mark first]
        exact beq_false_of_ne brace
      next => rfl
    rw [other]
    simp [brace]

/-! The expressions that are read back. -/

/-- Whether the text of an expression starts with a brace. -/
def bracesFirst (e : Expression) : Bool := (print e).toList.head? == some '\x7b'

mutual
/-- Whether a test holds of an expression and of everything inside it. -/
@[simp]
def everywhere (test : Expression → Bool) : Expression → Bool
  | .array elements => test (.array elements) && everywhereAll test elements
  | .object properties => test (.object properties) && everywhereProperties test properties
  | .member receiver property optional => test (.member receiver property optional) && everywhere test receiver
  | .index receiver key optional =>
    test (.index receiver key optional) && (everywhere test receiver && everywhere test key)
  | .call callee arguments optional =>
    test (.call callee arguments optional) && (everywhere test callee && everywhereAll test arguments)
  | .unary operator operand => test (.unary operator operand) && everywhere test operand
  | .binary operator left right => test (.binary operator left right) && (everywhere test left && everywhere test right)
  | .conditional condition consequent alternate =>
    test (.conditional condition consequent alternate) &&
      (everywhere test condition && (everywhere test consequent && everywhere test alternate))
  | .arrow params body => test (.arrow params body) && everywhere test body
  | e => test e

@[simp]
def everywhereAll (test : Expression → Bool) : List Expression → Bool
  | [] => true
  | first :: rest => everywhere test first && everywhereAll test rest

@[simp]
def everywhereProperties (test : Expression → Bool) : List (Property Expression) → Bool
  | [] => true
  | ⟨_, value, _⟩ :: rest => everywhere test value && everywhereProperties test rest
end

theorem everywhereAll_iff {test : Expression → Bool} {elements : List Expression} :
    everywhereAll test elements = true ↔ ∀ e ∈ elements, everywhere test e = true := by
  induction elements with
  | nil => exact iff_of_true rfl (List.forall_mem_nil _)
  | cons first rest ih => rw [everywhereAll, Bool.and_eq_true, ih, List.forall_mem_cons]

theorem everywhereProperties_iff {test : Expression → Bool} {properties : List (Property Expression)} :
    everywhereProperties test properties = true ↔ ∀ p ∈ properties, everywhere test p.value = true := by
  induction properties with
  | nil => exact iff_of_true rfl (List.forall_mem_nil _)
  | cons first rest ih => rw [everywhereProperties, Bool.and_eq_true, ih, List.forall_mem_cons]

/-- An arrow function whose body is an object literal or has a text that does not start with a brace. -/
def clearBody : Expression → Bool
  | .arrow _ body => isObject body || !bracesFirst body
  | _ => true

/-- What is read back from the text of an expression. -/
def reread (e : Expression) : Option Expression := if everywhere clearBody e then some e else none

theorem allResults_reread (elements : List Expression) :
    allResults reread elements = if everywhereAll clearBody elements then some elements else none := by
  induction elements with
  | nil => rfl
  | cons first rest ih =>
    rw [allResults, ih, reread, everywhereAll]
    cases everywhere clearBody first <;> cases everywhereAll clearBody rest <;> rfl

theorem allResults_properties (properties : List (Property Expression)) :
    allResults (fun p => (reread p.value).map fun value => (⟨p.key, value, p.shorthand⟩ : Property Expression)) properties =
      if everywhereProperties clearBody properties then some properties else none := by
  induction properties with
  | nil => rfl
  | cons first rest ih =>
    rw [allResults, ih, reread, everywhereProperties]
    cases everywhere clearBody first.value <;> cases everywhereProperties clearBody rest <;> rfl

theorem Back.enclosedIf {rank : Nat} (back : Back rank spelling result) (condition : Bool) :
    Back (if condition then 10 else rank) (enclosedIf condition spelling) result := by
  cases condition with
  | false => exact back
  | true => exact back.enclosed

theorem reread_binary (operator : BinaryOperator) (left right : Expression) :
    reread (.binary operator left right) = (reread left).bind fun left => (reread right).map (.binary operator left ·) := by
  simp only [reread, everywhere, clearBody, Bool.true_and]
  cases everywhere clearBody left <;> cases everywhere clearBody right <;> rfl

/-- Parentheses make an operand tight enough for any place. -/
theorem le_enclosed {place rank : Nat} {condition : Bool} (small : place ≤ 10) (tight : condition = false → place ≤ rank) :
    place ≤ if condition then 10 else rank := by
  cases condition with
  | false => exact tight rfl
  | true => exact small

/-- An operand without parentheses is as tight as its operator, and tighter on the side that does not group. -/
theorem tight_of_bare {own rank : Nat} {tighter : Bool} (bare : (decide (rank < own) || (rank == own && tighter)) = false) :
    own ≤ rank ∧ (tighter = true → own + 1 ≤ rank) := by
  simp only [Bool.or_eq_false_iff, decide_eq_false_iff_not, Bool.and_eq_false_iff, beq_eq_false_iff_ne] at bare
  refine ⟨by omega, ?_⟩
  rintro rfl
  obtain ⟨_, other | other⟩ := bare
  · omega
  · cases other

/-- Both operands of an operator are read at the places that their parentheses make them tight enough for. -/
theorem back_binary (operator : BinaryOperator) {left right : Expression} (backLeft : Back (rank left) (lexemes left) (reread left))
    (backRight : Back (rank right) (lexemes right) (reread right)) :
    Back (operator.level + 1) (lexemes (.binary operator left right)) (reread (.binary operator left right)) := by
  have enclosedLeft :=
    backLeft.enclosedIf (rank left < operator.level + 1 || (rank left == operator.level + 1 && operator.groupsRight))
  have enclosedRight :=
    backRight.enclosedIf (rank right < operator.level + 1 || (rank right == operator.level + 1 && !operator.groupsRight))
  have small : operator.level ≤ 7 := by cases operator <;> decide
  rw [reread_binary]
  by_cases power : operator = .power
  · subst power
    have base := enclosedLeft.mono (le_enclosed (by decide) fun bare => (tight_of_bare bare).2 rfl)
    have exponent := enclosedRight.mono (le_enclosed (by decide) fun bare => (tight_of_bare bare).1)
    exact base.power exponent
  · have fromLeft : operator.groupsRight = false := beq_false_of_ne power
    have first := enclosedLeft.mono (le_enclosed (by omega) fun bare => (tight_of_bare bare).1)
    have second := enclosedRight.mono
      (le_enclosed (by omega) fun bare => (tight_of_bare bare).2 (by rw [fromLeft]; rfl))
    exact first.binary power second

theorem rank_le (e : Expression) : rank e ≤ 10 := by
  cases e with
  | binary operator left right =>
    rw [rank]
    cases operator <;> decide
  | _ => simp [rank]

/-- A receiver, in parentheses if it needs them. -/
theorem Back.receiver {e : Expression} (back : Back (rank e) (lexemes e) (reread e)) :
    Back 10 (Expression.enclosedIf (rank e < 10) (lexemes e)) (reread e) := by
  have enclosed := back.enclosedIf (rank e < 10)
  have tightest : (if decide (rank e < 10) then 10 else rank e) = 10 := by
    have bound := rank_le e
    split
    · rfl
    next tight =>
      rw [decide_eq_true_eq] at tight
      omega
  rwa [tightest] at enclosed

theorem key?_keyLexeme (key : String) : key? (keyLexeme key) = some key := by
  rw [keyLexeme, word]
  split
  · split <;> rfl
  · rfl

theorem name?_word (name : String) : (word name).name? = some name := by
  rw [word]
  split <;> rfl

/-- A key is written as a word or as a string, a shorthand as its name. -/
theorem readsEntry_property {property : Property Expression} (reads : Reads 0 (lexemes property.value) (reread property.value))
    (shorthand : property.shorthand = true → property.value = .identifier property.key) :
    ReadsEntry (lexemesProperty property)
      ((reread property.value).map fun value => ⟨property.key, value, property.shorthand⟩) := by
  rw [lexemesProperty]
  split
  next short =>
    rw [shorthand short, short]
    exact .shorthand property.key
  next long =>
    rw [Bool.eq_false_iff.2 long]
    exact .keyed (key?_keyLexeme property.key) reads

theorem back_lexemes {e : Expression} (formed : Formed Numeric e) : Back (rank e) (lexemes e) (reread e) := by
  induction formed with
  | number allowed => exact back_atom rfl
  | string value => exact back_atom rfl
  | boolean value => cases value <;> exact back_atom rfl
  | null => exact back_atom rfl
  | undefined => exact back_atom rfl
  | identifier _ => exact back_atom rfl
  | this => exact back_atom rfl
  | @array elements _ ih =>
    have lists : Lists (parseList · ']') ']' (separated false (elements.map lexemes)) (allResults reread elements) :=
      lists_expressions rfl rfl (by decide) (fun e member => (ih e member).opening) (fun e member => (ih e member).reads) false
    have back := back_array lists
    have result : (allResults reread elements).map .array = reread (.array elements) := by
      simp only [allResults_reread, reread, everywhere, clearBody, Bool.true_and]
      cases everywhereAll clearBody elements <;> rfl
    rwa [result, separated_false, ← lexemesAll_eq_map] at back
  | @object properties formed shorthands ih =>
    have entries : ∀ p ∈ properties, ReadsEntry (lexemesProperty p)
        ((reread p.value).map fun value => ⟨p.key, value, p.shorthand⟩) :=
      fun p member => readsEntry_property (ih p member).reads (shorthands p member)
    have back := back_object (lists_entries entries false)
    have result : (allResults (fun p => (reread p.value).map fun value => ⟨p.key, value, p.shorthand⟩) properties).map .object =
        reread (.object properties) := by
      rw [allResults_properties]
      simp only [reread, everywhere, clearBody, Bool.true_and]
      cases everywhereProperties clearBody properties <;> rfl
    rwa [result, separated_false, ← lexemesProperties_eq_map] at back
  | @member receiver property optional _ _ ih =>
    have back := ih.receiver.member (name?_word property) optional
    have result : (reread receiver).map (.member · property optional) = reread (.member receiver property optional) := by
      simp only [reread, everywhere, clearBody, Bool.true_and]
      cases everywhere clearBody receiver <;> rfl
    rwa [result] at back
  | @index receiver key optional _ _ ih ihKey =>
    have back := ih.receiver.index ihKey optional
    have result : ((reread receiver).bind fun e => (reread key).map (.index e · optional)) =
        reread (.index receiver key optional) := by
      simp only [reread, everywhere, clearBody, Bool.true_and]
      cases everywhere clearBody receiver <;> cases everywhere clearBody key <;> rfl
    rwa [result] at back
  | @call callee arguments optional _ _ ih ihAll =>
    have lists : Lists (parseList · ')') ')' (separated false (arguments.map lexemes)) (allResults reread arguments) :=
      lists_expressions rfl rfl (by decide) (fun e member => (ihAll e member).opening) (fun e member => (ihAll e member).reads) false
    have back := ih.receiver.call lists optional
    have result : ((reread callee).bind fun e => (allResults reread arguments).map (.call e · optional)) =
        reread (.call callee arguments optional) := by
      simp only [allResults_reread, reread, everywhere, clearBody, Bool.true_and]
      cases everywhere clearBody callee <;> cases everywhereAll clearBody arguments <;> rfl
    rwa [result, separated_false, ← lexemesAll_eq_map] at back
  | @unary operand operator _ ih =>
    have tight : 9 ≤ if decide (rank operand < 9) then 10 else rank operand := le_enclosed (by decide) fun bare => by
      simpa using bare
    have inner := (ih.enclosedIf (rank operand < 9)).mono tight
    have back := inner.unary operator
    have result : (reread operand).map (.unary operator ·) = reread (.unary operator operand) := by
      simp only [reread, everywhere, clearBody, Bool.true_and]
      cases everywhere clearBody operand <;> rfl
    rwa [result] at back
  | binary operator _ _ ihLeft ihRight => exact back_binary operator ihLeft ihRight
  | @conditional test consequent alternate _ _ _ ihTest ihConsequent ihAlternate =>
    have tight : 2 ≤ if decide (rank test ≤ 1) then 10 else rank test := le_enclosed (by decide) fun bare => by
      rw [decide_eq_false_iff_not] at bare
      omega
    have front := (ihTest.enclosedIf (rank test ≤ 1)).mono tight
    have back := front.conditional ihConsequent ihAlternate
    have result : ((reread test).bind fun test => (reread consequent).bind fun consequent =>
        (reread alternate).map (.conditional test consequent ·)) = reread (.conditional test consequent alternate) := by
      simp only [reread, everywhere, clearBody, Bool.true_and]
      cases everywhere clearBody test <;> cases everywhere clearBody consequent <;> cases everywhere clearBody alternate <;> rfl
    rwa [result] at back
  | @arrow params body named formed ih =>
    have back := (ih.enclosedIf (isObject body)).arrow (.names params)
    have result : (if braced (enclosedIf (isObject body) (lexemes body)) then none else (reread body).map (.arrow params ·)) =
        reread (.arrow params body) := by
      rw [reread, reread, everywhere, clearBody]
      cases isObject body with
      | true => cases everywhere clearBody body <;> rfl
      | false =>
        rw [show enclosedIf false (lexemes body) = lexemes body from rfl, (spells_print formed).braced, ← bracesFirst]
        cases bracesFirst body <;> cases everywhere clearBody body <;> rfl
    rw [result] at back
    simpa [lexemes, rank] using back

/-- The parser takes the tokens of an expression and stops behind them. -/
theorem parseTokens_lexemes {e : Expression} (formed : Formed Numeric e) {cut rest : List Token}
    (same : cut.map Token.lexeme = lexemes e) (ends : Ends 0 rest) :
    (parseTokens (cut ++ rest)).toOption = (reread e).map (·, rest) := by
  refine (back_lexemes formed).reads _ cut rest same ?_ ends
  rw [List.length_append, reserve]
  omega

end ReactiveMarkup.Expression
