import ReactiveMarkup.Proofs.PrintedTokens

/-! How the parser takes the tokens of an expression: each place of the grammar reads what
binds at least as tightly, and stops at a token that binds less tightly than the place. -/

namespace ReactiveMarkup.Expression

@[simp] theorem toOption_ok {α : Type} (value : α) : (Except.ok value : Parsed α).toOption = some value := rfl

@[simp] theorem toOption_pure {α : Type} (value : α) : (pure value : Parsed α).toOption = some value := rfl

@[simp] theorem toOption_error {α : Type} (fault : Fault) : (Except.error fault : Parsed α).toOption = none := rfl

@[simp] theorem toOption_bind {α β : Type} (first : Parsed α) (next : α → Parsed β) :
    (first >>= next).toOption = first.toOption.bind fun value => (next value).toOption := by
  cases first <;> rfl

theorem ok_of_toOption {α : Type} {parsed : Parsed α} {value : α} (same : parsed.toOption = some value) : parsed = .ok value := by
  cases parsed with
  | error fault => cases same
  | ok other =>
    cases same
    rfl

/-- How tightly a token attaches to the expression before it; zero if it does not. -/
def binding : Lexeme → Nat
  | .mark c => if c = '.' ∨ c = '[' ∨ c = '(' then 10 else 0
  | .operator symbol =>
    if symbol = "?." then 10
    else if symbol = "?" ∨ symbol = "=>" then 2
    else (BinaryOperator.ofSymbol? symbol).elim 0 fun operator => operator.level + 2
  | _ => 0

/-- No token that continues an expression at the place comes next. -/
def Ends (place : Nat) (rest : List Token) : Prop :=
  ∀ token more, rest = token :: more → binding token.lexeme ≤ place

theorem Ends.mono {low high : Nat} {rest : List Token} (ends : Ends low rest) (le : low ≤ high) : Ends high rest :=
  fun token more same => Nat.le_trans (ends token more same) le

/-- What ends a conditional ends any expression. -/
theorem Ends.expression {rest : List Token} (ends : Ends 1 rest) : Ends 0 rest := by
  intro token more same
  have bound := ends token more same
  have notOne : binding token.lexeme ≠ 1 := by
    rw [binding.eq_def]
    split
    · split <;> decide
    · split
      · decide
      · split
        · decide
        · cases BinaryOperator.ofSymbol? _ <;> simp
    · decide
  omega

theorem ofSymbol?_symbol (operator : BinaryOperator) : BinaryOperator.ofSymbol? operator.symbol = some operator := by
  cases operator <;> rfl

theorem symbol_of_ofSymbol? {symbol : String} {operator : BinaryOperator} (found : BinaryOperator.ofSymbol? symbol = some operator) :
    operator.symbol = symbol := by
  simpa using List.find?_some found

theorem binding_binary (operator : BinaryOperator) : binding (.operator operator.symbol) = operator.level + 2 := by
  cases operator <;> rfl

theorem parseLinks_of_ends {rest : List Token} (ends : Ends 9 rest) (depth : Nat) (e : Expression) :
    parseLinks (depth + 1) e rest = .ok (e, rest) := by
  rw [parseLinks.eq_def]
  dsimp only
  split
  next => exact absurd (ends _ _ rfl) (by simp [binding])
  next => exact absurd (ends _ _ rfl) (by simp [binding])
  next => exact absurd (ends _ _ rfl) (by simp [binding])
  next => exact absurd (ends _ _ rfl) (by simp [binding])
  next => rfl

theorem afterOperator?_of_ends {place : Nat} {symbol : String} {rest : List Token} (ends : Ends place rest)
    (tighter : place < binding (.operator symbol)) : afterOperator? symbol rest = none := by
  rw [afterOperator?.eq_def]
  split
  next =>
    refine if_neg ?_
    rintro rfl
    exact absurd (ends _ _ rfl) (Nat.not_le.2 tighter)
  next => rfl

theorem operatorAt?_of_ends {level : Nat} {rest : List Token} (ends : Ends (level + 1) rest) : operatorAt? level rest = none := by
  rw [operatorAt?.eq_def]
  split
  next symbol start chars more =>
    split
    next operator found =>
      refine if_neg ?_
      rintro rfl
      have same := symbol_of_ofSymbol? found
      have bound := ends _ _ rfl
      rw [← same, binding_binary] at bound
      omega
    next => rfl
  next => rfl

theorem parseMore_of_ends {level : Nat} {rest : List Token} (ends : Ends (level + 1) rest) (depth : Nat) (e : Expression) :
    parseMore (depth + 1) level e rest = .ok (e, rest) := by
  rw [parseMore, operatorAt?_of_ends ends]

/-- The parser of a place: what binds at least as tightly as an expression of that rank. -/
def parserAt : Nat → Nat → List Token → Parsed (Expression × List Token)
  | 0 => parseExpression
  | 1 => parseConditional
  | 8 => parsePower
  | 9 => parseUnary
  | place => fun depth => parseLevel depth (place - 1)

theorem parserAt_zero : parserAt 0 = parseExpression := rfl

theorem parserAt_one : parserAt 1 = parseConditional := rfl

theorem parserAt_eight : parserAt 8 = parsePower := rfl

theorem parserAt_nine : parserAt 9 = parseUnary := rfl

/-- How much deeper a place may descend before it takes a token. -/
def reserve (place : Nat) : Nat := 15 - place - place / 8

/-- The parser of a place takes exactly the given tokens, and gives the result, if there is one. -/
def Reads (place : Nat) (spelling : List Lexeme) (result : Option Expression) : Prop :=
  ∀ depth cut rest, cut.map Token.lexeme = spelling → 16 * cut.length + reserve place ≤ depth → Ends place rest →
    (parserAt place depth (cut ++ rest)).toOption = result.map (·, rest)

/-- The tokens are an operand to which a loop over the operators of a level adds more. -/
def Chains (level : Nat) (spelling : List Lexeme) (result : Option Expression) : Prop :=
  ∀ depth cut rest, cut.map Token.lexeme = spelling → 16 * cut.length + reserve (level + 1) ≤ depth →
    Ends (level + 2) rest → ∃ left, depth ≤ left + 16 * cut.length + 1 ∧
      (parseLevel depth level (cut ++ rest)).toOption = result.bind fun e => (parseMore left level e rest).toOption

/-- The tokens are a receiver to which a loop over accesses and calls adds more. -/
def Links (spelling : List Lexeme) (result : Option Expression) : Prop :=
  ∀ depth cut rest, cut.map Token.lexeme = spelling → 16 * cut.length + 1 ≤ depth →
    ∃ left, depth ≤ left + 16 * cut.length ∧
      (parseUnary depth (cut ++ rest)).toOption = result.bind fun e => (parseLinks left e rest).toOption

variable {spelling : List Lexeme} {result : Option Expression}

theorem Links.reads (links : Links spelling result) : Reads 9 spelling result := by
  intro depth cut rest same enough ends
  obtain ⟨left, bound, parsed⟩ := links depth cut rest same (by simp only [reserve] at enough; omega)
  obtain ⟨left, rfl⟩ : ∃ more, left = more + 1 := ⟨left - 1, by simp only [reserve] at enough; omega⟩
  rw [parserAt, parsed]
  cases result with
  | none => rfl
  | some e => simp [parseLinks_of_ends ends]

theorem Reads.power (reads : Reads 9 spelling result) : Reads 8 spelling result := by
  intro depth cut rest same enough ends
  obtain ⟨depth, rfl⟩ : ∃ more, depth = more + 1 := ⟨depth - 1, by simp only [reserve] at enough; omega⟩
  have parsed := reads depth cut rest same (by simp only [reserve] at enough ⊢; omega) (ends.mono (by decide))
  rw [parserAt] at parsed
  rw [parserAt, parsePower, toOption_bind, parsed]
  cases result with
  | none => rfl
  | some e => simp [afterOperator?_of_ends ends (show 8 < binding (.operator "**") by decide)]

theorem parserAt_level {level : Nat} (positive : 1 ≤ level) (small : level ≤ 6) (depth : Nat) (tokens : List Token) :
    parserAt (level + 1) depth tokens = parseLevel depth level tokens := by
  match level, positive, small with
  | 1, _, _ | 2, _, _ | 3, _, _ | 4, _, _ | 5, _, _ | 6, _, _ => rfl

theorem parseLevel_seven (depth : Nat) (tokens : List Token) : parseLevel (depth + 1) 7 tokens = parsePower depth tokens := by
  rw [parseLevel, if_neg (by decide)]

/-- The operands of a level are what the next place reads. -/
theorem Reads.operand {level : Nat} (reads : Reads (level + 2) spelling result) (positive : 1 ≤ level) (small : level ≤ 6)
    {depth : Nat} {cut rest : List Token} (same : cut.map Token.lexeme = spelling)
    (enough : 16 * cut.length + reserve (level + 1) ≤ depth + 1) (ends : Ends (level + 2) rest) :
    (parseLevel depth (level + 1) (cut ++ rest)).toOption = result.map (·, rest) := by
  obtain last | inner : level = 6 ∨ level ≤ 5 := by omega
  · subst last
    obtain ⟨depth, rfl⟩ : ∃ more, depth = more + 1 := ⟨depth - 1, by simp only [reserve] at enough; omega⟩
    rw [parseLevel_seven]
    exact reads depth cut rest same (by simp only [reserve] at enough ⊢; omega) ends
  · rw [← parserAt_level (by omega) (by omega)]
    exact reads depth cut rest same (by simp only [reserve] at enough ⊢; omega) ends

/-- An operand starts a chain. -/
theorem Reads.chains {level : Nat} (reads : Reads (level + 2) spelling result) (positive : 1 ≤ level) (small : level ≤ 6) :
    Chains level spelling result := by
  intro depth cut rest same enough ends
  obtain ⟨depth, rfl⟩ : ∃ more, depth = more + 1 := ⟨depth - 1, by simp only [reserve] at enough; omega⟩
  refine ⟨depth, by omega, ?_⟩
  rw [parseLevel, if_pos (by omega), toOption_bind, reads.operand positive small same enough ends]
  cases result <;> rfl

theorem Chains.reads {level : Nat} (chains : Chains level spelling result) (positive : 1 ≤ level) (small : level ≤ 6) :
    Reads (level + 1) spelling result := by
  intro depth cut rest same enough ends
  obtain ⟨left, bound, parsed⟩ := chains depth cut rest same enough (ends.mono (by omega))
  obtain ⟨left, rfl⟩ : ∃ more, left = more + 1 := ⟨left - 1, by simp only [reserve] at enough; omega⟩
  rw [parserAt_level positive small, parsed]
  cases result with
  | none => rfl
  | some e => simp [parseMore_of_ends ends]

theorem Reads.conditional (reads : Reads 2 spelling result) : Reads 1 spelling result := by
  intro depth cut rest same enough ends
  obtain ⟨depth, rfl⟩ : ∃ more, depth = more + 1 := ⟨depth - 1, by simp only [reserve] at enough; omega⟩
  have parsed := reads depth cut rest same (by simp only [reserve] at enough ⊢; omega) (ends.mono (by decide))
  rw [parserAt_level (by decide) (by decide)] at parsed
  rw [parserAt, parseConditional, toOption_bind, parsed]
  cases result with
  | none => rfl
  | some e => simp [afterOperator?_of_ends ends (show 1 < binding (.operator "?") by decide)]

/-- Tokens that are the head of an arrow function only if its arrow comes right behind them. -/
def Headless (spelling : List Lexeme) : Prop :=
  ∀ cut rest params body, cut.map Token.lexeme = spelling → arrowHead? (cut ++ rest) = some (params, body) →
    afterOperator? "=>" rest = some body

theorem Headless.eq_none (headless : Headless spelling) {cut rest : List Token} (same : cut.map Token.lexeme = spelling)
    (noArrow : afterOperator? "=>" rest = none) : arrowHead? (cut ++ rest) = none := by
  cases found : arrowHead? (cut ++ rest) with
  | none => rfl
  | some head =>
    have behind := headless cut rest head.1 head.2 same found
    rw [noArrow] at behind
    cases behind

theorem Reads.expression (reads : Reads 1 spelling result) (headless : Headless spelling) : Reads 0 spelling result := by
  intro depth cut rest same enough ends
  obtain ⟨depth, rfl⟩ : ∃ more, depth = more + 1 := ⟨depth - 1, by simp only [reserve] at enough; omega⟩
  have noArrow := headless.eq_none same (afterOperator?_of_ends ends (by decide))
  rw [parserAt, parseExpression, noArrow]
  exact reads depth cut rest same (by simp only [reserve] at enough ⊢; omega) (ends.mono (by decide))

/-- An expression of a rank is read at every place that it is tight enough for. -/
structure Readable (rank : Nat) (spelling : List Lexeme) (result : Option Expression) : Prop where
  links : 10 ≤ rank → Links spelling result
  chains : ∀ level, 1 ≤ level → level ≤ 6 → level + 1 ≤ rank → Chains level spelling result
  reads : ∀ place, place ≤ 9 → place ≤ rank → Reads place spelling result

theorem Reads.below {place : Nat} (reads : Reads (place + 1) spelling result) (small : place ≤ 8)
    (headless : Headless spelling) : Reads place spelling result := by
  match place, small with
  | 0, _ => exact reads.expression headless
  | 1, _ => exact reads.conditional
  | 8, _ => exact reads.power
  | 2, _ | 3, _ | 4, _ | 5, _ | 6, _ | 7, _ => exact (reads.chains (by decide) (by decide)).reads (by decide) (by decide)

theorem Reads.downTo {place : Nat} (headless : Headless spelling) (small : place ≤ 9) (reads : Reads place spelling result) :
    ∀ lower, lower ≤ place → Reads lower spelling result := by
  induction place with
  | zero =>
    intro lower le
    rwa [Nat.le_zero.1 le]
  | succ place ih =>
    intro lower le
    obtain same | less : lower = place + 1 ∨ lower ≤ place := by omega
    · rwa [same]
    · exact ih (by omega) (reads.below (by omega) headless) lower less

theorem readable_of_reads {rank : Nat} (small : rank ≤ 9) (headless : Headless spelling) (reads : Reads rank spelling result)
    (chains : ∀ level, 1 ≤ level → level ≤ 6 → level + 1 = rank → Chains level spelling result) :
    Readable rank spelling result where
  links large := absurd large (by omega)
  chains level positive le below := by
    obtain own | lower : level + 1 = rank ∨ level + 2 ≤ rank := by omega
    · exact chains level positive le own
    · exact (reads.downTo headless small (level + 2) lower).chains positive le
  reads place _ below := reads.downTo headless small place below

theorem readable_of_links (links : Links spelling result) (headless : Headless spelling) : Readable 10 spelling result where
  links _ := links
  chains level positive le _ := (links.reads.downTo headless (by decide) (level + 2) (by omega)).chains positive le
  reads place small _ := links.reads.downTo headless (by decide) place small

/-! Cutting a run of tokens where its spelling is put together. -/

theorem exists_of_map_cons {cut : List Token} {lexeme : Lexeme} {spelling : List Lexeme}
    (same : cut.map Token.lexeme = lexeme :: spelling) :
    ∃ start chars more, cut = ⟨lexeme, start, chars⟩ :: more ∧ more.map Token.lexeme = spelling := by
  obtain ⟨⟨_, start, chars⟩, more, rfl, rfl, rest⟩ := List.map_eq_cons_iff.1 same
  exact ⟨start, chars, more, rfl, rest⟩

/-- The token may start an expression. -/
def opens : Lexeme → Bool
  | .mark c => c == '(' || c == '[' || c == '\x7b'
  | .operator symbol => symbol == "!" || symbol == "-" || symbol == "+"
  | .fault _ => false
  | _ => true

/-- The first two tokens do not look like names in parentheses. -/
structure Opening (spelling : List Lexeme) : Prop where
  first : ∃ lexeme more, spelling = lexeme :: more ∧ opens lexeme = true
  second : ∀ name lexeme more, spelling = .identifier name :: lexeme :: more → lexeme ≠ .mark ')' ∧ lexeme ≠ .mark ','

theorem Opening.append (opening : Opening spelling) {lexeme : Lexeme} {more : List Lexeme}
    (other : lexeme ≠ .mark ')' ∧ lexeme ≠ .mark ',') : Opening (spelling ++ lexeme :: more) := by
  obtain ⟨⟨first, rest, rfl, opens⟩, second⟩ := opening
  refine ⟨⟨first, rest ++ lexeme :: more, rfl, opens⟩, ?_⟩
  intro name next others same
  cases rest with
  | nil =>
    cases same
    exact other
  | cons head tail =>
    cases same
    exact second _ _ _ rfl

theorem afterOperator?_of_ne {symbol : String} {lexeme : Lexeme} (other : lexeme ≠ .operator symbol) {start : Nat}
    {chars : List Char} {rest : List Token} : afterOperator? symbol (⟨lexeme, start, chars⟩ :: rest) = none := by
  rw [afterOperator?.eq_def]
  split
  next shape =>
    cases shape
    refine if_neg ?_
    rintro rfl
    exact other rfl
  next => rfl

theorem Headless.append (headless : Headless spelling) {lexeme : Lexeme} {more : List Lexeme} (other : lexeme ≠ .operator "=>") :
    Headless (spelling ++ lexeme :: more) := by
  intro cut rest params body same found
  obtain ⟨front, back, rfl, sameFront, sameBack⟩ := List.map_eq_append_iff.1 same
  obtain ⟨start, chars, tail, rfl, _⟩ := exists_of_map_cons sameBack
  rw [List.append_assoc, List.cons_append, headless.eq_none sameFront (afterOperator?_of_ne other)] at found
  cases found

theorem headless_of_first {lexeme : Lexeme} {more : List Lexeme} (noName : ∀ name, lexeme ≠ .identifier name)
    (noParen : lexeme ≠ .mark '(') : Headless (lexeme :: more) := by
  intro cut rest params body same found
  obtain ⟨start, chars, tail, rfl, _⟩ := exists_of_map_cons same
  have none : params? (⟨lexeme, start, chars⟩ :: tail ++ rest) = none := by
    rw [params?.eq_def, List.cons_append]
    split
    next shape => exact absurd (congrArg Token.lexeme (List.cons.inj shape).1) (noName _)
    next shape => exact absurd (congrArg Token.lexeme (List.cons.inj shape).1) noParen
    next shape => exact absurd (congrArg Token.lexeme (List.cons.inj shape).1) noParen
    next => rfl
  rw [arrowHead?, none] at found
  cases found

/-- The arrow stands behind the parameters. -/
theorem afterOperator?_of_arrowHead? {tokens behind body : List Token} {names params : List String}
    (heads : params? tokens = some (names, behind)) (found : arrowHead? tokens = some (params, body)) :
    afterOperator? "=>" behind = some body := by
  rw [arrowHead?, heads] at found
  simp only [Option.bind_eq_bind, Option.bind_some, Option.bind_eq_some_iff] at found
  obtain ⟨_, arrow, same⟩ := found
  cases same
  exact arrow

theorem headless_name (name : String) : Headless [.identifier name] := by
  intro cut rest params body same found
  obtain ⟨start, chars, tail, rfl, empty⟩ := exists_of_map_cons same
  rw [List.map_eq_nil_iff] at empty
  subst empty
  exact afterOperator?_of_arrowHead? rfl found

/-- Only a single name in parentheses is taken for parameters. -/
private theorem moreParams?_of_opening {cut : List Token} (opening : Opening (cut.map Token.lexeme)) {start : Nat}
    {chars : List Char} {rest behind : List Token} {params : List String}
    (found : moreParams? (cut ++ ⟨.mark ')', start, chars⟩ :: rest) = some (params, behind)) : behind = rest := by
  obtain ⟨⟨lexeme, others, same, _⟩, second⟩ := opening
  rw [moreParams?.eq_def] at found
  split at found
  next name _ _ _ _ more shape =>
    match cut, same with
    | [only], _ =>
      cases shape
      cases found
      rfl
    | first :: next :: tail, _ =>
      cases shape
      exact absurd rfl (second _ _ _ rfl).1
  next name _ _ _ _ more shape =>
    match cut, same with
    | [only], _ => cases shape
    | first :: next :: tail, _ =>
      cases shape
      exact absurd rfl (second _ _ _ rfl).2
  next => cases found

theorem headless_enclosed (opening : Opening spelling) : Headless (.mark '(' :: spelling ++ [.mark ')']) := by
  intro cut rest params body same found
  obtain ⟨start, chars, tail, rfl, sameTail⟩ := exists_of_map_cons same
  obtain ⟨inner, back, rfl, sameInner, sameBack⟩ := List.map_eq_append_iff.1 sameTail
  obtain ⟨start', chars', none', rfl, empty⟩ := exists_of_map_cons sameBack
  rw [List.map_eq_nil_iff] at empty
  subst empty
  subst sameInner
  have notEmpty : params? (⟨.mark '(', start, chars⟩ :: (inner ++ [⟨.mark ')', start', chars'⟩]) ++ rest) =
      moreParams? (inner ++ ⟨.mark ')', start', chars'⟩ :: rest) := by
    obtain ⟨lexeme, others, shape, opens⟩ := opening.first
    obtain ⟨s, cs, more, rfl, _⟩ := exists_of_map_cons shape
    have other : lexeme ≠ .mark ')' := by
      rintro rfl
      exact absurd opens (by decide)
    simp [params?, other]
  cases names : moreParams? (inner ++ ⟨.mark ')', start', chars'⟩ :: rest) with
  | none =>
    rw [arrowHead?, notEmpty, names] at found
    cases found
  | some pair =>
    have behind : pair.2 = rest := moreParams?_of_opening opening names
    rw [names] at notEmpty
    rw [← behind]
    exact afterOperator?_of_arrowHead? notEmpty found

end ReactiveMarkup.Expression
