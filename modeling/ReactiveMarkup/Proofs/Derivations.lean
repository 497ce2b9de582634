import ReactiveMarkup.Proofs.Grammar

/-! Whatever the parser reads, the grammar derives from the tokens that were taken. -/

namespace ReactiveMarkup.Expression

/-- Whatever is parsed is spelled by the tokens in front of those that are left. -/
def Takes {α : Type} (spells : List Lexeme → α → Prop) (tokens : List Token) (parsed : Parsed (α × List Token)) : Prop :=
  ∀ value rest, parsed = .ok (value, rest) → ∃ cut, tokens = cut ++ rest ∧ spells (cut.map Token.lexeme) value

variable {α β : Type} {spells : List Lexeme → α → Prop} {spellsNext : List Lexeme → β → Prop} {tokens rest : List Token}

theorem takes_error (fault : Fault) : Takes spells tokens (.error fault) := by
  rintro _ _ ⟨⟩

theorem takes_ok {value : α} (holds : spells [] value) : Takes spells tokens (.ok (value, tokens)) := by
  rintro _ _ ⟨rfl, rfl⟩
  exact ⟨[], rfl, holds⟩

theorem takes_one {value : α} {token : Token} (holds : spells [token.lexeme] value) : Takes spells (token :: rest) (.ok (value, rest)) := by
  rintro _ _ ⟨rfl, rfl⟩
  exact ⟨[token], rfl, holds⟩

theorem Takes.mono {parsed : Parsed (α × List Token)} {wider : List Lexeme → α → Prop} (takes : Takes spells tokens parsed)
    (implies : ∀ spelling value, spells spelling value → wider spelling value) : Takes wider tokens parsed := by
  intro value rest same
  obtain ⟨cut, shape, holds⟩ := takes value rest same
  exact ⟨cut, shape, implies _ _ holds⟩

/-- Tokens that are already taken stand in front. -/
theorem Takes.cons {token : Token} {parsed : Parsed (α × List Token)}
    (takes : Takes (fun spelling => spells (token.lexeme :: spelling)) rest parsed) : Takes spells (token :: rest) parsed := by
  intro value behind same
  obtain ⟨cut, rfl, holds⟩ := takes value behind same
  exact ⟨token :: cut, rfl, holds⟩

theorem Takes.bind {first : Parsed (α × List Token)} {next : α × List Token → Parsed (β × List Token)} (takes : Takes spells tokens first)
    (then' : ∀ spelling value rest, spells spelling value → Takes (fun more => spellsNext (spelling ++ more)) rest (next (value, rest))) :
    Takes spellsNext tokens (first >>= next) := by
  cases first with
  | error fault => exact takes_error fault
  | ok pair =>
    obtain ⟨cut, rfl, holds⟩ := takes pair.1 pair.2 rfl
    intro value rest same
    obtain ⟨more, shape, result⟩ := then' _ pair.1 pair.2 holds value rest same
    exact ⟨cut ++ more, by rw [shape, List.append_assoc], by rwa [List.map_append]⟩

theorem takes_expectMark {mark : Char} {next : List Token → Parsed (β × List Token)}
    (then' : ∀ rest, Takes (fun more => spellsNext (.mark mark :: more)) rest (next rest)) :
    Takes spellsNext tokens (expectMark mark tokens >>= next) := by
  cases tokens with
  | nil => exact takes_error _
  | cons token rest =>
    obtain ⟨lexeme, start, chars⟩ := token
    cases lexeme with
    | mark c =>
      by_cases same : c = mark
      · subst same
        simp only [expectMark, if_true]
        exact Takes.cons (then' rest)
      · simp only [expectMark, if_neg same]
        exact takes_error _
    | _ => exact takes_error _

theorem takes_next : Takes (fun spelling token => spelling = [token.lexeme]) tokens (next tokens) := by
  cases tokens with
  | nil => exact takes_error _
  | cons token rest =>
    rw [next]
    split
    · exact takes_error _
    · exact takes_one rfl

theorem eq_of_afterMark? {mark : Char} (found : afterMark? mark tokens = some rest) :
    ∃ start chars, tokens = ⟨.mark mark, start, chars⟩ :: rest := by
  rw [afterMark?.eq_def] at found
  split at found
  next =>
    split at found
    next same =>
      cases found
      exact ⟨_, _, by rw [same]⟩
    next => cases found
  next => cases found

theorem eq_of_afterOperator? {symbol : String} (found : afterOperator? symbol tokens = some rest) :
    ∃ start chars, tokens = ⟨.operator symbol, start, chars⟩ :: rest := by
  rw [afterOperator?.eq_def] at found
  split at found
  next =>
    split at found
    next same =>
      cases found
      exact ⟨_, _, by rw [same]⟩
    next => cases found
  next => cases found

theorem eq_of_operatorAt? {level : Nat} {operator : BinaryOperator} (found : operatorAt? level tokens = some (operator, rest)) :
    operator.level = level ∧ ∃ start chars, tokens = ⟨.operator operator.symbol, start, chars⟩ :: rest := by
  rw [operatorAt?.eq_def] at found
  split at found
  next =>
    split at found
    next known =>
      split at found
      next same =>
        cases found
        exact ⟨same, _, _, by rw [symbol_of_ofSymbol? known]⟩
      next => cases found
    next => cases found
  next => cases found

theorem eq_of_unaryAt? {operator : UnaryOperator} (found : unaryAt? tokens = some (operator, rest)) :
    ∃ start chars, tokens = ⟨unaryLexeme operator, start, chars⟩ :: rest := by
  rw [unaryAt?.eq_def] at found
  split at found
  case h_5 => cases found
  all_goals
    cases found
    exact ⟨_, _, rfl⟩

theorem eq_of_moreParams? {params : List String} (found : moreParams? tokens = some (params, rest)) :
    ∃ cut, tokens = cut ++ rest ∧ params ≠ [] ∧
      cut.map Token.lexeme = commaSeparated (params.map fun name => [.identifier name]) ++ [.mark ')'] := by
  fun_induction Expression.moreParams? tokens generalizing params with
  | case1 name start chars start' chars' behind =>
    cases found
    exact ⟨[⟨.identifier name, start, chars⟩, ⟨.mark ')', start', chars'⟩], rfl, by simp, by simp [commaSeparated]⟩
  | case2 name start chars start' chars' behind ih =>
    simp only [Option.bind_eq_bind, Option.bind_eq_some_iff, Prod.exists] at found
    obtain ⟨names, more, inner, same⟩ := found
    cases same
    obtain ⟨cut, rfl, nonempty, sameCut⟩ := ih inner
    obtain ⟨second, others, rfl⟩ := List.exists_cons_of_ne_nil nonempty
    refine ⟨⟨.identifier name, start, chars⟩ :: ⟨.mark ',', start', chars'⟩ :: cut, rfl, by simp, ?_⟩
    simp [sameCut, commaSeparated, List.intercalate_cons_cons]
  | case3 => cases found

theorem eq_of_arrowHead? {params : List String} (found : arrowHead? tokens = some (params, rest)) :
    ∃ cut start chars front, tokens = cut ++ ⟨.operator "=>", start, chars⟩ :: rest ∧ cut.map Token.lexeme = front ∧ Heads front params := by
  rw [arrowHead?] at found
  simp only [Option.bind_eq_bind, Option.bind_eq_some_iff, Prod.exists] at found
  obtain ⟨names, more, heads, behind, arrow, same⟩ := found
  cases same
  obtain ⟨start, chars, rfl⟩ := eq_of_afterOperator? arrow
  rw [params?.eq_def] at heads
  split at heads
  next name start' chars' _ =>
    cases heads
    exact ⟨[⟨.identifier name, start', chars'⟩], start, chars, _, rfl, rfl, .name name⟩
  next start' chars' start'' chars'' _ =>
    cases heads
    exact ⟨[⟨.mark '(', start', chars'⟩, ⟨.mark ')', start'', chars''⟩], start, chars, _, rfl, rfl, .names []⟩
  next start' chars' _ _ =>
    obtain ⟨cut, shape, _, sameCut⟩ := eq_of_moreParams? heads
    refine ⟨⟨.mark '(', start', chars'⟩ :: cut, start, chars, _, by rw [shape, List.cons_append], ?_, .names params⟩
    simp [sameCut]
  next => cases heads

theorem takes_propertyName : Takes (fun spelling name => ∃ lexeme : Lexeme, spelling = [lexeme] ∧ lexeme.name? = some name) tokens
    (propertyName tokens) := by
  refine takes_next.bind ?_
  rintro _ token rest rfl
  obtain ⟨lexeme, start, chars⟩ := token
  cases lexeme with
  | identifier name => exact takes_ok ⟨_, rfl, rfl⟩
  | keyword name => exact takes_ok ⟨_, rfl, rfl⟩
  | _ => exact takes_error _

/-- Items separated by commas up to a closing mark. -/
def Listed (spelling : α → List Lexeme) (value : α → β) (good : α → Prop) (close : Char) (written : List Lexeme) (values : List β) : Prop :=
  ∃ (items : List α) (trailing : Bool),
    written = separated trailing (items.map spelling) ++ [.mark close] ∧ values = items.map value ∧ ∀ a ∈ items, good a

section Listed

variable {spelling : α → List Lexeme} {value : α → β} {good : α → Prop} {close : Char} {a : α}

theorem listed_nil : Listed spelling value good close [.mark close] [] :=
  ⟨[], false, rfl, rfl, fun a member => by cases member⟩

theorem listed_last (holds : good a) : Listed spelling value good close (spelling a ++ [.mark close]) [value a] :=
  ⟨[a], false, rfl, rfl, List.forall_mem_singleton.2 holds⟩

theorem Listed.cons {written : List Lexeme} {values : List β} (holds : good a) (listed : Listed spelling value good close written values) :
    Listed spelling value good close (spelling a ++ .mark ',' :: written) (value a :: values) := by
  obtain ⟨items, trailing, rfl, rfl, all⟩ := listed
  cases items with
  | nil => exact ⟨[a], true, by simp [separated], rfl, List.forall_mem_singleton.2 holds⟩
  | cons next more => exact ⟨a :: next :: more, trailing, by simp [separated], rfl, List.forall_mem_cons.2 ⟨holds, all⟩⟩

/-- One step of a list, after the closing mark was not found at its front. -/
theorem takes_item {item : Parsed (β × List Token)} {others : List Token → Parsed (List β × List Token)}
    (takes : Takes (fun written result => ∃ a, good a ∧ written = spelling a ∧ result = value a) tokens item)
    (takesOthers : ∀ rest, Takes (Listed spelling value good close) rest (others rest)) :
    Takes (Listed spelling value good close) tokens (do
      let (first, rest) ← item
      match afterMark? ',' rest with
      | some rest =>
        let (others, rest) ← others rest
        return (first :: others, rest)
      | none => return ([first], ← expectMark close rest)) := by
  refine takes.bind ?_
  rintro _ _ rest ⟨a, holds, rfl, rfl⟩
  dsimp only
  split
  next behind found =>
    obtain ⟨start, chars, rfl⟩ := eq_of_afterMark? found
    refine Takes.cons ((takesOthers behind).bind fun written values rest listed => takes_ok ?_)
    rw [List.append_nil]
    exact listed.cons holds
  next => exact takes_expectMark fun rest => takes_ok (listed_last holds)

end Listed

/-- An entry whose key and value are derived. -/
def Entry.Derived (entry : Entry) : Prop :=
  ∀ lexeme key spelling value, entry = .keyed lexeme key spelling value → key? lexeme = some key ∧ Derives .expression spelling value

def DerivedItem (item : List Lexeme × Expression) : Prop := Derives .expression item.1 item.2

/-- Everything that the parsers of a depth give is derived from the tokens that they take. -/
structure Sound (depth : Nat) : Prop where
  expression (tokens : List Token) : Takes (Derives .expression) tokens (parseExpression depth tokens)
  conditional (tokens : List Token) : Takes (Derives .conditional) tokens (parseConditional depth tokens)
  level {level : Nat} (positive : 1 ≤ level) (small : level ≤ 7) (tokens : List Token) :
    Takes (Derives (.level level)) tokens (parseLevel depth level tokens)
  more {level : Nat} {spelling : List Lexeme} {left : Expression} (positive : 1 ≤ level) (small : level ≤ 6)
    (derives : Derives (.level level) spelling left) (tokens : List Token) :
    Takes (fun more => Derives (.level level) (spelling ++ more)) tokens (parseMore depth level left tokens)
  power (tokens : List Token) : Takes (Derives (.level 7)) tokens (parsePower depth tokens)
  unary (tokens : List Token) : Takes (Derives .unary) tokens (parseUnary depth tokens)
  links {spelling : List Lexeme} {receiver : Expression} (derives : Derives .chain spelling receiver) (tokens : List Token) :
    Takes (fun more => Derives .chain (spelling ++ more)) tokens (parseLinks depth receiver tokens)
  index {spelling : List Lexeme} {receiver : Expression} (optional : Bool) (derives : Derives .chain spelling receiver)
    (tokens : List Token) :
    Takes (fun more => Derives .chain (spelling ++ (optionalLexemes optional ++ .mark '[' :: more))) tokens
      (parseIndex depth receiver optional tokens)
  call {spelling : List Lexeme} {callee : Expression} (optional : Bool) (derives : Derives .chain spelling callee)
    (tokens : List Token) :
    Takes (fun more => Derives .chain (spelling ++ (optionalLexemes optional ++ .mark '(' :: more))) tokens
      (parseCall depth callee optional tokens)
  list (close : Char) (tokens : List Token) :
    Takes (Listed Prod.fst Prod.snd DerivedItem close) tokens (parseList depth close tokens)
  primary (tokens : List Token) : Takes (Derives .chain) tokens (parsePrimary depth tokens)
  properties (tokens : List Token) :
    Takes (Listed Entry.spelling Entry.property Entry.Derived '\x7d') tokens (parseProperties depth tokens)
  property (tokens : List Token) :
    Takes (fun written result => ∃ entry : Entry, entry.Derived ∧ written = entry.spelling ∧ result = entry.property) tokens
      (parseProperty depth tokens)

private theorem sound_zero : Sound 0 where
  expression _ := takes_error _
  conditional _ := takes_error _
  level _ _ _ := takes_error _
  more _ _ _ _ := takes_error _
  power _ := takes_error _
  unary _ := takes_error _
  links _ _ := takes_error _
  index _ _ _ := takes_error _
  call _ _ _ := takes_error _
  list _ _ := takes_error _
  primary _ := takes_error _
  properties _ := takes_error _
  property _ := takes_error _

section Step

variable {depth : Nat} {spelling : List Lexeme} {receiver : Expression}

private theorem Sound.expression_succ (sound : Sound depth) (tokens : List Token) :
    Takes (Derives .expression) tokens (parseExpression (depth + 1) tokens) := by
  rw [parseExpression]
  split
  next params body found =>
    obtain ⟨cut, start, chars, front, rfl, sameCut, heads⟩ := eq_of_arrowHead? found
    split
    · exact takes_error _
    next other =>
      have noBrace := braced_eq_false other
      intro value rest same
      cases outcome : parseExpression depth body with
      | error fault =>
        rw [outcome] at same
        cases same
      | ok pair =>
        rw [outcome] at same
        cases same
        obtain ⟨inner, rfl, derives⟩ := sound.expression body pair.1 pair.2 outcome
        refine ⟨cut ++ ⟨.operator "=>", start, chars⟩ :: inner, by simp, ?_⟩
        rw [List.map_append, sameCut, List.map_cons]
        refine .arrow heads derives ?_
        cases inner with
        | nil => rfl
        | cons first more => rwa [List.map_append, braced_append (by simp)] at noBrace
  next => exact (sound.conditional tokens).mono fun _ _ derives => .noArrow derives

private theorem Sound.conditional_succ (sound : Sound depth) (tokens : List Token) :
    Takes (Derives .conditional) tokens (parseConditional (depth + 1) tokens) := by
  rw [parseConditional]
  refine (sound.level (by decide) (by decide) tokens).bind fun first test rest derives => ?_
  dsimp only
  split
  next => exact takes_ok (by rw [List.append_nil]; exact .noCondition derives)
  next behind found =>
    obtain ⟨start, chars, rfl⟩ := eq_of_afterOperator? found
    refine Takes.cons ((sound.expression behind).bind fun second consequent rest derivesConsequent => ?_)
    refine takes_expectMark fun rest => ?_
    refine (sound.expression rest).bind fun third alternate rest derivesAlternate => takes_ok ?_
    rw [List.append_nil]
    exact .conditional derives derivesConsequent derivesAlternate

private theorem Sound.level_succ (sound : Sound depth) {level : Nat} (positive : 1 ≤ level) (small : level ≤ 7) (tokens : List Token) :
    Takes (Derives (.level level)) tokens (parseLevel (depth + 1) level tokens) := by
  rw [parseLevel]
  split
  next lower =>
    refine (sound.level (by omega) lower tokens).bind fun spelling left rest derives => ?_
    exact sound.more positive (by omega) (.operand positive (by omega) derives) rest
  next high =>
    obtain rfl : level = 7 := by omega
    exact sound.power tokens

private theorem Sound.more_succ (sound : Sound depth) {level : Nat} {left : Expression} (positive : 1 ≤ level) (small : level ≤ 6)
    (derives : Derives (.level level) spelling left) (tokens : List Token) :
    Takes (fun more => Derives (.level level) (spelling ++ more)) tokens (parseMore (depth + 1) level left tokens) := by
  rw [parseMore]
  split
  next => exact takes_ok (by rwa [List.append_nil])
  next operator behind found =>
    obtain ⟨rfl, start, chars, rfl⟩ := eq_of_operatorAt? found
    have noPower : operator ≠ .power := by
      rintro rfl
      exact absurd small (by decide)
    refine Takes.cons ((sound.level (by omega) (by omega) behind).bind fun second right rest derivesRight => ?_)
    refine (sound.more positive small (.binary operator noPower derives derivesRight) rest).mono fun more e derived => ?_
    simpa using derived

private theorem Sound.power_succ (sound : Sound depth) (tokens : List Token) :
    Takes (Derives (.level 7)) tokens (parsePower (depth + 1) tokens) := by
  rw [parsePower]
  refine (sound.unary tokens).bind fun first base rest derives => ?_
  dsimp only
  split
  next => exact takes_ok (by rw [List.append_nil]; exact .noPower derives)
  next behind found =>
    obtain ⟨start, chars, rfl⟩ := eq_of_afterOperator? found
    refine Takes.cons ((sound.power behind).bind fun second exponent rest derivesExponent => takes_ok ?_)
    rw [List.append_nil]
    exact .power derives derivesExponent

private theorem Sound.unary_succ (sound : Sound depth) (tokens : List Token) :
    Takes (Derives .unary) tokens (parseUnary (depth + 1) tokens) := by
  rw [parseUnary]
  split
  next operator behind found =>
    obtain ⟨start, chars, rfl⟩ := eq_of_unaryAt? found
    refine Takes.cons ((sound.unary behind).bind fun spelling operand rest derives => takes_ok ?_)
    rw [List.append_nil]
    exact .unary operator derives
  next =>
    refine (sound.primary tokens).bind fun spelling receiver rest derives => ?_
    exact (sound.links derives rest).mono fun more e derived => .noSign derived

/-- A name behind a point or its optional form. -/
private theorem Sound.member (sound : Sound depth) (derives : Derives .chain spelling receiver) (optional : Bool) (rest : List Token) :
    Takes (fun more => Derives .chain (spelling ++ (if optional then .operator "?." else .mark '.') :: more)) rest (do
      let (name, rest) ← propertyName rest
      parseLinks depth (.member receiver name optional) rest) := by
  refine takes_propertyName.bind ?_
  rintro _ name rest ⟨lexeme, rfl, found⟩
  refine (sound.links (.member optional derives found) rest).mono fun more e derived => ?_
  simpa using derived

private theorem Sound.links_succ (sound : Sound depth) (derives : Derives .chain spelling receiver) (tokens : List Token) :
    Takes (fun more => Derives .chain (spelling ++ more)) tokens (parseLinks (depth + 1) receiver tokens) := by
  rw [parseLinks.eq_def]
  dsimp only
  split
  next => exact Takes.cons (sound.member derives false _)
  next => exact Takes.cons (sound.index false derives _)
  next => exact Takes.cons (sound.call false derives _)
  next =>
    split
    next => exact Takes.cons (Takes.cons (sound.call true derives _))
    next => exact Takes.cons (Takes.cons (sound.index true derives _))
    next => exact Takes.cons (sound.member derives true _)
  next => exact takes_ok (by rwa [List.append_nil])

private theorem Sound.index_succ (sound : Sound depth) (optional : Bool) (derives : Derives .chain spelling receiver)
    (tokens : List Token) :
    Takes (fun more => Derives .chain (spelling ++ (optionalLexemes optional ++ .mark '[' :: more))) tokens
      (parseIndex (depth + 1) receiver optional tokens) := by
  rw [parseIndex]
  refine (sound.expression tokens).bind fun inner key rest derivesKey => ?_
  refine takes_expectMark fun rest => ?_
  refine (sound.links (.index optional derives derivesKey) rest).mono fun more e derived => ?_
  simpa using derived

private theorem Sound.call_succ (sound : Sound depth) (optional : Bool) (derives : Derives .chain spelling receiver)
    (tokens : List Token) :
    Takes (fun more => Derives .chain (spelling ++ (optionalLexemes optional ++ .mark '(' :: more))) tokens
      (parseCall (depth + 1) receiver optional tokens) := by
  rw [parseCall]
  refine (sound.list ')' tokens).bind ?_
  rintro _ _ rest ⟨items, trailing, rfl, rfl, derivesAll⟩
  refine (sound.links (.call optional trailing derives derivesAll) rest).mono fun more e derived => ?_
  simpa using derived

private theorem Sound.list_succ (sound : Sound depth) (close : Char) (tokens : List Token) :
    Takes (Listed Prod.fst Prod.snd DerivedItem close) tokens (parseList (depth + 1) close tokens) := by
  rw [parseList]
  split
  next behind found =>
    obtain ⟨start, chars, rfl⟩ := eq_of_afterMark? found
    exact takes_one listed_nil
  next =>
    refine takes_item ?_ (sound.list close)
    exact (sound.expression tokens).mono fun written e derives => ⟨(written, e), derives, rfl, rfl⟩

private theorem Sound.primary_succ (sound : Sound depth) (tokens : List Token) :
    Takes (Derives .chain) tokens (parsePrimary (depth + 1) tokens) := by
  rw [parsePrimary]
  refine takes_next.bind ?_
  rintro _ token rest rfl
  dsimp only
  split
  next mark =>
    rw [mark]
    refine (sound.expression rest).bind fun inner e rest derives => ?_
    exact takes_expectMark fun rest => takes_ok (.enclosed derives)
  next mark =>
    rw [mark]
    refine (sound.list ']' rest).bind ?_
    rintro _ _ rest ⟨items, trailing, rfl, rfl, derivesAll⟩
    refine takes_ok ?_
    rw [List.append_nil]
    exact .array trailing derivesAll
  next mark =>
    rw [mark]
    refine (sound.properties rest).bind ?_
    rintro _ _ rest ⟨entries, trailing, rfl, rfl, derivesAll⟩
    refine takes_ok ?_
    rw [List.append_nil]
    exact .object trailing (fun lexeme key spelling value member => (derivesAll _ member lexeme key spelling value rfl).1)
      fun lexeme key spelling value member => (derivesAll _ member lexeme key spelling value rfl).2
  next =>
    split
    next e found => exact takes_ok (.atom found)
    next => exact takes_error _

private theorem Sound.properties_succ (sound : Sound depth) (tokens : List Token) :
    Takes (Listed Entry.spelling Entry.property Entry.Derived '\x7d') tokens (parseProperties (depth + 1) tokens) := by
  rw [parseProperties]
  split
  next behind found =>
    obtain ⟨start, chars, rfl⟩ := eq_of_afterMark? found
    exact takes_one listed_nil
  next => exact takes_item (sound.property tokens) sound.properties

private theorem Sound.property_succ (sound : Sound depth) (tokens : List Token) :
    Takes (fun written result => ∃ entry : Entry, entry.Derived ∧ written = entry.spelling ∧ result = entry.property) tokens
      (parseProperty (depth + 1) tokens) := by
  rw [parseProperty]
  refine takes_next.bind ?_
  rintro _ token rest rfl
  dsimp only
  split
  next name lexeme _ =>
    rw [lexeme]
    exact takes_ok ⟨.shorthand name, fun _ _ _ _ other => (by cases other), rfl, rfl⟩
  next =>
    split
    next => exact takes_error _
    next key found =>
      refine takes_expectMark fun rest => ?_
      refine (sound.expression rest).bind fun spelling value rest derives => takes_ok ?_
      refine ⟨.keyed token.lexeme key spelling value, ?_, by simp [Entry.spelling], rfl⟩
      rintro _ _ _ _ ⟨rfl, rfl, rfl, rfl⟩
      exact ⟨found, derives⟩

end Step

theorem sound (depth : Nat) : Sound depth := by
  induction depth with
  | zero => exact sound_zero
  | succ depth ih =>
    exact {
      expression := ih.expression_succ
      conditional := ih.conditional_succ
      level := ih.level_succ
      more := ih.more_succ
      power := ih.power_succ
      unary := ih.unary_succ
      links := ih.links_succ
      index := ih.index_succ
      call := ih.call_succ
      list := ih.list_succ
      primary := ih.primary_succ
      properties := ih.properties_succ
      property := ih.property_succ }

end ReactiveMarkup.Expression
