import ReactiveMarkup.Proofs.Derivations

/-! The texts that the parser accepts. A text is accepted exactly if the grammar derives an
expression from all of its tokens, and at a place in a text no longer run of tokens than the one
that is read derives anything. -/

namespace ReactiveMarkup.Expression

variable {α β : Type} {spells : List Lexeme → α → Prop} {tokens rest : List Token}

/-! The longest run of tokens. -/

theorem Takes.length_le {parsed : Parsed (α × List Token)} {value : α} (takes : Takes spells tokens parsed)
    (same : parsed = .ok (value, rest)) : rest.length ≤ tokens.length := by
  obtain ⟨cut, rfl, _⟩ := takes value rest same
  simp

theorem ok_bind {first : Parsed α} {next : α → Parsed β} {value : β} (same : first >>= next = .ok value) :
    ∃ middle, first = .ok middle ∧ next middle = .ok value := by
  cases first with
  | error fault => cases same
  | ok middle => exact ⟨middle, rfl, same⟩

/-- Whatever the parser of a place reads is not shorter than the given tokens. -/
def Passes (place : Nat) (spelling : List Lexeme) : Prop :=
  ∀ depth cut rest e behind, cut.map Token.lexeme = spelling → 16 * cut.length + reserve place ≤ depth →
    parserAt place depth (cut ++ rest) = .ok (e, behind) → behind.length ≤ rest.length

section Passes

variable {spelling : List Lexeme} {e : Expression}

/-- More accesses and calls may follow a chain. -/
theorem passes_of_chain (derives : Derives .chain spelling e) : Passes 9 spelling := by
  intro depth cut rest other behind same enough parsed
  have links := (back_of_derives derives).readable.links (Nat.le_refl 10)
  obtain ⟨left, _, followed⟩ := links depth cut rest same (by simp only [reserve] at enough; omega)
  rw [parserAt_nine] at parsed
  rw [parsed] at followed
  exact ((sound left).links derives rest).length_le (ok_of_toOption followed.symm)

theorem Passes.unary (passes : Passes 9 spelling) (operator : UnaryOperator) : Passes 9 (unaryLexeme operator :: spelling) := by
  intro depth cut rest other behind same enough parsed
  obtain ⟨start, chars, tail, rfl, sameTail⟩ := exists_of_map_cons same
  simp only [reserve, List.length_cons] at enough
  obtain ⟨depth, rfl⟩ : ∃ more, depth = more + 1 := ⟨depth - 1, by omega⟩
  have found : unaryAt? (⟨unaryLexeme operator, start, chars⟩ :: (tail ++ rest)) = some (operator, tail ++ rest) := by
    cases operator <;> rfl
  rw [parserAt_nine, List.cons_append, parseUnary, found] at parsed
  obtain ⟨⟨operand, left⟩, inner, done⟩ := ok_bind parsed
  cases done
  exact passes depth tail rest operand behind sameTail (by simp only [reserve]; omega) inner

/-- Another power may follow an operand. -/
theorem Passes.base (passes : Passes 9 spelling) : Passes 8 spelling := by
  intro depth cut rest other behind same enough parsed
  obtain ⟨depth, rfl⟩ : ∃ more, depth = more + 1 := ⟨depth - 1, by simp only [reserve] at enough; omega⟩
  rw [parserAt_eight, parsePower] at parsed
  obtain ⟨⟨base, left⟩, inner, done⟩ := ok_bind parsed
  have short := passes depth cut rest base left same (by simp only [reserve] at enough ⊢; omega) inner
  refine Nat.le_trans ?_ short
  dsimp only at done
  split at done
  next =>
    cases done
    exact Nat.le_refl _
  next more found =>
    obtain ⟨start, chars, rfl⟩ := eq_of_afterOperator? found
    refine Takes.length_le (?_ : Takes (fun _ _ => True) _ _) done
    exact Takes.cons (((sound depth).power more).bind fun _ _ _ _ => takes_ok trivial)

theorem passes_power {right : List Lexeme} (derives : Derives .unary spelling e) (passes : Passes 8 right) :
    Passes 8 (spelling ++ .operator "**" :: right) := by
  intro depth cut rest other behind same enough parsed
  obtain ⟨front, back, rfl, sameFront, sameBack⟩ := List.map_eq_append_iff.1 same
  obtain ⟨start, chars, tail, rfl, sameTail⟩ := exists_of_map_cons sameBack
  simp only [reserve, List.length_append, List.length_cons] at enough
  obtain ⟨depth, rfl⟩ : ∃ more, depth = more + 1 := ⟨depth - 1, by omega⟩
  have ends : Ends 9 (⟨.operator "**", start, chars⟩ :: (tail ++ rest)) := by
    rintro _ _ ⟨rfl, rfl⟩
    exact Nat.le_refl 9
  have base := (back_of_derives derives).readable.reads 9 (by decide) (Nat.le_refl 9) depth front _ sameFront
    (by simp only [reserve]; omega) ends
  rw [parserAt_nine] at base
  rw [parserAt_eight, List.append_assoc, List.cons_append, parsePower] at parsed
  obtain ⟨first, isBase, parsed⟩ := ok_bind parsed
  rw [ok_of_toOption base] at isBase
  cases isBase
  simp only [afterOperator?, if_true] at parsed
  obtain ⟨⟨exponent, left⟩, inner, done⟩ := ok_bind parsed
  cases done
  exact passes depth tail rest exponent left sameTail (by simp only [reserve]; omega) inner

/-- The operands of a level are read at the next place. -/
theorem Passes.nextLevel {level : Nat} (passes : Passes (level + 2) spelling) (positive : 1 ≤ level) (small : level ≤ 6)
    {depth : Nat} {cut rest behind : List Token} (same : cut.map Token.lexeme = spelling)
    (enough : 16 * cut.length + reserve (level + 1) ≤ depth + 1) (parsed : parseLevel depth (level + 1) (cut ++ rest) = .ok (e, behind)) :
    behind.length ≤ rest.length := by
  obtain last | inner : level = 6 ∨ level ≤ 5 := by omega
  · subst last
    obtain ⟨depth, rfl⟩ : ∃ more, depth = more + 1 := ⟨depth - 1, by simp only [reserve] at enough; omega⟩
    rw [parseLevel_seven] at parsed
    exact passes depth cut rest e behind same (by simp only [reserve] at enough ⊢; omega) parsed
  · rw [← parserAt_level (by omega) (by omega)] at parsed
    exact passes depth cut rest e behind same (by simp only [reserve] at enough ⊢; omega) parsed

/-- More operators of the level may follow an operand. -/
theorem Passes.operand {level : Nat} (positive : 1 ≤ level) (small : level ≤ 6) (passes : Passes (level + 2) spelling) :
    Passes (level + 1) spelling := by
  intro depth cut rest other behind same enough parsed
  obtain ⟨depth, rfl⟩ : ∃ more, depth = more + 1 := ⟨depth - 1, by simp only [reserve] at enough; omega⟩
  rw [parserAt_level positive small, parseLevel, if_pos (by omega)] at parsed
  obtain ⟨⟨first, left⟩, inner, done⟩ := ok_bind parsed
  obtain ⟨taken, _, derives⟩ := (sound depth).level (by omega) (by omega) _ first left inner
  have more := (sound depth).more positive small (.operand positive small derives) left
  exact Nat.le_trans (more.length_le done) (passes.nextLevel positive small same enough inner)

theorem passes_binary {operator : BinaryOperator} {right : List Lexeme} (noPower : operator ≠ .power)
    (derives : Derives (.level operator.level) spelling e) (passes : Passes (operator.level + 2) right) :
    Passes (operator.level + 1) (spelling ++ .operator operator.symbol :: right) := by
  intro depth cut rest other behind same enough parsed
  obtain ⟨front, back, rfl, sameFront, sameBack⟩ := List.map_eq_append_iff.1 same
  obtain ⟨start, chars, tail, rfl, sameTail⟩ := exists_of_map_cons sameBack
  have positive : 1 ≤ operator.level := by cases operator <;> decide
  have small : operator.level ≤ 6 := by
    cases operator with
    | power => exact absurd rfl noPower
    | _ => decide
  have room : 0 < reserve (operator.level + 1) := by simp only [reserve]; omega
  simp only [List.length_append, List.length_cons] at enough
  have ends : Ends (operator.level + 2) (⟨.operator operator.symbol, start, chars⟩ :: (tail ++ rest)) := by
    rintro _ _ ⟨rfl, rfl⟩
    exact Nat.le_of_eq (binding_binary operator)
  obtain ⟨left, bound, followed⟩ := (back_of_derives derives).readable.chains operator.level positive small (Nat.le_refl _) depth front _
    sameFront (by omega) ends
  obtain ⟨left, rfl⟩ : ∃ more, left = more + 1 := ⟨left - 1, by omega⟩
  rw [parserAt_level positive small, List.append_assoc, List.cons_append] at parsed
  rw [parsed, Option.bind_some] at followed
  have more := ok_of_toOption followed.symm
  simp only [parseMore, operatorAt?, ofSymbol?_symbol, if_true] at more
  obtain ⟨⟨second, between⟩, inner, done⟩ := ok_bind more
  obtain ⟨taken, _, derivesRight⟩ := (sound left).level (by omega) (by omega) _ second between inner
  have others := (sound left).more positive small (.binary operator noPower derives derivesRight) between
  exact Nat.le_trans (others.length_le done) (passes.nextLevel positive small sameTail (by omega) inner)

/-- A condition may follow its test. -/
theorem Passes.test (passes : Passes 2 spelling) : Passes 1 spelling := by
  intro depth cut rest other behind same enough parsed
  obtain ⟨depth, rfl⟩ : ∃ more, depth = more + 1 := ⟨depth - 1, by simp only [reserve] at enough; omega⟩
  rw [parserAt_one, parseConditional] at parsed
  obtain ⟨⟨test, left⟩, inner, done⟩ := ok_bind parsed
  rw [← parserAt_level (by decide) (by decide)] at inner
  have short := passes depth cut rest test left same (by simp only [reserve] at enough ⊢; omega) inner
  refine Nat.le_trans ?_ short
  dsimp only at done
  split at done
  next =>
    cases done
    exact Nat.le_refl _
  next more found =>
    obtain ⟨start, chars, rfl⟩ := eq_of_afterOperator? found
    refine Takes.length_le (?_ : Takes (fun _ _ => True) _ _) done
    refine Takes.cons (((sound depth).expression more).bind fun _ _ _ _ => takes_expectMark fun rest => ?_)
    exact ((sound depth).expression rest).bind fun _ _ _ _ => takes_ok trivial

theorem passes_conditional {middle last : List Lexeme} {consequent : Expression} (derives : Derives (.level 1) spelling e)
    (derivesMiddle : Derives .expression middle consequent) (passes : Passes 0 last) :
    Passes 1 (spelling ++ .operator "?" :: (middle ++ .mark ':' :: last)) := by
  intro depth cut rest other left same enough parsed
  obtain ⟨front, back, rfl, sameFront, sameBack⟩ := List.map_eq_append_iff.1 same
  obtain ⟨start, chars, tail, rfl, sameTail⟩ := exists_of_map_cons sameBack
  obtain ⟨between, back, rfl, sameBetween, sameLast⟩ := List.map_eq_append_iff.1 sameTail
  obtain ⟨start', chars', behind, rfl, sameBehind⟩ := exists_of_map_cons sameLast
  simp only [reserve, List.length_append, List.length_cons] at enough
  obtain ⟨depth, rfl⟩ : ∃ more, depth = more + 1 := ⟨depth - 1, by omega⟩
  have ends : Ends 2 (⟨.operator "?", start, chars⟩ :: (between ++ ⟨.mark ':', start', chars'⟩ :: (behind ++ rest))) := by
    rintro _ _ ⟨rfl, rfl⟩
    exact Nat.le_refl 2
  have test := (back_of_derives derives).readable.reads 2 (by decide) (Nat.le_refl 2) depth front _ sameFront
    (by simp only [reserve]; omega) ends
  have middle := (back_of_derives derivesMiddle).reads depth between (⟨.mark ':', start', chars'⟩ :: (behind ++ rest)) sameBetween
    (by simp only [reserve]; omega) (ends_mark rfl 0)
  rw [parserAt_level (by decide) (by decide)] at test
  rw [parserAt_zero] at middle
  simp only [parserAt_one, List.append_assoc, List.cons_append, parseConditional] at parsed
  obtain ⟨first, isTest, parsed⟩ := ok_bind parsed
  rw [ok_of_toOption test] at isTest
  cases isTest
  simp only [afterOperator?, if_true] at parsed
  obtain ⟨second, isMiddle, parsed⟩ := ok_bind parsed
  rw [ok_of_toOption middle] at isMiddle
  cases isMiddle
  obtain ⟨third, isColon, parsed⟩ := ok_bind parsed
  simp only [expectMark, if_true] at isColon
  cases isColon
  obtain ⟨⟨alternate, more⟩, inner, done⟩ := ok_bind parsed
  cases done
  exact passes depth behind rest alternate more sameBehind (by simp only [reserve]; omega) inner

/-- Tokens in front of an arrow may be its parameters. -/
theorem passes_noArrow (derives : Derives .conditional spelling e) (passes : Passes 1 spelling) : Passes 0 spelling := by
  intro depth cut rest other behind same enough parsed
  obtain ⟨depth, rfl⟩ : ∃ more, depth = more + 1 := ⟨depth - 1, by simp only [reserve] at enough; omega⟩
  rw [parserAt_zero, parseExpression] at parsed
  split at parsed
  next params body found =>
    have headless := (back_of_derives derives).headless (Nat.le_refl 1)
    obtain ⟨start, chars, rfl⟩ := eq_of_afterOperator? (headless cut rest params body same found)
    split at parsed
    · cases parsed
    · obtain ⟨⟨value, left⟩, inner, done⟩ := ok_bind parsed
      cases done
      have short := ((sound depth).expression body).length_le inner
      rw [List.length_cons]
      omega
  next => exact passes depth cut rest other behind same (by simp only [reserve] at enough ⊢; omega) parsed

theorem passes_arrow {front : List Lexeme} {params : List String} (heads : Heads front params) (passes : Passes 0 spelling) :
    Passes 0 (front ++ .operator "=>" :: spelling) := by
  intro depth cut rest other behind same enough parsed
  obtain ⟨head, back, rfl, sameHead, sameBack⟩ := List.map_eq_append_iff.1 same
  obtain ⟨start, chars, body, rfl, sameBody⟩ := exists_of_map_cons sameBack
  simp only [reserve, List.length_append, List.length_cons] at enough
  obtain ⟨depth, rfl⟩ : ∃ more, depth = more + 1 := ⟨depth - 1, by omega⟩
  rw [parserAt_zero, List.append_assoc, List.cons_append, parseExpression, heads.arrowHead? sameHead] at parsed
  dsimp only at parsed
  split at parsed
  · cases parsed
  · obtain ⟨⟨value, left⟩, inner, done⟩ := ok_bind parsed
    cases done
    exact passes depth body rest value left sameBody (by simp only [reserve]; omega) inner

theorem passes_of_derives {place : Place} (derives : Derives place spelling e) (noChain : place ≠ .chain) :
    Passes place.rank spelling := by
  induction derives with
  | arrow heads _ _ ih => exact passes_arrow heads (ih (by decide))
  | noArrow derives ih => exact passes_noArrow derives (ih (by decide))
  | conditional derives derivesConsequent _ _ _ ih => exact passes_conditional derives derivesConsequent (ih (by decide))
  | noCondition _ ih => exact (ih (by decide)).test
  | binary operator noPower derives _ _ ih => exact passes_binary noPower derives (ih (by simp))
  | operand positive small _ ih => exact (ih (by simp)).operand positive small
  | power derives _ _ ih => exact passes_power derives (ih (by decide))
  | noPower _ ih => exact (ih (by decide)).base
  | unary operator _ ih => exact (ih (by decide)).unary operator
  | noSign derives _ => exact passes_of_chain derives
  | member | index | call | atom | enclosed | array | object => exact absurd rfl noChain

end Passes

/-! Tokens in a text. -/

theorem mem_tokens {offset : Nat} {chars : List Char} {token : Token} (member : token ∈ Expression.tokens offset chars) :
    ∃ before behind, chars = before ++ token.chars ++ behind ∧ token.start = offset + Text.byteSize before := by
  fun_induction Expression.tokens offset chars with
  | case1 => cases member
  | case2 offset c rest blank ih =>
    obtain ⟨before, behind, rfl, start⟩ := ih member
    exact ⟨c :: before, behind, rfl, by rw [start, Text.byteSize]; omega⟩
  | case3 offset c rest visible lexeme width scanned first ih =>
    obtain rfl | member := List.mem_cons.1 member
    · exact ⟨[], rest.drop (width - 1), by simp [first], rfl⟩
    · obtain ⟨before, behind, shape, start⟩ := ih member
      refine ⟨first.chars ++ before, behind, ?_, ?_⟩
      · rw [List.append_assoc, List.append_assoc, ← List.append_assoc before, ← shape]
        simp [first]
      · rw [start, Token.stop, Text.byteSize_append]
        simp only [first]
        omega

/-- Each token ends before the next one starts. -/
theorem pairwise_tokens (offset : Nat) (chars : List Char) :
    (Expression.tokens offset chars).Pairwise fun first second => first.stop ≤ second.start := by
  fun_induction Expression.tokens offset chars with
  | case1 => exact .nil
  | case2 offset c rest blank ih => exact ih
  | case3 offset c rest visible lexeme width scanned first ih =>
    refine .cons (fun second member => ?_) ih
    obtain ⟨before, behind, _, start⟩ := mem_tokens member
    omega

def Lexeme.isFault : Lexeme → Bool
  | .fault _ => true
  | _ => false

def faultless (spelling : List Lexeme) : Bool := spelling.all fun lexeme => !lexeme.isFault

@[simp] theorem faultless_nil : faultless [] = true := rfl

@[simp] theorem faultless_cons (lexeme : Lexeme) (more : List Lexeme) :
    faultless (lexeme :: more) = (!lexeme.isFault && faultless more) := rfl

@[simp] theorem faultless_append (first second : List Lexeme) :
    faultless (first ++ second) = (faultless first && faultless second) := List.all_append

theorem faultless_separated (trailing : Bool) (parts : List (List Lexeme)) (all : ∀ part ∈ parts, faultless part = true) :
    faultless (separated trailing parts) = true := by
  induction parts with
  | nil => rfl
  | cons part more ih =>
    have first := all part (List.mem_cons_self ..)
    have others := ih fun other member => all other (List.mem_cons_of_mem _ member)
    cases more with
    | nil => cases trailing <;> simp [separated, first, Lexeme.isFault]
    | cons next rest => simp [separated, first, others, Lexeme.isFault]

theorem Heads.faultless {front : List Lexeme} {params : List String} (heads : Heads front params) : faultless front = true := by
  cases heads with
  | name name => rfl
  | names =>
    have inner := faultless_separated false (params.map fun name => [Lexeme.identifier name]) fun part member => by
      obtain ⟨name, _, rfl⟩ := List.mem_map.1 member
      rfl
    rw [separated_false] at inner
    simp [inner, Lexeme.isFault]

/-- No faulty token is part of an expression. -/
theorem Derives.faultless {place : Place} {spelling : List Lexeme} {e : Expression} (derives : Derives place spelling e) :
    faultless spelling = true := by
  induction derives with
  | arrow heads _ _ ih => simp [heads.faultless, ih, Lexeme.isFault]
  | conditional _ _ _ ih ihConsequent ihAlternate => simp [ih, ihConsequent, ihAlternate, Lexeme.isFault]
  | binary operator _ _ _ ih ihRight => simp [ih, ihRight, Lexeme.isFault]
  | power _ _ ih ihExponent => simp [ih, ihExponent, Lexeme.isFault]
  | unary operator _ ih => cases operator <;> simp [ih, unaryLexeme, Lexeme.isFault]
  | @member _ _ lexeme _ optional _ found ih =>
    cases lexeme with
    | fault cause => cases found
    | _ => cases optional <;> simp [ih, Lexeme.isFault]
  | index optional _ _ ih ihKey => cases optional <;> simp [ih, ihKey, optionalLexemes, Lexeme.isFault]
  | @call _ _ arguments optional trailing _ _ ih ihAll =>
    have inner := faultless_separated trailing (arguments.map Prod.fst) fun part member => by
      obtain ⟨item, among, rfl⟩ := List.mem_map.1 member
      exact ihAll item among
    cases optional <;> simp [ih, inner, optionalLexemes, Lexeme.isFault]
  | @atom lexeme _ found =>
    cases lexeme with
    | fault cause => cases found
    | _ => rfl
  | enclosed _ ih => simp [ih, Lexeme.isFault]
  | @array items trailing _ ih =>
    have inner := faultless_separated trailing (items.map Prod.fst) fun part member => by
      obtain ⟨item, among, rfl⟩ := List.mem_map.1 member
      exact ih item among
    simp [inner, Lexeme.isFault]
  | @object entries trailing keys _ ih =>
    have inner := faultless_separated trailing (entries.map Entry.spelling) fun part member => by
      obtain ⟨entry, among, rfl⟩ := List.mem_map.1 member
      cases entry with
      | shorthand name => rfl
      | keyed lexeme key spelling value =>
        have found := keys lexeme key spelling value among
        have inside := ih lexeme key spelling value among
        cases lexeme with
        | fault cause => cases found
        | _ => simp [Entry.spelling, inside, Lexeme.isFault]
    simp [inner, Lexeme.isFault]
  | noArrow _ ih | noCondition _ ih | operand _ _ _ ih | noPower _ ih | noSign _ ih => exact ih

/-! The language of the parser. -/

theorem parseTokens_eq_ok_iff {e : Expression} :
    parseTokens tokens = .ok (e, []) ↔ Derives .expression (tokens.map Token.lexeme) e := by
  constructor
  · intro parsed
    obtain ⟨cut, rfl, derives⟩ := (sound _).expression tokens e [] parsed
    rwa [List.append_nil]
  · intro derives
    have read := (back_of_derives derives).reads (16 * (tokens.length + 1)) tokens [] rfl (by simp only [reserve]; omega) (by
      rintro _ _ ⟨⟩)
    rw [List.append_nil] at read
    exact ok_of_toOption read

theorem parse_eq_ok_iff {source : Source} {e : Expression} :
    parse source = .ok e ↔ parseTokens (Expression.tokens 0 source.content.toList) = .ok (e, []) := by
  rw [parse, parseWhole]
  cases outcome : parseTokens (Expression.tokens 0 source.content.toList) with
  | error fault => constructor <;> rintro ⟨⟩
  | ok pair =>
    obtain ⟨value, rest⟩ := pair
    cases rest with
    | nil => constructor <;> rintro ⟨⟩ <;> rfl
    | cons token more => constructor <;> rintro ⟨⟩

/-- No expression is empty. -/
theorem Derives.ne_nil {place : Place} {spelling : List Lexeme} {e : Expression} (derives : Derives place spelling e) : spelling ≠ [] := by
  obtain ⟨lexeme, more, rfl, _⟩ := (back_of_derives derives).opening.first
  simp

/-- Where an expression that is read at a cursor stands in the tokens of the text. -/
structure Stops (tokens cut rest : List Token) (start stop : Nat) : Prop where
  all : tokens = cut ++ rest
  inside : ∀ token ∈ cut, start ≤ token.start ∧ token.stop ≤ stop
  behind : ∀ token ∈ rest, stop ≤ token.start

theorem exists_stops_of_parseAt {cursor behind : Cursor} {e : Expression} (parsed : parseAt cursor = .ok (e, behind)) :
    ∃ cut rest, Stops (Expression.tokens cursor.offset cursor.rest) cut rest cursor.offset behind.offset ∧
      parseTokens (cut ++ rest) = .ok (e, rest) ∧ Derives .expression (cut.map Token.lexeme) e := by
  rw [parseAt] at parsed
  obtain ⟨⟨value, rest⟩, outcome, done⟩ := ok_bind parsed
  obtain ⟨cut, shape, derives⟩ := (sound _).expression _ value rest outcome
  have nonempty : cut ≠ [] := by
    rintro rfl
    exact derives.ne_nil rfl
  have lastOf : cut.getLast? = some (cut.getLast nonempty) := List.getLast?_eq_some_getLast nonempty
  have member : cut.getLast nonempty ∈ Expression.tokens cursor.offset cursor.rest := by
    rw [shape]
    exact List.mem_append_left _ (List.getLast_mem nonempty)
  obtain ⟨before, after, chars, start⟩ := mem_tokens member
  have stop : (cut.getLast nonempty).stop = cursor.offset + Text.byteSize (before ++ (cut.getLast nonempty).chars) := by
    rw [Token.stop, start, Text.byteSize_append, Nat.add_assoc]
  have sorted := pairwise_tokens cursor.offset cursor.rest
  simp only [shape, List.length_append, Nat.add_sub_cancel, List.take_left', lastOf, Option.elim_some, stop] at done
  obtain ⟨offset, text⟩ := cursor
  dsimp only at chars shape sorted start done ⊢
  rw [chars, Cursor.moveTo_append] at done
  cases done
  refine ⟨cut, rest, ⟨shape, ?_, ?_⟩, shape ▸ outcome, derives⟩
  · intro token among
    obtain ⟨_, _, _, start⟩ := mem_tokens (shape ▸ List.mem_append_left rest among)
    refine ⟨by omega, ?_⟩
    rw [← stop]
    rw [shape, List.pairwise_append] at sorted
    rw [← List.dropLast_concat_getLast nonempty] at sorted among
    obtain earlier | last := List.mem_append.1 among
    · have before := (List.pairwise_append.1 sorted.1).2.2 token earlier _ (List.mem_singleton_self _)
      exact Nat.le_trans before (Nat.le_add_right ..)
    · rw [List.mem_singleton.1 last]
  · intro token among
    rw [shape, List.pairwise_append] at sorted
    rw [← stop]
    exact sorted.2.2 _ (List.getLast_mem nonempty) token among

/-- The parser accepts the texts whose tokens derive an expression, and no others. At a cursor it
reads the longest run of tokens that derives one. -/
theorem parse_iff_derives (source : Source) :
    (∀ e, parse source = .ok e ↔
      (∀ token ∈ Expression.tokens 0 source.content.toList, token.lexeme.isFault = false) ∧
        Derives .expression ((Expression.tokens 0 source.content.toList).map Token.lexeme) e) ∧
    (∀ e other, Derives .expression ((Expression.tokens 0 source.content.toList).map Token.lexeme) e →
      Derives .expression ((Expression.tokens 0 source.content.toList).map Token.lexeme) other → other = e) ∧
    ∀ cursor e behind, parseAt cursor = .ok (e, behind) →
      ∃ cut rest, Stops (Expression.tokens cursor.offset cursor.rest) cut rest cursor.offset behind.offset ∧
        Derives .expression (cut.map Token.lexeme) e ∧
        ∀ more others longer, rest = more ++ others → more ≠ [] → ¬ Derives .expression ((cut ++ more).map Token.lexeme) longer := by
  refine ⟨fun e => ?_, fun e other derives derivesOther => ?_, fun cursor e behind parsed => ?_⟩
  · rw [parse_eq_ok_iff, parseTokens_eq_ok_iff, iff_and_self]
    intro derives token member
    have faultless := derives.faultless
    rw [Expression.faultless, List.all_eq_true] at faultless
    simpa using faultless token.lexeme (List.mem_map_of_mem member)
  · have first := parseTokens_eq_ok_iff.2 derives
    have second := parseTokens_eq_ok_iff.2 derivesOther
    rw [first] at second
    cases second
    rfl
  · obtain ⟨cut, rest, stops, outcome, derives⟩ := exists_stops_of_parseAt parsed
    refine ⟨cut, rest, stops, derives, ?_⟩
    rintro more others longer rfl nonempty derivesLonger
    have enough : 16 * (cut ++ more).length + reserve 0 ≤ 16 * ((cut ++ (more ++ others)).length + 1) := by
      simp only [reserve, List.length_append]
      omega
    have passes := passes_of_derives derivesLonger (by decide) _ (cut ++ more) others e (more ++ others) rfl enough
    rw [List.append_assoc] at passes
    have short := passes outcome
    have positive := List.length_pos_iff.2 nonempty
    rw [List.length_append] at short
    omega

end ReactiveMarkup.Expression
