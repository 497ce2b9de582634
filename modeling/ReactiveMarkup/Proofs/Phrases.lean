import ReactiveMarkup.Proofs.Precedence

/-! The forms of expressions, each read from the tokens that spell it. -/

namespace ReactiveMarkup.Expression

variable {spelling : List Lexeme} {result : Option Expression}

/-! Primary expressions. -/

theorem links_of_primary {lexeme : Lexeme} (notUnary : ∀ start chars rest, unaryAt? (⟨lexeme, start, chars⟩ :: rest) = none)
    (primary : ∀ depth start chars cut rest, cut.map Token.lexeme = spelling → 16 * cut.length + 16 ≤ depth →
      (parsePrimary depth (⟨lexeme, start, chars⟩ :: cut ++ rest)).toOption = result.map (·, rest)) :
    Links (lexeme :: spelling) result := by
  intro depth cut rest same enough
  obtain ⟨start, chars, more, rfl, sameMore⟩ := exists_of_map_cons same
  rw [List.length_cons] at enough ⊢
  obtain ⟨depth, rfl⟩ : ∃ more, depth = more + 1 := ⟨depth - 1, by omega⟩
  refine ⟨depth, by omega, ?_⟩
  rw [List.cons_append, parseUnary, notUnary, toOption_bind]
  rw [← List.cons_append, primary depth start chars more rest sameMore (by omega)]
  cases result <;> rfl

theorem links_atom {lexeme : Lexeme} {e : Expression} (atom : atom? lexeme = some e) : Links [lexeme] (some e) := by
  have notUnary : ∀ start chars rest, unaryAt? (⟨lexeme, start, chars⟩ :: rest) = none := by
    intro start chars rest
    rw [unaryAt?.eq_def]
    split
    next shape => cases shape; cases atom
    next shape => cases shape; cases atom
    next shape => cases shape; cases atom
    next shape => cases shape; cases atom
    next => rfl
  refine links_of_primary notUnary fun depth start chars cut rest same enough => ?_
  rw [List.map_eq_nil_iff] at same
  subst same
  obtain ⟨depth, rfl⟩ : ∃ more, depth = more + 1 := ⟨depth - 1, by omega⟩
  cases lexeme with
  | mark c => cases atom
  | operator symbol => cases atom
  | fault cause => cases atom
  | number value => cases atom; rfl
  | string value => cases atom; rfl
  | identifier name => cases atom; rfl
  | keyword name => simp [parsePrimary, next, atom]

theorem ends_mark {c : Char} (plain : binding (.mark c) = 0) {start : Nat} {chars : List Char} {rest : List Token} (place : Nat) :
    Ends place (⟨.mark c, start, chars⟩ :: rest) := by
  rintro _ _ ⟨rfl, rfl⟩
  rw [plain]
  exact Nat.zero_le place

theorem links_bracketed {mark close : Char}
    (inside : ∀ depth start chars cut start' chars' rest, cut.map Token.lexeme = spelling → 16 * cut.length + 16 ≤ depth →
      (parsePrimary (depth + 1) (⟨.mark mark, start, chars⟩ :: (cut ++ ⟨.mark close, start', chars'⟩ :: rest))).toOption =
        result.map (·, rest)) :
    Links (.mark mark :: spelling ++ [.mark close]) result := by
  refine links_of_primary (fun _ _ _ => rfl) fun depth start chars cut rest same enough => ?_
  obtain ⟨inner, back, rfl, sameInner, sameBack⟩ := List.map_eq_append_iff.1 same
  obtain ⟨start', chars', none', rfl, empty⟩ := exists_of_map_cons sameBack
  rw [List.map_eq_nil_iff] at empty
  subst empty
  simp only [List.length_append, List.length_cons] at enough
  obtain ⟨depth, rfl⟩ : ∃ more, depth = more + 1 := ⟨depth - 1, by omega⟩
  rw [List.cons_append, List.append_assoc, List.singleton_append]
  exact inside depth start chars inner start' chars' rest sameInner (by omega)

theorem links_enclosed (reads : Reads 0 spelling result) : Links (.mark '(' :: spelling ++ [.mark ')']) result := by
  refine links_bracketed fun depth start chars cut start' chars' rest same enough => ?_
  have parsed := reads depth cut (⟨.mark ')', start', chars'⟩ :: rest) same (by simp only [reserve]; omega) (ends_mark rfl 0)
  rw [parserAt] at parsed
  simp only [parsePrimary, next, toOption_bind, toOption_ok, Option.bind_some, parsed]
  cases result with
  | none => rfl
  | some e => rfl

/-- All results, if there is one for each. -/
def allResults {α β : Type} (result : α → Option β) : List α → Option (List β)
  | [] => some []
  | first :: rest => (result first).bind fun value => (allResults result rest).map (value :: ·)

/-- The tokens in front of a closing mark are read as a list of items separated by commas. -/
def Lists {α : Type} (parser : Nat → List Token → Parsed (List α × List Token)) (close : Char) (spelling : List Lexeme)
    (result : Option (List α)) : Prop :=
  ∀ depth cut start chars rest, cut.map Token.lexeme = spelling → 16 * cut.length + 16 ≤ depth →
    (parser depth (cut ++ ⟨.mark close, start, chars⟩ :: rest)).toOption = result.map (·, rest)

theorem afterMark?_of_opens {close : Char} (closes : opens (.mark close) = false) {lexeme : Lexeme} (opened : opens lexeme = true)
    {start : Nat} {chars : List Char} {rest : List Token} : afterMark? close (⟨lexeme, start, chars⟩ :: rest) = none := by
  rw [afterMark?.eq_def]
  split
  next shape =>
    cases shape
    refine if_neg ?_
    rintro rfl
    rw [closes] at opened
    cases opened
  next => rfl

/-- The items of a list, up to the mark behind each. -/
structure Items {α β : Type} (item : Nat → List Token → Parsed (β × List Token)) (close : Char) (spelling : α → List Lexeme)
    (result : α → Option β) (items : List α) : Prop where
  opens : ∀ a ∈ items, ∃ lexeme more, spelling a = lexeme :: more ∧ opens lexeme = true
  reads : ∀ a ∈ items, ∀ depth cut c start chars rest, cut.map Token.lexeme = spelling a → 16 * cut.length + 15 ≤ depth →
    (c = ',' ∨ c = close) → (item depth (cut ++ ⟨.mark c, start, chars⟩ :: rest)).toOption =
      (result a).map (·, ⟨.mark c, start, chars⟩ :: rest)

theorem Items.tail {α β : Type} {item : Nat → List Token → Parsed (β × List Token)} {close : Char} {spelling : α → List Lexeme}
    {result : α → Option β} {first : α} {rest : List α} (items : Items item close spelling result (first :: rest)) :
    Items item close spelling result rest :=
  ⟨fun a member => items.opens a (List.mem_cons_of_mem _ member), fun a member => items.reads a (List.mem_cons_of_mem _ member)⟩

/-- Parts with a comma between any two of them and, if it is written, one behind the last. -/
def separated (trailing : Bool) : List (List Lexeme) → List Lexeme
  | [] => []
  | [last] => if trailing then last ++ [.mark ','] else last
  | part :: next :: more => part ++ .mark ',' :: separated trailing (next :: more)

theorem separated_false (parts : List (List Lexeme)) : separated false parts = commaSeparated parts := by
  induction parts with
  | nil => rfl
  | cons part more ih =>
    cases more with
    | nil => simp [separated, commaSeparated]
    | cons next others => simp [separated, ih, commaSeparated, List.intercalate_cons_cons]

theorem Items.lists {α β : Type} {item : Nat → List Token → Parsed (β × List Token)} {close : Char} {spelling : α → List Lexeme}
    {result : α → Option β} {items : List α} {parser : Nat → List Token → Parsed (List β × List Token)}
    (good : Items item close spelling result items) (closes : Expression.opens (.mark close) = false) (noComma : close ≠ ',')
    (unfolds : ∀ depth tokens, parser (depth + 1) tokens = match afterMark? close tokens with
      | some rest => .ok ([], rest)
      | none => do
        let (first, rest) ← item depth tokens
        match afterMark? ',' rest with
        | some rest =>
          let (others, rest) ← parser depth rest
          return (first :: others, rest)
        | none => return ([first], ← expectMark close rest)) (trailing : Bool) :
    Lists parser close (separated trailing (items.map spelling)) (allResults result items) := by
  induction items with
  | nil =>
    intro depth cut start chars rest same enough
    obtain ⟨depth, rfl⟩ : ∃ more, depth = more + 1 := ⟨depth - 1, by omega⟩
    rw [List.map_nil, separated, List.map_eq_nil_iff] at same
    subst same
    simp [unfolds, afterMark?, allResults]
  | cons first rest ih =>
    intro depth cut start chars behind same enough
    obtain ⟨lexeme, others, shape, opened⟩ := good.opens first (List.mem_cons_self ..)
    have readsFirst := good.reads first (List.mem_cons_self ..)
    have notClosed {tail : List Token} (front : List Token) (sameFront : front.map Token.lexeme = spelling first) :
        afterMark? close (front ++ tail) = none := by
      rw [shape] at sameFront
      obtain ⟨_, _, _, rfl, _⟩ := exists_of_map_cons sameFront
      exact afterMark?_of_opens closes opened
    obtain ⟨depth, rfl⟩ : ∃ more, depth = more + 1 := ⟨depth - 1, by omega⟩
    -- A comma is read with what comes behind it, be it more items or the closing mark.
    have more {tail : List Lexeme} (sameCut : cut.map Token.lexeme = spelling first ++ .mark ',' :: tail)
        (lists : Lists parser close tail (allResults result rest)) :
        (parser (depth + 1) (cut ++ ⟨.mark close, start, chars⟩ :: behind)).toOption =
          (allResults result (first :: rest)).map (·, behind) := by
      obtain ⟨front, back, rfl, sameFront, sameBack⟩ := List.map_eq_append_iff.1 sameCut
      obtain ⟨start', chars', inner, rfl, sameTail⟩ := exists_of_map_cons sameBack
      simp only [List.length_append, List.length_cons] at enough
      have parsed := readsFirst depth front ',' start' chars' (inner ++ ⟨.mark close, start, chars⟩ :: behind) sameFront (by omega)
        (.inl rfl)
      have parsedRest := lists depth inner start chars behind sameTail (by omega)
      rw [List.append_assoc, List.cons_append, unfolds, notClosed front sameFront, toOption_bind, parsed, allResults]
      cases result first with
      | none => rfl
      | some value =>
        simp only [Option.map_some, Option.bind_some, afterMark?, if_true, toOption_bind, parsedRest]
        cases allResults result rest <;> rfl
    cases rest with
    | nil =>
      rw [List.map_cons, List.map_nil, separated] at same
      cases trailing with
      | true => exact more same (ih good.tail)
      | false =>
        have parsed := readsFirst depth cut close start chars behind same (by omega) (.inr rfl)
        rw [unfolds, notClosed cut same, toOption_bind, parsed, allResults]
        cases result first with
        | none => rfl
        | some value => simp [afterMark?, noComma, expectMark, allResults]
    | cons second others => exact more same (ih good.tail)

theorem items_expressions {α : Type} {close : Char} (plain : binding (.mark close) = 0) {spelling : α → List Lexeme}
    {read : α → Option Expression} {items : List α} (opening : ∀ a ∈ items, Opening (spelling a))
    (reads : ∀ a ∈ items, Reads 0 (spelling a) (read a)) : Items parseExpression close spelling read items := by
  refine ⟨fun a member => (opening a member).first, ?_⟩
  intro a member depth cut c start chars rest same enough separator
  have ends : Ends 0 (⟨.mark c, start, chars⟩ :: rest) := by
    obtain rfl | rfl := separator
    · exact ends_mark rfl 0
    · exact ends_mark plain 0
  exact reads a member depth cut _ same enough ends

theorem lists_expressions {α : Type} {close : Char} (closes : opens (.mark close) = false) (plain : binding (.mark close) = 0)
    (noComma : close ≠ ',') {spelling : α → List Lexeme} {read : α → Option Expression} {items : List α}
    (opening : ∀ a ∈ items, Opening (spelling a)) (reads : ∀ a ∈ items, Reads 0 (spelling a) (read a)) (trailing : Bool) :
    Lists (parseList · close) close (separated trailing (items.map spelling)) (allResults read items) :=
  (items_expressions plain opening reads).lists closes noComma (fun depth tokens => by rw [parseList] <;> rfl) trailing

theorem links_array {results : Option (List Expression)} (lists : Lists (parseList · ']') ']' spelling results) :
    Links (.mark '[' :: spelling ++ [.mark ']']) (results.map .array) := by
  refine links_bracketed fun depth start chars cut start' chars' rest same enough => ?_
  have parsed := lists depth cut start' chars' rest same (by omega)
  simp only [parsePrimary, next, toOption_bind, toOption_ok, Option.bind_some, parsed]
  cases results with
  | none => rfl
  | some elements => rfl

theorem links_object {results : Option (List (Property Expression))}
    (lists : Lists parseProperties '\x7d' spelling results) :
    Links (.mark '\x7b' :: spelling ++ [.mark '\x7d']) (results.map .object) := by
  refine links_bracketed fun depth start chars cut start' chars' rest same enough => ?_
  have parsed := lists depth cut start' chars' rest same (by omega)
  simp only [parsePrimary, next, toOption_bind, toOption_ok, Option.bind_some, parsed]
  cases results with
  | none => rfl
  | some elements => rfl

/-! Entries of an object literal. -/

/-- Before a colon a name is a key and no shorthand. -/
theorem parseProperty_colon {lexeme : Lexeme} {key : String} (found : key? lexeme = some key) (depth start start' : Nat)
    (chars chars' : List Char) (tokens : List Token) :
    (parseProperty (depth + 1) (⟨lexeme, start, chars⟩ :: ⟨.mark ':', start', chars'⟩ :: tokens)).toOption =
      (parseExpression depth tokens).toOption.map fun (value, rest) => (⟨key, value, false⟩, rest) := by
  cases lexeme with
  | mark c => cases found
  | operator symbol => cases found
  | fault cause => cases found
  | identifier name | keyword name | string value | number value =>
    cases found
    simp only [parseProperty, next, afterMark?, if_true, key?, expectMark, toOption_bind, toOption_ok, Option.bind_some]
    cases (parseExpression depth tokens).toOption <;> rfl

theorem parseProperty_shorthand (name : String) (depth start start' : Nat) (chars chars' : List Char) {c : Char} (other : c ≠ ':')
    (rest : List Token) :
    (parseProperty (depth + 1) (⟨.identifier name, start, chars⟩ :: ⟨.mark c, start', chars'⟩ :: rest)).toOption =
      some (⟨name, .identifier name, true⟩, ⟨.mark c, start', chars'⟩ :: rest) := by
  simp [parseProperty, next, afterMark?, other]

theorem opens_of_key? {lexeme : Lexeme} {key : String} (found : key? lexeme = some key) : opens lexeme = true := by
  cases lexeme with
  | mark c => cases found
  | operator symbol => cases found
  | fault cause => cases found
  | _ => rfl

/-- The spelling of an entry, with what is read from it. -/
inductive ReadsEntry : List Lexeme → Option (Property Expression) → Prop where
  | shorthand (name : String) : ReadsEntry [.identifier name] (some ⟨name, .identifier name, true⟩)
  | keyed {lexeme : Lexeme} {key : String} {spelling : List Lexeme} {result : Option Expression} (found : key? lexeme = some key)
      (reads : Reads 0 spelling result) :
      ReadsEntry (lexeme :: .mark ':' :: spelling) (result.map fun value => ⟨key, value, false⟩)

theorem ReadsEntry.opens {read : Option (Property Expression)} (entry : ReadsEntry spelling read) :
    ∃ lexeme more, spelling = lexeme :: more ∧ opens lexeme = true := by
  cases entry with
  | shorthand name => exact ⟨_, _, rfl, rfl⟩
  | keyed found reads => exact ⟨_, _, rfl, opens_of_key? found⟩

theorem ReadsEntry.parseProperty {read : Option (Property Expression)} (entry : ReadsEntry spelling read) {depth : Nat}
    {cut : List Token} (same : cut.map Token.lexeme = spelling) (enough : 16 * cut.length + 15 ≤ depth) {c : Char}
    (separator : c = ',' ∨ c = '\x7d') {start : Nat} {chars : List Char} {rest : List Token} :
    (parseProperty depth (cut ++ ⟨.mark c, start, chars⟩ :: rest)).toOption = read.map (·, ⟨.mark c, start, chars⟩ :: rest) := by
  obtain ⟨depth, rfl⟩ : ∃ more, depth = more + 1 := ⟨depth - 1, by omega⟩
  cases entry with
  | shorthand name =>
    obtain ⟨start', chars', none', rfl, empty⟩ := exists_of_map_cons same
    rw [List.map_eq_nil_iff] at empty
    subst empty
    have other : c ≠ ':' := by
      obtain rfl | rfl := separator <;> decide
    exact parseProperty_shorthand name depth start' start chars' chars other rest
  | @keyed lexeme key inner result found reads =>
    obtain ⟨start', chars', tail, rfl, sameTail⟩ := exists_of_map_cons same
    obtain ⟨start'', chars'', valueCut, rfl, sameValue⟩ := exists_of_map_cons sameTail
    have ends : Ends 0 (⟨.mark c, start, chars⟩ :: rest) := by
      obtain rfl | rfl := separator <;> exact ends_mark rfl 0
    simp only [List.length_cons] at enough
    have parsed := reads depth valueCut _ sameValue (by simp only [reserve]; omega) ends
    rw [parserAt] at parsed
    rw [List.cons_append, List.cons_append, parseProperty_colon found, parsed]
    cases result <;> rfl

theorem items_entries {α : Type} {spelling : α → List Lexeme} {read : α → Option (Property Expression)} {items : List α}
    (entries : ∀ a ∈ items, ReadsEntry (spelling a) (read a)) : Items parseProperty '\x7d' spelling read items :=
  ⟨fun a member => (entries a member).opens,
    fun a member _ _ _ _ _ _ same enough separator => (entries a member).parseProperty same enough separator⟩

theorem lists_entries {α : Type} {spelling : α → List Lexeme} {read : α → Option (Property Expression)} {items : List α}
    (entries : ∀ a ∈ items, ReadsEntry (spelling a) (read a)) (trailing : Bool) :
    Lists parseProperties '\x7d' (separated trailing (items.map spelling)) (allResults read items) :=
  (items_entries entries).lists rfl (by decide) (fun depth tokens => by rw [parseProperties] <;> rfl) trailing

/-! Accesses and calls. -/

theorem Links.extend {access : List Lexeme} {extend : Expression → Option Expression} (links : Links spelling result)
    (step : ∀ left cut rest e, cut.map Token.lexeme = access → 16 * cut.length + 1 ≤ left →
      ∃ less, left ≤ less + 16 * cut.length ∧
        (parseLinks left e (cut ++ rest)).toOption = (extend e).bind fun e => (parseLinks less e rest).toOption) :
    Links (spelling ++ access) (result.bind extend) := by
  intro depth cut rest same enough
  obtain ⟨front, back, rfl, sameFront, sameBack⟩ := List.map_eq_append_iff.1 same
  simp only [List.length_append] at enough ⊢
  obtain ⟨left, bound, parsed⟩ := links depth front (back ++ rest) sameFront (by omega)
  rw [List.append_assoc, parsed]
  cases result with
  | none => exact ⟨depth, by omega, rfl⟩
  | some e =>
    obtain ⟨less, bound', parsed'⟩ := step left back rest e sameBack (by omega)
    exact ⟨less, by omega, parsed'⟩

/-- The name that a word stands for behind a point. -/
def Lexeme.name? : Lexeme → Option String
  | .identifier name | .keyword name => some name
  | _ => none

theorem Links.member (links : Links spelling result) {lexeme : Lexeme} {property : String} (found : lexeme.name? = some property)
    (optional : Bool) :
    Links (spelling ++ [if optional then .operator "?." else .mark '.', lexeme]) (result.map (.member · property optional)) := by
  rw [Option.map_eq_bind]
  refine links.extend fun left cut rest e same enough => ?_
  obtain ⟨start, chars, tail, rfl, sameTail⟩ := exists_of_map_cons same
  obtain ⟨start', chars', none', rfl, empty⟩ := exists_of_map_cons sameTail
  rw [List.map_eq_nil_iff] at empty
  subst empty
  simp only [List.length_cons] at enough ⊢
  obtain ⟨left, rfl⟩ : ∃ more, left = more + 1 := ⟨left - 1, by omega⟩
  refine ⟨left, by omega, ?_⟩
  cases lexeme with
  | identifier name | keyword name =>
    cases found
    cases optional <;> simp [parseLinks, propertyName, next]
  | _ => cases found

theorem parseLinks_index (left start : Nat) (chars : List Char) (e : Expression) (optional : Bool) (cut rest : List Token)
    (same : cut.map Token.lexeme = optionalLexemes optional) :
    parseLinks (left + 1) e (cut ++ ⟨.mark '[', start, chars⟩ :: rest) = parseIndex left e optional rest := by
  cases optional with
  | false =>
    rw [optionalLexemes, if_neg (by decide), List.map_eq_nil_iff] at same
    subst same
    rw [List.nil_append, parseLinks]
  | true =>
    obtain ⟨start', chars', none', rfl, empty⟩ := exists_of_map_cons same
    rw [List.map_eq_nil_iff] at empty
    subst empty
    rw [List.singleton_append, parseLinks]

theorem parseLinks_call (left start : Nat) (chars : List Char) (e : Expression) (optional : Bool) (cut rest : List Token)
    (same : cut.map Token.lexeme = optionalLexemes optional) :
    parseLinks (left + 1) e (cut ++ ⟨.mark '(', start, chars⟩ :: rest) = parseCall left e optional rest := by
  cases optional with
  | false =>
    rw [optionalLexemes, if_neg (by decide), List.map_eq_nil_iff] at same
    subst same
    rw [List.nil_append, parseLinks]
  | true =>
    obtain ⟨start', chars', none', rfl, empty⟩ := exists_of_map_cons same
    rw [List.map_eq_nil_iff] at empty
    subst empty
    rw [List.singleton_append, parseLinks]

theorem Links.index {key : Option Expression} {inner : List Lexeme} (links : Links spelling result) (reads : Reads 0 inner key)
    (optional : Bool) : Links (spelling ++ (optionalLexemes optional ++ .mark '[' :: inner ++ [.mark ']']))
      (result.bind fun e => key.map (.index e · optional)) := by
  refine links.extend fun left cut rest e same enough => ?_
  rw [List.append_assoc] at same
  obtain ⟨front, back, rfl, sameFront, sameBack⟩ := List.map_eq_append_iff.1 same
  obtain ⟨start, chars, tail, rfl, sameTail⟩ := exists_of_map_cons sameBack
  obtain ⟨keyCut, back, rfl, sameKey, sameClose⟩ := List.map_eq_append_iff.1 sameTail
  obtain ⟨start', chars', none', rfl, empty⟩ := exists_of_map_cons sameClose
  rw [List.map_eq_nil_iff] at empty
  subst empty
  simp only [List.length_append, List.length_cons, List.length_nil] at enough ⊢
  obtain ⟨left, rfl⟩ : ∃ more, left = more + 2 := ⟨left - 2, by omega⟩
  refine ⟨left, by omega, ?_⟩
  have parsed := reads left keyCut (⟨.mark ']', start', chars'⟩ :: rest) sameKey (by simp only [reserve]; omega) (ends_mark rfl 0)
  rw [parserAt] at parsed
  rw [List.append_assoc, List.cons_append, List.append_assoc, parseLinks_index _ _ _ _ optional _ _ sameFront, parseIndex,
    toOption_bind, List.singleton_append, parsed]
  cases key with
  | none => rfl
  | some value => simp [expectMark]

theorem Links.call {results : Option (List Expression)} {inner : List Lexeme} (links : Links spelling result)
    (lists : Lists (parseList · ')') ')' inner results) (optional : Bool) :
    Links (spelling ++ (optionalLexemes optional ++ .mark '(' :: inner ++ [.mark ')']))
      (result.bind fun e => results.map (.call e · optional)) := by
  refine links.extend fun left cut rest e same enough => ?_
  rw [List.append_assoc] at same
  obtain ⟨front, back, rfl, sameFront, sameBack⟩ := List.map_eq_append_iff.1 same
  obtain ⟨start, chars, tail, rfl, sameTail⟩ := exists_of_map_cons sameBack
  obtain ⟨listCut, back, rfl, sameList, sameClose⟩ := List.map_eq_append_iff.1 sameTail
  obtain ⟨start', chars', none', rfl, empty⟩ := exists_of_map_cons sameClose
  rw [List.map_eq_nil_iff] at empty
  subst empty
  simp only [List.length_append, List.length_cons, List.length_nil] at enough ⊢
  obtain ⟨left, rfl⟩ : ∃ more, left = more + 2 := ⟨left - 2, by omega⟩
  refine ⟨left, by omega, ?_⟩
  have parsed := lists left listCut start' chars' rest sameList (by omega)
  rw [List.append_assoc, List.cons_append, List.append_assoc, parseLinks_call _ _ _ _ optional _ _ sameFront, parseCall,
    toOption_bind, List.singleton_append, parsed]
  cases results with
  | none => rfl
  | some values => rfl

/-! Operators. -/

theorem reads_unary (operator : UnaryOperator) (reads : Reads 9 spelling result) :
    Reads 9 (unaryLexeme operator :: spelling) (result.map (.unary operator ·)) := by
  intro depth cut rest same enough ends
  obtain ⟨start, chars, tail, rfl, sameTail⟩ := exists_of_map_cons same
  simp only [reserve, List.length_cons] at enough
  obtain ⟨depth, rfl⟩ : ∃ more, depth = more + 1 := ⟨depth - 1, by omega⟩
  have found : unaryAt? (⟨unaryLexeme operator, start, chars⟩ :: (tail ++ rest)) = some (operator, tail ++ rest) := by
    cases operator <;> rfl
  have parsed := reads depth tail rest sameTail (by simp only [reserve]; omega) ends
  rw [parserAt] at parsed
  rw [parserAt, List.cons_append, parseUnary, found]
  simp only [toOption_bind, parsed]
  cases result <;> rfl

theorem reads_power {right : List Lexeme} {exponent : Option Expression} (reads : Reads 9 spelling result)
    (readsRight : Reads 8 right exponent) :
    Reads 8 (spelling ++ .operator "**" :: right) (result.bind fun base => exponent.map (.binary .power base ·)) := by
  intro depth cut rest same enough ends
  obtain ⟨front, back, rfl, sameFront, sameBack⟩ := List.map_eq_append_iff.1 same
  obtain ⟨start, chars, tail, rfl, sameTail⟩ := exists_of_map_cons sameBack
  simp only [reserve, List.length_append, List.length_cons] at enough
  obtain ⟨depth, rfl⟩ : ∃ more, depth = more + 1 := ⟨depth - 1, by omega⟩
  have endsFront : Ends 9 (⟨.operator "**", start, chars⟩ :: (tail ++ rest)) := by
    rintro _ _ ⟨rfl, rfl⟩
    exact Nat.le_refl 9
  have parsed := reads depth front _ sameFront (by simp only [reserve]; omega) endsFront
  have parsedRight := readsRight depth tail rest sameTail (by simp only [reserve]; omega) ends
  rw [parserAt_nine] at parsed
  rw [parserAt_eight] at parsedRight
  rw [parserAt_eight, List.append_assoc, List.cons_append, parsePower, toOption_bind, parsed]
  cases result with
  | none => rfl
  | some base =>
    simp only [Option.map_some, Option.bind_some, afterOperator?, if_true, toOption_bind, parsedRight]
    cases exponent <;> rfl

theorem chains_binary {operator : BinaryOperator} {right : List Lexeme} {other : Option Expression}
    (chains : Chains operator.level spelling result) (reads : Reads (operator.level + 2) right other)
    (positive : 1 ≤ operator.level) (small : operator.level ≤ 6) :
    Chains operator.level (spelling ++ .operator operator.symbol :: right)
      (result.bind fun left => other.map (.binary operator left ·)) := by
  intro depth cut rest same enough ends
  obtain ⟨front, back, rfl, sameFront, sameBack⟩ := List.map_eq_append_iff.1 same
  obtain ⟨start, chars, tail, rfl, sameTail⟩ := exists_of_map_cons sameBack
  have room : 0 < reserve (operator.level + 1) := by simp only [reserve]; omega
  simp only [List.length_append, List.length_cons] at enough ⊢
  have endsFront : Ends (operator.level + 2) (⟨.operator operator.symbol, start, chars⟩ :: (tail ++ rest)) := by
    rintro _ _ ⟨rfl, rfl⟩
    exact Nat.le_of_eq (binding_binary operator)
  obtain ⟨left, bound, parsed⟩ := chains depth front _ sameFront (by omega) endsFront
  obtain ⟨left, rfl⟩ : ∃ more, left = more + 1 := ⟨left - 1, by omega⟩
  have parsedRight : (parseLevel left (operator.level + 1) (tail ++ rest)).toOption = other.map (·, rest) :=
    reads.operand positive small sameTail (by omega) ends
  refine ⟨left, by omega, ?_⟩
  rw [List.append_assoc, List.cons_append, parsed]
  cases result with
  | none => rfl
  | some e =>
    simp only [Option.bind_some, parseMore, operatorAt?, ofSymbol?_symbol, if_true, toOption_bind, parsedRight]
    cases other <;> rfl

theorem reads_conditional {middle last : List Lexeme} {consequent alternate : Option Expression} (reads : Reads 2 spelling result)
    (readsMiddle : Reads 0 middle consequent) (readsLast : Reads 0 last alternate) :
    Reads 1 (spelling ++ .operator "?" :: (middle ++ .mark ':' :: last))
      (result.bind fun test => consequent.bind fun consequent => alternate.map (.conditional test consequent ·)) := by
  intro depth cut rest same enough ends
  obtain ⟨front, back, rfl, sameFront, sameBack⟩ := List.map_eq_append_iff.1 same
  obtain ⟨start, chars, tail, rfl, sameTail⟩ := exists_of_map_cons sameBack
  obtain ⟨between, back, rfl, sameBetween, sameLast⟩ := List.map_eq_append_iff.1 sameTail
  obtain ⟨start', chars', behind, rfl, sameBehind⟩ := exists_of_map_cons sameLast
  simp only [reserve, List.length_append, List.length_cons] at enough
  obtain ⟨depth, rfl⟩ : ∃ more, depth = more + 1 := ⟨depth - 1, by omega⟩
  have endsFront : Ends 2 (⟨.operator "?", start, chars⟩ :: (between ++ ⟨.mark ':', start', chars'⟩ :: (behind ++ rest))) := by
    rintro _ _ ⟨rfl, rfl⟩
    exact Nat.le_refl 2
  have parsed := reads depth front _ sameFront (by simp only [reserve]; omega) endsFront
  have parsedMiddle := readsMiddle depth between (⟨.mark ':', start', chars'⟩ :: (behind ++ rest)) sameBetween
    (by simp only [reserve]; omega) (ends_mark rfl 0)
  have parsedLast := readsLast depth behind rest sameBehind (by simp only [reserve]; omega) ends.expression
  rw [parserAt_level (by decide) (by decide)] at parsed
  rw [parserAt_zero] at parsedMiddle parsedLast
  simp only [parserAt_one, List.append_assoc, List.cons_append, parseConditional, toOption_bind, parsed]
  cases result with
  | none => rfl
  | some test =>
    simp only [Option.map_some, Option.bind_some, afterOperator?, if_true, toOption_bind, parsedMiddle]
    cases consequent with
    | none => rfl
    | some value =>
      simp only [Option.map_some, Option.bind_some, expectMark, if_true, toOption_ok, parsedLast]
      cases alternate <;> rfl

/-! Arrow functions. -/

theorem moreParams?_names {start : Nat} {chars : List Char} {rest : List Token} (name : String) (others : List String) :
    ∀ cut : List Token, cut.map Token.lexeme = commaSeparated ((name :: others).map fun name => [.identifier name]) →
      moreParams? (cut ++ ⟨.mark ')', start, chars⟩ :: rest) = some (name :: others, rest) := by
  induction others generalizing name with
  | nil =>
    intro cut same
    have same : cut.map Token.lexeme = [.identifier name] := by simpa [commaSeparated] using same
    obtain ⟨start', chars', none', rfl, empty⟩ := exists_of_map_cons same
    rw [List.map_eq_nil_iff] at empty
    subst empty
    rw [List.singleton_append, moreParams?]
  | cons second more ih =>
    intro cut same
    have same : cut.map Token.lexeme =
        .identifier name :: .mark ',' :: commaSeparated ((second :: more).map fun name => [.identifier name]) := by
      simpa [commaSeparated, List.intercalate_cons_cons] using same
    obtain ⟨start', chars', tail, rfl, sameTail⟩ := exists_of_map_cons same
    obtain ⟨start'', chars'', tail, rfl, sameRest⟩ := exists_of_map_cons sameTail
    rw [List.cons_append, List.cons_append, moreParams?, ih second tail sameRest]
    rfl

theorem arrowHead?_names {start start' start'' : Nat} {chars chars' chars'' : List Char} {cut body : List Token} {params : List String}
    (same : cut.map Token.lexeme = commaSeparated (params.map fun name => [.identifier name])) :
    arrowHead? (⟨.mark '(', start, chars⟩ :: (cut ++ ⟨.mark ')', start', chars'⟩ :: ⟨.operator "=>", start'', chars''⟩ :: body)) =
      some (params, body) := by
  cases params with
  | nil =>
    rw [show commaSeparated ([].map fun name : String => [Lexeme.identifier name]) = [] from rfl, List.map_eq_nil_iff] at same
    subst same
    simp [arrowHead?, params?, afterOperator?]
  | cons name others =>
    have names : moreParams? (cut ++ ⟨.mark ')', start', chars'⟩ :: ⟨.operator "=>", start'', chars''⟩ :: body) =
        some (name :: others, ⟨.operator "=>", start'', chars''⟩ :: body) := moreParams?_names name others cut same
    have first : ∃ start chars tail, cut = ⟨.identifier name, start, chars⟩ :: tail := by
      cases others with
      | nil =>
        have same : cut.map Token.lexeme = [.identifier name] := by simpa [commaSeparated] using same
        obtain ⟨start, chars, tail, shape, _⟩ := exists_of_map_cons same
        exact ⟨start, chars, tail, shape⟩
      | cons second more =>
        rw [List.map_cons, List.map_cons, commaSeparated, List.intercalate_cons_cons] at same
        obtain ⟨start, chars, tail, shape, _⟩ := exists_of_map_cons same
        exact ⟨start, chars, tail, shape⟩
    obtain ⟨_, _, tail, rfl⟩ := first
    rw [List.cons_append] at names ⊢
    simp [arrowHead?, params?, names, afterOperator?]

/-- The parameters of an arrow function as they are written. -/
inductive Heads : List Lexeme → List String → Prop where
  | name (name : String) : Heads [.identifier name] [name]
  | names (names : List String) :
      Heads (.mark '(' :: commaSeparated (names.map fun name => [.identifier name]) ++ [.mark ')']) names

theorem Heads.arrowHead? {front : List Lexeme} {params : List String} (heads : Heads front params) {cut body : List Token}
    (same : cut.map Token.lexeme = front) {start : Nat} {chars : List Char} :
    arrowHead? (cut ++ ⟨.operator "=>", start, chars⟩ :: body) = some (params, body) := by
  cases heads with
  | name name =>
    obtain ⟨start', chars', none', rfl, empty⟩ := exists_of_map_cons same
    rw [List.map_eq_nil_iff] at empty
    subst empty
    simp [Expression.arrowHead?, params?, afterOperator?]
  | names names =>
    obtain ⟨start', chars', tail, rfl, sameTail⟩ := exists_of_map_cons same
    obtain ⟨inner, back, rfl, sameInner, sameBack⟩ := List.map_eq_append_iff.1 sameTail
    obtain ⟨start'', chars'', none', rfl, empty⟩ := exists_of_map_cons sameBack
    rw [List.map_eq_nil_iff] at empty
    subst empty
    simpa using arrowHead?_names sameInner

/-- Whether a brace comes first. -/
def braced : List Lexeme → Bool
  | .mark c :: _ => c == '\x7b'
  | _ => false

theorem braced_eq_false {body : List Token} (other : ∀ start chars tail, body = ⟨.mark '\x7b', start, chars⟩ :: tail → False) :
    braced (body.map Token.lexeme) = false := by
  rw [braced.eq_def]
  split
  next c _ shape =>
    obtain ⟨start, chars, tail, rfl, _⟩ := exists_of_map_cons shape
    exact beq_false_of_ne fun brace => other start chars tail (by rw [brace])
  next => rfl

/-- The body of an arrow function may not start with a brace. -/
theorem parseExpression_arrow {front : List Lexeme} {params : List String} (heads : Heads front params) {cut body : List Token}
    (same : cut.map Token.lexeme = front) {start : Nat} {chars : List Char} (depth : Nat) :
    (parseExpression (depth + 1) (cut ++ ⟨.operator "=>", start, chars⟩ :: body)).toOption =
      if braced (body.map Token.lexeme) then none
      else (parseExpression depth body).toOption.map fun (body, rest) => (.arrow params body, rest) := by
  rw [parseExpression, heads.arrowHead? same]
  dsimp only
  split
  next => rfl
  next other =>
    rw [braced_eq_false other, toOption_bind]
    cases (parseExpression depth body).toOption <;> rfl

theorem braced_append {more : List Lexeme} (nonempty : spelling ≠ []) : braced (spelling ++ more) = braced spelling := by
  obtain ⟨lexeme, others, rfl⟩ := List.exists_cons_of_ne_nil nonempty
  cases lexeme <;> rfl

theorem reads_arrow {front : List Lexeme} {params : List String} (heads : Heads front params) (reads : Reads 0 spelling result)
    (nonempty : spelling ≠ []) :
    Reads 0 (front ++ .operator "=>" :: spelling) (if braced spelling then none else result.map (.arrow params ·)) := by
  intro depth cut rest same enough ends
  obtain ⟨head, back, rfl, sameHead, sameBack⟩ := List.map_eq_append_iff.1 same
  obtain ⟨start, chars, body, rfl, sameBody⟩ := exists_of_map_cons sameBack
  simp only [reserve, List.length_append, List.length_cons] at enough
  obtain ⟨depth, rfl⟩ : ∃ more, depth = more + 1 := ⟨depth - 1, by omega⟩
  have parsed := reads depth body rest sameBody (by simp only [reserve]; omega) ends
  rw [parserAt_zero] at parsed ⊢
  rw [List.append_assoc, List.cons_append, parseExpression_arrow heads sameHead, parsed, List.map_append, sameBody,
    braced_append nonempty]
  cases braced spelling <;> cases result <;> rfl

/-! Expressions of a rank, read at every place that they are tight enough for. -/

/-- The tokens of an expression of a rank, with what is read back from them. -/
structure Back (rank : Nat) (spelling : List Lexeme) (result : Option Expression) : Prop where
  readable : Readable rank spelling result
  opening : Opening spelling
  headless : 1 ≤ rank → Headless spelling

theorem Back.mono {low high : Nat} (back : Back high spelling result) (le : low ≤ high) : Back low spelling result where
  readable := {
    links large := back.readable.links (by omega)
    chains level positive small below := back.readable.chains level positive small (by omega)
    reads place small below := back.readable.reads place small (by omega) }
  opening := back.opening
  headless positive := back.headless (by omega)

theorem Back.reads {rank : Nat} (back : Back rank spelling result) : Reads 0 spelling result :=
  back.readable.reads 0 (by decide) (Nat.zero_le rank)

theorem opening_of_first {lexeme : Lexeme} {more : List Lexeme} (opened : opens lexeme = true)
    (noName : ∀ name, lexeme ≠ .identifier name) : Opening (lexeme :: more) :=
  ⟨⟨lexeme, more, rfl, opened⟩, fun name _ _ same => absurd (List.cons.inj same).1 (noName name)⟩

theorem back_of_links (links : Links spelling result) (opening : Opening spelling) (headless : Headless spelling) :
    Back 10 spelling result :=
  ⟨readable_of_links links headless, opening, fun _ => headless⟩

theorem back_atom {lexeme : Lexeme} {e : Expression} (atom : atom? lexeme = some e) : Back 10 [lexeme] (some e) := by
  cases lexeme with
  | mark c => cases atom
  | operator symbol => cases atom
  | fault cause => cases atom
  | identifier name =>
    refine back_of_links (links_atom atom) ⟨⟨_, _, rfl, rfl⟩, ?_⟩ (headless_name name)
    intro _ _ _ same
    cases same
  | _ =>
    exact back_of_links (links_atom atom) (opening_of_first rfl (by simp)) (headless_of_first (by simp) (by simp))

theorem Back.enclosed {rank : Nat} (back : Back rank spelling result) :
    Back 10 (.mark '(' :: spelling ++ [.mark ')']) result :=
  back_of_links (links_enclosed back.reads) (opening_of_first rfl (by simp)) (headless_enclosed back.opening)

theorem back_array {results : Option (List Expression)} (lists : Lists (parseList · ']') ']' spelling results) :
    Back 10 (.mark '[' :: spelling ++ [.mark ']']) (results.map .array) :=
  back_of_links (links_array lists) (opening_of_first rfl (by simp)) (headless_of_first (by simp) (by simp))

theorem back_object {results : Option (List (Property Expression))} (lists : Lists parseProperties '\x7d' spelling results) :
    Back 10 (.mark '\x7b' :: spelling ++ [.mark '\x7d']) (results.map .object) :=
  back_of_links (links_object lists) (opening_of_first rfl (by simp)) (headless_of_first (by simp) (by simp))

/-- An access or a call behind a receiver. -/
theorem Back.access {lexeme : Lexeme} {more : List Lexeme} {extended : Option Expression} (back : Back 10 spelling result)
    (links : Links (spelling ++ lexeme :: more) extended) (noClose : lexeme ≠ .mark ')' ∧ lexeme ≠ .mark ',')
    (noArrow : lexeme ≠ .operator "=>") : Back 10 (spelling ++ lexeme :: more) extended :=
  back_of_links links (back.opening.append noClose) ((back.headless (by decide)).append noArrow)

theorem Back.member (back : Back 10 spelling result) {lexeme : Lexeme} {property : String} (found : lexeme.name? = some property)
    (optional : Bool) :
    Back 10 (spelling ++ [if optional then .operator "?." else .mark '.', lexeme]) (result.map (.member · property optional)) := by
  refine back.access ((back.readable.links (by decide)).member found optional) ?_ ?_ <;> cases optional <;> simp

theorem Back.index {rank : Nat} {key : Option Expression} {inner : List Lexeme} (back : Back 10 spelling result)
    (backKey : Back rank inner key) (optional : Bool) :
    Back 10 (spelling ++ (optionalLexemes optional ++ .mark '[' :: inner ++ [.mark ']']))
      (result.bind fun e => key.map (.index e · optional)) := by
  have links := (back.readable.links (by decide)).index backKey.reads optional
  cases optional <;> exact back.access links (by simp) (by simp)

theorem Back.call {results : Option (List Expression)} {inner : List Lexeme} (back : Back 10 spelling result)
    (lists : Lists (parseList · ')') ')' inner results) (optional : Bool) :
    Back 10 (spelling ++ (optionalLexemes optional ++ .mark '(' :: inner ++ [.mark ')']))
      (result.bind fun e => results.map (.call e · optional)) := by
  have links := (back.readable.links (by decide)).call lists optional
  cases optional <;> exact back.access links (by simp) (by simp)

theorem Back.unary (back : Back 9 spelling result) (operator : UnaryOperator) :
    Back 9 (unaryLexeme operator :: spelling) (result.map (.unary operator ·)) := by
  have reads := reads_unary operator (back.readable.reads 9 (by decide) (Nat.le_refl 9))
  have noName : ∀ name, unaryLexeme operator ≠ .identifier name := by
    intro name
    cases operator <;> simp [unaryLexeme]
  have noParen : unaryLexeme operator ≠ .mark '(' := by cases operator <;> simp [unaryLexeme]
  have opened : opens (unaryLexeme operator) = true := by cases operator <;> rfl
  have headless : Headless (unaryLexeme operator :: spelling) := headless_of_first noName noParen
  refine ⟨readable_of_reads (Nat.le_refl 9) headless reads ?_, opening_of_first opened noName, fun _ => headless⟩
  intro level _ _ same
  omega

theorem Back.power {right : List Lexeme} {exponent : Option Expression} (back : Back 9 spelling result)
    (backRight : Back 8 right exponent) :
    Back 8 (spelling ++ .operator "**" :: right) (result.bind fun base => exponent.map (.binary .power base ·)) := by
  have reads := reads_power (back.readable.reads 9 (by decide) (Nat.le_refl 9)) (backRight.readable.reads 8 (by decide) (Nat.le_refl 8))
  have headless : Headless (spelling ++ .operator "**" :: right) := (back.headless (by decide)).append (by simp)
  refine ⟨readable_of_reads (by decide) headless reads ?_, back.opening.append (by simp), fun _ => headless⟩
  intro level _ _ same
  omega

theorem Back.binary {operator : BinaryOperator} {right : List Lexeme} {other : Option Expression} (other' : operator ≠ .power)
    (back : Back (operator.level + 1) spelling result) (backRight : Back (operator.level + 2) right other) :
    Back (operator.level + 1) (spelling ++ .operator operator.symbol :: right)
      (result.bind fun left => other.map (.binary operator left ·)) := by
  have positive : 1 ≤ operator.level := by cases operator <;> decide
  have small : operator.level ≤ 6 := by
    cases operator with
    | power => exact absurd rfl other'
    | _ => decide
  have noArrow : Lexeme.operator operator.symbol ≠ .operator "=>" := by
    cases operator <;> simp [BinaryOperator.symbol]
  have chains := chains_binary (back.readable.chains _ positive small (Nat.le_refl _))
    (backRight.readable.reads _ (by omega) (Nat.le_refl _)) positive small
  have headless : Headless (spelling ++ .operator operator.symbol :: right) := (back.headless (by omega)).append noArrow
  refine ⟨readable_of_reads (by omega) headless (chains.reads positive small) ?_, back.opening.append (by simp), fun _ => headless⟩
  intro level _ _ same
  obtain rfl : level = operator.level := by omega
  exact chains

theorem Back.conditional {low high : Nat} {middle last : List Lexeme} {consequent alternate : Option Expression}
    (back : Back 2 spelling result) (backMiddle : Back low middle consequent) (backLast : Back high last alternate) :
    Back 1 (spelling ++ .operator "?" :: (middle ++ .mark ':' :: last))
      (result.bind fun test => consequent.bind fun consequent => alternate.map (.conditional test consequent ·)) := by
  have reads := reads_conditional (back.readable.reads 2 (by decide) (Nat.le_refl 2)) backMiddle.reads backLast.reads
  have headless : Headless (spelling ++ .operator "?" :: (middle ++ .mark ':' :: last)) := (back.headless (by decide)).append (by simp)
  refine ⟨readable_of_reads (by decide) headless reads ?_, back.opening.append (by simp), fun _ => headless⟩
  intro level _ _ same
  omega

theorem Heads.opening {front : List Lexeme} {params : List String} (heads : Heads front params) :
    Opening (front ++ .operator "=>" :: spelling) := by
  cases heads with
  | name name =>
    refine ⟨⟨_, _, rfl, rfl⟩, ?_⟩
    rintro _ _ _ ⟨⟩
    simp
  | names names => exact opening_of_first rfl (by simp)

theorem Back.arrow {rank : Nat} {front : List Lexeme} {params : List String} (back : Back rank spelling result)
    (heads : Heads front params) :
    Back 0 (front ++ .operator "=>" :: spelling) (if braced spelling then none else result.map (.arrow params ·)) := by
  have nonempty : spelling ≠ [] := by
    obtain ⟨lexeme, more, same, _⟩ := back.opening.first
    simp [same]
  have reads := reads_arrow heads back.reads nonempty
  refine ⟨⟨fun large => absurd large (by decide), fun level _ _ below => absurd below (by omega), ?_⟩, heads.opening,
    fun positive => absurd positive (by decide)⟩
  intro place _ below
  rwa [Nat.le_zero.1 below]

end ReactiveMarkup.Expression
