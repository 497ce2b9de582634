import ReactiveMarkup.Expression.Basic
import ReactiveMarkup.Expression.Printer
import ReactiveMarkup.Text.Problem

/-!
Parsing expressions from tokens by precedence. A parser gives the expression at the front
of the tokens and the tokens behind it; it stops at the first token that does not continue
the expression.
-/

namespace ReactiveMarkup.Expression

abbrev Parsed := Except Fault

def unexpected (token : Token) : Fault :=
  match token.lexeme with
  | .fault cause => ⟨some token.start, .token cause token.start⟩
  | _ => ⟨some token.start, .unexpectedToken token.text⟩

/-- The first token, if it is not faulty. -/
def next : List Token → Parsed (Token × List Token)
  | [] => .error ⟨none, .unexpectedEnd⟩
  | token :: rest =>
    match token.lexeme with
    | .fault _ => .error (unexpected token)
    | _ => .ok (token, rest)

def expectMark (mark : Char) : List Token → Except Fault (List Token)
  | [] => .error ⟨none, .missingMark mark⟩
  | token :: rest =>
    match token.lexeme with
    | .mark c => if c = mark then .ok rest else .error ⟨some token.start, .otherMark mark token.text⟩
    | _ => .error ⟨some token.start, .otherMark mark token.text⟩

/-- The tokens behind a mark, if it comes first. -/
def afterMark? (mark : Char) : List Token → Option (List Token)
  | ⟨.mark c, _, _⟩ :: rest => if c = mark then some rest else none
  | _ => none

/-- The tokens behind an operator, if it comes first. -/
def afterOperator? (symbol : String) : List Token → Option (List Token)
  | ⟨.operator s, _, _⟩ :: rest => if s = symbol then some rest else none
  | _ => none

/-- Names separated by commas up to a closing parenthesis. -/
def moreParams? : List Token → Option (List String × List Token)
  | ⟨.identifier name, _, _⟩ :: ⟨.mark ')', _, _⟩ :: rest => some ([name], rest)
  | ⟨.identifier name, _, _⟩ :: ⟨.mark ',', _, _⟩ :: rest => do
    let (names, rest) ← moreParams? rest
    return (name :: names, rest)
  | _ => none

def params? : List Token → Option (List String × List Token)
  | ⟨.identifier name, _, _⟩ :: rest => some ([name], rest)
  | ⟨.mark '(', _, _⟩ :: ⟨.mark ')', _, _⟩ :: rest => some ([], rest)
  | ⟨.mark '(', _, _⟩ :: rest => moreParams? rest
  | _ => none

/-- The parameters of an arrow function and the tokens of its body. -/
def arrowHead? (tokens : List Token) : Option (List String × List Token) := do
  let (params, rest) ← params? tokens
  return (params, ← afterOperator? "=>" rest)

/-- The operator of a level at the front of the tokens. -/
def operatorAt? (level : Nat) : List Token → Option (BinaryOperator × List Token)
  | ⟨.operator symbol, _, _⟩ :: rest =>
    match BinaryOperator.ofSymbol? symbol with
    | some operator => if operator.level = level then some (operator, rest) else none
    | none => none
  | _ => none

/-- The prefix operator at the front of the tokens. -/
def unaryAt? : List Token → Option (UnaryOperator × List Token)
  | ⟨.operator "!", _, _⟩ :: rest => some (.not, rest)
  | ⟨.operator "-", _, _⟩ :: rest => some (.minus, rest)
  | ⟨.operator "+", _, _⟩ :: rest => some (.plus, rest)
  | ⟨.keyword "typeof", _, _⟩ :: rest => some (.typeof, rest)
  | _ => none

def propertyName (tokens : List Token) : Parsed (String × List Token) := do
  let (token, rest) ← next tokens
  match token.lexeme with
  | .identifier name | .keyword name => return (name, rest)
  | _ => throw (unexpected token)

/-- The key of an entry of an object literal. -/
def key? : Lexeme → Option String
  | .identifier name | .keyword name => some name
  | .string value => some value
  | .number value => some (numeral value)
  | _ => none

/-- An expression that is a single token. -/
def atom? : Lexeme → Option Expression
  | .number value => some (.number value)
  | .string value => some (.string value)
  | .identifier name => some (.identifier name)
  | .keyword "true" => some (.boolean true)
  | .keyword "false" => some (.boolean false)
  | .keyword "null" => some (.literal .null)
  | .keyword "undefined" => some (.literal .undefined)
  | .keyword "this" => some .this
  | _ => none

mutual
/-- A whole expression: an arrow function or a conditional. -/
def parseExpression : Nat → List Token → Parsed (Expression × List Token)
  | 0, _ => .error ⟨none, .depth⟩
  | depth + 1, tokens =>
    match arrowHead? tokens with
    | some (params, body) =>
      match body with
      | ⟨.mark '\x7b', start, _⟩ :: _ => .error ⟨some start, .arrowBlock⟩
      | _ => do
        let (body, rest) ← parseExpression depth body
        return (.arrow params body, rest)
    | none => parseConditional depth tokens

def parseConditional : Nat → List Token → Parsed (Expression × List Token)
  | 0, _ => .error ⟨none, .depth⟩
  | depth + 1, tokens => do
    let (test, rest) ← parseLevel depth 1 tokens
    match afterOperator? "?" rest with
    | none => return (test, rest)
    | some rest =>
      let (consequent, rest) ← parseExpression depth rest
      let rest ← expectMark ':' rest
      let (alternate, rest) ← parseExpression depth rest
      return (.conditional test consequent alternate, rest)

/-- Operands joined by the operators of one level, which group from the left. -/
def parseLevel : Nat → Nat → List Token → Parsed (Expression × List Token)
  | 0, _, _ => .error ⟨none, .depth⟩
  | depth + 1, level, tokens =>
    if level < 7 then do
      let (left, rest) ← parseLevel depth (level + 1) tokens
      parseMore depth level left rest
    else parsePower depth tokens

def parseMore : Nat → Nat → Expression → List Token → Parsed (Expression × List Token)
  | 0, _, _, _ => .error ⟨none, .depth⟩
  | depth + 1, level, left, tokens =>
    match operatorAt? level tokens with
    | none => .ok (left, tokens)
    | some (operator, rest) => do
      let (right, rest) ← parseLevel depth (level + 1) rest
      parseMore depth level (.binary operator left right) rest

/-- Powers group from the right. -/
def parsePower : Nat → List Token → Parsed (Expression × List Token)
  | 0, _ => .error ⟨none, .depth⟩
  | depth + 1, tokens => do
    let (base, rest) ← parseUnary depth tokens
    match afterOperator? "**" rest with
    | none => return (base, rest)
    | some rest =>
      let (exponent, rest) ← parsePower depth rest
      return (.binary .power base exponent, rest)

def parseUnary : Nat → List Token → Parsed (Expression × List Token)
  | 0, _ => .error ⟨none, .depth⟩
  | depth + 1, tokens =>
    match unaryAt? tokens with
    | some (operator, rest) => do
      let (operand, rest) ← parseUnary depth rest
      return (.unary operator operand, rest)
    | none => do
      let (receiver, rest) ← parsePrimary depth tokens
      parseLinks depth receiver rest

/-- Accesses and calls that follow a receiver. -/
def parseLinks : Nat → Expression → List Token → Parsed (Expression × List Token)
  | 0, _, _ => .error ⟨none, .depth⟩
  | depth + 1, receiver, tokens =>
    match tokens with
    | ⟨.mark '.', _, _⟩ :: rest => do
      let (name, rest) ← propertyName rest
      parseLinks depth (.member receiver name false) rest
    | ⟨.mark '[', _, _⟩ :: rest => parseIndex depth receiver false rest
    | ⟨.mark '(', _, _⟩ :: rest => parseCall depth receiver false rest
    | ⟨.operator "?.", _, _⟩ :: rest =>
      match rest with
      | ⟨.mark '(', _, _⟩ :: rest => parseCall depth receiver true rest
      | ⟨.mark '[', _, _⟩ :: rest => parseIndex depth receiver true rest
      | _ => do
        let (name, rest) ← propertyName rest
        parseLinks depth (.member receiver name true) rest
    | _ => .ok (receiver, tokens)

def parseIndex : Nat → Expression → Bool → List Token → Parsed (Expression × List Token)
  | 0, _, _, _ => .error ⟨none, .depth⟩
  | depth + 1, receiver, optional, tokens => do
    let (key, rest) ← parseExpression depth tokens
    let rest ← expectMark ']' rest
    parseLinks depth (.index receiver key optional) rest

def parseCall : Nat → Expression → Bool → List Token → Parsed (Expression × List Token)
  | 0, _, _, _ => .error ⟨none, .depth⟩
  | depth + 1, callee, optional, tokens => do
    let (arguments, rest) ← parseList depth ')' tokens
    parseLinks depth (.call callee arguments optional) rest

/-- Expressions separated by commas up to a closing mark; a comma may come last. -/
def parseList : Nat → Char → List Token → Parsed (List Expression × List Token)
  | 0, _, _ => .error ⟨none, .depth⟩
  | depth + 1, close, tokens =>
    match afterMark? close tokens with
    | some rest => .ok ([], rest)
    | none => do
      let (first, rest) ← parseExpression depth tokens
      match afterMark? ',' rest with
      | some rest =>
        let (others, rest) ← parseList depth close rest
        return (first :: others, rest)
      | none => return ([first], ← expectMark close rest)

def parsePrimary : Nat → List Token → Parsed (Expression × List Token)
  | 0, _ => .error ⟨none, .depth⟩
  | depth + 1, tokens => do
    let (token, rest) ← next tokens
    match token.lexeme with
    | .mark '(' =>
      let (inner, rest) ← parseExpression depth rest
      return (inner, ← expectMark ')' rest)
    | .mark '[' =>
      let (elements, rest) ← parseList depth ']' rest
      return (.array elements, rest)
    | .mark '\x7b' =>
      let (properties, rest) ← parseProperties depth rest
      return (.object properties, rest)
    | lexeme =>
      match atom? lexeme with
      | some atom => return (atom, rest)
      | none => throw (unexpected token)

/-- Entries of an object literal up to the closing brace; a comma may come last. -/
def parseProperties : Nat → List Token → Parsed (List (Property Expression) × List Token)
  | 0, _ => .error ⟨none, .depth⟩
  | depth + 1, tokens =>
    match afterMark? '\x7d' tokens with
    | some rest => .ok ([], rest)
    | none => do
      let (first, rest) ← parseProperty depth tokens
      match afterMark? ',' rest with
      | some rest =>
        let (others, rest) ← parseProperties depth rest
        return (first :: others, rest)
      | none => return ([first], ← expectMark '\x7d' rest)

/-- An identifier without a colon behind it is a shorthand. -/
def parseProperty : Nat → List Token → Parsed (Property Expression × List Token)
  | 0, _ => .error ⟨none, .depth⟩
  | depth + 1, tokens => do
    let (token, rest) ← next tokens
    match token.lexeme, afterMark? ':' rest with
    | .identifier name, none => return (⟨name, .identifier name, true⟩, rest)
    | lexeme, _ =>
      match key? lexeme with
      | none => throw (unexpected token)
      | some key =>
        let rest ← expectMark ':' rest
        let (value, rest) ← parseExpression depth rest
        return (⟨key, value, false⟩, rest)
end

/-- The expression at the front of tokens. From one token to the next a parser descends
through fewer than sixteen functions, so their number bounds the depth. -/
def parseTokens (tokens : List Token) : Parsed (Expression × List Token) :=
  parseExpression (16 * (tokens.length + 1)) tokens

/-- The expression at a cursor, and the cursor behind its last token. -/
def parseAt (cursor : Cursor) : Except Fault (Expression × Cursor) := do
  let tokens := tokens cursor.offset cursor.rest
  let (expression, rest) ← parseTokens tokens
  let last := (tokens.take (tokens.length - rest.length)).getLast?
  return (expression, last.elim cursor fun token => cursor.moveTo token.stop)

/-- A text that is one expression and nothing else. -/
def parseWhole (content : String) : Except Fault Expression := do
  let (expression, rest) ← parseTokens (tokens 0 content.toList)
  match rest with
  | [] => return expression
  | token :: _ => throw (unexpected token)

def parse (source : Source) : Except Diagnostic Expression :=
  (parseWhole source.content).mapError (·.diagnostic source)

end ReactiveMarkup.Expression
