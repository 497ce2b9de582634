import ReactiveMarkup.Markup.Parser
import ReactiveMarkup.Proofs.BytewiseLexing

/-! Markup read by a parser that keeps a byte index and takes slices of the text, and the places
of its problems. Nothing comes of a slice that does not exist, nor of a bound that is reached. -/

namespace ReactiveMarkup.Bytewise

/-- What a parser reads, or a fault; nothing if it took a slice that does not exist. -/
abbrev Parsing := ExceptT Fault Option

def fail {α : Type} (byte : Nat) (problem : Problem) : Parsing α := throw ⟨some byte, problem⟩

section Parser

variable (text : List Char)

/-- Steps over characters up to a place that ends a run, or to the end of the text. -/
def skipUntil (ends : List Char → Bool) (byte : Nat) : Option Nat :=
  match _found : Text.fromByte? byte text with
  | none => none
  | some [] => some byte
  | some (c :: rest) => if ends (c :: rest) then some byte else skipUntil ends (byte + c.utf8Size)
termination_by Text.byteSize text - byte
decreasing_by
  have before := Text.lt_size_of_fromByte? _found
  have positive := Char.utf8Size_pos c
  omega

/-- Whether what is left does not start with a character of a class. -/
def lacks (p : Char → Bool) (rest : List Char) : Bool := !rest.head?.any p

def skipBlanks (byte : Nat) : Option Nat := skipUntil text (lacks Text.isBlank) byte

def startsAt (word : String) (byte : Nat) : Option Bool := do
  let rest ← Text.fromByte? byte text
  return Text.startsWith rest word

def eat (word : String) (byte : Nat) : Parsing Nat := do
  if ← startsAt text word byte then return byte + word.utf8ByteSize
  else fail byte (.expected word)

/-- The byte behind a keyword that no identifier character continues. -/
def afterKeyword? (keyword : String) (byte : Nat) : Option (Option Nat) := do
  if ← startsAt text keyword byte then
    let behind ← Text.fromByte? (byte + keyword.utf8ByteSize) text
    return if behind.head?.any Text.isIdentifierPart then none else some (byte + keyword.utf8ByteSize)
  else return none

def eatKeyword (keyword : String) (byte : Nat) : Parsing Nat := do
  match ← afterKeyword? text keyword byte with
  | some behind => return behind
  | none => fail byte (.expected keyword)

/-- Whether an ending stands at a byte. A closing tag is compared piece by piece. -/
def isAt (ending : Markup.Ending) (byte : Nat) : Option Bool :=
  match ending with
  | .text => some (decide (Text.byteSize text ≤ byte))
  | .tag name _ => do
    let rest ← Text.fromByte? byte text
    if Text.startsWith rest "</" then
      let named ← Text.fromByte? 2 rest
      if Text.startsWith named name then
        let behind ← Text.fromByte? (2 + name.utf8ByteSize) rest
        return Text.startsWith behind ">"
      else return false
    else return false
  | .block _ _ => startsAt text "\x7d" byte

/-- The problem of a text that stops before the ending. -/
def missing (ending : Markup.Ending) (byte : Nat) : Fault :=
  match ending with
  | .text => ⟨some byte, .templateEnd⟩
  | .tag name start => ⟨some start, .unclosedElement name⟩
  | .block name start => ⟨some start, .unclosedBlock name⟩

/-- The expression at a byte, and the byte behind its last token. -/
def parseExpression (byte : Nat) : Parsing (Expression × Nat) := do
  let tokens ← tokensFrom text byte
  let (expression, rest) ← ExceptT.mk (some (Expression.parseTokens tokens))
  let last := (tokens.take (tokens.length - rest.length)).getLast?
  return (expression, last.elim byte Expression.Token.stop)

def encloses (mark close : Char) (name : List Char) : Bool := name.head? == some mark && name.getLast? == some close

/-- Whether an attribute's name is a name between brackets or parentheses. -/
def isBinding (name : List Char) : Bool :=
  (encloses '[' ']' name || encloses '(' ')' name) && 2 < Text.byteSize name

/-- The expression up to the closing quote of an attribute. -/
def boundValue (byte : Nat) : Parsing (Expression × Nat) := do
  let (value, byte) ← parseExpression text byte
  return (value, ← eat text "\"" (← skipBlanks text byte))

def parseAttribute (start : Nat) : Parsing (Attribute × Nat) := do
  let stop ← skipUntil text Markup.endsName start
  let name ← Text.slice? start stop text
  if name.isEmpty then fail start .attributeName
  else if !(← startsAt text "=" stop) then return (.flag (.ofList name), stop)
  else if !(← startsAt text "\"" (stop + 1)) then fail (stop + 1) .attributeQuote
  else if isBinding name then
    let (value, byte) ← boundValue text (stop + 1 + 1)
    let inner ← Text.slice? 1 (Text.byteSize name - 1) name
    return (if name.head? = some '[' then .property (.ofList inner) value else .event (.ofList inner) value, byte)
  else
    let close ← skipUntil text (lacks (· != '"')) (stop + 1 + 1)
    let value ← Text.slice? (stop + 1 + 1) close text
    if Text.byteSize text ≤ close then fail start (.unterminatedValue (.ofList name))
    else return (.literal (.ofList name) (.ofList value), close + 1)

def parseAttributes : Nat → Nat → Parsing (List Attribute × Nat)
  | 0, _ => ExceptT.mk none
  | bound + 1, byte => do
    let byte ← skipBlanks text byte
    if (← startsAt text ">" byte) || (← startsAt text "/>" byte) then return ([], byte)
    else if Text.byteSize text ≤ byte then fail byte .unterminatedTag
    else
      let (attr, byte) ← parseAttribute text byte
      let (others, byte) ← parseAttributes bound byte
      return (attr :: others, byte)

def parseInterpolation (byte : Nat) : Parsing (Expression × Nat) := do
  let byte ← eat text "\x7b\x7b" byte
  let (value, byte) ← parseExpression text (← skipBlanks text byte)
  return (value, ← eat text "\x7d\x7d" (← skipBlanks text byte))

def parseParenthesized (byte : Nat) : Parsing (Expression × Nat) := do
  let byte ← eat text "(" (← skipBlanks text byte)
  let (value, byte) ← parseExpression text (← skipBlanks text byte)
  return (value, ← eat text ")" (← skipBlanks text byte))

def parseLoopHead (byte : Nat) : Parsing (Markup.LoopHead × Nat) := do
  let byte ← eat text "(" (← skipBlanks text byte)
  let (item, byte) ← parseExpression text (← skipBlanks text byte)
  let byte ← eatKeyword text "of" (← skipBlanks text byte)
  let (items, byte) ← parseExpression text (← skipBlanks text byte)
  let byte ← eat text ";" (← skipBlanks text byte)
  let byte ← eatKeyword text "track" (← skipBlanks text byte)
  let (track, byte) ← parseExpression text (← skipBlanks text byte)
  return (⟨item, items, track⟩, ← eat text ")" (← skipBlanks text byte))

/-- A text without its layout. -/
def withoutLayout (raw : List Char) : Option (List Char) := do
  let content := Text.byteSize (Text.trimRight raw)
  let layout ← Text.fromByte? content raw
  if layout.contains '\n' then Text.slice? 0 (content + Text.byteSize (layout.takeWhile (· != '\n'))) raw
  else return raw

def parseText (start : Nat) : Option (Option Markup × Nat) := do
  let stop ← skipUntil text Markup.endsText start
  let raw ← Text.slice? start stop text
  let value ← withoutLayout raw
  return (if (Text.trim value).isEmpty then none else some (.text (.ofList value)), stop)

mutual
/-- Siblings up to an ending, which is left in place. -/
def parseSiblings : Nat → Markup.Ending → Nat → Parsing (List Markup × Nat)
  | 0, _, _ => ExceptT.mk none
  | depth + 1, ending, byte => do
    let byte ← skipBlanks text byte
    if ← isAt text ending byte then return ([], byte)
    else if Text.byteSize text ≤ byte then throw (missing ending byte)
    else if ← startsAt text "\x7d" byte then fail byte .strayBrace
    else
      let (node?, byte) ← parseNode depth byte
      let (others, byte) ← parseSiblings depth ending byte
      return (node?.toList ++ others, byte)

def parseNode : Nat → Nat → Parsing (Option Markup × Nat)
  | 0, _ => ExceptT.mk none
  | depth + 1, byte => do
    if ← startsAt text "<" byte then
      let (node, byte) ← parseElement depth byte
      return (some node, byte)
    else if ← startsAt text "\x7b\x7b" byte then
      let (value, byte) ← parseInterpolation text byte
      return (some (.expression value), byte)
    else if ← startsAt text "@if" byte then
      let (block, byte) ← parseConditional depth (← eat text "@if" byte)
      return (some block, byte)
    else if ← startsAt text "@for" byte then
      let (block, byte) ← parseLoop depth (← eat text "@for" byte)
      return (some block, byte)
    else parseText text byte

def parseElement : Nat → Nat → Parsing (Markup × Nat)
  | 0, _ => ExceptT.mk none
  | depth + 1, start => do
    let byte ← eat text "<" start
    if ← startsAt text "/" byte then
      let rest ← Text.fromByte? (byte + 1) text
      fail start (.strayClosingTag (.ofList (rest.takeWhile Text.isTagPart)))
    else
      let stop ← skipUntil text (lacks Text.isTagPart) byte
      let name ← Text.slice? byte stop text
      if name.isEmpty then fail byte .tagName
      else
        let rest ← Text.fromByte? byte text
        let (attributes, byte) ← parseAttributes text (rest.length + 1) stop
        if ← startsAt text "/>" byte then return (.element (.ofList name) attributes [], byte + 2)
        else
          let byte ← eat text ">" byte
          let (children, byte) ← parseSiblings depth (.tag (.ofList name) start) byte
          return (.element (.ofList name) attributes children, ← eat text ("</" ++ .ofList name ++ ">") byte)

/-- The body of a block, in braces. -/
def parseBlock : Nat → String → Nat → Parsing (List Markup × Nat)
  | 0, _, _ => ExceptT.mk none
  | depth + 1, block, byte => do
    let start ← skipBlanks text byte
    let byte ← eat text "\x7b" start
    let (body, byte) ← parseSiblings depth (.block block start) byte
    return (body, ← eat text "\x7d" byte)

def parseConditional : Nat → Nat → Parsing (Markup × Nat)
  | 0, _ => ExceptT.mk none
  | depth + 1, byte => do
    let (test, byte) ← parseParenthesized text byte
    let (body, byte) ← parseBlock depth "@if" byte
    let ((others, otherwise), byte) ← parseElses depth false byte
    return (.conditional test body others otherwise, byte)

/-- The branches behind the first. -/
def parseElses : Nat → Bool → Nat → Parsing ((List (Branch Markup) × List Markup) × Nat)
  | 0, _, _ => ExceptT.mk none
  | depth + 1, final, before => do
    match ← afterKeyword? text "@else" (← skipBlanks text before) with
    | none => return (([], []), before)
    | some byte =>
      if final then fail before .elseAfterElse
      else
        match ← afterKeyword? text "if" (← skipBlanks text byte) with
        | some byte =>
          let (test, byte) ← parseParenthesized text byte
          let (body, byte) ← parseBlock depth "@else if" byte
          let ((others, otherwise), byte) ← parseElses depth false byte
          return ((⟨test, body⟩ :: others, otherwise), byte)
        | none =>
          let (otherwise, byte) ← parseBlock depth "@else" (← skipBlanks text byte)
          let (_, byte) ← parseElses depth true byte
          return (([], otherwise), byte)

def parseLoop : Nat → Nat → Parsing (Markup × Nat)
  | 0, _ => ExceptT.mk none
  | depth + 1, byte => do
    let (head, byte) ← parseLoopHead text byte
    let (body, byte) ← parseBlock depth "@for" byte
    match ← afterKeyword? text "@empty" (← skipBlanks text byte) with
    | none => return (.loop head.item head.items head.track body [], byte)
    | some byte =>
      let (empty, byte) ← parseBlock depth "@empty" byte
      return (.loop head.item head.items head.track body empty, byte)
end

/-- The markup of a whole text. -/
def parseWhole : Parsing (List Markup) := do
  let (nodes, _) ← parseSiblings text (8 * (text.length + 1)) .text 0
  return nodes

end Parser

/-! The places of problems. -/

/-- Line and column of a byte. -/
def locate (text : List Char) (offset : Nat) : Option Position := do
  let before ← Text.slice? 0 (min offset (Text.byteSize text)) text
  return before.foldl Position.advance ⟨0, 0, 0⟩

/-- The surroundings of a byte. -/
def excerpt (text : List Char) (offset : Nat) : Option (List Char × List Char) := do
  let before ← Text.slice? 0 (min offset (Text.byteSize text)) text
  let after ← Text.fromByte? (min offset (Text.byteSize text)) text
  return ((Source.takeLines 3 (before.reverse.take 100)).reverse, Source.takeLines 3 (after.take 100))

end ReactiveMarkup.Bytewise
