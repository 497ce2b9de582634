import ReactiveMarkup.Expression.Parser
import ReactiveMarkup.Markup.Basic
import ReactiveMarkup.Text.Space

/-!
Parsing markup with one cursor that moves forward. Expressions are handed to their own
parser, which tells where it stopped.
-/

namespace ReactiveMarkup.Markup

abbrev Parsed := Except Fault

def skipBlanks (cursor : Cursor) : Cursor := cursor.drop (cursor.rest.takeWhile Text.isBlank).length

def startsWith (cursor : Cursor) (text : String) : Bool := Text.startsWith cursor.rest text

def eat (text : String) (cursor : Cursor) : Except Fault Cursor :=
  if startsWith cursor text then .ok (cursor.drop text.length)
  else .error (cursor.fault (.expected text))

/-- The cursor behind a keyword that no identifier character continues. -/
def afterKeyword? (keyword : String) (cursor : Cursor) : Option Cursor :=
  let after := cursor.drop keyword.length
  if startsWith cursor keyword && !(after.rest.head?.any Text.isIdentifierPart) then some after else none

def eatKeyword (keyword : String) (cursor : Cursor) : Except Fault Cursor :=
  (afterKeyword? keyword cursor).elim (.error (cursor.fault (.expected keyword))) .ok

/-- What ends a run of siblings: the end of the text, a closing tag, or the brace of a
block. The last two remember where the element or the block starts. -/
inductive Ending where
  | text
  | tag (name : String) (start : Nat)
  | block (name : String) (start : Nat)

def Ending.isAt (ending : Ending) (cursor : Cursor) : Bool :=
  match ending with
  | .text => cursor.rest.isEmpty
  | .tag name _ => startsWith cursor ("</" ++ name ++ ">")
  | .block _ _ => startsWith cursor "\x7d"

/-- The problem of a text that stops before the ending. -/
def Ending.missing (ending : Ending) (cursor : Cursor) : Fault :=
  match ending with
  | .text => cursor.fault .templateEnd
  | .tag name start => ⟨some start, .unclosedElement name⟩
  | .block name start => ⟨some start, .unclosedBlock name⟩

/-- Whether a character ends an attribute's name. -/
def endsName (chars : List Char) : Bool :=
  match chars with
  | [] => true
  | c :: _ => c == '=' || c == '>' || Text.isBlank c || Text.startsWith chars "/>"

def attributeName : List Char → List Char
  | [] => []
  | c :: rest => if endsName (c :: rest) then [] else c :: attributeName rest

/-- The name inside brackets or parentheses that mark a binding. -/
def boundName? (mark close : Char) (name : List Char) : Option String :=
  match name with
  | first :: rest =>
    if first = mark ∧ rest.getLast? = some close ∧ 1 < rest.length then some (.ofList rest.dropLast)
    else none
  | [] => none

/-- The expression up to the closing quote of an attribute. -/
def boundValue (cursor : Cursor) : Parsed (Expression × Cursor) := do
  let (value, cursor) ← Expression.parseAt cursor
  return (value, ← eat "\"" (skipBlanks cursor))

def parseAttribute (start : Cursor) : Parsed (Attribute × Cursor) := do
  let name := attributeName start.rest
  if name.isEmpty then throw (start.fault .attributeName)
  let cursor := start.drop name.length
  let text := String.ofList name
  if !startsWith cursor "=" then return (.flag text, cursor)
  let cursor := cursor.drop 1
  if !startsWith cursor "\"" then throw (cursor.fault .attributeQuote)
  let cursor := cursor.drop 1
  match boundName? '[' ']' name, boundName? '(' ')' name with
  | some inner, _ =>
    let (value, cursor) ← boundValue cursor
    return (.property inner value, cursor)
  | none, some inner =>
    let (value, cursor) ← boundValue cursor
    return (.event inner value, cursor)
  | none, none =>
    let value := cursor.rest.takeWhile (· != '"')
    let cursor := cursor.drop value.length
    if cursor.rest.isEmpty then throw (start.fault (.unterminatedValue text))
    return (.literal text (.ofList value), cursor.drop 1)

/-- Attributes up to the end of the start tag. Each takes up a character, so the length of
the text bounds their number. -/
def parseAttributes : Nat → Cursor → Parsed (List Attribute × Cursor)
  | 0, cursor => .error (cursor.fault .depth)
  | bound + 1, cursor => do
    let cursor := skipBlanks cursor
    if startsWith cursor ">" || startsWith cursor "/>" then return ([], cursor)
    if cursor.rest.isEmpty then throw (cursor.fault .unterminatedTag)
    let (attr, cursor) ← parseAttribute cursor
    let (others, cursor) ← parseAttributes bound cursor
    return (attr :: others, cursor)

def parseInterpolation (cursor : Cursor) : Parsed (Expression × Cursor) := do
  let cursor ← eat "\x7b\x7b" cursor
  let (value, cursor) ← Expression.parseAt (skipBlanks cursor)
  return (value, ← eat "\x7d\x7d" (skipBlanks cursor))

def parseParenthesized (cursor : Cursor) : Parsed (Expression × Cursor) := do
  let cursor ← eat "(" (skipBlanks cursor)
  let (value, cursor) ← Expression.parseAt (skipBlanks cursor)
  return (value, ← eat ")" (skipBlanks cursor))

/-- The head of a loop. -/
structure LoopHead where
  item : Expression
  items : Expression
  track : Expression

def parseLoopHead (cursor : Cursor) : Parsed (LoopHead × Cursor) := do
  let cursor ← eat "(" (skipBlanks cursor)
  let (item, cursor) ← Expression.parseAt (skipBlanks cursor)
  let cursor ← eatKeyword "of" (skipBlanks cursor)
  let (items, cursor) ← Expression.parseAt (skipBlanks cursor)
  let cursor ← eat ";" (skipBlanks cursor)
  let cursor ← eatKeyword "track" (skipBlanks cursor)
  let (track, cursor) ← Expression.parseAt (skipBlanks cursor)
  return (⟨item, items, track⟩, ← eat ")" (skipBlanks cursor))

def endsText (chars : List Char) : Bool :=
  ["<", "\x7d", "\x7b\x7b", "@if", "@for"].any (Text.startsWith chars)

def textRun : List Char → List Char
  | [] => []
  | c :: rest => if endsText (c :: rest) then [] else c :: textRun rest

/-- A text without its layout: white space at its end is kept up to a line feed only. -/
def withoutLayout (raw : List Char) : List Char :=
  let content := Text.trimRight raw
  content ++ (raw.drop content.length).takeWhile (· != '\n')

/-- A text run that is not only white space. -/
def parseText (cursor : Cursor) : Option Markup × Cursor :=
  let raw := textRun cursor.rest
  let value := withoutLayout raw
  (if (Text.trim value).isEmpty then none else some (.text (.ofList value)), cursor.drop raw.length)

mutual
/-- Siblings up to an ending, which is left in place. -/
def parseSiblings : Nat → Ending → Cursor → Parsed (List Markup × Cursor)
  | 0, _, cursor => .error (cursor.fault .depth)
  | depth + 1, ending, cursor => do
    let cursor := skipBlanks cursor
    if ending.isAt cursor then return ([], cursor)
    if cursor.rest.isEmpty then throw (ending.missing cursor)
    if startsWith cursor "\x7d" then throw (cursor.fault .strayBrace)
    let (node?, cursor) ← parseNode depth cursor
    let (others, cursor) ← parseSiblings depth ending cursor
    return (node?.toList ++ others, cursor)

def parseNode : Nat → Cursor → Parsed (Option Markup × Cursor)
  | 0, cursor => .error (cursor.fault .depth)
  | depth + 1, cursor => do
    if startsWith cursor "<" then
      let (node, cursor) ← parseElement depth cursor
      return (some node, cursor)
    else if startsWith cursor "\x7b\x7b" then
      let (value, cursor) ← parseInterpolation cursor
      return (some (.expression value), cursor)
    else if startsWith cursor "@if" then
      let (block, cursor) ← parseConditional depth (cursor.drop 3)
      return (some block, cursor)
    else if startsWith cursor "@for" then
      let (block, cursor) ← parseLoop depth (cursor.drop 4)
      return (some block, cursor)
    else return parseText cursor

def parseElement : Nat → Cursor → Parsed (Markup × Cursor)
  | 0, cursor => .error (cursor.fault .depth)
  | depth + 1, start => do
    let cursor := start.drop 1
    if startsWith cursor "/" then
      throw (start.fault (.strayClosingTag (.ofList ((cursor.drop 1).rest.takeWhile Text.isTagPart))))
    let name := cursor.rest.takeWhile Text.isTagPart
    let text := String.ofList name
    if name.isEmpty then throw (cursor.fault .tagName)
    let (attributes, cursor) ← parseAttributes (cursor.rest.length + 1) (cursor.drop name.length)
    if startsWith cursor "/>" then return (.element text attributes [], cursor.drop 2)
    let cursor ← eat ">" cursor
    let (children, cursor) ← parseSiblings depth (.tag text start.offset) cursor
    return (.element text attributes children, ← eat ("</" ++ text ++ ">") cursor)

/-- The body of a block, in braces. -/
def parseBlock : Nat → String → Cursor → Parsed (List Markup × Cursor)
  | 0, _, cursor => .error (cursor.fault .depth)
  | depth + 1, block, cursor => do
    let start := skipBlanks cursor
    let cursor ← eat "\x7b" start
    let (body, cursor) ← parseSiblings depth (.block block start.offset) cursor
    return (body, ← eat "\x7d" cursor)

def parseConditional : Nat → Cursor → Parsed (Markup × Cursor)
  | 0, cursor => .error (cursor.fault .depth)
  | depth + 1, cursor => do
    let (test, cursor) ← parseParenthesized cursor
    let (body, cursor) ← parseBlock depth "@if" cursor
    let ((others, otherwise), cursor) ← parseElses depth false cursor
    return (.conditional test body others otherwise, cursor)

/-- The branches behind the first. Nothing may follow the branch without a test. -/
def parseElses : Nat → Bool → Cursor → Parsed ((List (Branch Markup) × List Markup) × Cursor)
  | 0, _, cursor => .error (cursor.fault .depth)
  | depth + 1, final, before => do
    match afterKeyword? "@else" (skipBlanks before) with
    | none => return (([], []), before)
    | some cursor =>
      if final then throw (before.fault .elseAfterElse)
      match afterKeyword? "if" (skipBlanks cursor) with
      | some cursor =>
        let (test, cursor) ← parseParenthesized cursor
        let (body, cursor) ← parseBlock depth "@else if" cursor
        let ((others, otherwise), cursor) ← parseElses depth false cursor
        return ((⟨test, body⟩ :: others, otherwise), cursor)
      | none =>
        let (otherwise, cursor) ← parseBlock depth "@else" cursor
        let (_, cursor) ← parseElses depth true cursor
        return (([], otherwise), cursor)

def parseLoop : Nat → Cursor → Parsed (Markup × Cursor)
  | 0, cursor => .error (cursor.fault .depth)
  | depth + 1, cursor => do
    let (head, cursor) ← parseLoopHead cursor
    let (body, cursor) ← parseBlock depth "@for" cursor
    match afterKeyword? "@empty" (skipBlanks cursor) with
    | none => return (.loop head.item head.items head.track body [], cursor)
    | some cursor =>
      let (empty, cursor) ← parseBlock depth "@empty" cursor
      return (.loop head.item head.items head.track body empty, cursor)
end

/-- The markup of a whole text. A parser descends through fewer than eight functions from
one character to the next. -/
def parseWhole (content : String) : Except Fault (List Markup) := do
  let cursor := Cursor.start content
  let (nodes, _) ← parseSiblings (8 * (cursor.rest.length + 1)) .text cursor
  return nodes

def parse (source : Source) : Except Diagnostic (List Markup) :=
  (parseWhole source.content).mapError (·.diagnostic source)

end ReactiveMarkup.Markup
