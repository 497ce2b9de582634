import ReactiveMarkup.Expression.Token

/-!
What can be wrong with the text of markup or of an expression, and its wording.
-/

namespace ReactiveMarkup

inductive Problem where
  /-- A token without a meaning, with the offset at which it starts. -/
  | token (cause : Expression.TokenFault) (start : Nat)
  | unexpectedToken (text : String)
  | unexpectedEnd
  /-- The expression ends where a mark is due. -/
  | missingMark (mark : Char)
  | otherMark (mark : Char) (found : String)
  | arrowBlock
  | expected (text : String)
  | unclosedElement (name : String)
  | unclosedBlock (block : String)
  | templateEnd
  | strayBrace
  | strayClosingTag (name : String)
  | tagName
  | unterminatedTag
  | attributeName
  | attributeQuote
  | unterminatedValue (name : String)
  | elseAfterElse
  /-- The recursion bound was too small, which no text reaches. -/
  | depth
  deriving Repr, DecidableEq

def Problem.message : Problem → String
  | .token cause start => "Lexer Error: " ++ cause.message ++ " at column " ++ toString start
  | .unexpectedToken text => "Unexpected token '" ++ text ++ "'"
  | .unexpectedEnd => "Unexpected end of expression"
  | .missingMark mark => "Expected '" ++ mark.toString ++ "'"
  | .otherMark mark found => "Expected '" ++ mark.toString ++ "' but found '" ++ found ++ "'"
  | .arrowBlock => "Arrow function bodies must be expressions"
  | .expected text => "Expected \"" ++ text ++ "\""
  | .unclosedElement name => "Missing closing tag </" ++ name ++ ">"
  | .unclosedBlock block => "Missing '\x7d' closing " ++ block ++ " block"
  | .templateEnd => "Unexpected end of template"
  | .strayBrace => "Unexpected '\x7d'"
  | .strayClosingTag name => "Unexpected closing tag </" ++ name ++ ">"
  | .tagName => "Expected tag name"
  | .unterminatedTag => "Unterminated start tag"
  | .attributeName => "Expected attribute name"
  | .attributeQuote => "Expected '\"' after '='"
  | .unterminatedValue name => "Unterminated value of attribute " ++ name
  | .elseAfterElse => "@else after the final @else branch"
  | .depth => "Nesting too deep"

/-- A problem at an offset, or at the end of the text. -/
structure Fault where
  offset? : Option Nat
  problem : Problem
  deriving Repr, DecidableEq

def Fault.diagnostic (fault : Fault) (source : Source) : Diagnostic :=
  ⟨source, fault.offset?.getD source.content.utf8ByteSize, fault.problem.message⟩

/-- What is left of a text, from an offset on. -/
structure Cursor where
  offset : Nat
  rest : List Char
  deriving Repr, DecidableEq

namespace Cursor

def start (content : String) : Cursor := ⟨0, content.toList⟩

/-- Skips a number of characters. -/
def drop (cursor : Cursor) (count : Nat) : Cursor :=
  ⟨cursor.offset + Text.byteSize (cursor.rest.take count), cursor.rest.drop count⟩

/-- Skips to an offset further on. -/
def moveTo (cursor : Cursor) (offset : Nat) : Cursor :=
  let (passed, rest) := Text.splitAtByte (offset - cursor.offset) cursor.rest
  ⟨cursor.offset + Text.byteSize passed, rest⟩

def fault (cursor : Cursor) (problem : Problem) : Fault := ⟨some cursor.offset, problem⟩

end Cursor

end ReactiveMarkup
