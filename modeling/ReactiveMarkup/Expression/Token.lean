import ReactiveMarkup.Number.Decimal
import ReactiveMarkup.Text.Class
import ReactiveMarkup.Text.Source

/-!
Tokens of expressions. A text is cut from its first character on: blanks are skipped, and
anything else starts a token, if only a faulty one, so that tokens and blanks tile the text.
-/

namespace ReactiveMarkup.Expression

/-- Why a token has no meaning. -/
inductive TokenFault where
  | exponent
  | unterminated
  | unicode
  | character (c : Char)
  deriving Repr, DecidableEq

def TokenFault.message : TokenFault → String
  | .exponent => "Invalid exponent"
  | .unterminated => "Unterminated quote"
  | .unicode => "Invalid unicode escape"
  | .character c => "Unexpected character [" ++ c.toString ++ "]"

inductive Lexeme where
  | mark (c : Char)
  | identifier (name : String)
  | keyword (word : String)
  | string (value : String)
  | operator (symbol : String)
  | number (value : Float)
  | fault (cause : TokenFault)

/-- A token with the offset and the text that it was read from. -/
structure Token where
  lexeme : Lexeme
  start : Nat
  chars : List Char

namespace Token

def stop (token : Token) : Nat := token.start + Text.byteSize token.chars

def text (token : Token) : String := .ofList token.chars

end Token

def keywords : List String := ["null", "undefined", "true", "false", "this", "typeof"]

/-- Every operator comes before those it starts with. -/
def operators : List String :=
  ["===", "!==", "**", "==", "!=", "<=", ">=", "&&", "||", "??", "?.", "=>", "+", "-", "*", "/",
   "%", "<", ">", "!", "?", "="]

def isMark (c : Char) : Bool := ".()[]\x7b\x7d,:;".toList.contains c

/-- A lexeme with the number of characters that it takes up. -/
abbrev Scanned := Lexeme × Nat

def word (name : String) : Lexeme := if keywords.contains name then .keyword name else .identifier name

/-- A point is part of a number only if a digit follows. -/
def fractionDigits : List Char → Option (List Char)
  | '.' :: c :: rest => if c.isDigit then some ((c :: rest).takeWhile Char.isDigit) else none
  | _ => none

/-- Scans a number: digits, an optional fraction and an optional exponent. The first two may
not both be missing. -/
def scanNumber (chars : List Char) : Scanned :=
  let whole := chars.takeWhile Char.isDigit
  let rest := chars.drop whole.length
  let fraction := fractionDigits rest
  let width := whole.length + (fraction.elim 0 fun digits => digits.length + 1)
  let value (exponent : Int) : Lexeme :=
    .number (Number.ofDigits false whole (fraction.getD []) exponent)
  match chars.drop width with
  | mark :: rest =>
    if mark = 'e' ∨ mark = 'E' then
      let (negative, unsigned) := Number.readSign rest
      let width := width + 1 + (rest.length - unsigned.length)
      let digits := unsigned.takeWhile Char.isDigit
      if digits.isEmpty then (.fault .exponent, width)
      else (value (Number.exponentValue negative digits), width + digits.length)
    else (value 0, width)
  | [] => (value 0, width)

def isHexDigit (c : Char) : Bool := c.isDigit || ('a' ≤ c && c ≤ 'f') || ('A' ≤ c && c ≤ 'F')

def hexDigitValue (c : Char) : Nat :=
  if c.isDigit then c.toNat - '0'.toNat
  else if c ≤ 'F' then c.toNat - 'A'.toNat + 10
  else c.toNat - 'a'.toNat + 10

/-- What an escaped character stands for, four-digit codes apart. -/
def unescape : Char → Char
  | 'n' => '\n'
  | 't' => '\t'
  | 'r' => '\r'
  | 'b' => '\x08'
  | 'f' => '\x0c'
  | 'v' => '\x0b'
  | '0' => '\x00'
  | c => c

/-- The character with a four-digit code, if there is one. -/
def charOfCode? (a b c d : Char) : Option Char :=
  let code := ((hexDigitValue a * 16 + hexDigitValue b) * 16 + hexDigitValue c) * 16 + hexDigitValue d
  if code.isValidChar then some (Char.ofNat code) else none

/-- What was read of a string: its characters so far, or why it is none, and the number
of characters that it takes up. -/
structure QuotedScan where
  value : Except TokenFault (List Char)
  width : Nat

def QuotedScan.cons (c : Char) (width : Nat) (scan : QuotedScan) : QuotedScan :=
  ⟨scan.value.map (c :: ·), scan.width + width⟩

/-- Scans a string from behind its opening quote. -/
def scanQuoted (quote : Char) : List Char → QuotedScan
  | [] => ⟨.error .unterminated, 0⟩
  | c :: rest =>
    if c = quote then ⟨.ok [], 1⟩
    else if c = '\\' then
      match rest with
      | [] => ⟨.error .unterminated, 1⟩
      | e :: rest =>
        if e = 'u' then
          match rest with
          | h :: i :: j :: k :: rest =>
            if [h, i, j, k].all isHexDigit then
              match charOfCode? h i j k with
              | some c => (scanQuoted quote rest).cons c 6
              | none => ⟨.error .unicode, 6⟩
            else ⟨.error .unicode, 2 + ([h, i, j, k].takeWhile isHexDigit).length⟩
          | rest => ⟨.error .unicode, 2 + (rest.takeWhile isHexDigit).length⟩
        else (scanQuoted quote rest).cons (unescape e) 2
    else (scanQuoted quote rest).cons c 1

/-- A question mark and a point before a digit are a condition and a fraction. -/
def isOperatorAt (chars : List Char) (operator : String) : Bool :=
  Text.startsWith chars operator &&
    !(operator == "?." && ((chars.drop 2).head?.any Char.isDigit))

def scanOperator (c : Char) (rest : List Char) : Scanned :=
  match operators.find? (isOperatorAt (c :: rest)) with
  | some operator => (.operator operator, operator.length)
  | none => (.fault (.character c), 1)

def startsNumber (c : Char) (rest : List Char) : Bool :=
  c.isDigit || (c == '.' && rest.head?.any Char.isDigit)

/-- The token that starts with a character that is not blank. -/
def scanLexeme (c : Char) (rest : List Char) : Scanned :=
  if Text.isIdentifierStart c then
    let name := c :: rest.takeWhile Text.isIdentifierPart
    (word (.ofList name), name.length)
  else if startsNumber c rest then scanNumber (c :: rest)
  else if isMark c then (.mark c, 1)
  else if c = '\'' ∨ c = '"' then
    let scan := scanQuoted c rest
    match scan.value with
    | .ok value => (.string (.ofList value), scan.width + 1)
    | .error cause => (.fault cause, scan.width + 1)
  else scanOperator c rest

/-- The tokens of a text that starts at an offset. A token takes up at least one character. -/
def tokens (offset : Nat) : List Char → List Token
  | [] => []
  | c :: rest =>
    if Text.isBlank c then tokens (offset + c.utf8Size) rest
    else
      let (lexeme, width) := scanLexeme c rest
      let token : Token := ⟨lexeme, offset, c :: rest.take (width - 1)⟩
      token :: tokens token.stop (rest.drop (width - 1))
termination_by chars => chars.length
decreasing_by
  · simp only [List.length_cons]; omega
  · simp only [List.length_drop, List.length_cons]; omega

end ReactiveMarkup.Expression
