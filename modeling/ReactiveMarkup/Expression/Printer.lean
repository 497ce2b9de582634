import ReactiveMarkup.Expression.Basic
import ReactiveMarkup.Number.Decimal
import ReactiveMarkup.Text.Class
import ReactiveMarkup.Text.Quoted

/-!
Printing expressions, with parentheses only where an operand binds less tightly than
its place requires.
-/

namespace ReactiveMarkup.Expression

/-- A number in an expression. Zero has no sign. -/
def numeral (value : Float) : String :=
  match Number.toInt? value with
  | some n => if n.natAbs < Nat.pow 10 15 then toString n else Number.text value
  | none => Number.text value

def printLiteral : Literal → String
  | .number value => numeral value
  | .string value => Text.quoteSingle value
  | .boolean value => if value then "true" else "false"
  | .null => "null"
  | .undefined => "undefined"

/-- How tightly an expression holds together, from arrow functions up. -/
def rank : Expression → Nat
  | .arrow .. => 0
  | .conditional .. => 1
  | .binary operator .. => operator.level + 1
  | .unary .. => 9
  | _ => 10

def parenthesizeIf (condition : Bool) (text : String) : String :=
  if condition then "(" ++ text ++ ")" else text

def printKey (key : String) : String := if Text.isIdentifier key then key else Text.quoteSingle key

/-- Two signs in a row are kept apart. -/
def printUnary (operator : UnaryOperator) (operand : String) : String :=
  match operator with
  | .typeof => "typeof " ++ operand
  | .not => "!" ++ operand
  | .minus | .plus =>
    if operand.startsWith "-" || operand.startsWith "+" then operator.symbol ++ " " ++ operand
    else operator.symbol ++ operand

def isObject : Expression → Bool
  | .object _ => true
  | _ => false

mutual
def print : Expression → String
  | .literal value => printLiteral value
  | .identifier name => name
  | .this => "this"
  | .array elements => "[" ++ ", ".intercalate (printAll elements) ++ "]"
  | .object properties =>
    if properties.isEmpty then "\x7b\x7d"
    else "\x7b " ++ ", ".intercalate (printProperties properties) ++ " \x7d"
  | .member receiver property optional =>
    parenthesizeIf (rank receiver < 10) (print receiver) ++ (if optional then "?." else ".") ++ property
  | .index receiver key optional =>
    parenthesizeIf (rank receiver < 10) (print receiver) ++ (if optional then "?.[" else "[") ++
      print key ++ "]"
  | .call callee arguments optional =>
    parenthesizeIf (rank callee < 10) (print callee) ++ (if optional then "?.(" else "(") ++
      ", ".intercalate (printAll arguments) ++ ")"
  | .unary operator operand => printUnary operator (parenthesizeIf (rank operand < 9) (print operand))
  | .binary operator left right =>
    let own := operator.level + 1
    let leftText := parenthesizeIf (rank left < own || (rank left == own && operator.groupsRight)) (print left)
    let rightText := parenthesizeIf (rank right < own || (rank right == own && !operator.groupsRight)) (print right)
    leftText ++ " " ++ operator.symbol ++ " " ++ rightText
  | .conditional test consequent alternate =>
    parenthesizeIf (rank test ≤ 1) (print test) ++ " ? " ++ print consequent ++ " : " ++ print alternate
  | .arrow params body =>
    "(" ++ ", ".intercalate params ++ ") => " ++ parenthesizeIf (isObject body) (print body)

def printAll : List Expression → List String
  | [] => []
  | first :: rest => print first :: printAll rest

def printProperties : List (Property Expression) → List String
  | [] => []
  | ⟨key, value, shorthand⟩ :: rest =>
    (if shorthand then key else printKey key ++ ": " ++ print value) :: printProperties rest
end

end ReactiveMarkup.Expression
