import ReactiveMarkup.Entries
import ReactiveMarkup.Expression.Basic
import ReactiveMarkup.Expression.Printer
import ReactiveMarkup.Json.Basic
import ReactiveMarkup.Text.Space

/-!
The values that expressions compute with. Arrays, objects and functions have an identity,
given when they are made and kept by every copy; what a function does is known elsewhere.
-/

namespace ReactiveMarkup

inductive Value where
  | undefined
  | null
  | bool (value : Bool)
  | number (value : Float)
  | string (value : String)
  | array (identity : Nat) (items : List Value)
  | object (identity : Nat) (entries : List (String × Value))
  | function (identity : Nat)

instance : Inhabited Value := ⟨.undefined⟩

namespace Value

def ofLiteral : Literal → Value
  | .number value => .number value
  | .string value => .string value
  | .boolean value => .bool value
  | .null => .null
  | .undefined => .undefined

def isNullish : Value → Bool
  | .undefined | .null => true
  | _ => false

def isTruthy : Value → Bool
  | .undefined | .null => false
  | .bool value => value
  | .number value => value != 0 && !Number.isNaN value
  | .string value => !value.isEmpty
  | .array .. | .object .. | .function _ => true

def typeName : Value → String
  | .undefined => "undefined"
  | .null | .array .. | .object .. => "object"
  | .bool _ => "boolean"
  | .number _ => "number"
  | .string _ => "string"
  | .function _ => "function"

/-- The nearest integer that fits sixty-four bits with a sign. -/
def clampInteger (n : Int) : Int :=
  let limit : Int := Nat.pow 2 63
  if n < -limit then -limit else if limit ≤ n then limit - 1 else n

/-- A number that is an integer is shown by way of a sixty-four bit integer, the nearest
one if it is out of range. -/
def showNumber (x : Float) : String :=
  match Number.parts x with
  | .nan => "NaN"
  | .infinite negative => if negative then "-Infinity" else "Infinity"
  | .finite .. =>
    match Number.toInt? x with
    | some n => if n.natAbs < Nat.pow 10 21 then toString (clampInteger n) else Number.text x
    | none => Number.text x

mutual
/-- The text of a value. Nullish items of an array are left empty. -/
def text : Value → String
  | .undefined => "undefined"
  | .null => "null"
  | .bool value => if value then "true" else "false"
  | .number value => showNumber value
  | .string value => value
  | .array _ items => ",".intercalate (itemTexts items)
  | .object .. => "[object Object]"
  | .function _ => "function () \x7b [native code] \x7d"

def itemTexts : List Value → List String
  | [] => []
  | item :: rest => (if item.isNullish then "" else item.text) :: itemTexts rest
end

/-- A value as the name of a property. -/
def key : Value → String
  | .number value => Expression.numeral value
  | value => value.text

def toNumber : Value → Float
  | .undefined => Number.nan
  | .null => 0
  | .bool value => if value then 1 else 0
  | .number value => value
  | .string value =>
    let trimmed := Text.trim value.toList
    if trimmed.isEmpty then 0 else (Number.read? (.ofList trimmed)).getD Number.nan
  | .array .. | .object .. | .function _ => Number.nan

/-- A position: digits with an optional plus, of a size that fits sixty-four bits. -/
def position? (key : String) : Option Nat :=
  let digits := match key.toList with
    | '+' :: rest => rest
    | chars => chars
  if digits.isEmpty || !digits.all Char.isDigit then none
  else
    let n := Number.digitsValue digits
    if n < Nat.pow 2 64 then some n else none

def get (value : Value) (key : String) : Value :=
  match value with
  | .object _ entries => (Entries.get? entries key).getD .undefined
  | .array _ items =>
    if key = "length" then .number (Number.ofNat items.length)
    else ((position? key).bind (items[·]?)).getD .undefined
  | .string text =>
    if key = "length" then .number (Number.ofNat text.length)
    else (((position? key).bind (text.toList[·]?)).map fun c => .string c.toString).getD .undefined
  | _ => .undefined

mutual
/-- Equality by content. Arrays and objects with one identity are the same, whatever they
hold; the order of an object's entries does not matter. -/
def same : Value → Value → Bool
  | .undefined, .undefined => true
  | .null, .null => true
  | .bool a, .bool b => a == b
  | .number a, .number b => a == b
  | .string a, .string b => a == b
  | .array i a, .array j b => i == j || sameItems a b
  | .object i a, .object j b => i == j || (a.length == b.length && sameEntries a b)
  | .function i, .function j => i == j
  | _, _ => false

def sameItems : List Value → List Value → Bool
  | [], [] => true
  | a :: as, b :: bs => a.same b && sameItems as bs
  | _, _ => false

/-- Whether each entry has an equal one under its name in the second list. -/
def sameEntries : List (String × Value) → List (String × Value) → Bool
  | [], _ => true
  | (name, a) :: rest, others =>
    (match Entries.get? others name with
      | some b => a.same b
      | none => false) && sameEntries rest others
end

/-- Equality where arrays and objects are the same only by identity. -/
def identical (a b : Value) : Bool :=
  match a, b with
  | .array i _, .array j _ => i == j
  | .object i _, .object j _ => i == j
  | a, b => a.same b

/-- Equality up to conversion: nullish values are the same, and numbers, strings and
booleans of different kinds compare as numbers. -/
def loose (a b : Value) : Bool :=
  if a.isNullish || b.isNullish then a.isNullish && b.isNullish
  else match a, b with
    | .number _, .string _ | .number _, .bool _ | .string _, .number _ | .string _, .bool _
    | .bool _, .number _ | .bool _, .string _ => a.toNumber == b.toNumber
    | a, b => a.identical b

def string? : Value → Option String
  | .string value => some value
  | _ => none

def number? : Value → Option Float
  | .number value => some value
  | _ => none

def items? : Value → Option (List Value)
  | .array _ items => some items
  | _ => none

mutual
/-- The JSON form. What JSON cannot say is null. -/
def toJson : Value → Json
  | .undefined | .null | .function _ => .null
  | .bool value => .bool value
  | .number value => if Number.isFinite value then .number (.real value) else .null
  | .string value => .string value
  | .array _ items => .array (itemsToJson items)
  | .object _ entries => .object (entriesToJson entries)

def itemsToJson : List Value → List Json
  | [] => []
  | item :: rest => item.toJson :: itemsToJson rest

def entriesToJson : List (String × Value) → List (String × Json)
  | [] => []
  | (name, value) :: rest => (name, value.toJson) :: entriesToJson rest
end

mutual
/-- The names of classes in a value: words of a string, and those in an array. -/
def classNames : Value → List String
  | .string value => (Text.words value.toList).map .ofList
  | .array _ items => classNamesOfItems items
  | .undefined | .null | .bool false => []
  | value => [value.text]

def classNamesOfItems : List Value → List String
  | [] => []
  | item :: rest => item.classNames ++ classNamesOfItems rest
end

/-- Whether adding the value joins texts. -/
def joins : Value → Bool
  | .string _ | .array .. | .object .. => true
  | _ => false

def add (a b : Value) : Value :=
  if a.joins || b.joins then .string (a.text ++ b.text) else .number (a.toNumber + b.toNumber)

/-- Order of two values, if they have one: strings by their characters, all else as
numbers. -/
def compare? (a b : Value) : Option Ordering :=
  match a, b with
  | .string s, .string t => some (if s < t then .lt else if s = t then .eq else .gt)
  | a, b =>
    let (x, y) := (a.toNumber, b.toNumber)
    if x < y then some .lt else if y < x then some .gt else if x == y then some .eq else none

def unary (operator : UnaryOperator) (value : Value) : Value :=
  match operator with
  | .typeof => .string value.typeName
  | .not => .bool !value.isTruthy
  | .minus => .number (-value.toNumber)
  | .plus => .number value.toNumber

/-- The result of an operator that looks at both operands. -/
def binary (operator : BinaryOperator) (a b : Value) : Value :=
  match operator with
  | .add => a.add b
  | .subtract => .number (a.toNumber - b.toNumber)
  | .multiply => .number (a.toNumber * b.toNumber)
  | .divide => .number (a.toNumber / b.toNumber)
  | .modulo => .number (Number.remainder a.toNumber b.toNumber)
  | .power => .number (a.toNumber ^ b.toNumber)
  | .less => .bool (a.compare? b == some .lt)
  | .lessEqual => .bool (a.compare? b == some .lt || a.compare? b == some .eq)
  | .greater => .bool (a.compare? b == some .gt)
  | .greaterEqual => .bool (a.compare? b == some .gt || a.compare? b == some .eq)
  | .equal => .bool (a.loose b)
  | .notEqual => .bool !a.loose b
  | .identical => .bool (a.identical b)
  | .notIdentical => .bool !a.identical b
  | .and => if a.isTruthy then b else a
  | .or => if a.isTruthy then a else b
  | .coalesce => if a.isNullish then b else a

/-- The result of an operator that the left operand settles. -/
def shortCircuit? (operator : BinaryOperator) (left : Value) : Option Value :=
  match operator with
  | .and => if left.isTruthy then none else some left
  | .or => if left.isTruthy then some left else none
  | .coalesce => if left.isNullish then none else some left
  | _ => none

end Value

end ReactiveMarkup
