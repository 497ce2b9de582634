/-!
Expressions written inside markup: data only, with no link to where they are used.
-/

namespace ReactiveMarkup

inductive Literal where
  | number (value : Float)
  | string (value : String)
  | boolean (value : Bool)
  | null
  | undefined

inductive UnaryOperator where
  | not
  | minus
  | plus
  | typeof
  deriving Repr, DecidableEq

inductive BinaryOperator where
  | power
  | multiply
  | divide
  | modulo
  | add
  | subtract
  | less
  | lessEqual
  | greater
  | greaterEqual
  | equal
  | notEqual
  | identical
  | notIdentical
  | and
  | or
  | coalesce
  deriving Repr, DecidableEq

/-- An entry of an object literal. A shorthand writes only its key. -/
structure Property (α : Type) where
  key : String
  value : α
  shorthand : Bool

inductive Expression where
  | literal (value : Literal)
  | identifier (name : String)
  | this
  | array (elements : List Expression)
  | object (properties : List (Property Expression))
  | member (receiver : Expression) (property : String) (optional : Bool)
  | index (receiver : Expression) (key : Expression) (optional : Bool)
  | call (callee : Expression) (arguments : List Expression) (optional : Bool)
  | unary (operator : UnaryOperator) (operand : Expression)
  | binary (operator : BinaryOperator) (left right : Expression)
  | conditional (test consequent alternate : Expression)
  | arrow (params : List String) (body : Expression)

instance : Inhabited Expression := ⟨.this⟩

/-- Numbers compare as numbers: the two zeros are the same, and not-a-number differs
from itself. -/
def Literal.same : Literal → Literal → Bool
  | .number a, .number b => a == b
  | .string a, .string b => a == b
  | .boolean a, .boolean b => a == b
  | .null, .null => true
  | .undefined, .undefined => true
  | _, _ => false

namespace UnaryOperator

def symbol : UnaryOperator → String
  | .not => "!"
  | .minus => "-"
  | .plus => "+"
  | .typeof => "typeof"

def all : List UnaryOperator := [.not, .minus, .plus, .typeof]

def ofSymbol? (symbol : String) : Option UnaryOperator := all.find? (·.symbol == symbol)

end UnaryOperator

namespace BinaryOperator

def symbol : BinaryOperator → String
  | .power => "**"
  | .multiply => "*"
  | .divide => "/"
  | .modulo => "%"
  | .add => "+"
  | .subtract => "-"
  | .less => "<"
  | .lessEqual => "<="
  | .greater => ">"
  | .greaterEqual => ">="
  | .equal => "=="
  | .notEqual => "!="
  | .identical => "==="
  | .notIdentical => "!=="
  | .and => "&&"
  | .or => "||"
  | .coalesce => "??"

def all : List BinaryOperator :=
  [.power, .multiply, .divide, .modulo, .add, .subtract, .less, .lessEqual, .greater, .greaterEqual,
   .equal, .notEqual, .identical, .notIdentical, .and, .or, .coalesce]

def ofSymbol? (symbol : String) : Option BinaryOperator := all.find? (·.symbol == symbol)

/-- How tightly an operator binds, from one to seven. -/
def level : BinaryOperator → Nat
  | .or | .coalesce => 1
  | .and => 2
  | .equal | .notEqual | .identical | .notIdentical => 3
  | .less | .lessEqual | .greater | .greaterEqual => 4
  | .add | .subtract => 5
  | .multiply | .divide | .modulo => 6
  | .power => 7

/-- Whether equal operators group from the right. -/
def groupsRight (operator : BinaryOperator) : Bool := operator == .power

end BinaryOperator

namespace Expression

def number (value : Float) : Expression := .literal (.number value)

def string (value : String) : Expression := .literal (.string value)

def boolean (value : Bool) : Expression := .literal (.boolean value)

def name? : Expression → Option String
  | .identifier name => some name
  | _ => none

/-- Whether an expression is an access or a call. -/
def isLink : Expression → Bool
  | .member .. | .index .. | .call .. => true
  | _ => false

/-- Whether a link of the chain that an expression ends is optional. -/
def hasOptionalLink : Expression → Bool
  | .member receiver _ optional => optional || receiver.hasOptionalLink
  | .index receiver _ optional => optional || receiver.hasOptionalLink
  | .call callee _ optional => optional || callee.hasOptionalLink
  | _ => false

mutual
def same : Expression → Expression → Bool
  | .literal a, .literal b => a.same b
  | .identifier a, .identifier b => a == b
  | .this, .this => true
  | .array a, .array b => sameAll a b
  | .object a, .object b => sameProperties a b
  | .member a p o, .member b q r => a.same b && p == q && o == r
  | .index a k o, .index b l r => a.same b && k.same l && o == r
  | .call a k o, .call b l r => a.same b && sameAll k l && o == r
  | .unary o a, .unary r b => o == r && a.same b
  | .binary o a c, .binary r b d => o == r && a.same b && c.same d
  | .conditional a c e, .conditional b d f => a.same b && c.same d && e.same f
  | .arrow p a, .arrow q b => p == q && a.same b
  | _, _ => false

def sameAll : List Expression → List Expression → Bool
  | [], [] => true
  | a :: as, b :: bs => a.same b && sameAll as bs
  | _, _ => false

def sameProperties : List (Property Expression) → List (Property Expression) → Bool
  | [], [] => true
  | ⟨k, a, s⟩ :: as, ⟨l, b, t⟩ :: bs => k == l && s == t && a.same b && sameProperties as bs
  | _, _ => false
end

instance : BEq Expression := ⟨same⟩

end Expression

end ReactiveMarkup
