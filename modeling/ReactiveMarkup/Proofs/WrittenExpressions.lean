import ReactiveMarkup.Proofs.Rereading

/-! Printed expressions together with the parentheses that stand in them. Scripts restrict what may
stand without parentheses beyond the order of precedence: a sign may not stand in front of a base, the
two kinds of alternatives may not be mixed, and a point may not follow the digits of a whole number.
The main result says which expressions are printed within these restrictions. -/

namespace ReactiveMarkup

/-- An expression as it is written, with its parentheses. -/
inductive Phrase where
  | literal (value : Literal)
  | identifier (name : String)
  | this
  | enclosed (inner : Phrase)
  | array (elements : List Phrase)
  | object (properties : List (Property Phrase))
  | member (receiver : Phrase) (property : String) (optional : Bool)
  | index (receiver : Phrase) (key : Phrase) (optional : Bool)
  | call (callee : Phrase) (arguments : List Phrase) (optional : Bool)
  | unary (operator : UnaryOperator) (operand : Phrase)
  | binary (operator : BinaryOperator) (left right : Phrase)
  | conditional (test consequent alternate : Phrase)
  | arrow (params : List String) (body : Phrase)

namespace Phrase

open Expression (rank printLiteral printKey printUnary parenthesizeIf)

mutual
/-- What a phrase looks like. Nothing is put into parentheses that is not enclosed. -/
def text : Phrase → String
  | .literal value => printLiteral value
  | .identifier name => name
  | .this => "this"
  | .enclosed inner => "(" ++ text inner ++ ")"
  | .array elements => "[" ++ ", ".intercalate (textAll elements) ++ "]"
  | .object properties =>
    if properties.isEmpty then "\x7b\x7d" else "\x7b " ++ ", ".intercalate (textProperties properties) ++ " \x7d"
  | .member receiver property optional => text receiver ++ (if optional then "?." else ".") ++ property
  | .index receiver key optional => text receiver ++ (if optional then "?.[" else "[") ++ text key ++ "]"
  | .call callee arguments optional =>
    text callee ++ (if optional then "?.(" else "(") ++ ", ".intercalate (textAll arguments) ++ ")"
  | .unary operator operand => printUnary operator (text operand)
  | .binary operator left right => text left ++ " " ++ operator.symbol ++ " " ++ text right
  | .conditional test consequent alternate => text test ++ " ? " ++ text consequent ++ " : " ++ text alternate
  | .arrow params body => "(" ++ ", ".intercalate params ++ ") => " ++ text body

def textAll : List Phrase → List String
  | [] => []
  | first :: rest => text first :: textAll rest

def textProperties : List (Property Phrase) → List String
  | [] => []
  | ⟨key, value, shorthand⟩ :: rest => (if shorthand then key else printKey key ++ ": " ++ text value) :: textProperties rest
end

mutual
/-- The expression without its parentheses. -/
def plain : Phrase → Expression
  | .literal value => .literal value
  | .identifier name => .identifier name
  | .this => .this
  | .enclosed inner => plain inner
  | .array elements => .array (plainAll elements)
  | .object properties => .object (plainProperties properties)
  | .member receiver property optional => .member (plain receiver) property optional
  | .index receiver key optional => .index (plain receiver) (plain key) optional
  | .call callee arguments optional => .call (plain callee) (plainAll arguments) optional
  | .unary operator operand => .unary operator (plain operand)
  | .binary operator left right => .binary operator (plain left) (plain right)
  | .conditional test consequent alternate => .conditional (plain test) (plain consequent) (plain alternate)
  | .arrow params body => .arrow params (plain body)

def plainAll : List Phrase → List Expression
  | [] => []
  | first :: rest => plain first :: plainAll rest

def plainProperties : List (Property Phrase) → List (Property Expression)
  | [] => []
  | ⟨key, value, shorthand⟩ :: rest => ⟨key, plain value, shorthand⟩ :: plainProperties rest
end

def enclosedIf (condition : Bool) (phrase : Phrase) : Phrase := if condition then .enclosed phrase else phrase

/-- Whether a left operand of this rank needs parentheses. -/
def looseOnLeft (operator : BinaryOperator) (rank : Nat) : Bool :=
  rank < operator.level + 1 || (rank == operator.level + 1 && operator.groupsRight)

def looseOnRight (operator : BinaryOperator) (rank : Nat) : Bool :=
  rank < operator.level + 1 || (rank == operator.level + 1 && !operator.groupsRight)

mutual
/-- An expression as it is printed. -/
def ofExpression : Expression → Phrase
  | .literal value => .literal value
  | .identifier name => .identifier name
  | .this => .this
  | .array elements => .array (ofAll elements)
  | .object properties => .object (ofProperties properties)
  | .member receiver property optional => .member (enclosedIf (rank receiver < 10) (ofExpression receiver)) property optional
  | .index receiver key optional =>
    .index (enclosedIf (rank receiver < 10) (ofExpression receiver)) (ofExpression key) optional
  | .call callee arguments optional => .call (enclosedIf (rank callee < 10) (ofExpression callee)) (ofAll arguments) optional
  | .unary operator operand => .unary operator (enclosedIf (rank operand < 9) (ofExpression operand))
  | .binary operator left right =>
    .binary operator (enclosedIf (looseOnLeft operator (rank left)) (ofExpression left))
      (enclosedIf (looseOnRight operator (rank right)) (ofExpression right))
  | .conditional test consequent alternate =>
    .conditional (enclosedIf (rank test ≤ 1) (ofExpression test)) (ofExpression consequent) (ofExpression alternate)
  | .arrow params body => .arrow params (enclosedIf body.isObject (ofExpression body))

def ofAll : List Expression → List Phrase
  | [] => []
  | first :: rest => ofExpression first :: ofAll rest

def ofProperties : List (Property Expression) → List (Property Phrase)
  | [] => []
  | ⟨key, value, shorthand⟩ :: rest => ⟨key, ofExpression value, shorthand⟩ :: ofProperties rest
end

theorem ofAll_eq_map (elements : List Expression) : ofAll elements = elements.map ofExpression := by
  induction elements with
  | nil => rfl
  | cons first rest ih => rw [ofAll, ih, List.map_cons]

theorem ofProperties_eq_map (properties : List (Property Expression)) :
    ofProperties properties = properties.map fun p => ⟨p.key, ofExpression p.value, p.shorthand⟩ := by
  induction properties with
  | nil => rfl
  | cons first rest ih => rw [ofProperties, ih, List.map_cons]

/-! The restrictions. -/

def isUnary : Phrase → Bool
  | .unary .. => true
  | _ => false

/-- Whether a phrase is two operands of an operator. -/
def joins (operator : BinaryOperator) : Phrase → Bool
  | .binary own .. => own == operator
  | _ => false

/-- A number that is written with digits only. -/
def isWhole : Phrase → Bool
  | .literal (.number value) => (Expression.numeral value).toList.all Char.isDigit
  | _ => false

/-- The operands that scripts admit at an operator without further parentheses. -/
structure Admits (operator : BinaryOperator) (left right : Phrase) : Prop where
  noSign : operator = .power → left.isUnary = false
  noLogical : operator = .coalesce →
    (left.joins .or = false ∧ left.joins .and = false) ∧ (right.joins .or = false ∧ right.joins .and = false)
  noCoalesce : operator = .or ∨ operator = .and → left.joins .coalesce = false ∧ right.joins .coalesce = false

/-- A phrase that scripts admit, as far as parentheses go. -/
inductive Confined : Phrase → Prop where
  | literal (value : Literal) : Confined (.literal value)
  | identifier (name : String) : Confined (.identifier name)
  | this : Confined .this
  | enclosed {inner : Phrase} (confined : Confined inner) : Confined (.enclosed inner)
  | array {elements : List Phrase} (confined : ∀ e ∈ elements, Confined e) : Confined (.array elements)
  | object {properties : List (Property Phrase)} (confined : ∀ p ∈ properties, Confined p.value) : Confined (.object properties)
  | member {receiver : Phrase} (property : String) {optional : Bool} (confined : Confined receiver)
      (noPoint : optional = false → receiver.isWhole = false) : Confined (.member receiver property optional)
  | index {receiver key : Phrase} (optional : Bool) (confined : Confined receiver) (confinedKey : Confined key) :
      Confined (.index receiver key optional)
  | call {callee : Phrase} {arguments : List Phrase} (optional : Bool) (confined : Confined callee)
      (confinedAll : ∀ e ∈ arguments, Confined e) : Confined (.call callee arguments optional)
  | unary (operator : UnaryOperator) {operand : Phrase} (confined : Confined operand) : Confined (.unary operator operand)
  | binary {operator : BinaryOperator} {left right : Phrase} (confinedLeft : Confined left) (confinedRight : Confined right)
      (admitted : Admits operator left right) : Confined (.binary operator left right)
  | conditional {test consequent alternate : Phrase} (confinedTest : Confined test) (confinedConsequent : Confined consequent)
      (confinedAlternate : Confined alternate) : Confined (.conditional test consequent alternate)
  | arrow (params : List String) {body : Phrase} (confined : Confined body) : Confined (.arrow params body)

end Phrase

namespace Expression

def isUnary : Expression → Bool
  | .unary .. => true
  | _ => false

def joins (operator : BinaryOperator) : Expression → Bool
  | .binary own .. => own == operator
  | _ => false

def isWhole : Expression → Bool
  | .literal (.number value) => (numeral value).toList.all Char.isDigit
  | _ => false

/-- Whether the own operator of an expression stays within the restrictions, given the parentheses that precedence asks for. -/
def restrained : Expression → Bool
  | .binary .power left _ => !left.isUnary
  | .binary .coalesce left right => !(left.joins .or || left.joins .and || right.joins .and)
  | .binary .or left _ => !left.joins .coalesce
  | .member receiver _ false => !receiver.isWhole
  | _ => true

theorem rank_of_isUnary {e : Expression} (unary : e.isUnary = true) : rank e = 9 := by
  cases e with
  | unary => rfl
  | _ => cases unary

theorem rank_of_joins {e : Expression} {operator : BinaryOperator} (joined : e.joins operator = true) :
    rank e = operator.level + 1 := by
  cases e with
  | binary own left right => rw [rank, of_decide_eq_true joined]
  | _ => cases joined

theorem rank_of_isWhole {e : Expression} (whole : e.isWhole = true) : rank e = 10 := by
  cases e with
  | literal => rfl
  | _ => cases whole

end Expression

namespace Phrase

open Expression (rank rank_of_isUnary rank_of_joins rank_of_isWhole everywhere everywhereAll everywhereProperties restrained)

theorem text_enclosedIf (condition : Bool) (phrase : Phrase) :
    (enclosedIf condition phrase).text = Expression.parenthesizeIf condition phrase.text := by
  cases condition <;> rfl

theorem plain_enclosedIf (condition : Bool) (phrase : Phrase) : (enclosedIf condition phrase).plain = phrase.plain := by
  cases condition <;> rfl

theorem confined_enclosedIf {condition : Bool} {phrase : Phrase} : (enclosedIf condition phrase).Confined ↔ phrase.Confined := by
  cases condition with
  | false => rfl
  | true => exact ⟨fun | .enclosed confined => confined, .enclosed⟩

/-! What an expression is printed as. -/

mutual
theorem text_ofExpression (e : Expression) : (ofExpression e).text = e.print := by
  cases e with
  | literal | identifier | this => rfl
  | array elements => rw [ofExpression, text, textAll_ofAll, Expression.print]
  | object properties =>
    have empty : (ofProperties properties).isEmpty = properties.isEmpty := by rw [ofProperties_eq_map, List.isEmpty_map]
    rw [ofExpression, text, textProperties_ofProperties, empty, Expression.print]
  | member receiver property optional => rw [ofExpression, text, text_enclosedIf, text_ofExpression receiver, Expression.print]
  | index receiver key optional =>
    rw [ofExpression, text, text_enclosedIf, text_ofExpression receiver, text_ofExpression key, Expression.print]
  | call callee arguments optional =>
    rw [ofExpression, text, text_enclosedIf, text_ofExpression callee, textAll_ofAll, Expression.print]
  | unary operator operand => rw [ofExpression, text, text_enclosedIf, text_ofExpression operand, Expression.print]
  | binary operator left right =>
    rw [ofExpression, text, text_enclosedIf, text_enclosedIf, text_ofExpression left, text_ofExpression right, looseOnLeft,
      looseOnRight, Expression.print]
  | conditional test consequent alternate =>
    rw [ofExpression, text, text_enclosedIf, text_ofExpression test, text_ofExpression consequent, text_ofExpression alternate,
      Expression.print]
  | arrow params body => rw [ofExpression, text, text_enclosedIf, text_ofExpression body, Expression.print]

theorem textAll_ofAll (elements : List Expression) : textAll (ofAll elements) = Expression.printAll elements := by
  cases elements with
  | nil => rfl
  | cons first rest => rw [ofAll, textAll, text_ofExpression first, textAll_ofAll rest, Expression.printAll]

theorem textProperties_ofProperties (properties : List (Property Expression)) :
    textProperties (ofProperties properties) = Expression.printProperties properties := by
  cases properties with
  | nil => rfl
  | cons first rest =>
    rw [ofProperties, textProperties, text_ofExpression first.value, textProperties_ofProperties rest, Expression.printProperties]
end

mutual
theorem plain_ofExpression (e : Expression) : (ofExpression e).plain = e := by
  cases e with
  | literal | identifier | this => rfl
  | array elements => rw [ofExpression, plain, plainAll_ofAll]
  | object properties => rw [ofExpression, plain, plainProperties_ofProperties]
  | member receiver property optional => rw [ofExpression, plain, plain_enclosedIf, plain_ofExpression receiver]
  | index receiver key optional =>
    rw [ofExpression, plain, plain_enclosedIf, plain_ofExpression receiver, plain_ofExpression key]
  | call callee arguments optional => rw [ofExpression, plain, plain_enclosedIf, plain_ofExpression callee, plainAll_ofAll]
  | unary operator operand => rw [ofExpression, plain, plain_enclosedIf, plain_ofExpression operand]
  | binary operator left right =>
    rw [ofExpression, plain, plain_enclosedIf, plain_enclosedIf, plain_ofExpression left, plain_ofExpression right]
  | conditional test consequent alternate =>
    rw [ofExpression, plain, plain_enclosedIf, plain_ofExpression test, plain_ofExpression consequent, plain_ofExpression alternate]
  | arrow params body => rw [ofExpression, plain, plain_enclosedIf, plain_ofExpression body]

theorem plainAll_ofAll (elements : List Expression) : plainAll (ofAll elements) = elements := by
  cases elements with
  | nil => rfl
  | cons first rest => rw [ofAll, plainAll, plain_ofExpression first, plainAll_ofAll rest]

theorem plainProperties_ofProperties (properties : List (Property Expression)) :
    plainProperties (ofProperties properties) = properties := by
  cases properties with
  | nil => rfl
  | cons first rest => rw [ofProperties, plainProperties, plain_ofExpression first.value, plainProperties_ofProperties rest]
end

/-! Where no parentheses stand. -/

theorem isUnary_written (condition : Bool) (e : Expression) :
    (enclosedIf condition (ofExpression e)).isUnary = (!condition && e.isUnary) := by
  cases condition with
  | true => rfl
  | false => cases e <;> rfl

theorem joins_written (operator : BinaryOperator) (condition : Bool) (e : Expression) :
    (enclosedIf condition (ofExpression e)).joins operator = (!condition && e.joins operator) := by
  cases condition with
  | true => rfl
  | false => cases e <;> rfl

theorem isWhole_written (condition : Bool) (e : Expression) :
    (enclosedIf condition (ofExpression e)).isWhole = (!condition && e.isWhole) := by
  cases condition with
  | true => rfl
  | false =>
    cases e with
    | literal value => cases value <;> rfl
    | _ => rfl

theorem isWhole_receiver (receiver : Expression) :
    (enclosedIf (rank receiver < 10) (ofExpression receiver)).isWhole = receiver.isWhole := by
  rw [isWhole_written]
  cases whole : receiver.isWhole with
  | false => rw [Bool.and_false]
  | true => rw [rank_of_isWhole whole]; rfl

theorem isUnary_base (left : Expression) :
    (enclosedIf (looseOnLeft .power (rank left)) (ofExpression left)).isUnary = left.isUnary := by
  rw [isUnary_written]
  cases unary : left.isUnary with
  | false => rw [Bool.and_false]
  | true => rw [rank_of_isUnary unary]; rfl

/-- Whether an operand is bare depends on its operator alone. -/
theorem joins_left (operator inner : BinaryOperator) (left : Expression) :
    (enclosedIf (looseOnLeft operator (rank left)) (ofExpression left)).joins inner =
      (!looseOnLeft operator (inner.level + 1) && left.joins inner) := by
  rw [joins_written]
  cases joined : left.joins inner with
  | false => rw [Bool.and_false, Bool.and_false]
  | true => rw [rank_of_joins joined]

theorem joins_right (operator inner : BinaryOperator) (right : Expression) :
    (enclosedIf (looseOnRight operator (rank right)) (ofExpression right)).joins inner =
      (!looseOnRight operator (inner.level + 1) && right.joins inner) := by
  rw [joins_written]
  cases joined : right.joins inner with
  | false => rw [Bool.and_false, Bool.and_false]
  | true => rw [rank_of_joins joined]

theorem admits_written (operator : BinaryOperator) (left right : Expression) :
    Admits operator (enclosedIf (looseOnLeft operator (rank left)) (ofExpression left))
      (enclosedIf (looseOnRight operator (rank right)) (ofExpression right)) ↔ restrained (.binary operator left right) = true := by
  constructor
  · rintro ⟨noSign, noLogical, noCoalesce⟩
    cases operator with
    | power => rw [restrained, ← isUnary_base, noSign rfl]; rfl
    | coalesce =>
      obtain ⟨⟨noOr, noAnd⟩, -, noAndRight⟩ := noLogical rfl
      rw [joins_left] at noOr noAnd
      rw [joins_right] at noAndRight
      simpa [looseOnLeft, looseOnRight, BinaryOperator.level, BinaryOperator.groupsRight, restrained, and_assoc] using
        And.intro noOr (And.intro noAnd noAndRight)
    | or =>
      obtain ⟨noLeft, -⟩ := noCoalesce (.inl rfl)
      rw [joins_left] at noLeft
      simpa [looseOnLeft, BinaryOperator.level, BinaryOperator.groupsRight, restrained] using noLeft
    | _ => rfl
  · intro own
    refine ⟨fun isPower => ?_, fun isCoalesce => ?_, fun isLogical => ?_⟩
    · subst isPower
      rw [isUnary_base]
      exact Bool.eq_false_of_not_eq_true' own
    · subst isCoalesce
      rw [joins_left, joins_left, joins_right, joins_right]
      simpa [looseOnLeft, looseOnRight, BinaryOperator.level, BinaryOperator.groupsRight, restrained, and_assoc] using own
    · obtain rfl | rfl := isLogical
      · rw [joins_left, joins_right]
        simpa [looseOnLeft, looseOnRight, BinaryOperator.level, BinaryOperator.groupsRight, restrained] using own
      · rw [joins_left, joins_right]
        exact ⟨rfl, rfl⟩

theorem confined_binary {operator : BinaryOperator} {left right : Expression} :
    (ofExpression (.binary operator left right)).Confined ↔
      restrained (.binary operator left right) = true ∧ (ofExpression left).Confined ∧ (ofExpression right).Confined := by
  rw [ofExpression]
  constructor
  · intro written
    cases written with
    | binary confinedLeft confinedRight admitted =>
      exact ⟨(admits_written ..).1 admitted, confined_enclosedIf.1 confinedLeft, confined_enclosedIf.1 confinedRight⟩
  · rintro ⟨own, confinedLeft, confinedRight⟩
    exact .binary (confined_enclosedIf.2 confinedLeft) (confined_enclosedIf.2 confinedRight) ((admits_written ..).2 own)

theorem confined_member {receiver : Expression} {property : String} {optional : Bool} :
    (ofExpression (.member receiver property optional)).Confined ↔
      restrained (.member receiver property optional) = true ∧ (ofExpression receiver).Confined := by
  rw [ofExpression]
  constructor
  · intro written
    cases written with
    | member _ confined noPoint =>
      refine ⟨?_, confined_enclosedIf.1 confined⟩
      cases optional with
      | true => rfl
      | false => rw [restrained, ← isWhole_receiver, noPoint rfl]; rfl
  · rintro ⟨own, confined⟩
    refine .member property (confined_enclosedIf.2 confined) fun isPoint => ?_
    subst isPoint
    rw [isWhole_receiver]
    exact Bool.eq_false_of_not_eq_true' own

mutual
theorem confined_ofExpression (e : Expression) : (ofExpression e).Confined ↔ everywhere restrained e = true := by
  cases e with
  | literal value => exact ⟨fun _ => rfl, fun _ => .literal value⟩
  | identifier name => exact ⟨fun _ => rfl, fun _ => .identifier name⟩
  | this => exact ⟨fun _ => rfl, fun _ => .this⟩
  | array elements =>
    have inside := confined_ofAll elements
    rw [everywhere, Bool.and_eq_true, ← inside]
    exact ⟨fun | .array confined => ⟨rfl, confined⟩, fun ⟨_, confined⟩ => .array confined⟩
  | object properties =>
    have inside := confined_ofProperties properties
    rw [everywhere, Bool.and_eq_true, ← inside]
    exact ⟨fun | .object confined => ⟨rfl, confined⟩, fun ⟨_, confined⟩ => .object confined⟩
  | member receiver property optional =>
    rw [confined_member, confined_ofExpression receiver, everywhere, Bool.and_eq_true]
  | index receiver key optional =>
    rw [everywhere, Bool.and_eq_true, Bool.and_eq_true, ← confined_ofExpression receiver, ← confined_ofExpression key]
    exact ⟨fun | .index _ confined confinedKey => ⟨rfl, confined_enclosedIf.1 confined, confinedKey⟩,
      fun ⟨_, confined, confinedKey⟩ => .index optional (confined_enclosedIf.2 confined) confinedKey⟩
  | call callee arguments optional =>
    rw [everywhere, Bool.and_eq_true, Bool.and_eq_true, ← confined_ofExpression callee, ← confined_ofAll arguments]
    exact ⟨fun | .call _ confined confinedAll => ⟨rfl, confined_enclosedIf.1 confined, confinedAll⟩,
      fun ⟨_, confined, confinedAll⟩ => .call optional (confined_enclosedIf.2 confined) confinedAll⟩
  | unary operator operand =>
    rw [everywhere, Bool.and_eq_true, ← confined_ofExpression operand]
    exact ⟨fun | .unary _ confined => ⟨rfl, confined_enclosedIf.1 confined⟩,
      fun ⟨_, confined⟩ => .unary operator (confined_enclosedIf.2 confined)⟩
  | binary operator left right =>
    rw [confined_binary, confined_ofExpression left, confined_ofExpression right, everywhere, Bool.and_eq_true, Bool.and_eq_true]
  | conditional test consequent alternate =>
    rw [everywhere, Bool.and_eq_true, Bool.and_eq_true, Bool.and_eq_true, ← confined_ofExpression test,
      ← confined_ofExpression consequent, ← confined_ofExpression alternate]
    exact ⟨fun | .conditional first second third => ⟨rfl, confined_enclosedIf.1 first, second, third⟩,
      fun ⟨_, first, second, third⟩ => .conditional (confined_enclosedIf.2 first) second third⟩
  | arrow params body =>
    rw [everywhere, Bool.and_eq_true, ← confined_ofExpression body]
    exact ⟨fun | .arrow _ confined => ⟨rfl, confined_enclosedIf.1 confined⟩,
      fun ⟨_, confined⟩ => .arrow params (confined_enclosedIf.2 confined)⟩

theorem confined_ofAll (elements : List Expression) :
    (∀ e ∈ ofAll elements, e.Confined) ↔ everywhereAll restrained elements = true := by
  cases elements with
  | nil => exact ⟨fun _ => rfl, fun _ _ member => nomatch member⟩
  | cons first rest =>
    rw [ofAll, List.forall_mem_cons, everywhereAll, Bool.and_eq_true, confined_ofExpression first, confined_ofAll rest]

theorem confined_ofProperties (properties : List (Property Expression)) :
    (∀ p ∈ ofProperties properties, p.value.Confined) ↔ everywhereProperties restrained properties = true := by
  cases properties with
  | nil => exact ⟨fun _ => rfl, fun _ _ member => nomatch member⟩
  | cons first rest =>
    rw [ofProperties, List.forall_mem_cons, everywhereProperties, Bool.and_eq_true, confined_ofExpression first.value,
      confined_ofProperties rest]
end

/-- The text of an expression is that of a phrase with the same structure. It is admitted by scripts exactly if nowhere in the
expression a sign is left of a power, alternatives of both kinds meet where precedence asks for no parentheses, or a property is
taken of a whole number. -/
theorem confined_iff_restrained (e : Expression) :
    (ofExpression e).text = e.print ∧ (ofExpression e).plain = e ∧ ((ofExpression e).Confined ↔ everywhere restrained e = true) :=
  ⟨text_ofExpression e, plain_ofExpression e, confined_ofExpression e⟩

example : everywhere restrained (.binary .power (.unary .minus (.identifier "x")) (.identifier "y")) = false := rfl

end Phrase

end ReactiveMarkup
