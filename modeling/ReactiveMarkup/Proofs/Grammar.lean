import ReactiveMarkup.Proofs.Phrases

/-! The grammar of expressions over tokens. The parser reads every sequence of tokens that the
grammar derives an expression from, whatever comes behind it, as long as that does not continue
the expression. -/

namespace ReactiveMarkup.Expression

/-- The places of the grammar. The operators of the levels one to six group from the left, the
seventh is that of powers; a chain is a primary expression with accesses and calls behind it. -/
inductive Place where
  | expression
  | conditional
  | level (n : Nat)
  | unary
  | chain
  deriving DecidableEq

/-- How tightly an expression at a place holds together. -/
def Place.rank : Place → Nat
  | .expression => 0
  | .conditional => 1
  | .level n => n + 1
  | .unary => 9
  | .chain => 10

/-- An entry of an object literal as it is written. -/
inductive Entry where
  | shorthand (name : String)
  | keyed (lexeme : Lexeme) (key : String) (spelling : List Lexeme) (value : Expression)

def Entry.spelling : Entry → List Lexeme
  | .shorthand name => [.identifier name]
  | .keyed lexeme _ spelling _ => lexeme :: .mark ':' :: spelling

def Entry.property : Entry → Property Expression
  | .shorthand name => ⟨name, .identifier name, true⟩
  | .keyed _ key _ value => ⟨key, value, false⟩

/-- The tokens that derive an expression at a place. -/
inductive Derives : Place → List Lexeme → Expression → Prop where
  | arrow {front spelling : List Lexeme} {params : List String} {body : Expression} (heads : Heads front params)
      (derives : Derives .expression spelling body) (noBrace : braced spelling = false) :
      Derives .expression (front ++ .operator "=>" :: spelling) (.arrow params body)
  | noArrow {spelling : List Lexeme} {e : Expression} (derives : Derives .conditional spelling e) :
      Derives .expression spelling e
  | conditional {first second third : List Lexeme} {test consequent alternate : Expression}
      (derives : Derives (.level 1) first test) (derivesConsequent : Derives .expression second consequent)
      (derivesAlternate : Derives .expression third alternate) :
      Derives .conditional (first ++ .operator "?" :: (second ++ .mark ':' :: third)) (.conditional test consequent alternate)
  | noCondition {spelling : List Lexeme} {e : Expression} (derives : Derives (.level 1) spelling e) :
      Derives .conditional spelling e
  | binary {first second : List Lexeme} {left right : Expression} (operator : BinaryOperator) (noPower : operator ≠ .power)
      (derives : Derives (.level operator.level) first left) (derivesRight : Derives (.level (operator.level + 1)) second right) :
      Derives (.level operator.level) (first ++ .operator operator.symbol :: second) (.binary operator left right)
  | operand {n : Nat} {spelling : List Lexeme} {e : Expression} (positive : 1 ≤ n) (small : n ≤ 6)
      (derives : Derives (.level (n + 1)) spelling e) : Derives (.level n) spelling e
  | power {first second : List Lexeme} {base exponent : Expression} (derives : Derives .unary first base)
      (derivesExponent : Derives (.level 7) second exponent) :
      Derives (.level 7) (first ++ .operator "**" :: second) (.binary .power base exponent)
  | noPower {spelling : List Lexeme} {e : Expression} (derives : Derives .unary spelling e) : Derives (.level 7) spelling e
  | unary {spelling : List Lexeme} {operand : Expression} (operator : UnaryOperator) (derives : Derives .unary spelling operand) :
      Derives .unary (unaryLexeme operator :: spelling) (.unary operator operand)
  | noSign {spelling : List Lexeme} {e : Expression} (derives : Derives .chain spelling e) : Derives .unary spelling e
  | member {spelling : List Lexeme} {receiver : Expression} {lexeme : Lexeme} {property : String} (optional : Bool)
      (derives : Derives .chain spelling receiver) (found : lexeme.name? = some property) :
      Derives .chain (spelling ++ [if optional then .operator "?." else .mark '.', lexeme]) (.member receiver property optional)
  | index {spelling inner : List Lexeme} {receiver key : Expression} (optional : Bool)
      (derives : Derives .chain spelling receiver) (derivesKey : Derives .expression inner key) :
      Derives .chain (spelling ++ (optionalLexemes optional ++ .mark '[' :: inner ++ [.mark ']'])) (.index receiver key optional)
  | call {spelling : List Lexeme} {callee : Expression} {arguments : List (List Lexeme × Expression)} (optional trailing : Bool)
      (derives : Derives .chain spelling callee) (derivesAll : ∀ item ∈ arguments, Derives .expression item.1 item.2) :
      Derives .chain (spelling ++ (optionalLexemes optional ++ .mark '(' :: separated trailing (arguments.map Prod.fst) ++ [.mark ')']))
        (.call callee (arguments.map Prod.snd) optional)
  | atom {lexeme : Lexeme} {e : Expression} (found : atom? lexeme = some e) : Derives .chain [lexeme] e
  | enclosed {spelling : List Lexeme} {e : Expression} (derives : Derives .expression spelling e) :
      Derives .chain (.mark '(' :: spelling ++ [.mark ')']) e
  | array {items : List (List Lexeme × Expression)} (trailing : Bool) (derivesAll : ∀ item ∈ items, Derives .expression item.1 item.2) :
      Derives .chain (.mark '[' :: separated trailing (items.map Prod.fst) ++ [.mark ']']) (.array (items.map Prod.snd))
  | object {entries : List Entry} (trailing : Bool)
      (keys : ∀ lexeme key spelling value, .keyed lexeme key spelling value ∈ entries → key? lexeme = some key)
      (derivesAll : ∀ lexeme key spelling value, .keyed lexeme key spelling value ∈ entries → Derives .expression spelling value) :
      Derives .chain (.mark '\x7b' :: separated trailing (entries.map Entry.spelling) ++ [.mark '\x7d'])
        (.object (entries.map Entry.property))

theorem allResults_some {α β : Type} (value : α → β) (items : List α) :
    allResults (fun a => some (value a)) items = some (items.map value) := by
  induction items with
  | nil => rfl
  | cons first rest ih => simp [allResults, ih]

/-- Derived tokens are read at every place that is not tighter than their own. -/
theorem back_of_derives {place : Place} {spelling : List Lexeme} {e : Expression} (derives : Derives place spelling e) :
    Back place.rank spelling (some e) := by
  induction derives with
  | arrow heads _ noBrace ih =>
    have back := ih.arrow heads
    rwa [noBrace] at back
  | noArrow _ ih => exact ih.mono (by decide)
  | conditional _ _ _ ih ihConsequent ihAlternate => exact ih.conditional ihConsequent ihAlternate
  | noCondition _ ih => exact ih.mono (by decide)
  | binary operator noPower _ _ ih ihRight => exact ih.binary noPower ihRight
  | operand _ _ _ ih => exact ih.mono (by simp [Place.rank])
  | power _ _ ih ihExponent => exact ih.power ihExponent
  | noPower _ ih => exact ih.mono (by decide)
  | unary operator _ ih => exact ih.unary operator
  | noSign _ ih => exact ih.mono (by decide)
  | member optional _ found ih => exact ih.member found optional
  | index optional _ _ ih ihKey => exact ih.index ihKey optional
  | @call _ _ arguments optional trailing _ _ ih ihAll =>
    have lists : Lists (parseList · ')') ')' (separated trailing (arguments.map Prod.fst)) (allResults (some ·.2) arguments) :=
      lists_expressions rfl rfl (by decide) (fun item member => (ihAll item member).opening)
        (fun item member => (ihAll item member).reads) trailing
    rw [allResults_some] at lists
    exact ih.call lists optional
  | atom found => exact back_atom found
  | enclosed _ ih => exact ih.enclosed
  | @array items trailing _ ih =>
    have lists : Lists (parseList · ']') ']' (separated trailing (items.map Prod.fst)) (allResults (some ·.2) items) :=
      lists_expressions rfl rfl (by decide) (fun item member => (ih item member).opening)
        (fun item member => (ih item member).reads) trailing
    rw [allResults_some] at lists
    exact back_array lists
  | @object entries trailing keys _ ih =>
    have entries : ∀ entry ∈ entries, ReadsEntry entry.spelling (some entry.property) := by
      intro entry member
      cases entry with
      | shorthand name => exact .shorthand name
      | keyed lexeme key spelling value =>
        exact .keyed (keys lexeme key spelling value member) (ih lexeme key spelling value member).reads
    have lists := lists_entries entries trailing
    rw [allResults_some] at lists
    exact back_object lists

end ReactiveMarkup.Expression
