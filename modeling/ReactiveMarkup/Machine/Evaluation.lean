import ReactiveMarkup.Machine.Basic

/-!
Evaluating expressions and value plans, and calling functions.
-/

namespace ReactiveMarkup.Machine

variable {host : Host}

/-- Reads a property of a value that is not nullish. -/
def readMember (receiver : Value) (key : String) (expression : Expression) : Run host Value :=
  if receiver.isNullish then Step.panic (.nullishRead receiver.text key expression.print)
  else return receiver.get key

def lookup (scope : Scope) (name : String) : Run host Value :=
  match scope.lookup name with
  | some value => return value
  | none => Step.panic (.notDefined name)

def applyValue (calls : Calls host) (function : Value) (arguments : List Value) (callee : Expression) :
    Run host Value :=
  match function with
  | .function id => calls.apply id arguments
  | _ => Step.panic (.notFunction callee.print)

mutual
/-- The value of an expression, or nothing when an optional link of the chain that it ends
met a nullish receiver: then no later link is looked at. -/
def evaluateLink (calls : Calls host) (scope : Scope) : Expression → Run host (Option Value)
  | .literal value => return some (.ofLiteral value)
  | .identifier name => return some (← lookup scope name)
  | .this => return some scope.this
  | .array elements => do
    let items ← evaluateAll calls scope elements
    return some (← array items)
  | .object properties => do
    let entries ← evaluateProperties calls scope properties
    return some (← object entries)
  | .member receiver property optional => do
    match ← evaluateLink calls scope receiver with
    | none => return none
    | some value =>
      if optional && value.isNullish then return none
      return some (← readMember value property receiver)
  | .index receiver key optional => do
    match ← evaluateLink calls scope receiver with
    | none => return none
    | some value =>
      if optional && value.isNullish then return none
      let key := ((← evaluateLink calls scope key).getD .undefined).key
      return some (← readMember value key receiver)
  | .call callee arguments optional => do
    match ← evaluateLink calls scope callee with
    | none => return none
    | some function =>
      if optional && function.isNullish then return none
      let arguments ← evaluateAll calls scope arguments
      return some (← applyValue calls function arguments callee)
  | .unary .typeof (.identifier name) =>
    return some (.string ((scope.lookup name).getD .undefined).typeName)
  | .unary operator operand => do
    let value := (← evaluateLink calls scope operand).getD .undefined
    return some (value.unary operator)
  | .binary operator left right => do
    let left := (← evaluateLink calls scope left).getD .undefined
    match left.shortCircuit? operator with
    | some value => return some value
    | none =>
      let right := (← evaluateLink calls scope right).getD .undefined
      return some (left.binary operator right)
  | .conditional test consequent alternate => do
    let test := (← evaluateLink calls scope test).getD .undefined
    let value ← if test.isTruthy then evaluateLink calls scope consequent
      else evaluateLink calls scope alternate
    return some (value.getD .undefined)
  | .arrow params body => return some (← function (.arrow params body scope))

def evaluateAll (calls : Calls host) (scope : Scope) : List Expression → Run host (List Value)
  | [] => return []
  | first :: rest => do
    let value := (← evaluateLink calls scope first).getD .undefined
    return value :: (← evaluateAll calls scope rest)

def evaluateProperties (calls : Calls host) (scope : Scope) :
    List (Property Expression) → Run host (List (String × Value))
  | [] => return []
  | ⟨key, expression, _⟩ :: rest => do
    let value := (← evaluateLink calls scope expression).getD .undefined
    return (key, value) :: (← evaluateProperties calls scope rest)
end

def evaluate (calls : Calls host) (scope : Scope) (expression : Expression) : Run host Value :=
  return (← evaluateLink calls scope expression).getD .undefined

mutual
def evaluatePlan (calls : Calls host) (scope : Scope) : ValuePlan → Run host Value
  | .literal value => return .ofLiteral value
  | .host expression => evaluate calls scope expression
  | .identifier name => lookup scope name
  | .object entries => do object (← evaluateEntries calls scope entries)
  | .array elements => do array (← evaluateElements calls scope elements)
  | .arrow params body => function (.plan params body scope)

def evaluateEntries (calls : Calls host) (scope : Scope) :
    List (String × ValuePlan) → Run host (List (String × Value))
  | [] => return []
  | (name, plan) :: rest => do
    let value ← evaluatePlan calls scope plan
    return (name, value) :: (← evaluateEntries calls scope rest)

def evaluateElements (calls : Calls host) (scope : Scope) : List ValuePlan → Run host (List Value)
  | [] => return []
  | plan :: rest => do
    let value ← evaluatePlan calls scope plan
    return value :: (← evaluateElements calls scope rest)
end

/-- Names for arguments by position; a missing argument is undefined. -/
def bindNames : List String → List Value → List (String × Value)
  | [], _ => []
  | name :: names, arguments => (name, arguments.headD .undefined) :: bindNames names arguments.tail

/-- Names for arguments, where a pattern names entries of its argument. -/
def bindParams : List Param → List Value → List (String × Value)
  | [], _ => []
  | .name name :: params, arguments =>
    (name, arguments.headD .undefined) :: bindParams params arguments.tail
  | .pattern bindings :: params, arguments =>
    bindings.map (fun (key, name) => (name, (arguments.headD .undefined).get key)) ++
      bindParams params arguments.tail

def access (calls : Calls host) : Accessor host.Code → Run host Value
  | .constant value => return value
  | .plan plan scope => evaluatePlan calls scope plan
  | .host code => calls.call code []

def readBinding (calls : Calls host) (binding : Binding host.Code) : Run host Value :=
  access calls binding.accessor

/-- Hands a payload to a listener. -/
def dispatchTo (calls : Calls host) (listener : Listener host.Code) (payload : Value) : Run host Unit := do
  match listener with
  | .ignore => return
  | .plan handler scope =>
    match ← evaluatePlan calls scope handler with
    | .function id => discard (calls.apply id [payload])
    | _ => return
  | .host code => discard (calls.call code [payload])

end ReactiveMarkup.Machine
