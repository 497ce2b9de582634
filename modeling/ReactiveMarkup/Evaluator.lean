import ReactiveMarkup.Interpreter
import ReactiveMarkup.Value.Datum

/-!
Evaluating expressions on their own, outside of any component.
-/

namespace ReactiveMarkup

namespace Evaluator

abbrev Eval := Run Host.bare

def calls : Calls Host.bare := .upTo .bare callDepth

/-- How a step ends in a new machine. -/
def run {α : Type} (step : Eval α) : Ending α := (step.run Machine.bare).1

def make (datum : Datum) : Eval Value := datum.make calls

/-- Calls a value. What is no function gives undefined. -/
def call (value : Value) (arguments : List Value) : Eval Value :=
  match value with
  | .function id => calls.apply id arguments
  | _ => return .undefined

def makeNames (names : List (String × Datum)) : Eval (List (String × Value)) := Datum.makeEntries calls names

/-- The value of an expression among names, of which later ones hide earlier ones. -/
def evaluate (expression : Expression) (this : Datum) (names : List (String × Datum)) : Eval Value := do
  let this ← make this
  let names ← makeNames names
  Machine.evaluate calls ((⟨this, []⟩ : Scope).bind names) expression

end Evaluator

end ReactiveMarkup
