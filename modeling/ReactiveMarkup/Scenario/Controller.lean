import ReactiveMarkup.Scenario.Scope

/-!
Controllers of scenarios: the context of an instance, made entry by entry.
-/

namespace ReactiveMarkup.Scenario

def routine (code : Routine) : Act Value := Machine.function (.host code)

/-- A function that reads a property of the component. -/
def readerOf (accessor : Accessor Routine) : Act Value :=
  match accessor with
  | .constant value => Machine.function (.constant value)
  | .plan plan scope => Machine.function (.plan [] plan scope)
  | .host code => routine code

def propertyAccessor (inputs : Inputs Routine) (name : String) : Accessor Routine :=
  (Entries.get? inputs.properties name).getD (.constant .undefined)

def listenerFor (inputs : Inputs Routine) (event : String) : Listener Routine :=
  (Entries.get? inputs.events event).getD .ignore

/-- The value of an entry and the signals that the instance has after it. -/
def EntryKind.make (calls : Calls host) (inputs : Inputs Routine) (own : Entries Nat) (name : String) :
    EntryKind → Act (Value × Entries Nat)
  | .value datum => return (← datum.make calls, own)
  | .get signal => return (← routine (.get signal), own)
  | .own initial => do
    let signal ← Machine.newSignal (← initial.make calls)
    return (← Machine.function (.signal signal), Entries.put own name signal)
  | .set signal code => return (← routine (.set signal code own), own)
  | .computed label code => do
    let id ← Machine.newComputed (.derived label code)
    return (← Machine.function (.computed id), own)
  | .call code => return (← routine (.call code), own)
  | .log label => return (← routine (.log label), own)
  | .property input => return (← readerOf (propertyAccessor inputs input), own)
  | .propertyNow input => return (← Machine.access calls (propertyAccessor inputs input), own)
  | .emit event payload => return (← routine (.emit (listenerFor inputs event) payload), own)
  | .emitNow event payload => do
    let payload ← evaluateCode calls payload []
    Machine.dispatchTo calls (listenerFor inputs event) payload
    return (.undefined, own)
  | .hasSlot slot => return (.bool (inputs.filled.contains slot), own)
  | .propertyNames => return (← Machine.array ((Entries.names inputs.properties).map .string), own)

/-- Makes entries in order. A signal of the instance can be written by those after it. -/
def makeEntries (calls : Calls host) (inputs : Inputs Routine) (own : Entries Nat) :
    List (String × EntryKind) → Act (List (String × Value))
  | [] => return []
  | (name, kind) :: rest => do
    let (value, own) ← kind.make calls inputs own name
    return (name, value) :: (← makeEntries calls inputs own rest)

/-- Runs a controller. -/
def Controller.run (calls : Calls host) (controller : Controller) (inputs : Inputs Routine) : Act Value := do
  if controller.trace then note (.controller (Entries.names inputs.properties))
  match controller.context with
  | .value datum => datum.make calls
  | .entries entries => do
    let entries ← makeEntries calls inputs [] entries
    Machine.object entries

end ReactiveMarkup.Scenario
