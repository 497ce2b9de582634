import ReactiveMarkup.Machine.Reactive
import ReactiveMarkup.Scenario.World

/-!
What expressions of a scenario see: functions for its signals and computed values, and the
names of the context.
-/

namespace ReactiveMarkup.Scenario

/-- Functions that read a signal: its value, its value unnoticed, and the text of it. -/
def signalNames (name : String) (signal : NamedSignal) : Act (List (String × Value)) := do
  let read ← Machine.function (.signal signal.id)
  let peek ← Machine.function (.host (.peek signal.id))
  let shown ← Machine.function (.host (.shown signal.id))
  return [(name, read), ("$" ++ name, peek), (name ++ "_text", shown)]

def allSignalNames : Entries NamedSignal → Act (List (String × Value))
  | [] => return []
  | (name, signal) :: rest => do
    let names ← signalNames name signal
    return names ++ (← allSignalNames rest)

def computedNames : Entries Nat → Act (List (String × Value))
  | [] => return []
  | (name, id) :: rest => do
    let read ← Machine.function (.computed id)
    return (name, read) :: (← computedNames rest)

/-- Names of the context hide those of computed values, and these hide those of signals. -/
def scope (context : Context Routine) : Act Scope := do
  let world ← world?
  let signals ← allSignalNames world.signals
  let computeds ← computedNames world.computeds
  return (⟨context.this, []⟩ : Scope).bind (signals ++ computeds ++ context.names)

def evaluate (calls : Calls host) (context : Context Routine) (expression : Expression) : Act Value := do
  Machine.evaluate calls (← scope context) expression

/-- Code of a controller sees its arguments only. -/
def evaluateCode (calls : Calls host) (code : Expression) (arguments : List Value) : Act Value := do
  let arguments ← Machine.array arguments
  evaluate calls { names := [("args", arguments)] } code

def Operand.evaluate (calls : Calls host) (context : Context Routine) : Operand → Act Value
  | .expression body => Scenario.evaluate calls context body
  | .written datum => datum.make calls

/-- An expression is evaluated anew whenever it changes. -/
def Operand.binding (calls : Calls host) (context : Context Routine) : Operand → Act (Binding Routine)
  | .expression body => return .dynamic (.host (.expression body context))
  | .written datum => return .fixed (← datum.make calls)

def bindings (calls : Calls host) (context : Context Routine) :
    List (String × Operand) → Act (List (String × Binding Routine))
  | [] => return []
  | (name, operand) :: rest => do
    let binding ← operand.binding calls context
    return (name, binding) :: (← bindings calls context rest)

def handlers (context : Context Routine) (events : List (String × List Action)) : Entries (Listener Routine) :=
  Entries.ofList (events.map fun (name, body) => (name, .host (.handler body context)))

def Context.bind (context : Context Routine) (name : String) (value : Value) : Context Routine :=
  { context with names := Entries.put context.names name value }

end ReactiveMarkup.Scenario
