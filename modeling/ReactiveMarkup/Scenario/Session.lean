import ReactiveMarkup.Scenario.Perform

/-!
Sessions: a scenario performed from the start, and what each of its actions shows.
-/

namespace ReactiveMarkup.Scenario

/-- What an action shows: its log, its operations on the document with the markup after
them, and how it ended. -/
structure Answer where
  log : List Entry
  operations : List Operation
  html : String
  ending : Ending (Option Failure)

/-- The element that a session renders into. -/
def root : Handle := 0

def calls : Calls host := .upTo interpreter callDepth

/-- A session with nothing but its root. -/
def start (config : Config) : Machine host := {
  registry := { runtimeModule := config.runtimeModule }
  world := { config }
  document := (({} : Document (Listener Routine)).push (.element "root" [])).2 }

/-- Performs an action in an empty context. -/
def attempt (action : Action) : Act (Option Failure) := do
  match ← perform calls {} action with
  | .ok _ => return none
  | .error failure => return some failure

/-- Starts a new log and a new record of operations. -/
def fresh (machine : Machine host) : Machine host := { machine with
  world := { machine.world with log := [] }
  document := machine.document.clearOperations }

/-- Performs one action. However it ends, the session goes on from there. -/
def advance (machine : Machine host) (action : Action) : Answer × Machine host :=
  let (ending, machine) := attempt action (fresh machine)
  ({ log := machine.world.log.reverse
     operations := machine.document.operations
     html := machine.document.innerHtml root
     ending }, machine)

def answers (machine : Machine host) : List Action → List Answer
  | [] => []
  | action :: rest =>
    let (answer, machine) := advance machine action
    answer :: answers machine rest

def run (config : Config) (actions : List Action) : List Answer := answers (start config) actions

end ReactiveMarkup.Scenario
