import ReactiveMarkup.Machine.Evaluation
import ReactiveMarkup.Machine.Retention

/-!
Reading and writing signals, computing values, and running effects. A write runs every
effect that depends on it before it returns, unless a batch is open.
-/

namespace ReactiveMarkup.Machine

variable {host : Host} {α : Type}

def addToGraph (content : Content host.Code (Task host.Code)) : Run host Nat :=
  MonadState.modifyGet fun machine =>
    let (id, graph) := machine.graph.add content
    (id, { machine with graph })

def newSignal (value : Value) : Run host Nat := addToGraph (.signal value)

def newComputed (code : host.Code) : Run host Nat := addToGraph (.computed ⟨code, none, true, false⟩)

/-- Runs a step whose reads are attributed to an observer, and then goes back to the one
before. -/
def observedBy (observer : Option Nat) (step : Run host α) : Run host α := do
  let previous := (← graph?).observer
  modifyGraph fun graph => { graph with observer }
  step.after fun _ machine => { machine with graph := { machine.graph with observer := previous } }

/-- Runs a step whose reads are not attributed to anyone. -/
def untrack (step : Run host α) : Run host α := observedBy none step

/-- The value of a signal, read without being noticed. -/
def peek (id : Nat) : Run host Value := return ((← graph?).value? id).getD .undefined

def readSignal (id : Nat) : Run host Value := do
  modifyGraph (·.track id)
  peek id

/-- The value of computed code, which runs only if something it read has changed. -/
def readComputed (calls : Calls host) (id : Nat) : Run host Value := do
  modifyGraph (·.track id)
  match (← graph?).computed? id with
  | none => return .undefined
  | some computed =>
    if !computed.stale then return computed.value.getD .undefined
    if computed.computing then Step.panic .dependencyCycle
    modifyGraph (·.modifyComputed id fun computed => { computed with computing := true })
    let value ← (observedBy (some id) (calls.call computed.code [])).after fun _ machine =>
      { machine with
        graph := machine.graph.modifyComputed id fun computed => { computed with computing := false } }
    modifyGraph (·.modifyComputed id fun computed => { computed with value := some value, stale := false })
    return value

/-- Tells the readers of a signal that it has changed. -/
def changed (calls : Calls host) (id : Nat) : Run host Unit := do
  modifyGraph (·.notifyReaders id)
  calls.flush

/-- Writing an equal value changes nothing. -/
def writeSignal (calls : Calls host) (id : Nat) (value : Value) : Run host Unit := do
  if (← peek id).same value then return
  modifyGraph (·.setSignal id value)
  changed calls id

/-- Writes a value and tells the readers even if it is equal. -/
def updateSignal (calls : Calls host) (id : Nat) (value : Value) : Run host Unit := do
  modifyGraph (·.setSignal id value)
  changed calls id

/-- Runs a step with a batch open. -/
def withBatch (step : Run host α) : Run host α := do
  modifyGraph Graph.enterBatch
  step.after fun ending machine => { machine with graph := machine.graph.leaveBatch ending.isPanic }

/-- Runs a step and then the effects that came to wait, if no other batch is open. -/
def batch (calls : Calls host) (step : Run host α) : Run host α := do
  let value ← withBatch step
  calls.flush
  return value

/-- Runs the cleanup that the last run of an effect left behind. -/
def runCleanup (calls : Calls host) (id : Nat) : Run host Unit := do
  match ((← graph?).effect? id).bind Effect.cleanup with
  | none => return
  | some cleanup =>
    modifyGraph (·.modifyEffect id fun effect => { effect with cleanup := none })
    discard (untrack (calls.call cleanup []))

/-- Keeps the cleanup of a run for later, or runs it now if the effect was disposed. -/
def settleCleanup (calls : Calls host) (id : Nat) (cleanup : Option host.Code) : Run host Unit := do
  if (((← graph?).effect? id).map Effect.disposed).getD true then
    match cleanup with
    | some code => discard (untrack (calls.call code []))
    | none => return
  else modifyGraph (·.modifyEffect id fun effect => { effect with cleanup })

/-- Runs an effect: it forgets what it read, cleans up, and reads anew. -/
def runEffect (calls : Calls host) (id : Nat) : Run host Unit := do
  match (← graph?).effect? id with
  | none => return
  | some effect =>
    if effect.disposed then return
    modifyGraph (·.release id)
    runCleanup calls id
    match ((← graph?).effect? id).bind Effect.body with
    | none => return
    | some body =>
      modifyGraph (·.modifyEffect id fun effect => { effect with body := none })
      let cleanup ← (observedBy (some id) (holding body.parts (calls.perform body))).after fun _ machine =>
        { machine with
          graph := machine.graph.modifyEffect id fun effect => { effect with body := some body } }
      settleCleanup calls id cleanup

/-- Runs waiting effects until there are none, at most as many as allowed. -/
def drain (calls : Calls host) : Nat → Run host Unit
  | 0 => Step.exhausted
  | bound + 1 => do
    match (← graph?).pop? with
    | none => return
    | some (id, graph) =>
      modifyGraph fun _ => graph
      runEffect calls id
      drain calls bound

/-- Runs waiting effects, unless a batch is open. -/
def flush (calls : Calls host) (bound : Nat) : Run host Unit := do
  if 0 < (← graph?).depth then return
  withBatch (drain calls bound)

/-- A new effect, which runs at once. -/
def newEffect (calls : Calls host) (body : Task host.Code) : Run host Nat := do
  let id ← addToGraph (.effect ⟨some body, none, false⟩)
  batch calls (runEffect calls id)
  return id

/-- Ends an effect for good. -/
def dispose (calls : Calls host) (id : Nat) : Run host Unit := do
  match (← graph?).effect? id with
  | none => return
  | some effect =>
    if effect.disposed then return
    modifyGraph fun graph =>
      ((graph.modifyEffect id fun effect => { effect with disposed := true }).dequeue id).release id
    runCleanup calls id
    modifyGraph (·.modifyEffect id fun effect => { effect with body := none })

/-- Calls a function. -/
def apply (calls : Calls host) (id : Nat) (arguments : List Value) : Run host Value := do
  match (← get).functions[id]? with
  | none => return .undefined
  | some (.arrow params body scope) => evaluate calls (scope.bind (bindNames params arguments)) body
  | some (.plan params body scope) => evaluatePlan calls (scope.bind (bindParams params arguments)) body
  | some (.constant value) => return value
  | some (.signal signal) => readSignal signal
  | some (.computed computed) => readComputed calls computed
  | some (.host code) => calls.call code arguments

end ReactiveMarkup.Machine
