import ReactiveMarkup.Interpreter
import ReactiveMarkup.Scenario.Controller
import ReactiveMarkup.Scenario.Tree

/-!
Performing the actions of a scenario.
-/

namespace ReactiveMarkup.Scenario

/-- How an action turns out that does not break off: with the context for the next one, or
with a failure. -/
abbrev Outcome := Except Failure (Context Routine)

def stats : Act Stats := do
  let world ← world?
  let graph ← Machine.graph?
  return {
    signals := world.signals.map fun (name, signal) =>
      (name, if signal.isCell then none else some (graph.subscribers signal.id).length)
    stale := world.computeds.map fun (name, id) => (name, !graph.isFresh id)
    disposed := world.effects.map fun (name, id) => (name, ((graph.effect? id).map Effect.disposed).getD true)
    pending := graph.queue.length
    tracking := graph.observer.isSome }

def inspect (handle : Handle) : Act Inspection := do
  let item ← Machine.edit (Document.item handle)
  let document := (← get).document
  let html := document.html handle
  let listeners := document.listenerCount handle
  match item.kind with
  | .element tag _ => return ⟨some tag, none, item.parent, item.children, listeners, html⟩
  | .text content => return ⟨none, some content, item.parent, item.children, listeners, html⟩

def property? (handle : Handle) (name : String) : Act (Option Value) := do
  match (← Machine.edit (Document.item handle)).kind with
  | .element _ properties => return Entries.get? properties name
  | .text _ => return none

/-- Hands a payload to all that listen to an event when it happens. -/
def dispatch (calls : Calls host) (handle : Handle) (event : String) (payload : Value) : Act Unit := do
  ((← get).document.listeners handle event).forM fun listener => Machine.dispatchTo calls listener payload

/-- The anchor behind some nodes, each of which stands in for the ones after it. -/
def anchorBehind (nodes : Entries NodeId) (anchor : Anchor) : List String → Option Anchor
  | [] => some anchor
  | name :: rest =>
    match Entries.get? nodes name with
    | some node => anchorBehind nodes (.afterNode node anchor) rest
    | none => none

def Place.anchor? (nodes : Entries NodeId) : Place → Option Anchor
  | .front => some .front
  | .handle anchor => some (.fixed anchor)
  | .nodes names => anchorBehind nodes .front names

/-- Registers what could be compiled and logs what could not. -/
def register : List ComponentSource → List (Except CompileError Compiled) → Act Unit
  | source :: sources, .ok compiled :: results => do
    modify fun machine => { machine with
      registry := machine.registry.addProgram source.files.path compiled.program source.files.directory }
    register sources results
  | _ :: sources, .error error :: results => do
    note (.failed (.compile error))
    register sources results
  | _, _ => return

/-- Keeps a loaded component under a name. -/
def keepLoaded (context : Context Routine) (name : String) (result : Except LoadError Nat) : Act Outcome := do
  match result with
  | .error error => return .error (.load error)
  | .ok id =>
    let component := ((← get).components[id]?).elim "" Component.name
    note (.loaded component)
    modifyWorld fun world => { world with components := Entries.put world.components name id }
    return .ok context

def addSignal (calls : Calls host) (name : String) (value : Datum) (isCell : Bool) : Act Unit := do
  let id ← Machine.newSignal (← value.make calls)
  modifyWorld fun world => { world with signals := Entries.put world.signals name ⟨id, isCell⟩ }

/-- Does something with a named thing, or fails if there is none. -/
def withNamed {α : Type} (context : Context Routine) (entries : Entries α) (name : String)
    (act : α → Act Unit) : Act Outcome := do
  match Entries.get? entries name with
  | none => return .error .missing
  | some found =>
    act found
    return .ok context

def renderComponent (calls : Calls host) (context : Context Routine) (name : String) (target : Handle)
    (supply : Supply) (id : Nat) : Act Unit := do
  match (← get).components[id]? with
  | none => return
  | some component =>
    let given ← supply.make calls context
    let node ← Machine.instantiate component given
    Machine.holding [.node node] (calls.mount node target .front)
    let label ← Machine.nodeName node
    note (.rendered label (← calls.elements node))
    modifyWorld fun world => { world with apps := Entries.put world.apps name ⟨node, target⟩ }

mutual
def perform (calls : Calls host) (context : Context Routine) : Action → Act Outcome
  | .signal name value => do
    addSignal calls name value false
    return .ok context
  | .cell name value => do
    addSignal calls name value true
    return .ok context
  | .computed name expression body => do
    let id ← Machine.newComputed (.computed name expression body context)
    modifyWorld fun world => { world with computeds := Entries.put world.computeds name id }
    return .ok context
  | .effect name body cleanup => do
    let id ← Machine.newEffect calls (.host (.effect name body cleanup context))
    modifyWorld fun world => { world with effects := Entries.put world.effects name id }
    return .ok context
  | .dispose name => do
    let found := Entries.get? (← world?).effects name
    modifyWorld fun world => { world with effects := Entries.erase world.effects name }
    note (.dispose name found.isSome)
    found.toList.forM fun id => Machine.dispose calls id
    return .ok context
  | .set name operand => do
    let value ← operand.evaluate calls context
    withNamed context (← world?).signals name fun signal => Machine.writeSignal calls signal.id value
  | .update name operand => do
    let value ← operand.evaluate calls context
    withNamed context (← world?).signals name fun signal => Machine.updateSignal calls signal.id value
  | .log operand => do
    note (.value (← operand.evaluate calls context))
    return .ok context
  | .bind name operand => return .ok (context.bind name (← operand.evaluate calls context))
  | .untrack body => return .ok (← Machine.untrack (performAll calls context body))
  | .batch body => return .ok (← Machine.batch calls (performAll calls context body))
  | .branch test consequent alternate => do
    if (← evaluate calls context test).isTruthy then return .ok (← performAll calls context consequent)
    else return .ok (← performAll calls context alternate)
  | .panic message => Step.panic (.host message)
  | .stats => do
    note (.stats (← stats))
    return .ok context
  | .createRoot tag => do
    note (.handle (← Machine.edit (Document.createRoot tag)))
    return .ok context
  | .create tag => do
    note (.handle (← Machine.edit (Document.create tag)))
    return .ok context
  | .createText text => do
    note (.handle (← Machine.edit (Document.createText text)))
    return .ok context
  | .insert handles target after => do
    Machine.edit (Document.mount handles target after)
    return .ok context
  | .remove handles target => do
    Machine.edit (Document.unmount handles target)
    return .ok context
  | .isAfter handles after => do
    note (.flag (← Machine.edit (Document.isAfter handles after)))
    return .ok context
  | .isFirst handles target => do
    note (.flag (← Machine.edit (Document.isFirst handles target)))
    return .ok context
  | .setProperty name handle operand => do
    let value ← operand.evaluate calls context
    Machine.edit (Document.setProperty name value handle)
    return .ok context
  | .setText text handle => do
    Machine.edit (Document.setText text handle)
    return .ok context
  | .replace container new old => do
    Machine.edit (Document.replace container new old)
    return .ok context
  | .listen name event handle body => do
    let id ← Machine.edit (Document.subscribe event (.host (.handler body context)) handle)
    modifyWorld fun world => { world with listeners := Entries.put world.listeners name id }
    return .ok context
  | .unlisten name => do
    let found := Entries.get? (← world?).listeners name
    modifyWorld fun world => { world with listeners := Entries.erase world.listeners name }
    found.toList.forM fun id => Machine.edit (Document.unsubscribe id)
    return .ok context
  | .dispatch handle event operand => do
    let payload ← operand.evaluate calls context
    dispatch calls handle event payload
    return .ok context
  | .inspect handle => do
    note (.inspection (← inspect handle))
    return .ok context
  | .property handle name => do
    note (.property (← property? handle name))
    return .ok context
  | .takeOperations => do
    note (.operations (← get).document.operations)
    modify fun machine => { machine with document := machine.document.clearOperations }
    return .ok context
  | .node name tree => do
    let node ← Machine.holding [] (tree.build calls context)
    modifyWorld fun world => { world with nodes := Entries.put world.nodes name node }
    return .ok context
  | .mount name target place => do
    let nodes := (← world?).nodes
    match place.anchor? nodes with
    | none => return .error .missing
    | some anchor => withNamed context nodes name fun node =>
      Machine.holding ((node :: anchor.nodes).map .node) (calls.mount node target anchor)
  | .unmount name target => do
    withNamed context (← world?).nodes name fun node => calls.unmount node target
  | .elements name => do
    withNamed context (← world?).nodes name fun node => do note (.handles (← calls.elements node))
  | .nodeInfo name => do
    withNamed context (← world?).nodes name fun node => do
      note (.nodeInfo (← Machine.nodeName node) (← Machine.isMounted node))
  | .keys list => do
    withNamed context (← world?).lists list fun node => do
      note (.keys ((← Machine.list? node).elim [] ListNode.keys))
  | .compile sources pattern => do
    let config := (← world?).config
    register sources (ComponentSource.compileAll sources (pattern.elim .standard .pattern) config)
    return .ok context
  | .program path directory program => do
    modify fun machine => { machine with registry := machine.registry.addProgram path program directory }
    return .ok context
  | .controller path controller => do
    modify fun machine => { machine with registry := machine.registry.addController path (.controller controller) }
    return .ok context
  | .native path template => do
    let id ← Machine.newComponent (template.component context.names)
    modify fun machine => { machine with registry := machine.registry.addComponent path id }
    return .ok context
  | .load path name => do
    let result ← Machine.attempt (Machine.load path)
    keepLoaded context name result
  | .evaluate program directory name => do
    let result ← Machine.attempt (Machine.define program directory)
    keepLoaded context name result
  | .moduleInfo path => do
    let registry := (← get).registry
    match registry.controller path with
    | .ok _ => note (.moduleInfo registry.runtimeModule none)
    | .error error => note (.moduleInfo registry.runtimeModule (some error))
    return .ok context
  | .define name template => do
    let component := template.component context.names
    let id ← Machine.newComponent component
    modifyWorld fun world => { world with components := Entries.put world.components name id }
    note (.defined component.name component.declaration)
    return .ok context
  | .render component name target supply => do
    withNamed context (← world?).components component fun id =>
      renderComponent calls context name target supply id
  | .teardown name => do
    let found := Entries.get? (← world?).apps name
    modifyWorld fun world => { world with apps := Entries.erase world.apps name }
    found.toList.forM fun app => calls.unmount app.node app.target
    return .ok context

/-- Performs actions one after another. A failure is logged and the next action goes on. -/
def performAll (calls : Calls host) (context : Context Routine) : List Action → Act (Context Routine)
  | [] => return context
  | action :: rest => do
    match ← perform calls context action with
    | .ok context => performAll calls context rest
    | .error failure =>
      note (.failed failure)
      performAll calls context rest
end

/-- The signal of an instance, or else of the scenario. -/
def signalFor (own : Entries Nat) (name : String) : Act (Option Nat) := do
  match Entries.get? own name with
  | some id => return some id
  | none => return (Entries.get? (← world?).signals name).map NamedSignal.id

/-- Calls a routine. Only routines that give values can be called. -/
def callRoutine (calls : Calls host) (arguments : List Value) : Routine → Act Value
  | .expression body context => evaluate calls context body
  | .key body context => evaluate calls (context.bind "item" (arguments.headD .undefined)) body
  | .handler body context => do
    discard (performAll calls (context.bind "payload" (arguments.headD .undefined)) body)
    return .undefined
  | .cleanup name body context => do
    note (.cleanup name)
    discard (performAll calls context body)
    return .undefined
  | .computed name expression body context => do
    note (.compute name)
    discard (performAll calls context body)
    evaluate calls context expression
  | .peek signal => Machine.peek signal
  | .shown signal => return .string (← Machine.readSignal signal).text
  | .get signal => do
    match ← signalFor [] signal with
    | some id => Machine.readSignal id
    | none => return .undefined
  | .set signal code own => do
    match ← signalFor own signal with
    | none => return .undefined
    | some id =>
      let value ← evaluateCode calls code ((← Machine.peek id) :: arguments)
      Machine.writeSignal calls id value
      return .undefined
  | .call code => evaluateCode calls code arguments
  | .log name => do
    note (.called name arguments)
    return .undefined
  | .emit listener payload => do
    let payload ← evaluateCode calls payload arguments
    Machine.dispatchTo calls listener payload
    return .undefined
  | .derived name code => do
    note (.compute name)
    evaluateCode calls code []
  | .item .. | .filling .. | .effect .. | .controller _ | .view .. => return .undefined

/-- Runs an effect. Its cleanup sees what the run has named. -/
def reactTo (calls : Calls host) : Routine → Act (Option Routine)
  | .effect name body cleanup context => do
    note (.run name)
    let context ← performAll calls context body
    return cleanup.map fun body => .cleanup name body context
  | _ => return none

def buildPart (calls : Calls host) (arguments : List Value) : Routine → Act NodeId
  | .item tree context => do
    note (.item (arguments.getD 1 .undefined))
    tree.build calls (context.bind "item" (arguments.headD .undefined))
  | .filling tree context => tree.build calls (context.bind "context" (arguments.headD .undefined))
  | _ => Machine.newNode default

def control (calls : Calls host) (inputs : Inputs Routine) : Routine → Act Value
  | .controller controller => controller.run calls inputs
  | _ => return .undefined

def buildView (calls : Calls host) (this : Value) (slots : Slots Routine) : Routine → Act (Option NodeId)
  | .view tree names => buildOptional calls ⟨this, names, some slots⟩ tree
  | _ => return none

def interpreter : Interpreter host where
  call calls code arguments := callRoutine calls arguments code
  react calls code := reactTo calls code
  build calls code arguments := buildPart calls arguments code
  control calls code inputs := control calls inputs code
  view calls code this slots := buildView calls this slots code

end ReactiveMarkup.Scenario
