import ReactiveMarkup.Proofs.Script

/-! Trees whose code is scripts and queries, and machines that mount them. The tests of conditionals
are queries; whatever else a tree is made of is code of any kind, which may make cells and effects,
and read and write them. -/

namespace ReactiveMarkup.Rendering

/-- A fixed value, or one that a script gives each time it is asked. -/
inductive Source (Memory : Type) where
  | fixed (value : Value)
  | dynamic (script : Script Memory)

/-- What is to be shown. An item is made from the signal that holds it and from its first value; a
component runs its setup and shows what its view makes of the result. -/
inductive Tree (Memory : Type) where
  | element (tag : String) (attributes : Entries Value) (properties : Entries (Source Memory))
      (events : Entries (Value → Script Memory)) (child : Option (Tree Memory))
  | text (content : Source Memory)
  | fragment (children : List (Tree Memory))
  | conditional (branches : List (Query × Option (Tree Memory))) (otherwise : Option (Tree Memory))
  | list (items : Source Memory) (strict : Bool) (track : Value → Script Memory) (each : Nat → Value → Tree Memory)
      (empty : Option (Tree Memory))
  | component (name : String) (setup : Script Memory) (view : Value → Option (Tree Memory))

inductive Code (Memory : Type) where
  | query (query : Query)
  | script (body : Value → Script Memory)
  | item (each : Nat → Value → Tree Memory)
  | view (shows : Value → Option (Tree Memory))

structure World (Memory : Type) where
  memory : Memory
  /-- The effects that scripts have made. -/
  effects : List Nat := []
  /-- The nodes that may be mounted from outside. -/
  roots : List NodeId := []

end Rendering

abbrev Host.rendering (Memory : Type) : Host := ⟨Rendering.Code Memory, Rendering.World Memory, Rendering.World.roots⟩

namespace Rendering

variable {Memory : Type}

abbrev Act (Memory : Type) := Run (Host.rendering Memory)

def modifyWorld (f : World Memory → World Memory) : Act Memory Unit :=
  modify fun machine => { machine with world := f machine.world }

/-- The queries that computed values and tests run. -/
def Code.query? : Code Memory → Option Query
  | .query asked => some asked
  | _ => none

/-- Does something to a cell that has to be a signal. -/
def onSignal (cell : Nat) (act : Act Memory Unit) : Act Memory Unit := do
  match (← Machine.graph?).content? cell with
  | some (.signal _) => act
  | _ => Step.panic (.host "not a signal")

/-- Runs a script. It gives a value and perhaps a cleanup. Only effects that scripts have made are disposed. -/
def run (calls : Calls (Host.rendering Memory)) : Script Memory → Act Memory (Value × Option (Script Memory))
  | .finish value => return (value, none)
  | .leave cleanup => return (.undefined, some cleanup)
  | .newSignal value next => do run calls (next (← Machine.newSignal value))
  | .newComputed query next => do run calls (next (← Machine.newComputed (.query query)))
  | .newEffect body next => do
    let effect ← Machine.newEffect calls (.host (.script fun _ => body))
    modifyWorld fun world => { world with effects := effect :: world.effects }
    run calls (next effect)
  | .get cell next => do run calls (next (← Machine.readCell calls cell))
  | .peek cell next => do run calls (next (← Machine.peek cell))
  | .set cell value next => do
    onSignal cell (Machine.writeSignal calls cell value)
    run calls next
  | .update cell value next => do
    onSignal cell (Machine.updateSignal calls cell value)
    run calls next
  | .batch body next => do run calls (next (← Machine.batch calls (run calls body)).1)
  | .untrack body next => do run calls (next (← Machine.untrack (run calls body)).1)
  | .dispose effect next => do
    if (← get).world.effects.contains effect then Machine.dispose calls effect
    else Step.panic (.host "not an effect of a script")
    run calls next
  | .remember access next => do
    let value ← MonadState.modifyGet fun machine =>
      let (value, memory) := access machine.world.memory
      (value, { machine with world := { machine.world with memory } })
    run calls (next value)

def Source.binding : Source Memory → Binding (Code Memory)
  | .fixed value => .fixed value
  | .dynamic script => .dynamic (.host (.script fun _ => script))

mutual
/-- Makes the nodes of a tree, each after those below it. -/
def Tree.build : Tree Memory → Act Memory NodeId
  | .element tag attributes properties events child => do
    let child ← buildOptional child
    Machine.newNode (.element {
      tag, attributes, child
      properties := properties.map fun (name, source) => (name, source.binding)
      events := events.map fun (name, handler) => (name, .host (.script handler)) })
  | .text content => Machine.newNode (.text { source := content.binding })
  | .fragment children => do
    let children ← buildAll children
    Machine.newNode (.fragment { children })
  | .conditional branches otherwise => do
    let branches ← buildBranches branches
    let otherwise ← buildOptional otherwise
    Machine.newNode (.conditional { branches, otherwise })
  | .list items strict track each empty => do
    let empty ← buildOptional empty
    Machine.newNode (.list {
      items := ⟨items.binding.accessor, strict⟩, tracker := .host (.script track), builder := .host (.item each), empty })
  | .component name setup view =>
    Machine.newNode (.component {
      component := { name, controller := .script fun _ => setup, view := .host (.view view) }
      inputs := ⟨[], [], []⟩, slots := [] })

def buildOptional : Option (Tree Memory) → Act Memory (Option NodeId)
  | none => return none
  | some tree => do return some (← tree.build)

def buildAll : List (Tree Memory) → Act Memory (List NodeId)
  | [] => return []
  | tree :: rest => do
    let node ← tree.build
    return node :: (← buildAll rest)

def buildBranches : List (Query × Option (Tree Memory)) →
    Act Memory (List (Accessor (Code Memory) × Option NodeId))
  | [] => return []
  | (test, tree) :: rest => do
    let node ← buildOptional tree
    return (.host (.query test), node) :: (← buildBranches rest)
end

/-- Makes the node of an item, which a list hands over as a function that reads a signal. -/
def buildItem (each : Nat → Value → Tree Memory) : List Value → Act Memory NodeId
  | .function id :: item :: _ => do
    match (← get).functions[id]? with
    | some (.signal cell) => (each cell item).build
    | _ => Step.panic (.host "not an item")
  | _ => Step.panic (.host "not an item")

end Rendering

open Rendering in
/-- Queries and scripts are run, and trees are built. -/
def Interpreter.rendering (Memory : Type) : Interpreter (Host.rendering Memory) where
  call calls code arguments :=
    match code with
    | .query query => query.run calls
    | .script body => Prod.fst <$> run calls (body (arguments.headD .undefined))
    | _ => Step.panic (.host "not a function")
  react calls code :=
    match code with
    | .script body => do
      let (_, cleanup) ← run calls (body .undefined)
      return cleanup.map fun cleanup => .script fun _ => cleanup
    | _ => Step.panic (.host "not an effect")
  build _ code arguments :=
    match code with
    | .item each => buildItem each arguments
    | _ => Step.panic (.host "not a maker of nodes")
  control calls code _ :=
    match code with
    | .script body => Prod.fst <$> run calls (body .undefined)
    | _ => Step.panic (.host "not a controller")
  view _ code context _ :=
    match code with
    | .view shows => buildOptional (shows context)
    | _ => Step.panic (.host "not a view")

namespace Rendering

variable {Memory : Type}

/-- A machine that has done nothing yet, over a document that is there already. -/
def start (memory : Memory) (document : Document (Listener (Code Memory))) : Machine (Host.rendering Memory) :=
  { registry := { runtimeModule := "" }, document, world := { memory } }

/-- Code that works with a machine from outside: it runs scripts, and makes trees that it mounts in a
target, at its front or behind a child, and unmounts. -/
inductive Director (Memory : Type) where
  | finish
  | run (script : Script Memory) (next : Value → Director Memory)
  | make (tree : Tree Memory) (next : NodeId → Director Memory)
  | mount (root : NodeId) (target : Handle) (after : Option Handle) (next : Director Memory)
  | unmount (root : NodeId) (target : Handle) (next : Director Memory)
  | batch (body next : Director Memory)

namespace Director

/-- Runs a director. What it mounts is a root that is not mounted. -/
def perform (calls : Calls (Host.rendering Memory)) : Director Memory → Act Memory Unit
  | .finish => return
  | .run script next => do perform calls (next (← Rendering.run calls script).1)
  | .make tree next => do
    let root ← tree.build
    modifyWorld fun world => { world with roots := root :: world.roots }
    perform calls (next root)
  | .mount root target place next => do
    if !(← get).world.roots.contains root || (← Machine.isMounted root) then Step.panic (.host "not a root to mount")
    calls.mount root target (place.elim .front .fixed)
    perform calls next
  | .unmount root target next => do
    if !(← get).world.roots.contains root then Step.panic (.host "not a root")
    calls.unmount root target
    perform calls next
  | .batch body next => do
    Machine.batch calls (body.perform calls)
    perform calls next

/-- The machines that directors lead to, run one after the other, none of which breaks off. -/
inductive Reached : Machine (Host.rendering Memory) → Prop where
  | start (memory : Memory) (document : Document (Listener (Code Memory))) : Reached (Rendering.start memory document)
  | perform {before after : Machine (Host.rendering Memory)} {director : Director Memory} {depth : Nat} (reached : Reached before)
      (done : (director.perform (Calls.upTo (Interpreter.rendering Memory) depth)).run before = (.done (), after)) : Reached after

end Director

end Rendering

end ReactiveMarkup
