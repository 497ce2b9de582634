import ReactiveMarkup.Loading.Registry
import ReactiveMarkup.Scenario.Basic

/-!
The host that runs scenarios: its code is parts of a scenario with the context that they
were met in, and its world is what the scenario has named and logged.
-/

namespace ReactiveMarkup.Scenario

/-- What an action sees besides the names of the scenario. There are slots only inside of a
component. -/
structure Context (Code : Type) where
  this : Value := .undefined
  names : Entries Value := []
  slots : Option (List (String × SlotContent Code)) := none

/-- Code of a scenario. -/
inductive Routine where
  /-- Evaluates an expression. -/
  | expression (body : Expression) (context : Context Routine)
  /-- Evaluates an expression of an item. -/
  | key (body : Expression) (context : Context Routine)
  /-- Builds the tree of an item. -/
  | item (tree : Tree) (context : Context Routine)
  /-- Runs actions on the payload of an event. -/
  | handler (body : List Action) (context : Context Routine)
  /-- Builds what fills a slot. -/
  | filling (tree : Tree) (context : Context Routine)
  | effect (name : String) (body : List Action) (cleanup : Option (List Action)) (context : Context Routine)
  | cleanup (name : String) (body : List Action) (context : Context Routine)
  | computed (name : String) (expression : Expression) (body : List Action) (context : Context Routine)
  | controller (controller : Controller)
  /-- Builds what a component shows, among the names of its definition. -/
  | view (tree : Option Tree) (names : Entries Value)
  /-- Reads a signal without being noticed. -/
  | peek (signal : Nat)
  /-- The text of a signal's value. -/
  | shown (signal : Nat)
  /-- Reads the signal that has a name now. -/
  | get (signal : String)
  /-- Writes a signal of an instance, or else one of the scenario. -/
  | set (signal : String) (code : Expression) (own : Entries Nat)
  /-- Evaluates an expression of the arguments. -/
  | call (code : Expression)
  | log (name : String)
  | emit (listener : Listener Routine) (payload : Expression)
  /-- The code of a computed value of an instance. -/
  | derived (name : String) (code : Expression)

/-- A named signal. The readers of a cell cannot be counted. -/
structure NamedSignal where
  id : Nat
  isCell : Bool

/-- A component on display. -/
structure App where
  node : NodeId
  target : Handle

/-- Why an action failed without breaking off. -/
inductive Failure where
  /-- It named something that does not exist. -/
  | missing
  | load (error : LoadError)
  | compile (error : CompileError)

structure Stats where
  /-- The number of readers of each signal that is not a cell. -/
  signals : List (String × Option Nat)
  stale : List (String × Bool)
  disposed : List (String × Bool)
  pending : Nat
  tracking : Bool

/-- What a handle is. -/
structure Inspection where
  tag : Option String
  text : Option String
  parent : Option Handle
  children : List Handle
  listeners : Nat
  html : String

inductive Entry where
  | value (value : Value)
  | run (effect : String)
  | cleanup (effect : String)
  | compute (name : String)
  | dispose (effect : String) (found : Bool)
  | item (value : Value)
  | slot (name : String) (filled : Bool)
  | controller (properties : List String)
  | called (name : String) (arguments : List Value)
  | stats (stats : Stats)
  | handle (handle : Handle)
  | flag (value : Bool)
  | inspection (inspection : Inspection)
  | property (value : Option Value)
  | operations (operations : List Operation)
  | handles (handles : List Handle)
  | nodeInfo (name : String) (mounted : Bool)
  | keys (keys : List String)
  | loaded (component : String)
  | moduleInfo (runtimeModule : String) (error : Option LoadError)
  | defined (component : String) (declaration : Declaration)
  | rendered (node : String) (handles : List Handle)
  | failed (failure : Failure)

/-- What a scenario has named, each in the order of creation, and its log, latest first. -/
structure World where
  config : Config
  signals : Entries NamedSignal := []
  computeds : Entries Nat := []
  effects : Entries Nat := []
  nodes : Entries NodeId := []
  lists : Entries NodeId := []
  listeners : Entries Nat := []
  components : Entries Nat := []
  apps : Entries App := []
  log : List Entry := []

/-- The nodes that have a name, lists that do, and what is on display. -/
def World.kept (world : World) : List NodeId :=
  List.map Prod.snd world.nodes ++ List.map Prod.snd world.lists ++ List.map (fun app => app.2.node) world.apps

abbrev host : Host := ⟨Routine, World, World.kept⟩

abbrev Act := Run host

def world? : Act World := return (← get).world

def modifyWorld (f : World → World) : Act Unit := modify fun machine => { machine with world := f machine.world }

def note (entry : Entry) : Act Unit := modifyWorld fun world => { world with log := entry :: world.log }

end ReactiveMarkup.Scenario
