import ReactiveMarkup.Document
import ReactiveMarkup.Machine.Plan
import ReactiveMarkup.Reactive.Graph

/-!
The machine that runs reactive markup: the dependency graph, the document, render nodes,
components and the code of functions. Code is data throughout. What the machine cannot run
itself it leaves to a host, with codes and a world of the host's own.
-/

namespace ReactiveMarkup

abbrev NodeId := Nat

structure Host where
  Code : Type
  World : Type
  /-- The render nodes that a world keeps. -/
  kept : World → List NodeId

/-- What a function does when it is called. -/
inductive Closure (Code : Type) where
  | arrow (params : List String) (body : Expression) (scope : Scope)
  | plan (params : List Param) (body : ValuePlan) (scope : Scope)
  | constant (value : Value)
  /-- Reads a signal, as an observer does. -/
  | signal (id : Nat)
  | computed (id : Nat)
  | host (code : Code)

/-- Where a value comes from each time it is asked for. -/
inductive Accessor (Code : Type) where
  | constant (value : Value)
  | plan (plan : ValuePlan) (scope : Scope)
  | host (code : Code)

/-- A fixed value, or one that is kept up to date. -/
inductive Binding (Code : Type) where
  | fixed (value : Value)
  | dynamic (accessor : Accessor Code)

def Binding.accessor {Code : Type} : Binding Code → Accessor Code
  | .fixed value => .constant value
  | .dynamic accessor => accessor

/-- What is done with the payload of an event. -/
inductive Listener (Code : Type) where
  | ignore
  /-- Makes a handler and calls it, if it is a function. -/
  | plan (handler : ValuePlan) (scope : Scope)
  | host (code : Code)

/-- What fills a slot. -/
inductive SlotContent (Code : Type) where
  | empty
  | plan (bindings : List (String × String)) (body : NodePlan) (scope : Scope)
      (slots : List (String × SlotContent Code))
  | host (code : Code)

abbrev Slots (Code : Type) := Entries (SlotContent Code)

/-- The surroundings in which a node plan is carried out. -/
structure Frame (Code : Type) where
  scope : Scope
  slots : Slots Code

def Frame.bind {Code : Type} (frame : Frame Code) (bindings : List (String × Value)) : Frame Code :=
  { frame with scope := frame.scope.bind bindings }

/-- The place where a node is put, found anew each time it is needed. -/
inductive Anchor where
  | front
  | fixed (handle : Handle)
  /-- Behind a node, or where the previous anchor says if the node shows nothing. -/
  | afterNode (node : NodeId) (previous : Anchor)
  /-- Where the item with a key belongs in a list. It does not keep the list; when the list
  is gone, this is the front. -/
  | item (list : NodeId) (key : String)

/-- What contributes to the classes of an element. -/
inductive ClassSource (Code : Type) where
  | names (binding : Binding Code)
  | toggle (name : String) (binding : Binding Code)

/-- The body of an effect. -/
inductive Task (Code : Type) where
  | property (name : String) (accessor : Accessor Code) (handle : Handle)
  | classes (sources : List (ClassSource Code)) (handle : Handle)
  | text (node : NodeId) (accessor : Accessor Code)
  | branches (node : NodeId) (target : Handle) (anchor : Anchor)
  | items (node : NodeId) (target : Handle)
  | host (code : Code)

/-- What is taken back when a node is unmounted. -/
inductive Disposable where
  | effect (id : Nat)
  | subscription (id : Nat)

structure ElementNode (Code : Type) where
  tag : String
  attributes : Entries Value
  properties : Entries (Binding Code)
  events : Entries (Listener Code)
  child : Option NodeId
  handle : Option Handle := none
  disposables : List Disposable := []

structure TextNode (Code : Type) where
  source : Binding Code
  handle : Option Handle := none
  disposables : List Disposable := []

structure FragmentNode where
  children : List NodeId
  mounted : Bool := false

/-- The branch that a conditional has chosen: one of those with a test, or the other. -/
inductive Selection where
  | branch (index : Nat)
  | otherwise
  deriving Repr, DecidableEq

structure ConditionalNode (Code : Type) where
  branches : List (Accessor Code × Option NodeId)
  otherwise : Option NodeId
  selected : Option Selection := none
  active : Option NodeId := none
  mounted : Bool := false
  disposables : List Disposable := []

/-- Where a list gets its items. A strict source accepts arrays and nullish values only. -/
structure ItemSource (Code : Type) where
  accessor : Accessor Code
  strict : Bool

/-- What tells the items of a list apart. -/
inductive Tracker (Code : Type) where
  | plan (name : String) (track : ValuePlan) (scope : Scope)
  | host (code : Code)

/-- What makes the node of an item. -/
inductive ItemBuilder (Code : Type) where
  | plan (name : String) (body : NodePlan) (frame : Frame Code)
  | host (code : Code)

/-- The signal that holds an item, and its node. -/
structure ListEntry where
  signal : Nat
  node : NodeId

structure ListNode (Code : Type) where
  items : ItemSource Code
  tracker : Tracker Code
  builder : ItemBuilder Code
  empty : Option NodeId
  anchor : Anchor := .front
  keys : List String := []
  entries : Entries ListEntry := []
  emptyMounted : Bool := false
  mounted : Bool := false
  disposables : List Disposable := []

/-- The inputs that a component expects. -/
structure Declaration where
  properties : List String := []
  events : List String := []
  slots : List String := []
  deriving Repr, DecidableEq

/-- What a component is given. -/
structure Inputs (Code : Type) where
  properties : Entries (Accessor Code)
  events : Entries (Listener Code)
  /-- The slots that were filled when the component was made. -/
  filled : List String

/-- What a component shows. -/
inductive View (Code : Type) where
  | plan (root : Option NodePlan)
  | host (code : Code)

structure Component (Code : Type) where
  name : String := "component"
  declaration : Declaration := {}
  controller : Code
  view : View Code

structure ComponentNode (Code : Type) where
  component : Component Code
  inputs : Inputs Code
  slots : Slots Code
  child : Option NodeId := none
  mounted : Bool := false

inductive Node (Code : Type) where
  | element (node : ElementNode Code)
  | text (node : TextNode Code)
  | fragment (node : FragmentNode)
  | conditional (node : ConditionalNode Code)
  | list (node : ListNode Code)
  | component (node : ComponentNode Code)

instance {Code : Type} : Inhabited (Node Code) := ⟨.fragment ⟨[], false⟩⟩

/-- Something that keeps other things: a render node, what a conditional or a list shows
(which its node and its effect share), or the body of an effect. -/
inductive Part where
  | node (id : NodeId)
  | state (id : NodeId)
  | body (effect : Nat)
  deriving Repr, DecidableEq

/-- A program with the directory that its imports are seen from. -/
structure RegisteredProgram where
  program : Program
  directory : String

/-- The modules that can be loaded, by path, and the components loaded so far. -/
structure Registry (Code : Type) where
  runtimeModule : String
  controllers : Entries Code := []
  programs : Entries RegisteredProgram := []
  components : Entries Nat := []
  /-- The modules that are being loaded, the latest first. -/
  loading : List String := []

structure Machine (host : Host) where
  graph : Graph host.Code (Task host.Code) := {}
  functions : Array (Closure host.Code) := #[]
  /-- The identity that the next array or object gets. -/
  nextIdentity : Nat := 0
  document : Document (Listener host.Code) := {}
  nodes : Array (Node host.Code) := #[]
  components : Array (Component host.Code) := #[]
  /-- What the steps under way hold on to. -/
  held : List Part := []
  registry : Registry host.Code
  world : host.World

abbrev Run (host : Host) := Step (Machine host)

/-- What code may call while it runs. Nested calls go through here, so that their depth can
be bounded. -/
structure Calls (host : Host) where
  /-- Host code as a function of values. -/
  call : host.Code → List Value → Run host Value
  /-- Host code as an effect; the result is its cleanup. -/
  react : host.Code → Run host (Option host.Code)
  /-- Host code as a maker of nodes. -/
  build : host.Code → List Value → Run host NodeId
  control : host.Code → Inputs host.Code → Run host Value
  view : host.Code → Value → Slots host.Code → Run host (Option NodeId)
  apply : Nat → List Value → Run host Value
  /-- The body of an effect; the result is its cleanup. -/
  perform : Task host.Code → Run host (Option host.Code)
  flush : Run host Unit
  resolve : Anchor → Run host (Option Handle)
  elements : NodeId → Run host (List Handle)
  mount : NodeId → Handle → Anchor → Run host Unit
  unmount : NodeId → Handle → Run host Unit
  fill : SlotContent host.Code → Value → Run host NodeId

namespace Machine

variable {host : Host}

/-- A new array. -/
def array (items : List Value) : Run host Value :=
  MonadState.modifyGet fun machine =>
    (.array machine.nextIdentity items, { machine with nextIdentity := machine.nextIdentity + 1 })

/-- A new object. The last of several entries with one name counts. -/
def object (entries : List (String × Value)) : Run host Value :=
  MonadState.modifyGet fun machine =>
    (.object machine.nextIdentity (Entries.ofList entries), { machine with nextIdentity := machine.nextIdentity + 1 })

/-- A new function. -/
def function (closure : Closure host.Code) : Run host Value :=
  MonadState.modifyGet fun machine =>
    (.function machine.functions.size, { machine with functions := machine.functions.push closure })

/-- A new render node. -/
def newNode (node : Node host.Code) : Run host NodeId :=
  MonadState.modifyGet fun machine =>
    (machine.nodes.size, { machine with nodes := machine.nodes.push node })

def node? (id : NodeId) : Run host (Option (Node host.Code)) := return (← get).nodes[id]?

def setNode (id : NodeId) (node : Node host.Code) : Run host Unit :=
  modify fun machine => { machine with nodes := machine.nodes.set! id node }

def newComponent (component : Component host.Code) : Run host Nat :=
  MonadState.modifyGet fun machine =>
    (machine.components.size, { machine with components := machine.components.push component })

/-- A step on the document. -/
def edit {α : Type} (step : Document.Edit (Listener host.Code) α) : Run host α :=
  Step.zoom Machine.document (fun machine document => { machine with document }) step

def modifyGraph (f : Graph host.Code (Task host.Code) → Graph host.Code (Task host.Code)) : Run host Unit :=
  modify fun machine => { machine with graph := f machine.graph }

def graph? : Run host (Graph host.Code (Task host.Code)) := return (← get).graph

end Machine

end ReactiveMarkup
