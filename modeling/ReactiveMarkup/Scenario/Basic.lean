import ReactiveMarkup.Compilation
import ReactiveMarkup.Document
import ReactiveMarkup.Machine.Basic
import ReactiveMarkup.Value.Datum

/-!
Scenarios: scripts that create signals, effects, nodes and components by name, act on them
and log what happens.
-/

namespace ReactiveMarkup.Scenario

/-- A value given by an expression or written down. -/
inductive Operand where
  | expression (body : Expression)
  | written (datum : Datum)

/-- How an entry of a controller's context is made. Code sees nothing but signals, computed
values and its arguments. -/
inductive EntryKind where
  | value (datum : Datum)
  /-- Reads a signal of the scenario. -/
  | get (signal : String)
  /-- Reads a signal that belongs to the instance and is named like the entry. -/
  | own (initial : Datum)
  /-- Writes a signal of the instance, or else of the scenario. -/
  | set (signal : String) (code : Expression)
  | computed (name : String) (code : Expression)
  | call (code : Expression)
  | log (name : String)
  | property (name : String)
  /-- The value that a property has when the controller runs. -/
  | propertyNow (name : String)
  | emit (event : String) (payload : Expression)
  | emitNow (event : String) (payload : Expression)
  | hasSlot (name : String)
  | propertyNames

/-- What a controller makes the context of an instance from. -/
inductive ContextPlan where
  | value (datum : Datum)
  | entries (entries : List (String × EntryKind))

structure Controller where
  trace : Bool
  context : ContextPlan

/-- Where a node is mounted: in front, behind a handle, or behind the last of some nodes
that shows anything. -/
inductive Place where
  | front
  | handle (handle : Handle)
  | nodes (names : List String)

mutual
/-- One step of a scenario. -/
inductive Action where
  | signal (name : String) (value : Datum)
  /-- A signal whose readers are not counted. -/
  | cell (name : String) (value : Datum)
  | computed (name : String) (expression : Expression) (body : List Action)
  | effect (name : String) (body : List Action) (cleanup : Option (List Action))
  | dispose (name : String)
  | set (name : String) (operand : Operand)
  | update (name : String) (operand : Operand)
  | log (operand : Operand)
  | bind (name : String) (operand : Operand)
  | untrack (body : List Action)
  | batch (body : List Action)
  | branch (test : Expression) (consequent alternate : List Action)
  | panic (message : String)
  | stats
  | createRoot (tag : String)
  | create (tag : String)
  | createText (text : String)
  | insert (handles : List Handle) (target : Handle) (after : Option Handle)
  | remove (handles : List Handle) (target : Handle)
  | isAfter (handles : List Handle) (after : Handle)
  | isFirst (handles : List Handle) (target : Handle)
  | setProperty (name : String) (handle : Handle) (operand : Operand)
  | setText (text : String) (handle : Handle)
  | replace (container : Handle) (new old : List Handle)
  | listen (name event : String) (handle : Handle) (body : List Action)
  | unlisten (name : String)
  | dispatch (handle : Handle) (event : String) (operand : Operand)
  | inspect (handle : Handle)
  | property (handle : Handle) (name : String)
  | takeOperations
  | node (name : String) (tree : Tree)
  | mount (name : String) (target : Handle) (place : Place)
  | unmount (name : String) (target : Handle)
  | elements (name : String)
  | nodeInfo (name : String)
  | keys (list : String)
  | compile (sources : List ComponentSource) (pattern : Option String)
  | program (path directory : String) (program : Program)
  | controller (path : String) (controller : Controller)
  | native (path : String) (template : Template)
  | load (path name : String)
  | evaluate (program : Program) (directory name : String)
  | moduleInfo (path : String)
  | define (name : String) (template : Template)
  | render (component name : String) (target : Handle) (supply : Supply)
  | teardown (name : String)

/-- A description of a node. -/
inductive Tree where
  | element (tag : String) (attributes : List (String × Datum)) (properties : List (String × Operand))
      (events : List (String × List Action)) (child : Option Tree)
  | text (source : Operand)
  | fragment (children : List Tree)
  | conditional (branches : List (Expression × Option Tree)) (otherwise : Option Tree)
  | list (items track : Expression) (each : Tree) (empty : Option Tree) (id : Option String)
  | component (template : Template) (supply : Supply)
  | slot (name : String) (context : Operand)
  | named (name : String)

/-- A description of a component. -/
inductive Template where
  | mk (name : Option String) (declaration : Option Declaration) (controller : Controller)
      (tree : Option Tree)

/-- What an instance of a component is given. -/
inductive Supply where
  | mk (properties : List (String × Operand)) (events : List (String × List Action))
      (slots : List (String × Tree))
end

instance : Inhabited Action := ⟨.stats⟩

instance : Inhabited Tree := ⟨.fragment []⟩

instance : Inhabited Template := ⟨.mk none none ⟨false, .value .undefined⟩ none⟩

instance : Inhabited Supply := ⟨.mk [] [] []⟩

end ReactiveMarkup.Scenario
