import ReactiveMarkup.Loading.Error
import ReactiveMarkup.Machine.Plan

/-!
Making plans from the code of a module. Each function reads one form of code and refuses
any other; what is wrong first, from the outside in and from left to right, is reported.
-/

namespace ReactiveMarkup

/-- The names that code may call. A component has a number and a name. -/
structure Planner where
  runtimeModule : String
  constructors : List Constructor := []
  elements : Entries String := []
  components : Entries (Nat × String) := []
  /-- Whether slots can be rendered. -/
  slots : Bool := false

namespace Planner

abbrev Plan (α : Type) := Except ModuleFault α

def refuse {α : Type} (part : Expected) : Plan α := .error (.expected part)

/-- Only constructors that were imported may be used. -/
def require (planner : Planner) (constructor : Constructor) : Plan Unit :=
  if planner.constructors.contains constructor then .ok ()
  else .error (.constructorMissing constructor planner.runtimeModule)

/-- The tag that an element constructor is made for. -/
def elementTag (planner : Planner) : Code → Plan String
  | .call (.identifier name) [.literal (.string tag)] => do
    if name != Constructor.element.name then refuse .elementConstructor
    planner.require .element
    return tag
  | _ => refuse .elementConstructor

mutual
def planValue : Code → Plan ValuePlan
  | .literal value => return .literal value
  | .host expression => return .host expression
  | .identifier name => return .identifier name
  | .object properties => return .object (← planEntries properties)
  | .array elements => return .array (← planElements elements)
  | .arrow params body => return .arrow params (← planValue body)
  | .call .. | .member .. | .index .. | .function .. => refuse .value

def planEntries : List (String × Code) → Plan (List (String × ValuePlan))
  | [] => return []
  | (key, code) :: rest => do
    let plan ← planValue code
    return (key, plan) :: (← planEntries rest)

def planElements : List Code → Plan (List ValuePlan)
  | [] => return []
  | code :: rest => do
    let plan ← planValue code
    return plan :: (← planElements rest)
end

/-- Values by name. -/
def planValues (part : Expected) : Code → Plan (List (String × ValuePlan))
  | .object properties => planEntries properties
  | _ => refuse part

/-- A function without parameters is called whenever the value is needed; all else is a
value once and for all. -/
def planBinding : Code → Plan BindingPlan
  | .arrow [] body => return ⟨← planValue body, true⟩
  | code => return ⟨← planValue code, false⟩

def planBindingEntries : List (String × Code) → Plan (List (String × BindingPlan))
  | [] => return []
  | (key, code) :: rest => do
    let plan ← planBinding code
    return (key, plan) :: (← planBindingEntries rest)

def planBindings : Code → Plan (List (String × BindingPlan))
  | .object properties => planBindingEntries properties
  | _ => refuse .properties

/-- The value that a function without parameters gives. -/
def planThunk (part : Expected) : Code → Plan ValuePlan
  | .arrow [] body => planValue body
  | _ => refuse part

/-- A value made from an item, and the name that the item has there. -/
def planItemValue : Code → Plan (String × ValuePlan)
  | .arrow [.name name] body => return (name, ← planValue body)
  | .arrow .. => refuse .itemParameter
  | _ => refuse .itemFunction

def planText : List Code → Plan NodePlan
  | [.literal value] => return .text value
  | [code] => return .dynamicText (← planThunk .textSource code)
  | _ => .error .textArguments

def planSlot (planner : Planner) (name : String) (arguments : List Code) : Plan NodePlan := do
  if !planner.slots then throw (.slotsMissing name)
  match arguments with
  | [] => return .slot name none
  | [context] => return .slot name (some (← planValue context))
  | _ => throw .slotArguments

/-- What is known of an element while its input is read. A part that comes again counts
anew. -/
structure ElementParts where
  attributes : List (String × ValuePlan) := []
  properties : List (String × BindingPlan) := []
  events : List (String × ValuePlan) := []
  child : Option NodePlan := none

structure LoopParts where
  items : Option ValuePlan := none
  track : Option (String × ValuePlan) := none
  empty : Option NodePlan := none

/-- Slots add up if there are several parts with slots. -/
structure ComponentParts where
  properties : List (String × BindingPlan) := []
  events : List (String × ValuePlan) := []
  slots : List (String × List (String × String) × NodePlan) := []

structure ConditionalParts where
  branches : List (ValuePlan × Option NodePlan) := []
  otherwise : Option NodePlan := none

mutual
/-- A node is made by a constructor for an element or for a component, by one of the node
constructors, or by a slot. -/
def planNode (planner : Planner) : Code → Plan NodePlan
  | .call (.identifier name) arguments =>
    match Entries.get? planner.elements name, Entries.get? planner.components name with
    | some tag, _ => planElement planner tag arguments
    | none, some (id, component) => planComponent planner id component arguments
    | none, none =>
      match Constructor.ofName? name with
      | some .text => do
        planner.require .text
        planText arguments
      | some .conditional => do
        planner.require .conditional
        planConditional planner arguments
      | some .loop => do
        planner.require .loop
        planLoop planner arguments
      | some .fragment => do
        planner.require .fragment
        return .fragment (← planNodes planner arguments)
      | some .component | some .element | none => .error (.unknownConstructor name)
  | .call (.call callee parameters) arguments => do
    let tag ← planner.elementTag (.call callee parameters)
    planElement planner tag arguments
  | .call (.index (.identifier name) key) arguments => do
    if name != slotsName then refuse .nodeConstructor
    match key with
    | .literal (.string slot) => planSlot planner slot arguments
    | _ => refuse .slotName
  | .call .. => refuse .nodeConstructor
  | _ => refuse .renderNode

def planNodes (planner : Planner) : List Code → Plan (List NodePlan)
  | [] => return []
  | code :: rest => do
    let plan ← planNode planner code
    return plan :: (← planNodes planner rest)

def planElement (planner : Planner) (tag : String) : List Code → Plan NodePlan
  | [] => return .element tag [] [] [] none
  | [.object input] => do
    let parts ← planElementParts planner {} input
    return .element tag parts.attributes parts.properties parts.events parts.child
  | [_] => refuse .elementInput
  | _ => .error .elementArguments

def planElementParts (planner : Planner) (parts : ElementParts) : List (String × Code) → Plan ElementParts
  | [] => return parts
  | (key, code) :: rest => do
    let parts ←
      if key = "attrs" then do
        let attributes ← planValues .attributes code
        pure { parts with attributes }
      else if key = "props" then do
        let properties ← planBindings code
        pure { parts with properties }
      else if key = "events" then do
        let events ← planValues .events code
        pure { parts with events }
      else if key = "child" then do
        let child ← planNode planner code
        pure { parts with child := some child }
      else .error (.unknownElementInput key)
    planElementParts planner parts rest

def planConditional (planner : Planner) : List Code → Plan NodePlan
  | [.object options] => do
    let parts ← planConditionalParts planner {} options
    return .conditional parts.branches parts.otherwise
  | [_] => refuse .conditionalOptions
  | _ => .error .conditionalArguments

def planConditionalParts (planner : Planner) (parts : ConditionalParts) :
    List (String × Code) → Plan ConditionalParts
  | [] => return parts
  | (key, code) :: rest => do
    let parts ←
      if key = "ifs" then do
        let branches ← planBranches planner code
        pure { parts with branches := parts.branches ++ branches }
      else if key = "otherwise" then do
        let otherwise ← planNode planner code
        pure { parts with otherwise := some otherwise }
      else refuse (.conditionalOption key)
    planConditionalParts planner parts rest

def planBranches (planner : Planner) : Code → Plan (List (ValuePlan × Option NodePlan))
  | .array branches => planBranchList planner branches
  | _ => refuse (.conditionalOption "ifs")

def planBranchList (planner : Planner) : List Code → Plan (List (ValuePlan × Option NodePlan))
  | [] => return []
  | branch :: rest => do
    let plan ← planBranch planner branch
    return plan :: (← planBranchList planner rest)

/-- The form of the test is looked at before the node, and its value after it. Null
stands for no node. -/
def planBranch (planner : Planner) : Code → Plan (ValuePlan × Option NodePlan)
  | .array [.arrow [] test, node] => do
    if node.isNull then return (← planValue test, none)
    let plan ← planNode planner node
    return (← planValue test, some plan)
  | .array [_, _] => refuse .branchTest
  | _ => refuse .branch

def planLoop (planner : Planner) : List Code → Plan NodePlan
  | [.object options, body] => do
    let parts ← planLoopParts planner {} options
    match parts.items, parts.track with
    | none, _ => throw .itemsMissing
    | some _, none => throw .trackerMissing
    | some items, some (trackName, track) =>
      let (itemName, body) ← planItemNode planner body
      return .loop items trackName track itemName body parts.empty
  | [_, _] => refuse .loopOptions
  | _ => .error .loopArguments

def planLoopParts (planner : Planner) (parts : LoopParts) : List (String × Code) → Plan LoopParts
  | [] => return parts
  | (key, code) :: rest => do
    let parts ←
      if key = "items" then do
        let items ← planThunk .itemsThunk code
        pure { parts with items := some items }
      else if key = "trackBy" then do
        let track ← planItemValue code
        pure { parts with track := some track }
      else if key = "empty" then do
        let empty ← planNode planner code
        pure { parts with empty := some empty }
      else .error (.unknownLoopOption key)
    planLoopParts planner parts rest

def planItemNode (planner : Planner) : Code → Plan (String × NodePlan)
  | .arrow [.name name] body => return (name, ← planNode planner body)
  | .arrow .. => refuse .itemParameter
  | _ => refuse .itemFunction

def planComponent (planner : Planner) (id : Nat) (name : String) : List Code → Plan NodePlan
  | [] => return .component id [] [] []
  | [.object input] => do
    let parts ← planComponentParts planner {} input
    return .component id parts.properties parts.events parts.slots
  | [_] => refuse .componentInput
  | _ => .error (.componentArguments name)

def planComponentParts (planner : Planner) (parts : ComponentParts) :
    List (String × Code) → Plan ComponentParts
  | [] => return parts
  | (key, code) :: rest => do
    let parts ←
      if key = "props" then do
        let properties ← planBindings code
        pure { parts with properties }
      else if key = "events" then do
        let events ← planValues .events code
        pure { parts with events }
      else if key = "slots" then do
        let slots ← planSlotContents planner code
        pure { parts with slots := parts.slots ++ slots }
      else .error (.unknownComponentInput key)
    planComponentParts planner parts rest

def planSlotContents (planner : Planner) : Code → Plan (List (String × List (String × String) × NodePlan))
  | .object properties => planSlotEntries planner properties
  | _ => refuse .slots

def planSlotEntries (planner : Planner) :
    List (String × Code) → Plan (List (String × List (String × String) × NodePlan))
  | [] => return []
  | (key, code) :: rest => do
    let (bindings, body) ← planSlotContent planner code
    return (key, bindings, body) :: (← planSlotEntries planner rest)

/-- The content of a slot is a function, of nothing or of a pattern. -/
def planSlotContent (planner : Planner) : Code → Plan (List (String × String) × NodePlan)
  | .arrow [] body => return ([], ← planNode planner body)
  | .arrow [.pattern bindings] body => return (bindings, ← planNode planner body)
  | _ => refuse .slotFunction
end

end Planner

end ReactiveMarkup
