import ReactiveMarkup.Machine.Reactive

/-!
Making render nodes from plans and components from their inputs. Nothing is mounted yet.
-/

namespace ReactiveMarkup.Machine

variable {host : Host}

/-- What a component is given from outside. -/
structure Given (Code : Type) where
  properties : Entries (Binding Code) := []
  events : Entries (Listener Code) := []
  slots : Slots Code := []

/-- Adds a default for each name that has no entry. -/
def withDefaults {α : Type} (entries : Entries α) (names : List String) (default : α) : Entries α :=
  names.foldl (fun entries name =>
    if Entries.contains entries name then entries else Entries.put entries name default) entries

/-- A new instance of a component. Declared inputs that were not given have defaults. -/
def instantiate (component : Component host.Code) (given : Given host.Code) : Run host NodeId :=
  let declaration := component.declaration
  newNode (.component {
    component
    inputs := {
      properties := withDefaults (given.properties.map fun (name, binding) => (name, binding.accessor))
        declaration.properties (.constant .undefined)
      events := withDefaults given.events declaration.events .ignore
      filled := Entries.names given.slots }
    slots := withDefaults given.slots declaration.slots .empty })

/-- A binding made from a plan, whose value is taken now unless it is dynamic. -/
def makeBinding (calls : Calls host) (scope : Scope) (plan : BindingPlan) : Run host (Binding host.Code) :=
  if plan.dynamic then return .dynamic (.plan plan.value scope)
  else return .fixed (← evaluatePlan calls scope plan.value)

def makeBindings (calls : Calls host) (scope : Scope) (plans : List (String × BindingPlan)) :
    Run host (Entries (Binding host.Code)) := do
  let bindings ← plans.mapM fun (name, plan) => return (name, ← makeBinding calls scope plan)
  return Entries.ofList bindings

def makeListeners (scope : Scope) (plans : List (String × ValuePlan)) : Entries (Listener host.Code) :=
  Entries.ofList (plans.map fun (name, plan) => (name, .plan plan scope))

def renderSlot (calls : Calls host) (slots : Slots host.Code) (name : String) (context : Value) :
    Run host NodeId :=
  calls.fill ((Entries.get? slots name).getD .empty) context

mutual
/-- Carries out a node plan. -/
def construct (calls : Calls host) (frame : Frame host.Code) : NodePlan → Run host NodeId
  | .element tag attributes properties events child => do
    let attributes ← evaluateEntries calls frame.scope attributes
    let properties ← makeBindings calls frame.scope properties
    let child ← constructOptional calls frame child
    newNode (.element {
      tag, properties, child
      attributes := Entries.ofList attributes
      events := makeListeners frame.scope events })
  | .text value => newNode (.text { source := .fixed (.ofLiteral value) })
  | .dynamicText body => newNode (.text { source := .dynamic (.plan body frame.scope) })
  | .conditional branches otherwise => do
    let branches ← constructBranches calls frame branches
    let otherwise ← constructOptional calls frame otherwise
    newNode (.conditional { branches, otherwise })
  | .loop items trackName track itemName body empty => do
    let empty ← constructOptional calls frame empty
    newNode (.list {
      items := ⟨.plan items frame.scope, true⟩
      tracker := .plan trackName track frame.scope
      builder := .plan itemName body frame
      empty })
  | .fragment children => do
    let children ← constructAll calls frame children
    newNode (.fragment { children })
  | .component id properties events slots => do
    let properties ← makeBindings calls frame.scope properties
    match (← get).components[id]? with
    | none => newNode default
    | some component =>
      instantiate component {
        properties
        events := makeListeners frame.scope events
        slots := Entries.ofList (slots.map fun (name, bindings, body) =>
          (name, .plan bindings body frame.scope frame.slots)) }
  | .slot name context => do
    let context ← match context with
      | none => pure .undefined
      | some plan => evaluatePlan calls frame.scope plan
    renderSlot calls frame.slots name context

def constructOptional (calls : Calls host) (frame : Frame host.Code) : Option NodePlan → Run host (Option NodeId)
  | none => return none
  | some plan => return some (← construct calls frame plan)

def constructAll (calls : Calls host) (frame : Frame host.Code) : List NodePlan → Run host (List NodeId)
  | [] => return []
  | first :: rest => do
    let node ← construct calls frame first
    return node :: (← constructAll calls frame rest)

def constructBranches (calls : Calls host) (frame : Frame host.Code) :
    List (ValuePlan × Option NodePlan) → Run host (List (Accessor host.Code × Option NodeId))
  | [] => return []
  | (test, plan) :: rest => do
    let node ← constructOptional calls frame plan
    return (.plan test frame.scope, node) :: (← constructBranches calls frame rest)
end

/-- The node that fills a slot, given the slot's context. -/
def fill (calls : Calls host) (content : SlotContent host.Code) (context : Value) : Run host NodeId :=
  match content with
  | .empty => newNode (.fragment { children := [] })
  | .plan bindings body scope slots =>
    let frame : Frame host.Code := ⟨scope, slots⟩
    construct calls (frame.bind (bindings.map fun (key, name) => (name, context.get key))) body
  | .host code => calls.build code [context]

end ReactiveMarkup.Machine
