import ReactiveMarkup.Render.Construct
import ReactiveMarkup.Scenario.Scope

/-!
Building nodes and components from their descriptions.
-/

namespace ReactiveMarkup.Scenario

/-- The component that a template describes, which sees the names around the template. -/
def Template.component (names : Entries Value) : Template → Component Routine
  | .mk name declaration controller tree => {
      name := name.getD "component"
      declaration := declaration.getD {}
      controller := .controller controller
      view := .host (.view tree names) }

def Supply.make (calls : Calls host) (context : Context Routine) : Supply → Act (Machine.Given Routine)
  | .mk properties events slots => do
    let properties ← bindings calls context properties
    return {
      properties := Entries.ofList properties
      events := handlers context events
      slots := Entries.ofList (slots.map fun (name, tree) => (name, .host (.filling tree context))) }

mutual
def Tree.build (calls : Calls host) (context : Context Routine) : Tree → Act NodeId
  | .element tag attributes properties events child => do
    let attributes ← Datum.makeEntries calls attributes
    let properties ← bindings calls context properties
    let child ← buildOptional calls context child
    Machine.newNode (.element {
      tag, child
      attributes := Entries.ofList attributes
      properties := Entries.ofList properties
      events := handlers context events })
  | .text source => do
    let source ← source.binding calls context
    Machine.newNode (.text { source })
  | .fragment children => do
    let children ← buildAll calls context children
    Machine.newNode (.fragment { children })
  | .conditional branches otherwise => do
    let branches ← buildBranches calls context branches
    let otherwise ← buildOptional calls context otherwise
    Machine.newNode (.conditional { branches, otherwise })
  | .list items track each empty id => do
    let empty ← buildOptional calls context empty
    let node ← Machine.newNode (.list {
      items := ⟨.host (.expression items context), false⟩
      tracker := .host (.key track context)
      builder := .host (.item each context)
      empty })
    match id with
    | some id => modifyWorld fun world => { world with lists := Entries.put world.lists id node }
    | none => pure ()
    return node
  | .component template supply => do
    let given ← supply.make calls context
    Machine.instantiate (template.component context.names) given
  | .slot name value => do
    let value ← value.evaluate calls context
    match context.slots with
    | none => Machine.newNode (.fragment { children := [] })
    | some slots =>
      note (.slot name (Entries.contains slots name))
      Machine.renderSlot calls slots name value
  | .named name => do
    match Entries.get? (← world?).nodes name with
    | some node => do
      Machine.hold [.node node]
      return node
    | none => Step.panic (.host ("no node " ++ name))

def buildOptional (calls : Calls host) (context : Context Routine) : Option Tree → Act (Option NodeId)
  | none => return none
  | some tree => return some (← tree.build calls context)

def buildAll (calls : Calls host) (context : Context Routine) : List Tree → Act (List NodeId)
  | [] => return []
  | tree :: rest => do
    let node ← tree.build calls context
    return node :: (← buildAll calls context rest)

def buildBranches (calls : Calls host) (context : Context Routine) :
    List (Expression × Option Tree) → Act (List (Accessor Routine × Option NodeId))
  | [] => return []
  | (test, tree) :: rest => do
    let node ← buildOptional calls context tree
    return (.host (.expression test context), node) :: (← buildBranches calls context rest)
end

end ReactiveMarkup.Scenario
