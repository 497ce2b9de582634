import ReactiveMarkup.Render.Element

/-!
Fragments, conditionals and components: nodes that show what other nodes show.
-/

namespace ReactiveMarkup.Machine

variable {host : Host}

def modifyConditional (id : NodeId) (f : ConditionalNode host.Code → ConditionalNode host.Code) :
    Run host Unit := do
  match ← node? id with
  | some (.conditional node) => setNode id (.conditional (f node))
  | _ => return

/-- Mounts nodes one behind another. -/
def mountChain (calls : Calls host) (target : Handle) : Anchor → List NodeId → Run host Unit
  | _, [] => return
  | anchor, child :: rest => do
    calls.mount child target anchor
    mountChain calls target (.afterNode child anchor) rest

def mountFragment (calls : Calls host) (id : NodeId) (node : FragmentNode) (target : Handle)
    (anchor : Anchor) : Run host Unit := do
  mountChain calls target anchor node.children
  setNode id (.fragment { node with mounted := true })

def unmountFragment (calls : Calls host) (id : NodeId) (node : FragmentNode) (target : Handle) :
    Run host Unit := do
  if !node.mounted then return
  node.children.reverse.forM fun child => calls.unmount child target
  setNode id (.fragment { node with mounted := false })

/-- The first branch whose test holds. Later tests are not looked at. -/
def select (calls : Calls host) : Nat → List (Accessor host.Code × Option NodeId) → Run host Selection
  | _, [] => return .otherwise
  | index, (test, _) :: rest => do
    if (← access calls test).isTruthy then return .branch index else select calls (index + 1) rest

/-- The node that a selection shows. -/
def ConditionalNode.shown (node : ConditionalNode host.Code) : Selection → Option NodeId
  | .branch index => (node.branches[index]?).bind Prod.snd
  | .otherwise => node.otherwise

/-- Replaces the branch that is shown. -/
def switch (calls : Calls host) (id : NodeId) (selection : Selection) (target : Handle) (anchor : Anchor) :
    Run host Unit := do
  match ← node? id with
  | some (.conditional node) =>
    modifyConditional id fun node => { node with active := none }
    node.active.toList.forM fun previous => calls.unmount previous target
    let next := ConditionalNode.shown node selection
    next.toList.forM fun next => calls.mount next target anchor
    modifyConditional id fun node => { node with active := next }
  | _ => return

def refreshBranches (calls : Calls host) (id : NodeId) (target : Handle) (anchor : Anchor) : Run host Unit := do
  match ← node? id with
  | some (.conditional node) =>
    let selection ← select calls 0 node.branches
    match ← node? id with
    | some (.conditional current) =>
      if current.selected = some selection then return
      modifyConditional id fun node => { node with selected := some selection }
      untrack (switch calls id selection target anchor)
    | _ => return
  | _ => return

def mountConditional (calls : Calls host) (id : NodeId) (target : Handle) (anchor : Anchor) : Run host Unit := do
  modifyConditional id fun node => { node with mounted := true }
  let effect ← newEffect calls (.branches id target anchor)
  modifyConditional id fun node => { node with disposables := node.disposables ++ [.effect effect] }

def unmountConditional (calls : Calls host) (id : NodeId) (node : ConditionalNode host.Code)
    (target : Handle) : Run host Unit := do
  if !node.mounted then return
  modifyConditional id fun node => { node with disposables := [] }
  disposeAll calls node.disposables
  match ← node? id with
  | some (.conditional current) =>
    modifyConditional id fun node => { node with active := none }
    current.active.toList.forM fun active => calls.unmount active target
  | _ => return
  modifyConditional id fun node => { node with selected := none, mounted := false }

/-- What a component shows in a context. -/
def renderView (calls : Calls host) (view : View host.Code) (context : Value) (slots : Slots host.Code) :
    Run host (Option NodeId) :=
  match view with
  | .plan root => constructOptional calls ⟨⟨context, []⟩, slots⟩ root
  | .host code => calls.view code context slots

/-- Each mounting runs the controller and builds the tree anew. -/
def mountComponent (calls : Calls host) (id : NodeId) (node : ComponentNode host.Code) (target : Handle)
    (anchor : Anchor) : Run host Unit := do
  let context ← calls.control node.component.controller node.inputs
  let child ← holding [] (renderView calls node.component.view context node.slots)
  child.toList.forM fun child => holding [.node child] (calls.mount child target anchor)
  setNode id (.component { node with child, mounted := true })

def unmountComponent (calls : Calls host) (id : NodeId) (node : ComponentNode host.Code) (target : Handle) :
    Run host Unit := do
  if !node.mounted then return
  setNode id (.component { node with child := none })
  node.child.toList.forM fun child => calls.unmount child target
  setNode id (.component { node with child := none, mounted := false })

end ReactiveMarkup.Machine
