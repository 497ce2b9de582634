import ReactiveMarkup.Render.List

/-!
Mounting and unmounting a node of any kind, and what the effects of nodes do.
-/

namespace ReactiveMarkup.Machine

variable {host : Host}

/-- Puts what a node shows into a target, behind an anchor. -/
def mount (calls : Calls host) (id : NodeId) (target : Handle) (anchor : Anchor) : Run host Unit := do
  match ← node? id with
  | some (.element node) => mountElement calls id node target anchor
  | some (.text node) => mountText calls id node target anchor
  | some (.fragment node) => mountFragment calls id node target anchor
  | some (.conditional _) => mountConditional calls id target anchor
  | some (.list _) => mountList calls id target anchor
  | some (.component node) => mountComponent calls id node target anchor
  | none => return

/-- Takes what a mounted node shows out of a target. -/
def unmount (calls : Calls host) (id : NodeId) (target : Handle) : Run host Unit := do
  match ← node? id with
  | some (.element node) => unmountElement calls id node target
  | some (.text node) => unmountText calls id node target
  | some (.fragment node) => unmountFragment calls id node target
  | some (.conditional node) => unmountConditional calls id node target
  | some (.list node) => unmountList calls id node target
  | some (.component node) => unmountComponent calls id node target
  | none => return

/-- Runs the body of an effect. Only host code leaves a cleanup behind. -/
def perform (calls : Calls host) : Task host.Code → Run host (Option host.Code)
  | .property name accessor handle => do
    let value ← access calls accessor
    edit (Document.setProperty name value handle)
    return none
  | .classes sources handle => do
    refreshClasses calls sources handle
    return none
  | .text node accessor => do
    refreshText calls node accessor
    return none
  | .branches node target anchor => do
    refreshBranches calls node target anchor
    return none
  | .items node target => do
    refreshItems calls node target
    return none
  | .host code => calls.react code

/-- What a node is called. -/
def nodeName (id : NodeId) : Run host String := do
  match ← node? id with
  | some (.element node) => return node.tag
  | some (.text _) => return "text"
  | some (.fragment _) => return "fragment"
  | some (.conditional _) => return "if"
  | some (.list _) => return "for"
  | some (.component node) => return node.component.name
  | none => return ""

end ReactiveMarkup.Machine
