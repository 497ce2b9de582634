import ReactiveMarkup.Render.Construct

/-!
The handles that a node shows, and the places that anchors stand for.
-/

namespace ReactiveMarkup.Machine

variable {host : Host}

def isMounted (id : NodeId) : Run host Bool := do
  match ← node? id with
  | some (.element node) => return node.handle.isSome
  | some (.text node) => return node.handle.isSome
  | some (.fragment node) => return node.mounted
  | some (.conditional node) => return node.mounted
  | some (.list node) => return node.mounted
  | some (.component node) => return node.mounted
  | none => return false

/-- The handles of several nodes, one after another. -/
def allElements (calls : Calls host) : List NodeId → Run host (List Handle)
  | [] => return []
  | first :: rest => do
    let handles ← calls.elements first
    return handles ++ (← allElements calls rest)

/-- The handles of the items of a list. -/
def itemElements (calls : Calls host) (entries : Entries ListEntry) : List String → Run host (List Handle)
  | [] => return []
  | key :: rest => do
    match Entries.get? entries key with
    | none => Step.panic (.listOutOfSync key)
    | some entry =>
      let handles ← calls.elements entry.node
      return handles ++ (← itemElements calls entries rest)

/-- The handles that a mounted node shows, in order. -/
def elements (calls : Calls host) (id : NodeId) : Run host (List Handle) := do
  match ← node? id with
  | none => return []
  | some (.element node) =>
    match node.handle with
    | some handle => return [handle]
    | none => Step.panic (.elementUnmounted node.tag)
  | some (.text node) =>
    match node.handle with
    | some handle => return [handle]
    | none => Step.panic .textUnmounted
  | some (.fragment node) =>
    if node.mounted then allElements calls node.children else Step.panic .fragmentUnmounted
  | some (.conditional node) =>
    if node.mounted then allElements calls node.active.toList else Step.panic .conditionalUnmounted
  | some (.list node) =>
    if !node.mounted then Step.panic .listUnmounted
    else match node.emptyMounted, node.empty with
      | true, some empty => calls.elements empty
      | _, _ => itemElements calls node.entries node.keys
  | some (.component node) =>
    if node.mounted then allElements calls node.child.toList
    else Step.panic (.componentUnmounted node.component.name)

/-- The last handle of a node, if it is mounted and shows anything. -/
def lastElement (calls : Calls host) (id : NodeId) : Run host (Option Handle) := do
  if ← isMounted id then return (← calls.elements id).getLast? else return none

/-- The last handle of the first of some items that shows anything. -/
def lastElementOf (calls : Calls host) (entries : Entries ListEntry) : List String → Run host (Option Handle)
  | [] => return none
  | key :: rest => do
    match Entries.get? entries key with
    | none => lastElementOf calls entries rest
    | some entry =>
      match ← lastElement calls entry.node with
      | some handle => return some handle
      | none => lastElementOf calls entries rest

/-- What comes before the item at an index of a list. -/
def anchorBefore (calls : Calls host) (list : ListNode host.Code) (index : Nat) : Run host (Option Handle) := do
  match ← lastElementOf calls list.entries (list.keys.take index).reverse with
  | some handle => return some handle
  | none => calls.resolve list.anchor

/-- The handle that an anchor stands behind, or none for the front. -/
def resolve (calls : Calls host) : Anchor → Run host (Option Handle)
  | .front => return none
  | .fixed handle => return some handle
  | .afterNode node previous => do
    match ← lastElement calls node with
    | some handle => return some handle
    | none => resolve calls previous
  | .item list key => do
    if !(← get).isKept (.state list) then return none
    match ← node? list with
    | some (.list node) =>
      match node.keys.idxOf? key with
      | some index => anchorBefore calls node index
      | none => calls.resolve node.anchor
    | _ => return none

end ReactiveMarkup.Machine
