import ReactiveMarkup.Render.Conditional

/-!
Keyed lists: one node for each item, kept for as long as an item with its key is there. A
node that stays keeps its signal, which takes the new item, and moves only if it stands
behind something else than before.
-/

namespace ReactiveMarkup.Machine

variable {host : Host}

def list? (id : NodeId) : Run host (Option (ListNode host.Code)) := do
  match ← node? id with
  | some (.list node) => return some node
  | _ => return none

def modifyList (id : NodeId) (f : ListNode host.Code → ListNode host.Code) : Run host Unit := do
  match ← list? id with
  | some node => setNode id (.list (f node))
  | none => return

/-- The items that a source has now. -/
def readItems (calls : Calls host) (source : ItemSource host.Code) : Run host (List Value) := do
  match ← access calls source.accessor with
  | .array _ items => return items
  | value =>
    if source.strict && !value.isNullish then Step.panic (.notIterable value.text) else return []

/-- The key of an item. A plan sees the item as a function that gives it. -/
def trackItem (calls : Calls host) (tracker : Tracker host.Code) (item : Value) : Run host String := do
  match tracker with
  | .plan name track scope =>
    let current ← function (.constant item)
    return (← evaluatePlan calls (scope.bind [(name, current)]) track).text
  | .host code => return (← calls.call code [item]).text

def trackItems (calls : Calls host) (tracker : Tracker host.Code) : List Value → Run host (List String)
  | [] => return []
  | item :: rest => do
    let key ← trackItem calls tracker item
    return key :: (← trackItems calls tracker rest)

/-- The node of a new item, which reads the item from its signal. -/
def buildItem (calls : Calls host) (builder : ItemBuilder host.Code) (signal : Nat) : Run host NodeId := do
  let reader ← function (.signal signal)
  match builder with
  | .plan name body frame => construct calls (frame.bind [(name, reader)]) body
  | .host code => do
    let item ← peek signal
    calls.build code [reader, item]

/-- The first key that is among those before it. -/
def firstRepeated? (seen : List String) : List String → Option String
  | [] => none
  | key :: rest => if seen.contains key then some key else firstRepeated? (key :: seen) rest

/-- Unmounts the nodes of some keys. -/
def unmountEntries (calls : Calls host) (target : Handle) (entries : Entries ListEntry) :
    List String → Run host Unit
  | [] => return
  | key :: rest => do
    match Entries.get? entries key with
    | some entry => calls.unmount entry.node target
    | none => pure ()
    unmountEntries calls target entries rest

/-- Unmounts all items, the last first. -/
def unmountItems (calls : Calls host) (id : NodeId) (target : Handle) : Run host Unit := do
  match ← list? id with
  | none => return
  | some node =>
    modifyList id fun node => { node with keys := [], entries := [] }
    unmountEntries calls target node.entries node.keys.reverse

/-- Removes the items of those keys that are not wanted any more. -/
def removeVanished (calls : Calls host) (id : NodeId) (target : Handle) (wanted : List String) :
    List String → Run host Unit
  | [] => return
  | key :: rest => do
    if !wanted.contains key then
      match ← list? id with
      | none => pure ()
      | some node =>
        modifyList id fun node => { node with entries := Entries.erase node.entries key }
        match Entries.get? node.entries key with
        | some entry => calls.unmount entry.node target
        | none => pure ()
    removeVanished calls id target wanted rest

/-- Moves what a node shows behind what comes before an index, unless it is there. -/
def moveIntoPlace (calls : Calls host) (id : NodeId) (target : Handle) (index : Nat) (child : NodeId) :
    Run host Unit := do
  let handles ← calls.elements child
  if handles.isEmpty then return
  match ← list? id with
  | none => return
  | some node =>
    let after ← anchorBefore calls node index
    let inPlace ← match after with
      | some after => edit (Document.isAfter handles after)
      | none => edit (Document.isFirst handles target)
    if inPlace then return
    edit (Document.unmount handles target)
    edit (Document.mount handles target after)

/-- Mounts the node of a new item. -/
def addItem (calls : Calls host) (id : NodeId) (target : Handle) (builder : ItemBuilder host.Code)
    (key : String) (item : Value) : Run host Unit := do
  let signal ← newSignal item
  let child ← holding [] (buildItem calls builder signal)
  holding [.node child] (calls.mount child target (.item id key))
  modifyList id fun node => { node with entries := Entries.put node.entries key ⟨signal, child⟩ }

/-- Brings each item to its place, from the front to the back. -/
def placeItems (calls : Calls host) (id : NodeId) (target : Handle) :
    Nat → List (String × Value) → Run host Unit
  | _, [] => return
  | index, (key, item) :: rest => do
    match ← list? id with
    | none => return
    | some node =>
      match Entries.get? node.entries key with
      | some entry =>
        moveIntoPlace calls id target index entry.node
        writeSignal calls entry.signal item
      | none => addItem calls id target node.builder key item
      placeItems calls id target (index + 1) rest

/-- Shows the node for an empty list instead of items. -/
def showEmpty (calls : Calls host) (id : NodeId) (target : Handle) (empty : NodeId) : Run host Unit := do
  match ← list? id with
  | none => return
  | some node =>
    if node.emptyMounted then return
    unmountItems calls id target
    calls.mount empty target node.anchor
    modifyList id fun node => { node with emptyMounted := true }

def hideEmpty (calls : Calls host) (id : NodeId) (target : Handle) : Run host Unit := do
  match ← list? id with
  | none => return
  | some node =>
    if !node.emptyMounted then return
    node.empty.toList.forM fun empty => calls.unmount empty target
    modifyList id fun node => { node with emptyMounted := false }

/-- Shows items with their keys, which have to be distinct. -/
def showItems (calls : Calls host) (id : NodeId) (target : Handle) (items : List Value) (keys : List String) :
    Run host Unit := do
  match firstRepeated? [] keys with
  | some key => Step.panic (.duplicateKey key)
  | none =>
    match ← list? id with
    | none => return
    | some node =>
      modifyList id fun node => { node with keys }
      removeVanished calls id target keys node.keys
      placeItems calls id target 0 (keys.zip items)

/-- Brings what is shown in line with the items. -/
def reconcile (calls : Calls host) (id : NodeId) (target : Handle) (items : List Value) (keys : List String) :
    Run host Unit := do
  match items, (← list? id).bind ListNode.empty with
  | [], some empty => showEmpty calls id target empty
  | [], none => showItems calls id target items keys
  | _ :: _, _ => do
    hideEmpty calls id target
    showItems calls id target items keys

def refreshItems (calls : Calls host) (id : NodeId) (target : Handle) : Run host Unit := do
  match ← list? id with
  | none => return
  | some node =>
    let items ← readItems calls node.items
    let keys ← trackItems calls node.tracker items
    untrack (reconcile calls id target items keys)

def mountList (calls : Calls host) (id : NodeId) (target : Handle) (anchor : Anchor) : Run host Unit := do
  modifyList id fun node => { node with anchor }
  let effect ← newEffect calls (.items id target)
  modifyList id fun node => { node with disposables := node.disposables ++ [.effect effect], mounted := true }

def unmountList (calls : Calls host) (id : NodeId) (node : ListNode host.Code) (target : Handle) :
    Run host Unit := do
  if !node.mounted then return
  modifyList id fun node => { node with disposables := [] }
  disposeAll calls node.disposables
  match ← list? id with
  | none => return
  | some current =>
    if current.emptyMounted then
      modifyList id fun node => { node with emptyMounted := false }
      current.empty.toList.forM fun empty => calls.unmount empty target
  unmountItems calls id target
  modifyList id fun node => { node with mounted := false }

end ReactiveMarkup.Machine
