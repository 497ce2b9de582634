import ReactiveMarkup.Render.Anchor

/-!
Elements and texts: mounting creates handles and keeps their properties up to date.
-/

namespace ReactiveMarkup.Machine

variable {host : Host}

def modifyElement (id : NodeId) (f : ElementNode host.Code → ElementNode host.Code) : Run host Unit := do
  match ← node? id with
  | some (.element node) => setNode id (.element (f node))
  | _ => return

def modifyText (id : NodeId) (f : TextNode host.Code → TextNode host.Code) : Run host Unit := do
  match ← node? id with
  | some (.text node) => setNode id (.text (f node))
  | _ => return

/-- Takes back what a node has set up, in the order in which it was set up. -/
def disposeAll (calls : Calls host) : List Disposable → Run host Unit
  | [] => return
  | .effect id :: rest => do
    dispose calls id
    disposeAll calls rest
  | .subscription id :: rest => do
    edit (Document.unsubscribe id)
    disposeAll calls rest

def keepForElement (id : NodeId) (disposable : Disposable) : Run host Unit :=
  modifyElement id fun node => { node with disposables := node.disposables ++ [disposable] }

/-- The names that a property for one class starts with. -/
def classMark : String := "class."

/-- What a property contributes to the classes, if it does. -/
def classSource? (property : String × Binding host.Code) : Option (ClassSource host.Code) :=
  if property.1 = "class" then some (.names property.2)
  else if Text.startsWith property.1.toList classMark then
    some (.toggle (.ofList (property.1.toList.drop classMark.length)) property.2)
  else none

/-- Sets a property, now and whenever it changes. -/
def bindProperty (calls : Calls host) (id : NodeId) (handle : Handle)
    (property : String × Binding host.Code) : Run host Unit := do
  match property.2 with
  | .fixed value => edit (Document.setProperty property.1 value handle)
  | .dynamic accessor =>
    let effect ← newEffect calls (.property property.1 accessor handle)
    keepForElement id (.effect effect)

def bindProperties (calls : Calls host) (id : NodeId) (handle : Handle)
    (properties : Entries (Binding host.Code)) : Run host Unit := do
  (List.filter (fun property => (classSource? property).isNone) properties).forM (bindProperty calls id handle)
  let sources := List.filterMap classSource? properties
  if !sources.isEmpty then
    let effect ← newEffect calls (.classes sources handle)
    keepForElement id (.effect effect)

/-- The classes that hold now. -/
def activeClasses (calls : Calls host) : List (ClassSource host.Code) → Run host (List String)
  | [] => return []
  | .names binding :: rest => do
    let names := (← readBinding calls binding).classNames
    return names ++ (← activeClasses calls rest)
  | .toggle name binding :: rest => do
    let names := if (← readBinding calls binding).isTruthy then [name] else []
    return names ++ (← activeClasses calls rest)

def refreshClasses (calls : Calls host) (sources : List (ClassSource host.Code)) (handle : Handle) :
    Run host Unit := do
  let names ← activeClasses calls sources
  let value ← array (names.map .string)
  edit (Document.setProperty "class" value handle)

def mountElement (calls : Calls host) (id : NodeId) (node : ElementNode host.Code) (target : Handle)
    (anchor : Anchor) : Run host Unit := do
  let handle ← edit (Document.create node.tag)
  modifyElement id fun node => { node with handle := some handle }
  node.attributes.forM fun (name, value) => edit (Document.setProperty name value handle)
  bindProperties calls id handle node.properties
  node.events.forM fun (event, listener) => do
    let subscription ← edit (Document.subscribe event listener handle)
    keepForElement id (.subscription subscription)
  node.child.toList.forM fun child => calls.mount child handle .front
  let after ← calls.resolve anchor
  edit (Document.mount [handle] target after)

def unmountElement (calls : Calls host) (id : NodeId) (node : ElementNode host.Code) (target : Handle) :
    Run host Unit := do
  match node.handle with
  | none => return
  | some handle =>
    node.child.toList.forM fun child => calls.unmount child handle
    edit (Document.unmount [handle] target)
    match ← node? id with
    | some (.element current) =>
      setNode id (.element { current with disposables := [] })
      disposeAll calls current.disposables
    | _ => return
    modifyElement id fun node => { node with handle := none }

/-- Shows the text that a source has now. -/
def refreshText (calls : Calls host) (id : NodeId) (accessor : Accessor host.Code) : Run host Unit := do
  let content := (← access calls accessor).text
  match ← node? id with
  | some (.text node) =>
    match node.handle with
    | some handle => edit (Document.setText content handle)
    | none =>
      let handle ← edit (Document.createText content)
      modifyText id fun node => { node with handle := some handle }
  | _ => return

def mountText (calls : Calls host) (id : NodeId) (node : TextNode host.Code) (target : Handle)
    (anchor : Anchor) : Run host Unit := do
  match node.source with
  | .fixed value =>
    let handle ← edit (Document.createText value.text)
    modifyText id fun node => { node with handle := some handle }
  | .dynamic accessor =>
    let effect ← newEffect calls (.text id accessor)
    modifyText id fun node => { node with disposables := node.disposables ++ [.effect effect] }
  match ← node? id with
  | some (.text { handle := some handle, .. }) =>
    let after ← calls.resolve anchor
    edit (Document.mount [handle] target after)
  | _ => return

def unmountText (calls : Calls host) (id : NodeId) (node : TextNode host.Code) (target : Handle) :
    Run host Unit := do
  match node.handle with
  | none => return
  | some handle =>
    edit (Document.unmount [handle] target)
    modifyText id fun node => { node with disposables := [] }
    disposeAll calls node.disposables
    modifyText id fun node => { node with handle := none }

end ReactiveMarkup.Machine
