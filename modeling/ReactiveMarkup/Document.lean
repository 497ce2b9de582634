import ReactiveMarkup.Step
import ReactiveMarkup.Value.Basic

/-!
A document held in memory: elements and texts known by handles, listeners for events, and a
record of every operation on it.
-/

namespace ReactiveMarkup

abbrev Handle := Nat

inductive Operation where
  | create (handle : Handle) (tag : String)
  | createText (handle : Handle) (text : String)
  | insert (handles : List Handle) (target : Handle) (after : Option Handle)
  | remove (handles : List Handle) (target : Handle)
  | setProperty (handle : Handle) (name : String) (value : Json)
  | setText (handle : Handle) (text : String)
  | subscribe (handle : Handle) (event : String)
  | unsubscribe (handle : Handle) (event : String)
  | replace (container : Handle) (new old : List Handle)

namespace Document

inductive Kind where
  | element (tag : String) (properties : Entries Value)
  | text (content : String)

structure Item where
  kind : Kind
  parent : Option Handle
  children : List Handle

/-- A listener for an event of one element. -/
structure Subscription (Listener : Type) where
  id : Nat
  handle : Handle
  event : String
  listener : Listener

end Document

structure Document (Listener : Type) where
  items : Array Document.Item := #[]
  subscriptions : List (Document.Subscription Listener) := []
  /-- The number that the next subscription gets. -/
  nextSubscription : Nat := 0
  /-- All operations since they were last taken, latest first. -/
  history : List Operation := []

namespace Document

variable {Listener : Type}

def push (document : Document Listener) (kind : Kind) : Handle × Document Listener :=
  (document.items.size, { document with items := document.items.push ⟨kind, none, []⟩ })

def note (document : Document Listener) (operation : Operation) : Document Listener :=
  { document with history := operation :: document.history }

/-- The operations in the order in which they were done. -/
def operations (document : Document Listener) : List Operation := document.history.reverse

def clearOperations (document : Document Listener) : Document Listener := { document with history := [] }

def children (document : Document Listener) (handle : Handle) : List Handle :=
  (document.items[handle]?).elim [] Item.children

def parent? (document : Document Listener) (handle : Handle) : Option Handle :=
  (document.items[handle]?).bind Item.parent

def modify (document : Document Listener) (handle : Handle) (f : Item → Item) : Document Listener :=
  { document with items := document.items.modify handle f }

/-! Steps on a document. Each breaks off at the first handle that is not known, with what was
done before it. -/

abbrev Edit (Listener α : Type) := Step (Document Listener) α

def record (operation : Operation) : Edit Listener Unit := MonadState.modifyGet fun document =>
  ((), document.note operation)

def item (handle : Handle) : Edit Listener Item := do
  match (← get).items[handle]? with
  | some item => return item
  | none => Step.panic (.unknownHandle handle)

def update (handle : Handle) (f : Item → Item) : Edit Listener Unit := do
  let _ ← item handle
  MonadState.modifyGet fun document => ((), document.modify handle f)

/-- An element that stands in no tree and is not recorded. -/
def createRoot (tag : String) : Edit Listener Handle :=
  MonadState.modifyGet fun document => document.push (.element tag [])

def create (tag : String) : Edit Listener Handle := do
  let handle ← createRoot tag
  record (.create handle tag)
  return handle

def createText (text : String) : Edit Listener Handle := do
  let handle ← MonadState.modifyGet fun document => document.push (.text text)
  record (.createText handle text)
  return handle

/-- Takes a handle out of its parent. -/
def detach (handle : Handle) : Edit Listener Unit := do
  let found ← item handle
  match found.parent with
  | none => return
  | some parent =>
    update handle fun item => { item with parent := none }
    update parent fun item => { item with children := item.children.filter (· != handle) }

/-- Puts handles among the children of a target, the first at an index. -/
def insertAt (target : Handle) : Nat → List Handle → Edit Listener Unit
  | _, [] => return
  | index, handle :: rest => do
    update handle fun item => { item with parent := some target }
    let length := (← item target).children.length
    if length < index then Step.panic (.insertionIndex index length)
    update target fun item => { item with children := item.children.insertIdx index handle }
    insertAt target (index + 1) rest

/-- The place behind a child, or the front. -/
def indexAfter (target : Handle) (after : Option Handle) : Edit Listener Nat := do
  match after with
  | none => return 0
  | some anchor =>
    match (← item target).children.idxOf? anchor with
    | some index => return index + 1
    | none => Step.panic (.anchorElsewhere anchor target)

/-- Puts handles as one block behind a child of the target, or at its front, wherever they
stood before. -/
def mount (handles : List Handle) (target : Handle) (after : Option Handle) : Edit Listener Unit := do
  handles.forM detach
  let index ← indexAfter target after
  insertAt target index handles
  record (.insert handles target after)

/-- Takes a handle out of a target, if it stands there. -/
def detachFrom (target handle : Handle) : Edit Listener Unit := do
  if (← item handle).parent = some target then detach handle

def unmount (handles : List Handle) (target : Handle) : Edit Listener Unit := do
  handles.forM (detachFrom target)
  record (.remove handles target)

/-- Whether the first handle comes right behind a sibling. -/
def isAfter (handles : List Handle) (after : Handle) : Edit Listener Bool := do
  match handles with
  | [] => return false
  | first :: _ =>
    match (← item first).parent with
    | none => return false
    | some parent =>
      let siblings := (← item parent).children
      match siblings.idxOf? first with
      | some (index + 1) => return siblings[index]? == some after
      | _ => return false

/-- Whether the first handle is the first child of a target. -/
def isFirst (handles : List Handle) (target : Handle) : Edit Listener Bool := do
  match handles with
  | [] => return false
  | first :: _ => return (← item target).children.head? == some first

/-- A nullish value takes the property away. Texts have no properties. -/
def withProperty (name : String) (value : Value) : Kind → Kind
  | .element tag properties =>
    .element tag (if value.isNullish then Entries.erase properties name else Entries.put properties name value)
  | .text content => .text content

def setProperty (name : String) (value : Value) (handle : Handle) : Edit Listener Unit := do
  update handle fun item => { item with kind := withProperty name value item.kind }
  record (.setProperty handle name value.toJson)

def withText (text : String) : Kind → Kind
  | .text _ => .text text
  | kind => kind

def setText (text : String) (handle : Handle) : Edit Listener Unit := do
  update handle fun item => { item with kind := withText text item.kind }
  record (.setText handle text)

/-- Adds a listener and gives the number by which it is taken away. -/
def subscribe (event : String) (listener : Listener) (handle : Handle) : Edit Listener Nat :=
  MonadState.modifyGet fun document =>
    let id := document.nextSubscription
    (id, { document with
      subscriptions := document.subscriptions ++ [⟨id, handle, event, listener⟩]
      nextSubscription := id + 1
      history := .subscribe handle event :: document.history })

def unsubscribe (id : Nat) : Edit Listener Unit :=
  MonadState.modifyGet fun document =>
    match document.subscriptions.find? (·.id == id) with
    | none => ((), document)
    | some subscription => ((), { document with
        subscriptions := document.subscriptions.filter (·.id != id)
        history := .unsubscribe subscription.handle subscription.event :: document.history })

/-- The place of the first of some handles among the children of a container. -/
def firstIndex (container : Handle) (handles : List Handle) : Edit Listener (Option Nat) := do
  match handles with
  | [] => return none
  | first :: _ => return (← item container).children.idxOf? first

/-- Puts new handles where the first of the old ones stands and takes the old ones away. The
place is found before they are taken away. -/
def replace (container : Handle) (new old : List Handle) : Edit Listener Unit := do
  new.forM detach
  match ← firstIndex container old with
  | none => Step.panic (.nothingToReplace container)
  | some index =>
    old.forM (detachFrom container)
    insertAt container index new
    record (.replace container new old)

/-! What a document shows. -/

/-- The listeners for an event of a handle, oldest first. -/
def listeners (document : Document Listener) (handle : Handle) (event : String) : List Listener :=
  (document.subscriptions.filter fun s => s.handle == handle && s.event == event).map Subscription.listener

def listenerCount (document : Document Listener) (handle : Handle) : Nat :=
  document.subscriptions.countP (·.handle == handle)

def escapeChar : Char → String
  | '&' => "&amp;"
  | '<' => "&lt;"
  | '>' => "&gt;"
  | '"' => "&quot;"
  | c => c.toString

def escape (text : String) : String := String.join (text.toList.map escapeChar)

def attributeText : Value → String
  | .array _ items => " ".intercalate (items.map Value.text)
  | value => value.text

def propertyHtml (property : String × Value) : String :=
  match property.2 with
  | .bool true => " " ++ property.1
  | .bool false | .function _ => ""
  | value => " " ++ property.1 ++ "=\"" ++ escape (attributeText value) ++ "\""

/-- The text of a tree, to a depth that no forest exceeds. -/
def htmlTo (document : Document Listener) : Nat → Handle → String
  | 0, _ => ""
  | depth + 1, handle =>
    match document.items[handle]? with
    | none => ""
    | some item =>
      match item.kind with
      | .text content => escape content
      | .element tag properties =>
        "<" ++ tag ++ String.join (properties.map propertyHtml) ++ ">" ++
          String.join (item.children.map (document.htmlTo depth)) ++ "</" ++ tag ++ ">"

def html (document : Document Listener) (handle : Handle) : String :=
  document.htmlTo (document.items.size + 1) handle

def innerHtml (document : Document Listener) (handle : Handle) : String :=
  String.join ((document.children handle).map document.html)

end Document

end ReactiveMarkup
