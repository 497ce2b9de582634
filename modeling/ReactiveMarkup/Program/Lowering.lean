import ReactiveMarkup.Config
import ReactiveMarkup.Entries
import ReactiveMarkup.Expression.Printer
import ReactiveMarkup.Markup.Basic
import ReactiveMarkup.Name
import ReactiveMarkup.Path
import ReactiveMarkup.Program.Basic
import ReactiveMarkup.Program.Constructor

/-!
Lowering markup to a module. A walk over the markup builds calls of node constructors and
notes what it used; imports and constants are then made from the notes.
-/

namespace ReactiveMarkup

/-- A component's name and the files that belong to it. -/
structure ComponentFiles where
  name : String
  directory : String
  template : String
  path : String
  controller : String
  styles : Option String
  deriving Repr, DecidableEq

/-- The files that a component has unless told otherwise. -/
def ComponentFiles.standard (name directory : String) : ComponentFiles where
  name := name
  directory := directory
  template := directory ++ "/" ++ name ++ ".html"
  path := directory ++ "/" ++ name ++ ".component.js"
  controller := directory ++ "/" ++ name ++ ".js"
  styles := none

/-- Why markup has no module. -/
inductive LoweringError where
  | templateOutsideComponent (tag : String)
  | loopItem (item : Expression)
  | slotName (tag : String)
  | letName (attr tag : String)
  | letProperty (attr tag : String)

def LoweringError.message : LoweringError → String
  | .templateOutsideComponent tag => "<" ++ tag ++ "> is only allowed as a direct child of a component"
  | .loopItem item => "@for item must be a plain identifier, got `" ++ item.print ++ "`"
  | .slotName tag => "slot attribute of <" ++ tag ++ "> must be a literal name"
  | .letName attr tag => attr ++ " on <" ++ tag ++ "> must introduce a valid identifier"
  | .letProperty attr tag => attr ++ " on <" ++ tag ++ "> must name a context property"

namespace Lowering

/-- What lowering knows of the surroundings of the markup. -/
structure Setting where
  config : Config
  siblings : Entries ComponentFiles

/-- What the module uses: constructors, child components and elements by tag with their
variables, and the slots. -/
structure Used where
  constructors : List Constructor := [.component]
  components : Entries String := []
  elements : Entries String := []
  slots : Bool := false

abbrev Lower := StateT Used (Except LoweringError)

/-- One node lowered when it is its turn. Nothing may come of it. -/
abbrev Action := Lower (Option Code)

def controllerName : String := "controller"

def use (constructor : Constructor) : Lower Unit :=
  modify fun used => { used with constructors := constructor :: used.constructors }

def construct (constructor : Constructor) (arguments : List Code) : Code :=
  .call (.identifier constructor.name) arguments

/-- A variable for a tag that no other tag has: with a number if need be. One more
candidate than there are taken variables is enough. -/
def freshVariable (taken : List String) (base : String) : String :=
  let candidates := base :: (List.range taken.length).map fun n => base ++ "_" ++ toString (n + 2)
  (candidates.find? fun name => !taken.contains name).getD base

/-- The constant that holds the constructor of an element. -/
def elementVariable (tag : String) : Lower String := do
  let used ← get
  match Entries.get? used.elements tag with
  | some name => return name
  | none =>
    let name := freshVariable (used.elements.map (·.2)) (Name.ofElement tag)
    set { used with elements := Entries.put used.elements tag name }
    return name

/-- The variable that a child component is imported as. -/
def componentVariable (tag : String) : Lower String := do
  let used ← get
  match Entries.get? used.components tag with
  | some name => return name
  | none =>
    let name := Text.sanitize (Name.ofTag tag)
    set { used with components := Entries.put used.components tag name }
    return name

/-- Attributes by what becomes of them: fixed, bound to an expression, or handlers. -/
structure Groups where
  attributes : List (String × Code)
  properties : List (String × Code)
  events : List (String × Code)

def fixed? (attr : Attribute) : Option (String × Code) :=
  match attr.kind, attr.value with
  | .literal, .text value => some (attr.name, .string value)
  | .flag, _ => some (attr.name, .literal (.boolean true))
  | _, _ => none

def bound? (attr : Attribute) : Option (String × Code) :=
  match attr.kind, attr.value with
  | .property, .expression value => some (attr.name, .thunk (.host value))
  | _, _ => none

def handler? (attr : Attribute) : Option (String × Code) :=
  match attr.kind, attr.value with
  | .event, .expression value => some (attr.name, .host value)
  | _, _ => none

def groups (attributes : List Attribute) : Groups :=
  ⟨attributes.filterMap fixed?, attributes.filterMap bound?, attributes.filterMap handler?⟩

/-- An entry for a group that is not empty. -/
def group (key : String) (entries : List (String × Code)) : List (String × Code) :=
  if entries.isEmpty then [] else [(key, .object entries)]

/-- Siblings one after another: nothing, the only one that became something, or a
fragment of them. -/
def siblings (actions : List Action) : Action := do
  let lowered ← actions.mapM id
  match lowered.filterMap id with
  | [] => return none
  | [only] => return some only
  | several =>
    use .fragment
    return some (construct .fragment several)

/-- Drops branches at the end that show nothing. -/
def dropEmptyEnd (branches : List (Expression × Option Code)) : List (Expression × Option Code) :=
  (branches.reverse.dropWhile fun branch => branch.2.isNone).reverse

def branchCode (branch : Expression × Option Code) : Code :=
  .array [.thunk (.host branch.1), branch.2.getD .null]

def conditional (branches : List (Expression × Action)) (otherwise : Action) : Action := do
  let branches ← branches.mapM fun (test, action) => return (test, ← action)
  let otherwise ← otherwise
  let branches := if otherwise.isNone then dropEmptyEnd branches else branches
  if branches.isEmpty && otherwise.isNone then return none
  use .conditional
  return some (construct .conditional
    [.object (("ifs", .array (branches.map branchCode)) :: (otherwise.map ("otherwise", ·)).toList)])

def loop (item items track : Expression) (body empty : Action) : Action := do
  match item.name? with
  | none => throw (.loopItem item)
  | some name =>
    let body ← body
    let empty ← empty
    if body.isNone && empty.isNone then return none
    use .loop
    if body.isNone then use .fragment
    let options := [("items", .thunk (.host items)), ("trackBy", .arrow [.name name] (.host track))] ++
      (empty.map ("empty", ·)).toList
    return some (construct .loop
      [.object options, .arrow [.name name] (body.getD (construct .fragment []))])

/-- Attributes that a slot hands to its content. -/
def slotContext? (attr : Attribute) : Option (String × Code) :=
  match attr.kind, attr.value with
  | .literal, .text value => some (attr.name, .string value)
  | .property, .expression value => some (attr.name, .thunk (.host value))
  | _, _ => none

def attribute? (attributes : List Attribute) (name : String) : Option Attribute :=
  attributes.find? (·.name == name)

def slot (attributes : List Attribute) : Action := do
  modify fun used => { used with slots := true }
  let name := ((attribute? attributes "name").bind Attribute.text?).getD "default"
  let context := (attributes.filter (·.name != "name")).filterMap slotContext?
  return some (.call (.index (.identifier slotsName) (.string name)) [.object context])

/-- What constructs an element: a constant, or the constructor for its tag. -/
def elementCode (setting : Setting) (tag : String) : Lower Code :=
  if setting.config.hoistElements then Code.identifier <$> elementVariable tag
  else pure (construct .element [.string tag])

def element (setting : Setting) (name : String) (attributes : List Attribute) (child : Action) : Action := do
  use .element
  let callee ← elementCode setting name
  let groups := groups attributes
  let child ← child
  let properties := group "attrs" groups.attributes ++ group "props" groups.properties ++
    group "events" groups.events ++ (child.map ("child", ·)).toList
  return some (.call callee (if properties.isEmpty then [] else [.object properties]))

/-- Content for a slot, with the names that it takes from the slot's context. -/
structure Routed where
  slot : String
  actions : List Action
  bindings : List (String × String)

/-- The name of the slot that a wrapper is for. -/
def wrapperSlot (tag : String) (attributes : List Attribute) : Except LoweringError String :=
  match attribute? attributes "slot" with
  | none => .ok "default"
  | some attr =>
    match attr.kind, attr.value with
    | .literal, .text name => .ok name
    | _, _ => .error (.slotName tag)

/-- The entry of the context that a local name stands for. -/
def binding? (tag : String) (attr : Attribute) : Except LoweringError (Option (String × String)) :=
  match Name.ofLet? attr.name with
  | none => .ok none
  | some name =>
    if !Text.isIdentifier name then .error (.letName attr.name tag)
    else match attr.kind, attr.value with
      | .flag, _ => .ok (some (name, name))
      | .literal, .text key =>
        if key.isEmpty then .ok (some (name, name))
        else if Text.isIdentifier key then .ok (some (key, name))
        else .error (.letProperty attr.name tag)
      | _, _ => .error (.letProperty attr.name tag)

/-- What a wrapper contributes to a component. -/
def wrapper (tag : String) (attributes : List Attribute) (actions : List Action) :
    Except LoweringError Routed := do
  let slot ← wrapperSlot tag attributes
  let bindings ← attributes.mapM (binding? tag)
  return ⟨slot, actions, bindings.filterMap id⟩

/-- Adds content to the slot it is for. -/
def addRouted (slots : Entries Routed) (routed : Routed) : Entries Routed :=
  match Entries.get? slots routed.slot with
  | none => Entries.put slots routed.slot routed
  | some others => Entries.put slots routed.slot
      ⟨routed.slot, others.actions ++ routed.actions, others.bindings ++ routed.bindings⟩

/-- The function that renders a slot's content, if there is any. -/
def slotFunction (routed : Routed) : Lower (Option (String × Code)) := do
  match ← siblings routed.actions with
  | none => return none
  | some body =>
    let params := if routed.bindings.isEmpty then [] else [.pattern routed.bindings]
    return some (routed.slot, .arrow params body)

def component (name : String) (attributes : List Attribute)
    (routes : List (Except LoweringError Routed)) : Action := do
  use .component
  let callee ← componentVariable name
  let groups := groups attributes
  let mut slots : Entries Routed := []
  for route in routes do
    match route with
    | .ok routed => slots := addRouted slots routed
    | .error error => throw error
  let functions ← slots.mapM fun (_, routed) => slotFunction routed
  let properties := group "props" (groups.attributes ++ groups.properties) ++
    group "events" groups.events ++ group "slots" (functions.filterMap id)
  return some (.call (.identifier callee) [.object properties])

def text (value : String) : Action := do
  if value.isEmpty then return none
  use .text
  return some (construct .text [.string value])

def interpolation (value : Expression) : Action := do
  use .text
  return some (construct .text [.thunk (.host value)])

mutual
def node (setting : Setting) : Markup → Action
  | .element name attributes children =>
    if name = setting.config.templateTag then throw (.templateOutsideComponent name)
    else if name = setting.config.slotTag then slot attributes
    else if Entries.contains setting.siblings name then component name attributes (routes setting children)
    else element setting name attributes (siblings (nodes setting children))
  | .text value => text value
  | .expression value => interpolation value
  | .conditional test body others otherwise =>
    conditional ((test, siblings (nodes setting body)) :: branches setting others)
      (siblings (nodes setting otherwise))
  | .loop item items track body empty =>
    loop item items track (siblings (nodes setting body)) (siblings (nodes setting empty))

def nodes (setting : Setting) : List Markup → List Action
  | [] => []
  | first :: rest => node setting first :: nodes setting rest

def branches (setting : Setting) : List (Branch Markup) → List (Expression × Action)
  | [] => []
  | ⟨test, body⟩ :: rest => (test, siblings (nodes setting body)) :: branches setting rest

/-- Sorts a component's children into slots: a wrapper is for the slot that it names, any
other child for the default slot. -/
def routes (setting : Setting) : List Markup → List (Except LoweringError Routed)
  | [] => []
  | .element name attributes children :: rest =>
    (if name = setting.config.templateTag then wrapper name attributes (nodes setting children)
      else .ok ⟨"default", [node setting (.element name attributes children)], []⟩) :: routes setting rest
  | child :: rest => .ok ⟨"default", [node setting child], []⟩ :: routes setting rest
end

/-- The module around the lowered markup. -/
def assemble (setting : Setting) (files : ComponentFiles) (resolver : ComponentFiles → String)
    (root : Option Code) (used : Used) : Program :=
  let load (specifiers : List Specifier) (path : String) : Statement :=
    .imports specifiers (Path.relative files.directory path)
  let children := used.components.filterMap fun (tag, name) =>
    (Entries.get? setting.siblings tag).map fun child => load [.default name] (resolver child)
  let constants := used.elements.map fun (tag, name) => (name, construct .element [.string tag])
  let render : Code := .function (if used.slots then [slotsName] else []) [.returns (root.getD .null)]
  [.imports ((Constructor.names used.constructors).map .named) setting.config.runtimeModule] ++
    (files.styles.map (load [])).toList ++ [load [.default controllerName] files.controller] ++ children ++
    (if setting.config.hoistElements && !constants.isEmpty then [.constants constants] else []) ++
    [.exports (construct .component [.string files.name, .identifier controllerName, render])]

end Lowering

/-- The module of a component's markup. -/
def Program.ofMarkup (markup : List Markup) (files : ComponentFiles) (siblings : Entries ComponentFiles)
    (resolver : ComponentFiles → String) (config : Config) : Except LoweringError Program := do
  let setting : Lowering.Setting := ⟨config, siblings⟩
  let (root, used) ← (Lowering.siblings (Lowering.nodes setting markup)).run {}
  return Lowering.assemble setting files resolver root used

end ReactiveMarkup
