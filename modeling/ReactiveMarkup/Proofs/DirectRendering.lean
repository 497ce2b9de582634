import ReactiveMarkup.Machine.Plan
import ReactiveMarkup.Program.Lowering

/-! What markup is rendered as, read off its structure: no code, no variables and no imports. -/

namespace ReactiveMarkup.Direct

/-- Where markup stands: the tags of slots and of wrappers, and the numbers of the components that
tags stand for. -/
structure Site where
  slotTag : String
  templateTag : String
  component? : String → Option Nat

def fixed? (attr : Attribute) : Option (String × ValuePlan) :=
  match attr.kind, attr.value with
  | .literal, .text value => some (attr.name, .literal (.string value))
  | .flag, _ => some (attr.name, .literal (.boolean true))
  | _, _ => none

def bound? (attr : Attribute) : Option (String × BindingPlan) :=
  match attr.kind, attr.value with
  | .property, .expression value => some (attr.name, ⟨.host value, true⟩)
  | _, _ => none

def handler? (attr : Attribute) : Option (String × ValuePlan) :=
  match attr.kind, attr.value with
  | .event, .expression value => some (attr.name, .host value)
  | _, _ => none

/-- Siblings as one node, if any of them shows something. -/
def siblings (plans : List (Option NodePlan)) : Option NodePlan :=
  match plans.filterMap id with
  | [] => none
  | [only] => some only
  | several => some (.fragment several)

/-- The branches without those at the end that show nothing. -/
def withoutEmptyEnd {α : Type} (branches : List (Expression × Option α)) : List (Expression × Option α) :=
  (branches.reverse.dropWhile fun branch => branch.2.isNone).reverse

/-- Without content for the other case, the branches at the end that show nothing may go. -/
def keptBranches (branches : List (Expression × Option NodePlan)) (otherwise : Option NodePlan) : List (Expression × Option NodePlan) :=
  if otherwise.isNone then withoutEmptyEnd branches else branches

def conditional (branches : List (Expression × Option NodePlan)) (otherwise : Option NodePlan) : Option NodePlan :=
  if (keptBranches branches otherwise).isEmpty && otherwise.isNone then none
  else some (.conditional ((keptBranches branches otherwise).map fun branch => (.host branch.1, branch.2)) otherwise)

def loop (item items track : Expression) (body empty : Option NodePlan) : Option NodePlan :=
  if body.isNone && empty.isNone then none
  else item.name?.map fun name => .loop (.host items) name (.host track) name (body.getD (.fragment [])) empty

def slotContext? (attr : Attribute) : Option (String × ValuePlan) :=
  match attr.kind, attr.value with
  | .literal, .text value => some (attr.name, .literal (.string value))
  | .property, .expression value => some (attr.name, .arrow [] (.host value))
  | _, _ => none

def slot (attributes : List Attribute) : NodePlan :=
  .slot (((Lowering.attribute? attributes "name").bind Attribute.text?).getD "default")
    (some (.object ((attributes.filter (·.name != "name")).filterMap slotContext?)))

def element (tag : String) (attributes : List Attribute) (child : Option NodePlan) : NodePlan :=
  .element tag (attributes.filterMap fixed?) (attributes.filterMap bound?) (attributes.filterMap handler?) child

/-- Content for a slot, with the names that it takes from the slot's context. -/
structure Filling where
  slot : String
  contents : List (Option NodePlan)
  bindings : List (String × String)

/-- The slot that a wrapper is for. -/
def wrapperSlot (attributes : List Attribute) : String :=
  ((Lowering.attribute? attributes "slot").bind Attribute.text?).getD "default"

/-- The entry of the context that an attribute of a wrapper gives a name, if it does. -/
def binding? (attr : Attribute) : Option (String × String) :=
  (Name.ofLet? attr.name).map fun name =>
    match attr.kind, attr.value with
    | .literal, .text key => (if key.isEmpty then name else key, name)
    | _, _ => (name, name)

def addFilling (slots : Entries Filling) (filling : Filling) : Entries Filling :=
  match Entries.get? slots filling.slot with
  | none => Entries.put slots filling.slot filling
  | some others => Entries.put slots filling.slot
      ⟨filling.slot, others.contents ++ filling.contents, others.bindings ++ filling.bindings⟩

/-- The content of a slot, if it shows anything. -/
def content? (entry : String × Filling) : Option (String × List (String × String) × NodePlan) :=
  (siblings entry.2.contents).map fun body => (entry.2.slot, entry.2.bindings, body)

def component (id : Nat) (attributes : List Attribute) (fillings : List Filling) : NodePlan :=
  .component id
    ((attributes.filterMap fixed?).map (fun entry => (entry.1, ⟨entry.2, false⟩)) ++ attributes.filterMap bound?)
    (attributes.filterMap handler?) ((fillings.foldl addFilling []).filterMap content?)

mutual
/-- How a node is rendered, if it shows anything. -/
def node (site : Site) : Markup → Option NodePlan
  | .element name attributes children =>
    if name = site.slotTag then some (slot attributes)
    else match site.component? name with
      | some id => some (component id attributes (fillings site children))
      | none => some (element name attributes (siblings (nodes site children)))
  | .text value => if value.isEmpty then none else some (.text (.string value))
  | .expression value => some (.dynamicText (.host value))
  | .conditional test body others otherwise =>
    conditional ((test, siblings (nodes site body)) :: branches site others) (siblings (nodes site otherwise))
  | .loop item items track body empty =>
    loop item items track (siblings (nodes site body)) (siblings (nodes site empty))

def nodes (site : Site) : List Markup → List (Option NodePlan)
  | [] => []
  | first :: rest => node site first :: nodes site rest

def branches (site : Site) : List (Branch Markup) → List (Expression × Option NodePlan)
  | [] => []
  | ⟨test, body⟩ :: rest => (test, siblings (nodes site body)) :: branches site rest

def fillings (site : Site) : List Markup → List Filling
  | [] => []
  | .element name attributes children :: rest =>
    (if name = site.templateTag then ⟨wrapperSlot attributes, nodes site children, attributes.filterMap binding?⟩
      else ⟨"default", [node site (.element name attributes children)], []⟩) :: fillings site rest
  | child :: rest => ⟨"default", [node site child], []⟩ :: fillings site rest
end

def root (site : Site) (markup : List Markup) : Option NodePlan := siblings (nodes site markup)

end ReactiveMarkup.Direct
