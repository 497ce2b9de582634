import ReactiveMarkup.Program.Basic
import ReactiveMarkup.Value.Basic

/-!
Plans: the parts of a generated module in the form in which they are carried out.
-/

namespace ReactiveMarkup

/-- What names stand for in an expression. -/
structure Scope where
  this : Value
  names : Entries Value

namespace Scope

def lookup (scope : Scope) (name : String) : Option Value := Entries.get? scope.names name

/-- Later names hide earlier ones. -/
def bind (scope : Scope) (bindings : List (String × Value)) : Scope :=
  { scope with names := bindings.foldl (fun names binding => Entries.put names binding.1 binding.2) scope.names }

end Scope

/-- How a value is made. -/
inductive ValuePlan where
  | literal (value : Literal)
  | host (expression : Expression)
  | identifier (name : String)
  | object (entries : List (String × ValuePlan))
  | array (elements : List ValuePlan)
  | arrow (params : List Param) (body : ValuePlan)

/-- How a property gets its value: anew whenever it changes, or once. -/
structure BindingPlan where
  value : ValuePlan
  dynamic : Bool

/-- How a render node is made. A component is known by its number. -/
inductive NodePlan where
  | element (tag : String) (attributes : List (String × ValuePlan))
      (properties : List (String × BindingPlan)) (events : List (String × ValuePlan))
      (child : Option NodePlan)
  | text (value : Literal)
  | dynamicText (body : ValuePlan)
  | conditional (branches : List (ValuePlan × Option NodePlan)) (otherwise : Option NodePlan)
  | loop (items : ValuePlan) (trackName : String) (track : ValuePlan) (itemName : String)
      (body : NodePlan) (empty : Option NodePlan)
  | fragment (children : List NodePlan)
  | component (id : Nat) (properties : List (String × BindingPlan)) (events : List (String × ValuePlan))
      (slots : List (String × List (String × String) × NodePlan))
  | slot (name : String) (context : Option ValuePlan)

instance : Inhabited NodePlan := ⟨.fragment []⟩

end ReactiveMarkup
