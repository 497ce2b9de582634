/-!
Names that generated modules rely on.
-/

namespace ReactiveMarkup

/-- The constructors of render nodes, in the order in which they are imported. -/
inductive Constructor where
  | component
  | element
  | text
  | conditional
  | loop
  | fragment
  deriving Repr, DecidableEq

namespace Constructor

def name : Constructor → String
  | .component => "$c"
  | .element => "$e"
  | .text => "$t"
  | .conditional => "$if"
  | .loop => "$for"
  | .fragment => "$f"

def all : List Constructor := [.component, .element, .text, .conditional, .loop, .fragment]

def ofName? (name : String) : Option Constructor := all.find? (·.name == name)

/-- The names of the constructors in use, in the order of imports. -/
def names (used : List Constructor) : List String := (all.filter used.contains).map name

end Constructor

/-- Name of the parameter that holds a component's slots. -/
def slotsName : String := "$$slots"

end ReactiveMarkup
