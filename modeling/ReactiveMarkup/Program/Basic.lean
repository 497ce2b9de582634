import ReactiveMarkup.Expression.Basic

/-!
Generated modules: imports, constants and one exported definition, built from calls of
the constructors of render nodes. Expressions of the markup stand in them unchanged.
-/

namespace ReactiveMarkup

inductive Specifier where
  | default (name : String)
  | named (name : String)
  deriving Repr, DecidableEq

def Specifier.name : Specifier → String
  | .default name | .named name => name

/-- A parameter: a name, or a pattern that takes entries of an object under local names. -/
inductive Param where
  | name (name : String)
  | pattern (bindings : List (String × String))
  deriving Repr, DecidableEq

mutual
inductive Code where
  | identifier (name : String)
  | literal (value : Literal)
  | call (callee : Code) (arguments : List Code)
  | member (receiver : Code) (property : String)
  | index (receiver : Code) (key : Code)
  | object (properties : List (String × Code))
  | array (elements : List Code)
  | arrow (params : List Param) (body : Code)
  | function (params : List String) (body : List Statement)
  | host (expression : Expression)

inductive Statement where
  | imports (specifiers : List Specifier) (source : String)
  | constants (declarations : List (String × Code))
  | exports (value : Code)
  | returns (value : Code)
end

instance : Inhabited Code := ⟨.object []⟩

instance : Inhabited Statement := ⟨.returns default⟩

abbrev Program := List Statement

namespace Code

def string (value : String) : Code := .literal (.string value)

def null : Code := .literal .null

/-- A function without parameters. -/
def thunk (body : Code) : Code := .arrow [] body

def name? : Code → Option String
  | .identifier name => some name
  | _ => none

def isNull : Code → Bool
  | .literal .null => true
  | _ => false

/-- The value of the first entry with a key, in an object. -/
def property? (key : String) : Code → Option Code
  | .object properties => properties.lookup key
  | _ => none

end Code

namespace Program

def imports (program : Program) : List (List Specifier × String) :=
  program.filterMap fun
    | .imports specifiers source => some (specifiers, source)
    | _ => none

def importSources (program : Program) : List String := (imports program).map (·.2)

/-- The names imported from a module. -/
def importedNames (program : Program) (source : String) : List String :=
  ((imports program).filter (·.2 == source)).flatMap fun (specifiers, _) => specifiers.map Specifier.name

/-- The first exported value. -/
def exported? (program : Program) : Option Code :=
  program.findSome? fun
    | .exports value => some value
    | _ => none

end Program

end ReactiveMarkup
