import Mathlib.Data.Set.Basic
import ReactiveMarkup.Program.Constructor
import ReactiveMarkup.Program.Basic

/-! The names in generated code: those it calls and looks into, those its functions bind, and those
that nothing binds. Expressions of the markup stand in it unread. -/

namespace ReactiveMarkup

/-- The names that a parameter introduces. -/
def Param.names : Param → List String
  | .name own => [own]
  | .pattern bindings => bindings.map (·.2)

/-- What is done with a name that stands in code. -/
inductive Mention where
  | called (name : String)
  | opened (name : String)
  deriving Repr, DecidableEq

namespace Code

mutual
/-- A piece of code and all that it is put together from. -/
def parts : Code → List Code
  | .identifier name => [.identifier name]
  | .literal value => [.literal value]
  | .call callee arguments => .call callee arguments :: (callee.parts ++ partsOfAll arguments)
  | .member receiver property => .member receiver property :: receiver.parts
  | .index receiver key => .index receiver key :: (receiver.parts ++ key.parts)
  | .object properties => .object properties :: partsOfEntries properties
  | .array elements => .array elements :: partsOfAll elements
  | .arrow params body => .arrow params body :: body.parts
  | .function params body => .function params body :: partsOfStatements body
  | .host expression => [.host expression]

def partsOfAll : List Code → List Code
  | [] => []
  | first :: rest => first.parts ++ partsOfAll rest

def partsOfEntries : List (String × Code) → List Code
  | [] => []
  | (_, value) :: rest => value.parts ++ partsOfEntries rest

def partsOfStatement : Statement → List Code
  | .imports .. => []
  | .constants declarations => partsOfEntries declarations
  | .exports value | .returns value => value.parts

def partsOfStatements : List Statement → List Code
  | [] => []
  | first :: rest => partsOfStatement first ++ partsOfStatements rest
end

mutual
/-- Names that neither the surroundings nor a function around them bind. -/
def unbound : List String → Code → List String
  | scope, .identifier name => if scope.contains name then [] else [name]
  | _, .literal _ => []
  | scope, .call callee arguments => callee.unbound scope ++ unboundInAll scope arguments
  | scope, .member receiver _ => receiver.unbound scope
  | scope, .index receiver key => receiver.unbound scope ++ key.unbound scope
  | scope, .object properties => unboundInEntries scope properties
  | scope, .array elements => unboundInAll scope elements
  | scope, .arrow params body => body.unbound (params.flatMap Param.names ++ scope)
  | scope, .function params body => unboundInStatements (params ++ scope) body
  | _, .host _ => []

def unboundInAll : List String → List Code → List String
  | _, [] => []
  | scope, first :: rest => first.unbound scope ++ unboundInAll scope rest

def unboundInEntries : List String → List (String × Code) → List String
  | _, [] => []
  | scope, (_, value) :: rest => value.unbound scope ++ unboundInEntries scope rest

def unboundInStatement : List String → Statement → List String
  | _, .imports .. => []
  | scope, .constants declarations => unboundInEntries scope declarations
  | scope, .exports value | scope, .returns value => value.unbound scope

def unboundInStatements : List String → List Statement → List String
  | _, [] => []
  | scope, first :: rest => unboundInStatement scope first ++ unboundInStatements scope rest
end

mutual
/-- Code with definitions put in place of the names that they are for. -/
def inline (definitions : List (String × Code)) : Code → Code
  | .identifier name => (definitions.lookup name).getD (.identifier name)
  | .literal value => .literal value
  | .call callee arguments => .call (callee.inline definitions) (inlineAll definitions arguments)
  | .member receiver property => .member (receiver.inline definitions) property
  | .index receiver key => .index (receiver.inline definitions) (key.inline definitions)
  | .object properties => .object (inlineEntries definitions properties)
  | .array elements => .array (inlineAll definitions elements)
  | .arrow params body => .arrow params (body.inline definitions)
  | .function params body => .function params (inlineStatements definitions body)
  | .host expression => .host expression

def inlineAll (definitions : List (String × Code)) : List Code → List Code
  | [] => []
  | first :: rest => first.inline definitions :: inlineAll definitions rest

def inlineEntries (definitions : List (String × Code)) : List (String × Code) → List (String × Code)
  | [] => []
  | (key, value) :: rest => (key, value.inline definitions) :: inlineEntries definitions rest

def inlineStatement (definitions : List (String × Code)) : Statement → Statement
  | .imports specifiers source => .imports specifiers source
  | .constants declarations => .constants (inlineEntries definitions declarations)
  | .exports value => .exports (value.inline definitions)
  | .returns value => .returns (value.inline definitions)

def inlineStatements (definitions : List (String × Code)) : List Statement → List Statement
  | [] => []
  | first :: rest => inlineStatement definitions first :: inlineStatements definitions rest
end

def mention? : Code → Option Mention
  | .call (.identifier name) _ => some (.called name)
  | .index (.identifier name) _ => some (.opened name)
  | _ => none

/-- The names that code calls or looks into. -/
def mentions (code : Code) : List Mention := code.parts.filterMap mention?

/-- The names that a function binds. -/
def bound : Code → List String
  | .arrow params _ => params.flatMap Param.names
  | .function params _ => params
  | _ => []

/-- The names that stand in code, whatever is done with them. -/
def names (code : Code) : List String := code.parts.filterMap name?

/-! Lists of code. -/

theorem partsOfAll_eq (codes : List Code) : partsOfAll codes = codes.flatMap parts := by
  induction codes with
  | nil => rfl
  | cons first rest ih => rw [partsOfAll, ih, List.flatMap_cons]

theorem partsOfEntries_eq (entries : List (String × Code)) : partsOfEntries entries = entries.flatMap (·.2.parts) := by
  induction entries with
  | nil => rfl
  | cons first rest ih => rw [partsOfEntries, ih, List.flatMap_cons]

theorem partsOfStatements_eq (statements : List Statement) : partsOfStatements statements = statements.flatMap partsOfStatement := by
  induction statements with
  | nil => rfl
  | cons first rest ih => rw [partsOfStatements, ih, List.flatMap_cons]

theorem unboundInStatements_eq (scope : List String) (statements : List Statement) :
    unboundInStatements scope statements = statements.flatMap (unboundInStatement scope) := by
  induction statements with
  | nil => rfl
  | cons first rest ih => rw [unboundInStatements, ih, List.flatMap_cons]

theorem inlineAll_eq (definitions : List (String × Code)) (codes : List Code) :
    inlineAll definitions codes = codes.map (inline definitions) := by
  induction codes with
  | nil => rfl
  | cons first rest ih => rw [inlineAll, ih, List.map_cons]

theorem inlineEntries_eq (definitions entries : List (String × Code)) :
    inlineEntries definitions entries = entries.map fun entry => (entry.1, entry.2.inline definitions) := by
  induction entries with
  | nil => rfl
  | cons first rest ih => rw [inlineEntries, ih, List.map_cons]

/-! Names that nothing binds. -/

mutual
/-- What is unbound stands in the code, and the surroundings do not bind it. -/
theorem of_mem_unbound {scope : List String} {name : String} : (code : Code) → name ∈ code.unbound scope →
    .identifier name ∈ code.parts ∧ name ∉ scope
  | .identifier other, stands => by
    rw [unbound] at stands
    split at stands
    next => cases stands
    next absent =>
      obtain rfl := List.mem_singleton.1 stands
      exact ⟨List.mem_cons_self .., fun inside => absent (List.contains_iff_mem.2 inside)⟩
  | .literal _, stands | .host _, stands => nomatch stands
  | .call callee arguments, stands => by
    rw [unbound, List.mem_append] at stands
    rw [parts, List.mem_cons, List.mem_append]
    obtain stands | stands := stands
    · exact (of_mem_unbound callee stands).imp_left fun inside => .inr (.inl inside)
    · exact (of_mem_unboundInAll arguments stands).imp_left fun inside => .inr (.inr inside)
  | .member receiver _, stands => (of_mem_unbound receiver stands).imp_left (List.mem_cons_of_mem _)
  | .index receiver key, stands => by
    rw [unbound, List.mem_append] at stands
    rw [parts, List.mem_cons, List.mem_append]
    obtain stands | stands := stands
    · exact (of_mem_unbound receiver stands).imp_left fun inside => .inr (.inl inside)
    · exact (of_mem_unbound key stands).imp_left fun inside => .inr (.inr inside)
  | .object properties, stands => (of_mem_unboundInEntries properties stands).imp_left (List.mem_cons_of_mem _)
  | .array elements, stands => (of_mem_unboundInAll elements stands).imp_left (List.mem_cons_of_mem _)
  | .arrow _ body, stands =>
    (of_mem_unbound body stands).imp (List.mem_cons_of_mem _) fun absent inside => absent (List.mem_append_right _ inside)
  | .function _ body, stands =>
    (of_mem_unboundInStatements body stands).imp (List.mem_cons_of_mem _) fun absent inside => absent (List.mem_append_right _ inside)

theorem of_mem_unboundInAll {scope : List String} {name : String} : (codes : List Code) → name ∈ unboundInAll scope codes →
    .identifier name ∈ partsOfAll codes ∧ name ∉ scope
  | [], stands => nomatch stands
  | first :: rest, stands => by
    rw [unboundInAll, List.mem_append] at stands
    rw [partsOfAll, List.mem_append]
    obtain stands | stands := stands
    · exact (of_mem_unbound first stands).imp_left .inl
    · exact (of_mem_unboundInAll rest stands).imp_left .inr

theorem of_mem_unboundInEntries {scope : List String} {name : String} : (entries : List (String × Code)) →
    name ∈ unboundInEntries scope entries → .identifier name ∈ partsOfEntries entries ∧ name ∉ scope
  | [], stands => nomatch stands
  | (_, value) :: rest, stands => by
    rw [unboundInEntries, List.mem_append] at stands
    rw [partsOfEntries, List.mem_append]
    obtain stands | stands := stands
    · exact (of_mem_unbound value stands).imp_left .inl
    · exact (of_mem_unboundInEntries rest stands).imp_left .inr

theorem of_mem_unboundInStatement {scope : List String} {name : String} : (statement : Statement) →
    name ∈ unboundInStatement scope statement → .identifier name ∈ partsOfStatement statement ∧ name ∉ scope
  | .imports .., stands => nomatch stands
  | .constants declarations, stands => of_mem_unboundInEntries declarations stands
  | .exports value, stands | .returns value, stands => of_mem_unbound value stands

theorem of_mem_unboundInStatements {scope : List String} {name : String} : (statements : List Statement) →
    name ∈ unboundInStatements scope statements → .identifier name ∈ partsOfStatements statements ∧ name ∉ scope
  | [], stands => nomatch stands
  | first :: rest, stands => by
    rw [unboundInStatements, List.mem_append] at stands
    rw [partsOfStatements, List.mem_append]
    obtain stands | stands := stands
    · exact (of_mem_unboundInStatement first stands).imp_left .inl
    · exact (of_mem_unboundInStatements rest stands).imp_left .inr
end

/-! Parts of parts. -/

mutual
theorem parts_trans {part inner : Code} : (code : Code) → part ∈ code.parts → inner ∈ part.parts → inner ∈ code.parts
  | .identifier _, stands, inside | .literal _, stands, inside | .host _, stands, inside => by
    obtain rfl := List.mem_singleton.1 stands
    exact inside
  | .call callee arguments, stands, inside => by
    rw [parts, List.mem_cons, List.mem_append] at stands
    obtain rfl | stands | stands := stands
    · exact inside
    · exact List.mem_cons_of_mem _ (List.mem_append_left _ (parts_trans callee stands inside))
    · exact List.mem_cons_of_mem _ (List.mem_append_right _ (partsOfAll_trans arguments stands inside))
  | .member receiver _, stands, inside => by
    obtain rfl | stands := List.mem_cons.1 stands
    · exact inside
    · exact List.mem_cons_of_mem _ (parts_trans receiver stands inside)
  | .index receiver key, stands, inside => by
    rw [parts, List.mem_cons, List.mem_append] at stands
    obtain rfl | stands | stands := stands
    · exact inside
    · exact List.mem_cons_of_mem _ (List.mem_append_left _ (parts_trans receiver stands inside))
    · exact List.mem_cons_of_mem _ (List.mem_append_right _ (parts_trans key stands inside))
  | .object properties, stands, inside => by
    obtain rfl | stands := List.mem_cons.1 stands
    · exact inside
    · exact List.mem_cons_of_mem _ (partsOfEntries_trans properties stands inside)
  | .array elements, stands, inside => by
    obtain rfl | stands := List.mem_cons.1 stands
    · exact inside
    · exact List.mem_cons_of_mem _ (partsOfAll_trans elements stands inside)
  | .arrow _ body, stands, inside => by
    obtain rfl | stands := List.mem_cons.1 stands
    · exact inside
    · exact List.mem_cons_of_mem _ (parts_trans body stands inside)
  | .function _ body, stands, inside => by
    obtain rfl | stands := List.mem_cons.1 stands
    · exact inside
    · exact List.mem_cons_of_mem _ (partsOfStatements_trans body stands inside)

theorem partsOfAll_trans {part inner : Code} : (codes : List Code) → part ∈ partsOfAll codes → inner ∈ part.parts →
    inner ∈ partsOfAll codes
  | [], stands, _ => nomatch stands
  | first :: rest, stands, inside => (List.mem_append.1 stands).elim
    (fun stands => List.mem_append_left _ (parts_trans first stands inside))
    (fun stands => List.mem_append_right _ (partsOfAll_trans rest stands inside))

theorem partsOfEntries_trans {part inner : Code} : (entries : List (String × Code)) → part ∈ partsOfEntries entries →
    inner ∈ part.parts → inner ∈ partsOfEntries entries
  | [], stands, _ => nomatch stands
  | (_, value) :: rest, stands, inside => (List.mem_append.1 stands).elim
    (fun stands => List.mem_append_left _ (parts_trans value stands inside))
    (fun stands => List.mem_append_right _ (partsOfEntries_trans rest stands inside))

theorem partsOfStatement_trans {part inner : Code} : (statement : Statement) → part ∈ partsOfStatement statement →
    inner ∈ part.parts → inner ∈ partsOfStatement statement
  | .imports .., stands, _ => nomatch stands
  | .constants declarations, stands, inside => partsOfEntries_trans declarations stands inside
  | .exports value, stands, inside | .returns value, stands, inside => parts_trans value stands inside

theorem partsOfStatements_trans {part inner : Code} : (statements : List Statement) → part ∈ partsOfStatements statements →
    inner ∈ part.parts → inner ∈ partsOfStatements statements
  | [], stands, _ => nomatch stands
  | first :: rest, stands, inside => (List.mem_append.1 stands).elim
    (fun stands => List.mem_append_left _ (partsOfStatement_trans first stands inside))
    (fun stands => List.mem_append_right _ (partsOfStatements_trans rest stands inside))
end

end Code

namespace Program

/-- The names that a module binds for all of its code: imports and constants. -/
def topNames (program : Program) : List String :=
  program.flatMap fun
    | .imports specifiers _ => specifiers.map Specifier.name
    | .constants declarations => declarations.map (·.1)
    | _ => []

def constants (program : Program) : List (String × Code) :=
  program.flatMap fun
    | .constants declarations => declarations
    | _ => []

def parts (program : Program) : List Code := Code.partsOfStatements program

/-- The names that the code of a module calls or looks into. -/
def mentions (program : Program) : List Mention := (parts program).filterMap Code.mention?

/-- All names that a module binds somewhere. -/
def boundNames (program : Program) : List String := topNames program ++ (parts program).flatMap Code.bound

/-- Names in a module that nothing binds. -/
def unbound (program : Program) : List String := Code.unboundInStatements (topNames program) program

end Program

end ReactiveMarkup
