import ReactiveMarkup.Expression.Printer
import ReactiveMarkup.Program.Basic
import ReactiveMarkup.Program.Layout

/-!
Printing generated modules.
-/

namespace ReactiveMarkup

namespace Code

def printKey (key : String) : String := if Text.isIdentifier key then key else Text.quoteDouble key

def printLiteral : Literal → String
  | .string value => Text.quoteDouble value
  | value => Expression.printLiteral value

def printBinding (binding : String × String) : String :=
  if binding.1 = binding.2 then binding.1 else printKey binding.1 ++ ": " ++ binding.2

def printParam : Param → String
  | .name name => name
  | .pattern bindings => "\x7b " ++ ", ".intercalate (bindings.map printBinding) ++ " \x7d"

/-- An object behind an arrow would read as a block. -/
def needsParentheses : Code → Bool
  | .object _ => true
  | .host expression => expression.isObject
  | _ => false

def printImport (specifiers : List Specifier) (source : String) : String :=
  let defaults := specifiers.filterMap fun
    | .default name => some name
    | .named _ => none
  let named := specifiers.filterMap fun
    | .named name => some name
    | .default _ => none
  let clauses := defaults ++ if named.isEmpty then [] else ["\x7b " ++ ", ".intercalate named ++ " \x7d"]
  let clause := if clauses.isEmpty then "" else ", ".intercalate clauses ++ " from "
  "import " ++ clause ++ Text.quoteDouble source

mutual
def layout : Code → List Layout
  | .identifier name => [.print name]
  | .literal value => [.print (printLiteral value)]
  | .call callee arguments => callee.layout ++ .print "(" :: layoutAll arguments ++ [.print ")"]
  | .member receiver property => receiver.layout ++ [.print ("." ++ property)]
  | .index receiver key => receiver.layout ++ .print "[" :: key.layout ++ [.print "]"]
  | .object properties =>
    match properties with
    | [] => [.print "\x7b\x7d"]
    | first :: rest => .print "\x7b " :: layoutProperties (first :: rest) ++ [.print " \x7d"]
  | .array elements => .print "[" :: layoutAll elements ++ [.print "]"]
  | .arrow params body =>
    let wrapped := needsParentheses body
    .print ("(" ++ ", ".intercalate (params.map printParam) ++ ") => " ++ if wrapped then "(" else "") ::
      body.layout ++ [.print (if wrapped then ")" else "")]
  | .function params body =>
    .line ("function (" ++ ", ".intercalate params ++ ") \x7b") :: .indent :: layoutStatements body ++
      [.dedent, .print "\x7d"]
  | .host expression => [.print expression.print]

def layoutAll : List Code → List Layout
  | [] => []
  | [last] => last.layout
  | first :: rest => first.layout ++ .print ", " :: layoutAll rest

def layoutProperties : List (String × Code) → List Layout
  | [] => []
  | [(key, value)] => .print (printKey key ++ ": ") :: value.layout
  | (key, value) :: rest => .print (printKey key ++ ": ") :: value.layout ++ .print ", " :: layoutProperties rest

def layoutDeclarations : List (String × Code) → List Layout
  | [] => []
  | [(name, value)] => .print (name ++ " = ") :: value.layout
  | (name, value) :: rest => .print (name ++ " = ") :: value.layout ++ .print ", " :: layoutDeclarations rest

def layoutStatement : Statement → List Layout
  | .imports specifiers source => [.line (printImport specifiers source ++ ";")]
  | .constants declarations => .print "const " :: layoutDeclarations declarations ++ [.line ";"]
  | .exports value => .print "export default " :: value.layout ++ [.line ";"]
  | .returns value => .print "return " :: value.layout ++ [.line ";"]

def layoutStatements : List Statement → List Layout
  | [] => []
  | first :: rest => layoutStatement first ++ layoutStatements rest
end

end Code

namespace Program

def isImport : Statement → Bool
  | .imports .. => true
  | _ => false

/-- A blank line stands between any two statements that are not both imports. -/
def layout : Program → List Layout
  | [] => []
  | [last] => Code.layoutStatement last
  | first :: second :: rest =>
    Code.layoutStatement first ++ (if isImport first && isImport second then [] else [.line ""]) ++
      layout (second :: rest)

def print (indent : Nat) (program : Program) : String := (Layout.page (layout program)).render indent

end Program

end ReactiveMarkup
