import ReactiveMarkup.Expression.Printer
import ReactiveMarkup.Markup.Basic

/-!
Printing markup in one canonical form: siblings back to back, every element with a closing
tag, and no empty blocks behind a conditional or a loop.
-/

namespace ReactiveMarkup.Markup

def printValue : AttributeValue → String
  | .text value => value
  | .expression value => value.print
  | .bool _ => ""

def printAttribute (attr : Attribute) : String :=
  let value := "=\"" ++ printValue attr.value ++ "\""
  match attr.kind with
  | .flag => attr.name
  | .literal => attr.name ++ value
  | .property => "[" ++ attr.name ++ "]" ++ value
  | .event => "(" ++ attr.name ++ ")" ++ value

def printAttributes (attributes : List Attribute) : String :=
  String.join (attributes.map fun attr => " " ++ printAttribute attr)

def printBlock (head body : String) : String := head ++ " \x7b" ++ body ++ "\x7d"

mutual
def print : Markup → String
  | .element name attributes children =>
    "<" ++ name ++ printAttributes attributes ++ ">" ++ printAll children ++ "</" ++ name ++ ">"
  | .text value => value
  | .expression value => "\x7b\x7b " ++ value.print ++ " \x7d\x7d"
  | .conditional test body others otherwise =>
    printBlock ("@if (" ++ test.print ++ ")") (printAll body) ++ printBranches others ++
      if otherwise.isEmpty then "" else printBlock " @else" (printAll otherwise)
  | .loop item items track body empty =>
    printBlock ("@for (" ++ item.print ++ " of " ++ items.print ++ "; track " ++ track.print ++ ")")
        (printAll body) ++
      if empty.isEmpty then "" else printBlock " @empty" (printAll empty)

def printAll : List Markup → String
  | [] => ""
  | first :: rest => print first ++ printAll rest

def printBranches : List (Branch Markup) → String
  | [] => ""
  | ⟨test, body⟩ :: rest =>
    printBlock (" @else if (" ++ test.print ++ ")") (printAll body) ++ printBranches rest
end

theorem print_text (value : String) : print (.text value) = value := by rw [print]

theorem printAll_cons (first : Markup) (rest : List Markup) : printAll (first :: rest) = print first ++ printAll rest := by
  rw [printAll]

theorem printBranches_nil : printBranches [] = "" := by rw [printBranches]

end ReactiveMarkup.Markup
