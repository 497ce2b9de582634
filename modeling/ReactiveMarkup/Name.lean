import ReactiveMarkup.Text.Class
import ReactiveMarkup.Text.Upper
import ReactiveMarkup.Text.Word

/-!
Names that generated modules give to tags and attributes.
-/

namespace ReactiveMarkup.Name

/-- Joins words at dashes. Dashes before a small letter or a digit vanish, and the letter
becomes a capital; `pending` dashes wait for what follows them. -/
def camelFrom (pending : Nat) : List Char → List Char
  | [] => List.replicate pending '-'
  | c :: rest =>
    if c = '-' then camelFrom (pending + 1) rest
    else if 0 < pending ∧ (c.isLower ∨ c.isDigit) then c.toUpper :: camelFrom 0 rest
    else List.replicate pending '-' ++ c :: camelFrom 0 rest

def camel (name : String) : String := .ofList (camelFrom 0 name.toList)

/-- The variable for a tag: its words joined, with a capital first. -/
def ofTag (tag : String) : String :=
  match camelFrom 0 tag.toList with
  | [] => ""
  | first :: rest => .ofList (Text.upper first ++ rest)

/-- The name that an attribute introduces into slot content. -/
def ofLet? (attr : String) : Option String :=
  if Text.startsWith attr.toList "let-" then
    let name := attr.toList.drop 4
    if name.isEmpty || !name.all Text.isWord then none else some (.ofList name)
  else none

/-- The constant that holds an element's constructor. -/
def ofElement (tag : String) : String := "$e_" ++ Text.sanitize tag

end ReactiveMarkup.Name
