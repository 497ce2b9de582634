import ReactiveMarkup.Entries
import ReactiveMarkup.Number.Decimal
import ReactiveMarkup.Text.Quoted

/-!
JSON values with the entries of objects in order, and their compact text.
-/

namespace ReactiveMarkup

/-- A number keeps whether it was written as an integer of machine size. -/
inductive Json.Number where
  | natural (n : Nat)
  | negative (n : Nat)
  | real (x : Float)

inductive Json where
  | null
  | bool (value : Bool)
  | number (value : Json.Number)
  | string (value : String)
  | array (items : List Json)
  | object (entries : List (String × Json))

namespace Json

instance : Inhabited Json := ⟨.null⟩

def Number.toFloat : Number → Float
  | .natural n => ReactiveMarkup.Number.ofNat n
  | .negative n => ReactiveMarkup.Number.ofRatio true n 1
  | .real x => x

def Number.text : Number → String
  | .natural n => toString n
  | .negative n => "-" ++ toString n
  | .real x => ReactiveMarkup.Number.text x

def natural (n : Nat) : Json := .number (.natural n)

def get? (json : Json) (name : String) : Option Json :=
  match json with
  | .object entries => Entries.get? entries name
  | _ => none

def string? : Json → Option String
  | .string value => some value
  | _ => none

def natural? : Json → Option Nat
  | .number (.natural n) => some n
  | _ => none

def bool? : Json → Option Bool
  | .bool value => some value
  | _ => none

def items? : Json → Option (List Json)
  | .array items => some items
  | _ => none

mutual
def text : Json → String
  | .null => "null"
  | .bool value => if value then "true" else "false"
  | .number value => value.text
  | .string value => Text.quoteDouble value
  | .array items => "[" ++ ",".intercalate (itemTexts items) ++ "]"
  | .object entries => "\x7b" ++ ",".intercalate (entryTexts entries) ++ "\x7d"

def itemTexts : List Json → List String
  | [] => []
  | item :: rest => item.text :: itemTexts rest

def entryTexts : List (String × Json) → List String
  | [] => []
  | (name, value) :: rest => (Text.quoteDouble name ++ ":" ++ value.text) :: entryTexts rest
end

end Json

end ReactiveMarkup
