import ReactiveMarkup.Machine.Evaluation

/-!
Data: values as they are written down, before their arrays, objects and functions are made.
-/

namespace ReactiveMarkup

inductive Datum where
  | undefined
  | null
  | bool (value : Bool)
  | number (value : Float)
  | string (value : String)
  | array (items : List Datum)
  | object (entries : List (String × Datum))
  /-- What an expression gives that sees no names. -/
  | expression (body : Expression)

instance : Inhabited Datum := ⟨.undefined⟩

namespace Datum

variable {host : Host}

mutual
/-- Makes the value, with new arrays, objects and functions. -/
def make (calls : Calls host) : Datum → Run host Value
  | .undefined => return .undefined
  | .null => return .null
  | .bool value => return .bool value
  | .number value => return .number value
  | .string value => return .string value
  | .array items => do
    let items ← makeItems calls items
    Machine.array items
  | .object entries => do
    let entries ← makeEntries calls entries
    Machine.object entries
  | .expression body => Machine.evaluate calls ⟨.undefined, []⟩ body

def makeItems (calls : Calls host) : List Datum → Run host (List Value)
  | [] => return []
  | item :: rest => do
    let value ← item.make calls
    return value :: (← makeItems calls rest)

def makeEntries (calls : Calls host) : List (String × Datum) → Run host (List (String × Value))
  | [] => return []
  | (name, datum) :: rest => do
    let value ← datum.make calls
    return (name, value) :: (← makeEntries calls rest)
end

mutual
def ofJson : Json → Datum
  | .null => .null
  | .bool value => .bool value
  | .number value => .number value.toFloat
  | .string value => .string value
  | .array items => .array (ofJsonItems items)
  | .object entries => .object (ofJsonEntries entries)

def ofJsonItems : List Json → List Datum
  | [] => []
  | item :: rest => ofJson item :: ofJsonItems rest

def ofJsonEntries : List (String × Json) → List (String × Datum)
  | [] => []
  | (name, value) :: rest => (name, ofJson value) :: ofJsonEntries rest
end

end Datum

end ReactiveMarkup
