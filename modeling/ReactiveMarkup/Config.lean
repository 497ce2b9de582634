import ReactiveMarkup.Json.Reader

/-!
Settings of compilation, and their JSON form.
-/

namespace ReactiveMarkup

structure Config where
  /-- The module that generated modules import constructors from. -/
  runtimeModule : String := "@htmly/core/renderer"
  /-- Whether an element's constructor is made once for each tag. -/
  hoistElements : Bool := true
  slotTag : String := "slot"
  templateTag : String := "template"
  /-- Spaces for each level of indentation. -/
  indent : Nat := 2
  deriving Repr, DecidableEq

namespace Config

def keys : List String := ["runtimeModule", "hoistElements", "slotTag", "templateTag", "indent"]

def readString : Json.Written → Option String
  | .string units => Json.stringOfUnits? units
  | _ => none

def readBool : Json.Written → Option Bool
  | .bool value => some value
  | _ => none

/-- A natural number that fits sixty-four bits, written without fraction and exponent. -/
def readNatural : Json.Written → Option Nat
  | .number numeral =>
    match numeral.value? with
    | some (.natural n) => some n
    | _ => none
  | _ => none

def set (config : Config) (key : String) (value : Json.Written) : Option Config :=
  match key with
  | "runtimeModule" => (readString value).map fun text => { config with runtimeModule := text }
  | "hoistElements" => (readBool value).map fun flag => { config with hoistElements := flag }
  | "slotTag" => (readString value).map fun text => { config with slotTag := text }
  | "templateTag" => (readString value).map fun text => { config with templateTag := text }
  | "indent" => (readNatural value).map fun n => { config with indent := n }
  | _ => some config

/-- Entries with other names are skipped unread; a setting may be given once. -/
def readEntries (config : Config) (seen : List String) :
    List (List Json.StringUnit × Json.Written) → Option Config
  | [] => some config
  | (name, value) :: rest => do
    let name ← Json.stringOfUnits? name
    if seen.contains name then none
    else
      let config ← config.set name value
      config.readEntries (if keys.contains name then name :: seen else seen) rest

/-- Settings in the order of `keys`, of which the last may be missing. -/
def readItems (config : Config) : List String → List Json.Written → Option Config
  | _, [] => some config
  | [], _ :: _ => none
  | key :: keys, item :: items => do
    let config ← config.set key item
    config.readItems keys items

/-- Reads settings; those not given have their default. -/
def read? (source : String) : Option Config := do
  match ← Json.Written.read? source with
  | .object entries => ({} : Config).readEntries [] entries
  | .array items => ({} : Config).readItems keys items
  | _ => none

end Config

end ReactiveMarkup
