import ReactiveMarkup.Json.Basic

/-!
Reading JSON text. The text is first read as written, which settles its grammar;
numbers out of range, halves of surrogate pairs and deep nesting are found only in
the parts whose value is asked for.
-/

namespace ReactiveMarkup.Json

/-- A unit of a written string: a character, or a code given by an escape. -/
inductive StringUnit where
  | char (c : Char)
  | code (code : Nat)

/-- A number as written. -/
structure NumberText where
  negative : Bool
  whole : List Char
  fraction : Option (List Char)
  exponent : Option (Bool × List Char)

/-- A JSON text that follows the grammar. -/
inductive Written where
  | null
  | bool (value : Bool)
  | number (value : NumberText)
  | string (units : List StringUnit)
  | array (items : List Written)
  | object (entries : List (List StringUnit × Written))

def isJsonBlank (c : Char) : Bool := c == ' ' || c == '\n' || c == '\t' || c == '\r'

def skipBlanks (chars : List Char) : List Char := chars.dropWhile isJsonBlank

def hexValue? (c : Char) : Option Nat :=
  if c.isDigit then some (c.toNat - '0'.toNat)
  else if 'a' ≤ c ∧ c ≤ 'f' then some (c.toNat - 'a'.toNat + 10)
  else if 'A' ≤ c ∧ c ≤ 'F' then some (c.toNat - 'A'.toNat + 10)
  else none

def hexCode? (a b c d : Char) : Option Nat := do
  return (((← hexValue? a) * 16 + (← hexValue? b)) * 16 + (← hexValue? c)) * 16 + (← hexValue? d)

def unescape? : Char → Option Char
  | '"' => some '"'
  | '\\' => some '\\'
  | '/' => some '/'
  | 'b' => some '\x08'
  | 'f' => some '\x0c'
  | 'n' => some '\n'
  | 'r' => some '\r'
  | 't' => some '\t'
  | _ => none

/-- A string's units up to the closing quote, and what follows it. -/
def readUnits : List Char → Option (List StringUnit × List Char)
  | [] => none
  | '"' :: rest => some ([], rest)
  | '\\' :: 'u' :: a :: b :: c :: d :: rest => do
    let code ← hexCode? a b c d
    let (units, rest) ← readUnits rest
    return (.code code :: units, rest)
  | '\\' :: c :: rest => do
    let c ← unescape? c
    let (units, rest) ← readUnits rest
    return (.char c :: units, rest)
  | c :: rest => do
    if c < ' ' then none
    else
      let (units, rest) ← readUnits rest
      return (.char c :: units, rest)

/-- Digits, of which there is at least one. -/
def readDigits (chars : List Char) : Option (List Char × List Char) :=
  let digits := chars.takeWhile Char.isDigit
  if digits.isEmpty then none else some (digits, chars.dropWhile Char.isDigit)

def readFraction : List Char → Option (Option (List Char) × List Char)
  | '.' :: rest => (readDigits rest).map fun (digits, rest) => (some digits, rest)
  | chars => some (none, chars)

def readExponent : List Char → Option (Option (Bool × List Char) × List Char)
  | [] => some (none, [])
  | mark :: rest =>
    if mark = 'e' ∨ mark = 'E' then
      let (negative, digits) := Number.readSign rest
      (readDigits digits).map fun (digits, rest) => (some (negative, digits), rest)
    else some (none, mark :: rest)

/-- A leading zero stands alone before the point. -/
def readNumber (chars : List Char) : Option (NumberText × List Char) := do
  let (negative, chars) := match chars with
    | '-' :: rest => (true, rest)
    | chars => (false, chars)
  let (whole, rest) ← readDigits chars
  if whole.head? = some '0' ∧ 1 < whole.length then none
  else
    let (fraction, rest) ← readFraction rest
    let (exponent, rest) ← readExponent rest
    return (⟨negative, whole, fraction, exponent⟩, rest)

def readWord (word : String) (value : Written) (chars : List Char) :
    Option (Written × List Char) :=
  if word.toList.isPrefixOf chars then some (value, chars.drop word.length) else none

mutual
/-- Reads one value. Each step into a value has consumed a character, so the length
of the text bounds the depth. -/
def readValue : Nat → List Char → Option (Written × List Char)
  | 0, _ => none
  | depth + 1, chars =>
    match skipBlanks chars with
    | [] => none
    | '"' :: rest => (readUnits rest).map fun (units, rest) => (.string units, rest)
    | '[' :: rest =>
      match skipBlanks rest with
      | ']' :: rest => some (.array [], rest)
      | rest => (readItems depth rest).map fun (items, rest) => (.array items, rest)
    | '\x7b' :: rest =>
      match skipBlanks rest with
      | '\x7d' :: rest => some (.object [], rest)
      | rest => (readEntries depth rest).map fun (entries, rest) => (.object entries, rest)
    | c :: rest =>
      if c = 'n' then readWord "null" .null (c :: rest)
      else if c = 't' then readWord "true" (.bool true) (c :: rest)
      else if c = 'f' then readWord "false" (.bool false) (c :: rest)
      else (readNumber (c :: rest)).map fun (numeral, rest) => (.number numeral, rest)

def readItems : Nat → List Char → Option (List Written × List Char)
  | 0, _ => none
  | depth + 1, chars => do
    let (item, rest) ← readValue depth chars
    match skipBlanks rest with
    | ']' :: rest => return ([item], rest)
    | ',' :: rest =>
      let (items, rest) ← readItems depth rest
      return (item :: items, rest)
    | _ => none

def readEntries : Nat → List Char → Option (List (List StringUnit × Written) × List Char)
  | 0, _ => none
  | depth + 1, chars =>
    match skipBlanks chars with
    | '"' :: rest => do
      let (name, rest) ← readUnits rest
      match skipBlanks rest with
      | ':' :: rest =>
        let (value, rest) ← readValue depth rest
        match skipBlanks rest with
        | '\x7d' :: rest => return ([(name, value)], rest)
        | ',' :: rest =>
          let (entries, rest) ← readEntries depth rest
          return ((name, value) :: entries, rest)
        | _ => none
      | _ => none
    | _ => none
end

/-- Reads a whole text. -/
def Written.read? (source : String) : Option Written := do
  let chars := source.toList
  let (value, rest) ← readValue (2 * chars.length + 2) chars
  if (skipBlanks rest).isEmpty then some value else none

/-- The characters that units stand for. A pair of surrogates is one character, and
half a pair is none. -/
def decodeUnits? : List StringUnit → Option (List Char)
  | [] => some []
  | .char c :: rest => (decodeUnits? rest).map (c :: ·)
  | .code high :: .code low :: rest =>
    if 0xd800 ≤ high ∧ high < 0xdc00 then
      if 0xdc00 ≤ low ∧ low < 0xe000 then
        (decodeUnits? rest).map (Char.ofNat (0x10000 + (high - 0xd800) * 0x400 + (low - 0xdc00)) :: ·)
      else none
    else if 0xdc00 ≤ high ∧ high < 0xe000 then none
    else (decodeUnits? (.code low :: rest)).map (Char.ofNat high :: ·)
  | .code code :: rest =>
    if 0xd800 ≤ code ∧ code < 0xe000 then none
    else (decodeUnits? rest).map (Char.ofNat code :: ·)

def stringOfUnits? (units : List StringUnit) : Option String := (decodeUnits? units).map .ofList

/-- Takes digits into a significand as long as it fits sixty-four bits; gives the
significand and the digits left over. -/
def fitDigits (significand : Nat) : List Char → Nat × List Char
  | [] => (significand, [])
  | c :: rest =>
    let next := significand * 10 + ReactiveMarkup.Number.digitValue c
    if next < Nat.pow 2 64 then fitDigits next rest else (significand, c :: rest)

/-- The power of ten nearest to `10 ^ exponent`, for exponents up to 308. -/
def powerOfTen (exponent : Nat) : Float := ReactiveMarkup.Number.Decimal.toFloat false ⟨1, exponent⟩

/-- Scales a magnitude by a power of ten, in steps of at most 308. Three steps down reach
zero from any significand. None when the result is too large. -/
def scaleByTen? (x : Float) (exponent : Int) : Nat → Option Float
  | 0 => some x
  | steps + 1 =>
    if x == 0 then some x
    else if 308 < exponent then none
    else if 0 ≤ exponent then
      let scaled := x * powerOfTen exponent.toNat
      if ReactiveMarkup.Number.isFinite scaled then some scaled else none
    else if -308 ≤ exponent then some (x / powerOfTen (-exponent).toNat)
    else scaleByTen? (x / powerOfTen 308) (exponent + 308) steps

/-- Integers of machine size stay exact. Of any other number the leading digits that fit
sixty-four bits are scaled by a power of ten. -/
def NumberText.value? (number : NumberText) : Option Json.Number :=
  let (significand, left) := fitDigits 0 number.whole
  match left, number.fraction, number.exponent with
  | [], none, none =>
    if !number.negative then some (.natural significand)
    else if significand = 0 ∨ Nat.pow 2 63 < significand then
      some (.real (ReactiveMarkup.Number.ofRatio true significand 1))
    else some (.negative significand)
  | left, fraction, exponent =>
    let fraction := fraction.getD []
    let (significand, unread) := fitDigits significand fraction
    let shift : Int := left.length - (fraction.length - unread.length : Nat)
    let exponent : Int := match exponent with
      | none => 0
      | some (negative, digits) =>
        let magnitude : Int := ReactiveMarkup.Number.digitsValue digits
        if negative then -magnitude else magnitude
    (scaleByTen? (ReactiveMarkup.Number.ofNat significand) (shift + exponent) 4).map fun x =>
      .real (if number.negative then -x else x)

mutual
/-- The value that a text denotes, if it is nested less deeply than `depth` and all of its
numbers and strings have a value. The last of several entries with one name counts. -/
def Written.value? : Nat → Written → Option Json
  | _, .null => some .null
  | _, .bool value => some (.bool value)
  | _, .number numeral => numeral.value?.map .number
  | _, .string units => (stringOfUnits? units).map .string
  | depth, .array items =>
    if depth ≤ 1 then none else (valuesOfItems (depth - 1) items).map .array
  | depth, .object entries =>
    if depth ≤ 1 then none
    else (valuesOfEntries (depth - 1) entries).map fun entries => .object (Entries.ofList entries)

def valuesOfItems : Nat → List Written → Option (List Json)
  | _, [] => some []
  | depth, item :: rest => do
    let item ← item.value? depth
    let rest ← valuesOfItems depth rest
    return item :: rest

def valuesOfEntries : Nat → List (List StringUnit × Written) → Option (List (String × Json))
  | _, [] => some []
  | depth, (name, value) :: rest => do
    let name ← stringOfUnits? name
    let value ← value.value? depth
    let rest ← valuesOfEntries depth rest
    return (name, value) :: rest
end

/-- Values are nested less deeply than this. -/
def depthLimit : Nat := 128

def read? (source : String) : Option Json := (Written.read? source).bind (·.value? depthLimit)

end ReactiveMarkup.Json
