/-!
Two written forms of a string: between single quotes, as expressions are printed, and
between double quotes, as modules are printed.
-/

namespace ReactiveMarkup.Text

def hexDigit (n : Nat) : Char := Nat.digitChar n

/-- A control character by its code. -/
def escapeCode (c : Char) : List Char :=
  ['\\', 'u', '0', '0', hexDigit (c.toNat / 16), hexDigit (c.toNat % 16)]

def escapeSingle (c : Char) : List Char :=
  match c with
  | '\\' => ['\\', '\\']
  | '\'' => ['\\', '\'']
  | '\n' => ['\\', 'n']
  | '\r' => ['\\', 'r']
  | '\t' => ['\\', 't']
  | c => if c < ' ' then escapeCode c else [c]

def escapeDouble (c : Char) : List Char :=
  match c with
  | '"' => ['\\', '"']
  | '\\' => ['\\', '\\']
  | '\x08' => ['\\', 'b']
  | '\x0c' => ['\\', 'f']
  | '\n' => ['\\', 'n']
  | '\r' => ['\\', 'r']
  | '\t' => ['\\', 't']
  | c => if c < ' ' then escapeCode c else [c]

def quoteSingle (value : String) : String :=
  .ofList ('\'' :: value.toList.flatMap escapeSingle ++ ['\''])

def quoteDouble (value : String) : String :=
  .ofList ('"' :: value.toList.flatMap escapeDouble ++ ['"'])

end ReactiveMarkup.Text
