/-!
Classes of characters in expressions and markup.
-/

namespace ReactiveMarkup.Text

/-- Characters skipped between tokens: all controls but the null character, the
space and the no-break space. -/
def isBlank (c : Char) : Bool := (c ≤ ' ' && c != '\x00') || c == '\u00a0'

def isIdentifierStart (c : Char) : Bool := c.isAlpha || c == '_' || c == '$'

def isIdentifierPart (c : Char) : Bool := isIdentifierStart c || c.isDigit

/-- Characters of an element's name. -/
def isTagPart (c : Char) : Bool := c.isAlphanum || c == '-' || c == '_'

/-- Whether a text is spelled like an identifier. Keywords are too. -/
def isIdentifier (name : String) : Bool :=
  match name.toList with
  | first :: rest => isIdentifierStart first && rest.all isIdentifierPart
  | [] => false

/-- Any name made into part of an identifier. -/
def sanitize (name : String) : String :=
  name.map fun c => if isIdentifierPart c then c else '_'

/-- Whether the second text stands at the front of the first. -/
def startsWith (chars : List Char) (front : String) : Bool := front.toList.isPrefixOf chars

end ReactiveMarkup.Text
