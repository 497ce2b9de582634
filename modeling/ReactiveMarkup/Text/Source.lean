/-!
Source texts, places in them, and faults reported at a place. Offsets count bytes of
the encoded text; lines and columns are counted from zero, columns in characters.
-/

namespace ReactiveMarkup

structure Source where
  content : String
  url : String
  deriving Repr, DecidableEq

/-- Number of bytes of an encoded text. -/
def Text.byteSize : List Char → Nat
  | [] => 0
  | c :: rest => c.utf8Size + byteSize rest

/-- Cuts a text after the characters that lie within the given number of bytes. -/
def Text.splitAtByte : Nat → List Char → List Char × List Char
  | _, [] => ([], [])
  | offset, c :: rest =>
    if offset < c.utf8Size then ([], c :: rest)
    else
      let (before, after) := splitAtByte (offset - c.utf8Size) rest
      (c :: before, after)

/-- A place in a source text. -/
structure Position where
  offset : Nat
  line : Nat
  column : Nat
  deriving Repr, DecidableEq

/-- The place one character further. -/
def Position.advance (position : Position) (c : Char) : Position :=
  let offset := position.offset + c.utf8Size
  if c = '\n' then ⟨offset, position.line + 1, 0⟩ else ⟨offset, position.line, position.column + 1⟩

namespace Source

/-- The text before and after an offset; an offset past the end is the end. -/
def split (source : Source) (offset : Nat) : List Char × List Char :=
  Text.splitAtByte offset source.content.toList

def position (source : Source) (offset : Nat) : Position :=
  (source.split offset).1.foldl Position.advance ⟨0, 0, 0⟩

/-- The characters before the given number of line feeds. -/
def takeLines : Nat → List Char → List Char
  | _, [] => []
  | limit, c :: rest =>
    if c = '\n' then
      match limit with
      | 0 | 1 => []
      | limit + 1 => c :: takeLines limit rest
    else c :: takeLines limit rest

/-- The surroundings shown with a fault: at most a hundred characters and three lines
on either side. -/
def excerpt (source : Source) (offset : Nat) : List Char × List Char :=
  let (before, after) := source.split offset
  ((takeLines 3 (before.reverse.take 100)).reverse, takeLines 3 (after.take 100))

end Source

/-- A fault at a place of a source text. -/
structure Diagnostic where
  source : Source
  offset : Nat
  message : String
  deriving Repr, DecidableEq

namespace Diagnostic

def position (diagnostic : Diagnostic) : Position := diagnostic.source.position diagnostic.offset

/-- The message with the surroundings of the place, if the source is not empty. -/
def summary (diagnostic : Diagnostic) : String :=
  if diagnostic.source.content.isEmpty then diagnostic.message
  else
    let (before, after) := diagnostic.source.excerpt diagnostic.offset
    diagnostic.message ++ " (\"" ++ .ofList before ++ "[ERROR ->]" ++ .ofList after ++ "\")"

def text (diagnostic : Diagnostic) : String :=
  let position := diagnostic.position
  diagnostic.summary ++ ": " ++ diagnostic.source.url ++ "@" ++ toString position.line ++ ":" ++
    toString position.column

end Diagnostic

end ReactiveMarkup
