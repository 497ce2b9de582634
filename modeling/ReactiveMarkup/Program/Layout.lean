/-!
Text laid out in indented lines.
-/

namespace ReactiveMarkup

/-- A step in writing a text. -/
inductive Layout where
  | print (text : String)
  | line (text : String)
  | indent
  | dedent
  deriving Repr, DecidableEq

namespace Layout

/-- A line with its depth of indentation. -/
structure Line where
  text : String
  depth : Nat
  deriving Repr, DecidableEq

/-- The finished lines, last first, the line being written, and the current depth. -/
structure Page where
  finished : List Line
  current : Line
  depth : Nat
  deriving Repr, DecidableEq

def Page.blank : Page := ⟨[], ⟨"", 0⟩, 0⟩

def Page.isLineEmpty (page : Page) : Bool := page.current.text.isEmpty

/-- A line that holds no text yet takes a new depth. -/
def Page.setDepth (page : Page) (depth : Nat) : Page :=
  { page with
    depth
    current := if page.isLineEmpty then { page.current with depth } else page.current }

def Page.print (page : Page) (text : String) : Page :=
  { page with current := { page.current with text := page.current.text ++ text } }

def Page.breakLine (page : Page) : Page :=
  { page with finished := page.current :: page.finished, current := ⟨"", page.depth⟩ }

def Page.step (page : Page) : Layout → Page
  | .print text => page.print text
  | .line text => (page.print text).breakLine
  | .indent => page.setDepth (page.depth + 1)
  | .dedent => page.setDepth (page.depth - 1)

/-- Empty lines are not indented. -/
def Line.render (width : Nat) (line : Line) : String :=
  if line.text.isEmpty then "" else "".pushn ' ' (line.depth * width) ++ line.text

/-- The lines, each ended by a line feed; a last line without text is left out. -/
def Page.render (width : Nat) (page : Page) : String :=
  let lines := if page.isLineEmpty then page.finished else page.current :: page.finished
  "\n".intercalate (lines.reverse.map (Line.render width)) ++ "\n"

def page (steps : List Layout) : Page := steps.foldl Page.step .blank

end Layout

end ReactiveMarkup
