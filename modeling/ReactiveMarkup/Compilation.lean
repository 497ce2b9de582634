import ReactiveMarkup.Markup.Parser
import ReactiveMarkup.Program.Lowering
import ReactiveMarkup.Program.Printer

/-!
Compiling the template of a component to a module, alone or together with its siblings.
-/

namespace ReactiveMarkup

/-- A component with the text of its template. -/
structure ComponentSource where
  files : ComponentFiles
  template : String
  deriving Repr, DecidableEq

inductive CompileError where
  | parse (diagnostic : Diagnostic)
  | lowering (error : LoweringError)

def CompileError.message : CompileError → String
  | .parse diagnostic => "Parse Error: " ++ diagnostic.text
  | .lowering error => "Transform Error: " ++ error.message

/-- How a component's module is found from another one. -/
abbrev Resolver := ComponentFiles → String

def Resolver.standard : Resolver := ComponentFiles.path

/-- A pattern in which a pair of braces stands for the component's name. -/
def Resolver.pattern (pattern : String) : Resolver := fun files =>
  pattern.replace "\x7b\x7d" files.name

structure Compiled where
  name : String
  markup : List Markup
  program : Program
  code : String

namespace ComponentSource

def parse (source : ComponentSource) : Except CompileError (List Markup) :=
  (Markup.parse ⟨source.template, source.files.template⟩).mapError .parse

def compile (source : ComponentSource) (siblings : Entries ComponentFiles) (resolver : Resolver)
    (config : Config) : Except CompileError Compiled := do
  let markup ← source.parse
  let program ← (Program.ofMarkup markup source.files siblings resolver config).mapError .lowering
  return ⟨source.files.name, markup, program, program.print config.indent⟩

/-- The components of a batch by name. -/
def siblings (sources : List ComponentSource) : Entries ComponentFiles :=
  Entries.ofList (sources.map fun source => (source.files.name, source.files))

/-- Each component has its own outcome, whatever becomes of the others. -/
def compileAll (sources : List ComponentSource) (resolver : Resolver) (config : Config) :
    List (Except CompileError Compiled) :=
  sources.map fun source => source.compile (siblings sources) resolver config

end ComponentSource

end ReactiveMarkup
