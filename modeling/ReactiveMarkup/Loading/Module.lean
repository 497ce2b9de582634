import ReactiveMarkup.Loading.Planner
import ReactiveMarkup.Path

/-!
Reading a module: its imports and constants in order, and the component that it defines.
-/

namespace ReactiveMarkup

/-- What the statements of a module amount to. -/
structure Module where
  planner : Planner
  /-- Paths of the modules whose default is imported, by local name. -/
  defaults : Entries String := []
  /-- What was exported last. -/
  definition : Option Code := none

/-- The parts of a component's definition. -/
structure Definition where
  name : String
  controller : String
  render : Code

namespace Module

/-- The runtime module has nothing but constructors, by name. -/
def importConstructor (module : Module) (source : String) (specifier : Specifier) : Except ModuleFault Module :=
  match specifier with
  | .default name => .error (.notExported name source)
  | .named name =>
    match Constructor.ofName? name with
    | none => .error (.notExported name source)
    | some constructor =>
      let planner := module.planner
      .ok { module with planner := { planner with constructors := constructor :: planner.constructors } }

/-- From other modules only the default can be imported. -/
def importDefault (module : Module) (directory source : String) (specifier : Specifier) :
    Except ModuleFault Module :=
  match specifier with
  | .default name => .ok { module with defaults := Entries.put module.defaults name (Path.resolve directory source) }
  | .named name => .error (.namedImport name source)

def declare (module : Module) (constant : String × Code) : Except ModuleFault Module := do
  let planner := module.planner
  let tag ← planner.elementTag constant.2
  return { module with planner := { planner with elements := Entries.put planner.elements constant.1 tag } }

def readStatement (directory : String) (module : Module) : Statement → Except ModuleFault Module
  | .imports specifiers source =>
    if source = module.planner.runtimeModule then
      specifiers.foldlM (fun module specifier => module.importConstructor source specifier) module
    else specifiers.foldlM (fun module specifier => module.importDefault directory source specifier) module
  | .constants declarations => declarations.foldlM declare module
  | .exports value => .ok { module with definition := some value }
  | .returns _ => .error .returnOutside

/-- Reads a program whose imports are seen from a directory. -/
def ofProgram (runtimeModule directory : String) (program : Program) : Except ModuleFault Module :=
  program.foldlM (readStatement directory) { planner := { runtimeModule } }

def definition? : Code → Except ModuleFault Definition
  | .call (.identifier name) arguments =>
    if name != Constructor.component.name then Planner.refuse .componentDefinition
    else match arguments with
      | [.literal (.string name), controller, render] =>
        match controller.name? with
        | some controller => .ok ⟨name, controller, render⟩
        | none => Planner.refuse .controllerIdentifier
      | _ => .error .definitionArguments
  | _ => Planner.refuse .componentDefinition

/-- The component that a module defines, which needs its constructor and its controller. -/
def define (module : Module) : Except ModuleFault (Definition × String) := do
  match module.definition with
  | none => throw .noExport
  | some code =>
    let definition ← definition? code
    module.planner.require .component
    match Entries.get? module.defaults definition.controller with
    | none => throw (.notImported definition.controller)
    | some path => return (definition, path)

/-- The components that a module imports: all defaults but the controller. -/
def children (module : Module) (definition : Definition) : Entries String :=
  List.filter (fun entry => entry.1 != definition.controller) module.defaults

/-- The tree that a render function returns, or nothing for null. -/
def planRender (planner : Planner) : Code → Except ModuleFault (Option NodePlan)
  | .function params body => do
    match params.find? (· != slotsName) with
    | some param => throw (.renderParameter param)
    | none =>
      match body with
      | [.returns code] =>
        if code.isNull then return none
        return some (← { planner with slots := !params.isEmpty }.planNode code)
      | _ => throw .renderBody
  | _ => Planner.refuse .renderFunction

end Module

end ReactiveMarkup
