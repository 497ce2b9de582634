import ReactiveMarkup.Counting
import ReactiveMarkup.Loading.Module
import ReactiveMarkup.Machine.Basic

/-!
Loading components by path. A module is read when its component is first asked for, and so
are the components that it imports; a module that needs itself is refused.
-/

namespace ReactiveMarkup

namespace Registry

variable {Code : Type}

/-- The form of a path under which modules are kept. -/
def key (path : String) : String := Path.resolve "/" path

def addController (registry : Registry Code) (path : String) (controller : Code) : Registry Code :=
  { registry with controllers := Entries.put registry.controllers (key path) controller }

def addProgram (registry : Registry Code) (path : String) (program : Program) (directory : String) : Registry Code :=
  { registry with programs := Entries.put registry.programs (key path) ⟨program, directory⟩ }

def addComponent (registry : Registry Code) (path : String) (id : Nat) : Registry Code :=
  { registry with components := Entries.put registry.components (key path) id }

def startLoading (registry : Registry Code) (key : String) : Registry Code :=
  { registry with loading := key :: registry.loading }

def stopLoading (registry : Registry Code) (key : String) : Registry Code :=
  { registry with loading := registry.loading.erase key }

def controller (registry : Registry Code) (path : String) : Except LoadError Code :=
  match Entries.get? registry.controllers (key path) with
  | some controller => .ok controller
  | none => .error (.unknownModule path)

/-- The number of programs that are not being loaded. -/
def waiting (programs : Entries RegisteredProgram) (trail : List String) : Nat :=
  (Entries.names programs).countP fun name => !trail.contains name

theorem waiting_lt {programs : Entries RegisteredProgram} {trail : List String} {name : String}
    {registered : RegisteredProgram} (found : Entries.get? programs name = some registered)
    (fresh : ¬ trail.contains name = true) : waiting programs (name :: trail) < waiting programs trail := by
  refine countP_lt _ _ _ (fun other outside => ?_) name ?_ (by simpa using fresh) (by simp)
  · simp only [List.contains_cons, Bool.not_eq_true', Bool.or_eq_false_iff] at outside
    simpa using outside.2
  · exact List.mem_map.2 ⟨(name, registered), Entries.mem_of_get? found, rfl⟩

end Registry

namespace Machine

variable {host : Host}

/-- Steps of loading. What was loaded before a failure stays loaded. -/
abbrev Load (host : Host) := ExceptT LoadError (StateM (Machine host))

def ofModule {α : Type} (result : Except ModuleFault α) : Load host α :=
  match result with
  | .ok value => return value
  | .error fault => throw (.faulty fault)

def controllerAt (path : String) : Load host host.Code := do
  match (← get).registry.controller path with
  | .ok controller => return controller
  | .error error => throw error

def addLoaded (component : Component host.Code) : Load host Nat :=
  modifyGet fun machine =>
    (machine.components.size, { machine with components := machine.components.push component })

def componentName (id : Nat) : Load host String :=
  return ((← get).components[id]?).elim "" Component.name

/-- Loads imported components in order. -/
def loadChildren (load : String → Load host Nat) : Entries String → Load host (Entries (Nat × String))
  | [] => return []
  | (name, path) :: rest => do
    let id ← load path
    let component ← componentName id
    return (name, id, component) :: (← loadChildren load rest)

/-- The component that a program defines, with a way to load those that it imports. -/
def defineWith (load : String → Load host Nat) (program : Program) (directory : String) : Load host Nat := do
  let module ← ofModule (Module.ofProgram (← get).registry.runtimeModule directory program)
  let (definition, path) ← ofModule module.define
  let controller ← controllerAt path
  let components ← loadChildren load (module.children definition)
  let root ← ofModule (Module.planRender { module.planner with components } definition.render)
  addLoaded { name := definition.name, controller, view := .plan root }

/-- A step that is part of loading a module, which is not being loaded any more when the step is over,
however it ends. -/
def whileLoading {α : Type} (key : String) (step : Load host α) : Load host α := ExceptT.mk fun machine =>
  let (result, after) := step.run { machine with registry := machine.registry.startLoading key }
  (result, { after with registry := after.registry.stopLoading key })

/-- The component of the module at a path, while those on the trail are being loaded. -/
def loadAlong (programs : Entries RegisteredProgram) (trail : List String) (path : String) : Load host Nat := do
  match Entries.get? (← get).registry.components (Registry.key path) with
  | some id => return id
  | none =>
    match _found : Entries.get? programs (Registry.key path) with
    | none => throw (.unknownModule path)
    | some registered =>
      if _again : trail.contains (Registry.key path) = true then throw (.faulty (.circularImport path))
      else
        let id ← whileLoading (Registry.key path) (defineWith
          (fun child => loadAlong programs (Registry.key path :: trail) child) registered.program registered.directory)
        modify fun machine => { machine with registry := machine.registry.addComponent path id }
        return id
termination_by Registry.waiting programs trail
decreasing_by exact Registry.waiting_lt _found _again

def load (path : String) : Load host Nat := do
  let registry := (← get).registry
  loadAlong registry.programs registry.loading path

/-- The component of a program that is not itself registered. -/
def define (program : Program) (directory : String) : Load host Nat := defineWith load program directory

/-- Loading as a step, which never breaks off. -/
def attempt {α : Type} (loading : Load host α) : Run host (Except LoadError α) := fun machine =>
  let (result, machine) := loading.run machine
  (.done result, machine)

end Machine

end ReactiveMarkup
