import Mathlib.Logic.Relation
import ReactiveMarkup.Proofs.ComponentNumbers
import ReactiveMarkup.Proofs.LoadedModules

/-! Every generated module can be loaded where what it imports can be. Loading one child does not get
in the way of another: what can be loaded at all can still be loaded once more is known. -/

namespace ReactiveMarkup

theorem Program.mem_importSources {program : Program} {specifiers : List Specifier} {source : String}
    (member : .imports specifiers source ∈ program) : (specifiers, source) ∈ program.imports ∧ source ∈ program.importSources := by
  have inside : (specifiers, source) ∈ program.imports := List.mem_filterMap.2 ⟨_, member, rfl⟩
  exact ⟨inside, List.mem_map.2 ⟨_, inside, rfl⟩⟩

namespace Module

open Planner (Accepted)

/-! Reading generated modules. -/

/-- A module that has its constructors. Nothing but an import from the runtime module changes them. -/
def Supplied (runtimeModule : String) (constructors : List Constructor) (module : Module) : Prop :=
  module.planner.runtimeModule = runtimeModule ∧ module.planner.constructors = constructors

/-- A statement that is accepted wherever the constructors are there. -/
def Readable (runtimeModule : String) (constructors : List Constructor) (directory : String) (statement : Statement) : Prop :=
  ∀ module, Supplied runtimeModule constructors module →
    ∃ next, readStatement directory module statement = .ok next ∧ Supplied runtimeModule constructors next

section

variable {runtimeModule directory : String} {constructors : List Constructor}

theorem accepted_readable {statements : List Statement} (each : ∀ statement ∈ statements, Readable runtimeModule constructors directory statement)
    {module : Module} (supplied : Supplied runtimeModule constructors module) :
    Accepted (statements.foldlM (readStatement directory) module) := by
  induction statements generalizing module with
  | nil => exact ⟨_, rfl⟩
  | cons statement rest ih =>
    obtain ⟨first, others⟩ := List.forall_mem_cons.1 each
    obtain ⟨next, isNext, supplied⟩ := first module supplied
    rw [List.foldlM_cons]
    exact Planner.accepted_bind.2 ⟨next, isNext, ih others supplied⟩

theorem readable_effects (source : String) : Readable runtimeModule constructors directory (.imports [] source) := by
  intro module supplied
  refine ⟨module, ?_, supplied⟩
  rw [readStatement]
  split <;> rfl

theorem readable_default (name : String) {source : String} (apart : source ≠ runtimeModule) :
    Readable runtimeModule constructors directory (.imports [.default name] source) := by
  rintro module ⟨rfl, rfl⟩
  rw [readStatement, if_neg apart]
  exact ⟨_, rfl, rfl, rfl⟩

theorem readable_constants (elements : List (String × String)) (known : elements ≠ [] → .element ∈ constructors) :
    Readable runtimeModule constructors directory
      (.constants (elements.map fun entry => (entry.2, Lowering.construct .element [.string entry.1]))) := by
  intro module supplied
  rw [readStatement]
  induction elements generalizing module with
  | nil => exact ⟨module, rfl, supplied⟩
  | cons entry rest ih =>
    have member := known (List.cons_ne_nil _ _)
    have required : module.planner.require .element = .ok () := if_pos (List.contains_iff_mem.2 (supplied.2 ▸ member))
    have isTag : module.planner.elementTag (Lowering.construct .element [.string entry.1]) = .ok entry.1 := by
      simp only [Lowering.construct, Code.string, Planner.elementTag, required]
      rfl
    rw [List.map_cons, List.foldlM_cons, declare, isTag]
    exact ih (fun _ => member) _ supplied

theorem readable_exports (code : Code) : Readable runtimeModule constructors directory (.exports code) :=
  fun _ supplied => ⟨_, rfl, supplied⟩

end

/-- The numbers of components do not decide whether a tree is planned. -/
theorem accepted_planRender {planner : Planner} {components others : Entries (Nat × String)} {render : Code}
    (same : Entries.names others = Entries.names components) (accepted : Accepted (planRender { planner with components } render)) :
    Accepted (planRender { planner with components := others } render) := by
  have alike (slots : Bool) : Planner.Alike { planner with components, slots } { planner with components := others, slots } := by
    refine ⟨rfl, rfl, rfl, fun name => ?_, rfl⟩
    rw [Bool.eq_iff_iff, Entries.isSome_get?_iff, Entries.isSome_get?_iff, same]
  unfold planRender at accepted ⊢
  split at accepted
  next params body =>
    dsimp only at accepted ⊢
    split at accepted
    next => exact nomatch accepted
    next =>
      split at accepted
      next code =>
        split at accepted
        next null =>
          rw [if_pos null]
          exact accepted
        next some =>
          rw [if_neg some]
          exact accepted.bind (Planner.planNode_alike (alike _) code) fun _ _ _ _ _ => ⟨_, rfl⟩
      next => exact nomatch accepted
  next => exact nomatch accepted

section

variable {setting : Lowering.Setting} {files : ComponentFiles} {resolver : ComponentFiles → String} {root : Option Code}
  {used : Lowering.Used}

/-- A generated module can be read if nothing but the constructors comes from the runtime module. -/
theorem accepted_assemble (directory : String) (noted : Lowering.Noted setting used)
    (apart : setting.config.runtimeModule ∉ (Lowering.assemble setting files resolver root used).importSources.tail) :
    Accepted (ofProgram setting.config.runtimeModule directory (Lowering.assemble setting files resolver root used)) := by
  rw [Lowering.assemble] at apart
  rw [ofProgram, Lowering.assemble]
  simp only [List.append_assoc, List.cons_append, List.nil_append] at apart ⊢
  rw [List.foldlM_cons, readStatement, if_pos rfl, Constructor.names, importConstructors]
  refine accepted_readable (fun statement member => ?_) ⟨rfl, rfl⟩
  have differs {specifiers : List Specifier} {source : String} (same : statement = .imports specifiers source) :
      source ≠ setting.config.runtimeModule := by
    rintro rfl
    exact apart (Program.mem_importSources (same ▸ member)).2
  rcases List.mem_append.1 member with style | member
  · obtain ⟨path, _, rfl⟩ := Option.map_eq_some_iff.1 (Option.mem_toList.1 style)
    exact readable_effects _
  rcases List.mem_cons.1 member with rfl | member
  · exact readable_default _ (differs rfl)
  rcases List.mem_append.1 member with child | member
  · obtain ⟨entry, _, isChild⟩ := List.mem_filterMap.1 child
    obtain ⟨files, _, rfl⟩ := Option.map_eq_some_iff.1 isChild
    exact readable_default _ (differs rfl)
  rcases List.mem_append.1 member with constants | member
  · split at constants
    next =>
      cases List.mem_singleton.1 constants
      refine readable_constants _ fun some => ?_
      rw [List.mem_append, List.mem_reverse, List.mem_filter]
      exact .inl ⟨Machine.mem_all _, List.contains_iff_mem.2 (noted.element some)⟩
    next => cases constants
  · cases List.mem_singleton.1 member
    exact readable_exports _

end

end Module

namespace Machine

open Planner (Accepted)

variable {host : Host}

/-! What can be loaded. -/

theorem run_load_bind {α β : Type} {step : Load host α} {next : α → Load host β} {machine between : Machine host} {value : α}
    (isStep : step.run machine = (.ok value, between)) : (step >>= next).run machine = (next value).run between := by
  rw [ExceptT.run_bind]
  change StateT.run (_ >>= _) machine = _
  rw [StateT.run_bind, show StateT.run step.run machine = _ from isStep]
  rfl

/-- What a program needs but its children to define a component. The code must be accepted whatever
numbers the children have. -/
def Definable {Code : Type} (registry : Registry Code) (program : Program) (directory : String) (children : Entries String) : Prop :=
  ∃ (module : Module) (definition : Definition) (path : String),
    Module.ofProgram registry.runtimeModule directory program = .ok module ∧ module.define = .ok (definition, path) ∧
    Accepted (registry.controller path) ∧ children = module.children definition ∧
    ∀ components, Entries.names components = Entries.names children →
      Accepted (Module.planRender { module.planner with components } definition.render)

/-- Modules that can be loaded from what is registered: the component is known, or there is a program
that defines one from children that can be loaded. A module that needs itself cannot, nor one that is
being loaded. -/
inductive Loadable {Code : Type} (registry : Registry Code) : String → Prop where
  | known {key : String} {id : Nat} (found : Entries.get? registry.components key = some id) : Loadable registry key
  | registered {key : String} {registered : RegisteredProgram} {children : Entries String}
    (found : Entries.get? registry.programs key = some registered) (fresh : key ∉ registry.loading)
    (definable : Definable registry registered.program registered.directory children)
    (loadable : ∀ entry ∈ children, Loadable registry (Registry.key entry.2)) : Loadable registry key

/-- A module that is not known yet imports another. -/
def Imports {Code : Type} (registry : Registry Code) (key child : String) : Prop :=
  Entries.get? registry.components key = none ∧ ∃ registered children,
    Entries.get? registry.programs key = some registered ∧
    Definable registry registered.program registered.directory children ∧ ∃ entry ∈ children, child = Registry.key entry.2

theorem Definable.children_eq {Code : Type} {registry : Registry Code} {program : Program} {directory : String} {one two : Entries String}
    (first : Definable registry program directory one) (second : Definable registry program directory two) : two = one := by
  obtain ⟨module, _, _, isModule, isDefinition, _, rfl, _⟩ := first
  obtain ⟨other, _, _, isOther, isOtherDefinition, _, rfl, _⟩ := second
  cases isModule.symm.trans isOther
  cases isDefinition.symm.trans isOtherDefinition
  rfl

/-- The way down from a module that can be loaded does not come back to it. -/
theorem Loadable.acyclic {Code : Type} {registry : Registry Code} {key : String} (loadable : Loadable registry key) :
    ¬ Relation.TransGen (Imports registry) key key := by
  induction loadable with
  | known found =>
    intro circle
    obtain ⟨_, ⟨unknown, _⟩, _⟩ := Relation.TransGen.head'_iff.1 circle
    exact absurd (unknown.symm.trans found) nofun
  | @registered key registered children found _ definable _ ih =>
    intro circle
    obtain ⟨child, first, rest⟩ := Relation.TransGen.head'_iff.1 circle
    obtain ⟨_, other, others, isOther, isDefinable, entry, member, rfl⟩ := id first
    cases found.symm.trans isOther
    cases definable.children_eq isDefinable
    exact ih entry member (Relation.TransGen.tail' rest first)

/-- Every component that is known under a path exists. -/
def Stocked (machine : Machine host) : Prop :=
  ∀ key id, Entries.get? machine.registry.components key = some id → ∃ component, machine.components[id]? = some component

/-- A component that a program defines from components that are known. -/
def Defined (machine : Machine host) (registered : RegisteredProgram) (component : Component host.Code) : Prop :=
  ∃ (module : Module) (definition : Definition) (path : String) (controller : host.Code) (components : Entries (Nat × String))
    (root : Option NodePlan),
    Module.ofProgram machine.registry.runtimeModule registered.directory registered.program = .ok module ∧
    module.define = .ok (definition, path) ∧ machine.registry.controller path = .ok controller ∧
    LoadedFrom machine.registry (module.children definition) components ∧
    (∀ entry ∈ components, ∃ child, machine.components[entry.2.1]? = some child ∧ entry.2.2 = child.name) ∧
    Module.planRender { module.planner with components } definition.render = .ok root ∧
    component = { name := definition.name, controller, view := .plan root }

/-- A component is what the program that is registered under a key defines. -/
def Instantiated (machine : Machine host) (key : String) (id : Nat) : Prop :=
  ∃ registered component, Entries.get? machine.registry.programs key = some registered ∧
    machine.components[id]? = some component ∧ Defined machine registered component

/-- What loading keeps at all times: programs, controllers and what was known. -/
structure Extends (before after : Machine host) : Prop where
  keeps : KeepsLoaded before after
  runtimeModule : after.registry.runtimeModule = before.registry.runtimeModule
  programs : after.registry.programs = before.registry.programs
  components : ∀ (id : Nat) component, before.components[id]? = some component → after.components[id]? = some component

/-- What a step of loading keeps. Only modules that could be loaded become known, each as the component
that its program defines. -/
structure Grown (before after : Machine host) : Prop extends Extends before after where
  loading : after.registry.loading = before.registry.loading
  loadable : ∀ key id, Entries.get? after.registry.components key = some id → Loadable before.registry key
  stocked : Stocked before → Stocked after
  instantiated : Stocked before → ∀ key id, Entries.get? after.registry.components key = some id →
    Entries.get? before.registry.components key = some id ∨ Instantiated after key id

section

variable {first second third before after machine : Machine host}

theorem Extends.refl (machine : Machine host) : Extends machine machine := ⟨.refl machine, rfl, rfl, fun _ _ found => found⟩

theorem Extends.trans (one : Extends first second) (two : Extends second third) : Extends first third :=
  ⟨one.keeps.trans two.keeps, two.runtimeModule.trans one.runtimeModule, two.programs.trans one.programs,
    fun id component found => two.components id component (one.components id component found)⟩

theorem Extends.controller (grown : Extends before after) (path : String) :
    after.registry.controller path = before.registry.controller path := by
  rw [Registry.controller, Registry.controller, grown.keeps.controllers]

theorem Definable.transfer (grown : Extends before after) {program : Program} {directory : String}
    {children : Entries String} :
    Definable after.registry program directory children ↔ Definable before.registry program directory children := by
  rw [Definable, Definable, grown.runtimeModule]
  simp only [grown.controller]

theorem LoadedFrom.mono (grown : Extends before after) {imports : Entries String} {components : Entries (Nat × String)}
    (loaded : LoadedFrom before.registry imports components) : LoadedFrom after.registry imports components :=
  List.Forall₂.imp (fun _ _ known => ⟨known.1, grown.keeps.components _ _ known.2⟩) loaded

theorem Defined.mono (grown : Extends before after) {registered : RegisteredProgram} {component : Component host.Code}
    (defined : Defined before registered component) : Defined after registered component := by
  obtain ⟨module, definition, path, controller, components, root, isModule, isDefinition, isController, loaded, titled, isRoot, rfl⟩ := defined
  refine ⟨module, definition, path, controller, components, root, by rwa [grown.runtimeModule], isDefinition,
    (grown.controller path).trans isController, loaded.mono grown, fun entry member => ?_, isRoot, rfl⟩
  obtain ⟨child, found, title⟩ := titled entry member
  exact ⟨child, grown.components _ _ found, title⟩

theorem Instantiated.mono (grown : Extends before after) {key : String} {id : Nat} (instantiated : Instantiated before key id) :
    Instantiated after key id := by
  obtain ⟨registered, component, found, isComponent, defined⟩ := instantiated
  exact ⟨registered, component, by rwa [grown.programs], grown.components _ _ isComponent, defined.mono grown⟩

/-- What can be loaded later could be loaded before, unless less was being loaded then. -/
theorem Loadable.of_later (grown : Extends before after) (loading : ∀ name ∈ before.registry.loading, name ∈ after.registry.loading)
    (known : ∀ key id, Entries.get? after.registry.components key = some id → Loadable before.registry key) {key : String}
    (loadable : Loadable after.registry key) : Loadable before.registry key := by
  induction loadable with
  | known found => exact known _ _ found
  | registered found fresh definable _ ih =>
    rw [grown.programs] at found
    exact .registered found (fun inside => fresh (loading _ inside)) ((Definable.transfer grown).1 definable) ih

theorem Grown.refl (machine : Machine host) : Grown machine machine :=
  ⟨.refl machine, rfl, fun _ _ found => .known found, id, fun _ _ _ => .inl⟩

theorem Grown.loadable_before (grown : Grown before after) {key : String} (loadable : Loadable after.registry key) :
    Loadable before.registry key :=
  loadable.of_later grown.toExtends (fun _ inside => grown.loading ▸ inside) grown.loadable

theorem Grown.trans (one : Grown first second) (two : Grown second third) : Grown first third := by
  refine ⟨one.toExtends.trans two.toExtends, two.loading.trans one.loading,
    fun key id found => one.loadable_before (two.loadable key id found), fun stocked => two.stocked (one.stocked stocked),
    fun stocked key id found => ?_⟩
  rcases two.instantiated (one.stocked stocked) key id found with known | instantiated
  · exact (one.instantiated stocked key id known).imp_right fun instantiated => instantiated.mono two.toExtends
  · exact .inr instantiated

/-- A component more, which is not known under a path. -/
theorem Grown.push (machine : Machine host) (component : Component host.Code) :
    Grown machine { machine with components := machine.components.push component } := by
  have kept (id : Nat) (other : Component host.Code) (found : machine.components[id]? = some other) :
      (machine.components.push component)[id]? = some other := by
    rw [Array.getElem?_push, if_neg, found]
    rintro rfl
    simp at found
  refine ⟨⟨⟨fun _ _ found => found, rfl⟩, rfl, rfl, kept⟩, rfl, fun _ _ found => .known found, fun stocked key id found => ?_, fun _ _ _ => .inl⟩
  obtain ⟨other, isOther⟩ := stocked key id found
  exact ⟨other, kept id other isOther⟩

abbrev starting (machine : Machine host) (key : String) : Machine host :=
  { machine with registry := machine.registry.startLoading key }

abbrev stopping (machine : Machine host) (key : String) : Machine host :=
  { machine with registry := machine.registry.stopLoading key }

theorem extends_starting (machine : Machine host) (key : String) : Extends machine (starting machine key) :=
  ⟨⟨fun _ _ found => found, rfl⟩, rfl, rfl, fun _ _ found => found⟩

theorem extends_stopping (machine : Machine host) (key : String) : Extends machine (stopping machine key) :=
  ⟨⟨fun _ _ found => found, rfl⟩, rfl, rfl, fun _ _ found => found⟩

theorem within_starting {trail : List String} (within : ∀ name ∈ machine.registry.loading, name ∈ trail) (key : String) :
    ∀ name ∈ (starting machine key).registry.loading, name ∈ key :: trail :=
  List.forall_mem_cons.2 ⟨List.mem_cons_self, fun name inside => List.mem_cons_of_mem _ (within name inside)⟩

theorem loadable_of_starting {key : String} (machine : Machine host) {other : String} (loadable : Loadable (starting machine key).registry other) :
    Loadable machine.registry other :=
  loadable.of_later (extends_starting machine key) (fun _ inside => List.mem_cons_of_mem _ inside) fun _ _ found => .known found

theorem Grown.whileLoading {key : String} (grown : Grown (starting machine key) after) : Grown machine (stopping after key) := by
  refine ⟨(extends_starting machine key).trans (grown.toExtends.trans (extends_stopping after key)), ?_,
    fun other id found => loadable_of_starting machine (grown.loadable other id found), fun stocked => grown.stocked stocked,
    fun stocked other id found => (grown.instantiated stocked other id found).imp_right fun instantiated => ?_⟩
  · show after.registry.loading.erase key = _
    rw [grown.loading]
    exact List.erase_cons_head ..
  · exact instantiated.mono (extends_stopping after key)

/-! One step after another. -/

theorem run_load_bind_of_error {α β : Type} {step : Load host α} {next : α → Load host β} {between : Machine host} {problem : LoadError}
    (isStep : step.run machine = (.error problem, between)) : (step >>= next).run machine = (.error problem, between) := by
  rw [ExceptT.run_bind]
  change StateT.run (_ >>= _) machine = _
  rw [StateT.run_bind, show StateT.run step.run machine = _ from isStep]
  rfl

theorem grown_bind {α β : Type} {step : Load host α} {next : α → Load host β} (first : Grown machine (step.run machine).2)
    (rest : ∀ value between, step.run machine = (.ok value, between) → Grown machine between →
      Grown between ((next value).run between).2) : Grown machine ((step >>= next).run machine).2 := by
  cases ran : step.run machine with
  | mk result between =>
    rw [ran] at first
    cases result with
    | error problem => rwa [run_load_bind_of_error ran]
    | ok value =>
      rw [run_load_bind ran]
      exact first.trans (rest value between ran first)

/-- A step that only looks. -/
theorem grown_bind_of_look {α β : Type} {step : Load host α} {next : α → Load host β} (looks : (step.run machine).2 = machine)
    (rest : ∀ value, step.run machine = (.ok value, machine) → Grown machine ((next value).run machine).2) :
    Grown machine ((step >>= next).run machine).2 := by
  have first : Grown machine (step.run machine).2 := by
    rw [looks]
    exact .refl machine
  refine grown_bind first fun value between ran _ => ?_
  have same : between = machine := by rw [← looks, ran]
  exact same ▸ rest value (same ▸ ran)

theorem ofModule_looks {α : Type} (result : Except ModuleFault α) : ((ofModule result : Load host α).run machine).2 = machine := by
  cases result <;> rfl

theorem controllerAt_looks (path : String) : ((controllerAt path : Load host host.Code).run machine).2 = machine := by
  rw [controllerAt, run_load_bind (rfl : (get : Load host (Machine host)).run machine = _)]
  split <;> rfl

end

/-! Loading what can be loaded. -/

section

variable {load : String → Load host Nat} {program : Program} {directory : String} {machine after : Machine host}

theorem names_loadChildren {imports : Entries String} {components : Entries (Nat × String)}
    (done : (loadChildren load imports).run machine = (.ok components, after)) : Entries.names components = Entries.names imports := by
  induction imports generalizing machine components with
  | nil =>
    cases done
    rfl
  | cons entry rest ih =>
    obtain ⟨name, path⟩ := entry
    rw [loadChildren] at done
    obtain ⟨id, between, _, done⟩ := exists_of_load_bind done
    obtain ⟨title, _, isTitle, done⟩ := exists_of_load_bind done
    cases isTitle
    obtain ⟨others, later, areOthers, done⟩ := exists_of_load_bind done
    cases done
    exact congrArg (name :: ·) (ih areOthers)

/-- A program that defines a component lacks nothing but its children. -/
theorem definable_of_defineWith {id : Nat} (done : (defineWith load program directory).run machine = (.ok id, after)) :
    ∃ children components loaded, Definable machine.registry program directory children ∧
      (loadChildren load children).run machine = (.ok components, loaded) ∧ after.registry = loaded.registry := by
  obtain ⟨module, definition, path, controller, components, root, loaded, isModule, isDefinition, isController, areChildren, isRoot, -, rfl⟩ :=
    defineWith_cases done
  refine ⟨_, components, loaded, ⟨module, definition, path, isModule, isDefinition, ⟨controller, isController⟩, rfl, fun others same => ?_⟩,
    areChildren, rfl⟩
  exact Module.accepted_planRender (same.trans (names_loadChildren areChildren).symm) ⟨root, isRoot⟩

theorem defineWith_of_definable {children : Entries String} {components : Entries (Nat × String)} {loaded : Machine host}
    (definable : Definable machine.registry program directory children)
    (areChildren : (loadChildren load children).run machine = (.ok components, loaded)) :
    ∃ id after, (defineWith load program directory).run machine = (.ok id, after) ∧ after.registry = loaded.registry := by
  obtain ⟨module, definition, path, isModule, isDefinition, ⟨controller, isController⟩, rfl, planned⟩ := definable
  obtain ⟨root, isRoot⟩ := planned components (names_loadChildren areChildren)
  have isControlled : (controllerAt path : Load host host.Code).run machine = (.ok controller, machine) := by
    rw [controllerAt, run_load_bind (rfl : (get : Load host (Machine host)).run machine = _), isController]
    rfl
  rw [defineWith, run_load_bind (rfl : (get : Load host (Machine host)).run machine = _), isModule]
  dsimp only [ofModule]
  rw [pure_bind, isDefinition]
  dsimp only
  rw [pure_bind]
  dsimp only
  rw [run_load_bind isControlled, run_load_bind areChildren, isRoot]
  exact ⟨_, _, rfl, rfl⟩

/-- A way to load modules, while those on the trail are being loaded, that makes known what could be
loaded, and nothing else. -/
def LoadsGrown (programs : Entries RegisteredProgram) (trail : List String) (load : String → Load host Nat) : Prop :=
  ∀ path machine, machine.registry.programs = programs → (∀ name ∈ machine.registry.loading, name ∈ trail) →
    Grown machine ((load path).run machine).2

variable {programs : Entries RegisteredProgram} {trail : List String}

theorem grown_loadChildren (grows : LoadsGrown programs trail load) (imports : Entries String)
    (same : machine.registry.programs = programs) (within : ∀ name ∈ machine.registry.loading, name ∈ trail) :
    Grown machine ((loadChildren load imports).run machine).2 := by
  induction imports generalizing machine with
  | nil => exact .refl machine
  | cons entry rest ih =>
    obtain ⟨name, path⟩ := entry
    rw [loadChildren]
    refine grown_bind (grows path machine same within) fun id between _ grown => ?_
    refine grown_bind_of_look rfl fun title _ => ?_
    refine grown_bind (ih (grown.programs.trans same) (by rwa [grown.loading])) fun _ later _ _ => .refl later

/-- The components that imports were loaded to have the names that they were loaded with. -/
theorem titled_loadChildren (grows : LoadsGrown programs trail load) (loads : Loads load) {imports : Entries String}
    {components : Entries (Nat × String)} (same : machine.registry.programs = programs)
    (within : ∀ name ∈ machine.registry.loading, name ∈ trail) (stocked : Stocked machine)
    (done : (loadChildren load imports).run machine = (.ok components, after)) :
    ∀ entry ∈ components, ∃ child, after.components[entry.2.1]? = some child ∧ entry.2.2 = child.name := by
  induction imports generalizing machine components with
  | nil =>
    cases done
    exact nofun
  | cons entry rest ih =>
    obtain ⟨name, path⟩ := entry
    rw [loadChildren] at done
    obtain ⟨id, between, isFirst, done⟩ := exists_of_load_bind done
    obtain ⟨title, _, isTitle, done⟩ := exists_of_load_bind done
    cases isTitle
    obtain ⟨others, later, areOthers, done⟩ := exists_of_load_bind done
    cases done
    have grown : Grown machine between := by
      have grown := grows path machine same within
      rwa [isFirst] at grown
    have sameBetween := grown.programs.trans same
    have withinBetween : ∀ name ∈ between.registry.loading, name ∈ trail := by rwa [grown.loading]
    have grownLater : Grown between after := by
      have grown := grown_loadChildren grows rest sameBetween withinBetween
      rwa [areOthers] at grown
    refine List.forall_mem_cons.2 ⟨?_, ih sameBetween withinBetween (grown.stocked stocked) areOthers⟩
    obtain ⟨child, found⟩ := grown.stocked stocked _ _ (loads path machine id between isFirst).2
    exact ⟨child, grownLater.components _ _ found, by simp [found]⟩

theorem grown_defineWith (grows : LoadsGrown programs trail load) (program : Program) (directory : String)
    (same : machine.registry.programs = programs) (within : ∀ name ∈ machine.registry.loading, name ∈ trail) :
    Grown machine ((defineWith load program directory).run machine).2 := by
  rw [defineWith]
  refine grown_bind_of_look rfl fun _ _ => grown_bind_of_look (ofModule_looks _) fun module _ => ?_
  refine grown_bind_of_look (ofModule_looks _) fun definition _ => grown_bind_of_look (controllerAt_looks _) fun controller _ => ?_
  refine grown_bind (grown_loadChildren grows _ same within) fun components loaded _ _ => ?_
  exact grown_bind_of_look (ofModule_looks _) fun root _ => .push loaded _

end

/-- A module that becomes known: its program has defined a component, and it was not known, nor
became known while it was being loaded. -/
theorem grown_known {load : String → Load host Nat} {programs : Entries RegisteredProgram} {trail : List String} {machine inside : Machine host}
    {path : String} {registered : RegisteredProgram} {id : Nat} (grows : LoadsGrown programs (Registry.key path :: trail) load) (loads : Loads load)
    (same : machine.registry.programs = programs) (within : ∀ name ∈ machine.registry.loading, name ∈ trail)
    (unknown : Entries.get? machine.registry.components (Registry.key path) = none)
    (isRegistered : Entries.get? programs (Registry.key path) = some registered) (fresh : Registry.key path ∉ trail)
    (isDefined : (defineWith load registered.program registered.directory).run (starting machine (Registry.key path)) = (.ok id, inside)) :
    Grown machine { stopping inside (Registry.key path) with
      registry := (stopping inside (Registry.key path)).registry.addComponent path id } := by
  have withinStarting := within_starting within (Registry.key path)
  have sameStarting : (starting machine (Registry.key path)).registry.programs = programs := same
  obtain ⟨module, definition, source, controller, components, root, loaded, isModule, isDefinition, isController, areChildren, isRoot, rfl, rfl⟩ :=
    defineWith_cases isDefined
  have grownLoaded : Grown (starting machine (Registry.key path)) loaded := by
    have grown := grown_loadChildren grows (module.children definition) sameStarting withinStarting
    rwa [areChildren] at grown
  have grown := (grownLoaded.trans (.push loaded { name := definition.name, controller, view := .plan root })).whileLoading
  obtain ⟨_, loadedFrom⟩ := loadChildren_keeps loads areChildren
  -- the module is being loaded, so that none of its children could have made it known
  have unknownLoaded : Entries.get? loaded.registry.components (Registry.key path) = none := by
    cases known : Entries.get? loaded.registry.components (Registry.key path) with
    | none => rfl
    | some other =>
      cases grownLoaded.loadable _ _ known with
      | known found => exact absurd (unknown.symm.trans found) nofun
      | registered _ apart => exact absurd (List.mem_cons_self ..) apart
  have later (key : String) (number : Nat) : Entries.get? (Entries.put loaded.registry.components (Registry.key path) loaded.components.size) key =
      some number ↔ if key = Registry.key path then loaded.components.size = number else Entries.get? loaded.registry.components key = some number := by
    rw [Entries.get?_put]
    split
    · exact Option.some_inj
    · rfl
  have isLoadable : Loadable machine.registry (Registry.key path) := by
    obtain ⟨children, others, between, definable, areOthers, _⟩ := definable_of_defineWith isDefined
    have grownBetween : Grown (starting machine (Registry.key path)) between := by
      have grown := grown_loadChildren grows children sameStarting withinStarting
      rwa [areOthers] at grown
    refine .registered (same ▸ isRegistered) (fun member => fresh (within _ member)) definable fun entry member => ?_
    obtain ⟨number, _, _, found⟩ := (loadChildren_keeps loads areOthers).2.exists_mem (show (entry.1, entry.2) ∈ children from member)
    exact loadable_of_starting machine (grownBetween.loadable _ _ found)
  have extendsAll : Extends loaded { stopping { loaded with components := loaded.components.push { name := definition.name, controller, view := .plan root } } (Registry.key path) with
      registry := (stopping { loaded with components := loaded.components.push { name := definition.name, controller, view := .plan root } } (Registry.key path)).registry.addComponent path loaded.components.size } := by
    refine ⟨⟨fun key number found => (later key number).2 ?_, rfl⟩, rfl, rfl, (Grown.push loaded _).components⟩
    rw [if_neg, found]
    rintro rfl
    exact absurd (unknownLoaded.symm.trans found) nofun
  refine ⟨⟨⟨fun key number found => (later key number).2 ?_, grown.keeps.controllers⟩, grown.runtimeModule, grown.programs, grown.components⟩,
    grown.loading, fun key number found => ?_, fun stocked key number found => ?_, fun stocked key number found => ?_⟩
  · rw [if_neg, grownLoaded.keeps.components _ _ found]
    rintro rfl
    exact absurd (unknown.symm.trans found) nofun
  · have cases := (later key number).1 found
    split at cases
    next here => exact here ▸ isLoadable
    next => exact loadable_of_starting machine (grownLoaded.loadable _ _ cases)
  · have cases := (later key number).1 found
    split at cases
    next =>
      subst cases
      exact ⟨_, Array.getElem?_push_size⟩
    next =>
      obtain ⟨component, isComponent⟩ := grownLoaded.stocked stocked _ _ cases
      exact ⟨component, extendsAll.components _ _ isComponent⟩
  · have cases := (later key number).1 found
    split at cases
    next here =>
      subst here cases
      refine .inr ⟨registered, _, ?_, Array.getElem?_push_size, ?_⟩
      · show Entries.get? loaded.registry.programs _ = _
        rw [grownLoaded.programs]
        exact same ▸ isRegistered
      · have titled := titled_loadChildren grows loads sameStarting withinStarting stocked areChildren
        refine Defined.mono extendsAll ⟨module, definition, source, controller, components, root, ?_, isDefinition, ?_, loadedFrom, titled, isRoot, rfl⟩
        · rw [grownLoaded.runtimeModule]
          exact isModule
        · exact (grownLoaded.toExtends.controller source).trans isController
    next => exact (grownLoaded.instantiated stocked _ _ cases).imp_right fun instantiated => instantiated.mono extendsAll

/-- Whatever becomes known by loading could be loaded from the start, however the loading ends. -/
theorem grown_loadAlong (programs : Entries RegisteredProgram) (trail : List String) :
    LoadsGrown programs trail (loadAlong programs trail : String → Load host Nat) := by
  induction size : Registry.waiting programs trail using Nat.strong_induction_on generalizing trail with
  | _ _ ih =>
    intro path machine same within
    rw [loadAlong, run_load_bind (rfl : (get : Load host (Machine host)).run machine = _)]
    cases unknown : Entries.get? machine.registry.components (Registry.key path) with
    | some id => exact .refl machine
    | none =>
      dsimp only
      split
      next => exact .refl machine
      next registered isRegistered =>
        split
        next => exact .refl machine
        next fresh =>
          have grows := ih _ (size ▸ Registry.waiting_lt isRegistered fresh) _ rfl
          have sameStarting : (starting machine (Registry.key path)).registry.programs = programs := same
          have withinStarting := within_starting within (Registry.key path)
          cases isDefined : (defineWith (loadAlong programs (Registry.key path :: trail)) registered.program registered.directory).run
              (starting machine (Registry.key path)) with
          | mk result inside =>
            have isRead : (whileLoading (Registry.key path) (defineWith (loadAlong programs (Registry.key path :: trail)) registered.program
                registered.directory)).run machine = (result, stopping inside (Registry.key path)) := by
              rw [run_whileLoading, isDefined]
            cases result with
            | error problem =>
              rw [run_load_bind_of_error isRead]
              have grown := grown_defineWith grows registered.program registered.directory sameStarting withinStarting
              rw [isDefined] at grown
              exact grown.whileLoading
            | ok id =>
              rw [run_load_bind isRead]
              have apart : Registry.key path ∉ trail := fun member => fresh (List.contains_iff_mem.2 member)
              exact grown_known grows (loads_loadAlong _ _) same within unknown isRegistered apart isDefined

theorem grown_load (path : String) (machine : Machine host) : Grown machine ((load path : Load host Nat).run machine).2 :=
  grown_loadAlong machine.registry.programs machine.registry.loading path machine rfl fun _ inside => inside

theorem loadChildren_of_each {load : String → Load host Nat} {fits : Machine host → Prop} {machine : Machine host} {imports : Entries String}
    (each : ∀ entry ∈ imports, ∀ current, fits current → ∃ id after, (load entry.2).run current = (.ok id, after) ∧ fits after)
    (fit : fits machine) : ∃ components after, (loadChildren load imports).run machine = (.ok components, after) := by
  induction imports generalizing machine with
  | nil => exact ⟨_, _, rfl⟩
  | cons entry rest ih =>
    obtain ⟨first, others⟩ := List.forall_mem_cons.1 each
    obtain ⟨id, between, isFirst, fit⟩ := first machine fit
    obtain ⟨components, after, areOthers⟩ := ih others fit
    rw [loadChildren, run_load_bind isFirst, run_load_bind (rfl : (componentName id).run between = _), run_load_bind areOthers]
    exact ⟨_, _, rfl⟩

/-- A machine that loading from a base leads to, while no more than a trail is being loaded. -/
def OnTrail (base : Machine host) (trail : List String) (machine : Machine host) : Prop :=
  Extends base machine ∧ ∀ name ∈ machine.registry.loading, name ∈ trail

theorem OnTrail.loadAlong {base machine after : Machine host} {trail : List String} {path : String} {result : Except LoadError Nat}
    (onTrail : OnTrail base trail machine) (ran : (loadAlong base.registry.programs trail path).run machine = (result, after)) :
    OnTrail base trail after := by
  have grown := grown_loadAlong base.registry.programs trail path machine onTrail.1.programs onTrail.2
  rw [ran] at grown
  exact ⟨onTrail.1.trans grown.toExtends, by rw [grown.loading]; exact onTrail.2⟩

/-- What can be loaded is loaded, also when more is known by then. Those of the modules being loaded that
can be loaded themselves lead to it, so it is none of them. -/
theorem loadAlong_of_loadable {base : Machine host} {key : String} (loadable : Loadable base.registry key) :
    ∀ (trail : List String) (machine : Machine host) (path : String), OnTrail base trail machine → Registry.key path = key →
      (∀ other ∈ trail, other ∈ base.registry.loading ∨
        (Loadable base.registry other → Relation.TransGen (Imports base.registry) other key)) →
      ∃ id after, (loadAlong base.registry.programs trail path).run machine = (.ok id, after) ∧ OnTrail base trail after := by
  induction loadable with
  | @known key id found =>
    rintro trail machine path onTrail rfl _
    rw [loadAlong, run_load_bind (rfl : (get : Load host (Machine host)).run machine = _), onTrail.1.keeps.components _ _ found]
    exact ⟨id, machine, rfl, onTrail⟩
  | @registered key registered children found notLoading definable loadable ih =>
    rintro trail machine path onTrail rfl above
    suffices done : ∃ id after, (loadAlong base.registry.programs trail path).run machine = (.ok id, after) by
      obtain ⟨id, after, done⟩ := done
      exact ⟨id, after, done, onTrail.loadAlong done⟩
    rw [loadAlong, run_load_bind (rfl : (get : Load host (Machine host)).run machine = _)]
    cases known : Entries.get? machine.registry.components (Registry.key path) with
    | some id => exact ⟨id, machine, rfl⟩
    | none =>
      dsimp only
      split
      next unknown => exact absurd (unknown.symm.trans found) nofun
      next other isOther =>
        cases isOther.symm.trans found
        have unknown : Entries.get? base.registry.components (Registry.key path) = none := by
          cases before : Entries.get? base.registry.components (Registry.key path) with
          | none => rfl
          | some id => exact absurd ((onTrail.1.keeps.components _ _ before).symm.trans known) nofun
        have leads (entry : String × String) (member : entry ∈ children) : Imports base.registry (Registry.key path) (Registry.key entry.2) :=
          ⟨unknown, registered, children, found, definable, entry, member, rfl⟩
        have fresh : ¬ trail.contains (Registry.key path) = true := fun again =>
          have self := Loadable.registered found notLoading definable loadable
          (above _ (List.contains_iff_mem.1 again)).elim notLoading fun circle => self.acyclic (circle self)
        rw [dif_neg fresh]
        have starts : OnTrail base (Registry.key path :: trail) (starting machine (Registry.key path)) :=
          ⟨onTrail.1.trans (extends_starting machine _), within_starting onTrail.2 _⟩
        obtain ⟨components, loaded, areChildren⟩ := loadChildren_of_each
          (fun entry member current onTrail => ih entry member (Registry.key path :: trail) current entry.2 onTrail rfl
            (List.forall_mem_cons.2 ⟨.inr fun _ => .single (leads entry member),
              fun other inside => (above other inside).imp_right fun above self => (above self).tail (leads entry member)⟩)) starts
        obtain ⟨id, inside, isDefined, _⟩ := defineWith_of_definable ((Definable.transfer starts.1).2 definable) areChildren
        have isRead : (whileLoading (Registry.key path) (defineWith (loadAlong base.registry.programs (Registry.key path :: trail))
            registered.program registered.directory)).run machine = (.ok id, stopping inside (Registry.key path)) := by
          rw [run_whileLoading, isDefined]
        rw [run_load_bind isRead]
        exact ⟨_, _, rfl⟩

theorem run_load (path : String) (machine : Machine host) :
    (load path : Load host Nat).run machine = (loadAlong machine.registry.programs machine.registry.loading path).run machine := rfl

theorem loadable_of_load {path : String} {machine after : Machine host} {id : Nat} (done : (load path).run machine = (.ok id, after)) :
    Loadable machine.registry (Registry.key path) := by
  have grown := grown_load path machine
  rw [done] at grown
  exact grown.loadable _ _ (loads_load path machine id after done).2

/-! Generated modules. -/

open Lowering (Noted Fits)

section

variable {setting : Lowering.Setting} {files : ComponentFiles} {resolver : ComponentFiles → String} {root : Option Code}
  {used : Lowering.Used} {directory : String}

/-- What a module imports under names of children comes from the notes. -/
theorem mem_children {module : Module} {path : String} {entry : String × String}
    (defaults : module.defaults = (Module.childPaths setting files resolver directory used).foldl
      (fun defaults entry => Entries.put defaults entry.1 entry.2) [(Lowering.controllerName, path)])
    (member : entry ∈ module.children (Module.exportedDefinition files root used)) :
    entry ∈ Module.childPaths setting files resolver directory used ∧ entry.1 ≠ Lowering.controllerName := by
  obtain ⟨inside, apart⟩ := List.mem_filter.1 member
  have other : entry.1 ≠ Lowering.controllerName := bne_iff_ne.1 apart
  rw [defaults] at inside
  refine ⟨(Entries.mem_of_mem_foldl_put inside).resolve_left fun isController => ?_, other⟩
  exact other (congrArg Prod.fst (List.mem_singleton.1 isController))

/-- Each child that is used is imported under its variable, be it that of another one too. -/
theorem mem_names_children (root : Option Code) {module : Module} {path name : String} (noted : Noted setting used)
    (defaults : module.defaults = (Module.childPaths setting files resolver directory used).foldl
      (fun defaults entry => Entries.put defaults entry.1 entry.2) [(Lowering.controllerName, path)])
    (found : name ∈ used.components.map (·.2)) :
    name ∈ Entries.names (module.children (Module.exportedDefinition files root used)) := by
  rw [← names_childPaths files resolver directory noted] at found
  have isDefault := Entries.isSome_get?_foldl_put [(Lowering.controllerName, path)] (.inr found)
  rw [← defaults, Entries.isSome_get?_iff] at isDefault
  obtain ⟨entry, member, rfl⟩ := List.mem_map.1 isDefault
  refine List.mem_map.2 ⟨entry, List.mem_filter.2 ⟨member, bne_iff_ne.2 ?_⟩, rfl⟩
  intro same
  rw [show entry.1 = Lowering.controllerName from same] at found
  exact notMem_controller files resolver directory noted found

theorem mem_imports_controller : ([.default Lowering.controllerName], Path.relative files.directory files.controller) ∈
    (Lowering.assemble setting files resolver root used).imports := by
  refine (Program.mem_importSources ?_).1
  simp only [Lowering.assemble, List.mem_append, List.mem_singleton, true_or, or_true]

theorem mem_imports_child {tag name : String} {child : ComponentFiles} (isUsed : (tag, name) ∈ used.components)
    (isChild : Entries.get? setting.siblings tag = some child) :
    ([.default name], Path.relative files.directory (resolver child)) ∈ (Lowering.assemble setting files resolver root used).imports := by
  have member : Statement.imports [.default name] (Path.relative files.directory (resolver child)) ∈
      used.components.filterMap fun entry => (Entries.get? setting.siblings entry.1).map fun child =>
        Statement.imports [.default entry.2] (Path.relative files.directory (resolver child)) :=
    List.mem_filterMap.2 ⟨(tag, name), isUsed, by rw [isChild]; rfl⟩
  refine (Program.mem_importSources ?_).1
  simp only [Lowering.assemble, List.mem_append]
  exact .inl (.inl (.inr member))

/-- A generated module lacks nothing but its controller and its children. -/
theorem definable_assemble {formed : Expression → Prop} {tight : Prop} {markup : List Markup} {registry : Registry host.Code}
    (laid : Markup.Laid formed tight markup) (lowered : (Lowering.siblings (Lowering.nodes setting markup)).run {} = .ok (root, used))
    (same : registry.runtimeModule = setting.config.runtimeModule)
    (apart : setting.config.runtimeModule ∉ (Lowering.assemble setting files resolver root used).importSources.tail)
    (controller : Accepted (registry.controller (Path.resolve directory (Path.relative files.directory files.controller)))) :
    ∃ children, Definable registry (Lowering.assemble setting files resolver root used) directory children ∧
      ∀ entry ∈ children, entry ∈ Module.childPaths setting files resolver directory used ∧ entry.1 ≠ Lowering.controllerName := by
  have noted : Noted setting used := (Lowering.lowers_root { runtimeModule := "" } (fun _ => 0) laid lowered).1.noted (noted_start setting)
  obtain ⟨module, isModule⟩ := Module.accepted_assemble directory noted apart
  obtain ⟨constructors, elements, defaults, exported⟩ := Module.ofProgram_assemble noted isModule
  have isController : Entries.get? module.defaults Lowering.controllerName =
      some (Path.resolve directory (Path.relative files.directory files.controller)) := by
    rw [defaults, Entries.get?_foldl_put_of_notMem (notMem_controller files resolver directory noted), Entries.get?_cons, if_pos rfl]
  have required : module.planner.require .component = .ok () := by
    refine if_pos (List.contains_iff_mem.2 ?_)
    rw [constructors, List.mem_reverse, List.mem_filter]
    exact ⟨mem_all _, List.contains_iff_mem.2 noted.component⟩
  have isDefinition : module.define = .ok (Module.exportedDefinition files root used,
      Path.resolve directory (Path.relative files.directory files.controller)) := by
    have isExport : Module.definition? (Lowering.construct .component [.string files.name, .identifier Lowering.controllerName,
        (Module.exportedDefinition files root used).render]) = .ok (Module.exportedDefinition files root used) := rfl
    rw [Module.define, exported]
    simp only [isExport, bind, Except.bind, required]
    rw [show (Module.exportedDefinition files root used).controller = Lowering.controllerName from rfl, isController]
    rfl
  refine ⟨_, ⟨module, Module.exportedDefinition files root used, _, same ▸ isModule, isDefinition, controller, rfl, fun components names => ?_⟩,
    fun entry member => mem_children defaults member⟩
  let component (tag : String) : Nat := ((Entries.get? components (Text.sanitize (Name.ofTag tag))).map (·.1)).getD 0
  have fits : Fits { module.planner with components, slots := used.slots } component used := by
    refine fits_noted noted constructors elements id (fun name member => ?_) fun tag name found => ?_
    · rw [names] at member
      obtain ⟨entry, inside, rfl⟩ := List.mem_map.1 member
      rw [← names_childPaths files resolver directory noted]
      exact List.mem_map.2 ⟨entry, (mem_children defaults inside).1, rfl⟩
    · have isName : name = Text.sanitize (Name.ofTag tag) := (noted.children _ (Entries.mem_of_get? found)).2.2
      have member : name ∈ Entries.names (module.children (Module.exportedDefinition files root used)) :=
        mem_names_children root noted defaults (List.mem_map.2 ⟨_, Entries.mem_of_get? found, rfl⟩)
      rw [← names, ← Entries.isSome_get?_iff] at member
      obtain ⟨⟨id, title⟩, isKnown⟩ := Option.isSome_iff_exists.1 member
      have isNumber : component tag = id := by
        show ((Entries.get? components (Text.sanitize (Name.ofTag tag))).map (·.1)).getD 0 = id
        rw [← isName, isKnown]
        rfl
      exact ⟨title, by rw [isNumber]; exact isKnown⟩
  exact ⟨_, planRender_planned ((Lowering.lowers_root _ component laid lowered).2 fits)⟩

end

/-- What a program imports can be had: its controller is registered, and each other module can be loaded. -/
structure Resolves (machine : Machine host) (program : Program) (directory : String) : Prop where
  controller : ∀ source, ([.default Lowering.controllerName], source) ∈ program.imports →
    ∃ controller, machine.registry.controller (Path.resolve directory source) = .ok controller
  children : ∀ name source, ([.default name], source) ∈ program.imports → name ≠ Lowering.controllerName →
    ∃ id after, (load (Path.resolve directory source)).run machine = (.ok id, after)

variable {source : Source} {markup : List Markup} {files : ComponentFiles} {siblings : Entries ComponentFiles}
  {resolver : ComponentFiles → String} {config : Config} {program : Program} {directory : String} {machine : Machine host}

/-- Whatever markup is lowered to defines a component, where all that it imports can be had. A program
begins with the import of its constructors. -/
theorem define_lowered (parsed : Markup.parse source = .ok markup)
    (lowered : Program.ofMarkup markup files siblings resolver config = .ok program)
    (same : machine.registry.runtimeModule = config.runtimeModule) (apart : config.runtimeModule ∉ program.importSources.tail)
    (resolves : Resolves machine program directory) :
    ∃ id after, (define program directory).run machine = (.ok id, after) := by
  obtain ⟨⟨root, used⟩, isLowered, isProgram⟩ := Module.exists_of_bind lowered
  cases isProgram
  have laid := Markup.spelled_of_parse parsed
  obtain ⟨children, definable, areChildren⟩ :=
    definable_assemble laid isLowered same apart (resolves.controller _ mem_imports_controller)
  have loadable (entry : String × String) (member : entry ∈ children) : Loadable machine.registry (Registry.key entry.2) := by
    obtain ⟨inside, other⟩ := areChildren entry member
    obtain ⟨⟨tag, name⟩, isUsed, isChild⟩ := List.mem_filterMap.1 inside
    obtain ⟨child, isFile, isEntry⟩ := Option.map_eq_some_iff.1 isChild
    rw [← isEntry] at other ⊢
    dsimp only at other ⊢
    obtain ⟨id, after, done⟩ := resolves.children name _ (mem_imports_child isUsed isFile) other
    exact loadable_of_load done
  have loads (entry : String × String) (member : entry ∈ children) (current : Machine host)
      (fits : Extends machine current ∧ current.registry.loading = machine.registry.loading) :
      ∃ id after, (load entry.2).run current = (.ok id, after) ∧
        Extends machine after ∧ after.registry.loading = machine.registry.loading := by
    obtain ⟨grown, loading⟩ := fits
    have onTrail : OnTrail machine machine.registry.loading current := ⟨grown, fun _ inside => loading ▸ inside⟩
    have grownMore := grown_load entry.2 current
    rw [run_load, grown.programs, loading] at grownMore ⊢
    obtain ⟨id, after, done, _⟩ := loadAlong_of_loadable (loadable entry member) _ current entry.2 onTrail rfl fun _ inside => .inl inside
    rw [done] at grownMore
    exact ⟨id, after, done, grown.trans grownMore.toExtends, grownMore.loading.trans loading⟩
  obtain ⟨components, loaded, areLoaded⟩ := loadChildren_of_each loads ⟨.refl machine, rfl⟩
  obtain ⟨id, after, done, _⟩ := defineWith_of_definable definable areLoaded
  exact ⟨id, after, done⟩

/-- The module of a component that shows a button. -/
def childProgram : Program :=
  match Program.ofMarkup [.element "button" [] [.text "ok"]] (.standard "x-y" "/app") [] ComponentFiles.path {} with
  | .ok program => program
  | .error _ => []

/-- A machine that has the child of the sample page as a program only. -/
def registeredMachine : Machine ⟨Unit, Unit, fun _ => []⟩ where
  registry := {
    runtimeModule := "@htmly/core/renderer"
    controllers := [("/app/page.js", ()), ("/app/x-y.js", ())]
    programs := [("/app/x-y.component.js", ⟨childProgram, "/app"⟩)] }
  world := ()

theorem define_lowered_registered : Resolves registeredMachine sampleProgram "/app" ∧
    ∃ id after, (define sampleProgram "/app").run registeredMachine = (.ok id, after) := by
  have parsed : Markup.parse ⟨"<p>hi</p><x-y></x-y>", "page"⟩ = .ok sampleMarkup := rfl
  have lowered : Program.ofMarkup sampleMarkup (.standard "page" "/app") sampleSiblings ComponentFiles.path {} = .ok sampleProgram := rfl
  have imports : sampleProgram.imports = [(["$c", "$e", "$t", "$f"].map .named, "@htmly/core/renderer"),
      ([.default "controller"], "./page.js"), ([.default "XY"], "./x-y.component.js")] := by decide +kernel
  have resolves : Resolves registeredMachine sampleProgram "/app" := by
    constructor
    · intro source member
      have isSource : source = "./page.js" := by simpa [imports, Lowering.controllerName] using member
      subst isSource
      exact ⟨(), by decide +kernel⟩
    · intro name source member other
      have isChild : name = "XY" ∧ source = "./x-y.component.js" := by
        simpa [imports, show name ≠ "controller" from other] using member
      obtain ⟨rfl, rfl⟩ := isChild
      exact ⟨0, _, Prod.ext (by decide +kernel) rfl⟩
  exact ⟨resolves, define_lowered parsed lowered rfl (by rw [Program.importSources, imports]; decide) resolves⟩

end Machine

end ReactiveMarkup
