import ReactiveMarkup.Loading.Registry
import ReactiveMarkup.Proofs.LoweredCode
import ReactiveMarkup.Proofs.MarkupMeaning
import ReactiveMarkup.Proofs.ParsedMarkup

/-! What a generated module amounts to once it is read: its constructors, constants and children are
those that the lowered markup used. -/

namespace ReactiveMarkup

namespace Module

theorem exists_of_bind {ε α β : Type} {first : Except ε α} {next : α → Except ε β} {value : β} (done : first >>= next = .ok value) :
    ∃ found, first = .ok found ∧ next found = .ok value := by
  cases first with
  | error problem => cases done
  | ok found => exact ⟨found, rfl, done⟩

/-! Statements. -/

theorem ofName?_name (constructor : Constructor) : Constructor.ofName? constructor.name = some constructor := by
  cases constructor <;> rfl

theorem importConstructors (source : String) (constructors : List Constructor) (module : Module) :
    ((constructors.map Constructor.name).map Specifier.named).foldlM
        (fun module specifier => importConstructor module source specifier) module =
      .ok { module with planner := { module.planner with constructors := constructors.reverse ++ module.planner.constructors } } := by
  induction constructors generalizing module with
  | nil => rfl
  | cons constructor rest ih =>
    rw [List.map_cons, List.map_cons, List.foldlM_cons, importConstructor, ofName?_name, ]
    dsimp only [bind, Except.bind]
    rw [ih, List.reverse_cons, List.append_assoc]
    rfl

/-- Constructors can be imported from the runtime module only. -/
theorem readStatement_constructors {directory source : String} {module result : Module} {constructors : List Constructor}
    (some : constructors ≠ [])
    (read : readStatement directory module (.imports ((constructors.map Constructor.name).map .named) source) = .ok result) :
    source = module.planner.runtimeModule ∧
      result = { module with planner := { module.planner with constructors := constructors.reverse ++ module.planner.constructors } } := by
  rw [readStatement] at read
  split at read
  next same =>
    rw [importConstructors] at read
    exact ⟨same, (Except.ok.inj read).symm⟩
  next =>
    cases constructors with
    | nil => exact absurd rfl some
    | cons constructor rest => cases read

/-- The default of another module can be imported, but not that of the runtime module. -/
theorem readStatement_default {directory name source : String} {module result : Module}
    (read : readStatement directory module (.imports [.default name] source) = .ok result) :
    result = { module with defaults := Entries.put module.defaults name (Path.resolve directory source) } := by
  rw [readStatement] at read
  split at read
  next => cases read
  next => exact (Except.ok.inj read).symm

theorem readStatement_effects {directory source : String} {module result : Module}
    (read : readStatement directory module (.imports [] source) = .ok result) : result = module := by
  rw [readStatement] at read
  split at read <;> exact (Except.ok.inj read).symm

theorem readDefaults (directory : String) (imports : List (String × String)) {module result : Module}
    (read : (imports.map fun entry => Statement.imports [.default entry.1] entry.2).foldlM (readStatement directory) module = .ok result) :
    result = { module with
      defaults := (imports.map fun entry => (entry.1, Path.resolve directory entry.2)).foldl
        (fun defaults entry => Entries.put defaults entry.1 entry.2) module.defaults } := by
  induction imports generalizing module with
  | nil => exact (Except.ok.inj read).symm
  | cons entry rest ih =>
    rw [List.map_cons, List.foldlM_cons] at read
    obtain ⟨between, isFirst, read⟩ := exists_of_bind read
    rw [ih read, readStatement_default isFirst]
    rfl

theorem readConstants (elements : List (String × String)) {module result : Module}
    (read : (elements.map fun entry => (entry.2, Lowering.construct .element [.string entry.1])).foldlM declare module = .ok result) :
    result = { module with planner := { module.planner with
      elements := (elements.map Prod.swap).foldl (fun constants entry => Entries.put constants entry.1 entry.2) module.planner.elements } } := by
  induction elements generalizing module with
  | nil => exact (Except.ok.inj read).symm
  | cons entry rest ih =>
    obtain ⟨tag, name⟩ := entry
    rw [List.map_cons, List.foldlM_cons] at read
    obtain ⟨between, isFirst, read⟩ := exists_of_bind read
    obtain ⟨found, isTag, isFirst⟩ := exists_of_bind isFirst
    obtain ⟨_, _, isTag⟩ := exists_of_bind isTag
    cases isTag
    cases isFirst
    exact ih read

/-! Whole modules. -/

/-- The modules of the children that are used, by variable. -/
def childPaths (setting : Lowering.Setting) (files : ComponentFiles) (resolver : ComponentFiles → String) (directory : String)
    (used : Lowering.Used) : Entries String :=
  used.components.filterMap fun entry => (Entries.get? setting.siblings entry.1).map fun child =>
    (entry.2, Path.resolve directory (Path.relative files.directory (resolver child)))

/-- The definition that a generated module exports. -/
def exportedDefinition (files : ComponentFiles) (root : Option Code) (used : Lowering.Used) : Definition where
  name := files.name
  controller := Lowering.controllerName
  render := .function (if used.slots then [slotsName] else []) [.returns (root.getD .null)]

theorem ofProgram_assemble {setting : Lowering.Setting} {files : ComponentFiles} {resolver : ComponentFiles → String} {root : Option Code}
    {used : Lowering.Used} {runtimeModule directory : String} {module : Module} (noted : Lowering.Noted setting used)
    (read : ofProgram runtimeModule directory (Lowering.assemble setting files resolver root used) = .ok module) :
    module.planner.constructors = (Constructor.all.filter used.constructors.contains).reverse ∧
      module.planner.elements = (used.elements.map Prod.swap).foldl (fun constants entry => Entries.put constants entry.1 entry.2) [] ∧
      module.defaults = (childPaths setting files resolver directory used).foldl (fun defaults entry => Entries.put defaults entry.1 entry.2)
        [(Lowering.controllerName, Path.resolve directory (Path.relative files.directory files.controller))] ∧
      module.definition = some (Lowering.construct .component [.string files.name, .identifier Lowering.controllerName,
        (exportedDefinition files root used).render]) := by
  rw [ofProgram, Lowering.assemble] at read
  simp only [List.foldlM_append] at read
  obtain ⟨declared, read, isExport⟩ := exists_of_bind read
  obtain ⟨imported, read, areConstants⟩ := exists_of_bind read
  obtain ⟨controlled, read, areChildren⟩ := exists_of_bind read
  obtain ⟨styled, read, isController⟩ := exists_of_bind read
  obtain ⟨started, areConstructors, areStyles⟩ := exists_of_bind read
  obtain ⟨_, areConstructors, same⟩ := exists_of_bind areConstructors
  cases same
  have filled : Constructor.all.filter used.constructors.contains ≠ [] := by
    have : Constructor.component ∈ Constructor.all.filter used.constructors.contains :=
      List.mem_filter.2 ⟨by decide, List.contains_iff_mem.2 noted.component⟩
    exact List.ne_nil_of_mem this
  obtain ⟨_, isStarted⟩ := readStatement_constructors filled areConstructors
  have isStyled : styled = started := by
    generalize files.styles = styles at areStyles
    cases styles with
    | none => exact (Except.ok.inj areStyles).symm
    | some path =>
      obtain ⟨_, isStyle, same⟩ := exists_of_bind areStyles
      cases same
      exact readStatement_effects isStyle
  obtain ⟨_, isController, same⟩ := exists_of_bind isController
  cases same
  have isControlled := readStatement_default isController
  have isImported : imported = _ := readDefaults directory
    (used.components.filterMap fun entry => (Entries.get? setting.siblings entry.1).map fun child =>
      (entry.2, Path.relative files.directory (resolver child))) (by
      rw [List.map_filterMap]
      simpa only [Option.map_map, Function.comp_def] using areChildren)
  have declares : (used.elements.map fun entry => (entry.2, Lowering.construct .element [.string entry.1])).foldlM declare imported =
      .ok declared := by
    split at areConstants
    next =>
      obtain ⟨_, areConstants, same⟩ := exists_of_bind areConstants
      cases same
      exact areConstants
    next none =>
      cases areConstants
      have noElement : used.elements = [] := by
        cases hoists : setting.config.hoistElements with
        | false => exact noted.hoisted hoists
        | true => simpa [hoists] using none
      rw [noElement]
      rfl
  have isDeclared := readConstants used.elements declares
  obtain ⟨_, isExport, same⟩ := exists_of_bind isExport
  cases same
  have isModule := (Except.ok.inj isExport).symm
  subst isModule isDeclared isImported isControlled isStyled isStarted
  refine ⟨List.append_nil _, rfl, ?_, rfl⟩
  rw [List.map_filterMap]
  simp only [Option.map_map, Function.comp_def, childPaths]
  rfl

theorem define_assembled {files : ComponentFiles} {root : Option Code} {used : Lowering.Used} {module : Module} {definition : Definition}
    {path : String}
    (exported : module.definition = some (Lowering.construct .component [.string files.name, .identifier Lowering.controllerName,
      (exportedDefinition files root used).render]))
    (done : module.define = .ok (definition, path)) :
    definition = exportedDefinition files root used ∧ Entries.get? module.defaults Lowering.controllerName = some path := by
  rw [define, exported] at done
  obtain ⟨found, isDefinition, done⟩ := exists_of_bind done
  cases isDefinition
  obtain ⟨_, _, done⟩ := exists_of_bind done
  split at done
  next => cases done
  next found isPath =>
    cases done
    exact ⟨rfl, isPath⟩

end Module

namespace Machine

variable {host : Host}

/-! Loading. -/

theorem exists_of_load_bind {α β : Type} {step : Load host α} {next : α → Load host β} {machine after : Machine host} {result : β}
    (done : (step >>= next).run machine = (.ok result, after)) :
    ∃ value between, step.run machine = (.ok value, between) ∧ (next value).run between = (.ok result, after) := by
  rw [ExceptT.run_bind] at done
  change StateT.run (_ >>= _) machine = _ at done
  rw [StateT.run_bind] at done
  cases isStep : step.run machine with
  | mk ending between =>
    rw [show StateT.run step.run machine = (ending, between) from isStep] at done
    cases ending with
    | error problem => cases done
    | ok value => exact ⟨value, between, rfl, done⟩

/-- What was loaded from a path before is still what is known under it, and the controllers are the
same. -/
structure KeepsLoaded (before after : Machine host) : Prop where
  components : ∀ path id, Entries.get? before.registry.components path = some id → Entries.get? after.registry.components path = some id
  controllers : after.registry.controllers = before.registry.controllers

theorem KeepsLoaded.refl (machine : Machine host) : KeepsLoaded machine machine := ⟨fun _ _ => id, rfl⟩

theorem KeepsLoaded.trans {first second third : Machine host} (one : KeepsLoaded first second) (two : KeepsLoaded second third) : KeepsLoaded first third :=
  ⟨fun path id found => two.components path id (one.components path id found), two.controllers.trans one.controllers⟩

/-- A way to load components by path, which keeps those that were loaded before. -/
def Loads (load : String → Load host Nat) : Prop :=
  ∀ path machine id after, (load path).run machine = (.ok id, after) →
    KeepsLoaded machine after ∧ Entries.get? after.registry.components (Registry.key path) = some id

/-- Components that were loaded from imports, under the names that they were imported as. -/
def LoadedFrom {Code : Type} (registry : Registry Code) : Entries String → Entries (Nat × String) → Prop :=
  List.Forall₂ fun entry component =>
    component.1 = entry.1 ∧ Entries.get? registry.components (Registry.key entry.2) = some component.2.1

theorem LoadedFrom.names {registry : Registry host.Code} {imports : Entries String} {components : Entries (Nat × String)}
    (loaded : LoadedFrom registry imports components) : Entries.names components = Entries.names imports := by
  induction loaded with
  | nil => rfl
  | cons first _ ih => exact congr (congrArg _ first.1) ih

theorem LoadedFrom.exists_mem {registry : Registry host.Code} {imports : Entries String} {components : Entries (Nat × String)}
    (loaded : LoadedFrom registry imports components) {name path : String} (member : (name, path) ∈ imports) :
    ∃ id title, (name, id, title) ∈ components ∧ Entries.get? registry.components (Registry.key path) = some id := by
  induction loaded with
  | nil => cases member
  | @cons entry component _ _ first _ ih =>
    obtain rfl | member := List.mem_cons.1 member
    · obtain ⟨_, id, title⟩ := component
      obtain ⟨rfl, found⟩ := first
      exact ⟨id, title, List.mem_cons_self .., found⟩
    · obtain ⟨id, title, inside, found⟩ := ih member
      exact ⟨id, title, List.mem_cons_of_mem _ inside, found⟩

theorem loadChildren_keeps {load : String → Load host Nat} (loads : Loads load) {imports : Entries String} {machine after : Machine host}
    {components : Entries (Nat × String)} (done : (loadChildren load imports).run machine = (.ok components, after)) :
    KeepsLoaded machine after ∧ LoadedFrom after.registry imports components := by
  induction imports generalizing machine components with
  | nil =>
    cases done
    exact ⟨.refl _, .nil⟩
  | cons entry rest ih =>
    obtain ⟨name, path⟩ := entry
    rw [loadChildren] at done
    obtain ⟨id, between, isFirst, done⟩ := exists_of_load_bind done
    obtain ⟨title, _, isTitle, done⟩ := exists_of_load_bind done
    cases isTitle
    obtain ⟨others, later, areOthers, done⟩ := exists_of_load_bind done
    cases done
    obtain ⟨keeps, known⟩ := loads path machine id between isFirst
    obtain ⟨keepsMore, knownMore⟩ := ih areOthers
    exact ⟨keeps.trans keepsMore, .cons ⟨rfl, keepsMore.components _ _ known⟩ knownMore⟩

theorem exists_of_ofModule_bind {α β : Type} {result : Except ModuleFault α} {next : α → Load host β} {machine after : Machine host}
    {last : β} (done : (ofModule result >>= next).run machine = (.ok last, after)) :
    ∃ value, result = .ok value ∧ (next value).run machine = (.ok last, after) := by
  obtain ⟨value, between, isResult, done⟩ := exists_of_load_bind done
  cases result with
  | error fault => cases isResult
  | ok found =>
    cases isResult
    exact ⟨value, rfl, done⟩

theorem exists_of_controllerAt_bind {β : Type} {path : String} {next : host.Code → Load host β} {machine after : Machine host} {last : β}
    (done : (controllerAt path >>= next).run machine = (.ok last, after)) :
    ∃ controller, machine.registry.controller path = .ok controller ∧ (next controller).run machine = (.ok last, after) := by
  obtain ⟨controller, between, isController, done⟩ := exists_of_load_bind done
  obtain ⟨_, _, isMachine, isController⟩ := exists_of_load_bind isController
  cases isMachine
  split at isController
  next found isFound =>
    cases isController
    exact ⟨controller, isFound, done⟩
  next => cases isController

/-- What it takes to define a component. -/
theorem defineWith_cases {load : String → Load host Nat} {program : Program} {directory : String} {machine after : Machine host} {id : Nat}
    (done : (defineWith load program directory).run machine = (.ok id, after)) :
    ∃ (module : Module) (definition : Definition) (path : String) (controller : host.Code) (components : Entries (Nat × String))
      (root : Option NodePlan) (loaded : Machine host),
      Module.ofProgram machine.registry.runtimeModule directory program = .ok module ∧ module.define = .ok (definition, path) ∧
      machine.registry.controller path = .ok controller ∧
      (loadChildren load (module.children definition)).run machine = (.ok components, loaded) ∧
      Module.planRender { module.planner with components } definition.render = .ok root ∧ id = loaded.components.size ∧
      after = { loaded with components := loaded.components.push { name := definition.name, controller, view := .plan root } } := by
  obtain ⟨_, _, isMachine, done⟩ := exists_of_load_bind done
  cases isMachine
  obtain ⟨module, isModule, done⟩ := exists_of_ofModule_bind done
  obtain ⟨⟨definition, path⟩, isDefinition, done⟩ := exists_of_ofModule_bind done
  obtain ⟨controller, isController, done⟩ := exists_of_controllerAt_bind done
  obtain ⟨components, loaded, areChildren, done⟩ := exists_of_load_bind done
  obtain ⟨root, isRoot, done⟩ := exists_of_ofModule_bind done
  cases done
  exact ⟨module, definition, path, controller, components, root, _, isModule, isDefinition, isController, areChildren, isRoot, rfl, rfl⟩

theorem defineWith_keeps {load : String → Load host Nat} (loads : Loads load) {program : Program} {directory : String}
    {machine after : Machine host} {id : Nat} (done : (defineWith load program directory).run machine = (.ok id, after)) :
    KeepsLoaded machine after := by
  obtain ⟨_, _, _, _, _, _, _, _, _, _, areChildren, _, _, rfl⟩ := defineWith_cases done
  obtain ⟨components, controllers⟩ := (loadChildren_keeps loads areChildren).1
  exact ⟨components, controllers⟩

theorem run_whileLoading {α : Type} (key : String) (step : Load host α) (machine : Machine host) :
    (whileLoading key step).run machine =
      ((step.run { machine with registry := machine.registry.startLoading key }).1,
        let inside := (step.run { machine with registry := machine.registry.startLoading key }).2
        { inside with registry := inside.registry.stopLoading key }) := rfl

theorem exists_of_whileLoading {α : Type} {key : String} {step : Load host α} {machine after : Machine host} {result : α}
    (done : (whileLoading key step).run machine = (.ok result, after)) :
    ∃ inside, step.run { machine with registry := machine.registry.startLoading key } = (.ok result, inside) ∧
      after = { inside with registry := inside.registry.stopLoading key } := by
  rw [run_whileLoading] at done
  obtain ⟨isResult, isAfter⟩ := Prod.mk.inj done
  exact ⟨_, Prod.ext isResult rfl, isAfter.symm⟩

/-- A component that is not known is not on the way to being loaded either, so nothing else is put
in its place. -/
theorem loads_loadAlong (programs : Entries RegisteredProgram) (trail : List String) :
    Loads (loadAlong programs trail : String → Load host Nat) := by
  induction size : Registry.waiting programs trail using Nat.strong_induction_on generalizing trail with
  | _ _ ih =>
    intro path machine id after done
    rw [loadAlong] at done
    obtain ⟨_, _, isMachine, done⟩ := exists_of_load_bind done
    cases isMachine
    split at done
    next found isFound =>
      cases done
      exact ⟨.refl _, isFound⟩
    next unknown =>
      split at done
      next => cases done
      next registered isRegistered =>
        split at done
        next => cases done
        next fresh =>
          obtain ⟨child, _, isRead, done⟩ := exists_of_load_bind done
          obtain ⟨between, isDefined, rfl⟩ := exists_of_whileLoading isRead
          obtain ⟨_, _, isAdded, done⟩ := exists_of_load_bind done
          cases isAdded
          cases done
          have keeps := defineWith_keeps (ih _ (size ▸ Registry.waiting_lt isRegistered fresh) _ rfl) isDefined
          refine ⟨⟨fun other number found => ?_, keeps.controllers⟩, ?_⟩
          · have apart : other ≠ Registry.key path := by
              rintro rfl
              rw [unknown] at found
              cases found
            show Entries.get? (Entries.put between.registry.components (Registry.key path) id) other = some number
            rw [Entries.get?_put, if_neg apart, keeps.components other number found]
          · show Entries.get? (Entries.put between.registry.components (Registry.key path) id) (Registry.key path) = some id
            rw [Entries.get?_put, if_pos rfl]

theorem loads_load : Loads (load : String → Load host Nat) := by
  intro path machine id after done
  obtain ⟨_, _, isMachine, done⟩ := exists_of_load_bind done
  cases isMachine
  exact loads_loadAlong _ _ path machine id after done

/-! Components of lowered markup. -/

open Lowering (Noted Fits Planned)

section

variable {setting : Lowering.Setting} {used : Lowering.Used} (files : ComponentFiles) (resolver : ComponentFiles → String)
  (directory : String)

/-- Each child that is used is a sibling, and so each is imported. -/
theorem names_childPaths (noted : Noted setting used) :
    Entries.names (Module.childPaths setting files resolver directory used) = used.components.map (·.2) := by
  have children := noted.children
  rw [Module.childPaths]
  generalize used.components = components at children
  induction components with
  | nil => rfl
  | cons entry rest ih =>
    obtain ⟨⟨_, known, _⟩, others⟩ := List.forall_mem_cons.1 children
    obtain ⟨child, isChild⟩ := Option.isSome_iff_exists.1 known
    rw [List.filterMap_cons, isChild]
    exact congrArg (entry.2 :: ·) (ih others)

theorem mem_childPaths {tag name : String} {child : ComponentFiles} (found : Entries.get? used.components tag = some name)
    (isChild : Entries.get? setting.siblings tag = some child) :
    (name, Path.resolve directory (Path.relative files.directory (resolver child))) ∈
      Module.childPaths setting files resolver directory used := by
  refine List.mem_filterMap.2 ⟨(tag, name), Entries.mem_of_get? found, ?_⟩
  rw [isChild]
  rfl

/-- The variables of children are not the one for the controller. -/
theorem notMem_controller (noted : Noted setting used) :
    Lowering.controllerName ∉ Entries.names (Module.childPaths setting files resolver directory used) := by
  rw [names_childPaths files resolver directory noted, List.mem_map]
  rintro ⟨entry, member, same⟩
  obtain ⟨named, _, isName⟩ := noted.children entry member
  exact (Lowering.sanitize_ofTag named.parts).2 (isName.symm.trans same)

theorem children_childPaths {module : Module} {definition : Definition} {path : String} (noted : Noted setting used)
    (distinct : (used.components.map (·.2)).Nodup)
    (defaults : module.defaults = (Module.childPaths setting files resolver directory used).foldl
      (fun defaults entry => Entries.put defaults entry.1 entry.2) [(Lowering.controllerName, path)])
    (controls : definition.controller = Lowering.controllerName) :
    Entries.get? module.defaults Lowering.controllerName = some path ∧
      module.children definition = Module.childPaths setting files resolver directory used := by
  have absent := notMem_controller files resolver directory noted
  have apart : (Entries.names ([(Lowering.controllerName, path)] ++ Module.childPaths setting files resolver directory used)).Nodup := by
    rw [Entries.names, List.map_append, List.map_singleton, List.singleton_append]
    have own : (Entries.names (Module.childPaths setting files resolver directory used)).Nodup := by
      rw [names_childPaths files resolver directory noted]
      exact distinct
    exact List.nodup_cons.2 ⟨absent, own⟩
  rw [Module.children, defaults, Entries.foldl_put_of_nodup apart, controls, List.singleton_append, List.filter_cons_of_neg (by simp),
    List.filter_eq_self, Entries.get?_cons, if_pos rfl]
  refine ⟨rfl, ?_⟩
  intro entry member
  exact bne_iff_ne.2 fun same => absent (same ▸ List.mem_map.2 ⟨entry, member, rfl⟩)

/-- No constructor and no component is named like a constant. -/
theorem get?_constants (noted : Noted setting used) {name : String} (unmarked : ∀ behind, name ≠ "$e_" ++ behind) :
    Entries.get? (used.elements.map Prod.swap) name = none := by
  cases found : Entries.get? (used.elements.map Prod.swap) name with
  | none => rfl
  | some tag =>
    obtain ⟨entry, member, same⟩ := List.mem_map.1 (Entries.mem_of_get? found)
    obtain ⟨behind, isMarked⟩ := noted.marked entry member
    exact absurd ((congrArg Prod.fst same).symm.trans isMarked) (unmarked behind)

end

/-- Numbers for siblings by tag that are right about those whose modules are loaded. -/
def Numbers {Code : Type} (registry : Registry Code) (siblings : Entries ComponentFiles) (locate : ComponentFiles → String)
    (component : String → Nat) : Prop :=
  ∀ tag child id, Entries.get? siblings tag = some child →
    Entries.get? registry.components (Registry.key (locate child)) = some id → component tag = id

theorem exists_numbers {Code : Type} (registry : Registry Code) (siblings : Entries ComponentFiles) (locate : ComponentFiles → String) :
    ∃ component, Numbers registry siblings locate component := by
  refine ⟨fun tag => ((Entries.get? siblings tag).bind fun child => Entries.get? registry.components (Registry.key (locate child))).getD 0, ?_⟩
  intro tag child id isChild isLoaded
  dsimp only
  rw [isChild, Option.bind_some, isLoaded, Option.getD_some]

theorem Numbers.mono {before after : Machine host} {siblings : Entries ComponentFiles} {locate : ComponentFiles → String}
    {component : String → Nat} (numbers : Numbers after.registry siblings locate component) (keeps : KeepsLoaded before after) :
    Numbers before.registry siblings locate component :=
  fun tag child id isChild isLoaded => numbers tag child id isChild (keeps.components _ _ isLoaded)

section

variable {setting : Lowering.Setting} {used : Lowering.Used} {files : ComponentFiles} {resolver : ComponentFiles → String}
  {directory : String}

theorem mem_all (constructor : Constructor) : constructor ∈ Constructor.all := by
  cases constructor <;> decide

/-- A planner with what the notes say has all that was used if it knows the children. -/
theorem fits_noted {planner : Planner} {component : String → Nat} (noted : Noted setting used)
    (constructors : planner.constructors = (Constructor.all.filter used.constructors.contains).reverse)
    (elements : planner.elements = (used.elements.map Prod.swap).foldl (fun constants entry => Entries.put constants entry.1 entry.2) [])
    (slots : used.slots = true → planner.slots = true) (names : Entries.names planner.components ⊆ used.components.map (·.2))
    (known : ∀ tag name, Entries.get? used.components tag = some name →
      ∃ title, Entries.get? planner.components name = some (component tag, title)) : Fits planner component used := by
  have constants : planner.elements = used.elements.map Prod.swap := by
    rw [elements, Entries.foldl_put_of_nodup, List.nil_append]
    rw [List.nil_append, Entries.names, List.map_map]
    exact noted.constants
  have noDollar {name : String} (found : name ∈ used.components.map (·.2)) : '$' ∉ name.toList := by
    obtain ⟨entry, member, rfl⟩ := List.mem_map.1 found
    obtain ⟨named, _, isName⟩ := noted.children entry member
    rw [isName]
    exact (Lowering.sanitize_ofTag named.parts).1
  refine ⟨fun constructor member => ?_, fun tag name found => ?_, fun tag name found => ⟨?_, known tag name found⟩,
    fun constructor => ⟨?_, ?_⟩, slots⟩
  · rw [constructors, List.mem_reverse, List.mem_filter]
    exact ⟨mem_all constructor, List.contains_iff_mem.2 member⟩
  · rw [constants]
    refine Entries.get?_of_mem ?_ (List.mem_map.2 ⟨(tag, name), Entries.mem_of_get? found, rfl⟩)
    rw [Entries.names, List.map_map]
    exact noted.constants
  · rw [constants]
    refine get?_constants noted fun behind same => ?_
    refine noDollar (List.mem_map.2 ⟨_, Entries.mem_of_get? found, rfl⟩) ?_
    rw [same, String.toList_append]
    exact List.mem_append_left _ (by decide)
  · rw [constants]
    refine get?_constants noted fun behind same => ?_
    have third := congrArg (fun name => name.toList[2]?) same
    rw [String.toList_append] at third
    cases constructor <;> exact absurd third (by simp [Constructor.name])
  · refine Entries.get?_eq_none fun member => ?_
    exact absurd (show '$' ∈ constructor.name.toList by cases constructor <;> decide) (noDollar (names member))

/-- Once the children are loaded, all that was used is known. -/
theorem fits_loaded {planner : Planner} {component : String → Nat} {components : Entries (Nat × String)} {registry : Registry host.Code}
    (numbers : Numbers registry setting.siblings
      (fun child => Path.resolve directory (Path.relative files.directory (resolver child))) component)
    (noted : Noted setting used) (distinct : (used.components.map (·.2)).Nodup)
    (constructors : planner.constructors = (Constructor.all.filter used.constructors.contains).reverse)
    (elements : planner.elements = (used.elements.map Prod.swap).foldl (fun constants entry => Entries.put constants entry.1 entry.2) [])
    (slots : used.slots = true → planner.slots = true) (isComponents : planner.components = components)
    (loaded : LoadedFrom registry (Module.childPaths setting files resolver directory used) components) :
    Fits planner component used := by
  have names : Entries.names components = used.components.map (·.2) :=
    loaded.names.trans (names_childPaths files resolver directory noted)
  refine fits_noted noted constructors elements slots (by rw [isComponents, names]; exact fun _ => id) fun tag name found => ?_
  obtain ⟨_, known, _⟩ := noted.children _ (Entries.mem_of_get? found)
  obtain ⟨child, isChild⟩ := Option.isSome_iff_exists.1 known
  obtain ⟨id, title, member, isLoaded⟩ := loaded.exists_mem (mem_childPaths files resolver directory found isChild)
  rw [isComponents]
  refine ⟨title, ?_⟩
  rw [numbers tag child id isChild isLoaded]
  exact Entries.get?_of_mem (names ▸ distinct) member

theorem planRender_planned {planner : Planner} {code : Option Code} {plan : Option NodePlan}
    (planned : Planned { planner with slots := used.slots } code plan) :
    Module.planRender planner (Module.exportedDefinition files code used).render = .ok plan := by
  have slots : (!(if used.slots then [slotsName] else []).isEmpty) = used.slots := by
    cases used.slots <;> rfl
  have single : (if used.slots then [slotsName] else []).find? (· != slotsName) = none := by
    cases used.slots <;> rfl
  rw [Module.exportedDefinition, Module.planRender, single]
  dsimp only
  rw [slots]
  cases code with
  | none =>
    cases plan with
    | none => rfl
    | some plan => exact planned.elim
  | some code =>
    cases plan with
    | none => exact planned.elim
    | some plan =>
      have isPlan : Planner.planNode { planner with slots := used.slots } code = .ok plan := planned
      rw [Option.getD_some, if_neg (by simp [Lowering.isNull_of_planNode isPlan]), isPlan]
      rfl

/-- Nothing is noted before the walk begins. -/
theorem noted_start (setting : Lowering.Setting) : Noted setting {} :=
  ⟨List.mem_singleton_self _, fun _ => rfl, fun some => absurd rfl some, List.nodup_nil, fun _ => nofun, fun _ => nofun⟩

/-- The component that a generated module defines renders the markup directly. -/
theorem define_assemble {formed : Expression → Prop} {tight : Prop} {markup : List Markup} {root : Option Code} {machine after : Machine host}
    {id : Nat} (laid : Markup.Laid formed tight markup)
    (lowered : (Lowering.siblings (Lowering.nodes setting markup)).run {} = .ok (root, used))
    (distinct : (used.components.map (·.2)).Nodup)
    (done : (define (Lowering.assemble setting files resolver root used) directory).run machine = (.ok id, after)) :
    KeepsLoaded machine after ∧ ∃ controller,
      machine.registry.controller (Path.resolve directory (Path.relative files.directory files.controller)) = .ok controller ∧
      ∀ component, Numbers after.registry setting.siblings
          (fun child => Path.resolve directory (Path.relative files.directory (resolver child))) component →
        after.components[id]? =
          some { name := files.name, controller, view := .plan (Direct.root (setting.site component) markup) } := by
  refine ⟨defineWith_keeps loads_load done, ?_⟩
  obtain ⟨module, definition, path, controller, components, plan, loaded, isModule, isDefinition, isController, areChildren, isPlan, rfl, rfl⟩ :=
    defineWith_cases done
  have lowers (component : String → Nat) :=
    Lowering.lowers_root { module.planner with components, slots := used.slots } component laid lowered
  have noted := (lowers fun _ => 0).1.noted (noted_start setting)
  obtain ⟨constructors, elements, defaults, exported⟩ := Module.ofProgram_assemble noted isModule
  obtain ⟨rfl, isPath⟩ := Module.define_assembled exported isDefinition
  obtain ⟨isControllerPath, children⟩ := children_childPaths files resolver directory noted distinct defaults
    (show (Module.exportedDefinition files root used).controller = Lowering.controllerName from rfl)
  rw [Option.some.inj (isPath.symm.trans isControllerPath)] at isController
  rw [children] at areChildren
  refine ⟨controller, isController, fun component numbers => ?_⟩
  have fits : Fits { module.planner with components, slots := used.slots } component used :=
    fits_loaded numbers noted distinct constructors elements id rfl (loadChildren_keeps loads_load areChildren).2
  rw [← Except.ok.inj ((planRender_planned ((lowers component).2 fits)).symm.trans isPlan)]
  exact Array.getElem?_push_size

end

/-- The child components that markup uses have variables of their own. -/
def OwnVariables (config : Config) (siblings : Entries ComponentFiles) (markup : List Markup) : Prop :=
  ∀ root used, (Lowering.siblings (Lowering.nodes ⟨config, siblings⟩ markup)).run {} = .ok (root, used) →
    (used.components.map (·.2)).Nodup

variable {source : Source} {markup : List Markup} {files : ComponentFiles} {siblings : Entries ComponentFiles}
  {resolver : ComponentFiles → String} {config : Config} {program : Program} {directory : String} {machine after : Machine host} {id : Nat}

theorem define_ofMarkup {formed : Expression → Prop} {tight : Prop} (laid : Markup.Laid formed tight markup)
    (lowered : Program.ofMarkup markup files siblings resolver config = .ok program) (own : OwnVariables config siblings markup)
    (done : (define program directory).run machine = (.ok id, after)) :
    KeepsLoaded machine after ∧ ∃ controller,
      machine.registry.controller (Path.resolve directory (Path.relative files.directory files.controller)) = .ok controller ∧
      ∀ component, Numbers after.registry siblings
          (fun child => Path.resolve directory (Path.relative files.directory (resolver child))) component →
        after.components[id]? = some {
          name := files.name
          controller
          view := .plan (Direct.root ((⟨config, siblings⟩ : Lowering.Setting).site component) markup) } := by
  obtain ⟨⟨root, used⟩, isLowered, isProgram⟩ := Module.exists_of_bind lowered
  cases isProgram
  exact define_assemble laid isLowered (own root used isLowered) done

/-- A machine with a controller for a page and one component that is loaded. -/
def sampleMachine : Machine ⟨Unit, Unit, fun _ => []⟩ where
  registry := {
    runtimeModule := "@htmly/core/renderer"
    controllers := [("/app/page.js", ())]
    components := [("/app/x-y.component.js", 0)] }
  components := #[{ name := "x-y", controller := (), view := .plan none }]
  world := ()

/-- A paragraph and a child component. -/
def sampleMarkup : List Markup := [.element "p" [] [.text "hi"], .element "x-y" [] []]

def sampleSiblings : Entries ComponentFiles := [("x-y", .standard "x-y" "/app")]

def sampleProgram : Program :=
  match Program.ofMarkup sampleMarkup (.standard "page" "/app") sampleSiblings ComponentFiles.path {} with
  | .ok program => program
  | .error _ => []

end Machine

end ReactiveMarkup
