import ReactiveMarkup.Proofs.LoadableModules

/-! Loading on any import graph. A module is loaded exactly when all that it needs is there and nothing
on the way needs itself; a load that fails leaves no trace but modules that are fine by themselves, so
that loading once more ends the same way. -/

namespace ReactiveMarkup.Machine

open Relation

variable {host : Host} {base machine after later : Machine host}

/-! The trail is the set of modules that are being loaded. -/

theorem run_load_bind_congr {α β : Type} {step twin : Load host α} {next other : α → Load host β} (steps : step.run machine = twin.run machine)
    (same : ∀ value between, twin.run machine = (.ok value, between) → (next value).run between = (other value).run between) :
    (step >>= next).run machine = (twin >>= other).run machine := by
  cases ran : twin.run machine with
  | mk result between =>
    cases result with
    | error problem => rw [run_load_bind_of_error ran, run_load_bind_of_error (steps.trans ran)]
    | ok value => rw [run_load_bind ran, run_load_bind (steps.trans ran), same value between ran]

theorem run_load_bind_congr_of_look {α β : Type} {step : Load host α} {next other : α → Load host β} (looks : (step.run machine).2 = machine)
    (same : ∀ value, (next value).run machine = (other value).run machine) : (step >>= next).run machine = (step >>= other).run machine := by
  refine run_load_bind_congr rfl fun value between ran => ?_
  have isMachine : between = machine := by rw [← looks, ran]
  exact isMachine ▸ same value

/-- A machine with certain programs that is loading certain modules. -/
def During (programs : Entries RegisteredProgram) (loading : List String) (machine : Machine host) : Prop :=
  machine.registry.programs = programs ∧ machine.registry.loading = loading

theorem run_loadAlong {programs : Entries RegisteredProgram} {loading : List String} (during : During programs loading machine)
    (path : String) : (loadAlong programs loading path).run machine = (load path).run machine := by
  obtain ⟨rfl, rfl⟩ := during
  rfl

theorem run_loadChildren_loadAlong {programs : Entries RegisteredProgram} {loading : List String} (imports : Entries String)
    (during : During programs loading machine) :
    (loadChildren (loadAlong programs loading) imports).run machine = (loadChildren load imports).run machine := by
  induction imports generalizing machine with
  | nil => rfl
  | cons entry rest ih =>
    obtain ⟨name, path⟩ := entry
    rw [loadChildren, loadChildren]
    refine run_load_bind_congr (run_loadAlong during path) fun id between ran => ?_
    have grown := grown_load path machine
    rw [ran] at grown
    refine run_load_bind_congr_of_look rfl fun title => ?_
    exact run_load_bind_congr (ih ⟨grown.programs.trans during.1, grown.loading.trans during.2⟩) fun _ _ _ => rfl

theorem run_defineWith_loadAlong {programs : Entries RegisteredProgram} {loading : List String} (program : Program) (directory : String)
    (during : During programs loading machine) :
    (defineWith (loadAlong programs loading) program directory).run machine = (defineWith load program directory).run machine := by
  rw [defineWith, defineWith]
  refine run_load_bind_congr_of_look rfl fun _ => run_load_bind_congr_of_look (ofModule_looks _) fun module => ?_
  refine run_load_bind_congr_of_look (ofModule_looks _) fun definition => run_load_bind_congr_of_look (controllerAt_looks _) fun controller => ?_
  exact run_load_bind_congr (run_loadChildren_loadAlong _ during) fun _ _ _ => rfl

/-- Loading goes by what is known and by what is being loaded, both of which change on the way. -/
theorem run_load_eq (path : String) (machine : Machine host) : (load path : Load host Nat).run machine =
    match Entries.get? machine.registry.components (Registry.key path) with
    | some id => (.ok id, machine)
    | none =>
      match Entries.get? machine.registry.programs (Registry.key path) with
      | none => (.error (.unknownModule path), machine)
      | some registered =>
        if Registry.key path ∈ machine.registry.loading then (.error (.faulty (.circularImport path)), machine)
        else (do
          let id ← whileLoading (Registry.key path) (defineWith load registered.program registered.directory)
          modify fun machine => { machine with registry := machine.registry.addComponent path id }
          return id : Load host Nat).run machine := by
  rw [run_load, loadAlong, run_load_bind (rfl : (get : Load host (Machine host)).run _ = _)]
  cases Entries.get? machine.registry.components (Registry.key path) with
  | some id => rfl
  | none =>
    dsimp only
    split
    next missing => rw [missing]; rfl
    next registered isRegistered =>
      rw [isRegistered]
      dsimp only
      by_cases again : Registry.key path ∈ machine.registry.loading
      · rw [dif_pos (List.contains_iff_mem.2 again), if_pos again]
        rfl
      · rw [dif_neg fun member => again (List.contains_iff_mem.1 member), if_neg again]
        refine run_load_bind_congr ?_ fun _ _ _ => rfl
        have during : During machine.registry.programs (Registry.key path :: machine.registry.loading) (starting machine (Registry.key path)) :=
          ⟨rfl, rfl⟩
        rw [run_whileLoading, run_whileLoading, run_defineWith_loadAlong _ _ during]

/-! What is needed. -/

/-- A module that is known, or whose program lacks nothing but its children. -/
def Complete {Code : Type} (registry : Registry Code) (key : String) : Prop :=
  (∃ id, Entries.get? registry.components key = some id) ∨
    ∃ registered children, Entries.get? registry.programs key = some registered ∧
      Definable registry registered.program registered.directory children

theorem Loadable.complete {Code : Type} {registry : Registry Code} {key : String} (loadable : Loadable registry key) :
    Complete registry key := by
  cases loadable with
  | known found => exact .inl ⟨_, found⟩
  | registered found _ definable _ => exact .inr ⟨_, _, found, definable⟩

theorem Loadable.child {Code : Type} {registry : Registry Code} {key child : String} (loadable : Loadable registry key)
    (imported : Imports registry key child) : Loadable registry child := by
  obtain ⟨unknown, registered, children, found, definable, entry, member, rfl⟩ := imported
  cases loadable with
  | known known => exact absurd (unknown.symm.trans known) nofun
  | registered other _ defines each =>
    cases found.symm.trans other
    cases definable.children_eq defines
    exact each entry member

/-- The way down ends, since none of the programs on it comes a second time. -/
theorem loadable_of_complete {Code : Type} {registry : Registry Code} (idle : registry.loading = []) (trail : List String) {key : String}
    (above : ∀ other ∈ trail, TransGen (Imports registry) other key)
    (fine : ∀ other, ReflTransGen (Imports registry) key other → Complete registry other ∧ ¬ TransGen (Imports registry) other other) :
    Loadable registry key := by
  induction size : Registry.waiting registry.programs trail using Nat.strong_induction_on generalizing trail key with
  | _ _ ih =>
    obtain ⟨complete, noCircle⟩ := fine key .refl
    cases known : Entries.get? registry.components key with
    | some id => exact .known known
    | none =>
      rcases complete with ⟨id, found⟩ | ⟨registered, children, found, definable⟩
      · exact absurd (known.symm.trans found) nofun
      · have fresh : ¬ trail.contains key = true := fun again => noCircle (above key (List.contains_iff_mem.1 again))
        refine .registered found (by simp [idle]) definable fun entry member => ?_
        have imported : Imports registry key (Registry.key entry.2) := ⟨known, registered, children, found, definable, entry, member, rfl⟩
        refine ih _ (size ▸ Registry.waiting_lt found fresh) (key :: trail) ?_ (fun other way => fine other (.head imported way)) rfl
        exact List.forall_mem_cons.2 ⟨.single imported, fun other inside => (above other inside).tail imported⟩

theorem loadable_iff {Code : Type} {registry : Registry Code} (idle : registry.loading = []) {key : String} :
    Loadable registry key ↔
      ∀ other, ReflTransGen (Imports registry) key other → Complete registry other ∧ ¬ TransGen (Imports registry) other other := by
  refine ⟨fun loadable other way => ?_, loadable_of_complete idle [] nofun⟩
  have reached : Loadable registry other := by
    induction way with
    | refl => exact loadable
    | tail _ imported ih => exact ih.child imported
  exact ⟨reached.complete, reached.acyclic⟩

/-! Loading once more. -/

theorem stopping_starting (machine : Machine host) (key : String) : stopping (starting machine key) key = machine := by
  show { machine with registry := { machine.registry with loading := (key :: machine.registry.loading).erase key } } = machine
  rw [List.erase_cons_head]

/-- A machine later than the end of a load that was part of loading from a base. -/
structure Later (base : Machine host) (trail : List String) (after later : Machine host) : Prop where
  grown : Extends after later
  known : ∀ key id, Entries.get? later.registry.components key = some id → Loadable base.registry key
  within : ∀ name ∈ later.registry.loading, name ∈ trail

/-- A load that ends later as it has ended before, without a trace. -/
def Repeats (base : Machine host) (trail : List String) (load : Load host Nat) : Prop :=
  ∀ machine result after later, OnTrail base trail machine → Stocked machine → load.run machine = (result, after) →
    Later base trail after later → load.run later = (result, later)

section

variable {load : String → Load host Nat} {trail : List String}

theorem loadChildren_again (grows : LoadsGrown base.registry.programs trail load) (loads : Loads load) {imports : Entries String}
    (each : ∀ entry ∈ imports, Repeats base trail (load entry.2)) {result : Except LoadError (Entries (Nat × String))}
    (onTrail : OnTrail base trail machine) (stocked : Stocked machine)
    (done : (loadChildren load imports).run machine = (result, after)) (isLater : Later base trail after later) :
    (loadChildren load imports).run later = (result, later) := by
  induction imports generalizing machine result with
  | nil =>
    cases done
    rfl
  | cons entry rest ih =>
    obtain ⟨name, path⟩ := entry
    obtain ⟨first, others⟩ := List.forall_mem_cons.1 each
    rw [loadChildren] at done ⊢
    cases isFirst : (load path).run machine with
    | mk outcome between =>
      cases outcome with
      | error problem =>
        rw [run_load_bind_of_error isFirst] at done
        cases done
        exact run_load_bind_of_error (first machine _ _ later onTrail stocked isFirst isLater)
      | ok id =>
        have grown : Grown machine between := by
          have grown := grows path machine onTrail.1.programs onTrail.2
          rwa [isFirst] at grown
        have onTrailBetween : OnTrail base trail between := ⟨onTrail.1.trans grown.toExtends, by rw [grown.loading]; exact onTrail.2⟩
        have grownRest := grown_loadChildren grows rest onTrailBetween.1.programs onTrailBetween.2
        obtain ⟨child, isChild⟩ := grown.stocked stocked _ _ (loads path machine id between isFirst).2
        rw [run_load_bind isFirst, run_load_bind (rfl : (componentName id).run between = _)] at done
        cases areOthers : (loadChildren load rest).run between with
        | mk outcome last =>
          rw [areOthers] at grownRest
          have ends : after = last := by
            cases outcome with
            | error problem =>
              rw [run_load_bind_of_error areOthers] at done
              exact (congrArg Prod.snd done).symm
            | ok components =>
              rw [run_load_bind areOthers] at done
              exact (congrArg Prod.snd done).symm
          subst ends
          have fromBetween : Later base trail between later :=
            ⟨grownRest.toExtends.trans isLater.grown, isLater.known, isLater.within⟩
          have title : later.components[id]? = between.components[id]? := by
            rw [isChild, fromBetween.grown.components id child isChild]
          have again := ih others onTrailBetween (grown.stocked stocked) areOthers
          rw [run_load_bind (first machine _ _ later onTrail stocked isFirst fromBetween),
            run_load_bind (rfl : (componentName id).run later = _), title]
          cases outcome with
          | error problem =>
            rw [run_load_bind_of_error areOthers] at done
            cases done
            exact run_load_bind_of_error again
          | ok components =>
            rw [run_load_bind areOthers] at done
            cases done
            exact run_load_bind again

/-- A program that was refused is refused again. -/
theorem defineWith_again (grows : LoadsGrown base.registry.programs trail load) (loads : Loads load) {program : Program} {directory : String}
    (each : ∀ module definition source, Module.ofProgram base.registry.runtimeModule directory program = .ok module →
      module.define = .ok (definition, source) → ∀ entry ∈ module.children definition, Repeats base trail (load entry.2))
    {problem : LoadError} (onTrail : OnTrail base trail machine) (stocked : Stocked machine)
    (refused : (defineWith load program directory).run machine = (.error problem, after)) (isLater : Later base trail after later) :
    (defineWith load program directory).run later = (.error problem, later) := by
  have grown : Grown machine after := by
    have grown := grown_defineWith grows program directory onTrail.1.programs onTrail.2
    rwa [refused] at grown
  have whole := onTrail.1.trans (grown.toExtends.trans isLater.grown)
  rw [defineWith, run_load_bind (rfl : (get : Load host (Machine host)).run _ = _)] at refused ⊢
  rw [onTrail.1.runtimeModule] at refused
  rw [whole.runtimeModule]
  cases isModule : Module.ofProgram base.registry.runtimeModule directory program with
  | error fault =>
    rw [isModule] at refused
    cases refused
    exact run_load_bind_of_error rfl
  | ok module =>
    rw [isModule] at refused
    rw [run_load_bind (rfl : (ofModule (.ok module) : Load host Module).run _ = _)] at refused ⊢
    cases isDefinition : module.define with
    | error fault =>
      rw [isDefinition] at refused
      cases refused
      exact run_load_bind_of_error rfl
    | ok found =>
      obtain ⟨definition, source⟩ := found
      rw [isDefinition] at refused
      rw [run_load_bind (rfl : (ofModule (.ok (definition, source)) : Load host (Definition × String)).run _ = _)] at refused ⊢
      dsimp only at refused ⊢
      have controlled (current : Machine host) (extends' : Extends base current) :
          (controllerAt source : Load host host.Code).run current = (base.registry.controller source, current) := by
        rw [controllerAt, run_load_bind (rfl : (get : Load host (Machine host)).run _ = _), extends'.controller]
        cases base.registry.controller source <;> rfl
      cases isController : base.registry.controller source with
      | error fault =>
        rw [run_load_bind_of_error ((controlled machine onTrail.1).trans (by rw [isController]))] at refused
        cases refused
        exact run_load_bind_of_error ((controlled later whole).trans (by rw [isController]))
      | ok controller =>
        rw [run_load_bind ((controlled machine onTrail.1).trans (by rw [isController]))] at refused
        rw [run_load_bind ((controlled later whole).trans (by rw [isController]))]
        cases areChildren : (loadChildren load (module.children definition)).run machine with
        | mk outcome loaded =>
          cases outcome with
          | error fault =>
            rw [run_load_bind_of_error areChildren] at refused
            cases refused
            exact run_load_bind_of_error
              (loadChildren_again grows loads (each module definition source isModule isDefinition) onTrail stocked areChildren isLater)
          | ok components =>
            rw [run_load_bind areChildren] at refused
            cases isRoot : Module.planRender { module.planner with components } definition.render with
            | ok root =>
              rw [isRoot] at refused
              cases refused
            | error fault =>
              rw [isRoot] at refused
              cases refused
              rw [run_load_bind
                (loadChildren_again grows loads (each module definition source isModule isDefinition) onTrail stocked areChildren isLater), isRoot]
              rfl

end

/-- A module that can be loaded but is not known imports its children. -/
theorem Loadable.imports {Code : Type} {registry : Registry Code} {key source : String} {registered : RegisteredProgram} {module : Module}
    {definition : Definition} (loadable : Loadable registry key) (unknown : Entries.get? registry.components key = none)
    (found : Entries.get? registry.programs key = some registered)
    (isModule : Module.ofProgram registry.runtimeModule registered.directory registered.program = .ok module)
    (isDefinition : module.define = .ok (definition, source)) {entry : String × String} (member : entry ∈ module.children definition) :
    Imports registry key (Registry.key entry.2) := by
  cases loadable with
  | known known => exact absurd (unknown.symm.trans known) nofun
  | @registered _ other children isOther _ definable _ =>
    cases found.symm.trans isOther
    refine ⟨unknown, registered, children, found, definable, entry, ?_, rfl⟩
    obtain ⟨_, _, _, isSame, isSameDefinition, _, rfl, _⟩ := definable
    cases isModule.symm.trans isSame
    cases isDefinition.symm.trans isSameDefinition
    exact member

theorem Loadable.descend {Code : Type} {registry : Registry Code} {key other : String} (loadable : Loadable registry key)
    (way : TransGen (Imports registry) key other) : Loadable registry other := by
  induction way with
  | single imported => exact loadable.child imported
  | tail _ imported ih => exact ih.child imported

/-- Whatever a load was refused for stands in its way again: none of the modules that were given up has
become known, for those that could be loaded at all were loaded. -/
theorem loadAlong_again (trail : List String) (path : String)
    (above : ∀ other ∈ trail, other ∈ base.registry.loading ∨
      (Loadable base.registry other → TransGen (Imports base.registry) other (Registry.key path))) :
    Repeats base trail (loadAlong base.registry.programs trail path) := by
  induction size : Registry.waiting base.registry.programs trail using Nat.strong_induction_on generalizing trail path with
  | _ _ ih =>
    intro machine result after later onTrail stocked ran isLater
    cases result with
    | ok id =>
      have known := isLater.grown.keeps.components _ _ (loads_loadAlong _ _ path machine id after ran).2
      rw [loadAlong, run_load_bind (rfl : (get : Load host (Machine host)).run _ = _), known]
      rfl
    | error problem =>
      have notLoadable : ¬ Loadable base.registry (Registry.key path) := fun loadable => by
        obtain ⟨id, last, done, _⟩ := loadAlong_of_loadable loadable trail machine path onTrail rfl above
        cases ran.symm.trans done
      have unknownIn (current : Machine host)
          (known : ∀ key id, Entries.get? current.registry.components key = some id → Loadable base.registry key) :
          Entries.get? current.registry.components (Registry.key path) = none := by
        cases found : Entries.get? current.registry.components (Registry.key path) with
        | none => rfl
        | some id => exact absurd (known _ _ found) notLoadable
      have unknownBase := unknownIn base fun _ _ => .known
      have unknownLater := unknownIn later isLater.known
      rw [loadAlong, run_load_bind (rfl : (get : Load host (Machine host)).run _ = _)] at ran ⊢
      rw [unknownLater]
      have unknownMachine : Entries.get? machine.registry.components (Registry.key path) = none := by
        cases found : Entries.get? machine.registry.components (Registry.key path) with
        | none => rfl
        | some id =>
          rw [found] at ran
          cases ran
      rw [unknownMachine] at ran
      dsimp only at ran ⊢
      split
      next missing =>
        split at ran
        next =>
          cases ran
          rfl
        next other isOther => exact absurd (missing.symm.trans isOther) nofun
      next registered isRegistered =>
        split at ran
        next missing => exact absurd (missing.symm.trans isRegistered) nofun
        next other isOther =>
          cases isRegistered.symm.trans isOther
          split
          next again =>
            rw [dif_pos again] at ran
            cases ran
            rfl
          next fresh =>
            rw [dif_neg fresh] at ran
            have smaller := Registry.waiting_lt isRegistered fresh
            have grows : LoadsGrown base.registry.programs (Registry.key path :: trail)
                (loadAlong base.registry.programs (Registry.key path :: trail) : String → Load host Nat) := grown_loadAlong _ _
            have each : ∀ module definition source, Module.ofProgram base.registry.runtimeModule registered.directory registered.program = .ok module →
                module.define = .ok (definition, source) → ∀ entry ∈ module.children definition,
                Repeats base (Registry.key path :: trail) (loadAlong base.registry.programs (Registry.key path :: trail) entry.2) := by
              intro module definition source isModule isDefinition entry member
              have imported (loadable : Loadable base.registry (Registry.key path)) : Imports base.registry (Registry.key path) (Registry.key entry.2) :=
                loadable.imports unknownBase isRegistered isModule isDefinition member
              refine ih _ (size ▸ smaller) (Registry.key path :: trail) entry.2 (List.forall_mem_cons.2 ⟨.inr fun loadable => .single (imported loadable), ?_⟩) rfl
              exact fun other inside => (above other inside).imp_right fun above loadable =>
                (above loadable).tail (imported (loadable.descend (above loadable)))
            cases isDefined : (defineWith (loadAlong base.registry.programs (Registry.key path :: trail)) registered.program registered.directory).run
                (starting machine (Registry.key path)) with
            | mk outcome inside =>
              have isRead : (whileLoading (Registry.key path) (defineWith (loadAlong base.registry.programs (Registry.key path :: trail)) registered.program
                  registered.directory)).run machine = (outcome, stopping inside (Registry.key path)) := by
                rw [run_whileLoading, isDefined]
              cases outcome with
              | ok id =>
                rw [run_load_bind isRead] at ran
                cases ran
              | error fault =>
                rw [run_load_bind_of_error isRead] at ran
                cases ran
                have starts : OnTrail base (Registry.key path :: trail) (starting machine (Registry.key path)) :=
                  ⟨onTrail.1.trans (extends_starting machine _), within_starting onTrail.2 _⟩
                have isLaterInside : Later base (Registry.key path :: trail) inside (starting later (Registry.key path)) :=
                  ⟨(extends_stopping inside (Registry.key path)).trans (isLater.grown.trans (extends_starting later _)), isLater.known,
                    within_starting isLater.within _⟩
                have again := defineWith_again grows (loads_loadAlong _ _) each starts stocked isDefined isLaterInside
                have isReadAgain : (whileLoading (Registry.key path) (defineWith (loadAlong base.registry.programs (Registry.key path :: trail))
                    registered.program registered.directory)).run later = (.error problem, later) := by
                  rw [run_whileLoading, again]
                  exact congrArg (_, ·) (stopping_starting later _)
                exact run_load_bind_of_error isReadAgain

/-! The whole. -/

/-- Loading a module while nothing is being loaded. It is loaded if and only if it is registered, and so
is every module on the way down, each with a program that defines a component and none on a circle. However
it ends, nothing is being loaded afterwards, what is known beyond what was known has been defined by its
program, and loading again has the same result and changes nothing. -/
theorem load_spec (path : String) (idle : machine.registry.loading = []) (stocked : Stocked machine) :
    ∃ result after, (load path).run machine = (result, after) ∧
      ((∃ id, result = .ok id) ↔ ∀ key, ReflTransGen (Imports machine.registry) (Registry.key path) key →
        Complete machine.registry key ∧ ¬ TransGen (Imports machine.registry) key key) ∧
      after.registry.loading = [] ∧
      (∀ key id, Entries.get? after.registry.components key = some id →
        Entries.get? machine.registry.components key = some id ∨ Instantiated after key id) ∧
      (load path).run after = (result, after) := by
  have grown := grown_load path machine
  cases ran : (load path).run machine with
  | mk result after =>
    rw [ran] at grown
    have onTrail : OnTrail machine machine.registry.loading machine := ⟨.refl machine, fun _ inside => inside⟩
    refine ⟨result, after, rfl, ?_, grown.loading.trans idle, grown.instantiated stocked, ?_⟩
    · rw [← loadable_iff idle]
      constructor
      · rintro ⟨id, rfl⟩
        exact loadable_of_load ran
      · intro loadable
        obtain ⟨id, last, done, _⟩ := loadAlong_of_loadable loadable _ machine path onTrail rfl fun _ inside => .inl inside
        cases (run_load path machine).symm.trans ran ▸ done
        exact ⟨id, rfl⟩
    · rw [run_load, grown.programs, grown.loading]
      refine loadAlong_again machine.registry.loading path (fun _ inside => .inl inside) machine result after after onTrail stocked ran
        ⟨.refl after, grown.loadable, fun _ inside => grown.loading ▸ inside⟩

theorem load_spec_registered : registeredMachine.registry.loading = [] ∧ Stocked registeredMachine ∧
    ∃ after, (load "/app/x-y.component.js").run registeredMachine = (.ok 0, after) ∧ after.registry.loading = [] ∧
      Instantiated after "/app/x-y.component.js" 0 ∧ (load "/app/x-y.component.js").run after = (.ok 0, after) := by
  have idle : registeredMachine.registry.loading = [] := rfl
  have stocked : Stocked registeredMachine := fun key id found => by cases found
  obtain ⟨result, after, ran, _, idleAfter, added, again⟩ := load_spec "/app/x-y.component.js" idle stocked
  have isOk : ((load "/app/x-y.component.js").run registeredMachine).1 = .ok 0 := by decide +kernel
  rw [ran] at isOk
  cases isOk
  have isKey : Registry.key "/app/x-y.component.js" = "/app/x-y.component.js" := by decide +kernel
  have known := (loads_load _ _ _ _ ran).2
  rw [isKey] at known
  refine ⟨idle, stocked, after, ran, idleAfter, (added _ _ known).resolve_left fun before => ?_, again⟩
  cases before

end ReactiveMarkup.Machine
