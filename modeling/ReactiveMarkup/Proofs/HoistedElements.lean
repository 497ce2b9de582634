import ReactiveMarkup.Proofs.LoweredNames

/-! Constants for elements change nothing: with their definitions in place of them, the code is what
it is without constants. The two walks take the same steps, the one that has no constants from any
notes. -/

namespace ReactiveMarkup.Lowering

/-- The same surroundings, without constants for elements. -/
def Setting.flat (setting : Setting) : Setting := { setting with config := { setting.config with hoistElements := false } }

/-- Child components stand under the variables for their tags. -/
def Titled (used : Used) : Prop := ∀ entry ∈ used.components, entry.2 = Text.sanitize (Name.ofTag entry.1)

/-- Notes without constants that are the same otherwise, as far as code depends on them. -/
structure Alike (used flat : Used) : Prop where
  titled : Titled flat
  slots : flat.slots = used.slots

/-- Definitions of constants, and of nothing else. -/
def OnlyConstants (definitions : List (String × Code)) : Prop := ∀ name, ¬ Marked name → definitions.lookup name = none

/-- Definitions of all constants that were noted. -/
def Defines (definitions : List (String × Code)) (used : Used) : Prop :=
  ∀ entry ∈ used.elements, definitions.lookup entry.2 = some (construct .element [.string entry.1])

/-- A step has a counterpart without constants, which gives the same with the definitions in place. -/
def Flattens {α : Type} (definitions : List (String × Code)) (inlined : α → α) (step flat : Lower α) : Prop :=
  ∀ ⦃used value after⦄, Titled used → step.run used = .ok (value, after) → Titled after ∧ used.elements ⊆ after.elements ∧
    (Defines definitions after → ∀ ⦃start⦄, Alike used start → ∃ stop, flat.run start = .ok (inlined value, stop) ∧ Alike after stop)

variable {setting : Setting} {definitions : List (String × Code)} {α β : Type}

theorem Flattens.bind {inlined : α → α} {inlinedNext : β → β} {step flat : Lower α} {next flatNext : α → Lower β}
    (first : Flattens definitions inlined step flat)
    (second : ∀ value, Flattens definitions inlinedNext (next value) (flatNext (inlined value))) :
    Flattens definitions inlinedNext (step >>= next) (flat >>= flatNext) := by
  intro used result after titled done
  obtain ⟨value, between, isFirst, done⟩ := exists_of_run_bind done
  obtain ⟨titledBetween, grows, same⟩ := first titled isFirst
  obtain ⟨titledAfter, growsMore, sameNext⟩ := second value titledBetween done
  refine ⟨titledAfter, fun entry member => growsMore (grows member), fun defines start alike => ?_⟩
  obtain ⟨middle, isFlat, alikeMiddle⟩ := same (fun entry member => defines entry (growsMore member)) alike
  obtain ⟨stop, isNext, alikeStop⟩ := sameNext defines alikeMiddle
  refine ⟨stop, ?_, alikeStop⟩
  rw [StateT.run_bind, isFlat]
  exact isNext

theorem flattens_pure {inlined : α → α} {value other : α} (same : inlined value = other) :
    Flattens definitions inlined (pure value) (pure other) := by
  intro used result after titled done
  cases done
  exact ⟨titled, List.Subset.refl _, fun _ start alike => ⟨start, by rw [same]; rfl, alike⟩⟩

theorem flattens_throw {inlined : α → α} (problem : LoweringError) (flat : Lower α) :
    Flattens definitions inlined (throw problem) flat := by
  intro used result after _ done
  cases done

theorem flattens_use (constructor : Constructor) : Flattens definitions id (use constructor) (use constructor) := by
  intro used result after titled done
  cases done
  exact ⟨titled, List.Subset.refl _, fun _ start alike => ⟨_, rfl, alike.titled, alike.slots⟩⟩

theorem flattens_mapM {γ δ : Type} {inlined : β → β} {step : γ → Lower β} {flat : δ → Lower β} {items : List γ} {others : List δ}
    (each : List.Forall₂ (fun item other => Flattens definitions inlined (step item) (flat other)) items others) :
    Flattens definitions (List.map inlined) (items.mapM step) (others.mapM flat) := by
  induction each with
  | nil => exact flattens_pure rfl
  | cons first _ ih =>
    rw [List.mapM_cons, List.mapM_cons]
    exact first.bind fun value => ih.bind fun values => flattens_pure rfl

/-! Forms of code. -/

variable (only : OnlyConstants definitions)

include only in
theorem inline_name {name : String} (plain : ¬ Marked name) : (Code.identifier name).inline definitions = .identifier name := by
  rw [Code.inline, only name plain]
  rfl

include only in
theorem inline_construct (constructor : Constructor) (arguments : List Code) :
    (construct constructor arguments).inline definitions = construct constructor (arguments.map (Code.inline definitions)) := by
  rw [construct, Code.inline, inline_name only (not_marked constructor), Code.inlineAll_eq]
  rfl

theorem inline_inert {entries : List (String × Code)} (same : ∀ entry ∈ entries, entry.2.inline definitions = entry.2) :
    Code.inlineEntries definitions entries = entries := by
  rw [Code.inlineEntries_eq]
  refine (List.map_congr_left fun entry member => ?_).trans (List.map_id _)
  rw [same entry member]
  rfl

/-- What comes of attributes has no names in it. -/
theorem inline_fixed (attributes : List Attribute) : ∀ entry ∈ (groups attributes).attributes, entry.2.inline definitions = entry.2 := by
  intro entry member
  obtain ⟨⟨name, kind, value⟩, _, same⟩ := List.mem_filterMap.1 member
  cases kind <;> cases value <;> cases same <;> rfl

theorem inline_bound (attributes : List Attribute) : ∀ entry ∈ (groups attributes).properties, entry.2.inline definitions = entry.2 := by
  intro entry member
  obtain ⟨⟨name, kind, value⟩, _, same⟩ := List.mem_filterMap.1 member
  cases kind <;> cases value <;> cases same
  rfl

theorem inline_handler (attributes : List Attribute) : ∀ entry ∈ (groups attributes).events, entry.2.inline definitions = entry.2 := by
  intro entry member
  obtain ⟨⟨name, kind, value⟩, _, same⟩ := List.mem_filterMap.1 member
  cases kind <;> cases value <;> cases same
  rfl

theorem inline_context (attributes : List Attribute) : ∀ entry ∈ attributes.filterMap slotContext?,
    entry.2.inline definitions = entry.2 := by
  intro entry member
  obtain ⟨⟨name, kind, value⟩, _, same⟩ := List.mem_filterMap.1 member
  cases kind <;> cases value <;> cases same <;> rfl

theorem inlineEntries_append (first second : List (String × Code)) :
    Code.inlineEntries definitions (first ++ second) = Code.inlineEntries definitions first ++ Code.inlineEntries definitions second := by
  simp only [Code.inlineEntries_eq, List.map_append]

theorem inlineEntries_toList (key : String) (code : Option Code) :
    Code.inlineEntries definitions (code.map (key, ·)).toList = ((code.map (Code.inline definitions)).map (key, ·)).toList := by
  cases code <;> rfl

theorem inlineEntries_group (key : String) (entries : List (String × Code)) :
    Code.inlineEntries definitions (group key entries) = group key (Code.inlineEntries definitions entries) := by
  cases entries with
  | nil => rfl
  | cons entry rest => rfl

theorem inline_group {entries : List (String × Code)} (same : ∀ entry ∈ entries, entry.2.inline definitions = entry.2) (key : String) :
    Code.inlineEntries definitions (group key entries) = group key entries := by
  rw [inlineEntries_group, inline_inert same]

/-! Nodes. -/

/-- Code for a node, if there is any, with the definitions in place. -/
abbrev inlined (definitions : List (String × Code)) : Option Code → Option Code := Option.map (Code.inline definitions)

include only in
theorem flattens_siblings {actions flats : List Action} (each : List.Forall₂ (Flattens definitions (inlined definitions)) actions flats) :
    Flattens definitions (inlined definitions) (siblings actions) (siblings flats) := by
  refine (flattens_mapM each).bind fun lowered => ?_
  have same : (lowered.map (inlined definitions)).filterMap id = (lowered.filterMap id).map (Code.inline definitions) := by
    rw [List.filterMap_map, List.map_filterMap]
    rfl
  rw [same]
  match lowered.filterMap id with
  | [] => exact flattens_pure rfl
  | [only] => exact flattens_pure rfl
  | first :: second :: rest =>
    exact (flattens_use .fragment).bind fun _ => flattens_pure (congrArg some (inline_construct only ..))

theorem dropEmptyEnd_map (branches : List (Expression × Option Code)) :
    dropEmptyEnd (branches.map fun branch => (branch.1, inlined definitions branch.2)) =
      (dropEmptyEnd branches).map fun branch => (branch.1, inlined definitions branch.2) := by
  rw [dropEmptyEnd, dropEmptyEnd, ← List.map_reverse, List.dropWhile_map, List.map_reverse]
  congr 3
  funext branch
  exact Option.isNone_map

theorem inline_branchCode (branch : Expression × Option Code) :
    (branchCode branch).inline definitions = branchCode (branch.1, inlined definitions branch.2) := by
  obtain ⟨test, code⟩ := branch
  cases code <;> rfl

include only in
theorem flattens_conditional {actions flats : List (Expression × Action)} {last flatLast : Action}
    (each : List.Forall₂ (fun action flat => action.1 = flat.1 ∧ Flattens definitions (inlined definitions) action.2 flat.2) actions flats)
    (flattens : Flattens definitions (inlined definitions) last flatLast) :
    Flattens definitions (inlined definitions) (conditional actions last) (conditional flats flatLast) := by
  have eachBranch : List.Forall₂ (fun (action flat : Expression × Action) =>
      Flattens definitions (fun branch => (branch.1, inlined definitions branch.2))
        (do return (action.1, ← action.2)) (do return (flat.1, ← flat.2))) actions flats :=
    each.imp fun _ _ ⟨same, flattens⟩ => flattens.bind fun code => flattens_pure (by rw [same])
  refine (flattens_mapM eachBranch).bind fun found => flattens.bind fun lastCode => ?_
  have kept : (if (inlined definitions lastCode).isNone then dropEmptyEnd (found.map fun branch => (branch.1, inlined definitions branch.2))
      else found.map fun branch => (branch.1, inlined definitions branch.2)) =
      (if lastCode.isNone then dropEmptyEnd found else found).map fun branch => (branch.1, inlined definitions branch.2) := by
    rw [dropEmptyEnd_map, Option.isNone_map]
    split <;> rfl
  dsimp only
  rw [kept]
  generalize (if lastCode.isNone then dropEmptyEnd found else found) = branches
  rw [List.isEmpty_map, Option.isNone_map]
  split
  · exact flattens_pure rfl
  · refine (flattens_use .conditional).bind fun _ => flattens_pure (congrArg some ?_)
    rw [inline_construct only, List.map_singleton, Code.inline, Code.inlineEntries, inlineEntries_toList, Code.inline, Code.inlineAll_eq,
      List.map_map, List.map_map]
    simp only [Function.comp_def, inline_branchCode]

include only in
theorem flattens_loop {item items track : Expression} {body flatBody empty flatEmpty : Action}
    (flattens : Flattens definitions (inlined definitions) body flatBody)
    (flattensEmpty : Flattens definitions (inlined definitions) empty flatEmpty) :
    Flattens definitions (inlined definitions) (loop item items track body empty) (loop item items track flatBody flatEmpty) := by
  rw [loop, loop]
  split
  next => exact flattens_throw _ _
  next name _ =>
    refine flattens.bind fun bodyCode => flattensEmpty.bind fun emptyCode => ?_
    rw [Option.isNone_map, Option.isNone_map]
    split
    · exact flattens_pure rfl
    refine (flattens_use .loop).bind fun _ => ?_
    have same (inner : Code) : (construct .loop [.object ([("items", .thunk (.host items)),
      ("trackBy", .arrow [.name name] (.host track))] ++
        (emptyCode.map ("empty", ·)).toList), .arrow [.name name] inner]).inline definitions =
        construct .loop [.object ([("items", .thunk (.host items)), ("trackBy", .arrow [.name name] (.host track))] ++
          ((inlined definitions emptyCode).map ("empty", ·)).toList), .arrow [.name name] (inner.inline definitions)] := by
      rw [inline_construct only, List.map_cons, List.map_singleton, Code.inline, Code.inline, inlineEntries_append, inlineEntries_toList]
      rfl
    cases bodyCode with
    | none =>
      have nothing := (same (construct .fragment [])).trans (by rw [inline_construct only])
      exact (flattens_use .fragment).bind fun _ => flattens_pure (congrArg some nothing)
    | some inner => exact flattens_pure (congrArg some (same _))

include only in
theorem flattens_text (value : String) : Flattens definitions (inlined definitions) (text value) (text value) := by
  rw [text]
  split
  · exact flattens_pure rfl
  · exact (flattens_use .text).bind fun _ => flattens_pure (congrArg some (inline_construct only ..))

include only in
theorem flattens_interpolation (value : Expression) :
    Flattens definitions (inlined definitions) (interpolation value) (interpolation value) :=
  (flattens_use .text).bind fun _ => flattens_pure (congrArg some (inline_construct only ..))

theorem not_marked_slots : ¬ Marked slotsName := by
  rintro ⟨behind, same⟩
  have sizes := congrArg String.toList same
  rw [String.toList_append] at sizes
  simp [slotsName] at sizes

include only in
theorem flattens_slot (attributes : List Attribute) : Flattens definitions (inlined definitions) (slot attributes) (slot attributes) := by
  have noted : Flattens definitions id (modify fun used => { used with slots := true })
    (modify fun used => { used with slots := true }) := by
    intro used result after titled done
    cases done
    exact ⟨titled, List.Subset.refl _, fun _ start alike => ⟨_, rfl, alike.titled, rfl⟩⟩
  refine noted.bind fun _ => flattens_pure (congrArg some ?_)
  rw [Code.inline, Code.inline, inline_name only not_marked_slots, Code.inlineAll_eq, List.map_singleton, Code.inline,
    inline_inert (inline_context _)]
  rfl

theorem elementVariable_notes {tag name : String} {used after : Used} (titled : Titled used)
    (done : (elementVariable tag).run used = .ok (name, after)) :
    Titled after ∧ used.elements ⊆ after.elements ∧ (tag, name) ∈ after.elements ∧ after.slots = used.slots := by
  obtain ⟨_, _, isUsed, done⟩ := exists_of_run_bind done
  cases isUsed
  split at done
  next name found =>
    cases done
    exact ⟨titled, List.Subset.refl _, Entries.mem_of_get? found, rfl⟩
  next fresh =>
    obtain ⟨_, _, isSet, done⟩ := exists_of_run_bind done
    cases isSet
    cases done
    rw [Entries.put_of_fresh fresh]
    exact ⟨titled, List.subset_append_left _ _, List.mem_append_right _ (List.mem_singleton_self _), rfl⟩

include only in
/-- A constant is defined as the constructor for its own tag. -/
theorem flattens_elementCode (tag : String) :
    Flattens definitions (Code.inline definitions) (elementCode setting tag) (elementCode setting.flat tag) := by
  rw [elementCode, elementCode, if_neg (show ¬ setting.flat.config.hoistElements = true from (fun never => by cases never))]
  split
  next =>
    intro used code after titled done
    rw [StateT.run_map] at done
    cases isVariable : (elementVariable tag).run used with
    | error problem =>
      rw [isVariable] at done
      cases done
    | ok found =>
      obtain ⟨name, _⟩ := found
      rw [isVariable] at done
      cases done
      obtain ⟨titledAfter, grows, noted, slots⟩ := elementVariable_notes titled isVariable
      refine ⟨titledAfter, grows, fun defines start alike => ⟨start, ?_, alike.titled, alike.slots.trans slots.symm⟩⟩
      rw [Code.inline, defines _ noted]
      rfl
  next => exact flattens_pure (inline_construct only ..)

include only in
theorem flattens_element {action flat : Action} (tag : String) (attributes : List Attribute)
    (flattens : Flattens definitions (inlined definitions) action flat) :
    Flattens definitions (inlined definitions) (element setting tag attributes action) (element setting.flat tag attributes flat) := by
  refine (flattens_use .element).bind fun _ => (flattens_elementCode only tag).bind fun callee => flattens.bind fun child =>
    flattens_pure (congrArg some ?_)
  have inside :
      Code.inlineEntries definitions (group "attrs" (groups attributes).attributes ++ group "props" (groups attributes).properties ++
        group "events" (groups attributes).events ++ (child.map ("child", ·)).toList) =
      group "attrs" (groups attributes).attributes ++ group "props" (groups attributes).properties ++
        group "events" (groups attributes).events ++ ((inlined definitions child).map ("child", ·)).toList := by
    rw [inlineEntries_append, inlineEntries_append, inlineEntries_append, inline_group (inline_fixed _), inline_group (inline_bound _),
      inline_group (inline_handler _), inlineEntries_toList]
  rw [Code.inline, ← inside]
  generalize group "attrs" (groups attributes).attributes ++ group "props" (groups attributes).properties ++
    group "events" (groups attributes).events ++ (child.map ("child", ·)).toList = properties
  cases properties <;> rfl

/-! Components. -/

/-- The variable of a child component does not depend on what was noted. -/
theorem run_componentVariable_titled (tag : String) {used : Used} (titled : Titled used) :
    ∃ after, (componentVariable tag).run used = .ok (Text.sanitize (Name.ofTag tag), after) ∧ Titled after ∧
      after.elements = used.elements ∧ after.slots = used.slots := by
  cases found : Entries.get? used.components tag with
  | some name =>
    refine ⟨used, ?_, titled, rfl, rfl⟩
    rw [← titled _ (Entries.mem_of_get? found), componentVariable, StateT.run_bind, StateT.run_get, pure_bind]
    simp only [found]
    rfl
  | none =>
    refine ⟨{ used with components := Entries.put used.components tag (Text.sanitize (Name.ofTag tag)) }, ?_, ?_, rfl, rfl⟩
    · rw [componentVariable, StateT.run_bind, StateT.run_get, pure_bind]
      simp only [found]
      rfl
    · rw [Titled, Entries.put_of_fresh found]
      exact List.forall_mem_append.2 ⟨titled, List.forall_mem_singleton.2 rfl⟩

theorem flattens_componentVariable_bind {tag : String} {inlined : α → α} {next flat : String → Lower α}
    (flattens : Flattens definitions inlined (next (Text.sanitize (Name.ofTag tag))) (flat (Text.sanitize (Name.ofTag tag)))) :
    Flattens definitions inlined (componentVariable tag >>= next) (componentVariable tag >>= flat) := by
  intro used value after titled done
  obtain ⟨between, isVariable, titledBetween, elements, slots⟩ := run_componentVariable_titled tag titled
  rw [StateT.run_bind, isVariable] at done
  obtain ⟨titledAfter, grows, same⟩ := flattens titledBetween done
  refine ⟨titledAfter, elements ▸ grows, fun defines start alike => ?_⟩
  obtain ⟨middle, isMiddle, titledMiddle, _, slotsMiddle⟩ := run_componentVariable_titled tag alike.titled
  obtain ⟨stop, isStop, alikeStop⟩ := same defines ⟨titledMiddle, slotsMiddle.trans (alike.slots.trans slots.symm)⟩
  refine ⟨stop, ?_, alikeStop⟩
  rw [StateT.run_bind, isMiddle]
  exact isStop

/-- Content for a slot that has a counterpart without constants. -/
def FlatRouted (definitions : List (String × Code)) (routed flat : Routed) : Prop :=
  routed.slot = flat.slot ∧ routed.bindings = flat.bindings ∧
    List.Forall₂ (Flattens definitions (inlined definitions)) routed.actions flat.actions

theorem flatRouted_add {slots flats : Entries Routed} {routed flat : Routed}
    (all : List.Forall₂ (fun entry other => entry.1 = other.1 ∧ FlatRouted definitions entry.2 other.2) slots flats)
    (same : FlatRouted definitions routed flat) :
    List.Forall₂ (fun entry other => entry.1 = other.1 ∧ FlatRouted definitions entry.2 other.2) (addRouted slots routed)
      (addRouted flats flat) := by
  obtain ⟨slot, bindings, each⟩ := same
  induction all with
  | nil => exact .cons ⟨slot, slot, bindings, each⟩ .nil
  | @cons entry other _ _ first rest ih =>
    obtain ⟨name, old⟩ := entry
    obtain ⟨_, oldFlat⟩ := other
    obtain ⟨rfl, _, oldBindings, oldEach⟩ := first
    rw [addRouted_cons, addRouted_cons]
    dsimp only
    rw [slot]
    split
    · exact .cons ⟨rfl, rfl, by rw [oldBindings, bindings], List.rel_append oldEach each⟩ rest
    · exact .cons ⟨rfl, ‹_›, oldBindings, oldEach⟩ ih

include only in
theorem flattens_slotFunction {routed flat : Routed} (same : FlatRouted definitions routed flat) :
    Flattens definitions (Option.map fun entry => (entry.1, entry.2.inline definitions)) (slotFunction routed) (slotFunction flat) := by
  obtain ⟨slot, bindings, each⟩ := same
  refine (flattens_siblings only each).bind fun code => ?_
  cases code with
  | none => exact flattens_pure rfl
  | some body => exact flattens_pure (by rw [slot, bindings]; rfl)

/-- A component gathers its content first. -/
theorem component_eq (name : String) (attributes : List Attribute) (routes : List (Except LoweringError Routed)) :
    component name attributes routes = (do
      use .component
      let callee ← componentVariable name
      match gather [] routes with
      | .error problem => throw problem
      | .ok slots =>
        let functions ← slots.mapM fun entry => slotFunction entry.2
        let properties := group "props" ((groups attributes).attributes ++ (groups attributes).properties) ++
          group "events" (groups attributes).events ++ group "slots" (functions.filterMap id)
        return some (.call (.identifier callee) [.object properties])) := by
  rw [component]
  congr 1
  funext _
  congr 1
  funext callee
  refine StateT.ext fun used => ?_
  show StateT.run (forIn routes [] _ >>= _) used = _
  rw [StateT.run_bind]
  refine (congrArg (· >>= _) (run_gather [] routes used)).trans ?_
  cases gather [] routes <;> rfl

/-- Routes that lead the same way with and without constants. -/
def FlatRoutes (definitions : List (String × Code)) (route flat : Except LoweringError Routed) : Prop :=
  ∀ routed, route = .ok routed → ∃ other, flat = .ok other ∧ FlatRouted definitions routed other

theorem flatRouted_gather {routes flats : List (Except LoweringError Routed)} {start flatStart slots : Entries Routed}
    (each : List.Forall₂ (FlatRoutes definitions) routes flats)
    (all : List.Forall₂ (fun entry other => entry.1 = other.1 ∧ FlatRouted definitions entry.2 other.2) start flatStart)
    (gathered : gather start routes = .ok slots) :
    ∃ others, gather flatStart flats = .ok others ∧
      List.Forall₂ (fun entry other => entry.1 = other.1 ∧ FlatRouted definitions entry.2 other.2) slots others := by
  induction each generalizing start flatStart with
  | nil =>
    cases gathered
    exact ⟨flatStart, rfl, all⟩
  | @cons route flat _ _ first _ ih =>
    cases route with
    | error problem => cases gathered
    | ok routed =>
      obtain ⟨other, rfl, same⟩ := first routed rfl
      exact ih (flatRouted_add all same) gathered

include only in
theorem flattens_component {routes flats : List (Except LoweringError Routed)} {tag : String} (attributes : List Attribute)
    (parts : ∀ c ∈ tag.toList, Text.isTagPart c = true) (each : List.Forall₂ (FlatRoutes definitions) routes flats) :
    Flattens definitions (inlined definitions) (component tag attributes routes) (component tag attributes flats) := by
  rw [component_eq, component_eq]
  refine (flattens_use .component).bind fun _ => flattens_componentVariable_bind ?_
  cases isSlots : gather [] routes with
  | error problem => exact flattens_throw _ _
  | ok slots =>
    obtain ⟨others, areOthers, all⟩ := flatRouted_gather each .nil isSlots
    rw [areOthers]
    have each : List.Forall₂ (fun entry other => Flattens definitions (Option.map fun entry => (entry.1, entry.2.inline definitions))
        (slotFunction entry.2) (slotFunction other.2)) slots others := all.imp fun _ _ same => flattens_slotFunction only same.2
    refine (flattens_mapM each).bind fun functions => flattens_pure (congrArg some ?_)
    have content : (functions.map (Option.map fun entry => (entry.1, entry.2.inline definitions))).filterMap id =
        Code.inlineEntries definitions (functions.filterMap id) := by
      rw [Code.inlineEntries_eq, List.filterMap_map, List.map_filterMap]
      rfl
    rw [Code.inline, inline_name only (not_marked_ofTag parts), Code.inlineAll_eq, List.map_singleton, Code.inline, inlineEntries_append,
      inlineEntries_append, inlineEntries_group _ (functions.filterMap id), content,
      inline_group (List.forall_mem_append.2 ⟨inline_fixed _, inline_bound _⟩), inline_group (inline_handler _)]

/-! Markup. -/

theorem flatRoutes_default {action flat : Action} (flattens : Flattens definitions (inlined definitions) action flat) :
    FlatRoutes definitions (.ok ⟨"default", [action], []⟩) (.ok ⟨"default", [flat], []⟩) := by
  rintro _ ⟨⟩
  exact ⟨_, rfl, rfl, rfl, .cons flattens .nil⟩

theorem flatRoutes_wrapper {tag : String} {attributes : List Attribute} {actions flats : List Action}
    (each : List.Forall₂ (Flattens definitions (inlined definitions)) actions flats) :
    FlatRoutes definitions (wrapper tag attributes actions) (wrapper tag attributes flats) := by
  intro routed done
  rw [wrapper] at done ⊢
  cases isSlot : wrapperSlot tag attributes with
  | error problem =>
    rw [isSlot] at done
    cases done
  | ok slot =>
    cases areBindings : attributes.mapM (binding? tag) with
    | error problem =>
      rw [isSlot, areBindings] at done
      cases done
    | ok bindings =>
      rw [isSlot, areBindings] at done
      cases done
      exact ⟨_, rfl, rfl, rfl, each⟩

mutual
theorem flattens_node (only : OnlyConstants definitions) : (self : Markup) →
    (∀ node ∈ reached setting.config self, PlainChild setting node) →
    Flattens definitions (inlined definitions) (node setting self) (node setting.flat self)
  | .element name attributes children, plain => by
    rw [node, node, show setting.flat.config.templateTag = setting.config.templateTag from rfl,
      show setting.flat.config.slotTag = setting.config.slotTag from rfl, show setting.flat.siblings = setting.siblings from rfl]
    split
    next => exact flattens_throw _ _
    next noWrapper =>
      split
      next => exact flattens_slot only attributes
      next noSlot =>
        rw [reached, if_neg (fun isSlot => noSlot isSlot.1)] at plain
        obtain ⟨plain, plainInside⟩ := List.forall_mem_cons.1 plain
        split
        next known =>
          refine flattens_component only attributes (plain name ?_) (flattens_routes only children plainInside)
          simp [childTag?, noWrapper, noSlot, known]
        next => exact flattens_element only name attributes (flattens_siblings only (flattens_nodes only children plainInside))
  | .text value, _ => by
    rw [node, node]
    exact flattens_text only value
  | .expression value, _ => by
    rw [node, node]
    exact flattens_interpolation only value
  | .conditional test body others otherwise, plain => by
    rw [reached, List.forall_mem_cons, List.forall_mem_append, List.forall_mem_append] at plain
    rw [node, node]
    exact flattens_conditional only
      (.cons ⟨rfl, flattens_siblings only (flattens_nodes only body plain.2.1)⟩ (flattens_branches only others plain.2.2.1))
      (flattens_siblings only (flattens_nodes only otherwise plain.2.2.2))
  | .loop item items track body empty, plain => by
    rw [reached, List.forall_mem_cons, List.forall_mem_append] at plain
    rw [node, node]
    exact flattens_loop only (flattens_siblings only (flattens_nodes only body plain.2.1))
      (flattens_siblings only (flattens_nodes only empty plain.2.2))

theorem flattens_nodes (only : OnlyConstants definitions) : (several : List Markup) →
    (∀ node ∈ reachedIn setting.config several, PlainChild setting node) →
    List.Forall₂ (Flattens definitions (inlined definitions)) (nodes setting several) (nodes setting.flat several)
  | [], _ => by
    rw [nodes, nodes]
    exact .nil
  | first :: rest, plain => by
    rw [reachedIn, List.forall_mem_append] at plain
    rw [nodes, nodes]
    exact .cons (flattens_node only first plain.1) (flattens_nodes only rest plain.2)

theorem flattens_branches (only : OnlyConstants definitions) : (others : List (Branch Markup)) →
    (∀ node ∈ reachedInBranches setting.config others, PlainChild setting node) →
    List.Forall₂ (fun action flat => action.1 = flat.1 ∧ Flattens definitions (inlined definitions) action.2 flat.2)
      (branches setting others) (branches setting.flat others)
  | [], _ => by
    rw [branches, branches]
    exact .nil
  | ⟨test, body⟩ :: rest, plain => by
    rw [reachedInBranches, List.forall_mem_append] at plain
    rw [branches, branches]
    exact .cons ⟨rfl, flattens_siblings only (flattens_nodes only body plain.1)⟩ (flattens_branches only rest plain.2)

theorem flattens_routes (only : OnlyConstants definitions) : (several : List Markup) →
    (∀ node ∈ reachedIn setting.config several, PlainChild setting node) →
    List.Forall₂ (FlatRoutes definitions) (routes setting several) (routes setting.flat several)
  | [], _ => by
    rw [routes, routes]
    exact .nil
  | first :: rest, plain => by
    rw [reachedIn, List.forall_mem_append] at plain
    have alone := flatRoutes_default (flattens_node only first plain.1)
    cases first with
    | element name attributes children =>
      rw [routes, routes, show setting.flat.config.templateTag = setting.config.templateTag from rfl]
      refine .cons ?_ (flattens_routes only rest plain.2)
      split
      next isWrapper =>
        have inside : reached setting.config (.element name attributes children) =
          .element name attributes children :: reachedIn setting.config children := by
          simp [reached, isWrapper]
        rw [inside] at plain
        exact flatRoutes_wrapper (flattens_nodes only children fun node member => plain.1 node (List.mem_cons_of_mem _ member))
      next => exact alone
    | _ =>
      rw [routes, routes]
      · exact .cons alone (flattens_routes only rest plain.2)
      all_goals exact fun _ _ _ => nofun
end

end ReactiveMarkup.Lowering
