import ReactiveMarkup.Proofs.HoistedElements

/-! Generated modules are closed: they import and declare what they use, no more, and nothing that
stands in them is left unbound. -/

namespace ReactiveMarkup

open Lowering

/-- The name of an element is spelled in characters of tags. -/
def Markup.isTagged : Markup → Bool
  | .element name _ _ => name.toList.all Text.isTagPart
  | _ => true

theorem Markup.plainChild_of_isTagged {setting : Setting} {node : Markup} (tagged : node.isTagged = true) : PlainChild setting node := by
  intro tag isChild
  cases node with
  | element name attributes children =>
    rw [childTag?] at isChild
    split at isChild
    · cases isChild
      exact List.all_eq_true.1 tagged
    · cases isChild
  | _ => cases isChild

namespace Lowering

variable {setting : Setting} {used after : Used} {m : Mention}

/-! Names of their own. -/

theorem name_injective {first second : Constructor} (same : first.name = second.name) : first = second := by
  cases first <;> cases second <;> first | rfl | exact absurd same (by decide)

theorem dollar_mem_name (constructor : Constructor) : '$' ∈ constructor.name.toList := by
  cases constructor <;> decide

/-- Notes in which the variables of child components are apart from all other names. -/
def Distinct (used : Used) : Prop := ∀ entry ∈ used.components, '$' ∉ entry.2.toList ∧ entry.2 ≠ controllerName

theorem mentions_constructor (recorded : Recorded setting used) (distinct : Distinct used) (constructor : Constructor) :
    used.Mentions (.called constructor.name) ↔ constructor ∈ used.constructors := by
  constructor
  · rintro (⟨other, member, same⟩ | ⟨entry, member, same⟩ | ⟨entry, member, same⟩ | ⟨_, same⟩)
    · rw [name_injective (Mention.called.inj same)]
      exact member
    · exact absurd (Mention.called.inj same ▸ recorded.marked member) (not_marked _)
    · exact absurd (Mention.called.inj same ▸ dollar_mem_name constructor) (distinct entry member).1
    · cases same
  · exact fun member => .inl ⟨constructor, member, rfl⟩

theorem mentions_constant (distinct : Distinct used) {name : String} (marked : Marked name) :
    used.Mentions (.called name) ↔ name ∈ used.elements.map (·.2) := by
  constructor
  · rintro (⟨other, _, same⟩ | ⟨entry, member, same⟩ | ⟨entry, member, same⟩ | ⟨_, same⟩)
    · exact absurd (Mention.called.inj same ▸ marked) (not_marked _)
    · rw [Mention.called.inj same]
      exact List.mem_map_of_mem member
    · obtain ⟨behind, rfl⟩ := marked
      refine absurd ?_ (distinct entry member).1
      rw [← Mention.called.inj same, String.toList_append]
      exact List.mem_append_left _ (by decide)
    · cases same
  · intro member
    obtain ⟨entry, inside, rfl⟩ := List.mem_map.1 member
    exact .inr (.inl ⟨entry, inside, rfl⟩)

theorem mentions_slots : used.Mentions (.opened slotsName) ↔ used.slots = true := by
  simp [Used.Mentions]

/-! The module around the code. -/

/-- The imports of child components. -/
def childImports (setting : Setting) (files : ComponentFiles) (resolver : ComponentFiles → String) (tags : List String) :
    List (List Specifier × String) :=
  tags.filterMap fun tag => (Entries.get? setting.siblings tag).map fun child =>
    ([.default (Text.sanitize (Name.ofTag tag))], Path.relative files.directory (resolver child))

/-- A constant for each element that was noted, defined by its tag. -/
def constantsOf (used : Used) : List (String × Code) := used.elements.map fun (tag, name) => (name, construct .element [.string tag])

/-- The function that renders a component. -/
def renderFunction (root : Option Code) (used : Used) : Code :=
  .function (if used.slots then [slotsName] else []) [.returns (root.getD .null)]

/-- What a module imports: constructors, styles, the controller and child components. -/
def importsOf (setting : Setting) (files : ComponentFiles) (resolver : ComponentFiles → String) (used : Used) :
    List (List Specifier × String) :=
  ((Constructor.names used.constructors).map .named, setting.config.runtimeModule) ::
    ((files.styles.map fun path => ([], Path.relative files.directory path)).toList ++
      ([.default controllerName], Path.relative files.directory files.controller) ::
        childImports setting files resolver (Entries.names used.components))

/-- The definition that a module exports. -/
def definitionOf (files : ComponentFiles) (root : Option Code) (used : Used) : Code :=
  construct .component [.string files.name, .identifier controllerName, renderFunction root used]

variable {files : ComponentFiles} {resolver : ComponentFiles → String} {root : Option Code}

/-- A module with some imports and constants, and one definition. -/
def moduleOf (imports : List (List Specifier × String)) (constants : List (String × Code)) (definition : Code) : Program :=
  imports.map (fun entry => .imports entry.1 entry.2) ++
    ((if constants.isEmpty then [] else [.constants constants]) ++ [.exports definition])

theorem assemble_eq (recorded : Recorded setting used) : assemble setting files resolver root used =
    moduleOf (importsOf setting files resolver used) (constantsOf used) (definitionOf files root used) := by
  have children : (used.components.filterMap fun (tag, name) => (Entries.get? setting.siblings tag).map fun child =>
      Statement.imports [.default name] (Path.relative files.directory (resolver child))) =
      (childImports setting files resolver (Entries.names used.components)).map fun entry => Statement.imports entry.1 entry.2 := by
    rw [childImports, List.map_filterMap, Entries.names, List.filterMap_map]
    refine List.filterMap_congr fun entry member => ?_
    rw [Function.comp_apply, ← (recorded.children entry member).2, Option.map_map]
    rfl
  have constants : (if setting.config.hoistElements && !(constantsOf used).isEmpty then [Statement.constants (constantsOf used)] else []) =
      if (constantsOf used).isEmpty then [] else [.constants (constantsOf used)] := by
    cases hoists : setting.config.hoistElements with
    | true => cases (constantsOf used).isEmpty <;> rfl
    | false =>
      rw [constantsOf, recorded.hoisted hoists]
      rfl
  have styles : (files.styles.map fun path => Statement.imports [] (Path.relative files.directory path)).toList =
      (files.styles.map fun path => (([] : List Specifier), Path.relative files.directory path)).toList.map
        fun entry => Statement.imports entry.1 entry.2 := by
    cases files.styles <;> rfl
  rw [moduleOf, importsOf, List.map_cons, List.map_append, List.map_cons, ← children, ← constants, ← styles]
  simp only [assemble, constantsOf, definitionOf, renderFunction, List.append_assoc, List.cons_append, List.nil_append]
  rfl

theorem exported?_assemble : (assemble setting files resolver root used).exported? = some (definitionOf files root used) := by
  rw [assemble, Program.exported?, List.findSome?_append, List.findSome?_eq_none_iff.2 ?_]
  · rfl
  · intro statement member
    simp only [List.mem_append, List.mem_singleton, List.mem_filterMap, Option.map_eq_some_iff, Option.mem_toList] at member
    obtain (((rfl | ⟨_, _, rfl⟩) | rfl) | ⟨_, _, _, _, rfl⟩) | constants := member
    · rfl
    · rfl
    · rfl
    · rfl
    · split at constants
      · rw [List.mem_singleton.1 constants]
      · cases constants

variable {imports : List (List Specifier × String)} {constants : List (String × Code)} {definition : Code}

theorem imports_moduleOf : Program.imports (moduleOf imports constants definition) = imports := by
  rw [moduleOf, Program.imports, List.filterMap_append, List.filterMap_append, List.filterMap_map]
  cases constants <;> simp

theorem constants_moduleOf : Program.constants (moduleOf imports constants definition) = constants := by
  rw [moduleOf, Program.constants, List.flatMap_append, List.flatMap_append, List.flatMap_map]
  cases constants <;> simp

theorem exported?_moduleOf : Program.exported? (moduleOf imports constants definition) = some definition := by
  rw [moduleOf, Program.exported?, List.findSome?_append, List.findSome?_append, List.findSome?_eq_none_iff.2 ?_]
  · cases constants <;> rfl
  · exact List.forall_mem_map.2 fun entry _ => rfl

theorem topNames_moduleOf : Program.topNames (moduleOf imports constants definition) =
    imports.flatMap (fun entry => entry.1.map Specifier.name) ++ constants.map (·.1) := by
  rw [moduleOf, Program.topNames, List.flatMap_append, List.flatMap_append, List.flatMap_map]
  cases constants <;> simp

theorem parts_moduleOf : Program.parts (moduleOf imports constants definition) = constants.flatMap (·.2.parts) ++ definition.parts := by
  rw [moduleOf, Program.parts, Code.partsOfStatements_eq, List.flatMap_append, List.flatMap_append, List.flatMap_map]
  cases constants <;> simp [Code.partsOfStatement, Code.partsOfEntries_eq]

theorem unbound_moduleOf (scope : List String) : Code.unboundInStatements scope (moduleOf imports constants definition) =
    Code.unboundInEntries scope constants ++ definition.unbound scope := by
  rw [moduleOf, Code.unboundInStatements_eq, List.flatMap_append, List.flatMap_append, List.flatMap_map]
  cases constants <;> simp [Code.unboundInStatement, Code.unboundInEntries]

/-! What the module mentions. -/

variable {nodes : Set Markup}

theorem mentions_moduleOf (m : Mention) : m ∈ Program.mentions (moduleOf imports constants definition) ↔
    Code.MentionedIn (constants.map (·.2)) m ∨ m ∈ definition.mentions := by
  rw [Program.mentions, parts_moduleOf, List.filterMap_append, List.mem_append]
  refine or_congr_left ?_
  simp only [Code.MentionedIn, Code.mentions, List.mem_filterMap, List.mem_flatMap, List.mem_map]
  constructor
  · rintro ⟨part, ⟨entry, member, inside⟩, mentioned⟩
    exact ⟨_, ⟨entry, member, rfl⟩, part, inside, mentioned⟩
  · rintro ⟨_, ⟨entry, member, rfl⟩, part, inside, mentioned⟩
    exact ⟨part, ⟨entry, member, inside⟩, mentioned⟩

theorem mentions_constantsOf (m : Mention) : Code.MentionedIn ((constantsOf used).map (·.2)) m ↔
    m = .called Constructor.element.name ∧ used.elements ≠ [] := by
  have each (tag : String) : m ∈ (construct .element [.string tag]).mentions ↔ m = .called Constructor.element.name := by
    rw [construct, Code.mem_mentions_call]
    exact or_iff_left (not_mentionedIn (List.forall_mem_singleton.2 rfl) m)
  constructor
  · rintro ⟨_, member, mentioned⟩
    simp only [constantsOf, List.map_map, List.mem_map] at member
    obtain ⟨entry, inside, rfl⟩ := member
    exact ⟨(each _).1 mentioned, List.ne_nil_of_mem inside⟩
  · rintro ⟨isElement, some⟩
    obtain ⟨entry, member⟩ := List.exists_mem_of_ne_nil _ some
    exact ⟨_, List.mem_map_of_mem (List.mem_map_of_mem member), (each _).2 isElement⟩

theorem mentions_renderFunction (m : Mention) : m ∈ (renderFunction root used).mentions ↔ Code.MentionedIn root.toList m := by
  have isParts : (renderFunction root used).parts = renderFunction root used :: [root.getD .null].flatMap Code.parts := by
    rw [renderFunction, Code.parts, Code.partsOfStatements_eq, List.flatMap_singleton, List.flatMap_singleton, Code.partsOfStatement]
  rw [Code.mem_mentions isParts, Code.mentionedIn_singleton]
  refine (or_iff_right nofun).trans ?_
  cases root with
  | none => exact iff_of_false List.not_mem_nil Code.mentionedIn_nil
  | some code => exact Code.mentionedIn_singleton.symm

theorem mentions_definitionOf (m : Mention) : m ∈ (definitionOf files root used).mentions ↔
    m = .called Constructor.component.name ∨ Code.MentionedIn root.toList m := by
  rw [definitionOf, construct, Code.mem_mentions_call, Code.mentionedIn_cons, Code.mentionedIn_cons, Code.mentionedIn_singleton,
    mentions_renderFunction]
  exact or_congr_right ((or_iff_right List.not_mem_nil).trans (or_iff_right List.not_mem_nil))

theorem distinct_of_walked (walked : Walked setting nodes {} used root.toList)
    (plain : ∀ node ∈ nodes, PlainChild setting node) : Distinct used := by
  intro entry member
  obtain ⟨node, inside, isChild⟩ := ((walked.children entry.1).1 (List.mem_map_of_mem member)).resolve_left nofun
  rw [(walked.recorded.children entry member).2]
  exact sanitize_ofTag (plain node inside _ isChild)

theorem mentions_start : Used.Mentions {} m ↔ m = .called Constructor.component.name := by
  simp [Used.Mentions]

/-- The constants that were noted are those that the code calls. -/
theorem mem_elements_iff (walked : Walked setting nodes {} used root.toList) (distinct : Distinct used) {name : String} :
    name ∈ used.elements.map (·.2) ↔ Marked name ∧ Code.MentionedIn root.toList (.called name) := by
  have called (marked : Marked name) : name ∈ used.elements.map (·.2) ↔ Code.MentionedIn root.toList (.called name) := by
    rw [← mentions_constant distinct marked, walked.mentions, mentions_start, Needed]
    have apart (constructor : Constructor) : Mention.called name ≠ .called constructor.name := fun same =>
      not_marked constructor (Mention.called.inj same ▸ marked)
    rw [or_iff_right (apart .component)]
    exact or_iff_left fun element => apart .element element.1
  constructor
  · intro member
    obtain ⟨entry, inside, rfl⟩ := List.mem_map.1 member
    have marked := walked.recorded.marked inside
    exact ⟨marked, (called marked).1 member⟩
  · rintro ⟨marked, mentioned⟩
    exact (called marked).2 mentioned

/-- The constructors that were noted are those that the module calls. -/
theorem mem_constructors_iff (walked : Walked setting nodes {} used root.toList) (distinct : Distinct used) (constructor : Constructor) :
    constructor ∈ used.constructors ↔
      .called constructor.name ∈ (moduleOf imports (constantsOf used) (definitionOf files root used)).mentions := by
  rw [← mentions_constructor walked.recorded distinct, walked.mentions, mentions_start, mentions_moduleOf, mentions_constantsOf,
    mentions_definitionOf, Needed]
  have constants : used.elements ≠ [] ↔ ∃ name, Marked name ∧ Code.MentionedIn root.toList (.called name) := by
    simp only [← mem_elements_iff walked distinct]
    constructor
    · intro some
      obtain ⟨entry, member⟩ := List.exists_mem_of_ne_nil _ some
      exact ⟨_, List.mem_map_of_mem member⟩
    · rintro ⟨name, member⟩ none
      rw [none] at member
      cases member
  rw [constants, ← or_assoc, or_comm]

/-! What the module leaves unbound. -/

/-- The names that are in scope everywhere in the module. -/
def scopeOf (setting : Setting) (files : ComponentFiles) (resolver : ComponentFiles → String) (used : Used) : List String :=
  (importsOf setting files resolver used).flatMap (fun entry => entry.1.map Specifier.name) ++ (constantsOf used).map (·.1)

theorem constructor_mem_scope {constructor : Constructor} (member : constructor ∈ used.constructors) :
    constructor.name ∈ scopeOf setting files resolver used := by
  refine List.mem_append_left _ (List.mem_flatMap.2 ⟨_, List.mem_cons_self .., ?_⟩)
  rw [List.map_map, show Specifier.name ∘ Specifier.named = id from rfl, List.map_id]
  refine List.mem_map_of_mem (List.mem_filter.2 ⟨?_, List.contains_iff_mem.2 member⟩)
  cases constructor <;> decide

theorem controllerName_mem_scope : controllerName ∈ scopeOf setting files resolver used := by
  refine List.mem_append_left _ (List.mem_flatMap.2
    ⟨([.default controllerName], Path.relative files.directory files.controller), ?_, List.mem_singleton_self _⟩)
  exact List.mem_cons_of_mem _ (List.mem_append_right _ (List.mem_cons_self ..))

/-- Whatever the code calls is in scope. -/
theorem called_mem_scope (recorded : Recorded setting used) {name : String} (called : used.Mentions (.called name)) :
    name ∈ scopeOf setting files resolver used := by
  obtain ⟨constructor, member, same⟩ | ⟨entry, member, same⟩ | ⟨entry, member, same⟩ | ⟨_, same⟩ := called
  · cases same
    exact constructor_mem_scope member
  · cases same
    refine List.mem_append_right _ ?_
    rw [constantsOf, List.map_map]
    exact List.mem_map_of_mem (f := fun entry : String × String => entry.2) member
  · cases same
    obtain ⟨known, isName⟩ := recorded.children entry member
    obtain ⟨child, found⟩ := Option.isSome_iff_exists.1 known
    refine List.mem_append_left _ (List.mem_flatMap.2
      ⟨([.default entry.2], Path.relative files.directory (resolver child)), ?_, List.mem_singleton_self _⟩)
    refine List.mem_cons_of_mem _ (List.mem_append_right _ (List.mem_cons_of_mem _ ?_))
    refine List.mem_filterMap.2 ⟨entry.1, List.mem_map_of_mem member, ?_⟩
    rw [found, isName]
    rfl
  · cases same

theorem unbound_constantsOf (element : used.elements ≠ [] → .element ∈ used.constructors) :
    Code.unboundInEntries (scopeOf setting files resolver used) (constantsOf used) = [] := by
  refine List.eq_nil_iff_forall_not_mem.2 fun name unbound => ?_
  obtain ⟨stands, absent⟩ := Code.of_mem_unboundInEntries _ unbound
  rw [Code.partsOfEntries_eq, List.mem_flatMap] at stands
  obtain ⟨_, member, stands⟩ := stands
  obtain ⟨entry, inside, rfl⟩ := List.mem_map.1 member
  have same : name = Constructor.element.name := by simpa [construct, Code.parts, Code.partsOfAll, Code.string] using stands
  cases same
  exact absent (constructor_mem_scope (element (List.ne_nil_of_mem inside)))

theorem unbound_definitionOf (walked : Walked setting nodes {} used root.toList) :
    (definitionOf files root used).unbound (scopeOf setting files resolver used) = [] := by
  have body : (root.getD .null).unbound ((if used.slots then [slotsName] else []) ++ scopeOf setting files resolver used) = [] := by
    refine List.eq_nil_iff_forall_not_mem.2 fun name unbound => ?_
    obtain ⟨stands, absent⟩ := Code.of_mem_unbound _ unbound
    cases root with
    | none => cases List.mem_singleton.1 stands
    | some code =>
      have noted {m : Mention} (mentioned : m ∈ code.mentions) : used.Mentions m :=
        (walked.mentions m).2 (.inr (.inl (Code.mentionedIn_singleton.2 mentioned)))
      obtain called | opened := (walked.tidy code (List.mem_singleton_self _)).mentioned name stands
      · exact absent (List.mem_append_right _ (called_mem_scope walked.recorded (noted called)))
      · obtain ⟨_, _, same⟩ | ⟨_, _, same⟩ | ⟨_, _, same⟩ | ⟨slots, same⟩ := noted opened
        · cases same
        · cases same
        · cases same
        · cases same
          exact absent (List.mem_append_left _ (by rw [if_pos slots]; exact List.mem_singleton_self _))
  have component : Constructor.component.name ∈ scopeOf setting files resolver used := constructor_mem_scope walked.recorded.component
  simp only [definitionOf, construct, renderFunction, Code.unbound, Code.unboundInAll, Code.unboundInStatements, Code.unboundInStatement,
    Code.string, body, List.contains_iff_mem.2 component, List.contains_iff_mem.2 controllerName_mem_scope, if_true, List.append_nil]

end Lowering

/-- A module of some markup that is closed, and that imports and declares what it uses, no more. -/
structure Program.SelfContained (program : Program) (markup : List Markup) (files : ComponentFiles) (siblings : Entries ComponentFiles)
    (resolver : ComponentFiles → String) (config : Config) : Prop where
  constructors : program.imports.head? =
    some ((Constructor.all.filter fun constructor => .called constructor.name ∈ program.mentions).map fun constructor =>
      .named constructor.name,
      config.runtimeModule)
  component : .called Constructor.component.name ∈ program.mentions
  children : ∃ tags imports, tags.Nodup ∧
    (∀ tag, tag ∈ tags ↔ ∃ node ∈ reachedIn config markup, childTag? ⟨config, siblings⟩ node = some tag) ∧
    List.Forall₂ (fun tag entry => ∃ child, Entries.get? siblings tag = some child ∧
      entry = ([.default (Text.sanitize (Name.ofTag tag))], Path.relative files.directory (resolver child))) tags imports ∧
    program.imports.tail = (files.styles.map fun path => ([], Path.relative files.directory path)).toList ++
      ([.default controllerName], Path.relative files.directory files.controller) :: imports
  constants : ∃ table : Entries String, (Entries.names table).Nodup ∧ (table.map (·.2)).Nodup ∧
    (∀ tag, tag ∈ Entries.names table ↔
      config.hoistElements = true ∧ ∃ node ∈ reachedIn config markup, elementTag? ⟨config, siblings⟩ node = some tag) ∧
    program.constants = table.map fun (tag, name) => (name, construct .element [.string tag])
  render : ∃ params body, program.exported? =
      some (construct .component [.string files.name, .identifier controllerName, .function params [.returns body]]) ∧
    (∀ name, name ∈ program.constants.map (·.1) ↔ Marked name ∧ .called name ∈ body.mentions) ∧
    params = (if (reachedIn config markup).any (isOutlet config) then [slotsName] else []) ∧
    (.opened slotsName ∈ body.mentions ↔ (reachedIn config markup).any (isOutlet config) = true)
  meaning : ∃ flat, Program.ofMarkup markup files siblings resolver { config with hoistElements := false } = .ok flat ∧
    flat.exported? = program.exported?.map (Code.inline program.constants)
  closed : program.unbound = []

theorem Program.exists_of_lowered {markup : List Markup} {files : ComponentFiles} {siblings : Entries ComponentFiles}
    {resolver : ComponentFiles → String} {config : Config} {program : Program}
    (lowered : Program.ofMarkup markup files siblings resolver config = .ok program) :
    ∃ root used, (Lowering.siblings (nodes ⟨config, siblings⟩ markup)).run {} = .ok (root, used) ∧
      program = assemble ⟨config, siblings⟩ files resolver root used := by
  rw [Program.ofMarkup] at lowered
  cases done : (Lowering.siblings (nodes ⟨config, siblings⟩ markup)).run {} with
  | error problem =>
    rw [done] at lowered
    cases lowered
  | ok found =>
    rw [done] at lowered
    cases lowered
    exact ⟨found.1, found.2, rfl, rfl⟩

/-- What lowering of markup notes, and the code that it gives. -/
theorem Lowering.walked_root {setting : Setting} {markup : List Markup} {root : Option Code} {used : Used}
    (plain : ∀ node ∈ reachedIn setting.config markup, PlainChild setting node)
    (done : (siblings (nodes setting markup)).run {} = .ok (root, used)) :
    Walked setting {node | node ∈ reachedIn setting.config markup} {} used root.toList := by
  obtain ⟨walks, each, isJoined⟩ := walks_nodes markup plain
  rw [← isJoined]
  exact (walks_siblings each (recorded_start setting) done).1

theorem Lowering.forall₂_childImports {setting : Setting} {files : ComponentFiles} {resolver : ComponentFiles → String} {tags : List String}
    (known : ∀ tag ∈ tags, Entries.contains setting.siblings tag = true) :
    List.Forall₂ (fun tag entry => ∃ child, Entries.get? setting.siblings tag = some child ∧
      entry = ([.default (Text.sanitize (Name.ofTag tag))], Path.relative files.directory (resolver child))) tags
      (childImports setting files resolver tags) := by
  induction tags with
  | nil => exact .nil
  | cons tag rest ih =>
    obtain ⟨first, others⟩ := List.forall_mem_cons.1 known
    obtain ⟨child, found⟩ := Option.isSome_iff_exists.1 first
    rw [childImports, List.filterMap_cons, found]
    exact .cons ⟨child, found, rfl⟩ (ih others)

/-- Without constants the module defines the same, with their definitions in place of them. -/
theorem Lowering.exists_flat {markup : List Markup} {files : ComponentFiles} {siblings : Entries ComponentFiles}
    {resolver : ComponentFiles → String} {config : Config} {root : Option Code} {used : Used} (recorded : Recorded ⟨config, siblings⟩ used)
    (plain : ∀ node ∈ reachedIn config markup, PlainChild ⟨config, siblings⟩ node)
    (done : (Lowering.siblings (nodes ⟨config, siblings⟩ markup)).run {} = .ok (root, used)) :
    ∃ flat, Program.ofMarkup markup files siblings resolver { config with hoistElements := false } = .ok flat ∧
      flat.exported? = (some (definitionOf files root used)).map (Code.inline (constantsOf used)) := by
  have only : OnlyConstants (constantsOf used) := by
    intro name plain
    refine List.lookup_eq_none_iff.2 fun entry member => ?_
    obtain ⟨noted, inside, rfl⟩ := List.mem_map.1 member
    refine bne_iff_ne.2 fun same => plain ?_
    rw [same]
    exact recorded.marked inside
  have defines : Defines (constantsOf used) used := by
    intro entry member
    refine Entries.get?_of_mem ?_ (List.mem_map_of_mem (f :=
      fun entry : String × String => (entry.2, construct .element [.string entry.1])) member)
    rw [Entries.names, constantsOf, List.map_map]
    exact recorded.constants
  have titled : Titled {} := List.forall_mem_nil _
  obtain ⟨_, _, flattens⟩ := flattens_siblings only (flattens_nodes only markup plain) titled done
  obtain ⟨stop, isFlat, alike⟩ := flattens defines ⟨titled, rfl⟩
  refine ⟨assemble (Setting.flat ⟨config, siblings⟩) files resolver (inlined (constantsOf used) root) stop, ?_, ?_⟩
  · exact congrArg (Except.map fun found : Option Code × Used =>
      assemble (Setting.flat ⟨config, siblings⟩) files resolver found.1 found.2) isFlat
  · rw [exported?_assemble, definitionOf, definitionOf, Option.map_some, inline_construct only, renderFunction, renderFunction, alike.slots]
    have plainController : ¬ Marked controllerName := by
      rintro ⟨behind, same⟩
      have sizes := congrArg (fun name => name.toList.head?) same
      rw [String.toList_append] at sizes
      cases sizes
    rw [List.map_cons, List.map_cons, List.map_singleton, inline_name only plainController]
    cases root <;> rfl

theorem Program.selfContained {markup : List Markup} {files : ComponentFiles} {siblings : Entries ComponentFiles}
    {resolver : ComponentFiles → String} {config : Config} {program : Program}
    (tagged : ∀ node ∈ reachedIn config markup, node.isTagged = true)
    (lowered : Program.ofMarkup markup files siblings resolver config = .ok program) :
    program.SelfContained markup files siblings resolver config := by
  obtain ⟨root, used, done, rfl⟩ := exists_of_lowered lowered
  have plain : ∀ node ∈ reachedIn config markup, PlainChild ⟨config, siblings⟩ node := fun node member =>
    Markup.plainChild_of_isTagged (tagged node member)
  have walked := walked_root plain done
  have recorded := walked.recorded
  have distinct := distinct_of_walked walked plain
  have isModule : assemble ⟨config, siblings⟩ files resolver root used =
      moduleOf (importsOf ⟨config, siblings⟩ files resolver used) (constantsOf used) (definitionOf files root used) := assemble_eq recorded
  have constants := congrArg Program.constants isModule
  have exported := congrArg Program.exported? isModule
  rw [constants_moduleOf] at constants
  rw [exported?_moduleOf] at exported
  have constructor (constructor : Constructor) : constructor ∈ used.constructors ↔ .called constructor.name ∈
      (moduleOf (importsOf ⟨config, siblings⟩ files resolver used) (constantsOf used) (definitionOf files root used)).mentions :=
    mem_constructors_iff walked distinct constructor
  have slots : used.slots = true ↔ (reachedIn config markup).any (isOutlet config) = true := by
    rw [walked.slots, List.any_eq_true]
    exact or_iff_right nofun
  have body (m : Mention) : m ∈ (root.getD .null).mentions ↔ Code.MentionedIn root.toList m := by
    cases root with
    | none => exact iff_of_false List.not_mem_nil Code.mentionedIn_nil
    | some code => exact Code.mentionedIn_singleton.symm
  refine ⟨?_, ?_, ?_, ?_, ?_, ?_, ?_⟩
  · rw [isModule, imports_moduleOf, importsOf, List.head?_cons, Constructor.names, List.map_map]
    refine congrArg (fun names => some (names, _)) (congrArg (List.map _) (List.filter_congr fun other _ => ?_))
    rw [Bool.eq_iff_iff, List.contains_iff_mem, decide_eq_true_iff]
    exact constructor other
  · rw [isModule]
    exact (constructor .component).1 recorded.component
  · refine ⟨Entries.names used.components, childImports ⟨config, siblings⟩ files resolver (Entries.names used.components),
      recorded.childTags, fun tag => ?_, ?_, ?_⟩
    · rw [walked.children]
      exact or_iff_right nofun
    · exact forall₂_childImports (List.forall_mem_map.2 fun entry member => (recorded.children entry member).1)
    · rw [isModule, imports_moduleOf, importsOf, List.tail_cons]
  · refine ⟨used.elements, recorded.tags, recorded.constants, fun tag => ?_, constants⟩
    rw [walked.elements]
    exact or_iff_right nofun
  · refine ⟨_, _, exported, fun name => ?_, ?_, ?_⟩
    · rw [constants, body, ← mem_elements_iff walked distinct, constantsOf, List.map_map]
      rfl
    · simp only [slots]
    · rw [body, ← slots, ← mentions_slots, walked.mentions, mentions_start, Needed]
      simp
  · rw [constants, exported]
    exact exists_flat recorded plain done
  · rw [Program.unbound, isModule, topNames_moduleOf, unbound_moduleOf]
    refine List.append_eq_nil_iff.2 ⟨unbound_constantsOf fun some => (constructor .element).2 ?_, unbound_definitionOf walked⟩
    exact (mentions_moduleOf _).2 (.inl ((mentions_constantsOf _).2 ⟨rfl, some⟩))

theorem Program.selfContained_nested :
    ∃ program, (∀ node ∈ reachedIn {} [.element "b" [] [], .element "x-y" [] [.element "slot" [] [], .element "B" [] []]],
      node.isTagged = true) ∧
      Program.ofMarkup [.element "b" [] [], .element "x-y" [] [.element "slot" [] [], .element "B" [] []]]
        (.standard "page" "/app") [("x-y", .standard "x-y" "/app")] ComponentFiles.path {} = .ok program ∧
      program.SelfContained [.element "b" [] [], .element "x-y" [] [.element "slot" [] [], .element "B" [] []]]
        (.standard "page" "/app") [("x-y", .standard "x-y" "/app")] ComponentFiles.path {} :=
  ⟨_, by decide, rfl, selfContained (by decide) rfl⟩

end ReactiveMarkup
