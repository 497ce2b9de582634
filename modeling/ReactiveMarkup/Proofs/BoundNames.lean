import ReactiveMarkup.Proofs.GeneratedNames
import ReactiveMarkup.Proofs.ParsedMarkup

/-! The names that generated modules bind. Those that are made for tags are apart from all others,
but two children can have one variable, and a tag can begin with a digit. Names that a template
introduces are taken as they are, so that they can be keywords in a wrapper, and can stand before
generated names. -/

namespace ReactiveMarkup

open Lowering
open Expression (Named keywords Formed Unsigned)

/-! Nodes of a text. -/

/-- What is known of a node that stands in a text. -/
def Markup.WellSpelled (host : Expression → Prop) : Markup → Prop
  | .element name _ _ => TagName name
  | .loop item _ _ _ _ => host item
  | _ => True

theorem Markup.wellSpelled_of_laid {config : Config} {host : Expression → Prop} {tight : Prop} {markup : List Markup}
    (laid : Laid host tight markup) :
    ∀ node ∈ reachedIn config markup, WellSpelled host node := by
  induction laid with
  | nil => exact nofun
  | element named _ _ _ _ inside behind =>
    rw [reachedIn, reached]
    refine List.forall_mem_append.2 ⟨List.forall_mem_cons.2 ⟨named, ?_⟩, behind⟩
    split
    · exact nofun
    · exact inside
  | text _ _ _ _ behind =>
    rw [reachedIn, reached]
    exact List.forall_mem_append.2 ⟨List.forall_mem_singleton.2 trivial, behind⟩
  | expression _ _ behind =>
    rw [reachedIn, reached]
    exact List.forall_mem_append.2 ⟨List.forall_mem_singleton.2 trivial, behind⟩
  | @conditional _ _ _ _ others _ _ _ _ _ _ _ inside insideOthers insideLast behind =>
    have branches : ∀ node ∈ reachedInBranches config others, WellSpelled host node := by
      clear * - insideOthers
      induction others with
      | nil => exact nofun
      | cons branch rest ih =>
        obtain ⟨first, rest⟩ := List.forall_mem_cons.1 insideOthers
        exact List.forall_mem_append.2 ⟨first, ih rest⟩
    rw [reachedIn, reached]
    exact List.forall_mem_append.2 ⟨List.forall_mem_cons.2 ⟨trivial,
      List.forall_mem_append.2 ⟨inside, List.forall_mem_append.2 ⟨branches, insideLast⟩⟩⟩,
      behind⟩
  | loop item _ _ _ _ _ _ inside insideEmpty behind =>
    rw [reachedIn, reached]
    exact List.forall_mem_append.2 ⟨List.forall_mem_cons.2 ⟨item, List.forall_mem_append.2 ⟨inside, insideEmpty⟩⟩, behind⟩

theorem Markup.isTagged_of_wellSpelled {host : Expression → Prop} {node : Markup} (spelled : node.WellSpelled host) :
    node.isTagged = true := by
  cases node with
  | element name attributes children => exact List.all_eq_true.2 spelled.parts
  | _ => rfl

/-! Names of constants and of child components. -/

theorem isIdentifierPart_sanitize (name : String) : ∀ c ∈ (Text.sanitize name).toList, Text.isIdentifierPart c = true := by
  intro c member
  rw [Text.sanitize, String.toList_map, List.mem_map] at member
  obtain ⟨d, _, rfl⟩ := member
  split
  · assumption
  · rfl

theorem isIdentifier_of_parts {name : String} {first : Char} (isHead : name.toList.head? = some first)
    (start : Text.isIdentifierStart first = true)
    (parts : ∀ c ∈ name.toList, Text.isIdentifierPart c = true) : Text.isIdentifier name = true := by
  rw [Text.isIdentifier]
  cases same : name.toList with
  | nil =>
    rw [same] at isHead
    cases isHead
  | cons c rest =>
    rw [same] at isHead parts
    cases isHead
    rw [Bool.and_eq_true, List.all_eq_true]
    exact ⟨start, fun d member => parts d (List.mem_cons_of_mem _ member)⟩

/-- A name whose first character is no small letter is no keyword. -/
theorem notKeyword_of_head {name : String} (noSmall : ∀ c ∈ name.toList.head?, c.isLower = false) : keywords.contains name = false := by
  refine Bool.eq_false_iff.2 fun listed => ?_
  have small : (keywords.all fun word => word.toList.head?.any Char.isLower) = true := by decide
  obtain ⟨c, isHead, lower⟩ := (Option.any_eq_true _ _).1 (List.all_eq_true.1 small name (List.contains_iff_mem.1 listed))
  rw [noSmall c isHead] at lower
  cases lower

/-- Constants have valid names. -/
theorem Lowering.Recorded.named {setting : Setting} {used : Used} {entry : String × String} (recorded : Recorded setting used)
    (member : entry ∈ used.elements) : Named entry.2 := by
  obtain ⟨behind, spelled, numbered⟩ := recorded.spelled entry member
  have chars : entry.2.toList = "$e_".toList ++ (Text.sanitize entry.1).toList ++ behind.toList := by
    rw [spelled, Name.ofElement, String.toList_append, String.toList_append]
  have isHead : entry.2.toList.head? = some '$' := by
    rw [chars]
    rfl
  refine ⟨isIdentifier_of_parts isHead rfl ?_, notKeyword_of_head ?_⟩
  · have front : "$e_".toList.all Text.isIdentifierPart = true := by decide
    rw [chars]
    exact List.forall_mem_append.2 ⟨List.forall_mem_append.2 ⟨List.all_eq_true.1 front, isIdentifierPart_sanitize _⟩, numbered⟩
  · rw [isHead]
    rintro _ ⟨⟩
    rfl

theorem camelFrom_ne_nil {chars : List Char} {pending : Nat} (some : 0 < pending ∨ chars ≠ []) : Name.camelFrom pending chars ≠ [] := by
  induction chars generalizing pending with
  | nil =>
    rw [Name.camelFrom, Ne, List.replicate_eq_nil_iff]
    exact Nat.ne_of_gt (some.resolve_right fun apart => apart rfl)
  | cons c rest ih =>
    rw [Name.camelFrom]
    split
    · exact ih (.inl (Nat.succ_pos pending))
    split
    · exact List.cons_ne_nil _ _
    · exact List.append_ne_nil_of_right_ne_nil _ (List.cons_ne_nil _ _)

/-- The variable of a child component. -/
def variableOf (tag : String) : String := Text.sanitize (Name.ofTag tag)

theorem variableOf_ne_nil {tag : String} (named : Markup.TagName tag) : (variableOf tag).toList ≠ [] := by
  have chars : Name.camelFrom 0 tag.toList ≠ [] := camelFrom_ne_nil (.inr named.nonempty)
  have parts := isTagPart_camelFrom named.parts 0
  rw [variableOf, Text.sanitize, String.toList_map, Ne, List.map_eq_nil_iff, Name.ofTag]
  cases same : Name.camelFrom 0 tag.toList with
  | nil => exact absurd same chars
  | cons first rest =>
    rw [same] at parts
    have isUpper : Text.upper first = [first.toUpper] := if_pos (toNat_of_isTagPart (parts first (List.mem_cons_self ..)))
    rw [String.toList_ofList, isUpper]
    exact List.cons_ne_nil _ _

/-- A name whose first character is a digit is no identifier. -/
def digitFirst (name : String) : Bool := name.toList.head?.any Char.isDigit

/-- The variable of a child component is a valid name, unless it begins with a digit. -/
theorem named_variableOf {tag : String} (named : Markup.TagName tag) (noDigit : digitFirst (variableOf tag) = false) :
    Named (variableOf tag) := by
  have parts : ∀ c ∈ (variableOf tag).toList, Text.isIdentifierPart c = true := isIdentifierPart_sanitize _
  obtain ⟨first, rest, same⟩ := List.exists_cons_of_ne_nil (variableOf_ne_nil named)
  refine ⟨isIdentifier_of_parts (by rw [same]; rfl) ?_ parts, notKeyword_of_head (head?_sanitize_ofTag named.parts)⟩
  have part := parts first (by rw [same]; exact List.mem_cons_self ..)
  rw [digitFirst, same, List.head?_cons, Option.any_some] at noDigit
  rwa [Text.isIdentifierPart, noDigit, Bool.or_false] at part

namespace Lowering

variable {setting : Setting} {used : Used} {files : ComponentFiles} {resolver : ComponentFiles → String} {root : Option Code}

/-! The names at the top of a module. -/

theorem names_childImports {tags : List String} (known : ∀ tag ∈ tags, Entries.contains setting.siblings tag = true) :
    (childImports setting files resolver tags).flatMap (fun entry => entry.1.map Specifier.name) = tags.map variableOf := by
  induction tags with
  | nil => rfl
  | cons tag rest ih =>
    obtain ⟨first, others⟩ := List.forall_mem_cons.1 known
    obtain ⟨child, found⟩ := Option.isSome_iff_exists.1 first
    rw [childImports, List.filterMap_cons, found]
    exact congrArg (variableOf tag :: ·) (ih others)

theorem topNames_assemble (recorded : Recorded setting used) : (assemble setting files resolver root used).topNames =
    Constructor.names used.constructors ++
      (controllerName :: ((Entries.names used.components).map variableOf ++ used.elements.map (·.2))) := by
  have known : ∀ tag ∈ Entries.names used.components, Entries.contains setting.siblings tag = true :=
    List.forall_mem_map.2 fun entry member => (recorded.children entry member).1
  have constructors : ((Constructor.names used.constructors).map Specifier.named).map Specifier.name =
    Constructor.names used.constructors := by
    rw [List.map_map]
    exact List.map_id _
  have styles : (files.styles.map fun path => (([] : List Specifier), Path.relative files.directory path)).toList.flatMap
      (fun entry => entry.1.map Specifier.name) = [] := by
    cases files.styles <;> rfl
  rw [assemble_eq recorded, topNames_moduleOf, importsOf, List.flatMap_cons, List.flatMap_append, List.flatMap_cons, styles,
    names_childImports known, constructors, constantsOf, List.map_map, List.append_assoc]
  rfl

theorem nodup_names (constructors : List Constructor) : (Constructor.names constructors).Nodup := by
  refine List.Nodup.map (fun _ _ => name_injective) (List.Nodup.filter _ ?_)
  decide

/-- Only variables of child components can be the same. -/
theorem nodup_topNames (recorded : Recorded setting used) (distinct : Distinct used) :
    (assemble setting files resolver root used).topNames.Nodup ↔ ((Entries.names used.components).map variableOf).Nodup := by
  have own : (Entries.names used.components).map variableOf = used.components.map (·.2) := by
    rw [Entries.names, List.map_map]
    exact List.map_congr_left fun entry member => (recorded.children entry member).2.symm
  have marked : ∀ name ∈ used.elements.map (·.2), Marked name := List.forall_mem_map.2 fun entry member => recorded.marked member
  have dollar {name : String} : Marked name → '$' ∈ name.toList := by
    rintro ⟨behind, rfl⟩
    rw [String.toList_append]
    exact List.mem_append_left _ (by decide)
  have noDollar : '$' ∉ controllerName.toList := by decide
  rw [topNames_assemble recorded, own, List.nodup_append, List.nodup_cons, List.nodup_append, List.mem_append]
  constructor
  · exact fun apart => apart.2.1.2.1
  · intro apart
    refine ⟨nodup_names _, ⟨?_, apart, recorded.constants, ?_⟩, ?_⟩
    · rintro (member | member)
      · obtain ⟨entry, inside, same⟩ := List.mem_map.1 member
        exact (distinct entry inside).2 same
      · exact noDollar (dollar (marked _ member))
    · rintro _ member name other rfl
      obtain ⟨entry, inside, rfl⟩ := List.mem_map.1 member
      exact (distinct entry inside).1 (dollar (marked _ other))
    · rintro _ member name other rfl
      obtain ⟨constructor, _, rfl⟩ := List.mem_map.1 member
      obtain same | other := List.mem_cons.1 other
      · exact noDollar (same ▸ dollar_mem_name constructor)
      · obtain other | other := List.mem_append.1 other
        · obtain ⟨entry, inside, same⟩ := List.mem_map.1 other
          exact (distinct entry inside).1 (same ▸ dollar_mem_name constructor)
        · exact not_marked constructor (marked _ other)

/-! All names that a module binds. -/

theorem eq_slotsName_of_opened {name : String} (opened : used.Mentions (.opened name)) : name = slotsName := by
  obtain ⟨_, _, same⟩ | ⟨_, _, same⟩ | ⟨_, _, same⟩ | ⟨_, same⟩ := opened <;> cases same
  rfl

variable {nodes : Set Markup}

theorem mem_parts_element {part : Code} {tag : String} (member : part ∈ (construct .element [.string tag]).parts) :
    part = construct .element [.string tag] ∨ part = .identifier Constructor.element.name ∨ part = .string tag := by
  simpa [construct, Code.parts, Code.partsOfAll, Code.string] using member

theorem mem_parts_definitionOf {part : Code} (member : part ∈ (definitionOf files root used).parts) :
    part = definitionOf files root used ∨ part = .identifier Constructor.component.name ∨ part = .string files.name ∨
      part = .identifier controllerName ∨ part = renderFunction root used ∨ part ∈ (root.getD .null).parts := by
  simpa [definitionOf, renderFunction, construct, Code.parts, Code.partsOfAll, Code.partsOfStatements, Code.partsOfStatement, Code.string]
    using member

/-- What binds a name is the function that renders the component, or stands in it. -/
theorem eq_or_mem_of_bound {part : Code} {name : String} (recorded : Recorded setting used)
    (member : part ∈ (assemble setting files resolver root used).parts) (bound : name ∈ part.bound) :
    part = renderFunction root used ∨ ∃ code ∈ root.toList, part ∈ code.parts := by
  rw [assemble_eq recorded, parts_moduleOf, List.mem_append, List.mem_flatMap] at member
  obtain ⟨_, inside, member⟩ | member := member
  · obtain ⟨entry, _, rfl⟩ := List.mem_map.1 inside
    obtain rfl | rfl | rfl := mem_parts_element member <;> cases bound
  · obtain rfl | rfl | rfl | rfl | rfl | member := mem_parts_definitionOf member
    iterate 4 cases bound
    · exact .inl rfl
    · cases root with
      | none =>
        cases List.mem_singleton.1 member
        cases bound
      | some code => exact .inr ⟨code, List.mem_singleton_self _, member⟩

theorem mem_bound {name : String} (walked : Walked setting nodes {} used root.toList)
    (bound : name ∈ (assemble setting files resolver root used).boundNames) :
    name ∈ (assemble setting files resolver root used).topNames ∨ name = slotsName ∨
      ∃ node ∈ nodes, Introduces setting.config node name := by
  obtain top | bound := List.mem_append.1 bound
  · exact .inl top
  obtain ⟨part, member, bound⟩ := List.mem_flatMap.1 bound
  obtain rfl | ⟨code, isCode, member⟩ := eq_or_mem_of_bound walked.recorded member bound
  · rw [renderFunction, Code.bound] at bound
    split at bound
    · exact .inr (.inl (List.mem_singleton.1 bound))
    · cases bound
  · exact .inr (.inr ((walked.tidy code isCode).bound part member name bound))

end Lowering

/-- The parameters of a function that stand in its body for something that is called. -/
def Code.captured : Code → List String
  | .arrow params body => (params.flatMap Param.names).filter (· ∈ body.names)
  | _ => []

/-- The generated names of a module that a function in it takes for its parameters. -/
def Program.captured (program : Program) : List String := program.parts.flatMap Code.captured

section

variable {source : Source} {markup : List Markup} {files : ComponentFiles} {siblings : Entries ComponentFiles}
  {resolver : ComponentFiles → String} {config : Config} {program : Program}

/-- The tags of a template that become child components. -/
def childTags (config : Config) (siblings : Entries ComponentFiles) (markup : List Markup) : List String :=
  (reachedIn config markup).filterMap (childTag? ⟨config, siblings⟩)

/-- What is behind the module of a template. -/
theorem exists_walked (parsed : Markup.parse source = .ok markup)
    (lowered : Program.ofMarkup markup files siblings resolver config = .ok program) :
    ∃ root used, program = assemble ⟨config, siblings⟩ files resolver root used ∧ Distinct used ∧
      Walked ⟨config, siblings⟩ {node | node ∈ reachedIn config markup} {} used root.toList ∧
      ∀ node ∈ reachedIn config markup, node.WellSpelled (Formed Unsigned) := by
  have spelled : ∀ node ∈ reachedIn config markup, node.WellSpelled (Formed Unsigned) :=
    Markup.wellSpelled_of_laid (Markup.spelled_of_parse parsed)
  have plain : ∀ node ∈ reachedIn config markup, PlainChild ⟨config, siblings⟩ node := fun node member =>
    Markup.plainChild_of_isTagged (Markup.isTagged_of_wellSpelled (spelled node member))
  obtain ⟨root, used, done, isProgram⟩ := Program.exists_of_lowered lowered
  have walked := walked_root plain done
  exact ⟨root, used, isProgram, distinct_of_walked walked plain, walked, spelled⟩

theorem mem_childTags {root : Option Code} {used : Used}
    (walked : Walked ⟨config, siblings⟩ {node | node ∈ reachedIn config markup} {} used root.toList) (tag : String) :
    tag ∈ Entries.names used.components ↔ tag ∈ childTags config siblings markup := by
  rw [walked.children, childTags, List.mem_filterMap]
  exact or_iff_right nofun

theorem tagName_of_mem {tag : String} (spelled : ∀ node ∈ reachedIn config markup, node.WellSpelled (Formed Unsigned))
    (member : tag ∈ childTags config siblings markup) : Markup.TagName tag := by
  obtain ⟨node, inside, isChild⟩ := List.mem_filterMap.1 member
  have named := spelled node inside
  cases node with
  | element name attributes children =>
    rw [childTag?] at isChild
    split at isChild <;> cases isChild
    exact named
  | _ => cases isChild

/-- A name that a node introduces is valid, unless a wrapper takes a keyword for it. -/
theorem named_of_introduces {node : Markup} {name : String} (spelled : node.WellSpelled (Formed Unsigned))
    (introduces : Introduces config node name) :
    Named name ∨ keywords.contains name = true ∧ name ∈ letNames config node := by
  obtain isItem | isLet := introduces
  · cases node with
    | loop item items track body empty =>
      have formed : Formed Unsigned item := spelled
      cases formed with
      | identifier named =>
        cases isItem
        exact .inl named
      | _ => cases isItem
    | _ => cases isItem
  · cases listed : keywords.contains name with
    | true => exact .inr ⟨rfl, isLet⟩
    | false =>
      refine .inl ⟨?_, listed⟩
      cases node with
      | element tag attributes children =>
        rw [letNames] at isLet
        split at isLet
        · obtain ⟨attr, _, found⟩ := List.mem_filterMap.1 isLet
          exact (Option.filter_eq_some_iff.1 found).2
        · cases isLet
      | _ => cases isLet

/-- The names at the top of a module are distinct if and only if child components have variables of
their own. Every name that the module binds is valid, but for variables that begin with a digit and
keywords that wrappers introduce. -/
theorem Program.bound_of_parsed (parsed : Markup.parse source = .ok markup)
    (lowered : Program.ofMarkup markup files siblings resolver config = .ok program) :
    (program.topNames.Nodup ↔ ∀ first ∈ childTags config siblings markup, ∀ second ∈ childTags config siblings markup,
      variableOf first = variableOf second → first = second) ∧
    ∀ name ∈ program.boundNames, Named name ∨ digitFirst name = true ∧ name ∈ (childTags config siblings markup).map variableOf ∨
      keywords.contains name = true ∧ ∃ node ∈ reachedIn config markup, name ∈ letNames config node := by
  obtain ⟨root, used, rfl, distinct, walked, spelled⟩ := exists_walked parsed lowered
  have recorded := walked.recorded
  constructor
  · rw [nodup_topNames recorded distinct, List.nodup_map_iff_inj_on recorded.childTags]
    simp only [mem_childTags walked]
  · intro name bound
    obtain top | rfl | ⟨node, member, introduces⟩ := mem_bound walked bound
    · rw [topNames_assemble recorded, List.mem_append, List.mem_cons, List.mem_append] at top
      obtain member | rfl | member | member := top
      · obtain ⟨constructor, _, rfl⟩ := List.mem_map.1 member
        refine .inl ?_
        cases constructor <;> exact ⟨by decide, by decide⟩
      · exact .inl ⟨by decide, by decide⟩
      · obtain ⟨tag, inside, rfl⟩ := List.mem_map.1 member
        have inside := (mem_childTags walked tag).1 inside
        cases digit : digitFirst (variableOf tag) with
        | true => exact .inr (.inl ⟨rfl, List.mem_map_of_mem inside⟩)
        | false => exact .inl (named_variableOf (tagName_of_mem spelled inside) digit)
      · obtain ⟨entry, inside, rfl⟩ := List.mem_map.1 member
        exact .inl (recorded.named inside)
    · exact .inl ⟨by decide, by decide⟩
    · exact (named_of_introduces (spelled node member) introduces).imp_right fun found => .inr ⟨found.1, node, member, found.2⟩

/-- Two tags have one variable, another begins with a digit, and a wrapper takes a keyword. -/
theorem Program.bound_of_parsed_twins :
    ∃ markup program, Markup.parse ⟨"<x-y/><xY/><x-y><template let-null><1a/></template></x-y>", "page"⟩ = .ok markup ∧
      Program.ofMarkup markup (.standard "page" "/app") [("x-y", .standard "x-y" "/app"), ("xY", .standard "xY" "/app"),
        ("1a", .standard "1a" "/app")] ComponentFiles.path {} = .ok program ∧
      ¬ program.topNames.Nodup ∧ digitFirst "1a" = true ∧ "1a" ∈ program.topNames ∧
      (Named "null" ∨ digitFirst "null" = true ∧ "null" ∈ (childTags {} [("x-y", .standard "x-y" "/app"), ("xY", .standard "xY" "/app"),
          ("1a", .standard "1a" "/app")] markup).map variableOf ∨
        keywords.contains "null" = true ∧ ∃ node ∈ reachedIn {} markup, "null" ∈ letNames {} node) := by
  have parsed : Markup.parse ⟨"<x-y/><xY/><x-y><template let-null><1a/></template></x-y>", "page"⟩ =
      .ok [.element "x-y" [] [], .element "xY" [] [], .element "x-y" []
        [.element "template" [.flag "let-null"] [.element "1a" [] []]]] := rfl
  have lowered : ∃ program, Program.ofMarkup
      [.element "x-y" [] [], .element "xY" [] [], .element "x-y" [] [.element "template" [.flag "let-null"] [.element "1a" [] []]]]
      (.standard "page" "/app") [("x-y", .standard "x-y" "/app"), ("xY", .standard "xY" "/app"), ("1a", .standard "1a" "/app")]
      ComponentFiles.path {} = .ok program ∧ ¬ program.topNames.Nodup ∧ "1a" ∈ program.topNames ∧ "null" ∈ program.boundNames :=
    ⟨_, rfl, by decide +kernel, by decide +kernel, by decide +kernel⟩
  obtain ⟨program, lowered, twins, digit, keyword⟩ := lowered
  exact ⟨_, program, parsed, lowered, twins, by decide, digit, (bound_of_parsed parsed lowered).2 "null" keyword⟩

/-- Only a name that the template introduces and that is a generated one is captured. -/
theorem Program.introduces_of_captured (parsed : Markup.parse source = .ok markup)
    (lowered : Program.ofMarkup markup files siblings resolver config = .ok program) {name : String} (captured : name ∈ program.captured) :
    (name ∈ program.topNames ∨ name = slotsName) ∧ ∃ node ∈ reachedIn config markup, Introduces config node name := by
  obtain ⟨root, used, rfl, _, walked, _⟩ := exists_walked parsed lowered
  obtain ⟨part, member, inside⟩ := List.mem_flatMap.1 captured
  cases part with
  | arrow params body =>
    obtain ⟨bound, stands⟩ := List.mem_filter.1 inside
    obtain same | ⟨code, isCode, inside⟩ := eq_or_mem_of_bound walked.recorded member bound
    · cases same
    have tidy := walked.tidy code isCode
    refine ⟨?_, tidy.bound _ inside name bound⟩
    obtain ⟨part, isPart, isName⟩ := List.mem_filterMap.1 (of_decide_eq_true stands)
    cases part with
    | identifier other =>
      cases isName
      have noted {m : Mention} (mentioned : m ∈ code.mentions) : used.Mentions m :=
        (walked.mentions m).2 (.inr (.inl ⟨code, isCode, mentioned⟩))
      obtain called | opened := tidy.mentioned name (Code.parts_trans code inside (List.mem_cons_of_mem _ isPart))
      · refine .inl ?_
        rw [assemble_eq walked.recorded, topNames_moduleOf]
        exact called_mem_scope walked.recorded (noted called)
      · exact .inr (eq_slotsName_of_opened (noted opened))
    | _ => cases isName
  | _ => cases inside

/-- A wrapper introduces the variable of the component in it. -/
theorem Program.introduces_of_captured_child :
    ∃ markup program, Markup.parse ⟨"<x-y><template let-XY><x-y/></template></x-y>", "page"⟩ = .ok markup ∧
      Program.ofMarkup markup (.standard "page" "/app") [("x-y", .standard "x-y" "/app")] ComponentFiles.path {} = .ok program ∧
      "XY" ∈ program.captured ∧ ("XY" ∈ program.topNames ∨ "XY" = slotsName) ∧ ∃ node ∈ reachedIn {} markup, Introduces {} node "XY" := by
  have parsed : Markup.parse ⟨"<x-y><template let-XY><x-y/></template></x-y>", "page"⟩ =
      .ok [.element "x-y" [] [.element "template" [.flag "let-XY"] [.element "x-y" [] []]]] := rfl
  have lowered : ∃ program, Program.ofMarkup [.element "x-y" [] [.element "template" [.flag "let-XY"] [.element "x-y" [] []]]]
      (.standard "page" "/app") [("x-y", .standard "x-y" "/app")] ComponentFiles.path {} = .ok program ∧ "XY" ∈ program.captured :=
    ⟨_, rfl, by decide +kernel⟩
  obtain ⟨program, lowered, captured⟩ := lowered
  exact ⟨_, program, parsed, lowered, captured, introduces_of_captured parsed lowered captured⟩

end

end ReactiveMarkup
