import ReactiveMarkup.Proofs.LoweredNames

/-! The slots of a lowered component. Every child contributes to one slot, nothing that is contributed gets lost or is
used twice, and the function for a slot is made of all contributions to it in the order of the children. -/

namespace ReactiveMarkup.Lowering

/-- What a child gives to a component: nodes for one slot, and entries of the slot's context under local names. -/
structure Contribution where
  slot : String
  nodes : List Markup
  bindings : List (String × String)

/-- The local name that an attribute introduces, behind the entry that it stands for: the one that the attribute names,
or else the one of the same name. -/
def introduced? (attr : Attribute) : Option (String × String) :=
  (Name.ofLet? attr.name).map fun name =>
    match attr.kind, attr.value with
    | .literal, .text key => (if key.isEmpty then name else key, name)
    | _, _ => (name, name)

/-- A wrapper gives what it holds to the slot that it names. Any other child gives itself to the default slot. -/
def contribution (config : Config) : Markup → Contribution
  | .element name attributes children =>
    if name = config.templateTag then
      ⟨((attribute? attributes "slot").bind Attribute.text?).getD "default", children, attributes.filterMap introduced?⟩
    else ⟨"default", [.element name attributes children], []⟩
  | child => ⟨"default", [child], []⟩

/-- The slots that anything is contributed to, in the order of the first contributions. -/
def slotsOf (contributions : List Contribution) : List String := (contributions.map Contribution.slot).eraseDups

/-- All nodes for a slot, in the order of the children. -/
def contentOf (contributions : List Contribution) (slot : String) : List Markup :=
  (contributions.filter (·.slot == slot)).flatMap Contribution.nodes

/-- All entries that are taken from the context of a slot, in the order of the children. -/
def bindingsOf (contributions : List Contribution) (slot : String) : List (String × String) :=
  (contributions.filter (·.slot == slot)).flatMap Contribution.bindings

/-- The function for a slot whose nodes became some code. -/
def functionOf (contributions : List Contribution) (slot : String) (body : Code) : String × Code :=
  (slot, .arrow (if (bindingsOf contributions slot).isEmpty then [] else [.pattern (bindingsOf contributions slot)]) body)

/-! What is contributed. -/

section

variable {contributions : List Contribution} {last : Contribution} {slot : String}

theorem slotsOf_append : slotsOf (contributions ++ [last]) =
    if last.slot ∈ slotsOf contributions then slotsOf contributions else slotsOf contributions ++ [last.slot] := by
  simp only [slotsOf, List.map_append, List.eraseDups_append, List.mem_eraseDups, List.map_singleton, List.removeAll]
  by_cases known : last.slot ∈ contributions.map Contribution.slot
  · rw [if_pos known, List.filter_cons_of_neg (by simpa using known), List.filter_nil, List.eraseDups_nil, List.append_nil]
  · rw [if_neg known, List.filter_cons_of_pos (by simpa using known), List.filter_nil, List.eraseDups_cons, List.filter_nil,
      List.eraseDups_nil]

theorem mem_slotsOf : slot ∈ slotsOf contributions ↔ ∃ given ∈ contributions, given.slot = slot := by
  rw [slotsOf, List.mem_eraseDups, List.mem_map]

theorem contentOf_append : contentOf (contributions ++ [last]) slot =
    contentOf contributions slot ++ if last.slot = slot then last.nodes else [] := by
  rw [contentOf, List.filter_append, List.flatMap_append, ← contentOf]
  by_cases here : last.slot = slot <;> simp [here]

theorem bindingsOf_append : bindingsOf (contributions ++ [last]) slot =
    bindingsOf contributions slot ++ if last.slot = slot then last.bindings else [] := by
  rw [bindingsOf, List.filter_append, List.flatMap_append, ← bindingsOf]
  by_cases here : last.slot = slot <;> simp [here]

theorem contentOf_of_notMem (unknown : slot ∉ slotsOf contributions) : contentOf contributions slot = [] := by
  rw [contentOf, List.filter_eq_nil_iff.2, List.flatMap_nil]
  exact fun given member same => unknown (mem_slotsOf.2 ⟨given, member, by simpa using same⟩)

theorem bindingsOf_of_notMem (unknown : slot ∉ slotsOf contributions) : bindingsOf contributions slot = [] := by
  rw [bindingsOf, List.filter_eq_nil_iff.2, List.flatMap_nil]
  exact fun given member same => unknown (mem_slotsOf.2 ⟨given, member, by simpa using same⟩)

end

theorem nodup_slotsOf (contributions : List Contribution) : (slotsOf contributions).Nodup := by
  induction contributions using List.reverseRecOn with
  | nil => exact List.nodup_nil
  | append_singleton contributions last ih =>
    rw [slotsOf_append]
    split
    next => exact ih
    next fresh => exact List.concat_eq_append ▸ ih.concat fresh

/-- All that is contributed is content of exactly one slot. -/
theorem perm_contentOf (contributions : List Contribution) :
    ((slotsOf contributions).flatMap (contentOf contributions)).Perm (contributions.flatMap Contribution.nodes) := by
  induction contributions using List.reverseRecOn with
  | nil => exact .nil
  | append_singleton contributions last ih =>
    have elsewhere {slots : List String} (apart : last.slot ∉ slots) :
        slots.flatMap (contentOf (contributions ++ [last])) = slots.flatMap (contentOf contributions) := by
      refine List.flatMap_congr fun slot member => ?_
      rw [contentOf_append, if_neg (fun same : last.slot = slot => apart (same ▸ member)), List.append_nil]
    rw [List.flatMap_append, List.flatMap_singleton, slotsOf_append]
    split
    next known =>
      -- The content grows at one place of the list.
      obtain ⟨before, after, same⟩ := List.append_of_mem known
      have distinct := nodup_slotsOf contributions
      rw [same, List.nodup_append, List.nodup_cons] at distinct
      rw [same, List.flatMap_append, List.flatMap_cons, contentOf_append, if_pos rfl,
        elsewhere fun member => distinct.2.2 _ member _ (List.mem_cons_self ..) rfl, elsewhere distinct.2.1.1]
      rw [same, List.flatMap_append, List.flatMap_cons] at ih
      refine .trans ?_ (ih.append_right last.nodes)
      rw [List.append_assoc, List.append_assoc, List.append_assoc]
      exact (List.perm_append_comm.append_left _).append_left _
    next fresh =>
      rw [List.flatMap_append, List.flatMap_singleton, elsewhere fresh, contentOf_append, if_pos rfl,
        contentOf_of_notMem fresh, List.nil_append]
      exact ih.append_right _

/-! What is gathered. -/

section

variable {setting : Setting}

/-- What a contribution routes to its slot. -/
def Contribution.routed (setting : Setting) (given : Contribution) : Routed :=
  ⟨given.slot, Lowering.nodes setting given.nodes, given.bindings⟩

/-- What is routed to a slot by all contributions to it. -/
def routedTo (setting : Setting) (contributions : List Contribution) (slot : String) : Routed :=
  ⟨slot, nodes setting (contentOf contributions slot), bindingsOf contributions slot⟩

theorem nodes_append (first second : List Markup) :
    nodes setting (first ++ second) = nodes setting first ++ nodes setting second := by
  induction first with
  | nil => rfl
  | cons node rest ih => rw [List.cons_append, nodes, nodes, ih, List.cons_append]

/-- Content is added to the one slot that it is for, or makes a new slot behind the others. -/
theorem addRouted_map {names : List String} (distinct : names.Nodup) (at' : String → Routed) (routed : Routed) :
    addRouted (names.map fun name => (name, at' name)) routed =
      if routed.slot ∈ names then
        names.map fun name => (name, if name = routed.slot then
          ⟨routed.slot, (at' name).actions ++ routed.actions, (at' name).bindings ++ routed.bindings⟩ else at' name)
      else names.map (fun name => (name, at' name)) ++ [(routed.slot, routed)] := by
  induction names with
  | nil => rfl
  | cons head rest ih =>
    obtain ⟨apart, distinct⟩ := List.nodup_cons.1 distinct
    rw [List.map_cons, addRouted_cons]
    by_cases here : head = routed.slot
    · subst here
      rw [if_pos rfl, if_pos (List.mem_cons_self ..), List.map_cons, if_pos rfl]
      congr 1
      refine List.map_congr_left fun name member => ?_
      rw [if_neg (fun same : name = routed.slot => apart (same ▸ member))]
    · rw [if_neg here, ih distinct]
      by_cases known : routed.slot ∈ rest
      · rw [if_pos known, if_pos (List.mem_cons_of_mem _ known), List.map_cons, if_neg here]
      · rw [if_neg known, if_neg (fun member => (List.mem_cons.1 member).elim (fun same => here same.symm) known),
          List.cons_append]

theorem foldl_addRouted (contributions : List Contribution) :
    (contributions.map (Contribution.routed setting)).foldl addRouted [] =
      (slotsOf contributions).map fun slot => (slot, routedTo setting contributions slot) := by
  induction contributions using List.reverseRecOn with
  | nil => rfl
  | append_singleton contributions last ih =>
    rw [List.map_append, List.foldl_append, ih, List.map_singleton, List.foldl_cons, List.foldl_nil,
      addRouted_map (nodup_slotsOf contributions), slotsOf_append]
    have grown (slot : String) : routedTo setting (contributions ++ [last]) slot =
        if slot = last.slot then ⟨last.slot, (routedTo setting contributions slot).actions ++ nodes setting last.nodes,
          (routedTo setting contributions slot).bindings ++ last.bindings⟩ else routedTo setting contributions slot := by
      simp only [routedTo, contentOf_append, bindingsOf_append, nodes_append]
      by_cases here : slot = last.slot
      · subst here
        simp
      · simp [here, Ne.symm here, nodes]
    by_cases known : last.slot ∈ slotsOf contributions
    · rw [if_pos (show (last.routed setting).slot ∈ _ from known), if_pos known]
      exact List.map_congr_left fun slot _ => by rw [grown, Contribution.routed]
    · rw [if_neg (show (last.routed setting).slot ∉ _ from known), if_neg known, List.map_append, List.map_singleton,
        Contribution.routed]
      congr 1
      · refine List.map_congr_left fun slot member => ?_
        rw [grown, if_neg (fun same : slot = last.slot => known (same ▸ member))]
      · rw [grown, if_pos rfl]
        simp only [routedTo, contentOf_of_notMem known, bindingsOf_of_notMem known, nodes, List.nil_append]

theorem introduced?_of_binding? {tag : String} {attr : Attribute} {binding : Option (String × String)}
    (isBinding : binding? tag attr = .ok binding) : introduced? attr = binding := by
  rw [binding?] at isBinding
  rw [introduced?]
  split at isBinding
  next other =>
    rw [other]
    cases isBinding
    rfl
  next name isName =>
    rw [isName]
    obtain ⟨_, kind, value⟩ := attr
    split at isBinding
    next => cases isBinding
    next =>
      cases kind <;> cases value <;> dsimp only at isBinding ⊢ <;> (try split at isBinding) <;> (try split at isBinding) <;>
        cases isBinding <;> simp_all

theorem filterMap_introduced? {tag : String} {attributes : List Attribute} {bindings : List (Option (String × String))}
    (found : attributes.mapM (binding? tag) = .ok bindings) : attributes.filterMap introduced? = bindings.filterMap id := by
  induction attributes generalizing bindings with
  | nil =>
    cases found
    rfl
  | cons attr rest ih =>
    rw [List.mapM_cons] at found
    cases isFirst : binding? tag attr with
    | error problem =>
      rw [isFirst] at found
      cases found
    | ok binding =>
      cases areOthers : rest.mapM (binding? tag) with
      | error problem =>
        rw [isFirst, areOthers] at found
        cases found
      | ok others =>
        rw [isFirst, areOthers] at found
        cases found
        rw [List.filterMap_cons, introduced?_of_binding? isFirst, List.filterMap_cons, ih areOthers]
        rfl

theorem slot_of_wrapperSlot {tag slot : String} {attributes : List Attribute} (found : wrapperSlot tag attributes = .ok slot) :
    ((attribute? attributes "slot").bind Attribute.text?).getD "default" = slot := by
  rw [wrapperSlot] at found
  split at found
  next none =>
    rw [none]
    cases found
    rfl
  next attr some =>
    rw [some]
    obtain ⟨_, kind, value⟩ := attr
    cases kind <;> cases value <;> cases found
    rfl

theorem routed_of_wrapper {tag : String} {attributes : List Attribute} {actions : List Action} {routed : Routed}
    (done : wrapper tag attributes actions = .ok routed) :
    routed = ⟨((attribute? attributes "slot").bind Attribute.text?).getD "default", actions, attributes.filterMap introduced?⟩ := by
  rw [wrapper] at done
  cases isSlot : wrapperSlot tag attributes with
  | error problem =>
    rw [isSlot] at done
    cases done
  | ok slot =>
    cases areBindings : attributes.mapM (binding? tag) with
    | error problem =>
      rw [isSlot, areBindings] at done
      cases done
    | ok bindings =>
      rw [isSlot, areBindings] at done
      cases done
      rw [slot_of_wrapperSlot isSlot, filterMap_introduced? areBindings]

/-- A child is routed as what it contributes, if it is routed at all. -/
theorem routes_cons (setting : Setting) (child : Markup) (rest : List Markup) :
    ∃ route, routes setting (child :: rest) = route :: routes setting rest ∧
      ∀ routed, route = .ok routed → routed = (contribution setting.config child).routed setting := by
  cases child with
  | element name attributes children =>
    rw [routes, contribution]
    refine ⟨_, rfl, fun routed done => ?_⟩
    split at done
    next isWrapper =>
      rw [if_pos isWrapper]
      exact routed_of_wrapper done
    next other =>
      rw [if_neg other]
      cases done
      rfl
  | _ =>
    rw [routes]
    · refine ⟨_, rfl, ?_⟩
      rintro _ ⟨⟩
      rfl
    · rintro _ _ _ ⟨⟩

theorem gather_routes {children : List Markup} {start slots : Entries Routed}
    (gathered : gather start (routes setting children) = .ok slots) :
    slots = (children.map fun child => (contribution setting.config child).routed setting).foldl addRouted start := by
  induction children generalizing start with
  | nil =>
    cases gathered
    rfl
  | cons child rest ih =>
    obtain ⟨route, same, leads⟩ := routes_cons setting child rest
    rw [same] at gathered
    cases route with
    | error problem => cases gathered
    | ok routed =>
      rw [List.map_cons, List.foldl_cons, ← leads routed rfl]
      exact ih gathered

/-- The slots that are gathered from the children of a component. -/
theorem slots_of_gather {children : List Markup} {slots : Entries Routed}
    (gathered : gather [] (routes setting children) = .ok slots) :
    slots = (slotsOf (children.map (contribution setting.config))).map fun slot =>
      (slot, routedTo setting (children.map (contribution setting.config)) slot) := by
  rw [gather_routes gathered, ← foldl_addRouted, List.map_map]
  rfl

theorem run_bind_of_run {α β : Type} {step : Lower α} {next : α → Lower β} {used between : Used} {value : α}
    (done : step.run used = .ok (value, between)) : (step >>= next).run used = (next value).run between := by
  rw [StateT.run_bind, done]
  rfl

variable {contributions : List Contribution} {slots : List String} {used after : Used}

theorem run_slotFunction {slot : String} {function : Option (String × Code)}
    (done : (slotFunction (routedTo setting contributions slot)).run used = .ok (function, after)) :
    ∃ body, (siblings (nodes setting (contentOf contributions slot))).run used = .ok (body, after) ∧
      function = body.map (functionOf contributions slot) := by
  obtain ⟨body, between, isBody, isFunction⟩ := exists_of_run_bind done
  cases body <;> cases isFunction <;> exact ⟨_, isBody, rfl⟩

/-- The functions are those of the slots whose content became something. -/
theorem run_slotFunctions {functions : List (Option (String × Code))}
    (done : ((slots.map fun slot => (slot, routedTo setting contributions slot)).mapM fun entry => slotFunction entry.2).run used =
      .ok (functions, after)) :
    ∃ bodies, (slots.mapM fun slot => return (slot, ← siblings (nodes setting (contentOf contributions slot)))).run used =
        .ok (bodies, after) ∧
      bodies.map Prod.fst = slots ∧ functions = bodies.map fun entry => entry.2.map (functionOf contributions entry.1) := by
  induction slots generalizing used functions with
  | nil =>
    cases done
    exact ⟨[], rfl, rfl, rfl⟩
  | cons slot rest ih =>
    rw [List.map_cons, List.mapM_cons] at done
    obtain ⟨function, between, isFirst, done⟩ := exists_of_run_bind done
    obtain ⟨others, later, areOthers, done⟩ := exists_of_run_bind done
    cases done
    obtain ⟨body, isBody, rfl⟩ := run_slotFunction isFirst
    obtain ⟨bodies, areBodies, rfl, rfl⟩ := ih areOthers
    refine ⟨(slot, body) :: bodies, ?_, rfl, rfl⟩
    rw [List.mapM_cons, bind_assoc, run_bind_of_run isBody, pure_bind, run_bind_of_run areBodies]
    rfl

/-- A slot without a function is one whose content became nothing. -/
theorem notMem_functions_iff {bodies : List (String × Option Code)} (distinct : (bodies.map Prod.fst).Nodup)
    {slot : String} {body : Option Code} (member : (slot, body) ∈ bodies) :
    slot ∉ (bodies.filterMap fun entry => entry.2.map (functionOf contributions entry.1)).map Prod.fst ↔ body = none := by
  constructor
  · intro absent
    cases body with
    | none => rfl
    | some body => exact absurd (List.mem_map.2 ⟨functionOf contributions slot body, List.mem_filterMap.2 ⟨_, member, rfl⟩, rfl⟩) absent
  · rintro rfl present
    obtain ⟨_, isFunction, rfl⟩ := List.mem_map.1 present
    obtain ⟨⟨other, body⟩, otherMember, made⟩ := List.mem_filterMap.1 isFunction
    cases body with
    | none => cases made
    | some body =>
      cases made
      cases List.inj_on_of_nodup_map distinct member otherMember rfl

/-- Every child of a component gives to one slot: a wrapper what it holds to the slot that it names, any other child itself
to the default slot. The content of the slots is all that is given. The slots come in the order of the first children that
give to them, and the function for a slot has the code of its content, in the order of the children, as its body and takes
the names that the wrappers for the slot introduce, in the same order. A slot has no function just when its content becomes
nothing. -/
theorem slots_of_component {name : String} {attributes : List Attribute} {children : List Markup} {code : Option Code}
    (isComponent : childTag? setting (.element name attributes children) = some name)
    (lowers : (node setting (.element name attributes children)).run used = .ok (code, after)) :
    let given := children.map (contribution setting.config)
    (slotsOf given).Nodup ∧ ((slotsOf given).flatMap (contentOf given)).Perm (given.flatMap Contribution.nodes) ∧
    ∃ callee start bodies functions,
      (componentVariable name).run { used with constructors := .component :: used.constructors } = .ok (callee, start) ∧
      ((slotsOf given).mapM fun slot => return (slot, ← siblings (nodes setting (contentOf given slot)))).run start =
        .ok (bodies, after) ∧
      bodies.map Prod.fst = slotsOf given ∧
      functions = bodies.filterMap (fun entry => entry.2.map (functionOf given entry.1)) ∧
      (∀ slot body, (slot, body) ∈ bodies → (slot ∉ functions.map Prod.fst ↔ body = none)) ∧
      code = some (.call (.identifier callee) [.object (
        group "props" ((groups attributes).attributes ++ (groups attributes).properties) ++
        group "events" (groups attributes).events ++ group "slots" functions)]) := by
  intro given
  refine ⟨nodup_slotsOf given, perm_contentOf given, ?_⟩
  obtain ⟨noWrapper, noOutlet, known⟩ : name ≠ setting.config.templateTag ∧ name ≠ setting.config.slotTag ∧
      Entries.contains setting.siblings name = true := by
    by_contra other
    rw [childTag?, if_neg other] at isComponent
    cases isComponent
  rw [node, if_neg noWrapper, if_neg noOutlet, if_pos known] at lowers
  obtain ⟨_, _, isUse, lowers⟩ := exists_of_run_bind lowers
  cases isUse
  obtain ⟨callee, start, isCallee, lowers⟩ := exists_of_run_bind lowers
  obtain ⟨slots, _, isGathered, lowers⟩ := exists_of_run_bind lowers
  obtain ⟨functions, later, areFunctions, lowers⟩ := exists_of_run_bind lowers
  cases lowers
  have gathered := (run_gather [] (routes setting children) start).symm.trans isGathered
  cases isSlots : gather [] (routes setting children) with
  | error problem =>
    rw [isSlots] at gathered
    cases gathered
  | ok entries =>
    rw [isSlots] at gathered
    cases gathered
    rw [slots_of_gather isSlots] at areFunctions
    obtain ⟨bodies, areBodies, areSlots, rfl⟩ := run_slotFunctions areFunctions
    refine ⟨callee, start, bodies, _, isCallee, areBodies, areSlots, rfl, fun slot body member => ?_, ?_⟩
    · exact notMem_functions_iff (areSlots ▸ nodup_slotsOf given) member
    · rw [List.filterMap_map]
      rfl

end

/-- A component with content for the header on both sides of content for the default slot, and an empty footer. -/
def mixedCard : List Markup :=
  [.element "template" [.literal "slot" "header", .literal "let-u" "user"] [.text "1"], .text "2", .element "template" [] [.element "b" [] []],
    .element "template" [.literal "slot" "footer"] [], .element "template" [.flag "let-v", .literal "slot" "header"] [.text "3"]]

theorem slots_of_mixedCard :
    let setting : Setting := ⟨{}, [("card", .standard "card" "/app")]⟩
    let given := mixedCard.map (contribution setting.config)
    childTag? setting (.element "card" [] mixedCard) = some "card" ∧
    ∃ code after, (node setting (.element "card" [] mixedCard)).run {} = .ok (code, after) ∧
    slotsOf given = ["header", "default", "footer"] ∧ bindingsOf given "header" = [("user", "u"), ("v", "v")] ∧
    contentOf given "default" = [.text "2", .element "b" [] []] ∧
    ∃ bodies : List (String × Option Code), bodies.map Prod.fst = slotsOf given ∧ ∀ slot body, (slot, body) ∈ bodies →
      (slot ∉ (bodies.filterMap fun entry => entry.2.map (functionOf given entry.1)).map Prod.fst ↔ body = none) := by
  intro setting given
  have isComponent : childTag? setting (.element "card" [] mixedCard) = some "card" := by decide
  have lowers : (node setting (.element "card" [] mixedCard)).run {} = .ok (_, _) := rfl
  obtain ⟨-, -, _, _, bodies, _, -, -, areSlots, rfl, omitted, -⟩ := slots_of_component isComponent lowers
  exact ⟨isComponent, _, _, lowers, by decide, by decide, by rfl, bodies, areSlots, omitted⟩

end ReactiveMarkup.Lowering
