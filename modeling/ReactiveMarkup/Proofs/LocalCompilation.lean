import ReactiveMarkup.Compilation
import ReactiveMarkup.Proofs.LoweredCode

/-! Compilation is local: what a template is compiled to depends on the other components only through
the files of those whose tags stand in it. -/

namespace ReactiveMarkup

namespace Markup

mutual
/-- The names of all elements in a node. -/
def tagsOf : Markup → List String
  | .element name _ children => name :: tags children
  | .text _ | .expression _ => []
  | .conditional _ body others otherwise => tags body ++ tagsOfBranches others ++ tags otherwise
  | .loop _ _ _ body empty => tags body ++ tags empty

def tags : List Markup → List String
  | [] => []
  | first :: rest => tagsOf first ++ tags rest

def tagsOfBranches : List (Branch Markup) → List String
  | [] => []
  | ⟨_, body⟩ :: rest => tags body ++ tagsOfBranches rest
end

end Markup

namespace Lowering

open Markup (tagsOf tags tagsOfBranches)

/-! The walk asks for the siblings with certain tags only. -/

section

variable (config : Config) {siblings others : Entries ComponentFiles}

mutual
theorem node_congr (self : Markup) (agree : ∀ tag ∈ tagsOf self, Entries.get? siblings tag = Entries.get? others tag) :
    node ⟨config, siblings⟩ self = node ⟨config, others⟩ self := by
  cases self with
  | element name attributes children =>
    rw [tagsOf, List.forall_mem_cons] at agree
    rw [node, node, nodes_congr children agree.2, routes_congr children agree.2, Entries.contains, Entries.contains, agree.1]
    rfl
  | text value => rw [node, node]
  | expression value => rw [node, node]
  | conditional test body branches otherwise =>
    rw [tagsOf, List.forall_mem_append, List.forall_mem_append] at agree
    rw [node, node, nodes_congr body agree.1.1, branches_congr branches agree.1.2, nodes_congr otherwise agree.2]
  | loop item items track body empty =>
    rw [tagsOf, List.forall_mem_append] at agree
    rw [node, node, nodes_congr body agree.1, nodes_congr empty agree.2]

theorem nodes_congr (several : List Markup) (agree : ∀ tag ∈ tags several, Entries.get? siblings tag = Entries.get? others tag) :
    nodes ⟨config, siblings⟩ several = nodes ⟨config, others⟩ several := by
  cases several with
  | nil => rw [nodes, nodes]
  | cons first rest =>
    rw [tags, List.forall_mem_append] at agree
    rw [nodes, nodes, node_congr first agree.1, nodes_congr rest agree.2]

theorem branches_congr (several : List (Branch Markup))
    (agree : ∀ tag ∈ tagsOfBranches several, Entries.get? siblings tag = Entries.get? others tag) :
    branches ⟨config, siblings⟩ several = branches ⟨config, others⟩ several := by
  cases several with
  | nil => rw [branches, branches]
  | cons first rest =>
    cases first with
    | mk test body =>
      rw [tagsOfBranches, List.forall_mem_append] at agree
      rw [branches, branches, nodes_congr body agree.1, branches_congr rest agree.2]

theorem routes_congr (several : List Markup) (agree : ∀ tag ∈ tags several, Entries.get? siblings tag = Entries.get? others tag) :
    routes ⟨config, siblings⟩ several = routes ⟨config, others⟩ several := by
  cases several with
  | nil => rw [routes, routes]
  | cons first rest =>
    rw [tags, List.forall_mem_append] at agree
    have same := node_congr first agree.1
    have behind := routes_congr rest agree.2
    cases first with
    | element name attributes children =>
      rw [tagsOf, List.forall_mem_cons] at agree
      rw [routes, routes, same, behind, nodes_congr children agree.1.2]
    | _ =>
      rw [routes, routes, same, behind]
      all_goals
        intro _ _ _ isElement
        cases isElement
end

end

/-! Child components are imported for tags of the markup only. -/

/-- A step that takes no other children than those with certain tags. -/
def Takes {α : Type} (allowed : List String) (step : Lower α) : Prop :=
  ∀ ⦃used result after⦄, step.run used = .ok (result, after) →
    ∀ tag ∈ Entries.names after.components, tag ∈ Entries.names used.components ∨ tag ∈ allowed

section

variable {α β : Type} {allowed : List String}

/-- A step that leaves the children as they are. -/
theorem takes_of_same {step : Lower α} (same : ∀ ⦃used result after⦄, step.run used = .ok (result, after) → after.components = used.components) :
    Takes allowed step := by
  intro used result after done tag member
  rw [same done] at member
  exact .inl member

theorem takes_pure (value : α) : Takes allowed (pure value) := by
  refine takes_of_same fun used result after done => ?_
  cases done
  rfl

theorem takes_throw (problem : LoweringError) : Takes allowed (throw problem : Lower α) := by
  intro used result after done
  cases done

theorem takes_use (constructor : Constructor) : Takes allowed (use constructor) := by
  refine takes_of_same fun used result after done => ?_
  cases done
  rfl

theorem Takes.bind {step : Lower α} {next : α → Lower β} (first : Takes allowed step) (rest : ∀ value, Takes allowed (next value)) :
    Takes allowed (step >>= next) := by
  intro used result after done tag member
  obtain ⟨value, between, isFirst, done⟩ := exists_of_run_bind done
  obtain inside | inside := rest value done tag member
  · exact first isFirst tag inside
  · exact .inr inside

theorem Takes.mapM {next : α → Lower β} {list : List α} (each : ∀ element ∈ list, Takes allowed (next element)) :
    Takes allowed (list.mapM next) := by
  induction list with
  | nil => exact takes_pure []
  | cons first rest ih =>
    obtain ⟨isFirst, areOthers⟩ := List.forall_mem_cons.1 each
    rw [List.mapM_cons]
    exact isFirst.bind fun _ => (ih areOthers).bind fun _ => takes_pure _

theorem takes_siblings {actions : List Action} (each : ∀ action ∈ actions, Takes allowed action) : Takes allowed (siblings actions) := by
  refine (Takes.mapM each).bind fun found => ?_
  split
  · exact takes_pure _
  · exact takes_pure _
  · exact (takes_use _).bind fun _ => takes_pure _

theorem takes_text (value : String) : Takes allowed (text value) := by
  rw [text]
  split
  · exact takes_pure _
  · exact (takes_use _).bind fun _ => takes_pure _

theorem takes_interpolation (value : Expression) : Takes allowed (interpolation value) :=
  (takes_use _).bind fun _ => takes_pure _

theorem takes_slot (attributes : List Attribute) : Takes allowed (slot attributes) := by
  refine takes_of_same fun used result after done => ?_
  cases done
  rfl

theorem takes_conditional {several : List (Expression × Action)} {otherwise : Action}
    (each : ∀ branch ∈ several, Takes allowed branch.2) (last : Takes allowed otherwise) :
    Takes allowed (conditional several otherwise) := by
  refine (Takes.mapM fun branch member => (each branch member).bind fun _ => takes_pure _).bind fun found => last.bind fun code => ?_
  dsimp only
  generalize (if code.isNone then dropEmptyEnd found else found) = shown
  split
  · exact takes_pure _
  · exact (takes_use _).bind fun _ => takes_pure _

theorem takes_loop {item items track : Expression} {body empty : Action} (takes : Takes allowed body) (takesEmpty : Takes allowed empty) :
    Takes allowed (loop item items track body empty) := by
  rw [loop]
  split
  · exact takes_throw _
  · refine takes.bind fun body => takesEmpty.bind fun empty => ?_
    split
    · exact takes_pure _
    · refine (takes_use _).bind fun _ => ?_
      dsimp only
      split
      · exact (takes_use _).bind fun _ => takes_pure _
      · exact takes_pure _

theorem takes_elementVariable (tag : String) : Takes allowed (elementVariable tag) := by
  refine takes_of_same fun used result after done => ?_
  obtain ⟨_, _, isUsed, done⟩ := exists_of_run_bind done
  cases isUsed
  split at done
  · cases done
    rfl
  · obtain ⟨_, _, isSet, done⟩ := exists_of_run_bind done
    cases isSet
    cases done
    rfl

theorem takes_elementCode (setting : Setting) (tag : String) : Takes allowed (elementCode setting tag) := by
  rw [elementCode]
  split
  · rw [map_eq_pure_bind]
    exact (takes_elementVariable tag).bind fun _ => takes_pure _
  · exact takes_pure _

theorem takes_element (setting : Setting) (tag : String) (attributes : List Attribute) {child : Action} (takes : Takes allowed child) :
    Takes allowed (element setting tag attributes child) :=
  (takes_use _).bind fun _ => (takes_elementCode setting tag).bind fun _ => takes.bind fun _ => takes_pure _

theorem takes_componentVariable {tag : String} (inside : tag ∈ allowed) : Takes allowed (componentVariable tag) := by
  intro used result after done other member
  obtain ⟨_, _, isUsed, done⟩ := exists_of_run_bind done
  cases isUsed
  split at done
  · cases done
    exact .inl member
  · obtain ⟨_, _, isSet, done⟩ := exists_of_run_bind done
    cases isSet
    cases done
    obtain ⟨entry, isEntry, rfl⟩ := List.mem_map.1 member
    obtain rfl | isOld := Entries.eq_or_mem_of_mem_put isEntry
    · exact .inr inside
    · exact .inl (List.mem_map.2 ⟨entry, isOld, rfl⟩)

/-! Routes to slots. -/

def RoutedTakes (allowed : List String) (routed : Routed) : Prop := ∀ action ∈ routed.actions, Takes allowed action

theorem routedTakes_addRouted {slots : Entries Routed} {routed : Routed} (each : ∀ entry ∈ slots, RoutedTakes allowed entry.2)
    (takes : RoutedTakes allowed routed) : ∀ entry ∈ addRouted slots routed, RoutedTakes allowed entry.2 := by
  intro entry member
  rw [addRouted] at member
  split at member
  · obtain rfl | isOld := Entries.eq_or_mem_of_mem_put member
    · exact takes
    · exact each entry isOld
  next before found =>
    obtain rfl | isOld := Entries.eq_or_mem_of_mem_put member
    · exact List.forall_mem_append.2 ⟨each _ (Entries.mem_of_get? found), takes⟩
    · exact each entry isOld

theorem routedTakes_gather {routes : List (Except LoweringError Routed)} {start slots : Entries Routed}
    (each : ∀ routed, .ok routed ∈ routes → RoutedTakes allowed routed) (before : ∀ entry ∈ start, RoutedTakes allowed entry.2)
    (gathered : gather start routes = .ok slots) : ∀ entry ∈ slots, RoutedTakes allowed entry.2 := by
  induction routes generalizing start with
  | nil =>
    cases gathered
    exact before
  | cons first rest ih =>
    cases first with
    | error problem => cases gathered
    | ok routed =>
      exact ih (fun other member => each other (List.mem_cons_of_mem _ member))
        (routedTakes_addRouted before (each routed (List.mem_cons_self ..))) gathered

theorem takes_slotFunction {routed : Routed} (takes : RoutedTakes allowed routed) : Takes allowed (slotFunction routed) := by
  refine (takes_siblings takes).bind fun body => ?_
  cases body with
  | none => exact takes_pure _
  | some body => exact takes_pure _

theorem takes_component {tag : String} {attributes : List Attribute} {routes : List (Except LoweringError Routed)} (inside : tag ∈ allowed)
    (each : ∀ routed, .ok routed ∈ routes → RoutedTakes allowed routed) : Takes allowed (component tag attributes routes) := by
  refine (takes_use _).bind fun _ => (takes_componentVariable inside).bind fun callee => ?_
  intro used result after done
  obtain ⟨slots, between, isGathered, done⟩ := exists_of_run_bind done
  have gathered := (run_gather [] routes used).symm.trans isGathered
  cases isSlots : gather [] routes with
  | error problem =>
    rw [isSlots] at gathered
    cases gathered
  | ok filled =>
    rw [isSlots] at gathered
    cases gathered
    have takes := routedTakes_gather each (List.forall_mem_nil _) isSlots
    exact (Takes.mapM fun entry member => takes_slotFunction (takes entry member)).bind (fun _ => takes_pure _) done

theorem actions_wrapper {tag : String} {attributes : List Attribute} {actions : List Action} {routed : Routed}
    (done : wrapper tag attributes actions = .ok routed) : routed.actions = actions := by
  rw [wrapper] at done
  cases isSlot : wrapperSlot tag attributes with
  | error problem =>
    rw [isSlot] at done
    cases done
  | ok slot =>
    rw [isSlot] at done
    cases areBindings : attributes.mapM (binding? tag) with
    | error problem =>
      rw [areBindings] at done
      cases done
    | ok bindings =>
      rw [areBindings] at done
      cases done
      rfl

/-! Whole markup. -/

mutual
theorem takes_node (setting : Setting) (self : Markup) (inside : ∀ tag ∈ tagsOf self, tag ∈ allowed) :
    Takes allowed (node setting self) := by
  cases self with
  | element name attributes children =>
    rw [tagsOf, List.forall_mem_cons] at inside
    rw [node]
    split
    · exact takes_throw _
    · split
      · exact takes_slot attributes
      · split
        · exact takes_component inside.1 (takes_routes setting children inside.2)
        · exact takes_element setting name attributes (takes_siblings (takes_nodes setting children inside.2))
  | text value => exact takes_text value
  | expression value => exact takes_interpolation value
  | conditional test body others otherwise =>
    rw [tagsOf, List.forall_mem_append, List.forall_mem_append] at inside
    rw [node]
    exact takes_conditional (List.forall_mem_cons.2 ⟨takes_siblings (takes_nodes setting body inside.1.1),
      takes_branches setting others inside.1.2⟩) (takes_siblings (takes_nodes setting otherwise inside.2))
  | loop item items track body empty =>
    rw [tagsOf, List.forall_mem_append] at inside
    rw [node]
    exact takes_loop (takes_siblings (takes_nodes setting body inside.1)) (takes_siblings (takes_nodes setting empty inside.2))

theorem takes_nodes (setting : Setting) (several : List Markup) (inside : ∀ tag ∈ tags several, tag ∈ allowed) :
    ∀ action ∈ nodes setting several, Takes allowed action := by
  cases several with
  | nil => exact List.forall_mem_nil _
  | cons first rest =>
    rw [tags, List.forall_mem_append] at inside
    rw [nodes]
    exact List.forall_mem_cons.2 ⟨takes_node setting first inside.1, takes_nodes setting rest inside.2⟩

theorem takes_branches (setting : Setting) (several : List (Branch Markup)) (inside : ∀ tag ∈ tagsOfBranches several, tag ∈ allowed) :
    ∀ branch ∈ branches setting several, Takes allowed branch.2 := by
  cases several with
  | nil => exact List.forall_mem_nil _
  | cons first rest =>
    cases first with
    | mk test body =>
      rw [tagsOfBranches, List.forall_mem_append] at inside
      rw [branches]
      exact List.forall_mem_cons.2 ⟨takes_siblings (takes_nodes setting body inside.1), takes_branches setting rest inside.2⟩

theorem takes_routes (setting : Setting) (several : List Markup) (inside : ∀ tag ∈ tags several, tag ∈ allowed) :
    ∀ routed, .ok routed ∈ routes setting several → RoutedTakes allowed routed := by
  cases several with
  | nil =>
    intro routed member
    cases member
  | cons first rest =>
    rw [tags, List.forall_mem_append] at inside
    have alone := List.forall_mem_singleton.2 (takes_node setting first inside.1)
    have behind := takes_routes setting rest inside.2
    intro routed member
    cases first with
    | element name attributes children =>
      rw [tagsOf, List.forall_mem_cons] at inside
      rw [routes] at member
      obtain isFirst | isOther := List.mem_cons.1 member
      · split at isFirst
        · rw [RoutedTakes, actions_wrapper isFirst.symm]
          exact takes_nodes setting children inside.1.2
        · cases isFirst
          exact alone
      · exact behind routed isOther
    | _ =>
      obtain isFirst | isOther := List.mem_cons.1 member
      · cases isFirst
        exact alone
      · exact behind routed isOther
end

end

theorem assemble_congr {config : Config} {siblings others : Entries ComponentFiles} {files : ComponentFiles}
    {resolver : ComponentFiles → String} {root : Option Code} {used : Used}
    (agree : ∀ tag ∈ Entries.names used.components, Entries.get? siblings tag = Entries.get? others tag) :
    assemble ⟨config, siblings⟩ files resolver root used = assemble ⟨config, others⟩ files resolver root used := by
  have children (load : String → ComponentFiles → Statement) :
      used.components.filterMap (fun entry => (Entries.get? siblings entry.1).map (load entry.2)) =
        used.components.filterMap fun entry => (Entries.get? others entry.1).map (load entry.2) :=
    List.filterMap_congr fun entry member => by rw [agree entry.1 (List.mem_map.2 ⟨entry, member, rfl⟩)]
  rw [assemble, assemble]
  dsimp only
  rw [children fun name child => .imports [.default name] (Path.relative files.directory (resolver child))]

end Lowering

open Lowering in
/-- Markup has the same module among siblings that agree on the tags in it. -/
theorem Program.ofMarkup_congr {markup : List Markup} {siblings others : Entries ComponentFiles}
    (agree : ∀ tag ∈ Markup.tags markup, Entries.get? siblings tag = Entries.get? others tag) (files : ComponentFiles)
    (resolver : ComponentFiles → String) (config : Config) :
    ofMarkup markup files siblings resolver config = ofMarkup markup files others resolver config := by
  rw [ofMarkup, ofMarkup, nodes_congr config markup agree]
  cases done : (Lowering.siblings (nodes ⟨config, others⟩ markup)).run {} with
  | error problem => rfl
  | ok found =>
    have takes : Takes (Markup.tags markup) (Lowering.siblings (nodes ⟨config, others⟩ markup)) :=
      takes_siblings (takes_nodes ⟨config, others⟩ markup fun _ => id)
    refine congrArg Except.ok (assemble_congr fun tag member => agree tag ?_)
    exact (takes done tag member).resolve_left List.not_mem_nil

namespace ComponentSource

/-! Batches. -/

/-- The tags in the template of a component, none if it cannot be read. -/
def mentioned (source : ComponentSource) : List String :=
  match source.parse with
  | .ok markup => Markup.tags markup
  | .error _ => []

theorem compile_congr {source : ComponentSource} {known others : Entries ComponentFiles}
    (agree : ∀ tag ∈ source.mentioned, Entries.get? known tag = Entries.get? others tag) (resolver : Resolver) (config : Config) :
    source.compile known resolver config = source.compile others resolver config := by
  rw [compile, compile]
  cases parsed : source.parse with
  | error problem => rfl
  | ok markup =>
    rw [mentioned, parsed] at agree
    show ((Program.ofMarkup markup source.files known resolver config).mapError CompileError.lowering >>= _) = _
    rw [Program.ofMarkup_congr agree]
    rfl

/-- A component that two batches hold has the same outcome in both, wherever it stands in them. -/
def SameOutcome (resolver : Resolver) (config : Config) (source : ComponentSource) (batch others : List ComponentSource) : Prop :=
  ∀ i j : Nat, batch[i]? = some source → others[j]? = some source →
    (compileAll batch resolver config)[i]? = (compileAll others resolver config)[j]?

theorem sameOutcome_of_agree {source : ComponentSource} {batch others : List ComponentSource}
    (agree : ∀ tag ∈ source.mentioned, Entries.get? (siblings batch) tag = Entries.get? (siblings others) tag)
    (resolver : Resolver) (config : Config) : SameOutcome resolver config source batch others := by
  intro i j here there
  rw [compileAll, compileAll, List.getElem?_map, List.getElem?_map, here, there]
  exact congrArg some (compile_congr agree resolver config)

/-- The components with a certain name decide what is known under it. -/
theorem get?_siblings_filter {batch : List ComponentSource} (keeps : String → Bool) {name : String} (kept : keeps name = true) :
    Entries.get? (siblings (batch.filter fun source => keeps source.files.name)) name = Entries.get? (siblings batch) name := by
  have pairs : ((batch.filter fun source => keeps source.files.name).map fun source => (source.files.name, source.files)) =
      (batch.map fun source => (source.files.name, source.files)).filter fun entry => keeps entry.1 := by
    rw [List.filter_map]
    rfl
  rw [siblings, siblings, Entries.get?_ofList, Entries.get?_ofList, pairs, ← List.filter_reverse]
  exact Entries.get?_filter kept

theorem get?_siblings_of_perm {batch others : List ComponentSource} (perm : batch.Perm others)
    (apart : (batch.map fun source => source.files.name).Nodup) (name : String) :
    Entries.get? (siblings batch) name = Entries.get? (siblings others) name := by
  rw [siblings, siblings, Entries.get?_ofList, Entries.get?_ofList]
  refine Entries.get?_eq_of_perm (((List.reverse_perm _).trans (perm.map _)).trans (List.reverse_perm _).symm) ?_ name
  rw [Entries.names, List.map_reverse, List.map_map]
  exact List.nodup_reverse.2 apart

/-- Lowering asks for the siblings with tags of the markup only. So a component of a batch has the same outcome
whatever the templates of the others are, whatever components are added or removed that its template does not
mention, and in whatever order the batch is if all names are different. -/
theorem compileAll_local (resolver : Resolver) (config : Config) :
    (∀ (markup : List Markup) (files : ComponentFiles) (known others : Entries ComponentFiles),
      (∀ tag ∈ Markup.tags markup, Entries.get? known tag = Entries.get? others tag) →
        Program.ofMarkup markup files known resolver config = Program.ofMarkup markup files others resolver config) ∧
    (∀ (source : ComponentSource) (batch others : List ComponentSource),
      (∀ tag ∈ source.mentioned, Entries.get? (siblings batch) tag = Entries.get? (siblings others) tag) →
        SameOutcome resolver config source batch others) ∧
    (∀ (source : ComponentSource) (batch others : List ComponentSource), batch.map files = others.map files →
      SameOutcome resolver config source batch others) ∧
    (∀ (source : ComponentSource) (batch others : List ComponentSource),
      (batch.filter fun other => source.mentioned.contains other.files.name) =
          (others.filter fun other => source.mentioned.contains other.files.name) →
        SameOutcome resolver config source batch others) ∧
    ∀ batch others : List ComponentSource, batch.Perm others → (batch.map fun source => source.files.name).Nodup →
      (∀ source, SameOutcome resolver config source batch others) ∧
        (compileAll batch resolver config).Perm (compileAll others resolver config) := by
  refine ⟨fun markup files known others agree => Program.ofMarkup_congr agree files resolver config,
    fun source batch others agree => sameOutcome_of_agree agree resolver config, fun source batch others same => ?_,
    fun source batch others same => ?_, fun batch others perm apart => ⟨fun source => ?_, ?_⟩⟩
  · have known : siblings batch = siblings others := by
      have pairs (batch : List ComponentSource) : siblings batch = Entries.ofList ((batch.map files).map fun files => (files.name, files)) := by
        rw [siblings, List.map_map]
        rfl
      rw [pairs, pairs, same]
    exact sameOutcome_of_agree (fun tag _ => by rw [known]) resolver config
  · refine sameOutcome_of_agree (fun tag member => ?_) resolver config
    have kept : source.mentioned.contains tag = true := List.contains_iff_mem.2 member
    rw [← get?_siblings_filter source.mentioned.contains kept, same,
      get?_siblings_filter source.mentioned.contains kept]
  · exact sameOutcome_of_agree (fun tag _ => get?_siblings_of_perm perm apart tag) resolver config
  · have same (source : ComponentSource) : source.compile (siblings batch) resolver config = source.compile (siblings others) resolver config :=
      compile_congr (fun tag _ => get?_siblings_of_perm perm apart tag) resolver config
    rw [compileAll, compileAll, List.map_congr_left fun source _ => same source]
    exact perm.map _

/-- A page with a child, and a component that cannot be read. -/
def pageSource : ComponentSource := ⟨.standard "page" "/app", "<x-y/>"⟩

def childSource : ComponentSource := ⟨.standard "x-y" "/app", "<b/>"⟩

def brokenSource : ComponentSource := ⟨.standard "z" "/app", "<"⟩

theorem compileAll_local_page :
    pageSource.mentioned = ["x-y"] ∧
    (compileAll [pageSource, childSource] .standard {})[0]? = (compileAll [brokenSource, childSource, pageSource] .standard {})[2]? ∧
    (compileAll [pageSource, childSource] .standard {}).Perm (compileAll [childSource, pageSource] .standard {}) := by
  have mentions : pageSource.mentioned = ["x-y"] := rfl
  refine ⟨mentions, ?_, ?_⟩
  · exact (compileAll_local .standard {}).2.2.2.1 pageSource [pageSource, childSource] [brokenSource, childSource, pageSource]
      (by rw [mentions]; decide) 0 2 rfl rfl
  · exact ((compileAll_local .standard {}).2.2.2.2 [pageSource, childSource] [childSource, pageSource] (.swap _ _ _) (by decide)).2

end ComponentSource

end ReactiveMarkup
