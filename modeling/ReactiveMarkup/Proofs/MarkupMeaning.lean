import ReactiveMarkup.Proofs.DirectRendering
import ReactiveMarkup.Proofs.EntryLaws
import ReactiveMarkup.Proofs.PrintedMarkup

/-! What markup shows, and that what it is rendered as shows the same: siblings without a fragment
around them, branches and slots that were left out for showing nothing, and loops without a body. -/

namespace ReactiveMarkup.Direct

/-- Something that is shown. What depends on expressions comes with the scope that they are
evaluated in. -/
inductive Tree where
  | element (tag : String) (attributes : List (String × ValuePlan)) (properties : List (String × BindingPlan))
      (events : List (String × ValuePlan)) (scope : Scope) (children : List Tree)
  | text (source : ValuePlan) (scope : Scope)
  /-- Part of the item with a key. -/
  | item (key : String) (shown : Tree)
  /-- A component with what it shows in each of its slots, given the context that it hands over. -/
  | component (id : Nat) (properties : List (String × BindingPlan)) (events : List (String × ValuePlan)) (scope : Scope)
      (slots : String → Value → List Tree)

/-- What expressions amount to, and the function that stands for an item of a list. -/
structure Answers where
  value : Scope → ValuePlan → Value
  reader : Value → Value

/-- The surroundings of what is shown: a scope, and what the slots of the component hold. -/
structure Place where
  scope : Scope
  slots : String → Value → List Tree

def Place.bind (place : Place) (bindings : List (String × Value)) : Place := { place with scope := place.scope.bind bindings }

namespace Answers

def holds (answers : Answers) (scope : Scope) (test : ValuePlan) : Bool := (answers.value scope test).isTruthy

/-- The items of a list. All that is not an array has none. -/
def items (answers : Answers) (scope : Scope) (items : ValuePlan) : List Value :=
  match answers.value scope items with
  | .array _ items => items
  | _ => []

def key (answers : Answers) (scope : Scope) (name : String) (track : ValuePlan) (item : Value) : String :=
  (answers.value (scope.bind [(name, answers.reader item)]) track).text

/-- A list: what is shown for each item, or something else if there is none. -/
def list (answers : Answers) (place : Place) (items : ValuePlan) (trackName : String) (track : ValuePlan) (itemName : String)
    (body : Place → List Tree) (empty : List Tree) : List Tree :=
  match answers.items place.scope items with
  | [] => empty
  | first :: rest => (first :: rest).flatMap fun item =>
      (body (place.bind [(itemName, answers.reader item)])).map (.item (answers.key place.scope trackName track item))

end Answers

/-- The place where the content of a slot stands, among the names that it takes from the context. -/
def Place.within (place : Place) (bindings : List (String × String)) (context : Value) : Place :=
  place.bind (bindings.map fun binding => (binding.2, context.get binding.1))

mutual
/-- What a plan shows. -/
def planShown (answers : Answers) (place : Place) : NodePlan → List Tree
  | .element tag attributes properties events child =>
    [.element tag attributes properties events place.scope (optionalShown answers place child)]
  | .text value => [.text (.literal value) place.scope]
  | .dynamicText body => [.text body place.scope]
  | .conditional branches otherwise => branchesShown answers place branches (optionalShown answers place otherwise)
  | .loop items trackName track itemName body empty =>
    answers.list place items trackName track itemName (fun place => planShown answers place body) (optionalShown answers place empty)
  | .fragment children => plansShown answers place children
  | .component id properties events slots =>
    [.component id properties events place.scope fun name context =>
      ((Entries.get? (Entries.ofList (contentsShown answers place slots)) name).map (· context)).getD []]
  | .slot name context => place.slots name ((context.map (answers.value place.scope)).getD .undefined)

def optionalShown (answers : Answers) (place : Place) : Option NodePlan → List Tree
  | none => []
  | some plan => planShown answers place plan

def plansShown (answers : Answers) (place : Place) : List NodePlan → List Tree
  | [] => []
  | first :: rest => planShown answers place first ++ plansShown answers place rest

/-- The first branch whose test holds, or the other. -/
def branchesShown (answers : Answers) (place : Place) : List (ValuePlan × Option NodePlan) → List Tree → List Tree
  | [], otherwise => otherwise
  | (test, plan) :: rest, otherwise =>
    if answers.holds place.scope test then optionalShown answers place plan else branchesShown answers place rest otherwise

def contentsShown (answers : Answers) (place : Place) :
    List (String × List (String × String) × NodePlan) → List (String × (Value → List Tree))
  | [] => []
  | (name, bindings, body) :: rest =>
    (name, fun context => planShown answers (place.within bindings context) body) :: contentsShown answers place rest
end

/-! What markup shows. -/

/-- The names that the content of a slot takes from its context: those of all wrappers for the slot. -/
def routedBindings (site : Site) (slot : String) (children : List Markup) : List (String × String) :=
  children.flatMap fun
    | .element name attributes _ =>
      if name = site.templateTag ∧ wrapperSlot attributes = slot then attributes.filterMap binding? else []
    | _ => []

mutual
/-- What a node shows: an element, a text or the value of an expression; for a slot, what the slot
holds; for a component, the component with what is led to each of its slots; the first branch whose
test holds; and the body of a loop for each item. -/
def nodeShown (answers : Answers) (site : Site) (place : Place) : Markup → List Tree
  | .element name attributes children =>
    if name = site.slotTag then
      place.slots (((Lowering.attribute? attributes "name").bind Attribute.text?).getD "default")
        (answers.value place.scope (.object ((attributes.filter (·.name != "name")).filterMap slotContext?)))
    else match site.component? name with
      | some id => [.component id
          ((attributes.filterMap fixed?).map (fun entry => (entry.1, ⟨entry.2, false⟩)) ++ attributes.filterMap bound?)
          (attributes.filterMap handler?) place.scope fun slot context =>
            routedShown answers site slot (place.within (routedBindings site slot children) context) children]
      | none => [.element name (attributes.filterMap fixed?) (attributes.filterMap bound?) (attributes.filterMap handler?) place.scope
          (nodesShown answers site place children)]
  | .text value => [.text (.literal (.string value)) place.scope]
  | .expression value => [.text (.host value) place.scope]
  | .conditional test body others otherwise =>
    if answers.holds place.scope (.host test) then nodesShown answers site place body
    else othersShown answers site place others (nodesShown answers site place otherwise)
  | .loop item items track body empty =>
    match item.name? with
    | none => []
    | some name =>
      answers.list place (.host items) name (.host track) name (fun place => nodesShown answers site place body)
        (nodesShown answers site place empty)

def nodesShown (answers : Answers) (site : Site) (place : Place) : List Markup → List Tree
  | [] => []
  | first :: rest => nodeShown answers site place first ++ nodesShown answers site place rest

def othersShown (answers : Answers) (site : Site) (place : Place) : List (Branch Markup) → List Tree → List Tree
  | [], otherwise => otherwise
  | ⟨test, body⟩ :: rest, otherwise =>
    if answers.holds place.scope (.host test) then nodesShown answers site place body
    else othersShown answers site place rest otherwise

/-- What the children of a component show in one of its slots. -/
def routedShown (answers : Answers) (site : Site) (slot : String) (place : Place) : List Markup → List Tree
  | [] => []
  | .element name attributes children :: rest =>
    (if name = site.templateTag then if wrapperSlot attributes = slot then nodesShown answers site place children else []
      else if slot = "default" then nodeShown answers site place (.element name attributes children) else []) ++
      routedShown answers site slot place rest
  | child :: rest =>
    (if slot = "default" then nodeShown answers site place child else []) ++ routedShown answers site slot place rest
end

/-! Siblings. -/

section

variable {answers : Answers} {place : Place}

theorem plansShown_eq (plans : List NodePlan) : plansShown answers place plans = plans.flatMap (planShown answers place) := by
  induction plans with
  | nil => rfl
  | cons first rest ih => rw [plansShown, ih, List.flatMap_cons]

theorem flatMap_filterMap_shown (plans : List (Option NodePlan)) :
    (plans.filterMap id).flatMap (planShown answers place) = plans.flatMap (optionalShown answers place) := by
  induction plans with
  | nil => rfl
  | cons first rest ih =>
    cases first with
    | none => exact ih
    | some plan => exact congrArg (planShown answers place plan ++ ·) ih

/-- Nothing, one node or a fragment: siblings show what they show one after another. -/
theorem optionalShown_siblings (plans : List (Option NodePlan)) :
    optionalShown answers place (siblings plans) = plans.flatMap (optionalShown answers place) := by
  rw [← flatMap_filterMap_shown, siblings]
  split
  next none => rw [none]; rfl
  next only one => rw [one, List.flatMap_singleton]; rfl
  next => rw [optionalShown, planShown, plansShown_eq]

/-! Conditionals. -/

theorem branchesShown_append {dropped : List (ValuePlan × Option NodePlan)} (empty : ∀ branch ∈ dropped, branch.2 = none)
    (kept : List (ValuePlan × Option NodePlan)) :
    branchesShown answers place (kept ++ dropped) [] = branchesShown answers place kept [] := by
  induction kept with
  | nil =>
    induction dropped with
    | nil => rfl
    | cons branch rest ih =>
      obtain ⟨test, plan⟩ := branch
      obtain ⟨rfl, others⟩ := List.forall_mem_cons.1 empty
      have last : branchesShown answers place rest [] = [] := ih others
      show branchesShown answers place ((test, none) :: rest) [] = []
      rw [branchesShown, last, optionalShown, ite_self]
  | cons branch rest ih => rw [List.cons_append, branchesShown, branchesShown, ih]

theorem exists_withoutEmptyEnd {α : Type} (branches : List (Expression × Option α)) :
    ∃ dropped, branches = withoutEmptyEnd branches ++ dropped ∧ ∀ branch ∈ dropped, branch.2 = none := by
  refine ⟨(branches.reverse.takeWhile fun branch => branch.2.isNone).reverse, ?_, fun branch member => ?_⟩
  · rw [withoutEmptyEnd, ← List.reverse_append, List.takeWhile_append_dropWhile, List.reverse_reverse]
  · have empty := List.mem_takeWhile_imp (List.mem_reverse.1 member)
    exact Option.isNone_iff_eq_none.1 empty

/-- A branch that shows nothing and has nothing behind it makes no difference. -/
theorem optionalShown_conditional (branches : List (Expression × Option NodePlan)) (otherwise : Option NodePlan) :
    optionalShown answers place (conditional branches otherwise) =
      branchesShown answers place (branches.map fun branch => (.host branch.1, branch.2)) (optionalShown answers place otherwise) := by
  have kept : branchesShown answers place ((keptBranches branches otherwise).map fun branch => (.host branch.1, branch.2))
      (optionalShown answers place otherwise) =
      branchesShown answers place (branches.map fun branch => (.host branch.1, branch.2)) (optionalShown answers place otherwise) := by
    cases otherwise with
    | some plan => rfl
    | none =>
      obtain ⟨dropped, same, empty⟩ := exists_withoutEmptyEnd branches
      show branchesShown answers place ((withoutEmptyEnd branches).map _) [] = branchesShown answers place (branches.map _) []
      conv => rhs; rw [same, List.map_append]
      rw [branchesShown_append]
      intro branch found
      obtain ⟨old, member, rfl⟩ := List.mem_map.1 found
      exact empty old member
  rw [← kept, conditional]
  split
  next nothing =>
    obtain ⟨noBranch, noLast⟩ := Bool.and_eq_true_iff.1 nothing
    rw [List.isEmpty_iff.1 noBranch, Option.isNone_iff_eq_none.1 noLast]
    rfl
  next => rw [optionalShown, planShown]

/-! Loops. -/

theorem list_nothing (items track : ValuePlan) (trackName itemName : String) :
    answers.list place items trackName track itemName (fun _ => []) [] = [] := by
  rw [Answers.list]
  split
  · rfl
  · simp

theorem optionalShown_loop (item items track : Expression) (body empty : Option NodePlan) :
    optionalShown answers place (loop item items track body empty) = match item.name? with
      | none => []
      | some name => answers.list place (.host items) name (.host track) name (fun place => optionalShown answers place body)
          (optionalShown answers place empty) := by
  rw [loop]
  split
  next nothing =>
    obtain ⟨noBody, noEmpty⟩ := Bool.and_eq_true_iff.1 nothing
    rw [Option.isNone_iff_eq_none.1 noBody, Option.isNone_iff_eq_none.1 noEmpty]
    cases item.name? with
    | none => rfl
    | some name => exact (list_nothing ..).symm
  next =>
    cases item.name? with
    | none => rfl
    | some name =>
      rw [Option.map_some, optionalShown, planShown]
      cases body <;> rfl

/-! Slots. -/

/-- What was led to a slot, and the names that it takes from the context. -/
def contentsAt (slots : Entries Filling) (slot : String) : List (Option NodePlan) := ((Entries.get? slots slot).map (·.contents)).getD []

def bindingsAt (slots : Entries Filling) (slot : String) : List (String × String) := ((Entries.get? slots slot).map (·.bindings)).getD []

theorem at_addFilling (slots : Entries Filling) (filling : Filling) (slot : String) :
    contentsAt (addFilling slots filling) slot = contentsAt slots slot ++ (if filling.slot = slot then filling.contents else []) ∧
      bindingsAt (addFilling slots filling) slot = bindingsAt slots slot ++ (if filling.slot = slot then filling.bindings else []) := by
  rw [addFilling, contentsAt, contentsAt, bindingsAt, bindingsAt]
  by_cases same : filling.slot = slot
  · subst same
    rw [if_pos rfl, if_pos rfl]
    split
    next none => rw [Entries.get?_put, if_pos rfl, none]; exact ⟨rfl, rfl⟩
    next others found => rw [Entries.get?_put, if_pos rfl, found]; exact ⟨rfl, rfl⟩
  · rw [if_neg same, if_neg same, List.append_nil, List.append_nil]
    split <;> (rw [Entries.get?_put, if_neg (Ne.symm same)]; exact ⟨rfl, rfl⟩)

/-- All that is led to a slot comes together there, in order. -/
theorem at_foldl_addFilling (slots : Entries Filling) (fillings : List Filling) (slot : String) :
    contentsAt (fillings.foldl addFilling slots) slot =
        contentsAt slots slot ++ fillings.flatMap (fun filling => if filling.slot = slot then filling.contents else []) ∧
      bindingsAt (fillings.foldl addFilling slots) slot =
        bindingsAt slots slot ++ fillings.flatMap fun filling => if filling.slot = slot then filling.bindings else [] := by
  induction fillings generalizing slots with
  | nil => exact ⟨(List.append_nil _).symm, (List.append_nil _).symm⟩
  | cons filling rest ih =>
    obtain ⟨contents, bindings⟩ := at_addFilling slots filling slot
    obtain ⟨contentsRest, bindingsRest⟩ := ih (addFilling slots filling)
    rw [List.foldl_cons, List.flatMap_cons, List.flatMap_cons, ← List.append_assoc, ← List.append_assoc, ← contents, ← bindings]
    exact ⟨contentsRest, bindingsRest⟩

/-- Slots under their own names, each once. -/
structure Sorted (slots : Entries Filling) : Prop where
  apart : (Entries.names slots).Nodup
  named : ∀ entry ∈ slots, entry.2.slot = entry.1

theorem Sorted.put {slots : Entries Filling} (sorted : Sorted slots) {name : String} {filling : Filling} (named : filling.slot = name) :
    Sorted (Entries.put slots name filling) := by
  refine ⟨Entries.nodup_put sorted.apart _ _, fun entry member => ?_⟩
  obtain rfl | member := Entries.eq_or_mem_of_mem_put member
  · exact named
  · exact sorted.named entry member

theorem Sorted.tail {entry : String × Filling} {slots : Entries Filling} (sorted : Sorted (entry :: slots)) :
    entry.2.slot = entry.1 ∧ entry.1 ∉ Entries.names slots ∧ Sorted slots := by
  obtain ⟨named, others⟩ := List.forall_mem_cons.1 sorted.named
  obtain ⟨absent, apart⟩ := List.nodup_cons.1 sorted.apart
  exact ⟨named, absent, apart, others⟩

theorem sorted_foldl_addFilling {slots : Entries Filling} (sorted : Sorted slots) (fillings : List Filling) :
    Sorted (fillings.foldl addFilling slots) := by
  induction fillings generalizing slots with
  | nil => exact sorted
  | cons filling rest ih =>
    refine ih ?_
    rw [addFilling]
    split
    · exact sorted.put rfl
    · exact sorted.put rfl

theorem contentsShown_eq (contents : List (String × List (String × String) × NodePlan)) :
    contentsShown answers place contents =
      contents.map fun content => (content.1, fun context => planShown answers (place.within content.2.1 context) content.2.2) := by
  induction contents with
  | nil => rfl
  | cons content rest ih => rw [contentsShown, ih, List.map_cons]

theorem names_filterMap_content? {slots : Entries Filling} (sorted : Sorted slots) :
    (Entries.names (slots.filterMap content?)).Sublist (Entries.names slots) := by
  induction slots with
  | nil => exact .slnil
  | cons entry rest ih =>
    obtain ⟨named, _, sorted⟩ := sorted.tail
    rw [List.filterMap_cons, content?]
    cases siblings entry.2.contents with
    | none => exact (ih sorted).cons _
    | some body =>
      show (entry.2.slot :: Entries.names (rest.filterMap content?)).Sublist (entry.1 :: Entries.names rest)
      rw [named]
      exact (ih sorted).cons_cons _

theorem get?_contentsShown {slots : Entries Filling} (sorted : Sorted slots) (slot : String) :
    Entries.get? (contentsShown answers place (slots.filterMap content?)) slot = (Entries.get? slots slot).bind fun filling =>
      (siblings filling.contents).map fun body context => planShown answers (place.within filling.bindings context) body := by
  induction slots with
  | nil => rfl
  | cons entry rest ih =>
    obtain ⟨named, absent, sortedRest⟩ := sorted.tail
    obtain ⟨name, filling⟩ := entry
    dsimp only at named
    rw [List.filterMap_cons, content?, Entries.get?_cons]
    cases shows : siblings filling.contents with
    | none =>
      dsimp only [Option.map_none]
      rw [ih sortedRest]
      split
      next same => rw [same, Entries.get?_eq_none absent, Option.bind_some, shows, Option.bind_none, Option.map_none]
      next => rfl
    | some body =>
      dsimp only [Option.map_some]
      rw [contentsShown, Entries.get?_cons, named, ih sortedRest]
      split
      next => rw [Option.bind_some, shows, Option.map_some]
      next => rfl

/-- A slot shows all that was led to it. -/
theorem slotShown_eq {slots : Entries Filling} (sorted : Sorted slots) (slot : String) (context : Value) :
    ((Entries.get? (Entries.ofList (contentsShown answers place (slots.filterMap content?))) slot).map (· context)).getD [] =
      (contentsAt slots slot).flatMap (optionalShown answers (place.within (bindingsAt slots slot) context)) := by
  have apart : (Entries.names ([] ++ contentsShown answers place (slots.filterMap content?))).Nodup := by
    rw [List.nil_append, contentsShown_eq, Entries.names, List.map_map]
    exact (names_filterMap_content? sorted).nodup sorted.apart
  rw [Entries.ofList, Entries.foldl_put_of_nodup apart, List.nil_append, get?_contentsShown sorted, contentsAt, bindingsAt]
  cases Entries.get? slots slot with
  | none => rfl
  | some filling =>
    rw [Option.bind_some, Option.map_some, Option.getD_some, Option.map_some, Option.getD_some, ← optionalShown_siblings]
    cases siblings filling.contents <;> rfl

/-! Whole markup. -/

theorem routedBindings_eq (site : Site) (slot : String) (children : List Markup) :
    (fillings site children).flatMap (fun filling => if filling.slot = slot then filling.bindings else []) =
      routedBindings site slot children := by
  induction children with
  | nil => rw [fillings]; rfl
  | cons child rest ih =>
    cases child with
    | element name attributes children =>
      rw [fillings, List.flatMap_cons, ih, routedBindings, routedBindings, List.flatMap_cons]
      by_cases wraps : name = site.templateTag
      · simp [wraps]
      · simp [wraps]
    | _ =>
      rw [fillings, List.flatMap_cons, ih, routedBindings, routedBindings, List.flatMap_cons]
      · simp
      · exact fun _ _ _ never => by cases never

/-- What the fillings of a component show in a slot. -/
def fillingsShown (answers : Answers) (slot : String) (place : Place) (fillings : List Filling) : List Tree :=
  (fillings.flatMap fun filling => if filling.slot = slot then filling.contents else []).flatMap (optionalShown answers place)

theorem fillingsShown_cons (slot : String) (filling : Filling) (fillings : List Filling) :
    fillingsShown answers slot place (filling :: fillings) =
      (if filling.slot = slot then filling.contents.flatMap (optionalShown answers place) else []) ++
        fillingsShown answers slot place fillings := by
  rw [fillingsShown, List.flatMap_cons, List.flatMap_append]
  split <;> rfl

theorem planShown_component (id : Nat) (attributes : List Attribute) (fillings : List Filling) :
    planShown answers place (component id attributes fillings) = [.component id
      ((attributes.filterMap fixed?).map (fun entry => (entry.1, ⟨entry.2, false⟩)) ++ attributes.filterMap bound?)
      (attributes.filterMap handler?) place.scope fun slot context =>
        fillingsShown answers slot (place.within
          (fillings.flatMap fun filling => if filling.slot = slot then filling.bindings else []) context) fillings] := by
  rw [component, planShown]
  congr 2
  funext slot context
  have start : Sorted [] := ⟨List.nodup_nil, fun _ => nofun⟩
  have sorted := sorted_foldl_addFilling start fillings
  obtain ⟨contents, bindings⟩ := at_foldl_addFilling [] fillings slot
  rw [slotShown_eq sorted, contents, bindings]
  rfl

/-- What markup is rendered as shows what the markup shows, and so do the fillings of a component
with that markup for children. -/
structure Faithful (answers : Answers) (site : Site) (markup : List Markup) : Prop where
  nodes : ∀ place, (nodes site markup).flatMap (optionalShown answers place) = nodesShown answers site place markup
  fillings : ∀ slot place, fillingsShown answers slot place (fillings site markup) = routedShown answers site slot place markup

theorem Faithful.siblings {site : Site} {markup : List Markup} (faithful : Faithful answers site markup) (place : Place) :
    optionalShown answers place (siblings (Direct.nodes site markup)) = nodesShown answers site place markup :=
  (optionalShown_siblings _).trans (faithful.nodes place)

/-- What is not an element goes to the default slot. -/
theorem faithful_cons {site : Site} {first : Markup} {rest : List Markup} (plain : ∀ name attributes children, first ≠ .element name attributes children)
    (shows : ∀ place, optionalShown answers place (node site first) = nodeShown answers site place first)
    (behind : Faithful answers site rest) : Faithful answers site (first :: rest) := by
  refine ⟨fun place => ?_, fun slot place => ?_⟩
  · rw [nodes, nodesShown, List.flatMap_cons, shows, behind.nodes]
  · rw [fillings, routedShown, fillingsShown_cons, behind.fillings, List.flatMap_singleton, shows]
    · by_cases isDefault : slot = "default"
      · rw [if_pos isDefault, if_pos isDefault.symm]
      · rw [if_neg isDefault, if_neg (Ne.symm isDefault)]
    · exact plain
    · exact plain

theorem faithful_element {site : Site} {name : String} {attributes : List Attribute} {children rest : List Markup}
    (inside : Faithful answers site children) (behind : Faithful answers site rest) :
    Faithful answers site (.element name attributes children :: rest) := by
  have shows (place : Place) : optionalShown answers place (node site (.element name attributes children)) =
      nodeShown answers site place (.element name attributes children) := by
    rw [node, nodeShown]
    split
    next => rfl
    next =>
      cases site.component? name with
      | some id =>
        dsimp only
        rw [optionalShown, planShown_component]
        simp only [routedBindings_eq, inside.fillings]
      | none =>
        dsimp only
        rw [optionalShown, element, planShown, inside.siblings]
  refine ⟨fun place => ?_, fun slot place => ?_⟩
  · rw [nodes, nodesShown, List.flatMap_cons, shows, behind.nodes]
  · rw [fillings, routedShown, fillingsShown_cons, behind.fillings]
    by_cases wraps : name = site.templateTag
    · rw [if_pos wraps, if_pos wraps, inside.nodes]
    · rw [if_neg wraps, if_neg wraps, List.flatMap_singleton, shows]
      by_cases isDefault : slot = "default"
      · rw [if_pos isDefault, if_pos isDefault.symm]
      · rw [if_neg isDefault, if_neg (Ne.symm isDefault)]

theorem othersShown_eq {site : Site} {others : List (Branch Markup)} (each : ∀ branch ∈ others, Faithful answers site branch.body)
    (otherwise : List Tree) :
    branchesShown answers place ((branches site others).map fun branch => (.host branch.1, branch.2)) otherwise =
      othersShown answers site place others otherwise := by
  induction others with
  | nil => rw [branches, othersShown]; rfl
  | cons branch rest ih =>
    obtain ⟨test, body⟩ := branch
    obtain ⟨first, others⟩ := List.forall_mem_cons.1 each
    rw [branches, othersShown, List.map_cons, branchesShown, first.siblings, ih others]

/-- The induction is on how the markup is laid out: a text that was read is not empty. -/
theorem faithful_of_laid {formed : Expression → Prop} {tight : Prop} {markup : List Markup} (answers : Answers) (site : Site)
    (laid : Markup.Laid formed tight markup) : Faithful answers site markup := by
  induction laid with
  | nil =>
    refine ⟨fun place => ?_, fun slot place => ?_⟩
    · rw [nodes, nodesShown]; rfl
    · rw [fillings, routedShown]; rfl
  | element _ _ _ _ _ inside behind => exact faithful_element inside behind
  | @text value rest plain _ _ _ behind =>
    refine faithful_cons (fun _ _ _ never => by cases never) (fun place => ?_) behind
    have filled : ¬ value.isEmpty = true := by
      intro empty
      have nothing := plain.filled
      rw [String.isEmpty_iff.1 empty] at nothing
      exact absurd nothing (by decide)
    rw [node, nodeShown, if_neg filled]
    rfl
  | expression _ _ behind =>
    refine faithful_cons (fun _ _ _ never => by cases never) (fun place => ?_) behind
    rw [node, nodeShown]
    rfl
  | conditional _ _ _ _ _ _ _ inside insideOthers insideOtherwise behind =>
    refine faithful_cons (fun _ _ _ never => by cases never) (fun place => ?_) behind
    rw [node, nodeShown, optionalShown_conditional, List.map_cons, branchesShown, inside.siblings, insideOtherwise.siblings,
      othersShown_eq insideOthers]
  | loop _ _ _ _ _ _ _ inside insideEmpty behind =>
    refine faithful_cons (fun _ _ _ never => by cases never) (fun place => ?_) behind
    rw [node, nodeShown, optionalShown_loop, insideEmpty.siblings]
    simp only [inside.siblings]

/-- What markup is rendered as shows what the markup shows. -/
theorem optionalShown_root {formed : Expression → Prop} {tight : Prop} {markup : List Markup} (site : Site)
    (laid : Markup.Laid formed tight markup) : optionalShown answers place (root site markup) = nodesShown answers site place markup :=
  (faithful_of_laid answers site laid).siblings place

end

end ReactiveMarkup.Direct
