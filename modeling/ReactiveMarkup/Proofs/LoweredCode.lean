import Mathlib.Data.List.Forall2
import ReactiveMarkup.Loading.Planner
import ReactiveMarkup.Proofs.DirectRendering
import ReactiveMarkup.Proofs.EntryLaws
import ReactiveMarkup.Proofs.VariableNames

/-! The code that markup is lowered to is planned as the markup is rendered directly, by any planner
that knows what the code uses. -/

namespace ReactiveMarkup.Lowering

open ReactiveMarkup.Planner

/-! Steps of lowering. -/

theorem exists_of_run_bind {α β : Type} {step : Lower α} {next : α → Lower β} {used after : Used} {result : β}
    (done : (step >>= next).run used = .ok (result, after)) :
    ∃ value between, step.run used = .ok (value, between) ∧ (next value).run between = .ok (result, after) := by
  rw [StateT.run_bind] at done
  cases first : step.run used with
  | error problem =>
    rw [first] at done
    cases done
  | ok found =>
    rw [first] at done
    exact ⟨found.1, found.2, rfl, done⟩

/-- What is noted on the way: constants with names of their own if elements have constants at all,
and child components under the variables for their tags. -/
structure Noted (setting : Setting) (used : Used) : Prop where
  component : .component ∈ used.constructors
  hoisted : setting.config.hoistElements = false → used.elements = []
  element : used.elements ≠ [] → .element ∈ used.constructors
  constants : (used.elements.map (·.2)).Nodup
  marked : ∀ entry ∈ used.elements, ∃ behind, entry.2 = "$e_" ++ behind
  children : ∀ entry ∈ used.components,
    Markup.TagName entry.1 ∧ Entries.contains setting.siblings entry.1 = true ∧ entry.2 = Text.sanitize (Name.ofTag entry.1)

/-- Everything used before is still used, under the same variables. -/
structure Grows (setting : Setting) (before after : Used) : Prop where
  constructors : before.constructors ⊆ after.constructors
  components : ∀ tag name, Entries.get? before.components tag = some name → Entries.get? after.components tag = some name
  elements : ∀ tag name, Entries.get? before.elements tag = some name → Entries.get? after.elements tag = some name
  slots : before.slots = true → after.slots = true
  noted : Noted setting before → Noted setting after

variable {setting : Setting}

theorem Grows.refl (used : Used) : Grows setting used used := ⟨fun _ => id, fun _ _ => id, fun _ _ => id, id, id⟩

theorem Grows.trans {first second third : Used} (one : Grows setting first second) (two : Grows setting second third) :
    Grows setting first third :=
  ⟨fun _ member => two.constructors (one.constructors member),
    fun tag name found => two.components tag name (one.components tag name found),
    fun tag name found => two.elements tag name (one.elements tag name found), fun slots => two.slots (one.slots slots),
    fun noted => two.noted (one.noted noted)⟩

/-- A planner that knows all that is used. No variable hides a constructor. -/
structure Fits (planner : Planner) (component : String → Nat) (used : Used) : Prop where
  constructors : ∀ constructor ∈ used.constructors, constructor ∈ planner.constructors
  elements : ∀ tag name, Entries.get? used.elements tag = some name → Entries.get? planner.elements name = some tag
  components : ∀ tag name, Entries.get? used.components tag = some name →
    Entries.get? planner.elements name = none ∧
      ∃ title, Entries.get? planner.components name = some (component tag, title)
  free : ∀ constructor : Constructor, Entries.get? planner.elements constructor.name = none ∧
    Entries.get? planner.components constructor.name = none
  slots : used.slots = true → planner.slots = true

theorem Fits.mono {planner : Planner} {component : String → Nat} {before after : Used} (fits : Fits planner component after)
    (grows : Grows setting before after) : Fits planner component before :=
  ⟨fun constructor member => fits.constructors constructor (grows.constructors member),
    fun tag name found => fits.elements tag name (grows.elements tag name found),
    fun tag name found => fits.components tag name (grows.components tag name found), fits.free,
    fun slots => fits.slots (grows.slots slots)⟩

/-- Code that is planned in a certain way, or no code for nothing. -/
def Planned (planner : Planner) : Option Code → Option NodePlan → Prop
  | none, none => True
  | some code, some plan => planner.planNode code = .ok plan
  | _, _ => False

variable {planner : Planner} {component : String → Nat}

/-- Lowering gives code that is planned in a certain way. -/
def Lowers (setting : Setting) (planner : Planner) (component : String → Nat) (action : Action) (plan : Option NodePlan) : Prop :=
  ∀ ⦃used code after⦄, action.run used = .ok (code, after) →
    Grows setting used after ∧ (Fits planner component after → Planned planner code plan)

/-! Plans of values. -/

theorem planEntries_filterMap {codes : Attribute → Option (String × Code)} {plans : Attribute → Option (String × ValuePlan)}
    (each : ∀ attr, Option.Rel (fun code plan => code.1 = plan.1 ∧ planValue code.2 = .ok plan.2) (codes attr) (plans attr))
    (attributes : List Attribute) : planEntries (attributes.filterMap codes) = .ok (attributes.filterMap plans) := by
  induction attributes with
  | nil => rfl
  | cons attr rest ih =>
    have here := each attr
    rw [List.filterMap_cons, List.filterMap_cons]
    generalize codes attr = code at here
    generalize plans attr = plan at here
    cases here with
    | none => exact ih
    | @some code plan related =>
      obtain ⟨name, code⟩ := code
      obtain ⟨_, plan⟩ := plan
      obtain ⟨rfl, planned⟩ := related
      simp only [planEntries, planned, ih]
      rfl

theorem planBindingEntries_filterMap {codes : Attribute → Option (String × Code)} {plans : Attribute → Option (String × BindingPlan)}
    (each : ∀ attr, Option.Rel (fun code plan => code.1 = plan.1 ∧ planBinding code.2 = .ok plan.2) (codes attr) (plans attr))
    (attributes : List Attribute) : planBindingEntries (attributes.filterMap codes) = .ok (attributes.filterMap plans) := by
  induction attributes with
  | nil => rfl
  | cons attr rest ih =>
    have here := each attr
    rw [List.filterMap_cons, List.filterMap_cons]
    generalize codes attr = code at here
    generalize plans attr = plan at here
    cases here with
    | none => exact ih
    | @some code plan related =>
      obtain ⟨name, code⟩ := code
      obtain ⟨_, plan⟩ := plan
      obtain ⟨rfl, planned⟩ := related
      simp only [planBindingEntries, planned, ih]
      rfl

theorem planEntries_fixed (attributes : List Attribute) :
    planEntries (attributes.filterMap fixed?) = .ok (attributes.filterMap Direct.fixed?) := by
  refine planEntries_filterMap (fun attr => ?_) attributes
  obtain ⟨name, kind, value⟩ := attr
  cases kind <;> cases value <;> first | exact .none | exact .some ⟨rfl, rfl⟩

theorem planEntries_handlers (attributes : List Attribute) :
    planEntries (attributes.filterMap handler?) = .ok (attributes.filterMap Direct.handler?) := by
  refine planEntries_filterMap (fun attr => ?_) attributes
  obtain ⟨name, kind, value⟩ := attr
  cases kind <;> cases value <;> first | exact .none | exact .some ⟨rfl, rfl⟩

theorem planEntries_context (attributes : List Attribute) :
    planEntries (attributes.filterMap slotContext?) = .ok (attributes.filterMap Direct.slotContext?) := by
  refine planEntries_filterMap (fun attr => ?_) attributes
  obtain ⟨name, kind, value⟩ := attr
  cases kind <;> cases value <;> first | exact .none | exact .some ⟨rfl, rfl⟩

theorem planBindingEntries_bound (attributes : List Attribute) :
    planBindingEntries (attributes.filterMap bound?) = .ok (attributes.filterMap Direct.bound?) := by
  refine planBindingEntries_filterMap (fun attr => ?_) attributes
  obtain ⟨name, kind, value⟩ := attr
  cases kind <;> cases value <;> first | exact .none | exact .some ⟨rfl, rfl⟩

theorem planBindingEntries_append {first second : List (String × Code)} {one two : List (String × BindingPlan)}
    (planned : planBindingEntries first = .ok one) (plannedSecond : planBindingEntries second = .ok two) :
    planBindingEntries (first ++ second) = .ok (one ++ two) := by
  induction first generalizing one with
  | nil =>
    cases planned
    exact plannedSecond
  | cons entry rest ih =>
    obtain ⟨name, code⟩ := entry
    simp only [planBindingEntries] at planned
    cases isFirst : planBinding code with
    | error fault =>
      rw [isFirst] at planned
      cases planned
    | ok plan =>
      cases others : planBindingEntries rest with
      | error fault =>
        rw [isFirst, others] at planned
        cases planned
      | ok plans =>
        rw [isFirst, others] at planned
        cases planned
        simp only [List.cons_append, planBindingEntries, isFirst, ih others]
        rfl

theorem planBindingEntries_fixed (attributes : List Attribute) :
    planBindingEntries (attributes.filterMap fixed?) =
      .ok ((attributes.filterMap Direct.fixed?).map fun entry => (entry.1, ⟨entry.2, false⟩)) := by
  rw [List.map_filterMap]
  refine planBindingEntries_filterMap (fun attr => ?_) attributes
  obtain ⟨name, kind, value⟩ := attr
  cases kind <;> cases value <;> first | exact .none | exact .some ⟨rfl, rfl⟩

/-! Constructors. -/

/-- A constructor that is used and that no variable hides is called. -/
theorem Fits.require {used : Used} (fits : Fits planner component used) {constructor : Constructor}
    (member : constructor ∈ used.constructors) : planner.require constructor = .ok () :=
  if_pos (List.contains_iff_mem.2 (fits.constructors constructor member))

theorem planNode_text {used : Used} (fits : Fits planner component used) (member : Constructor.text ∈ used.constructors)
    (arguments : List Code) : planner.planNode (construct .text arguments) = planText arguments := by
  obtain ⟨noElement, noComponent⟩ := fits.free .text
  simp only [construct, planNode, noElement, noComponent, fits.require member]
  rfl

theorem planNode_conditional {used : Used} (fits : Fits planner component used) (member : Constructor.conditional ∈ used.constructors)
    (arguments : List Code) : planner.planNode (construct .conditional arguments) = planner.planConditional arguments := by
  obtain ⟨noElement, noComponent⟩ := fits.free .conditional
  simp only [construct, planNode, noElement, noComponent, fits.require member]
  rfl

theorem planNode_loop {used : Used} (fits : Fits planner component used) (member : Constructor.loop ∈ used.constructors)
    (arguments : List Code) : planner.planNode (construct .loop arguments) = planner.planLoop arguments := by
  obtain ⟨noElement, noComponent⟩ := fits.free .loop
  simp only [construct, planNode, noElement, noComponent, fits.require member]
  rfl

theorem planNodes_of_forall₂ {codes : List Code} {plans : List NodePlan}
    (planned : List.Forall₂ (fun code plan => planner.planNode code = .ok plan) codes plans) : planner.planNodes codes = .ok plans := by
  induction planned with
  | nil => rfl
  | cons first _ ih =>
    simp only [planNodes, first, ih]
    rfl

theorem planNode_fragment {used : Used} (fits : Fits planner component used) (member : Constructor.fragment ∈ used.constructors)
    {codes : List Code} {plans : List NodePlan}
    (planned : List.Forall₂ (fun code plan => planner.planNode code = .ok plan) codes plans) :
    planner.planNode (construct .fragment codes) = .ok (.fragment plans) := by
  obtain ⟨noElement, noComponent⟩ := fits.free .fragment
  simp only [construct, planNode, noElement, noComponent, fits.require member]
  show (do let plans ← planner.planNodes codes; return NodePlan.fragment plans) = _
  rw [planNodes_of_forall₂ planned]
  rfl

theorem isNull_of_planNode {code : Code} {plan : NodePlan} (planned : planner.planNode code = .ok plan) : code.isNull = false := by
  cases code with
  | literal value => cases planned
  | _ => rfl

/-! Siblings. -/

theorem grows_use (setting : Setting) (constructor : Constructor) (used : Used) :
    Grows setting used { used with constructors := constructor :: used.constructors } :=
  ⟨fun _ member => List.mem_cons_of_mem _ member, fun _ _ => id, fun _ _ => id, id,
    fun noted => { noted with
      component := List.mem_cons_of_mem _ noted.component
      element := fun some => List.mem_cons_of_mem _ (noted.element some) }⟩

theorem lowers_all {actions : List Action} {plans : List (Option NodePlan)} (each : List.Forall₂ (Lowers setting planner component) actions plans)
    {used after : Used} {codes : List (Option Code)} (done : (actions.mapM id).run used = .ok (codes, after)) :
    Grows setting used after ∧ (Fits planner component after → List.Forall₂ (Planned planner) codes plans) := by
  induction each generalizing used codes with
  | nil =>
    cases done
    exact ⟨.refl _, fun _ => .nil⟩
  | cons first _ ih =>
    rw [List.mapM_cons] at done
    obtain ⟨code, between, isFirst, done⟩ := exists_of_run_bind done
    obtain ⟨others, later, areOthers, done⟩ := exists_of_run_bind done
    cases done
    obtain ⟨grows, planned⟩ := first isFirst
    obtain ⟨growsMore, plannedMore⟩ := ih areOthers
    exact ⟨grows.trans growsMore, fun fits => .cons (planned (fits.mono growsMore)) (plannedMore fits)⟩

theorem planned_filterMap {codes : List (Option Code)} {plans : List (Option NodePlan)}
    (planned : List.Forall₂ (Planned planner) codes plans) :
    List.Forall₂ (fun code plan => planner.planNode code = .ok plan) (codes.filterMap id) (plans.filterMap id) := by
  induction planned with
  | nil => exact .nil
  | @cons code plan _ _ first _ ih =>
    cases code <;> cases plan
    · exact ih
    · exact first.elim
    · exact first.elim
    · exact .cons first ih

theorem lowers_siblings {actions : List Action} {plans : List (Option NodePlan)}
    (each : List.Forall₂ (Lowers setting planner component) actions plans) :
    Lowers setting planner component (siblings actions) (Direct.siblings plans) := by
  intro used code after done
  obtain ⟨codes, between, areCodes, done⟩ := exists_of_run_bind done
  obtain ⟨grows, planned⟩ := lowers_all each areCodes
  split at done
  next none =>
    cases done
    refine ⟨grows, fun fits => ?_⟩
    have related := planned_filterMap (planned fits)
    rw [none] at related
    rw [Direct.siblings, List.forall₂_nil_left_iff.1 related]
    trivial
  next only one =>
    cases done
    refine ⟨grows, fun fits => ?_⟩
    have related := planned_filterMap (planned fits)
    rw [one] at related
    obtain ⟨plan, _, isPlan, noMore, same⟩ := List.forall₂_cons_left_iff.1 related
    rw [Direct.siblings, same, List.forall₂_nil_left_iff.1 noMore]
    exact isPlan
  next noNone noOne =>
    obtain ⟨_, later, isUse, done⟩ := exists_of_run_bind done
    cases isUse
    cases done
    refine ⟨grows.trans (grows_use setting .fragment between), fun fits => ?_⟩
    have related := planned_filterMap (planned (fits.mono (grows_use setting .fragment between)))
    have several : Direct.siblings plans = some (.fragment (plans.filterMap id)) := by
      rw [Direct.siblings]
      split
      next none => exact absurd (List.forall₂_nil_right_iff.1 (none ▸ related)) noNone
      next only one =>
        rw [one] at related
        obtain ⟨code, _, _, noMore, same⟩ := List.forall₂_cons_right_iff.1 related
        exact absurd (by rw [same, List.forall₂_nil_right_iff.1 noMore]) (noOne code)
      next => rfl
    rw [several]
    exact planNode_fragment fits (List.mem_cons_self ..) related

/-! Conditionals. -/

/-- A branch with a test and code that is planned in a certain way. -/
def PlannedBranch (planner : Planner) (code : Expression × Option Code) (plan : Expression × Option NodePlan) : Prop :=
  code.1 = plan.1 ∧ Planned planner code.2 plan.2

theorem Planned.isNone {code : Option Code} {plan : Option NodePlan} (planned : Planned planner code plan) : code.isNone = plan.isNone := by
  cases code <;> cases plan <;> first | rfl | exact planned.elim

theorem lowers_branches {actions : List (Expression × Action)} {plans : List (Expression × Option NodePlan)}
    (each : List.Forall₂ (fun action plan => action.1 = plan.1 ∧ Lowers setting planner component action.2 plan.2) actions plans)
    {used after : Used} {codes : List (Expression × Option Code)}
    (done : (actions.mapM fun branch => (do return (branch.1, ← branch.2) : Lower (Expression × Option Code))).run used = .ok (codes, after)) :
    Grows setting used after ∧ (Fits planner component after → List.Forall₂ (PlannedBranch planner) codes plans) := by
  induction each generalizing used codes with
  | nil =>
    cases done
    exact ⟨.refl _, fun _ => .nil⟩
  | cons first _ ih =>
    obtain ⟨sameTest, lowers⟩ := first
    rw [List.mapM_cons] at done
    obtain ⟨branch, between, isFirst, done⟩ := exists_of_run_bind done
    obtain ⟨code, _, isCode, isFirst⟩ := exists_of_run_bind isFirst
    cases isFirst
    obtain ⟨others, later, areOthers, done⟩ := exists_of_run_bind done
    cases done
    obtain ⟨grows, planned⟩ := lowers isCode
    obtain ⟨growsMore, plannedMore⟩ := ih areOthers
    exact ⟨grows.trans growsMore, fun fits => .cons ⟨sameTest, planned (fits.mono growsMore)⟩ (plannedMore fits)⟩

theorem planned_dropEmptyEnd {codes : List (Expression × Option Code)} {plans : List (Expression × Option NodePlan)}
    (planned : List.Forall₂ (PlannedBranch planner) codes plans) :
    List.Forall₂ (PlannedBranch planner) (dropEmptyEnd codes) (Direct.withoutEmptyEnd plans) := by
  have dropped {codes : List (Expression × Option Code)} {plans : List (Expression × Option NodePlan)}
      (planned : List.Forall₂ (PlannedBranch planner) codes plans) :
      List.Forall₂ (PlannedBranch planner) (codes.dropWhile fun branch => branch.2.isNone) (plans.dropWhile fun branch => branch.2.isNone) := by
    induction planned with
    | nil => exact .nil
    | @cons code plan _ _ first rest ih =>
      rw [List.dropWhile_cons, List.dropWhile_cons, first.2.isNone]
      split
      · exact ih
      · exact .cons first rest
  exact List.rel_reverse (dropped (List.rel_reverse planned))

theorem planBranchList_of_forall₂ {codes : List (Expression × Option Code)} {plans : List (Expression × Option NodePlan)}
    (planned : List.Forall₂ (PlannedBranch planner) codes plans) :
    planner.planBranchList (codes.map branchCode) = .ok (plans.map fun branch => (.host branch.1, branch.2)) := by
  induction planned with
  | nil => rfl
  | @cons code plan _ _ first _ ih =>
    obtain ⟨test, code⟩ := code
    obtain ⟨_, plan⟩ := plan
    obtain ⟨rfl, planned⟩ := first
    have branch : planner.planBranch (branchCode (test, code)) = .ok (.host test, plan) := by
      cases code <;> cases plan
      · rfl
      · exact planned.elim
      · exact planned.elim
      · next code plan =>
        have isPlan : planner.planNode code = .ok plan := planned
        simp only [branchCode, Code.thunk, Option.getD_some, planBranch, isNull_of_planNode isPlan, isPlan]
        rfl
    simp only [List.map_cons, planBranchList, branch, ih]
    rfl

theorem planConditional_planned {codes : List (Expression × Option Code)} {plans : List (Expression × Option NodePlan)}
    {last : Option Code} {otherwise : Option NodePlan} (planned : List.Forall₂ (PlannedBranch planner) codes plans)
    (plannedLast : Planned planner last otherwise) :
    planner.planConditional [.object (("ifs", .array (codes.map branchCode)) :: (last.map ("otherwise", ·)).toList)] =
      .ok (.conditional (plans.map fun branch => (.host branch.1, branch.2)) otherwise) := by
  have branches : planner.planBranches (.array (codes.map branchCode)) = .ok _ := planBranchList_of_forall₂ planned
  cases last with
  | none =>
    cases otherwise with
    | none => simp [planConditional, planConditionalParts, branches]
    | some plan => exact plannedLast.elim
  | some code =>
    cases otherwise with
    | none => exact plannedLast.elim
    | some plan =>
      have isPlan : planner.planNode code = .ok plan := plannedLast
      simp only [planConditional, planConditionalParts, branches, isPlan, Option.map_some, Option.toList_some]
      rfl

theorem lowers_conditional {actions : List (Expression × Action)} {plans : List (Expression × Option NodePlan)} {last : Action}
    {otherwise : Option NodePlan}
    (each : List.Forall₂ (fun action plan => action.1 = plan.1 ∧ Lowers setting planner component action.2 plan.2) actions plans)
    (lowersLast : Lowers setting planner component last otherwise) :
    Lowers setting planner component (conditional actions last) (Direct.conditional plans otherwise) := by
  intro used code after done
  obtain ⟨codes, between, areCodes, done⟩ := exists_of_run_bind done
  obtain ⟨lastCode, later, isLast, done⟩ := exists_of_run_bind done
  obtain ⟨grows, planned⟩ := lowers_branches each areCodes
  obtain ⟨growsLast, plannedLast⟩ := lowersLast isLast
  have kept (fits : Fits planner component later) : List.Forall₂ (PlannedBranch planner)
      (if lastCode.isNone then dropEmptyEnd codes else codes) (Direct.keptBranches plans otherwise) := by
    rw [Direct.keptBranches, (plannedLast fits).isNone]
    split
    · exact planned_dropEmptyEnd (planned (fits.mono growsLast))
    · exact planned (fits.mono growsLast)
  dsimp only at done
  generalize (if lastCode.isNone then dropEmptyEnd codes else codes) = keptCodes at done kept
  split at done
  next empty =>
    cases done
    refine ⟨grows.trans growsLast, fun fits => ?_⟩
    obtain ⟨noBranch, noLast⟩ := Bool.and_eq_true_iff.1 empty
    have related := kept fits
    rw [List.isEmpty_iff.1 noBranch] at related
    rw [(plannedLast fits).isNone] at noLast
    rw [Direct.conditional, List.forall₂_nil_left_iff.1 related, noLast]
    trivial
  next filled =>
    obtain ⟨_, _, isUse, done⟩ := exists_of_run_bind done
    cases isUse
    cases done
    refine ⟨(grows.trans growsLast).trans (grows_use setting .conditional later), fun fits => ?_⟩
    have fitsLater := fits.mono (grows_use setting .conditional later)
    have related := kept fitsLater
    have isLast := plannedLast fitsLater
    have shows : Direct.conditional plans otherwise =
        some (.conditional ((Direct.keptBranches plans otherwise).map fun branch => (.host branch.1, branch.2)) otherwise) := by
      rw [Direct.conditional, if_neg]
      rintro empty
      obtain ⟨noBranch, noLast⟩ := Bool.and_eq_true_iff.1 empty
      rw [List.isEmpty_iff.1 noBranch] at related
      exact filled (by rw [List.forall₂_nil_right_iff.1 related, isLast.isNone, noLast]; rfl)
    rw [shows]
    show planner.planNode (construct .conditional _) = _
    rw [planNode_conditional fits (List.mem_cons_self ..)]
    exact planConditional_planned related isLast

/-! Loops. -/

theorem planLoop_planned {items track : Expression} {name : String} {bodyCode emptyCode : Option Code} {body empty : Option NodePlan}
    {used : Used} (fits : Fits planner component used) (member : bodyCode = none → Constructor.fragment ∈ used.constructors)
    (planned : Planned planner bodyCode body) (plannedEmpty : Planned planner emptyCode empty) :
    planner.planLoop [.object ([("items", .thunk (.host items)), ("trackBy", .arrow [.name name] (.host track))] ++
        (emptyCode.map ("empty", ·)).toList), .arrow [.name name] (bodyCode.getD (construct .fragment []))] =
      .ok (.loop (.host items) name (.host track) name (body.getD (.fragment [])) empty) := by
  have isBody : planner.planNode (bodyCode.getD (construct .fragment [])) = .ok (body.getD (.fragment [])) := by
    cases bodyCode <;> cases body
    · exact planNode_fragment fits (member rfl) .nil
    · exact planned.elim
    · exact planned.elim
    · exact planned
  have parts : planner.planLoopParts {} ([("items", .thunk (.host items)), ("trackBy", .arrow [.name name] (.host track))] ++
      (emptyCode.map ("empty", ·)).toList) = .ok ⟨some (.host items), some (name, .host track), empty⟩ := by
    cases emptyCode with
    | none =>
      cases empty with
      | none => rfl
      | some plan => exact plannedEmpty.elim
    | some code =>
      cases empty with
      | none => exact plannedEmpty.elim
      | some plan =>
        have isPlan : planner.planNode code = .ok plan := plannedEmpty
        simp only [Option.map_some, Option.toList_some, List.cons_append, List.nil_append, planLoopParts, isPlan]
        rfl
  simp only [planLoop, parts, planItemNode, isBody]
  rfl

theorem lowers_loop {item items track : Expression} {bodyAction emptyAction : Action} {body empty : Option NodePlan}
    (lowers : Lowers setting planner component bodyAction body) (lowersEmpty : Lowers setting planner component emptyAction empty) :
    Lowers setting planner component (loop item items track bodyAction emptyAction) (Direct.loop item items track body empty) := by
  intro used code after done
  rw [loop] at done
  split at done
  next => cases done
  next name isName =>
    obtain ⟨bodyCode, between, isBody, done⟩ := exists_of_run_bind done
    obtain ⟨emptyCode, later, isEmpty, done⟩ := exists_of_run_bind done
    obtain ⟨grows, planned⟩ := lowers isBody
    obtain ⟨growsEmpty, plannedEmpty⟩ := lowersEmpty isEmpty
    split at done
    next nothing =>
      cases done
      refine ⟨grows.trans growsEmpty, fun fits => ?_⟩
      rw [(planned (fits.mono growsEmpty)).isNone, (plannedEmpty fits).isNone] at nothing
      rw [Direct.loop, if_pos nothing]
      trivial
    next something =>
      obtain ⟨_, _, isUse, done⟩ := exists_of_run_bind done
      cases isUse
      have used : Grows setting { later with constructors := .loop :: later.constructors } after ∧
          (bodyCode = none → Constructor.fragment ∈ after.constructors) ∧
          code = some (construct .loop [.object ([("items", .thunk (.host items)), ("trackBy", .arrow [.name name] (.host track))] ++
            (emptyCode.map ("empty", ·)).toList), .arrow [.name name] (bodyCode.getD (construct .fragment []))]) := by
        dsimp only at done
        split at done
        next =>
          obtain ⟨_, _, isUse, done⟩ := exists_of_run_bind done
          cases isUse
          cases done
          exact ⟨grows_use setting .fragment _, fun _ => List.mem_cons_self .., rfl⟩
        next some =>
          cases done
          exact ⟨.refl _, fun none => absurd (by rw [none]; rfl) some, rfl⟩
      obtain ⟨growsUse, fragment, rfl⟩ := used
      have growsLast := (grows_use setting .loop later).trans growsUse
      refine ⟨(grows.trans growsEmpty).trans growsLast, fun fits => ?_⟩
      have fitsLater := fits.mono growsLast
      have isBody := planned (fitsLater.mono growsEmpty)
      have isEmpty := plannedEmpty fitsLater
      rw [isBody.isNone, isEmpty.isNone] at something
      rw [Direct.loop, if_neg something, isName]
      show planner.planNode (construct .loop _) = _
      rw [planNode_loop fits (growsUse.constructors (List.mem_cons_self ..))]
      exact planLoop_planned fits fragment isBody isEmpty

/-! Texts and slots. -/

theorem lowers_text (value : String) :
    Lowers setting planner component (text value) (if value.isEmpty then none else some (.text (.string value))) := by
  intro used code after done
  rw [text] at done
  split at done
  next empty =>
    cases done
    rw [if_pos empty]
    exact ⟨.refl _, fun _ => trivial⟩
  next filled =>
    obtain ⟨_, _, isUse, done⟩ := exists_of_run_bind done
    cases isUse
    cases done
    rw [if_neg filled]
    exact ⟨grows_use setting .text used, fun fits => planNode_text fits (List.mem_cons_self ..) _⟩

theorem lowers_interpolation (value : Expression) :
    Lowers setting planner component (interpolation value) (some (.dynamicText (.host value))) := by
  intro used code after done
  obtain ⟨_, _, isUse, done⟩ := exists_of_run_bind done
  cases isUse
  cases done
  exact ⟨grows_use setting .text used, fun fits => planNode_text fits (List.mem_cons_self ..) _⟩

theorem lowers_slot (attributes : List Attribute) : Lowers setting planner component (slot attributes) (some (Direct.slot attributes)) := by
  intro used code after done
  obtain ⟨_, _, isUse, done⟩ := exists_of_run_bind done
  cases isUse
  cases done
  refine ⟨⟨fun _ => id, fun _ _ => id, fun _ _ => id, fun _ => rfl, fun noted => { noted with }⟩, fun fits => ?_⟩
  have slots : planner.slots = true := fits.slots rfl
  show planner.planNode _ = _
  simp only [planNode, planSlot, slots, planValue, planEntries_context]
  rfl

/-! Elements. -/

theorem planElementParts_append (parts : ElementParts) (first second : List (String × Code)) :
    planner.planElementParts parts (first ++ second) = (do planner.planElementParts (← planner.planElementParts parts first) second) := by
  induction first generalizing parts with
  | nil => rfl
  | cons entry rest ih =>
    obtain ⟨key, code⟩ := entry
    simp only [List.cons_append, planElementParts, ih]
    by_cases attrs : key = "attrs"
    · simp only [if_pos attrs, bind_assoc]
    by_cases props : key = "props"
    · simp only [if_neg attrs, if_pos props, bind_assoc]
    by_cases events : key = "events"
    · simp only [if_neg attrs, if_neg props, if_pos events, bind_assoc]
    by_cases child : key = "child"
    · simp only [if_neg attrs, if_neg props, if_neg events, if_pos child, bind_assoc]
    · simp only [if_neg attrs, if_neg props, if_neg events, if_neg child, bind_assoc]

theorem planElement_groups {attributes events : List (String × Code)} {properties : List (String × Code)} {child : Option Code}
    {fixed handlers : List (String × ValuePlan)} {bound : List (String × BindingPlan)} {plan : Option NodePlan}
    (isFixed : planEntries attributes = .ok fixed) (isBound : planBindingEntries properties = .ok bound)
    (isHandled : planEntries events = .ok handlers) (isChild : Planned planner child plan) (tag : String) :
    let parts := group "attrs" attributes ++ group "props" properties ++ group "events" events ++ (child.map ("child", ·)).toList
    planner.planElement tag (if parts.isEmpty then [] else [.object parts]) = .ok (.element tag fixed bound handlers plan) := by
  intro parts
  have first : planner.planElementParts {} (group "attrs" attributes) = .ok { attributes := fixed } := by
    cases attributes with
    | nil => cases isFixed; rfl
    | cons entry rest => simp only [group, List.isEmpty_cons, Bool.false_eq_true, if_false, planElementParts, planValues, isFixed]; rfl
  have second : planner.planElementParts { attributes := fixed } (group "props" properties) =
      .ok { attributes := fixed, properties := bound } := by
    cases properties with
    | nil => cases isBound; rfl
    | cons entry rest => simp only [group, List.isEmpty_cons, Bool.false_eq_true, if_false, planElementParts, planBindings, isBound]; rfl
  have third : planner.planElementParts { attributes := fixed, properties := bound } (group "events" events) =
      .ok { attributes := fixed, properties := bound, events := handlers } := by
    cases events with
    | nil => cases isHandled; rfl
    | cons entry rest => simp only [group, List.isEmpty_cons, Bool.false_eq_true, if_false, planElementParts, planValues, isHandled]; rfl
  have fourth : planner.planElementParts { attributes := fixed, properties := bound, events := handlers } (child.map ("child", ·)).toList =
      .ok ⟨fixed, bound, handlers, plan⟩ := by
    cases child <;> cases plan
    · rfl
    · exact isChild.elim
    · exact isChild.elim
    · next code plan =>
      have isPlan : planner.planNode code = .ok plan := isChild
      simp only [Option.map_some, Option.toList_some, planElementParts, isPlan]
      rfl
  have all : planner.planElementParts {} parts = .ok ⟨fixed, bound, handlers, plan⟩ := by
    simp only [parts, planElementParts_append, first, second, third, bind, Except.bind, fourth]
  cases same : parts with
  | nil =>
    rw [same] at all
    cases all
    rfl
  | cons entry rest =>
    rw [same] at all
    simp only [List.isEmpty_cons, Bool.false_eq_true, if_false, planElement, all]
    rfl

theorem run_elementVariable {tag name : String} {used after : Used} (hoists : setting.config.hoistElements = true)
    (member : Constructor.element ∈ used.constructors) (done : (elementVariable tag).run used = .ok (name, after)) :
    Grows setting used after ∧ Entries.get? after.elements tag = some name := by
  obtain ⟨_, _, isUsed, done⟩ := exists_of_run_bind done
  cases isUsed
  split at done
  next name found =>
    cases done
    exact ⟨.refl _, found⟩
  next fresh =>
    obtain ⟨_, _, isSet, done⟩ := exists_of_run_bind done
    cases isSet
    cases done
    refine ⟨⟨fun _ => id, fun _ _ => id, fun other name found => Entries.get?_put_of_fresh fresh found, id, fun noted => ?_⟩, ?_⟩
    · obtain ⟨behind, isFront, _⟩ := freshVariable_front (used.elements.map (·.2)) (Name.ofElement tag)
      have added := Entries.put_of_fresh fresh (freshVariable (used.elements.map (·.2)) (Name.ofElement tag))
      refine { noted with
        hoisted := fun off => absurd (hoists.symm.trans off) (by decide)
        element := fun _ => member
        constants := ?_
        marked := ?_ } <;> dsimp only
      · rw [added, List.map_append, List.map_singleton, List.nodup_append_comm]
        exact List.nodup_cons.2 ⟨freshVariable_notMem _ _, noted.constants⟩
      · rw [added, List.forall_mem_append]
        refine ⟨noted.marked, List.forall_mem_singleton.2 ⟨Text.sanitize tag ++ behind, ?_⟩⟩
        dsimp only
        rw [isFront, Name.ofElement, String.append_assoc]
    · rw [Entries.get?_put, if_pos rfl]

theorem lowers_elementCode {tag : String} {used after : Used} {callee : Code}
    (done : (elementCode setting tag).run used = .ok (callee, after)) (member : Constructor.element ∈ used.constructors) :
    Grows setting used after ∧ (Fits planner component after → ∀ arguments, planner.planNode (.call callee arguments) = planner.planElement tag arguments) := by
  rw [elementCode] at done
  split at done
  next hoists =>
    rw [StateT.run_map] at done
    cases isVariable : (elementVariable tag).run used with
    | error problem =>
      rw [isVariable] at done
      cases done
    | ok found =>
      rw [isVariable] at done
      cases done
      obtain ⟨grows, known⟩ := run_elementVariable hoists member isVariable
      refine ⟨grows, fun fits arguments => ?_⟩
      simp only [planNode, fits.elements tag found.1 known]
  next =>
    cases done
    refine ⟨.refl _, fun fits arguments => ?_⟩
    have isTag : planner.elementTag (construct .element [.string tag]) = .ok tag := by
      simp only [construct, Code.string, elementTag, fits.require member]
      rfl
    simp only [construct, planNode]
    show (do planner.planElement (← planner.elementTag (construct .element [.string tag])) arguments) = _
    rw [isTag]
    rfl

theorem lowers_element {attributes : List Attribute} {action : Action} {plan : Option NodePlan} (tag : String)
    (lowers : Lowers setting planner component action plan) :
    Lowers setting planner component (element setting tag attributes action) (some (Direct.element tag attributes plan)) := by
  intro used code after done
  obtain ⟨_, _, isUse, done⟩ := exists_of_run_bind done
  cases isUse
  obtain ⟨callee, between, isCallee, done⟩ := exists_of_run_bind done
  obtain ⟨child, later, isChild, done⟩ := exists_of_run_bind done
  cases done
  obtain ⟨growsCallee, planned⟩ := lowers_elementCode isCallee (List.mem_cons_self ..)
  obtain ⟨grows, plannedChild⟩ := lowers isChild
  refine ⟨((grows_use setting .element used).trans growsCallee).trans grows, fun fits => ?_⟩
  show planner.planNode (.call callee _) = _
  rw [planned (fits.mono grows)]
  exact planElement_groups (planEntries_fixed attributes) (planBindingEntries_bound attributes) (planEntries_handlers attributes)
    (plannedChild fits) tag

/-! Components. -/

/-- What is routed to a slot, and the content that it is lowered to. -/
structure Fills (setting : Setting) (planner : Planner) (component : String → Nat) (routed : Routed) (filling : Direct.Filling) : Prop where
  slot : routed.slot = filling.slot
  bindings : routed.bindings = filling.bindings
  contents : List.Forall₂ (Lowers setting planner component) routed.actions filling.contents

/-- Slots with the same names and the same content. -/
def FillsAll (setting : Setting) (planner : Planner) (component : String → Nat) : Entries Routed → Entries Direct.Filling → Prop :=
  List.Forall₂ fun routed filling => routed.1 = filling.1 ∧ Fills setting planner component routed.2 filling.2

theorem FillsAll.get? {slots : Entries Routed} {fillings : Entries Direct.Filling} (all : FillsAll setting planner component slots fillings)
    (name : String) : Option.Rel (Fills setting planner component) (Entries.get? slots name) (Entries.get? fillings name) := by
  induction all with
  | nil => exact .none
  | @cons routed filling _ _ first _ ih =>
    obtain ⟨head, routed⟩ := routed
    obtain ⟨_, filling⟩ := filling
    obtain ⟨rfl, fills⟩ := first
    rw [Entries.get?_cons, Entries.get?_cons]
    dsimp only
    split
    · exact .some fills
    · exact ih

theorem FillsAll.put {slots : Entries Routed} {fillings : Entries Direct.Filling} (all : FillsAll setting planner component slots fillings)
    (name : String) {routed : Routed} {filling : Direct.Filling} (fills : Fills setting planner component routed filling) :
    FillsAll setting planner component (Entries.put slots name routed) (Entries.put fillings name filling) := by
  induction all with
  | nil => exact .cons ⟨rfl, fills⟩ .nil
  | @cons other old _ _ first rest ih =>
    obtain ⟨head, other⟩ := other
    obtain ⟨_, old⟩ := old
    obtain ⟨rfl, filled⟩ := first
    rw [Entries.put, Entries.put]
    dsimp only
    split
    · exact .cons ⟨rfl, fills⟩ rest
    · exact .cons ⟨rfl, filled⟩ ih

theorem FillsAll.add {slots : Entries Routed} {fillings : Entries Direct.Filling} (all : FillsAll setting planner component slots fillings)
    {routed : Routed} {filling : Direct.Filling} (fills : Fills setting planner component routed filling) :
    FillsAll setting planner component (addRouted slots routed) (Direct.addFilling fillings filling) := by
  have found := all.get? routed.slot
  rw [addRouted, Direct.addFilling, ← fills.slot]
  generalize Entries.get? slots routed.slot = old at found
  generalize Entries.get? fillings routed.slot = oldFilling at found
  cases found with
  | none => exact all.put routed.slot fills
  | some filled =>
    exact all.put routed.slot
      ⟨rfl, by rw [filled.bindings, fills.bindings], List.rel_append filled.contents fills.contents⟩

/-- A route that leads to a slot. -/
def Leads (setting : Setting) (planner : Planner) (component : String → Nat) (route : Except LoweringError Routed) (filling : Direct.Filling) : Prop :=
  ∀ routed, route = .ok routed → Fills setting planner component routed filling

def gather (slots : Entries Routed) : List (Except LoweringError Routed) → Except LoweringError (Entries Routed)
  | [] => .ok slots
  | .ok routed :: rest => gather (addRouted slots routed) rest
  | .error problem :: _ => .error problem

theorem fillsAll_gather {routes : List (Except LoweringError Routed)} {fillings : List Direct.Filling} {start slots : Entries Routed}
    {filled : Entries Direct.Filling} (each : List.Forall₂ (Leads setting planner component) routes fillings)
    (all : FillsAll setting planner component start filled) (gathered : gather start routes = .ok slots) :
    FillsAll setting planner component slots (fillings.foldl Direct.addFilling filled) := by
  induction each generalizing start filled with
  | nil =>
    cases gathered
    exact all
  | @cons route filling _ _ first _ ih =>
    cases route with
    | error problem => cases gathered
    | ok routed => exact ih (all.add (first routed rfl)) gathered

theorem run_gather (slots : Entries Routed) (routes : List (Except LoweringError Routed)) (used : Used) :
    (forIn routes slots fun route slots =>
        match route with
        | .ok routed => pure (ForInStep.yield (addRouted slots routed))
        | .error problem => do
          throw problem
          pure (ForInStep.yield slots) : Lower (Entries Routed)).run used = (gather slots routes).map (·, used) := by
  induction routes generalizing slots with
  | nil => rfl
  | cons route rest ih =>
    rw [List.forIn_cons]
    cases route with
    | error problem => rfl
    | ok routed => exact ih (addRouted slots routed)

/-- The function for a slot that is planned as certain content, or no function for no content. -/
def PlannedSlot (planner : Planner) : Option (String × Code) → Option (String × List (String × String) × NodePlan) → Prop
  | none, none => True
  | some (name, code), some (slot, content) => name = slot ∧ planner.planSlotContent code = .ok content
  | _, _ => False

theorem lowers_slotFunction {routed : Routed} {filling : Direct.Filling} (fills : Fills setting planner component routed filling) (name : String)
    {used after : Used} {function : Option (String × Code)} (done : (slotFunction routed).run used = .ok (function, after)) :
    Grows setting used after ∧ (Fits planner component after → PlannedSlot planner function (Direct.content? (name, filling))) := by
  obtain ⟨code, between, isCode, done⟩ := exists_of_run_bind done
  obtain ⟨grows, planned⟩ := lowers_siblings fills.contents isCode
  rw [Direct.content?]
  dsimp only
  generalize Direct.siblings filling.contents = body at planned
  cases code with
  | none =>
    cases done
    refine ⟨grows, fun fits => ?_⟩
    cases body with
    | none => trivial
    | some plan => exact (planned fits).elim
  | some code =>
    cases done
    refine ⟨grows, fun fits => ?_⟩
    cases body with
    | none => exact (planned fits).elim
    | some plan =>
      have isPlan : planner.planNode code = .ok plan := planned fits
      refine ⟨fills.slot, ?_⟩
      rw [fills.bindings]
      cases filling.bindings with
      | nil => simp only [List.isEmpty_nil, if_true, planSlotContent, isPlan]; rfl
      | cons binding rest => simp only [List.isEmpty_cons, Bool.false_eq_true, if_false, planSlotContent, isPlan]; rfl

theorem lowers_slotFunctions {slots : Entries Routed} {fillings : Entries Direct.Filling} (all : FillsAll setting planner component slots fillings)
    {used after : Used} {functions : List (Option (String × Code))}
    (done : (slots.mapM fun entry => slotFunction entry.2).run used = .ok (functions, after)) :
    Grows setting used after ∧ (Fits planner component after → List.Forall₂ (PlannedSlot planner) functions (fillings.map Direct.content?)) := by
  induction all generalizing used functions with
  | nil =>
    cases done
    exact ⟨.refl _, fun _ => .nil⟩
  | cons first _ ih =>
    rw [List.mapM_cons] at done
    obtain ⟨function, between, isFirst, done⟩ := exists_of_run_bind done
    obtain ⟨others, later, areOthers, done⟩ := exists_of_run_bind done
    cases done
    obtain ⟨grows, planned⟩ := lowers_slotFunction first.2 _ isFirst
    obtain ⟨growsMore, plannedMore⟩ := ih areOthers
    exact ⟨grows.trans growsMore, fun fits => .cons (planned (fits.mono growsMore)) (plannedMore fits)⟩

theorem planSlotEntries_of_forall₂ {functions : List (Option (String × Code))}
    {contents : List (Option (String × List (String × String) × NodePlan))}
    (planned : List.Forall₂ (PlannedSlot planner) functions contents) :
    planner.planSlotEntries (functions.filterMap id) = .ok (contents.filterMap id) := by
  induction planned with
  | nil => rfl
  | @cons function content _ _ first _ ih =>
    cases function <;> cases content
    · exact ih
    · exact first.elim
    · exact first.elim
    · next function content =>
      obtain ⟨name, code⟩ := function
      obtain ⟨_, content⟩ := content
      obtain ⟨rfl, isContent⟩ := first
      show planner.planSlotEntries ((name, code) :: List.filterMap id _) = .ok ((name, content) :: List.filterMap id _)
      rw [planSlotEntries, isContent, ih]
      rfl

theorem planComponentParts_append (parts : ComponentParts) (first second : List (String × Code)) :
    planner.planComponentParts parts (first ++ second) = (do planner.planComponentParts (← planner.planComponentParts parts first) second) := by
  induction first generalizing parts with
  | nil => rfl
  | cons entry rest ih =>
    obtain ⟨key, code⟩ := entry
    simp only [List.cons_append, planComponentParts, ih]
    by_cases props : key = "props"
    · simp only [if_pos props, bind_assoc]
    by_cases events : key = "events"
    · simp only [if_neg props, if_pos events, bind_assoc]
    by_cases slots : key = "slots"
    · simp only [if_neg props, if_neg events, if_pos slots, bind_assoc]
    · simp only [if_neg props, if_neg events, if_neg slots, bind_assoc]

theorem planComponent_groups {properties events functions : List (String × Code)} {bound : List (String × BindingPlan)}
    {handlers : List (String × ValuePlan)} {contents : List (String × List (String × String) × NodePlan)}
    (isBound : planBindingEntries properties = .ok bound) (isHandled : planEntries events = .ok handlers)
    (isFilled : planner.planSlotEntries functions = .ok contents) (id : Nat) (title : String) :
    planner.planComponent id title [.object (group "props" properties ++ group "events" events ++ group "slots" functions)] =
      .ok (.component id bound handlers contents) := by
  have first : planner.planComponentParts {} (group "props" properties) = .ok { properties := bound } := by
    cases properties with
    | nil => cases isBound; rfl
    | cons entry rest => simp only [group, List.isEmpty_cons, Bool.false_eq_true, if_false, planComponentParts, planBindings, isBound]; rfl
  have second : planner.planComponentParts { properties := bound } (group "events" events) =
      .ok { properties := bound, events := handlers } := by
    cases events with
    | nil => cases isHandled; rfl
    | cons entry rest => simp only [group, List.isEmpty_cons, Bool.false_eq_true, if_false, planComponentParts, planValues, isHandled]; rfl
  have third : planner.planComponentParts { properties := bound, events := handlers } (group "slots" functions) =
      .ok ⟨bound, handlers, contents⟩ := by
    cases functions with
    | nil => cases isFilled; rfl
    | cons entry rest => simp only [group, List.isEmpty_cons, Bool.false_eq_true, if_false, planComponentParts, planSlotContents, isFilled]; rfl
  have all : planner.planComponentParts {} (group "props" properties ++ group "events" events ++ group "slots" functions) =
      .ok ⟨bound, handlers, contents⟩ := by
    simp only [planComponentParts_append, first, second, bind, Except.bind, third]
  simp only [planComponent, all]
  rfl

theorem run_componentVariable {tag name : String} {used after : Used} (named : Markup.TagName tag)
    (known : Entries.contains setting.siblings tag = true) (done : (componentVariable tag).run used = .ok (name, after)) :
    Grows setting used after ∧ Entries.get? after.components tag = some name := by
  obtain ⟨_, _, isUsed, done⟩ := exists_of_run_bind done
  cases isUsed
  split at done
  next name found =>
    cases done
    exact ⟨.refl _, found⟩
  next fresh =>
    obtain ⟨_, _, isSet, done⟩ := exists_of_run_bind done
    cases isSet
    cases done
    refine ⟨⟨fun _ => id, fun other name found => Entries.get?_put_of_fresh fresh found, fun _ _ => id, id, fun noted => ?_⟩, ?_⟩
    · refine { noted with children := ?_ }
      rw [Entries.put_of_fresh fresh, List.forall_mem_append]
      exact ⟨noted.children, List.forall_mem_singleton.2 ⟨named, known, rfl⟩⟩
    · rw [Entries.get?_put, if_pos rfl]

theorem lowers_component {attributes : List Attribute} {routes : List (Except LoweringError Routed)} {fillings : List Direct.Filling}
    {tag : String} (named : Markup.TagName tag) (known : Entries.contains setting.siblings tag = true)
    (each : List.Forall₂ (Leads setting planner component) routes fillings) :
    Lowers setting planner component (Lowering.component tag attributes routes) (some (Direct.component (component tag) attributes fillings)) := by
  intro used code after done
  obtain ⟨_, _, isUse, done⟩ := exists_of_run_bind done
  cases isUse
  obtain ⟨callee, between, isCallee, done⟩ := exists_of_run_bind done
  obtain ⟨slots, _, isGathered, done⟩ := exists_of_run_bind done
  obtain ⟨functions, later, areFunctions, done⟩ := exists_of_run_bind done
  cases done
  have gathered := (run_gather [] routes between).symm.trans isGathered
  cases isSlots : gather [] routes with
  | error problem =>
    rw [isSlots] at gathered
    cases gathered
  | ok slots =>
    rw [isSlots] at gathered
    cases gathered
    obtain ⟨growsCallee, isVariable⟩ := run_componentVariable named known isCallee
    obtain ⟨grows, planned⟩ := lowers_slotFunctions (fillsAll_gather each .nil isSlots) areFunctions
    refine ⟨((grows_use setting .component used).trans growsCallee).trans grows, fun fits => ?_⟩
    obtain ⟨noElement, title, found⟩ := fits.components tag callee (grows.components tag callee isVariable)
    show planner.planNode (.call (.identifier callee) _) = _
    simp only [planNode, noElement, found]
    have filled := planSlotEntries_of_forall₂ (planned fits)
    rw [List.filterMap_map] at filled
    exact planComponent_groups (planBindingEntries_append (planBindingEntries_fixed attributes) (planBindingEntries_bound attributes))
      (planEntries_handlers attributes) filled (component tag) title

/-! Wrappers and whole markup. -/

theorem wrapperSlot_eq {tag slot : String} {attributes : List Attribute} (found : wrapperSlot tag attributes = .ok slot) :
    slot = Direct.wrapperSlot attributes := by
  rw [wrapperSlot] at found
  rw [Direct.wrapperSlot]
  split at found
  next none =>
    cases found
    rw [none]
    rfl
  next attr isAttr =>
    rw [isAttr]
    obtain ⟨name, kind, value⟩ := attr
    cases kind <;> cases value <;> cases found
    rfl

theorem binding?_eq {tag : String} {attr : Attribute} {binding : Option (String × String)} (found : binding? tag attr = .ok binding) :
    binding = Direct.binding? attr := by
  rw [binding?] at found
  rw [Direct.binding?]
  split at found
  next none =>
    cases found
    rw [none]
    rfl
  next name isName =>
    rw [isName]
    split at found
    · cases found
    obtain ⟨_, kind, value⟩ := attr
    cases kind <;> cases value <;> dsimp only at found ⊢ <;> try first | (cases found; done) | (cases found; rfl)
    next key =>
      by_cases empty : key.isEmpty
      · rw [if_pos empty] at found
        cases found
        simp only [Option.map_some, if_pos empty]
      · rw [if_neg empty] at found
        split at found
        · cases found
          simp only [Option.map_some, if_neg empty]
        · cases found

theorem mapM_binding? {tag : String} {attributes : List Attribute} {bindings : List (Option (String × String))}
    (found : attributes.mapM (binding? tag) = .ok bindings) : bindings.filterMap id = attributes.filterMap Direct.binding? := by
  induction attributes generalizing bindings with
  | nil =>
    cases found
    rfl
  | cons attr rest ih =>
    rw [List.mapM_cons] at found
    cases isFirst : binding? tag attr with
    | error problem =>
      rw [isFirst] at found
      cases found
    | ok binding =>
      cases areOthers : rest.mapM (binding? tag) with
      | error problem =>
        rw [isFirst, areOthers] at found
        cases found
      | ok others =>
        rw [isFirst, areOthers] at found
        cases found
        rw [List.filterMap_cons, List.filterMap_cons, ih areOthers, ← binding?_eq isFirst]
        rfl

/-- A wrapper leads what it holds to the slot that it names. -/
theorem leads_wrapper {tag : String} {attributes : List Attribute} {actions : List Action} {plans : List (Option NodePlan)}
    (each : List.Forall₂ (Lowers setting planner component) actions plans) :
    Leads setting planner component (wrapper tag attributes actions)
      ⟨Direct.wrapperSlot attributes, plans, attributes.filterMap Direct.binding?⟩ := by
  intro routed done
  rw [wrapper] at done
  cases isSlot : wrapperSlot tag attributes with
  | error problem =>
    rw [isSlot] at done
    cases done
  | ok slot =>
    cases areBindings : attributes.mapM (binding? tag) with
    | error problem =>
      rw [isSlot, areBindings] at done
      cases done
    | ok bindings =>
      rw [isSlot, areBindings] at done
      cases done
      exact ⟨wrapperSlot_eq isSlot, mapM_binding? areBindings, each⟩

/-- What is not in a wrapper is led to the default slot. -/
theorem leads_default {action : Action} {plan : Option NodePlan} (lowers : Lowers setting planner component action plan) :
    Leads setting planner component (.ok ⟨"default", [action], []⟩) ⟨"default", [plan], []⟩ := by
  intro routed done
  cases done
  exact ⟨rfl, rfl, .cons lowers .nil⟩

/-- Where the markup of a component stands, if its siblings have certain numbers. -/
def Setting.site (setting : Setting) (component : String → Nat) : Direct.Site where
  slotTag := setting.config.slotTag
  templateTag := setting.config.templateTag
  component? tag := if Entries.contains setting.siblings tag then some (component tag) else none

theorem lowers_branchList {markup : List (Branch Markup)} {site : Direct.Site}
    (each : ∀ branch ∈ markup, List.Forall₂ (Lowers setting planner component) (nodes setting branch.body) (Direct.nodes site branch.body)) :
    List.Forall₂ (fun action plan => action.1 = plan.1 ∧ Lowers setting planner component action.2 plan.2) (branches setting markup)
      (Direct.branches site markup) := by
  induction markup with
  | nil =>
    rw [branches, Direct.branches]
    exact .nil
  | cons branch rest ih =>
    obtain ⟨first, others⟩ := List.forall_mem_cons.1 each
    rw [branches, Direct.branches]
    exact .cons ⟨rfl, lowers_siblings first⟩ (ih others)

/-- Each node is lowered to code for what it is rendered as, and each child of a component is led
to the slot that it fills. -/
theorem lowers_laid {host : Expression → Prop} {tight : Prop} {markup : List Markup} (laid : Markup.Laid host tight markup) :
    List.Forall₂ (Lowers setting planner component) (nodes setting markup) (Direct.nodes (setting.site component) markup) ∧
      List.Forall₂ (Leads setting planner component) (routes setting markup) (Direct.fillings (setting.site component) markup) := by
  induction laid with
  | nil =>
    rw [nodes, Direct.nodes, routes, Direct.fillings]
    exact ⟨.nil, .nil⟩
  | @element name attributes children rest named _ _ _ _ inside behind =>
    have lowers : Lowers setting planner component (node setting (.element name attributes children))
        (Direct.node (setting.site component) (.element name attributes children)) := by
      rw [node, Direct.node]
      split
      next =>
        intro used code after done
        cases done
      split
      next isSlot =>
        rw [if_pos (show name = (setting.site component).slotTag from isSlot)]
        exact lowers_slot attributes
      next noSlot =>
        rw [if_neg (show ¬ name = (setting.site component).slotTag from noSlot), Setting.site]
        dsimp only
        split
        next known => exact lowers_component named known inside.2
        next => exact lowers_element name (lowers_siblings inside.1)
    rw [nodes, Direct.nodes, routes, Direct.fillings]
    refine ⟨.cons lowers behind.1, .cons ?_ behind.2⟩
    rw [show (setting.site component).templateTag = setting.config.templateTag from rfl]
    split
    next => exact leads_wrapper inside.1
    next => exact leads_default lowers
  | @text value _ _ _ _ _ behind =>
    have lowers : Lowers setting planner component (node setting (.text value)) (Direct.node (setting.site component) (.text value)) := by
      rw [node, Direct.node]
      exact lowers_text value
    rw [nodes, Direct.nodes, routes, Direct.fillings]
    · exact ⟨.cons lowers behind.1, .cons (leads_default lowers) behind.2⟩
    all_goals exact fun _ _ _ => nofun
  | @expression value _ _ _ behind =>
    have lowers : Lowers setting planner component (node setting (.expression value))
        (Direct.node (setting.site component) (.expression value)) := by
      rw [node, Direct.node]
      exact lowers_interpolation value
    rw [nodes, Direct.nodes, routes, Direct.fillings]
    · exact ⟨.cons lowers behind.1, .cons (leads_default lowers) behind.2⟩
    all_goals exact fun _ _ _ => nofun
  | @conditional test body otherwise _ others _ _ _ _ _ _ _ inside insideOthers insideOtherwise behind =>
    have lowers : Lowers setting planner component (node setting (.conditional test body others otherwise))
        (Direct.node (setting.site component) (.conditional test body others otherwise)) := by
      rw [node, Direct.node]
      exact lowers_conditional
        (.cons ⟨rfl, lowers_siblings inside.1⟩ (lowers_branchList fun branch member => (insideOthers branch member).1))
        (lowers_siblings insideOtherwise.1)
    rw [nodes, Direct.nodes, routes, Direct.fillings]
    · exact ⟨.cons lowers behind.1, .cons (leads_default lowers) behind.2⟩
    all_goals exact fun _ _ _ => nofun
  | @loop item items track body empty _ _ _ _ _ _ _ _ inside insideEmpty behind =>
    have lowers : Lowers setting planner component (node setting (.loop item items track body empty))
        (Direct.node (setting.site component) (.loop item items track body empty)) := by
      rw [node, Direct.node]
      exact lowers_loop (lowers_siblings inside.1) (lowers_siblings insideEmpty.1)
    rw [nodes, Direct.nodes, routes, Direct.fillings]
    · exact ⟨.cons lowers behind.1, .cons (leads_default lowers) behind.2⟩
    all_goals exact fun _ _ _ => nofun

/-- Markup is lowered to code for what it is rendered as. -/
theorem lowers_root (planner : Planner) (component : String → Nat) {host : Expression → Prop} {tight : Prop} {markup : List Markup}
    (laid : Markup.Laid host tight markup) :
    Lowers setting planner component (siblings (nodes setting markup)) (Direct.root (setting.site component) markup) :=
  lowers_siblings (lowers_laid laid).1

end ReactiveMarkup.Lowering
