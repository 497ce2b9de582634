import ReactiveMarkup.Compilation
import ReactiveMarkup.Proofs.SlotRouting

/-! Markup has no module just if there is a flaw in its structure: a wrapper that is no direct child of a component, a
loop whose item is no name, or a wrapper whose slot or one of whose names cannot be read. The error is one of the flaws. -/

namespace ReactiveMarkup

namespace Lowering

/-! Flaws. -/

/-- A node where it stands: as a direct child of a component or not. -/
structure Place where
  direct : Bool
  node : Markup

mutual
/-- The nodes that stand in markup. What stands in an outlet for a slot is left out. -/
def placed (setting : Setting) (direct : Bool) : Markup → List Place
  | .element name attributes children => ⟨direct, .element name attributes children⟩ ::
      if name = setting.config.slotTag then [] else placedIn setting (childTag? setting (.element name attributes children)).isSome children
  | .text value => [⟨direct, .text value⟩]
  | .expression value => [⟨direct, .expression value⟩]
  | .conditional test body others otherwise => ⟨direct, .conditional test body others otherwise⟩ ::
      (placedIn setting false body ++ (placedInBranches setting others ++ placedIn setting false otherwise))
  | .loop item items track body empty => ⟨direct, .loop item items track body empty⟩ ::
      (placedIn setting false body ++ placedIn setting false empty)

def placedIn (setting : Setting) (direct : Bool) : List Markup → List Place
  | [] => []
  | first :: rest => placed setting direct first ++ placedIn setting direct rest

def placedInBranches (setting : Setting) : List (Branch Markup) → List Place
  | [] => []
  | ⟨_, body⟩ :: rest => placedIn setting false body ++ placedInBranches setting rest
end

/-- An attribute that gives a literal text. -/
def IsLiteral (attr : Attribute) (text : String) : Prop := attr.kind = .literal ∧ attr.value = .text text

/-- An attribute that names an entry of a slot's context. -/
def NamesEntry (attr : Attribute) : Prop :=
  attr.kind = .flag ∨ ∃ key, IsLiteral attr key ∧ (key = "" ∨ Text.isIdentifier key = true)

/-- What is wrong with a node where it stands. -/
inductive Flaw (setting : Setting) : Place → LoweringError → Prop where
  | misplaced {attributes : List Attribute} {children : List Markup} :
      Flaw setting ⟨false, .element setting.config.templateTag attributes children⟩ (.templateOutsideComponent setting.config.templateTag)
  | item {direct : Bool} {item items track : Expression} {body empty : List Markup} (noName : item.name? = none) :
      Flaw setting ⟨direct, .loop item items track body empty⟩ (.loopItem item)
  | slot {attributes : List Attribute} {children : List Markup} {attr : Attribute} (first : attribute? attributes "slot" = some attr)
      (noText : ∀ text, ¬ IsLiteral attr text) :
      Flaw setting ⟨true, .element setting.config.templateTag attributes children⟩ (.slotName setting.config.templateTag)
  | letName {attributes : List Attribute} {children : List Markup} {attr : Attribute} {name : String} (member : attr ∈ attributes)
      (isLet : Name.ofLet? attr.name = some name) (noName : Text.isIdentifier name = false) :
      Flaw setting ⟨true, .element setting.config.templateTag attributes children⟩ (.letName attr.name setting.config.templateTag)
  | letProperty {attributes : List Attribute} {children : List Markup} {attr : Attribute} {name : String} (member : attr ∈ attributes)
      (isLet : Name.ofLet? attr.name = some name) (noEntry : ¬ NamesEntry attr) :
      Flaw setting ⟨true, .element setting.config.templateTag attributes children⟩ (.letProperty attr.name setting.config.templateTag)

/-- There is a flaw at one of some places. -/
def FlawIn (setting : Setting) (places : List Place) (problem : LoweringError) : Prop := ∃ place ∈ places, Flaw setting place problem

variable {setting : Setting} {problem : LoweringError}

@[simp]
theorem flawIn_nil : FlawIn setting [] problem ↔ False := by simp [FlawIn]

@[simp]
theorem flawIn_cons {place : Place} {places : List Place} :
    FlawIn setting (place :: places) problem ↔ Flaw setting place problem ∨ FlawIn setting places problem := by
  simp [FlawIn]

@[simp]
theorem flawIn_append {first second : List Place} :
    FlawIn setting (first ++ second) problem ↔ FlawIn setting first problem ∨ FlawIn setting second problem := by
  simp [FlawIn, or_and_right, exists_or]

theorem flawIn_placedIn {direct : Bool} {several : List Markup} :
    FlawIn setting (placedIn setting direct several) problem ↔ ∃ node ∈ several, FlawIn setting (placed setting direct node) problem := by
  induction several with
  | nil => simp [placedIn]
  | cons first rest ih => simp [placedIn, ih]

theorem flawIn_placedInBranches {others : List (Branch Markup)} :
    FlawIn setting (placedInBranches setting others) problem ↔
      ∃ branch ∈ others, FlawIn setting (placedIn setting false branch.body) problem := by
  induction others with
  | nil => simp [placedInBranches]
  | cons first rest ih => simp [placedInBranches, ih]

/-! Outcomes. -/

/-- An outcome that is an error just if something is wrong, and then an error that is wrong. -/
def Fails {α : Type} (wrong : LoweringError → Prop) : Except LoweringError α → Prop
  | .ok _ => ∀ problem, ¬ wrong problem
  | .error problem => wrong problem

section

variable {α β : Type} {wrong more : LoweringError → Prop}

theorem Fails.of_ok (value : α) : Fails (fun _ => False) (.ok value) := fun _ => id

theorem Fails.congr {outcome : Except LoweringError α} (fails : Fails wrong outcome) (same : ∀ problem, wrong problem ↔ more problem) :
    Fails more outcome := by
  cases outcome with
  | ok value => exact fun problem isWrong => fails problem ((same problem).2 isWrong)
  | error problem => exact (same problem).1 fails

theorem Fails.bind {outcome : Except LoweringError α} {next : α → Except LoweringError β} (fails : Fails wrong outcome)
    (continues : ∀ value, outcome = .ok value → Fails more (next value)) :
    Fails (fun problem => wrong problem ∨ more problem) (outcome >>= next) := by
  cases outcome with
  | error problem => exact .inl fails
  | ok value => exact (continues value rfl).congr fun problem => (or_iff_right (fails problem)).symm

/-- What comes after a step that may be in error is right by itself. -/
theorem Fails.before {outcome : Except LoweringError α} {next : α → Except LoweringError β} (fails : Fails wrong outcome)
    (right : ∀ value, Fails (fun _ => False) (next value)) : Fails wrong (outcome >>= next) :=
  (fails.bind fun value _ => right value).congr fun _ => iff_of_eq (or_false _)

theorem Fails.mapM {wrong : α → LoweringError → Prop} {next : α → Except LoweringError β} {list : List α}
    (each : ∀ element ∈ list, Fails (wrong element) (next element)) :
    Fails (fun problem => ∃ element ∈ list, wrong element problem) (list.mapM next) := by
  induction list with
  | nil => exact fun _ => nofun
  | cons first rest ih =>
    obtain ⟨isFirst, areOthers⟩ := List.forall_mem_cons.1 each
    rw [List.mapM_cons]
    exact (isFirst.bind fun _ _ => (ih areOthers).before fun _ => Fails.of_ok _).congr fun _ => by simp

/-- A step that ends in an error just if something is wrong, and then in an error that is wrong. -/
def Rejects (wrong : LoweringError → Prop) (step : Lower α) : Prop := ∀ used, Fails wrong (step.run used)

/-- A step that is never in error. -/
abbrev Safe (step : Lower α) : Prop := Rejects (fun _ => False) step

theorem safe_pure (value : α) : Safe (pure value : Lower α) := fun _ _ => id

theorem safe_use (constructor : Constructor) : Safe (use constructor) := fun _ _ => id

theorem Rejects.congr {step : Lower α} (rejects : Rejects wrong step) (same : ∀ problem, wrong problem ↔ more problem) :
    Rejects more step :=
  fun used => (rejects used).congr same

theorem Rejects.bind {step : Lower α} {next : α → Lower β} (rejects : Rejects wrong step)
    (continues : ∀ value, Rejects more (next value)) : Rejects (fun problem => wrong problem ∨ more problem) (step >>= next) := by
  intro used
  rw [StateT.run_bind]
  exact (rejects used).bind fun done _ => continues done.1 done.2

theorem Rejects.before {step : Lower α} {next : α → Lower β} (rejects : Rejects wrong step) (safe : ∀ value, Safe (next value)) :
    Rejects wrong (step >>= next) :=
  (rejects.bind safe).congr fun _ => iff_of_eq (or_false _)

theorem Rejects.after {step : Lower α} {next : α → Lower β} (safe : Safe step) (rejects : ∀ value, Rejects wrong (next value)) :
    Rejects wrong (step >>= next) :=
  (Rejects.bind safe rejects).congr fun _ => iff_of_eq (false_or _)

theorem Rejects.mapM {wrong : α → LoweringError → Prop} {next : α → Lower β} {list : List α}
    (each : ∀ element ∈ list, Rejects (wrong element) (next element)) :
    Rejects (fun problem => ∃ element ∈ list, wrong element problem) (list.mapM next) := by
  induction list with
  | nil => exact fun _ _ => nofun
  | cons first rest ih =>
    obtain ⟨isFirst, areOthers⟩ := List.forall_mem_cons.1 each
    rw [List.mapM_cons]
    exact (isFirst.bind fun _ => (ih areOthers).before fun _ => safe_pure _).congr fun _ => by simp

end

/-! Forms of markup. -/

theorem nodes_eq_map (several : List Markup) : nodes setting several = several.map (node setting) := by
  induction several with
  | nil => rfl
  | cons first rest ih => rw [nodes, ih, List.map_cons]

theorem branches_eq_map (others : List (Branch Markup)) :
    branches setting others = others.map fun branch => (branch.test, siblings (nodes setting branch.body)) := by
  induction others with
  | nil => rfl
  | cons first rest ih => rw [branches, ih, List.map_cons]

/-- A node that is in error just for the flaws in it. -/
def Guarded (setting : Setting) (self : Markup) : Prop := Rejects (FlawIn setting (placed setting false self)) (node setting self)

theorem rejects_siblings {several : List Markup} (each : ∀ node ∈ several, Guarded setting node) :
    Rejects (FlawIn setting (placedIn setting false several)) (siblings (nodes setting several)) := by
  rw [nodes_eq_map, siblings, List.mapM_map]
  refine ((Rejects.mapM each).congr fun _ => flawIn_placedIn.symm).before fun lowered => ?_
  split
  next => exact safe_pure _
  next => exact safe_pure _
  next => exact .after (safe_use _) fun _ => safe_pure _

theorem rejects_branch (test : Expression) {body : List Markup} (each : ∀ node ∈ body, Guarded setting node) :
    Rejects (FlawIn setting (placedIn setting false body))
      (do return (test, ← siblings (nodes setting body)) : Lower (Expression × Option Code)) :=
  (rejects_siblings each).before fun _ => safe_pure _

theorem guarded_conditional {test : Expression} {body otherwise : List Markup} {others : List (Branch Markup)}
    (each : ∀ node ∈ body, Guarded setting node) (eachOther : ∀ branch ∈ others, ∀ node ∈ branch.body, Guarded setting node)
    (eachLast : ∀ node ∈ otherwise, Guarded setting node) : Guarded setting (.conditional test body others otherwise) := by
  have rest := Rejects.mapM fun other member => rejects_branch other.test (eachOther other member)
  rw [Guarded, node, conditional, branches_eq_map, List.mapM_cons, List.mapM_map]
  refine (((rejects_branch test each).bind fun _ => rest.before fun _ => safe_pure _).bind fun _ =>
    (rejects_siblings eachLast).before fun _ => ?_).congr fun problem => ?_
  · split
    all_goals
      dsimp only
      split
      next => exact safe_pure _
      next => exact .after (safe_use _) fun _ => safe_pure _
  · have noFlaw : ¬ Flaw setting ⟨false, .conditional test body others otherwise⟩ problem := nofun
    simp [placed, flawIn_placedInBranches, noFlaw, or_assoc]

theorem guarded_loop {item items track : Expression} {body empty : List Markup} (each : ∀ node ∈ body, Guarded setting node)
    (eachEmpty : ∀ node ∈ empty, Guarded setting node) : Guarded setting (.loop item items track body empty) := by
  rw [Guarded, node, loop]
  split
  next noName => exact fun _ => ⟨_, List.mem_cons_self .., .item noName⟩
  next name isName =>
    refine ((rejects_siblings each).bind fun _ => (rejects_siblings eachEmpty).before fun _ => ?_).congr fun problem => ?_
    · split
      next => exact safe_pure _
      next =>
        refine .after (safe_use _) fun _ => ?_
        split
        next => exact .after (safe_use _) fun _ => safe_pure _
        next => exact safe_pure _
    · have noFlaw : ¬ Flaw setting ⟨false, .loop item items track body empty⟩ problem := by
        intro flaw
        cases flaw with
        | item noName => cases isName ▸ noName
      simp [placed, noFlaw]

theorem guarded_text (value : String) : Guarded setting (.text value) := by
  rw [Guarded, node, text]
  have noFlaw (problem : LoweringError) : ¬ FlawIn setting (placed setting false (.text value)) problem := by
    rintro ⟨place, member, flaw⟩
    obtain rfl := List.mem_singleton.1 member
    cases flaw
  refine Rejects.congr (?_ : Safe _) fun problem => (iff_false_intro (noFlaw problem)).symm
  split
  next => exact safe_pure _
  next => exact .after (safe_use _) fun _ => safe_pure _

theorem guarded_expression (value : Expression) : Guarded setting (.expression value) := by
  rw [Guarded, node, interpolation]
  have noFlaw (problem : LoweringError) : ¬ FlawIn setting (placed setting false (.expression value)) problem := by
    rintro ⟨place, member, flaw⟩
    obtain rfl := List.mem_singleton.1 member
    cases flaw
  exact Rejects.congr (.after (safe_use _) fun _ => safe_pure _) fun problem => (iff_false_intro (noFlaw problem)).symm

/-! Elements. -/

/-- Away from a component, what is wrong with an element that is no wrapper is wrong with what it holds. -/
theorem not_flaw_element {direct : Bool} {name : String} {attributes : List Attribute} {children : List Markup}
    (noWrapper : name ≠ setting.config.templateTag) : ¬ Flaw setting ⟨direct, .element name attributes children⟩ problem := by
  intro flaw
  cases flaw <;> exact noWrapper rfl

theorem safe_slot (attributes : List Attribute) : Safe (slot attributes) := .after (fun _ _ => id) fun _ => safe_pure _

theorem safe_elementCode (tag : String) : Safe (elementCode setting tag) := by
  rw [elementCode]
  split
  next =>
    rw [map_eq_pure_bind]
    refine Rejects.before (.after (fun _ _ => id) fun used => ?_) fun _ => safe_pure _
    split
    next => exact safe_pure _
    next => exact .after (fun _ _ => id) fun _ => safe_pure _
  next => exact safe_pure _

theorem safe_componentVariable (tag : String) : Safe (componentVariable tag) := by
  refine .after (fun _ _ => id) fun used => ?_
  split
  next => exact safe_pure _
  next => exact .after (fun _ _ => id) fun _ => safe_pure _

theorem rejects_element {name : String} {attributes : List Attribute} {children : List Markup}
    (each : ∀ node ∈ children, Guarded setting node) :
    Rejects (FlawIn setting (placedIn setting false children)) (element setting name attributes (siblings (nodes setting children))) :=
  .after (safe_use _) fun _ => .after (safe_elementCode name) fun _ => (rejects_siblings each).before fun _ => safe_pure _

/-! Components. -/

/-- What is wrong with the slot of a wrapper. -/
def SlotFlaw (config : Config) (attributes : List Attribute) (problem : LoweringError) : Prop :=
  problem = .slotName config.templateTag ∧ ∃ attr, attribute? attributes "slot" = some attr ∧ ∀ text, ¬ IsLiteral attr text

/-- What is wrong with a name that a wrapper introduces. -/
def LetFlaw (config : Config) (attr : Attribute) (problem : LoweringError) : Prop :=
  ∃ name, Name.ofLet? attr.name = some name ∧ (problem = .letName attr.name config.templateTag ∧ Text.isIdentifier name = false ∨
    problem = .letProperty attr.name config.templateTag ∧ ¬ NamesEntry attr)

theorem flaw_wrapper_iff {attributes : List Attribute} {children : List Markup} :
    Flaw setting ⟨true, .element setting.config.templateTag attributes children⟩ problem ↔
      SlotFlaw setting.config attributes problem ∨ ∃ attr ∈ attributes, LetFlaw setting.config attr problem := by
  constructor
  · intro flaw
    cases flaw with
    | slot first noText => exact .inl ⟨rfl, _, first, noText⟩
    | letName member isLet noName => exact .inr ⟨_, member, _, isLet, .inl ⟨rfl, noName⟩⟩
    | letProperty member isLet noEntry => exact .inr ⟨_, member, _, isLet, .inr ⟨rfl, noEntry⟩⟩
  · rintro (⟨rfl, _, first, noText⟩ | ⟨_, member, _, isLet, ⟨rfl, noName⟩ | ⟨rfl, noEntry⟩⟩)
    · exact .slot first noText
    · exact .letName member isLet noName
    · exact .letProperty member isLet noEntry

theorem fails_wrapperSlot (config : Config) (attributes : List Attribute) :
    Fails (SlotFlaw config attributes) (wrapperSlot config.templateTag attributes) := by
  rw [wrapperSlot]
  split
  next none =>
    rintro _ ⟨-, _, found, -⟩
    cases none ▸ found
  next attr found =>
    obtain ⟨_, kind, value⟩ := attr
    cases kind <;> cases value
    case literal.text text =>
      rintro _ ⟨-, _, isOther, noText⟩
      cases found.symm.trans isOther
      exact noText text ⟨rfl, rfl⟩
    all_goals exact ⟨rfl, _, found, fun _ literal => by cases literal.1 <;> cases literal.2⟩

theorem fails_binding? (config : Config) (attr : Attribute) : Fails (LetFlaw config attr) (binding? config.templateTag attr) := by
  rw [binding?]
  split
  next noLet =>
    rintro _ ⟨_, isLet, -⟩
    cases noLet ▸ isLet
  next name isLet =>
    split
    next noName => exact ⟨name, isLet, .inl ⟨rfl, by simpa using noName⟩⟩
    next isName =>
      have right (entry : NamesEntry attr) : ∀ problem, ¬ LetFlaw config attr problem := by
        rintro _ ⟨_, isOther, ⟨-, noName⟩ | ⟨-, noEntry⟩⟩
        · cases isLet.symm.trans isOther
          simp [noName] at isName
        · exact noEntry entry
      have noProperty (noEntry : ¬ NamesEntry attr) : LetFlaw config attr (.letProperty attr.name config.templateTag) :=
        ⟨name, isLet, .inr ⟨rfl, noEntry⟩⟩
      split
      next isFlag => exact right (.inl isFlag)
      next key isLiteral isText =>
        split
        next isEmpty => exact right (.inr ⟨key, ⟨isLiteral, isText⟩, .inl (by simpa using isEmpty)⟩)
        next notEmpty =>
          split
          next isKey => exact right (.inr ⟨key, ⟨isLiteral, isText⟩, .inr isKey⟩)
          next noKey =>
            refine noProperty ?_
            rintro (isFlag | ⟨other, ⟨-, isOther⟩, isEntry⟩)
            · cases isLiteral.symm.trans isFlag
            · cases isText.symm.trans isOther
              exact isEntry.elim (fun empty => notEmpty (by simp [empty])) noKey
      next noFlag noText =>
        refine noProperty ?_
        rintro (isFlag | ⟨key, ⟨isLiteral, isText⟩, -⟩)
        · exact noFlag isFlag
        · exact noText key isLiteral isText

theorem fails_wrapper (attributes : List Attribute) (children : List Markup) (actions : List Action) :
    Fails (Flaw setting ⟨true, .element setting.config.templateTag attributes children⟩)
      (wrapper setting.config.templateTag attributes actions) := by
  rw [wrapper]
  exact ((fails_wrapperSlot _ _).bind fun _ _ => (Fails.mapM fun attr _ => fails_binding? _ attr).before fun _ => .of_ok _).congr
    fun _ => flaw_wrapper_iff.symm

/-- A wrapper around content for a slot. -/
def IsWrapper (config : Config) (self : Markup) : Prop := ∃ attributes children, self = .element config.templateTag attributes children

/-- A child is routed unless it is a wrapper with a flaw. -/
theorem fails_routes_cons (setting : Setting) (child : Markup) (rest : List Markup) :
    ∃ route, routes setting (child :: rest) = route :: routes setting rest ∧
      Fails (fun problem => IsWrapper setting.config child ∧ Flaw setting ⟨true, child⟩ problem) route := by
  have alone (noWrapper : ¬ IsWrapper setting.config child) : ∀ routed, Fails (fun problem => IsWrapper setting.config child ∧
      Flaw setting ⟨true, child⟩ problem) (.ok routed : Except LoweringError Routed) := fun _ _ wrong => noWrapper wrong.1
  cases child with
  | element name attributes children =>
    rw [routes]
    refine ⟨_, rfl, ?_⟩
    split
    next isWrapper =>
      subst isWrapper
      exact (fails_wrapper attributes children _).congr fun _ => (and_iff_right ⟨_, _, rfl⟩).symm
    next noWrapper =>
      refine alone ?_ _
      rintro ⟨_, _, same⟩
      cases same
      exact noWrapper rfl
  | _ =>
    rw [routes]
    · refine ⟨_, rfl, alone ?_ _⟩
      rintro ⟨_, _, ⟨⟩⟩
    · rintro _ _ _ ⟨⟩

theorem fails_gather (setting : Setting) (children : List Markup) (start : Entries Routed) :
    Fails (fun problem => ∃ child ∈ children, IsWrapper setting.config child ∧ Flaw setting ⟨true, child⟩ problem)
      (gather start (routes setting children)) := by
  induction children generalizing start with
  | nil => exact fun _ => nofun
  | cons child rest ih =>
    obtain ⟨route, same, fails⟩ := fails_routes_cons setting child rest
    rw [same]
    cases route with
    | error problem => exact ⟨child, List.mem_cons_self .., fails⟩
    | ok routed => exact (ih (addRouted start routed)).congr fun problem => by simp [fails problem]

/-- Only the place of a wrapper matters. -/
theorem flawIn_placed_direct {self : Markup} (noWrapper : ¬ IsWrapper setting.config self) :
    FlawIn setting (placed setting true self) problem ↔ FlawIn setting (placed setting false self) problem := by
  obtain ⟨inside, split⟩ : ∃ inside, ∀ direct, placed setting direct self = ⟨direct, self⟩ :: inside := by
    cases self <;> exact ⟨_, fun _ => by rw [placed]⟩
  have same : Flaw setting ⟨true, self⟩ problem ↔ Flaw setting ⟨false, self⟩ problem := by
    constructor <;> intro flaw <;> cases flaw
    case item noName => exact .item noName
    case item noName => exact .item noName
    all_goals exact absurd ⟨_, _, rfl⟩ noWrapper
  rw [split, split, flawIn_cons, flawIn_cons, same]

/-- A flaw at a child of a component is one of the child as a wrapper, or one in what the child contributes. -/
theorem flawIn_child_iff (apart : setting.config.slotTag ≠ setting.config.templateTag) (child : Markup) :
    FlawIn setting (placed setting true child) problem ↔
      IsWrapper setting.config child ∧ Flaw setting ⟨true, child⟩ problem ∨
        ∃ node ∈ (contribution setting.config child).nodes, FlawIn setting (placed setting false node) problem := by
  by_cases isWrapper : IsWrapper setting.config child
  · obtain ⟨attributes, children, rfl⟩ := isWrapper
    rw [placed, if_neg apart.symm, contribution, if_pos rfl, flawIn_cons, ← flawIn_placedIn, and_iff_right ⟨_, _, rfl⟩]
    simp [childTag?]
  · have alone : (contribution setting.config child).nodes = [child] := by
      cases child with
      | element name attributes children =>
        rw [contribution, if_neg]
        rintro rfl
        exact isWrapper ⟨_, _, rfl⟩
      | _ => rfl
    rw [alone, flawIn_placed_direct isWrapper]
    simp [isWrapper]

theorem rejects_slotFunction {given : List Contribution} {slot : String} (each : ∀ node ∈ contentOf given slot, Guarded setting node) :
    Rejects (FlawIn setting (placedIn setting false (contentOf given slot))) (slotFunction (routedTo setting given slot)) := by
  refine (rejects_siblings each).before fun body => ?_
  cases body <;> exact safe_pure _

/-- The children of a component are gathered unless one is a wrapper with a flaw. -/
theorem rejects_gather {α : Type} {more : LoweringError → Prop} {children : List Markup} {step : Lower (Entries Routed)}
    {next : Entries Routed → Lower α} (gathers : ∀ used, step.run used = (gather [] (routes setting children)).map (·, used))
    (continues : ∀ slots, gather [] (routes setting children) = .ok slots → Rejects more (next slots)) :
    Rejects (fun problem => (∃ child ∈ children, IsWrapper setting.config child ∧ Flaw setting ⟨true, child⟩ problem) ∨ more problem)
      (step >>= next) := by
  intro used
  rw [StateT.run_bind, gathers]
  have fails := fails_gather setting children []
  cases isGathered : gather [] (routes setting children) with
  | error problem =>
    rw [isGathered] at fails
    exact .inl fails
  | ok slots =>
    rw [isGathered] at fails
    exact (continues slots isGathered used).congr fun problem => (or_iff_right (fails problem)).symm

theorem rejects_slotFunctions {given : List Contribution} (each : ∀ contribution ∈ given, ∀ node ∈ contribution.nodes, Guarded setting node) :
    Rejects (fun problem => ∃ node ∈ given.flatMap Contribution.nodes, FlawIn setting (placed setting false node) problem)
      (((slotsOf given).map fun slot => (slot, routedTo setting given slot)).mapM fun entry => slotFunction entry.2) := by
  have inside (slot : String) : ∀ node ∈ contentOf given slot, Guarded setting node := by
    intro node member
    obtain ⟨contribution, isGiven, isNode⟩ := List.mem_flatMap.1 member
    exact each contribution (List.mem_filter.1 isGiven).1 node isNode
  rw [List.mapM_map]
  refine (Rejects.mapM fun slot _ => rejects_slotFunction (inside slot)).congr fun problem => ?_
  -- The slots hold what is given, in another order.
  simp only [← (perm_contentOf given).mem_iff, List.mem_flatMap, flawIn_placedIn]
  exact ⟨fun ⟨slot, isSlot, node, isNode, flaw⟩ => ⟨node, ⟨slot, isSlot, isNode⟩, flaw⟩,
    fun ⟨node, ⟨slot, isSlot, isNode⟩, flaw⟩ => ⟨slot, isSlot, node, isNode, flaw⟩⟩

theorem rejects_component (apart : setting.config.slotTag ≠ setting.config.templateTag) {name : String} {attributes : List Attribute}
    {children : List Markup} (each : ∀ child ∈ children, ∀ node ∈ (contribution setting.config child).nodes, Guarded setting node) :
    Rejects (FlawIn setting (placedIn setting true children)) (component name attributes (routes setting children)) := by
  have functions (slots : Entries Routed) (isGathered : gather [] (routes setting children) = .ok slots) :
      Rejects (fun problem => ∃ node ∈ (children.map (contribution setting.config)).flatMap Contribution.nodes,
        FlawIn setting (placed setting false node) problem) (slots.mapM fun entry => slotFunction entry.2) := by
    rw [slots_of_gather isGathered]
    exact rejects_slotFunctions (List.forall_mem_map.2 each)
  refine .after (safe_use _) fun _ => .after (safe_componentVariable name) fun callee =>
    (rejects_gather (run_gather [] (routes setting children)) fun slots isGathered =>
      (functions slots isGathered).before fun _ => safe_pure _).congr fun problem => ?_
  rw [flawIn_placedIn]
  simp only [flawIn_child_iff apart, and_or_left, exists_or, List.flatMap_map, List.mem_flatMap]
  refine or_congr_right ⟨fun ⟨node, ⟨child, isChild, isNode⟩, flaw⟩ => ⟨child, isChild, node, isNode, flaw⟩,
    fun ⟨child, isChild, node, isNode, flaw⟩ => ⟨node, ⟨child, isChild, isNode⟩, flaw⟩⟩

/-! Markup. -/

theorem guarded_element (apart : setting.config.slotTag ≠ setting.config.templateTag) {name : String} {attributes : List Attribute}
    {children : List Markup} (each : ∀ node ∈ children, Guarded setting node)
    (eachGiven : ∀ child ∈ children, ∀ node ∈ (contribution setting.config child).nodes, Guarded setting node) :
    Guarded setting (.element name attributes children) := by
  rw [Guarded, node]
  by_cases isWrapper : name = setting.config.templateTag
  · subst isWrapper
    rw [if_pos rfl, placed]
    exact fun _ => ⟨_, List.mem_cons_self .., .misplaced⟩
  · rw [if_neg isWrapper, placed]
    refine Rejects.congr ?_ fun problem => (flawIn_cons.trans (or_iff_right (not_flaw_element isWrapper))).symm
    by_cases isOutlet : name = setting.config.slotTag
    · rw [if_pos isOutlet, if_pos isOutlet]
      exact (safe_slot attributes).congr fun _ => flawIn_nil.symm
    · rw [if_neg isOutlet, if_neg isOutlet, childTag?]
      by_cases known : Entries.contains setting.siblings name = true
      · rw [if_pos known, if_pos ⟨isWrapper, isOutlet, known⟩]
        exact rejects_component apart eachGiven
      · rw [if_neg known, if_neg fun isChild => known isChild.2.2]
        exact rejects_element each

mutual
theorem guarded_node (apart : setting.config.slotTag ≠ setting.config.templateTag) : (self : Markup) → Guarded setting self
  | .element _ _ children => guarded_element apart (guarded_nodes apart children) (guarded_given apart children)
  | .text value => guarded_text value
  | .expression value => guarded_expression value
  | .conditional _ body others otherwise =>
    guarded_conditional (guarded_nodes apart body) (guarded_branches apart others) (guarded_nodes apart otherwise)
  | .loop _ _ _ body empty => guarded_loop (guarded_nodes apart body) (guarded_nodes apart empty)

theorem guarded_nodes (apart : setting.config.slotTag ≠ setting.config.templateTag) : (several : List Markup) →
    ∀ node ∈ several, Guarded setting node
  | [] => nofun
  | first :: rest => List.forall_mem_cons.2 ⟨guarded_node apart first, guarded_nodes apart rest⟩

theorem guarded_branches (apart : setting.config.slotTag ≠ setting.config.templateTag) : (others : List (Branch Markup)) →
    ∀ branch ∈ others, ∀ node ∈ branch.body, Guarded setting node
  | [] => nofun
  | ⟨_, body⟩ :: rest => List.forall_mem_cons.2 ⟨guarded_nodes apart body, guarded_branches apart rest⟩

theorem guarded_given (apart : setting.config.slotTag ≠ setting.config.templateTag) : (children : List Markup) →
    ∀ child ∈ children, ∀ node ∈ (contribution setting.config child).nodes, Guarded setting node
  | [] => nofun
  | first :: rest => by
    refine List.forall_mem_cons.2 ⟨?_, guarded_given apart rest⟩
    have alone := List.forall_mem_singleton.2 (guarded_node apart first)
    cases first with
    | element name attributes children =>
      rw [contribution]
      split
      next => exact guarded_nodes apart children
      next => exact alone
    | _ => exact alone
end

end Lowering

open Lowering

theorem lowering_fails (markup : List Markup) (files : ComponentFiles) (siblings : Entries ComponentFiles)
    (resolver : ComponentFiles → String) {config : Config} (apart : config.slotTag ≠ config.templateTag) :
    Fails (FlawIn ⟨config, siblings⟩ (placedIn ⟨config, siblings⟩ false markup)) (Program.ofMarkup markup files siblings resolver config) := by
  have rejects : Rejects (FlawIn ⟨config, siblings⟩ (placedIn ⟨config, siblings⟩ false markup))
      (Lowering.siblings (nodes ⟨config, siblings⟩ markup)) := rejects_siblings (guarded_nodes apart markup)
  exact (rejects {}).before fun _ => .of_ok _

/-- Markup has no module just if there is a flaw among the nodes that stand outside of outlets: a wrapper that is no direct
child of a component, a loop whose item is no name, or a wrapper with a slot or a name that cannot be read. The error is one
of the flaws and is reported as one of the transformation. -/
theorem ofMarkup_fails_iff (markup : List Markup) (files : ComponentFiles) (siblings : Entries ComponentFiles)
    (resolver : ComponentFiles → String) {config : Config} (apart : config.slotTag ≠ config.templateTag) :
    ((∃ problem, Program.ofMarkup markup files siblings resolver config = .error problem) ↔
      ∃ place ∈ placedIn ⟨config, siblings⟩ false markup, ∃ problem, Flaw ⟨config, siblings⟩ place problem) ∧
    ∀ problem, Program.ofMarkup markup files siblings resolver config = .error problem →
      FlawIn ⟨config, siblings⟩ (placedIn ⟨config, siblings⟩ false markup) problem ∧
      (CompileError.lowering problem).message = "Transform Error: " ++ problem.message := by
  have fails := lowering_fails markup files siblings resolver apart
  cases lowered : Program.ofMarkup markup files siblings resolver config with
  | ok program =>
    rw [lowered] at fails
    exact ⟨⟨nofun, fun ⟨place, member, problem, flaw⟩ => absurd ⟨place, member, flaw⟩ (fails problem)⟩, nofun⟩
  | error problem =>
    rw [lowered] at fails
    refine ⟨⟨fun _ => ?_, fun _ => ⟨problem, rfl⟩⟩, ?_⟩
    · obtain ⟨place, member, flaw⟩ := fails
      exact ⟨place, member, problem, flaw⟩
    · rintro _ ⟨⟩
      exact ⟨fails, rfl⟩

theorem ofMarkup_fails_at_wrapper :
    let config : Config := {}
    let siblings := [("card", ComponentFiles.standard "card" "/app")]
    let outcome := fun markup => Program.ofMarkup markup (.standard "page" "/app") siblings ComponentFiles.path config
    config.slotTag ≠ config.templateTag ∧
    (∃ problem, outcome [.element "card" [] [.element "template" [.property "slot" (.identifier "name")] []]] = .error problem) ∧
    ¬ ∃ problem, outcome [.element "slot" [] [.element "template" [] []]] = .error problem := by
  intro config siblings outcome
  have apart : config.slotTag ≠ config.templateTag := by decide
  refine ⟨apart, (ofMarkup_fails_iff _ _ siblings _ apart).1.2 ?_, mt (ofMarkup_fails_iff _ _ siblings _ apart).1.1 ?_⟩
  · let card : Markup := .element "card" [] [.element "template" [.property "slot" (.identifier "name")] []]
    have places : placedIn ⟨config, siblings⟩ false [card] =
        [⟨false, card⟩, ⟨true, .element "template" [.property "slot" (.identifier "name")] []⟩] := rfl
    have noText (text : String) : ¬ IsLiteral (.property "slot" (.identifier "name")) text := fun literal => nomatch literal.1
    exact ⟨_, places ▸ List.mem_cons_of_mem _ (List.mem_singleton_self _), _, .slot rfl noText⟩
  · rintro ⟨place, member, problem, flaw⟩
    obtain rfl := List.mem_singleton.1 member
    exact not_flaw_element (by decide) flaw

end ReactiveMarkup
