import ReactiveMarkup.Proofs.UprightNodes

/-! What conditionals and components do to trees, however it ends. A pass of a conditional that comes to its end
shows the branch that it selects, unless that branch was selected already. -/

namespace ReactiveMarkup.Rendering

open ReactiveMarkup.Step ReactiveMarkup.Graph ReactiveMarkup.Machine

variable {Memory : Type} {α β : Type} {start machine before middle after : Stage Memory} {roots more : NodeId → Prop} {whole : Prop} {id : NodeId}
  {calls : Calls (Host.rendering Memory)}

/-- What a test gives now. -/
def Tells (graph : Graph (Code Memory) (Task (Code Memory))) (test : Accessor (Code Memory)) (value : Value) : Prop :=
  ∃ query, test = .host (.query query) ∧ query.Returns Code.query? graph value

section

variable (keeps : KeepsTrees calls) (upright : Upright machine)

include keeps upright

theorem off_select {branches : List (Accessor (Code Memory) × Option NodeId)} (queries : ∀ branch ∈ branches, ∃ query, branch.1 = .host (.query query))
    (index : Nat) : Tends.off (select calls index branches) machine := by
  induction branches generalizing machine index with
  | nil => exact .pure (.refl upright) _
  | cons branch rest ih =>
    obtain ⟨test, shown⟩ := branch
    obtain ⟨query, rfl⟩ := queries _ List.mem_cons_self
    refine .bind (off_access keeps upright trivial) fun value _ _ alters => ?_
    split
    · exact .pure alters _
    · exact .idle alters (ih alters.upright (fun branch inRest => queries branch (List.mem_cons_of_mem _ inRest)) _)

theorem ensures_select {branches : List (Accessor (Code Memory) × Option NodeId)} (queries : ∀ branch ∈ branches, ∃ query, branch.1 = .host (.query query))
    (index : Nat) : Ensures .any (select calls index branches) machine fun selection after =>
      Looked Code.query? machine after ∧ FirstTrue (Tells machine.graph) index (branches.map Prod.fst) selection := by
  induction branches generalizing machine index with
  | nil => exact ⟨.refl upright.coherent, .otherwise index⟩
  | cons branch rest ih =>
    obtain ⟨test, shown⟩ := branch
    obtain ⟨query, rfl⟩ := queries _ List.mem_cons_self
    have ready : Ready .any Code.query? query machine := ⟨upright.coherent, upright.graph_observing, .inl trivial⟩
    rw [select, ensures_bind]
    refine (keeps.answers (.query query) query machine rfl ready).mono fun value between evaluated => ?_
    obtain ⟨forth, back⟩ := evaluated.refreshed.extends
    have given : Tells machine.graph (.host (.query query)) value :=
      ⟨query, rfl, (evaluated.coherent.returns_of_reads evaluated.reads).transfer back⟩
    have looked := Looked.of_evaluated evaluated
    have alters : Alters (fun _ => False) True machine between := .of_looked upright looked
    split
    next holds => exact ⟨looked, .here given holds⟩
    next fails =>
      refine (ih alters.upright (fun branch inRest => queries branch (List.mem_cons_of_mem _ inRest)) (index + 1)).mono fun selection after later => ?_
      refine ⟨looked.trans later.1, .later given (by simpa using fails) (later.2.mono ?_)⟩
      rintro test value ⟨query, rfl, returns⟩
      exact ⟨query, rfl, returns.transfer back⟩

end

/-! Going over to another branch. -/

theorem ensures_node?_bind {breaks : Breaks} {node : Node (Code Memory)} (found : machine.nodes[id]? = some node) (next : Option (Node (Code Memory)) → Act Memory β)
    (post : β → Stage Memory → Prop) : Ensures breaks (node? id >>= next) machine post ↔ Ensures breaks (next (some node)) machine post := by
  rw [← found]
  rfl

section

variable {node : ConditionalNode (Code Memory)}

theorem run_modifyConditional (found : machine.nodes[id]? = some (.conditional node)) (f : ConditionalNode (Code Memory) → ConditionalNode (Code Memory)) :
    (modifyConditional id f : Act Memory Unit).run machine = (.done (), { machine with nodes := machine.nodes.set! id (.conditional (f node)) }) := by
  have looked : (node? id : Act Memory _).run machine = (.done (some (.conditional node)), machine) := by rw [← found]; rfl
  exact run_bind_of_done looked

/-- A step that begins and ends with a new record for one node, which shows in the end what it has selected. It may
show less in between. -/
theorem tends_over {old new : Node (Code Memory)} {opening : Act Memory Unit} {step : Act Memory α} {next : α → Act Memory β}
    (alters : Alters roots True start machine) (found : machine.nodes[id]? = some old) (owned : Owned roots start id) (same : blank new = blank old)
    (formed : Formed new) (grown : ∀ kid ∈ new.kids, kid ∈ old.kids) (fair : Fair machine.graph new)
    (opened : opening.run machine = (.done (), { machine with nodes := machine.nodes.set! id new }))
    (going : Tends more { machine with nodes := machine.nodes.set! id new } step { machine with nodes := machine.nodes.set! id new })
    (inside : ∀ root, more root → Owned roots start root)
    (closing : ∀ value between, Alters more True { machine with nodes := machine.nodes.set! id new } between →
      Tends (· = id) between (next value) between ∧ Ensures .any (next value) between fun _ after => ∀ selection, ¬ Stalled after id selection) :
    Tends roots start (opening >>= fun _ => step >>= next) machine := by
  have set : Alters roots False start { machine with nodes := machine.nodes.set! id new } :=
    alters.set found owned same formed (fun kid member => .inl (grown kid member)) fair False.elim
  have others {other : NodeId} {selection : Selection} (apart : other ≠ id) (stalled : Stalled { machine with nodes := machine.nodes.set! id new } other selection) :
      Stalled machine other selection := by
    obtain ⟨node, foundNode, stuck⟩ := stalled
    exact ⟨node, (@getElem?_setNode_of_ne (Host.rendering Memory) machine id other apart new).symm.trans foundNode, stuck⟩
  rw [Tends, run_bind_of_done opened]
  show Alters roots (∃ value, (Step.bind step next { machine with nodes := machine.nodes.set! id new }).1 = .done value) start
    (Step.bind step next { machine with nodes := machine.nodes.set! id new }).2
  rw [Step.bind]
  cases ran : step.run { machine with nodes := machine.nodes.set! id new } with
  | mk ending between =>
    rw [show step { machine with nodes := machine.nodes.set! id new } = (ending, between) from ran]
    have gone := set.join (going.of_run ran).broken inside False.elim
    cases ending with
    | panicked cause => exact { gone with spared := by simp }
    | exhausted => exact { gone with spared := by simp }
    | done value =>
      have whole := going.of_done ran
      obtain ⟨closes, shows⟩ := closing value between whole
      refine gone.join closes (fun root here => here ▸ owned) ?_
      rintro ⟨result, done⟩ other selection stalled
      by_cases here : other = id
      · subst here
        exact absurd stalled (shows.of_done (Prod.ext done rfl) selection)
      · have before := whole.spared trivial other selection (closes.spared ⟨result, done⟩ other selection stalled)
        exact alters.spared trivial other selection (others here before)

/-- A conditional that shows what it has selected. -/
def showing (node : ConditionalNode (Code Memory)) (selection : Selection) : ConditionalNode (Code Memory) :=
  { node with selected := some selection, active := choice node selection }

/-- A conditional that has selected a branch and shows none yet. -/
def leaving (node : ConditionalNode (Code Memory)) (selection : Selection) : ConditionalNode (Code Memory) :=
  { node with selected := some selection, active := none }

theorem not_stuck_showing (selection other : Selection) : ¬ Stuck other (.conditional (showing node selection)) := by
  rintro ⟨same, hidden, shown⟩
  obtain rfl : selection = other := Option.some.inj same
  exact shown hidden

/-- What a conditional shows is unmounted, and what it selects is mounted. -/
def replaceBranch (calls : Calls (Host.rendering Memory)) (node : ConditionalNode (Code Memory)) (selection : Selection) (target : Handle) (anchor : Anchor) :
    Act Memory Unit := do
  node.active.toList.forM fun previous => calls.unmount previous target
  (choice node selection).toList.forM fun next => calls.mount next target anchor

/-- The record of a conditional says what it selects, the branch that it shows is replaced, and in the end the record says
that it shows what it selects. -/
def goOver (calls : Calls (Host.rendering Memory)) (id : NodeId) (node : ConditionalNode (Code Memory)) (selection : Selection) (target : Handle)
    (anchor : Anchor) : Act Memory Unit := do
  setNode id (.conditional (leaving node selection))
  replaceBranch calls node selection target anchor
  modifyConditional id fun current => { current with active := choice node selection }

theorem run_switch {selection : Selection} (found : machine.nodes[id]? = some (.conditional node)) (selected : node.selected = some selection)
    (target : Handle) (anchor : Anchor) :
    (switch calls id selection target anchor).run machine = (goOver calls id node selection target anchor).run machine := by
  have looked : (node? id : Act Memory _).run machine = (.done (some (.conditional node)), machine) := by
    rw [← found]
    rfl
  have same : leaving node selection = { node with active := none } := by rw [leaving, ← selected]
  rw [switch, run_bind_of_done looked]
  dsimp only
  rw [run_bind_of_done (run_modifyConditional found _), goOver, same, replaceBranch, LawfulMonad.bind_assoc]
  rfl

/-- The record of a conditional is written twice before anything is unmounted. -/
theorem run_goOver (found : machine.nodes[id]? = some (.conditional node)) (selection : Selection) (target : Handle) (anchor : Anchor) :
    (modifyConditional id (fun node => { node with selected := some selection }) >>= fun _ => untrack (switch calls id selection target anchor)).run machine =
      (untrack (goOver calls id node selection target anchor)).run machine := by
  have self := getElem?_setNode found (.conditional { node with selected := some selection })
  have twice : (machine.nodes.set! id (.conditional { node with selected := some selection })).set! id (.conditional (leaving node selection)) =
      machine.nodes.set! id (.conditional (leaving node selection)) := by
    simp only [Array.set!_eq_setIfInBounds, Array.setIfInBounds_setIfInBounds]
  have switches (unseen selecting : Stage Memory) (nodes : unseen.nodes = machine.nodes)
      (selects : selecting = { unseen with nodes := machine.nodes.set! id (.conditional { node with selected := some selection }) }) :
      (switch calls id selection target anchor).run selecting = (goOver calls id node selection target anchor).run unseen := by
    subst selects
    rw [run_switch self rfl, goOver, goOver]
    show Step.bind _ _ { unseen with nodes := (machine.nodes.set! id (.conditional { node with selected := some selection })).set! id (.conditional (leaving node selection)) } = _
    rw [twice, ← nodes]
    rfl
  rw [run_bind_of_done (run_modifyConditional found _)]
  exact congrArg (fun result => (result.1, { result.2 with graph := { result.2.graph with observer := machine.graph.observer } }))
    (switches { machine with graph := { machine.graph with observer := none } } _ rfl rfl)

end

theorem mem_kids_of_choice {node : ConditionalNode (Code Memory)} {selection : Selection} {shown : NodeId} (chosen : choice node selection = some shown) :
    shown ∈ (Node.conditional node).kids := by
  cases selection with
  | branch index =>
    obtain ⟨branch, inside, isShown⟩ := Option.bind_eq_some_iff.1 chosen
    exact List.mem_append_left _ (List.mem_filterMap.2 ⟨branch, List.mem_of_getElem? inside, isShown⟩)
  | otherwise => exact List.mem_append_right _ (Option.mem_toList.2 chosen)

/-- What a conditional shows is below it. -/
theorem mem_kids_of_active {graph : Graph (Code Memory) (Task (Code Memory))} {node : ConditionalNode (Code Memory)} {active : NodeId}
    (fair : Fair graph (.conditional node)) (shown : node.active = some active) : active ∈ (Node.conditional node).kids := by
  obtain ⟨selection, _, hidden | isActive⟩ := fair
  · cases hidden.symm.trans shown
  · exact mem_kids_of_choice (isActive.symm.trans shown)

section

variable (keeps : KeepsTrees calls) {node : ConditionalNode (Code Memory)}

include keeps

/-- The branch that is shown is replaced by another, which is about these two only. -/
theorem tends_replaceBranch (selection : Selection) (target : Handle) (anchor : Anchor) (alters : Alters (· ∈ (Node.conditional node).kids) True start machine)
    (shown : ∀ active, node.active = some active → active ∈ (Node.conditional node).kids) :
    Tends (· ∈ (Node.conditional node).kids) start (replaceBranch calls node selection target anchor) machine := by
  refine .bind (.forM alters fun previous member middle alters => ?_) fun _ _ _ alters => .forM alters fun next member middle alters => ?_
  · exact tends_unmountKid keeps alters (.root (shown previous (Option.mem_toList.1 member))) target
  · exact tends_mountKid keeps alters (.root (mem_kids_of_choice (Option.mem_toList.1 member))) target anchor

/-- Going over to a branch is about what is below a conditional. In the end the conditional shows what it has selected. -/
theorem tends_goOver (upright : Upright machine) (inBatch : 0 < machine.graph.depth) (found : machine.nodes[id]? = some (.conditional node))
    (selection : Selection) (target : Handle) (anchor : Anchor) : Tends (· = id) machine (goOver calls id node selection target anchor) machine ∧
      Ensures .any (goOver calls id node selection target anchor) machine fun _ after =>
        after.nodes[id]? = some (.conditional (showing node selection)) := by
  let cleared : Stage Memory := { machine with nodes := machine.nodes.set! id (.conditional (leaving node selection)) }
  have formed : Formed (.conditional (leaving node selection)) := upright.formed id (.conditional node) found
  have fair : Fair machine.graph (.conditional (leaving node selection)) := ⟨selection, .inr rfl, .inl rfl⟩
  have foundCleared : cleared.nodes[id]? = some (.conditional (leaving node selection)) := getElem?_setNode found _
  have left : Alters (· = id) False machine cleared :=
    Alters.set (.refl upright) found .self rfl formed (fun _ member => .inl member) fair False.elim
  have replaced : Tends (· ∈ (Node.conditional node).kids) cleared (replaceBranch calls node selection target anchor) cleared :=
    tends_replaceBranch keeps selection target anchor (.refl left.upright) fun _ => mem_kids_of_active (upright.fair id _ found)
  -- nothing below the conditional is above it, so its record waits
  have waits {between : Stage Memory} (alters : Alters (· ∈ (Node.conditional node).kids) True cleared between) :
      between.nodes[id]? = some (.conditional (leaving node selection)) := by
    refine (alters.others inBatch id (Array.getElem?_eq_some_iff.1 foundCleared).1 ?_).trans foundCleared
    rintro (⟨kid, isKid, below⟩ | new)
    · exact left.upright.acyclic id kid ((mem_kids foundCleared).2 isKid) below
    · exact absurd (Array.getElem?_eq_some_iff.1 foundCleared).1 (Nat.not_lt.2 new)
  have closes {between : Stage Memory} (alters : Alters (· ∈ (Node.conditional node).kids) True cleared between) :
      Tends (· = id) between (modifyConditional id fun current => { current with active := choice node selection }) between ∧
        Ensures .any (modifyConditional id fun current => { current with active := choice node selection }) between fun _ after =>
          after.nodes[id]? = some (.conditional (showing node selection)) := by
    have foundBetween := waits alters
    have closed := run_modifyConditional foundBetween fun current => { current with active := choice node selection }
    have shows := getElem?_setNode foundBetween (.conditional (showing node selection))
    refine ⟨?_, ?_⟩
    · have set : Alters (· = id) True between { between with nodes := between.nodes.set! id (.conditional (showing node selection)) } :=
        Alters.set (.refl alters.upright) foundBetween .self rfl formed (fun _ member => .inl member) ⟨selection, .inr rfl, .inr rfl⟩
          fun _ other stuck => absurd stuck (not_stuck_showing selection other)
      rw [Tends, closed]
      exact { set with spared := fun _ => set.spared trivial }
    · unfold Ensures
      rw [closed]
      exact shows
  have isKid (root : NodeId) (inKids : root ∈ (Node.conditional node).kids) : Owned (· = id) machine root :=
    owned_kid (.refl upright) .self found inKids
  have same : blank (.conditional (leaving node selection)) = blank (.conditional node) := rfl
  refine ⟨tends_over (.refl upright) found .self same formed (fun _ member => member) fair rfl replaced isKid fun _ between alters => ?_, ?_⟩
  · refine ⟨(closes alters).1, (closes alters).2.mono fun _ after shows selection => ?_⟩
    rintro ⟨later, foundLater, stuck⟩
    cases shows.symm.trans foundLater
    exact not_stuck_showing _ _ stuck
  · show Ensures .any (replaceBranch calls node selection target anchor >>= fun _ => modifyConditional id fun current => { current with active := choice node selection })
      cleared _
    rw [ensures_bind]
    exact replaced.ensures.mono fun _ between alters => (closes alters).2

/-- What a pass of a conditional does: the first test that gives a true value now selects the branch to be shown, unless that
branch was selected before the pass. -/
def Passes (id : NodeId) (node : ConditionalNode (Code Memory)) (before after : Stage Memory) : Prop :=
  ∃ selection, FirstTrue (Tells before.graph) 0 (node.branches.map Prod.fst) selection ∧
    if node.selected = some selection then Looked Code.query? before after
    else after.nodes[id]? = some (.conditional (showing node selection))

/-- A conditional goes over to another branch, and nobody notices what the branches read. -/
theorem tends_untrack_goOver (upright : Upright machine) (inBatch : 0 < machine.graph.depth) (found : machine.nodes[id]? = some (.conditional node))
    (selection : Selection) (target : Handle) (anchor : Anchor) : Tends (· = id) machine (untrack (goOver calls id node selection target anchor)) machine ∧
      Ensures .any (untrack (goOver calls id node selection target anchor)) machine fun _ after =>
        after.nodes[id]? = some (.conditional (showing node selection)) := by
  obtain ⟨tends, ensured⟩ := tends_goOver keeps upright.unobserved inBatch found selection target anchor
  exact ⟨.observed upright tends, (ensures_observedBy none _ machine _).2 ensured⟩

/-- A pass of a conditional is about what is below it. -/
theorem tends_refreshBranches (upright : Upright machine) (inBatch : 0 < machine.graph.depth) (target : Handle) (anchor : Anchor) :
    Tends (· = id) machine (refreshBranches calls id target anchor) machine := by
  refine tends_node?.2 ?_
  split
  next node found =>
    have selects : Tends.off (select calls 0 node.branches) machine := off_select keeps upright (upright.formed id _ found) 0
    refine .bind selects.weaken fun selection between ran alters => tends_node?.2 ?_
    have depth := (selects.of_done ran).kept.steady.depth
    split
    next current foundBetween =>
      split
      next => exact .pure alters _
      next =>
        have goes := (tends_untrack_goOver keeps alters.upright (depth ▸ inBatch) foundBetween selection target anchor).1
        rw [Tends, ← run_goOver foundBetween] at goes
        exact .call alters goes fun _ same => .root same
    next => exact .pure alters _
  next => exact .pure (.refl upright) _

/-- A pass of a conditional that comes to its end. -/
theorem ensures_refreshBranches (upright : Upright machine) (inBatch : 0 < machine.graph.depth) (found : machine.nodes[id]? = some (.conditional node))
    (target : Handle) (anchor : Anchor) : Ensures .any (refreshBranches calls id target anchor) machine fun _ after => Passes id node machine after := by
  have queries : ∀ branch ∈ node.branches, ∃ query, branch.1 = .host (.query query) := upright.formed id _ found
  rw [refreshBranches, ensures_node?_bind found]
  dsimp only
  rw [ensures_bind]
  refine (ensures_select keeps upright queries 0).mono fun selection between ⟨looked, first⟩ => ?_
  have alters : Alters (· = id) True machine between := .of_looked upright looked
  have foundBetween : between.nodes[id]? = some (.conditional node) := by
    rw [looked.frame]
    exact found
  rw [ensures_node?_bind foundBetween]
  dsimp only
  split
  next isSelected => exact ⟨selection, first, by rw [if_pos isSelected]; exact looked⟩
  next anew =>
    have shows := (tends_untrack_goOver keeps alters.upright (alters.kept.steady.depth ▸ inBatch) foundBetween selection target anchor).2
    unfold Ensures
    rw [run_goOver foundBetween]
    exact shows.mono fun _ after shown => ⟨selection, first, by rw [if_neg anew]; exact shown⟩

theorem tends_mountConditional (upright : Upright machine) (target : Handle) (anchor : Anchor) :
    Tends (· = id) machine (mountConditional calls id target anchor) machine := by
  refine .bind (tends_modifyConditional (.refl upright) .self fun _ => ⟨_, _, rfl⟩) fun _ _ _ alters => ?_
  have formed : (Task.branches id target anchor : Task (Code Memory)).Formed := trivial
  refine .bind (tends_ownEffect keeps alters .self formed fun _ same => (Option.some.inj same).symm) fun effect _ _ alters => ?_
  exact tends_modifyConditional alters .self fun _ => ⟨_, _, rfl⟩

omit keeps in
/-- A conditional stays one. -/
theorem exists_conditional (grows : Grows before after) (found : before.nodes[id]? = some (.conditional node)) :
    ∃ later : ConditionalNode (Code Memory), after.nodes[id]? = some (.conditional later) ∧
      blank (.conditional later) = blank (.conditional node) := by
  obtain ⟨later, foundLater, same⟩ := grows.exists_blank found
  cases later with
  | conditional later => exact ⟨later, foundLater, same⟩
  | _ => cases same

omit keeps in
/-- In the end an unmounted conditional has nothing selected. -/
theorem closes_unmountConditional (upright : Upright machine) (found : machine.nodes[id]? = some (.conditional node)) :
    Tends (· = id) machine (modifyConditional id fun node => { node with selected := none, mounted := false }) machine ∧
      Ensures .any (modifyConditional id fun node => { node with selected := none, mounted := false }) machine fun _ after =>
        ∀ selection, ¬ Stalled after id selection := by
  have formed : Formed (.conditional { node with selected := none, mounted := false }) := upright.formed id (.conditional node) found
  obtain ⟨shown, _, active⟩ := upright.fair id (.conditional node) found
  have still (selection : Selection) : ¬ Stuck selection (.conditional { node with selected := none, mounted := false }) := by
    rintro ⟨never, _⟩
    cases never
  have closed := run_modifyConditional found fun node => { node with selected := none, mounted := false }
  refine ⟨?_, ?_⟩
  · have set : Alters (· = id) True machine { machine with nodes := machine.nodes.set! id (.conditional { node with selected := none, mounted := false }) } :=
      Alters.set (.refl upright) found .self rfl formed (fun _ member => .inl member) ⟨shown, .inl rfl, active⟩ fun _ selection stuck => absurd stuck (still selection)
    rw [Tends, closed]
    exact { set with spared := fun _ => set.spared trivial }
  · unfold Ensures
    rw [closed]
    rintro selection ⟨later, foundLater, stuck⟩
    cases (getElem?_setNode found _).symm.trans foundLater
    exact still selection stuck

theorem tends_unmountConditional (upright : Upright machine) (target : Handle) :
    Tends (· = id) machine (unmountConditional calls id node target) machine := by
  unfold unmountConditional
  split
  next => exact .pure (.refl upright) _
  next =>
    refine .bind (tends_modifyConditional (.refl upright) .self fun _ => ⟨_, _, rfl⟩) fun _ _ _ alters => ?_
    refine .bind (.idle alters (off_disposeAll keeps alters.upright _)) fun _ between _ alters => tends_node?.2 ?_
    split
    next current foundCurrent =>
      have formed : Formed (.conditional { current with active := none }) := alters.upright.formed id (.conditional current) foundCurrent
      have same : blank (.conditional { current with active := none }) = blank (.conditional current) := rfl
      have isFair := alters.upright.fair id (.conditional current) foundCurrent
      have fair : Fair between.graph (.conditional { current with active := none }) := by
        obtain ⟨shown, selected, _⟩ := isFair
        exact ⟨shown, selected, .inl rfl⟩
      have hides := run_modifyConditional foundCurrent fun node => { node with active := none }
      have hidden : Alters (· = id) False machine { between with nodes := between.nodes.set! id (.conditional { current with active := none }) } :=
        alters.set foundCurrent .self same formed (fun _ member => .inl member) fair False.elim
      have going : Tends (· ∈ (Node.conditional current).kids) { between with nodes := between.nodes.set! id (.conditional { current with active := none }) }
          (current.active.toList.forM fun active => calls.unmount active target) { between with nodes := between.nodes.set! id (.conditional { current with active := none }) } :=
        .forM (.refl hidden.upright) fun active member _ alters => tends_unmountKid keeps alters (.root (mem_kids_of_active isFair (Option.mem_toList.1 member))) target
      refine tends_over alters foundCurrent .self same formed (fun _ member => member) fair hides going
        (fun _ inKids => owned_kid alters .self foundCurrent inKids) fun _ later alters => ?_
      obtain ⟨last, foundLast, _⟩ := exists_conditional alters.grows (getElem?_setNode foundCurrent _)
      exact closes_unmountConditional alters.upright foundLast
    next => exact .pure alters _

/-! Components. What a component shows is made anew each time it is mounted. -/

omit keeps in
/-- What is held while a node is made does not matter to it. -/
theorem fresh_of_holding {step : Act Memory α} {parts : List Part} {value : α} {child : NodeId}
    (fresh : ∀ after, step.run { machine with held := parts ++ machine.held } = (.done value, after) → Fresh { machine with held := parts ++ machine.held } after child)
    (ran : (holding parts step).run machine = (.done value, after)) : Fresh machine after child := by
  have held : (holding parts step).run machine = ((step.run { machine with held := parts ++ machine.held }).1,
      { (step.run { machine with held := parts ++ machine.held }).2 with held := machine.held }) := rfl
  obtain ⟨ending, rfl⟩ := Prod.mk.inj (held.symm.trans ran)
  have done : step.run { machine with held := parts ++ machine.held } = (.done value, (step.run { machine with held := parts ++ machine.held }).2) :=
    Prod.ext ending rfl
  obtain ⟨new, inside⟩ := fresh _ done
  exact ⟨new, inside⟩

omit keeps in
/-- The record of a component takes up what it shows, which was not there before. -/
theorem tends_setComponent {component : ComponentNode (Code Memory)} {child : Option NodeId} (upright : Upright machine) (found : machine.nodes[id]? = some (.component component))
    (alters : Alters (· = id) True machine after) (mounted : Bool)
    (fresh : ∀ kid, child = some kid → machine.nodes.size ≤ kid ∧ kid < after.nodes.size ∧ ¬ Below after kid id) :
    Tends (· = id) machine (setNode id (.component { component with child, mounted })) after := by
  obtain ⟨later, foundLater, same⟩ := alters.grows.exists_blank found
  have formed : Formed (.component { component with child, mounted }) := upright.formed id (.component component) found
  refine .set alters foundLater .self same.symm formed (fun kid member => .inr ?_) trivial fun _ stuck => stuck.elim
  exact fresh kid (Option.mem_toList.1 member)

theorem tends_mountComponent {component : ComponentNode (Code Memory)} (upright : Upright machine) (found : machine.nodes[id]? = some (.component component))
    (target : Handle) (anchor : Anchor) : Tends (· = id) machine (mountComponent calls id component target anchor) machine := by
  obtain ⟨view, isView⟩ : ∃ code, component.component.view = .host code := upright.formed id _ found
  refine .bind (keeps.control _ _ _ upright).weaken fun context between _ alters => ?_
  have isCode : renderView calls component.component.view context component.slots = calls.view view context component.slots := by
    rw [isView]
    rfl
  rw [isCode]
  obtain ⟨views, fresh⟩ := keeps.view view context component.slots _ (alters.upright.carry rfl rfl : Upright { between with held := [] ++ between.held })
  have made : Tends.off (holding [] (calls.view view context component.slots)) between := .holding alters.upright views
  refine .bind (.idle alters made) fun child later ran laterAlters => ?_
  have grows := (made.of_done ran).grows
  have new (kid : NodeId) (isChild : child = some kid) : Fresh between later kid :=
    fresh_of_holding (fun _ done => fresh kid _ (isChild ▸ done)) ran
  have isNew (kid : NodeId) (isChild : child = some kid) : machine.nodes.size ≤ kid := Nat.le_trans alters.grows.size (new kid isChild).1
  have mounts : Tends (child = some ·) later (child.toList.forM fun child => holding [.node child] (calls.mount child target anchor)) later :=
    .forM (.refl laterAlters.upright) fun kid member _ alters =>
      .call alters (.holding alters.upright (keeps.mount kid target anchor _ (alters.upright.carry rfl rfl)))
        fun _ same => same ▸ .root (Option.mem_toList.1 member)
  refine .bind (.call laterAlters mounts fun kid isChild => .inr (isNew kid isChild)) fun _ last ran lastAlters => ?_
  have growsLast := (mounts.of_done ran).grows
  refine tends_setComponent upright found lastAlters true fun kid isChild => ⟨isNew kid isChild, ?_, fun below => ?_⟩
  · exact Nat.lt_of_lt_of_le (new kid isChild).2 growsLast.size
  · have old : id < between.nodes.size := Nat.lt_of_lt_of_le (Array.getElem?_eq_some_iff.1 found).1 alters.grows.size
    exact absurd old (Nat.not_lt.2 ((grows.trans growsLast).new_of_below (new kid isChild).1 below))

theorem tends_unmountComponent {component : ComponentNode (Code Memory)} (upright : Upright machine) (found : machine.nodes[id]? = some (.component component))
    (target : Handle) : Tends (· = id) machine (unmountComponent calls id component target) machine := by
  have below : ∀ child ∈ component.child.toList, Owned (· = id) machine child := fun child member => owned_kid (.refl upright) .self found member
  unfold unmountComponent
  split
  next => exact .pure (.refl upright) _
  next =>
    refine .bind (tends_setComponent upright found (.refl upright) component.mounted nofun) fun _ _ _ alters => ?_
    refine .bind (.forM alters fun child member _ alters => tends_unmountKid keeps alters (below child member) target) fun _ _ _ alters => ?_
    exact tends_setComponent upright found alters false nofun

end

end ReactiveMarkup.Rendering
