import ReactiveMarkup.Proofs.UprightLists

/-! Conditionals after panics. Whatever breaks off, trees stay trees and no conditional shows a branch other than the one
that it has selected. A conditional whose pass broke off may show none, and stays like that as long as the same test is
the first true one: a pass compares what it selects with what was selected, not with what is shown. -/

namespace ReactiveMarkup.Rendering

open ReactiveMarkup.Step ReactiveMarkup.Graph ReactiveMarkup.Machine

variable {Memory : Type} {α β : Type} {start machine before middle after : Stage Memory} {roots more : NodeId → Prop} {whole : Prop} {id : NodeId}
  {calls : Calls (Host.rendering Memory)}

section

variable (keeps : KeepsTrees calls) (upright : Upright machine)

include keeps upright

theorem tends_mount (target : Handle) (anchor : Anchor) : Tends (· = id) machine (Machine.mount calls id target anchor) machine := by
  refine tends_node?.2 ?_
  split
  next node found => exact tends_mountElement keeps (.refl upright) .self found target anchor
  next node found => exact tends_mountText keeps (.refl upright) .self found target anchor
  next node found => exact tends_mountFragment keeps upright found target anchor
  next => exact tends_mountConditional keeps upright target anchor
  next => exact tends_mountList keeps (.refl upright) .self target anchor
  next node found => exact tends_mountComponent keeps upright found target anchor
  next => exact .pure (.refl upright) _

theorem tends_unmount (target : Handle) : Tends (· = id) machine (Machine.unmount calls id target) machine := by
  refine tends_node?.2 ?_
  split
  next node found => exact tends_unmountElement keeps (.refl upright) .self found target
  next node found => exact tends_unmountText keeps (.refl upright) .self node target
  next node found => exact tends_unmountFragment keeps upright found target
  next => exact tends_unmountConditional keeps upright target
  next node _ => exact tends_unmountList keeps (.refl upright) .self node target
  next node found => exact tends_unmountComponent keeps upright found target
  next => exact .pure (.refl upright) _

/-- The body of an effect is about the node that it brings up to date. -/
theorem tends_perform {task : Task (Code Memory)} (formed : task.Formed) (inBatch : 0 < machine.graph.depth) :
    Tends (fun id => task.subject? = some id) machine (Machine.perform calls task) machine := by
  have about {id : NodeId} {step : Act Memory Unit} (same : task.subject? = some id) (tends : Tends (· = id) machine step machine) :
      Tends (fun id => task.subject? = some id) machine (step >>= fun _ => pure (none : Option (Code Memory))) machine :=
    .bind (.call (.refl upright) tends fun _ here => .root (here ▸ same)) fun _ _ _ alters => .pure alters _
  cases task with
  | property name accessor handle =>
    refine .bind (off_access keeps upright formed).weaken fun value _ _ alters => .bind (.edit alters _) fun _ _ _ alters => .pure alters _
  | classes sources handle => exact .bind (off_refreshClasses keeps upright formed handle).weaken fun _ _ _ alters => .pure alters _
  | text node accessor => exact about rfl (tends_refreshText keeps (.refl upright) .self formed)
  | branches node target anchor => exact about rfl (tends_refreshBranches keeps upright inBatch target anchor)
  | items node target => exact about rfl (tends_refreshItems keeps upright target)
  | host code => exact (keeps.react code machine upright).weaken

end

/-! What the code of trees does. -/

section

variable (keeps : KeepsTrees calls) (upright : Upright machine)

include keeps upright

theorem off_call (code : Code Memory) (arguments : List Value) : Tends.off ((Interpreter.rendering Memory).call calls code arguments) machine := by
  cases code with
  | query query => exact off_query keeps upright query
  | script body => exact .map (off_run keeps upright _) _
  | _ => exact .panic (.refl upright) _

theorem off_react (code : Code Memory) : Tends.off ((Interpreter.rendering Memory).react calls code) machine := by
  cases code with
  | script body => exact .bind (off_run keeps upright _) fun _ _ _ alters => .pure alters _
  | _ => exact .panic (.refl upright) _

theorem off_control (code : Code Memory) (inputs : Inputs (Code Memory)) : Tends.off ((Interpreter.rendering Memory).control calls code inputs) machine := by
  cases code with
  | script body => exact .map (off_run keeps upright _) _
  | _ => exact .panic (.refl upright) _

omit keeps in
theorem off_build (calls : Calls (Host.rendering Memory)) (code : Code Memory) (arguments : List Value) : Tends.off ((Interpreter.rendering Memory).build calls code arguments) machine ∧
    ∀ child after, ((Interpreter.rendering Memory).build calls code arguments).run machine = (.done child, after) → Fresh machine after child := by
  cases code with
  | item each => exact off_buildItem upright each arguments
  | _ => exact ⟨.panic (.refl upright) _, fun _ _ ran => by cases ran⟩

omit keeps in
theorem off_view (calls : Calls (Host.rendering Memory)) (code : Code Memory) (context : Value) (slots : Slots (Code Memory)) : Tends.off ((Interpreter.rendering Memory).view calls code context slots) machine ∧
    ∀ child after, ((Interpreter.rendering Memory).view calls code context slots).run machine = (.done (some child), after) → Fresh machine after child := by
  cases code with
  | view shows =>
    obtain ⟨child, after, ran, built⟩ := built_optional (shows context) machine upright
    refine ⟨?_, fun other later again => ?_⟩
    · show Alters _ (∃ value, ((buildOptional (shows context)).run machine).1 = .done value) machine ((buildOptional (shows context)).run machine).2
      rw [ran]
      exact { built.alters with spared := fun _ => built.alters.spared trivial }
    · cases ran.symm.trans again
      exact built.fresh other (List.mem_singleton_self other)
  | _ => exact ⟨.panic (.refl upright) _, fun _ _ ran => by cases ran⟩

end

/-- Trees are kept however deep the calls nest. -/
theorem keepsTrees_upTo (depth : Nat) : KeepsTrees (Calls.upTo (Interpreter.rendering Memory) depth) := by
  have interprets : ∀ (calls : Calls (Host.rendering Memory)) (code : Code Memory) (query : Query), Code.query? code = some query →
      (Interpreter.rendering Memory).call calls code [] = query.run calls := by
    intro calls code query isQuery
    cases code with
    | query => cases isQuery; rfl
    | _ => cases isQuery
  have answers := @answers_upTo (Host.rendering Memory) .any Code.query? (Interpreter.rendering Memory) interprets trivial
  have looks := @looks_upTo (Host.rendering Memory) Code.query? (Interpreter.rendering Memory) interprets
  induction depth with
  | zero =>
    have out {α : Type} {machine : Stage Memory} {roots : NodeId → Prop} (upright : Upright machine) : Tends roots machine (Step.exhausted : Act Memory α) machine :=
      .exhausted (.refl upright)
    exact ⟨answers 0, looks 0, fun _ _ _ => out, fun _ _ => out, fun _ _ _ upright => ⟨out upright, fun _ _ ran => by cases ran⟩, fun _ _ _ => out,
      fun _ _ _ _ upright => ⟨out upright, fun _ _ ran => by cases ran⟩, fun _ _ _ upright _ => out upright, fun _ => out, fun _ _ => rfl, fun _ _ => rfl,
      fun _ _ _ _ => out, fun _ _ _ => out⟩
  | succ depth keeps =>
    exact ⟨answers _, looks _, fun code arguments _ upright => off_call keeps upright code arguments, fun code _ upright => off_react keeps upright code,
      fun code arguments _ upright => off_build upright (Calls.upTo (Interpreter.rendering Memory) depth) code arguments, fun code inputs _ upright => off_control keeps upright code inputs,
      fun code context slots _ upright => off_view upright (Calls.upTo (Interpreter.rendering Memory) depth) code context slots, fun _ _ formed upright inBatch => tends_perform keeps upright formed inBatch,
      fun _ upright => off_flush keeps upright depth, fun anchor => silent_resolve keeps.resolve keeps.elements anchor,
      fun id => silent_elements keeps.elements id, fun _ target anchor _ upright => tends_mount keeps upright target anchor,
      fun _ target _ upright => tends_unmount keeps upright target⟩

/-- What directors do is about any node. -/
theorem tends_director (keeps : KeepsTrees calls) (upright : Upright machine) (director : Director Memory) :
    Tends (fun _ => True) machine (director.perform calls) machine := by
  induction director generalizing machine with
  | finish => exact .pure (.refl upright) _
  | run script next ih => exact .bind (off_run keeps upright script).weaken fun result _ _ alters => .call alters (ih result.1 alters.upright) fun _ _ => .root trivial
  | make tree next ih =>
    obtain ⟨root, made, ran, built⟩ := built_tree tree machine upright
    have makes : Tends (fun _ => True) machine tree.build machine := by
      rw [Tends, ran]
      exact Alters.mono { built.alters with spared := fun _ => built.alters.spared trivial } fun _ => False.elim
    refine .bind makes fun root _ _ alters => .modifyWorld alters fun alters => ?_
    exact .call alters (ih root alters.upright) fun _ _ => .root trivial
  | mount root target place next ih =>
    have goes {between : Stage Memory} (alters : Alters (fun _ => True) True machine between) : Tends (fun _ => True) machine
        (calls.mount root target (place.elim .front .fixed) >>= fun _ => next.perform calls) between :=
      .bind (.call alters (keeps.mount root target _ _ alters.upright) fun _ _ => .root trivial) fun _ _ _ alters =>
        .call alters (ih alters.upright) fun _ _ => .root trivial
    refine .seen_bind (.refl upright) rfl fun found _ => ?_
    refine .seen_bind (.refl upright) (silent_isMounted root machine) fun mounted _ => ?_
    dsimp only
    split
    · exact .bind (.panic (.refl upright) _) fun _ _ _ alters => goes alters
    · exact goes (.refl upright)
  | unmount root target next ih =>
    have goes {between : Stage Memory} (alters : Alters (fun _ => True) True machine between) : Tends (fun _ => True) machine
        (calls.unmount root target >>= fun _ => next.perform calls) between :=
      .bind (.call alters (keeps.unmount root target _ alters.upright) fun _ _ => .root trivial) fun _ _ _ alters =>
        .call alters (ih alters.upright) fun _ _ => .root trivial
    refine .seen_bind (.refl upright) rfl fun found _ => ?_
    dsimp only
    split
    · exact .bind (.panic (.refl upright) _) fun _ _ _ alters => goes alters
    · exact goes (.refl upright)
  | batch body next ihBody ih =>
    exact .bind (tends_batch keeps upright (ihBody upright.enterBatch)) fun _ _ _ alters => .call alters (ih alters.upright) fun _ _ => .root trivial

/-- The machines that directors lead to, run one after the other. Panics that break them off are caught. -/
inductive Director.Survived : Stage Memory → Prop where
  | start (memory : Memory) (document : Document (Listener (Code Memory))) : Survived (Rendering.start memory document)
  | perform {before after : Stage Memory} {director : Director Memory} {depth : Nat} {ending : Ending Unit} (survived : Survived before)
      (ran : (director.perform (Calls.upTo (Interpreter.rendering Memory) depth)).run before = (ending, after)) (ended : ending ≠ .exhausted) :
      Survived after

theorem upright_start (memory : Memory) (document : Document (Listener (Code Memory))) : Upright (Rendering.start memory document) := by
  have absent (id : Nat) : (Rendering.start memory document).graph.content? id = none := by simp [Rendering.start, content?]
  have unread (id : Nat) : (Rendering.start memory document).graph.sources id = [] := by simp [Rendering.start, sources]
  have symmetric : (Rendering.start memory document).graph.Symmetric := fun source reader => by
    simp [Rendering.start, subscribers, sources]
  have empty (id : NodeId) : (Rendering.start memory document).nodes[id]? = none := by simp [Rendering.start]
  have bare (id kid : NodeId) : kid ∉ kids (Rendering.start memory document) id := by
    rw [kids, empty]
    exact List.not_mem_nil
  have unobserved : (Rendering.start memory document).graph.observer = none := rfl
  refine ⟨⟨symmetric, by simp [unobserved], by simp [absent]⟩, ⟨symmetric, by simp [absent], by simp [absent]⟩, by simp [unobserved], by simp [empty], ?_, ?_,
    by simp [empty]⟩
  · exact fun id kid member => absurd member (bare id kid)
  · exact fun id kid member => absurd member (bare id kid)

theorem Director.Survived.upright (survived : Director.Survived machine) : Upright machine := by
  induction survived with
  | start memory document => exact upright_start memory document
  | perform _ ran _ ih => exact ((tends_director (keepsTrees_upTo _) ih _).of_run ran).upright

/-- What a pass of a conditional that comes to its end leaves behind: the first test that gives a true value now says what is
selected, and what is selected is shown. But if the conditional had selected it already without showing it, as a pass that
broke off leaves it, it stays as it is. -/
def Recovered (id : NodeId) (node : ConditionalNode (Code Memory)) (before after : Stage Memory) : Prop :=
  ∃ selection later, FirstTrue (Tells before.graph) 0 (node.branches.map Prod.fst) selection ∧
    after.nodes[id]? = some (.conditional later) ∧ later.selected = some selection ∧
    (¬ Stalled before id selection → later.active = choice node selection) ∧ (Stalled before id selection → later = node)

theorem Passes.recovered {node : ConditionalNode (Code Memory)} (passes : Passes id node before after) (found : before.nodes[id]? = some (.conditional node))
    (fair : Fair before.graph (.conditional node)) : Recovered id node before after := by
  obtain ⟨selection, first, passed⟩ := passes
  split at passed
  next same =>
    have still : after.nodes[id]? = some (.conditional node) := by rw [passed.frame]; exact found
    refine ⟨selection, node, first, still, same, fun moving => ?_, fun _ => rfl⟩
    obtain ⟨shown, selected, active⟩ := fair
    obtain rfl : selection = shown := by
      obtain none | some := selected
      · cases same.symm.trans none
      · exact Option.some.inj (same.symm.trans some)
    refine active.elim (fun hidden => ?_) fun shows => shows
    by_contra differs
    exact moving ⟨_, found, same, hidden, fun nothing => differs (hidden.trans nothing.symm)⟩
  next anew =>
    refine ⟨selection, _, first, passed, rfl, fun _ => rfl, fun ⟨other, again, stuck⟩ => ?_⟩
    cases found.symm.trans again
    exact absurd stuck.1 anew

theorem ensures_perform_branches (keeps : KeepsTrees calls) (upright : Upright machine) (inBatch : 0 < machine.graph.depth)
    {node : ConditionalNode (Code Memory)} (found : machine.nodes[id]? = some (.conditional node)) (target : Handle) (anchor : Anchor) :
    Ensures .any (Machine.perform calls (.branches id target anchor)) machine fun _ after => Recovered id node machine after := by
  rw [perform, ensures_bind]
  exact (ensures_refreshBranches keeps upright inBatch found target anchor).mono fun _ _ passes => passes.recovered found (upright.fair id _ found)

/-- Whatever panics were caught before: a director that comes to its end leaves no conditional without the branch that it
has selected unless it was so before, and passes of the others show the branch of the first true test. -/
theorem recovery_of_survived (survived : Director.Survived machine) (depth : Nat) :
    Upright machine ∧
      (∀ (director : Director Memory) (after : Stage Memory), (director.perform (Calls.upTo (Interpreter.rendering Memory) depth)).run machine = (.done (), after) →
        ∀ id selection, Stalled after id selection → Stalled machine id selection) ∧
      KeepsTrees (Calls.upTo (Interpreter.rendering Memory) depth) ∧
      ∀ (between : Stage Memory), Upright between → 0 < between.graph.depth → ∀ (id : NodeId) (node : ConditionalNode (Code Memory)),
        between.nodes[id]? = some (.conditional node) → ∀ target anchor result after,
          ((Calls.upTo (Interpreter.rendering Memory) depth).perform (.branches id target anchor)).run between = (.done result, after) →
          Recovered id node between after := by
  refine ⟨survived.upright, fun director after ran => ?_, keepsTrees_upTo depth, fun between upright inBatch id node found target anchor result after ran => ?_⟩
  · exact ((tends_director (keepsTrees_upTo depth) survived.upright director).of_done ran).spared trivial
  · cases depth with
    | zero => cases ran
    | succ depth => exact (ensures_perform_branches (keepsTrees_upTo depth) upright inBatch found target anchor).of_done ran

/-- A conditional whose branch breaks off its mounting as long as the second signal says so. -/
private def shaky : Director Unit :=
  .run (.newSignal (.bool false) fun _ => .newSignal (.bool true) fun _ => .finish .undefined) fun _ =>
    .make (.conditional [(.read 0 .answer, some (.component "shaky"
      (.get 1 fun value => if value.isTruthy then .dispose 0 (.finish value) else .finish value) fun _ => some (.text (.fixed (.string "shown")))))] none)
      fun root => .mount root 0 none .finish

private def bare : Stage Unit := Rendering.start () ((Document.createRoot "div").run {}).2

private def writing (cell : Nat) (value : Value) : Director Unit := .run (.set cell value (.finish .undefined)) fun _ => .finish

private def mounted : Stage Unit := ((shaky.perform (Calls.upTo (Interpreter.rendering Unit) 9)).run bare).2

private def stalled : Stage Unit := (((writing 0 (.bool true)).perform (Calls.upTo (Interpreter.rendering Unit) 9)).run mounted).2

private def healed : Stage Unit := (((writing 1 (.bool false)).perform (Calls.upTo (Interpreter.rendering Unit) 9)).run stalled).2

private def rerun : Stage Unit := (((writing 0 (.string "again")).perform (Calls.upTo (Interpreter.rendering Unit) 9)).run healed).2

/-- The record that a pass leaves that has broken off. -/
private def stuck : ConditionalNode (Code Unit) :=
  { branches := [(.host (.query (.read 0 .answer)), some 0)], otherwise := none, selected := some (.branch 0), active := none, mounted := true,
    disposables := [.effect 2] }

theorem recovery_of_survived_shaky : ∃ machine after last : Stage Unit, Director.Survived machine ∧ Stalled machine 1 (.branch 0) ∧
    ((writing 0 (.string "again")).perform (Calls.upTo (Interpreter.rendering Unit) 9)).run machine = (.done (), after) ∧ Stalled after 1 (.branch 0) ∧
    ((Calls.upTo (Interpreter.rendering Unit) 9).perform (.branches 1 0 .front)).run { machine with graph := machine.graph.enterBatch } = (.done none, last) ∧
    Recovered 1 stuck { machine with graph := machine.graph.enterBatch } last := by
  -- All runs are evaluated at once, since each goes on from the one before.
  obtain ⟨mounts, panics, heals, reruns⟩ : ((shaky.perform (Calls.upTo (Interpreter.rendering Unit) 9)).run bare).1 = .done () ∧
      (((writing 0 (.bool true)).perform (Calls.upTo (Interpreter.rendering Unit) 9)).run mounted).1 =
        .panicked (.host "not an effect of a script") ∧
      (((writing 1 (.bool false)).perform (Calls.upTo (Interpreter.rendering Unit) 9)).run stalled).1 = .done () ∧
      (((writing 0 (.string "again")).perform (Calls.upTo (Interpreter.rendering Unit) 9)).run healed).1 = .done () := by cbv
  have survived : Director.Survived healed :=
    .perform (.perform (.perform (.start () _) (run_of_ending mounts) (by simp)) (run_of_ending panics) (by simp)) (run_of_ending heals) (by simp)
  obtain ⟨found, foundAgain⟩ : healed.nodes[1]? = some (.conditional stuck) ∧ rerun.nodes[1]? = some (.conditional stuck) := by
    cbv
    exact ⟨rfl, rfl⟩
  have isStuck : Stuck (.branch 0) (.conditional stuck) := ⟨rfl, rfl, by simp [stuck, choice, ConditionalNode.shown]⟩
  have passes : ((Calls.upTo (Interpreter.rendering Unit) 9).perform (.branches 1 0 .front)).run { healed with graph := healed.graph.enterBatch } =
      (.done none, (((Calls.upTo (Interpreter.rendering Unit) 9).perform (.branches 1 0 .front)).run { healed with graph := healed.graph.enterBatch }).2) :=
    run_of_ending (by cbv)
  have recovers {machine last : Stage Unit} (survived : Director.Survived machine) (found : machine.nodes[1]? = some (.conditional stuck))
      (passes : ((Calls.upTo (Interpreter.rendering Unit) 9).perform (.branches 1 0 .front)).run { machine with graph := machine.graph.enterBatch } =
        (.done none, last)) : Recovered 1 stuck { machine with graph := machine.graph.enterBatch } last := by
    obtain ⟨upright, _, _, recovers⟩ := recovery_of_survived survived 9
    exact recovers _ upright.enterBatch (Nat.succ_pos _) 1 stuck found _ _ _ _ passes
  exact ⟨healed, rerun, _, survived, ⟨_, found, isStuck⟩, run_of_ending reruns, ⟨_, foundAgain, isStuck⟩, passes, recovers survived found passes⟩

end ReactiveMarkup.Rendering
