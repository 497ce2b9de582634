import ReactiveMarkup.Proofs.SceneRuns

/-! Conditionals as state machines. As long as nothing breaks off, every mounted conditional shows the branch of the first
test that gives a true value, whatever is written and however its branches change themselves. A pass asks no more tests
than it needs, leaves the document alone if it selects the same branch again, and otherwise takes the old branch out before
it puts the new one in. -/

namespace ReactiveMarkup.Rendering

open ReactiveMarkup.Step ReactiveMarkup.Graph ReactiveMarkup.Machine Tidy

variable {Memory : Type} {scene : Scene} {machine after : Stage Memory} {id : NodeId} {effect : Nat} {calls : Calls (Host.rendering Memory)}
  {node : ConditionalNode (Code Memory)}

/-- A conditional shows the branch of the first test that gives a true value now, and no other. -/
def ShowsFirst (machine : Stage Memory) (node : ConditionalNode (Code Memory)) : Prop :=
  ∃ selection, FirstTrue (Tells machine.graph) 0 (node.branches.map Prod.fst) selection ∧ node.active = choice node selection ∧
    ∀ kid ∈ (Node.conditional node).kids, On machine kid ↔ choice node selection = some kid

/-- If nothing waits, mounted conditionals at rest show the branches of the first true tests. -/
theorem Tidy.showsFirst (tidy : Tidy scene machine) (found : machine.nodes[id]? = some (.conditional node)) (mounted : node.mounted = true) (rests : ¬ scene.Busy id)
    (quiet : machine.graph.queue = []) : ShowsFirst machine node ∧ ∃ effect target anchor, Keeps machine id (.effect effect) ∧ Drives machine.graph effect (.branches id target anchor) := by
  obtain ⟨effect, target, anchor, isKept, drives⟩ : Watched machine id (.conditional node) := (tidy.arranged.settled id _ found rests).watched mounted
  obtain ⟨_, again, _, presents, selection, _, active, current⟩ := (tidy.driven.steers effect _ drives).governs
  cases found.symm.trans again
  have waitless : effect ∉ machine.graph.queue := by
    rw [quiet]
    exact List.not_mem_nil
  refine ⟨⟨selection, (current.resolve_left waitless).mono ?_, active, fun kid member => (presents kid member).trans (by rw [active])⟩, effect, target, anchor, isKept, drives⟩
  rintro _ value ⟨query, rfl, reads⟩
  exact ⟨query, rfl, tidy.upright.coherent.returns_of_reads reads⟩

/-! Flushes. -/

/-- The machines in which a flush takes the next of the effects that wait, if there is one: after a write outside of batches,
and after a batch of a director. -/
inductive Director.Flushing : Stage Memory → Prop where
  | write {machine : Stage Memory} {cell : Nat} {old : Value} (reached : Director.Reached machine) (signal : machine.graph.content? cell = some (.signal old))
      (value : Value) : Flushing { machine with graph := (machine.graph.write cell value).enterBatch }
  | batch {machine after : Stage Memory} {body : Director Memory} {depth : Nat} (reached : Director.Reached machine)
      (ran : (body.perform (Calls.upTo (Interpreter.rendering Memory) depth)).run { machine with graph := machine.graph.enterBatch } = (.done (), after)) : Flushing after
  | next {machine after : Stage Memory} {effect depth : Nat} {rest : List Nat} (flushing : Flushing machine) (waiting : machine.graph.queue = effect :: rest)
      (ran : (runEffect (Calls.upTo (Interpreter.rendering Memory) depth) effect).run (popping machine rest) = (.done (), after)) : Flushing after

theorem quiet_empty (id : NodeId) (still : Scene.empty.still id) : Scene.empty.opened id := still

/-- Trees are tidy between the effects that run in a flush. -/
theorem Director.Flushing.tidy (flushing : Director.Flushing machine) : Tidy .empty machine ∧ 0 < machine.graph.depth := by
  induction flushing with
  | write reached signal value =>
    have tidy := reached.atRest.tidy
    have written : Aside.plain _ _ := .write tidy.upright signal value
    exact ⟨(tidy.beside written fun _ => False.elim).enterBatch, Nat.succ_pos _⟩
  | @batch _ _ body depth reached ran =>
    have led := (led_director_empty (keepsScenes_upTo depth) body reached.atRest.tidy.enterBatch).of_done ran
    exact ⟨led.tidy, led.depth ▸ Nat.succ_pos _⟩
  | @next _ _ _ depth _ _ waiting ran ih =>
    obtain ⟨tidy, inBatch⟩ := ih
    obtain ⟨later, frame⟩ := (tidy_runEffect (keepsScenes_upTo depth) tidy inBatch quiet_empty waiting).of_done ran
    exact ⟨later, frame.steady.depth ▸ inBatch⟩

/-- As long as nothing breaks off: between directors every mounted conditional shows the branch of the first true test, and
has an effect that follows the tests. And whenever a flush runs such an effect, it does so in a pass. -/
theorem shows_first_true :
    (∀ machine : Stage Memory, Director.Reached machine → ∀ id node, machine.nodes[id]? = some (.conditional node) → node.mounted = true →
      ShowsFirst machine node ∧ ∃ effect target anchor, Keeps machine id (.effect effect) ∧ Drives machine.graph effect (.branches id target anchor)) ∧
    ∀ machine : Stage Memory, Director.Flushing machine → ∀ effect rest, machine.graph.queue = effect :: rest →
      ∀ id target anchor, Drives machine.graph effect (.branches id target anchor) → ∃ node, machine.nodes[id]? = some (.conditional node) ∧ node.mounted = true ∧
        ∀ depth after, (runEffect (Calls.upTo (Interpreter.rendering Memory) (depth + 1)) effect).run (popping machine rest) = (.done (), after) →
          ∃ selection looked ran, Pass (Calls.upTo (Interpreter.rendering Memory) depth) id target anchor node selection
            (beginning (popping machine rest) effect (.branches id target anchor)) looked ran ∧ after.document = ran.document ∧ after.nodes = ran.nodes := by
  refine ⟨fun machine reached id node found mounted => ?_, fun machine flushing effect rest waiting id target anchor drives => ?_⟩
  · have rests := reached.atRest
    exact rests.tidy.showsFirst found mounted not_busy_resting rests.queue
  · obtain ⟨tidy, inBatch⟩ := flushing.tidy
    obtain ⟨node, found, mounted, _⟩ := (tidy.driven.steers effect _ drives).governs
    refine ⟨node, found, mounted, fun depth after ran => ?_⟩
    obtain ⟨renders, _, inBatchBegun, observed, away, assigned, paused, during, primed, lodged⟩ := begins_waiting tidy inBatch quiet_empty waiting drives
    obtain ⟨_, _, _, _, last, performs, document, nodes⟩ := (steered_waiting (keepsScenes_upTo (depth + 1)) tidy inBatch quiet_empty waiting drives).of_done ran
    have refreshes : Ensures .any (Machine.perform (Calls.upTo (Interpreter.rendering Memory) depth) (.branches id target anchor))
        (beginning (popping machine rest) effect (.branches id target anchor)) fun _ after => ∃ node selection looked, machine.nodes[id]? = some (.conditional node) ∧
          Pass (Calls.upTo (Interpreter.rendering Memory) depth) id target anchor node selection (beginning (popping machine rest) effect (.branches id target anchor)) looked after := by
      rw [Machine.perform, ensures_bind]
      exact (performs_branches (keepsScenes_upTo depth) inBatchBegun observed ⟨_, away, rfl⟩ assigned (paused id rfl) during primed lodged).mono fun _ _ => And.right
    obtain ⟨again, selection, looked, foundAgain, pass⟩ := refreshes.of_done performs
    cases found.symm.trans foundAgain
    exact ⟨selection, looked, last, pass, document, nodes⟩

/-- A conditional that shows one of two texts, or a third. -/
private def choosing : Director Unit :=
  .run (.newSignal (.bool true) fun _ => .newSignal (.bool false) fun _ => .finish .undefined) fun _ =>
    .make (.conditional [(.read 0 .answer, some (.text (.fixed (.string "first")))), (.read 1 .answer, some (.text (.fixed (.string "second"))))]
      (some (.text (.fixed (.string "neither"))))) fun root => .mount root 0 none .finish

private def vacant : Stage Unit := Rendering.start () ((Document.createRoot "div").run {}).2

private def chosen : Stage Unit := ((choosing.perform (Calls.upTo (Interpreter.rendering Unit) 9)).run vacant).2

private def record : ConditionalNode (Code Unit) :=
  { branches := [(.host (.query (.read 0 .answer)), some 0), (.host (.query (.read 1 .answer)), some 1)], otherwise := some 2, selected := some (.branch 0),
    active := some 0, mounted := true, disposables := [.effect 2] }

private def written : Stage Unit := { chosen with graph := (chosen.graph.write 0 (.bool false)).enterBatch }

private def passed : Stage Unit := ((runEffect (Calls.upTo (Interpreter.rendering Unit) (8 + 1)) 2).run (popping written [])).2

theorem shows_first_true_of_choosing : ∃ mounted flushing after : Stage Unit, Director.Reached mounted ∧ mounted.nodes[3]? = some (.conditional record) ∧
    ShowsFirst mounted record ∧ Director.Flushing flushing ∧ flushing.graph.queue = [2] ∧ Drives flushing.graph 2 (.branches 3 0 .front) ∧
    (runEffect (Calls.upTo (Interpreter.rendering Unit) (8 + 1)) 2).run (popping flushing []) = (.done (), after) ∧
    ∃ selection looked ran, Pass (Calls.upTo (Interpreter.rendering Unit) 8) 3 0 .front record selection
      (beginning (popping flushing []) 2 (.branches 3 0 .front)) looked ran ∧ after.document = ran.document ∧ after.nodes = ran.nodes := by
  obtain ⟨mounts, found, signal⟩ : ((choosing.perform (Calls.upTo (Interpreter.rendering Unit) 9)).run vacant).1 = .done () ∧
      chosen.nodes[3]? = some (.conditional record) ∧ chosen.graph.content? 0 = some (.signal (.bool true)) := by
    cbv
    exact ⟨rfl, trivial⟩
  have reached : Director.Reached chosen := .perform (.start () _) (run_of_ending mounts)
  have flushing : Director.Flushing written := by
    rw [written]
    exact .write reached signal (.bool false)
  obtain ⟨foundLater, waiting, driver⟩ : written.nodes[3]? = some (.conditional record) ∧ written.graph.queue = [2] ∧
      written.graph.content? 2 = some (.effect ⟨some (.branches 3 0 .front), none, false⟩) := by
    cbv
    exact ⟨rfl, trivial⟩
  have drives : Drives written.graph 2 (.branches 3 0 .front) := ⟨_, driver, rfl, rfl, trivial⟩
  have ran : (runEffect (Calls.upTo (Interpreter.rendering Unit) (8 + 1)) 2).run (popping written []) = (.done (), passed) := by
    rw [passed]
    exact run_of_ending (by cbv)
  have applies {mounted flushing after : Stage Unit} (reached : Director.Reached mounted) (found : mounted.nodes[3]? = some (.conditional record))
      (isFlushing : Director.Flushing flushing) (foundLater : flushing.nodes[3]? = some (.conditional record)) (waiting : flushing.graph.queue = [2])
      (drives : Drives flushing.graph 2 (.branches 3 0 .front))
      (ran : (runEffect (Calls.upTo (Interpreter.rendering Unit) (8 + 1)) 2).run (popping flushing []) = (.done (), after)) :
      ShowsFirst mounted record ∧ ∃ selection looked ran, Pass (Calls.upTo (Interpreter.rendering Unit) 8) 3 0 .front record selection
        (beginning (popping flushing []) 2 (.branches 3 0 .front)) looked ran ∧ after.document = ran.document ∧ after.nodes = ran.nodes := by
    obtain ⟨shows, passes⟩ := @shows_first_true Unit
    obtain ⟨node, isNode, _, pass⟩ := passes flushing isFlushing 2 [] waiting 3 0 .front drives
    cases foundLater.symm.trans isNode
    exact ⟨(shows mounted reached 3 record found rfl).1, pass 8 after ran⟩
  obtain ⟨shows, pass⟩ := applies reached found flushing foundLater waiting drives ran
  exact ⟨chosen, written, passed, reached, found, shows, flushing, waiting, drives, ran, pass⟩

end ReactiveMarkup.Rendering
