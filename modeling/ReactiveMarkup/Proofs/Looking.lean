import ReactiveMarkup.Proofs.Reading
import ReactiveMarkup.Proofs.SteadyEffects

/-! What running a query leaves behind however it ends. A query that breaks off has brought some computed
values up to date, and nothing is being computed that was not before. -/

namespace ReactiveMarkup

open ReactiveMarkup.Graph

/-- Who observes, what waits and which batches are open is no matter for coherence. -/
theorem Graph.Coherent.of_vertices {Code Body : Type} {meaning : Code → Option Query} {graph after : Graph Code Body} (coherent : graph.Coherent meaning)
    (same : after.vertices = graph.vertices) : after.Coherent meaning := by
  obtain ⟨_, _, _, _⟩ := after
  cases same
  exact coherent.of_sameCells (fun _ => .inl rfl) coherent.symmetric fun _ _ _ member => member

/-- Whether a stale value is being computed is no matter for what is up to date. -/
theorem Graph.Coherent.setComputing {Code Body : Type} {meaning : Code → Option Query} {graph : Graph Code Body} (coherent : graph.Coherent meaning)
    {cell : Nat} {computed : Computed Code} (found : graph.content? cell = some (.computed computed)) (stale : computed.stale = true)
    (computing : Bool) : (graph.modifyComputed cell fun computed => { computed with computing }).Coherent meaning := by
  have self : (graph.modifyComputed cell fun computed => { computed with computing }).content? cell =
      some (.computed { computed with computing }) := content?_modifyComputed_self _ _ found
  have others {other : Nat} (apart : other ≠ cell) :
      (graph.modifyComputed cell fun computed => { computed with computing }).content? other = graph.content? other :=
    content?_modifyComputed_of_ne _ _ apart
  refine coherent.of_kept (symmetric_of_same coherent.symmetric (by simp) (by simp)) ⟨fun {id _} old => ?_, fun {id earlier} old => ?_⟩
    (fun id later new => ?_) (fun id later upToDate => ?_) fun id _ source member => by simpa using member
  all_goals by_cases here : id = cell
  · subst here
    cases found.symm.trans old
  · exact (others here).trans old
  · subst here
    cases found.symm.trans old
    exact ⟨_, self, rfl⟩
  · exact ⟨earlier, (others here).trans old, rfl⟩
  · subst here
    cases self.symm.trans new
    exact coherent.meant id computed found
  · exact coherent.meant id later ((others here).symm.trans new)
  · subst here
    rw [self, found]
    constructor <;>
    · rintro ⟨⟩
      cases stale.symm.trans upToDate
  · rw [others here]

namespace Machine

open ReactiveMarkup.Step

variable {host : Host} {meaning : host.Code → Option Query} {calls : Calls host} {before middle after machine : Machine host}

/-- What looking at cells leaves behind, however it ends. -/
structure Looked (meaning : host.Code → Option Query) (before after : Machine host) : Prop where
  frame : after = { before with graph := after.graph }
  coherent : after.graph.Coherent meaning
  size : after.graph.vertices.size = before.graph.vertices.size
  queue : after.graph.queue = before.graph.queue
  depth : after.graph.depth = before.graph.depth
  observer : after.graph.observer = before.graph.observer
  content : ∀ id, after.graph.content? id = before.graph.content? id ∨ Renewed before.graph after.graph id

namespace Looked

theorem refl (coherent : machine.graph.Coherent meaning) : Looked meaning machine machine :=
  ⟨rfl, coherent, rfl, rfl, rfl, rfl, fun _ => .inl rfl⟩

theorem of_evaluated {query : Query} {value : Value} (evaluated : Evaluated meaning query before value after) : Looked meaning before after :=
  ⟨evaluated.frame, evaluated.coherent, evaluated.refreshed.size, evaluated.refreshed.queue, evaluated.refreshed.depth,
    evaluated.refreshed.observer, evaluated.refreshed.content⟩

theorem trans (first : Looked meaning before middle) (second : Looked meaning middle after) : Looked meaning before after := by
  refine ⟨?_, second.coherent, second.size.trans first.size, second.queue.trans first.queue, second.depth.trans first.depth,
    second.observer.trans first.observer, fun id => ?_⟩
  · rw [second.frame, first.frame]
  · obtain same | ⟨computed, value, old, stale, idle, new⟩ := first.content id
    · refine (second.content id).imp (·.trans same) fun ⟨computed, value, old, rest⟩ => ⟨computed, value, same ▸ old, rest⟩
    · refine .inr ⟨computed, value, old, stale, idle, ?_⟩
      obtain same | ⟨_, _, again, staleAgain, _⟩ := second.content id
      · exact same.trans new
      · cases new.symm.trans again
        cases staleAgain

/-- Looking at cells is no matter for effects. -/
theorem content?_effect (looked : Looked meaning before after) {id : Nat} {effect : Effect host.Code (Task host.Code)} :
    after.graph.content? id = some (.effect effect) ↔ before.graph.content? id = some (.effect effect) := by
  obtain same | ⟨_, _, old, _, _, new⟩ := looked.content id
  · rw [same]
  · simp [old, new]

theorem kept (looked : Looked meaning before after) {hosted : Task host.Code → Prop} (fit : before.graph.Fit hosted) :
    before.graph.Kept hosted after.graph := by
  refine .of_contents fit looked.coherent.symmetric looked.size.symm looked.depth looked.observer (by rw [looked.queue]; exact fun _ member => member)
    (fun id effect => looked.content?_effect) fun id value found => ⟨value, ?_⟩
  obtain same | ⟨_, _, old, _⟩ := looked.content id
  · exact same.trans found
  · cases found.symm.trans old

theorem track (coherent : machine.graph.Coherent meaning) (observing : machine.graph.Observing) {cell : Nat}
    (inside : cell < machine.graph.vertices.size) : Looked meaning machine { machine with graph := machine.graph.track cell } :=
  ⟨rfl, coherent.track inside observing, by simp, by simp, by simp, by simp, fun id => .inl (content?_track ..)⟩

/-- A computed value whose code has broken off is as it was. -/
theorem reset {cell : Nat} {computed : Computed host.Code} (found : machine.graph.content? cell = some (.computed computed))
    (stale : computed.stale = true) (waiting : computed.computing = false)
    (looked : Looked meaning { machine with graph := computing machine.graph cell } after) :
    Looked meaning machine { after with
      graph := { after.graph with observer := machine.graph.observer }.modifyComputed cell fun computed => { computed with computing := false } } := by
  have self : after.graph.content? cell = some (.computed { computed with computing := true }) := by
    obtain same | ⟨_, _, again, _, idle, _⟩ := looked.content cell
    · exact same.trans (content?_computing_self found)
    · cases (content?_computing_self found).symm.trans again
      cases idle
  have coherent : Coherent meaning { after.graph with observer := machine.graph.observer } := looked.coherent.of_vertices rfl
  have selfObserved : Graph.content? { after.graph with observer := machine.graph.observer } cell =
      some (.computed { computed with computing := true }) := self
  have restored : ({ after.graph with observer := machine.graph.observer }.modifyComputed cell fun computed =>
      { computed with computing := false }).content? cell = some (.computed { computed with computing := false }) := by
    rw [content?_modifyComputed_self _ _ selfObserved]
  have others {other : Nat} (apart : other ≠ cell) : ({ after.graph with observer := machine.graph.observer }.modifyComputed cell fun computed =>
      { computed with computing := false }).content? other = after.graph.content? other := content?_modifyComputed_of_ne _ _ apart
  refine ⟨?_, coherent.setComputing selfObserved stale false, ?_, looked.queue.trans (queue_track ..),
    looked.depth.trans (depth_track ..), rfl, fun id => ?_⟩
  · rw [looked.frame]
  · have size := looked.size
    simpa [computing] using size
  · by_cases here : id = cell
    · subst here
      rw [restored, found, ← waiting]
      exact .inl rfl
    · refine (looked.content id).imp (fun same => ?_) fun kept => ?_
      · rw [others here, same, content?_computing_of_ne _ here]
      · obtain ⟨other, held, old, rest, idle, new⟩ := kept
        exact ⟨other, held, (content?_computing_of_ne _ here).symm.trans old, rest, idle, (others here).trans new⟩

end Looked

/-- Calls of code that means a query look at cells, however they end. -/
def Looks (meaning : host.Code → Option Query) (calls : Calls host) : Prop :=
  ∀ code query machine, meaning code = some query → machine.graph.Coherent meaning → machine.graph.Observing →
    Leaves (calls.call code []) machine (Looked meaning machine)

section

variable (answers : Answers .any meaning calls) (looks : Looks meaning calls) (coherent : machine.graph.Coherent meaning)
  (observing : machine.graph.Observing)

include answers looks coherent observing

theorem looks_readComputed {cell : Nat} {computed : Computed host.Code} (found : machine.graph.content? cell = some (.computed computed)) :
    Leaves (readComputed calls cell) machine (Looked meaning machine) := by
  have tracked := Looked.track coherent observing (machine.graph.lt_size_of_content? found)
  have foundTracked : (machine.graph.track cell).computed? cell = some computed := by simp [computed?, found]
  obtain ⟨query, means⟩ := coherent.meant cell computed found
  have ready : Ready .any meaning (.read cell .answer) machine := ⟨coherent, observing, .inl trivial⟩
  rw [readComputed, leaves_modifyGraph_bind, leaves_graph?_bind]
  simp only [foundTracked]
  split
  next => exact tracked
  next old =>
    have stale : computed.stale = true := by simpa using old
    split
    next => exact tracked
    next idle =>
      have waiting : computed.computing = false := by simpa using idle
      have readyInside := ready_computing ready found stale means
      have looked := looks computed.code query _ means readyInside.coherent readyInside.observing
      rw [leaves_modifyGraph_bind]
      refine .bind ?_ (fun _ (looked : Looked meaning machine _) => looked) fun value between ran _ => ?_
      · have reset := looked.reset found stale waiting
        rw [← observer_track machine.graph cell] at reset
        exact reset
      · have inner : Ensures .any ((observedBy (some cell) (calls.call computed.code [])).after fun _ machine =>
            { machine with graph := machine.graph.modifyComputed cell fun computed => { computed with computing := false } })
            { machine with graph := (machine.graph.track cell).modifyComputed cell fun computed => { computed with computing := true } }
            fun value between => Looked meaning machine
              { between with graph := between.graph.modifyComputed cell fun computed => { computed with value := some value, stale := false } } := by
          rw [ensures_after, ensures_observedBy]
          refine (answers computed.code query _ means readyInside).mono fun value after evaluated => ?_
          have result := Looked.of_evaluated (evaluated_settled ready found stale waiting means evaluated)
          rw [← observer_track machine.graph cell] at result
          exact result
        exact inner.of_done ran

theorem looks_readCell (cell : Nat) : Leaves (readCell calls cell) machine (Looked meaning machine) := by
  rw [readCell, leaves_graph?_bind]
  split
  next found => exact .track coherent observing (machine.graph.lt_size_of_content? found)
  next found => exact looks_readComputed answers looks coherent observing found
  next => exact .refl coherent

theorem looks_run (query : Query) : Leaves (query.run calls) machine (Looked meaning machine) := by
  induction query generalizing machine with
  | answer => exact .refl coherent
  | read cell next ih =>
    refine .bind (looks_readCell answers looks coherent observing cell) (fun _ looked => looked) fun value between _ looked => ?_
    have observingBetween : between.graph.Observing := fun observer observed => by
      obtain ⟨inside, busy⟩ := observing observer (looked.observer ▸ observed)
      refine ⟨looked.size ▸ inside, fun ⟨computed, found, stale, idle⟩ => ?_⟩
      obtain same | ⟨_, _, _, _, _, new⟩ := looked.content observer
      · exact busy ⟨computed, same ▸ found, stale, idle⟩
      · cases new.symm.trans found
        cases stale
    exact (ih value looked.coherent observingBetween).mono fun _ later => looked.trans later

end

/-- Calls of any depth look at cells if the interpreter runs queries. -/
theorem looks_upTo {interpreter : Interpreter host}
    (interprets : ∀ calls code query, meaning code = some query → interpreter.call calls code [] = query.run calls) (depth : Nat) :
    Looks meaning (Calls.upTo interpreter depth) := by
  induction depth with
  | zero => exact fun _ _ _ _ coherent _ => .refl coherent
  | succ depth ih =>
    intro code query machine means coherent observing
    show Leaves (interpreter.call (Calls.upTo interpreter depth) code []) machine _
    rw [interprets _ code query means]
    exact looks_run (answers_upTo interprets trivial depth) ih coherent observing query

end Machine

end ReactiveMarkup
