import ReactiveMarkup.Proofs.PanicRecovery
import ReactiveMarkup.Proofs.RecordedRuns

/-! The scheduler after panics. Whatever a panic has broken off, once it has left the outermost step nothing
is under way: no batch is open, nobody observes, nothing waits and nothing is being computed. -/

namespace ReactiveMarkup

namespace Graph

variable {Code Body : Type} {graph : Graph Code Body}

/-- Nothing is under way, and every live effect has its body. -/
structure Quiet (graph : Graph Code Body) : Prop where
  closed : graph.depth = 0
  unobserved : graph.observer = none
  idle : graph.queue = []
  still : ∀ id, ¬ graph.IsComputing id
  bodied : ∀ id effect, graph.content? id = some (.effect effect) → effect.disposed = false → effect.body.isSome

theorem queue_leaveBatch_panicking (outermost : graph.depth = 1) : (graph.leaveBatch true).queue = [] := by
  simp [leaveBatch, outermost]

theorem queue_leaveBatch_of_empty (empty : graph.queue = []) (panicking : Bool) : (graph.leaveBatch panicking).queue = [] := by
  rw [leaveBatch]
  dsimp only
  split
  · rfl
  · exact empty

end Graph

namespace Machine

open ReactiveMarkup.Step

variable {host : Host} {calls : Calls host} {machine after : Machine host}

/-- Running what waits comes to its end when nothing waits any more. -/
theorem queue_of_drain {bound : Nat} (ran : (drain calls bound).run machine = (.done (), after)) : after.graph.queue = [] := by
  obtain ⟨_, drained⟩ := drained_of_drain ran nofun
  clear ran
  generalize same : Ending.done () = ending at drained
  induction drained with
  | empty idle => exact idle
  | next _ _ _ ih => exact ih same
  | panicked => cases same

theorem run_withBatch {α : Type} (step : Run host α) (machine : Machine host) : (withBatch step).run machine =
    ((step.run { machine with graph := machine.graph.enterBatch }).1,
      { (step.run { machine with graph := machine.graph.enterBatch }).2 with
        graph := (step.run { machine with graph := machine.graph.enterBatch }).2.graph.leaveBatch
          (step.run { machine with graph := machine.graph.enterBatch }).1.isPanic }) := rfl

end Machine

namespace Procedure

open ReactiveMarkup.Graph ReactiveMarkup.Step ReactiveMarkup.Machine

variable {Memory : Type} {α β : Type} {calls : Calls (Host.procedural Memory)} {odd dirty : Nat → Prop}
  {machine before after : Machine (Host.procedural Memory)}

/-- Outside of batches, a step after which nothing waits, unless it was cut short. -/
def Empties (step : ProcedureRun Memory α) (machine : Machine (Host.procedural Memory)) : Prop :=
  machine.graph.depth = 0 → (step.run machine).1 ≠ .exhausted → (step.run machine).2.graph.queue = []

/-- Outside of batches, a step that leaves nothing waiting if nothing waited before. -/
def Settles (step : ProcedureRun Memory α) (machine : Machine (Host.procedural Memory)) : Prop :=
  machine.graph.queue = [] → Empties step machine

theorem Empties.settles {step : ProcedureRun Memory α} (empties : Empties step machine) : Settles step machine := fun _ => empties

/-- A step that keeps the queue. -/
theorem Settles.of_queue {step : ProcedureRun Memory α} (same : (step.run machine).2.graph.queue = machine.graph.queue) : Settles step machine :=
  fun empty _ _ => same.trans empty

theorem Settles.bind {step : ProcedureRun Memory α} {next : α → ProcedureRun Memory β} (records : Records odd dirty step machine)
    (first : Settles step machine) (rest : ∀ value between, step.run machine = (.done value, between) → Settles (next value) between) :
    Settles (step >>= next) machine := by
  intro empty closed
  have settled := first empty closed
  cases ran : step.run machine with
  | mk ending between =>
    rw [ran] at settled
    have recorded := Leaves.of_run records ran
    show (Step.bind step next machine).1 ≠ _ → (Step.bind step next machine).2.graph.queue = []
    rw [Step.bind, show step machine = _ from ran]
    cases ending with
    | done value => exact rest value between ran (settled (by simp)) (recorded.steady.depth.trans closed)
    | panicked cause => exact fun _ => settled (by simp)
    | exhausted => exact fun never => absurd rfl never

theorem Empties.map {step : ProcedureRun Memory α} (empties : Empties step machine) (f : α → β) :
    Empties (step >>= fun value => Pure.pure (f value)) machine := by
  intro closed
  have emptied := empties closed
  show (Step.bind step _ machine).1 ≠ _ → (Step.bind step _ machine).2.graph.queue = []
  rw [Step.bind]
  cases ran : step machine with
  | mk ending between =>
    rw [show step.run machine = _ from ran] at emptied
    cases ending with
    | done value => exact fun _ => emptied (by simp)
    | panicked cause => exact fun _ => emptied (by simp)
    | exhausted => exact fun never => absurd rfl never

theorem Settles.modify {f : Graph (Procedure Memory) (Task (Procedure Memory)) → Graph (Procedure Memory) (Task (Procedure Memory))}
    {next : Unit → ProcedureRun Memory β} (queue : machine.graph.queue = [] → (f machine.graph).queue = []) (depth : (f machine.graph).depth = machine.graph.depth)
    (rest : Settles (next ()) { machine with graph := f machine.graph }) : Settles (modifyGraph f >>= next) machine :=
  fun empty closed => rest (queue empty) (depth.trans closed)

theorem settles_graph? {next : Graph (Procedure Memory) (Task (Procedure Memory)) → ProcedureRun Memory β} :
    Settles (graph? >>= next) machine ↔ Settles (next machine.graph) machine := Iff.rfl

theorem Settles.observed {observer : Option Nat} {step : ProcedureRun Memory α}
    (settles : Settles step { machine with graph := { machine.graph with observer } }) : Settles (observedBy observer step) machine := settles

theorem settles_caught {step : ProcedureRun Memory α} (settles : Settles step machine) : Settles step.caught machine := by
  intro empty closed
  have settled := settles empty closed
  show (Step.caught step machine).1 ≠ _ → (Step.caught step machine).2.graph.queue = []
  rw [Step.caught]
  cases ran : step machine with
  | mk ending between =>
    rw [show step.run machine = _ from ran] at settled
    cases ending with
    | done | panicked => exact fun _ => settled (by simp)
    | exhausted => exact fun never => absurd rfl never

/-- Calls that leave nothing waiting. -/
structure SettlesCalls (calls : Calls (Host.procedural Memory)) : Prop where
  records : KeepsRecords calls
  call : ∀ code arguments machine, Careful machine → Begun machine → Settles (calls.call code arguments) machine
  flush : ∀ machine, Careful machine → Empties calls.flush machine

section

variable (settles : SettlesCalls calls) (careful : Careful machine)

include settles careful

theorem empties_flush (bound : Nat) : Empties (flush calls bound) machine := by
  intro closed ended
  have drained := records_drain settles.records careful.enterBatch (Nat.succ_pos _) bound
  rw [run_flush closed] at ended ⊢
  cases ran : (drain calls bound).run { machine with graph := machine.graph.enterBatch } with
  | mk ending last =>
    have depth : last.graph.depth = 1 := by
      rw [(Leaves.of_run drained ran).steady.depth]
      show machine.graph.depth + 1 = 1
      rw [closed]
    rw [ran] at ended
    cases ending with
    | done => exact queue_leaveBatch_of_empty (queue_of_drain ran) _
    | panicked cause => exact queue_leaveBatch_panicking depth
    | exhausted => exact absurd rfl ended

omit careful in
theorem empties_batch {step : ProcedureRun Memory α} (records : Records odd dirty step { machine with graph := machine.graph.enterBatch }) :
    Empties (Machine.batch calls step) machine := by
  intro closed
  cases inner : step.run { machine with graph := machine.graph.enterBatch } with
  | mk ending last =>
    have recorded := Leaves.of_run records inner
    have depth : last.graph.depth = 1 := by
      rw [recorded.steady.depth]
      show machine.graph.depth + 1 = 1
      rw [closed]
    have left : (withBatch step).run machine = (ending, { last with graph := last.graph.leaveBatch ending.isPanic }) := by rw [run_withBatch, inner]
    cases ending with
    | done value =>
      have careful := (Recorded.batched recorded false).careful
      rw [Machine.batch, run_bind_of_done left]
      refine (settles.flush _ careful).map (fun _ => value) ?_
      show (last.graph.leaveBatch false).depth = 0
      simp [depth]
    | panicked cause =>
      rw [Machine.batch, run_bind_of_panicked left]
      exact fun _ => queue_leaveBatch_panicking depth
    | exhausted =>
      intro ended
      refine absurd ?_ ended
      show (Step.bind (withBatch step) _ machine).1 = _
      rw [Step.bind, show withBatch step machine = _ from left]

theorem empties_newEffect (body : Procedure Memory) : Empties (Machine.newEffect calls (.host body)) machine := by
  have added := recorded_adding careful body
  have emptied := (empties_batch settles (records_runEffect settles.records added.careful.enterBatch (Nat.succ_pos _) machine.graph.vertices.size)).map
    fun _ => machine.graph.vertices.size
  exact fun closed => emptied (added.steady.depth.trans closed)

theorem settles_untracked_call (code : Procedure Memory) : Settles (Functor.discard (Machine.untrack (calls.call code []))) machine := by
  have called := settles.call code [] _ (careful.observe none nofun) nofun
  have recorded : Records.plain (observedBy none (calls.call code [])) machine :=
    .observed careful nofun (settles.records.call code [] _ (careful.observe none nofun) nofun)
  exact .bind recorded (.observed called) fun _ _ _ => .of_queue rfl

theorem settles_runCleanup (id : Nat) : Settles (runCleanup calls id) machine := by
  refine settles_graph?.2 ?_
  split
  next => exact .of_queue rfl
  next code _ =>
    exact .modify (fun empty => empty) rfl (settles_untracked_call settles (recorded_forgetCleanup careful id).careful code)

theorem settles_dispose (id : Nat) : Settles (Machine.dispose calls id) machine := by
  refine settles_graph?.2 ?_
  split
  next => exact .of_queue rfl
  next effect found =>
    split
    next => exact .of_queue rfl
    next awake =>
      have live : machine.graph.IsLive id := ⟨effect, machine.graph.effect?_eq_some.1 found, by simpa using awake⟩
      have retired := recorded_retire careful live
      refine .modify (fun empty => ?_) (depth_release ..) ?_
      · show (machine.graph.retire id).queue = []
        rw [queue_retire, empty]
        rfl
      · have cleaned : Records.plain (runCleanup calls id) { machine with graph := machine.graph.retire id } :=
          (records_runCleanup settles.records retired.careful id).mono fun _ => And.left
        exact .bind cleaned (settles_runCleanup settles retired.careful id) fun _ _ _ => .of_queue rfl

theorem settles_readComputed (engaged : Engaged machine) (member : machine.graph ∈ machine.world.seen) {cell : Nat}
    (inside : cell < machine.graph.vertices.size) : Settles (readComputed calls cell) machine := by
  have tracked : Recorded.plain machine _ := recorded_track careful engaged member inside
  refine .modify (fun empty => (queue_track ..).trans empty) (depth_track ..) (settles_graph?.2 ?_)
  split
  next => exact .of_queue rfl
  next computed found =>
    split
    next => exact .of_queue rfl
    split
    next => exact .of_queue rfl
    have isComputed := (machine.graph.track cell).computed?_eq_some.1 found
    have computes : Settles (modifyGraph (·.modifyComputed cell fun computed => { computed with computing := true }) >>= fun _ =>
        (observedBy (some cell) (calls.call computed.code [])).after fun _ machine =>
          { machine with graph := machine.graph.modifyComputed cell fun computed => { computed with computing := false } })
        { machine with graph := machine.graph.track cell } :=
      settles.call computed.code [] (computing { machine with graph := machine.graph.track cell } cell)
        (careful_computing tracked.careful isComputed) (begun_computing isComputed)
    have recorded : Records (· = cell) (fun _ => False) _ { machine with graph := machine.graph.track cell } :=
      (records_compute settles.records tracked.careful isComputed).mono fun _ => And.left
    rw [← LawfulMonad.bind_assoc]
    exact .bind recorded computes fun _ _ _ => .of_queue rfl

theorem settles_readCell (engaged : Engaged machine) (member : machine.graph ∈ machine.world.seen) (cell : Nat) :
    Settles (readCell calls cell) machine := by
  refine settles_graph?.2 ?_
  split
  next => exact .of_queue (queue_track ..)
  next found => exact settles_readComputed settles careful engaged member (machine.graph.lt_size_of_content? found)
  next => exact .of_queue rfl

theorem settles_updateSignal {cell : Nat} {held : Value} (signal : machine.graph.content? cell = some (.signal held)) (value : Value) :
    Settles (updateSignal calls cell value) machine := by
  have written : Recorded.plain machine { machine with graph := machine.graph.write cell value } :=
    .gentle careful (.write careful.orderly.fit signal value) (.write careful.orderly.fit.symmetric signal value)
  exact fun _ closed => settles.flush { machine with graph := machine.graph.write cell value } written.careful (written.steady.depth.trans closed)

theorem settles_writeSignal {cell : Nat} {held : Value} (signal : machine.graph.content? cell = some (.signal held)) (value : Value) :
    Settles (writeSignal calls cell value) machine := by
  show Settles (if ((machine.graph.value? cell).getD .undefined).same value then Pure.pure () else updateSignal calls cell value) machine
  split
  next => exact .of_queue rfl
  next => exact settles_updateSignal settles careful signal value

omit settles careful in
theorem settles_onSignal {cell : Nat} {act : ProcedureRun Memory Unit}
    (acting : ∀ held, machine.graph.content? cell = some (.signal held) → Settles act machine) : Settles (onSignal cell act) machine := by
  refine settles_graph?.2 ?_
  split
  next held signal => exact acting held signal
  next => exact .of_queue rfl

end

/-! Procedures. -/

/-- A step of a procedure, and the rest of it. -/
theorem Settles.proceed {step : ProcedureRun Memory α} {next : α → ProcedureRun Memory β} (careful : Careful machine) (engaged : Engaged machine)
    (records : Records.plain step machine) (first : Settles step machine)
    (rest : ∀ value between, Careful between → Begun between → Settles (next value) between) : Settles (step >>= next) machine :=
  .bind records first fun value between ran => by
    have recorded := Leaves.of_run records ran
    exact rest value between recorded.careful (recorded.engaged careful.orderly.fit engaged).begun

theorem settles_observe (careful : Careful machine) (begun : Begun machine) {next : ProcedureRun Memory β}
    (rest : Careful (observing machine) → Engaged (observing machine) → Settles next (observing machine)) :
    Settles (observe >>= fun _ => next) machine :=
  rest (recorded_observing careful begun).careful (engaged_observing begun)

theorem settles_run (settles : SettlesCalls calls) (procedure : Procedure Memory) (careful : Careful machine) (begun : Begun machine) :
    Settles (procedure.run calls) machine := by
  have keeps := settles.records
  induction procedure generalizing machine with
  | finish | leave | panic => exact settles_observe careful begun fun _ _ => .of_queue rfl
  | newSignal value next ih =>
    refine settles_observe careful begun fun careful engaged => ?_
    exact .proceed careful engaged (records_add careful nofun nofun) (.of_queue rfl) fun id _ => ih id
  | newComputed body next _ ih =>
    refine settles_observe careful begun fun careful engaged => ?_
    exact .proceed careful engaged (records_add careful nofun fun computed same => by cases same; rfl) (.of_queue rfl) fun id _ => ih id
  | newEffect body next _ ih =>
    refine settles_observe careful begun fun careful engaged => ?_
    exact .proceed careful engaged (records_newEffect keeps careful body) (empties_newEffect settles careful body).settles fun id _ => ih id
  | get cell next ih =>
    refine settles_observe careful begun fun careful engaged => ?_
    exact .proceed careful engaged (records_readCell keeps careful engaged List.mem_cons_self cell)
      (settles_readCell settles careful engaged List.mem_cons_self cell) fun value _ => ih value
  | peek cell next ih => exact settles_observe careful begun fun careful engaged => ih _ careful engaged.begun
  | set cell value next ih =>
    refine settles_observe careful begun fun careful engaged => ?_
    exact .proceed careful engaged (records_onSignal careful fun held signal => records_writeSignal keeps careful signal value)
      (settles_onSignal fun held signal => settles_writeSignal settles careful signal value) fun _ _ => ih
  | update cell value next ih =>
    refine settles_observe careful begun fun careful engaged => ?_
    exact .proceed careful engaged (records_onSignal careful fun held signal => records_updateSignal keeps careful signal value)
      (settles_onSignal fun held signal => settles_updateSignal settles careful signal value) fun _ _ => ih
  | batch body next _ ih =>
    refine settles_observe careful begun fun careful engaged => ?_
    have records := (conducts_run keeps body careful.enterBatch engaged.begun.enterBatch).mono fun _ both => both.1
    exact .proceed careful engaged (records_batch keeps records) (empties_batch settles records).settles fun result _ => ih result.1
  | untrack body next ihBody ih =>
    refine settles_observe careful begun fun careful engaged => ?_
    have inner := (conducts_run keeps body (careful.observe none nofun) nofun).mono fun _ both => both.1
    exact .proceed careful engaged (.observed careful nofun inner) (.observed (ihBody (careful.observe none nofun) nofun)) fun result _ => ih result.1
  | attempt body next ihBody ih =>
    refine settles_observe careful begun fun careful engaged => ?_
    have records := (conducts_run keeps body careful engaged.begun).mono fun _ both => both.1
    exact .proceed careful engaged ((leaves_caught ..).2 records) (settles_caught (ihBody careful engaged.begun))
      fun result _ => ih (result.map Prod.fst)
  | dispose effect next ih =>
    refine settles_observe careful begun fun careful engaged => ?_
    exact .proceed careful engaged (records_dispose keeps careful effect) (settles_dispose settles careful effect) fun _ _ => ih
  | remember access next ih =>
    refine settles_observe careful begun fun careful engaged => ?_
    have rest : Settles ((next (access machine.world.memory).1).run calls)
        { observing machine with world := { (observing machine).world with memory := (access machine.world.memory).2 } } :=
      ih _ ⟨⟨careful.orderly.fit, careful.orderly.calm⟩, careful.consistent, careful.chronicle⟩ engaged.begun
    exact rest

theorem settlesCalls_upTo (depth : Nat) : SettlesCalls (Calls.upTo (Interpreter.procedural Memory) depth) := by
  induction depth with
  | zero => exact ⟨keepsRecords_upTo 0, fun _ _ _ _ _ => .of_queue rfl, fun _ _ _ never => absurd rfl never⟩
  | succ depth ih =>
    refine ⟨keepsRecords_upTo (depth + 1), fun code _ machine careful begun => ?_, fun _ careful => empties_flush ih careful depth⟩
    have records := (conducts_run ih.records code careful begun).mono fun _ both => both.1
    show Settles (Prod.fst <$> code.run _) machine
    rw [map_eq_pure_bind]
    exact .bind records (settles_run ih code careful begun) fun _ _ _ => .of_queue rfl

/-- The machines that procedures lead to, run one after the other from outside, each to its end or to a panic. -/
inductive Survived : Machine (Host.procedural Memory) → Prop where
  | start (memory : Memory) : Survived (Machine.procedural memory)
  | run {before after : Machine (Host.procedural Memory)} {procedure : Procedure Memory} {depth : Nat}
      {ending : Ending (Value × Option (Procedure Memory))} (survived : Survived before)
      (ran : (procedure.run (Calls.upTo (Interpreter.procedural Memory) depth)).run before = (ending, after)) (ended : ending ≠ .exhausted) :
      Survived after

theorem Survived.reached (survived : Survived machine) : Reached machine := by
  induction survived with
  | start memory => exact .start memory
  | run _ ran _ ih => exact .run ih ran

/-- Between procedures nothing is under way. -/
theorem Survived.quiet (survived : Survived machine) : machine.graph.Quiet := by
  induction survived with
  | start memory =>
    have none (id : Nat) : (Machine.procedural memory).graph.content? id = Option.none := by simp [Machine.procedural, content?]
    refine ⟨rfl, rfl, rfl, ?_, ?_⟩
    · rintro id ⟨_, found, _⟩
      cases (none id).symm.trans found
    · intro id _ found
      cases (none id).symm.trans found
  | @run before after procedure depth ending survived ran ended ih =>
    obtain ⟨careful, closed, unobserved⟩ := survived.reached.careful
    have begun : Begun before := fun _ _ _ observed => by cases unobserved.symm.trans observed
    have recorded := ((conducts_run (keepsRecords_upTo depth) procedure careful begun).of_run ran).1
    have settled := settles_run (settlesCalls_upTo depth) procedure careful begun ih.idle closed
    rw [ran] at settled
    exact ⟨recorded.steady.depth.trans closed, recorded.steady.observer.trans unobserved, settled ended,
      fun id busy => ih.still id ((recorded.computing id busy).resolve_right not_false), recorded.steady.bodied ih.bodied⟩

/-- A procedure that panics out to the outside leaves nothing under way, whatever the panic has crossed. -/
theorem quiet_of_panicked {procedure : Procedure Memory} {depth : Nat} {cause : Panic} (survived : Survived before)
    (panicked : (procedure.run (Calls.upTo (Interpreter.procedural Memory) depth)).run before = (.panicked cause, after)) : after.graph.Quiet :=
  (survived.run panicked nofun).quiet

/-- An effect with a cleanup reads a signal by way of a computed value, and a write lets the computed value panic in a batch
within the effect. -/
private def fragile : Procedure Unit :=
  .newSignal (.bool true) fun signal =>
    .newComputed (.batch (.get signal fun value => if value.isTruthy then .finish value else .panic "no value") .finish) fun computed =>
      .newEffect (.batch (.get computed fun _ => .finish .undefined) fun _ => .leave (.finish .undefined)) fun _ => .finish .undefined

private def built : Machine (Host.procedural Unit) := ((fragile.run (Calls.upTo (Interpreter.procedural Unit) 9)).run (Machine.procedural ())).2

private def broken : Machine (Host.procedural Unit) :=
  (((Procedure.set 0 (.bool false) (.finish .undefined)).run (Calls.upTo (Interpreter.procedural Unit) 9)).run built).2

theorem quiet_of_panicked_fragile : ∃ before after : Machine (Host.procedural Unit), Survived before ∧ before.graph.sources 2 = [1] ∧
    ((Procedure.set 0 (.bool false) (.finish .undefined)).run (Calls.upTo (Interpreter.procedural Unit) 9)).run before =
      (.panicked (.host "no value"), after) ∧ after.graph.Quiet := by
  have made : (fragile.run (Calls.upTo (Interpreter.procedural Unit) 9)).run (Machine.procedural ()) = (.done (.undefined, none), built) :=
    Step.run_of_ending (by cbv)
  have panics : ((Procedure.set 0 (.bool false) (.finish .undefined)).run (Calls.upTo (Interpreter.procedural Unit) 9)).run built =
      (.panicked (.host "no value"), broken) := Step.run_of_ending (by cbv)
  have survived : Survived built := .run (.start ()) made (by simp)
  exact ⟨built, broken, survived, by cbv, panics, quiet_of_panicked survived panics⟩

end Procedure

end ReactiveMarkup
