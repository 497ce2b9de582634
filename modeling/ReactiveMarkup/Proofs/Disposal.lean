import ReactiveMarkup.Proofs.RecordedRuns

/-! What becomes of effects that end. One that was disposed of never runs again once its run is over, and
reads nothing unless its own body went on reading. One whose creation failed is there all the same: it is
read into as far as its body came, and if it read nothing it never runs again. -/

namespace ReactiveMarkup.Procedure

open ReactiveMarkup.Graph ReactiveMarkup.Step ReactiveMarkup.Machine

variable {Memory : Type} {machine before after later : Machine (Host.procedural Memory)} {id : Nat}

theorem Reached.begun (reached : Reached machine) : Begun machine := fun _ _ _ observed => by
  cases reached.careful.2.2.symm.trans observed

/-- Between procedures no effect is running. -/
theorem Reached.not_underway (reached : Reached machine) (id : Nat) : ¬ Underway id (machine.graph :: machine.world.seen) := by
  rintro ⟨inBatch, _⟩
  exact absurd reached.careful.2.1 (by omega)

/-- A machine that is between procedures is a moment like those that they saw. -/
theorem Reached.chronicle (reached : Reached machine) : Chronicle (machine.graph :: machine.world.seen) :=
  (recorded_observing reached.careful.1 reached.begun).careful.chronicle

theorem Reached.symmetric (reached : Reached machine) {moment : Graph (Procedure Memory) (Task (Procedure Memory))}
    (member : moment ∈ machine.graph :: machine.world.seen) : moment.Symmetric := by
  obtain rfl | member := List.mem_cons.1 member
  · exact reached.careful.1.orderly.fit.symmetric
  · exact reached.careful.1.orderly.calm moment member

/-- After the end of a live effect its body is gone. -/
theorem dropped_of_dispose {depth : Nat} (careful : Careful before) (live : before.graph.IsLive id)
    (ran : (Machine.dispose (Calls.upTo (Interpreter.procedural Memory) depth) id).run before = (.done (), after)) :
    after.graph.IsDisposed id ∧ after.graph.IsVacant id := by
  obtain ⟨effect, found, awake⟩ := live
  have keeps : KeepsRecords (Calls.upTo (Interpreter.procedural Memory) depth) := keepsRecords_upTo depth
  have isEffect := before.graph.effect?_eq_some.2 found
  have retired := recorded_retire careful ⟨effect, found, awake⟩
  have gone : (before.graph.retire id).IsDisposed id := ⟨_, content?_retire_self found, rfl⟩
  rw [Machine.dispose, run_bind_of_done (run_graph? before)] at ran
  simp only [isEffect, awake] at ran
  change (runCleanup _ id >>= fun _ => modifyGraph _ : ProcedureRun Memory Unit).run { before with graph := before.graph.retire id } = _ at ran
  cases cleaned : (runCleanup (Calls.upTo (Interpreter.procedural Memory) depth) id).run { before with graph := before.graph.retire id } with
  | mk ending between =>
    have recorded := ((records_runCleanup keeps retired.careful id).of_run cleaned).1
    obtain ⟨later, foundLater, isGone⟩ := recorded.steady.isDisposed gone
    cases ending with
    | done =>
      rw [run_bind_of_done cleaned] at ran
      cases ran
      exact ⟨⟨_, content?_modifyEffect_self _ _ foundLater, isGone⟩, _, content?_modifyEffect_self _ _ foundLater, rfl⟩
    | panicked cause =>
      rw [run_bind_of_panicked cleaned] at ran
      cases ran
    | exhausted =>
      change Step.bind _ _ _ = _ at ran
      rw [Step.bind, show runCleanup _ id _ = _ from cleaned] at ran
      cases ran

/-- Wherever an effect was disposed of, it waits no more, it reads nothing unless it had control afterwards, and once
no run of it is under way it never has control again, and reads and holds what it did then. Between procedures no
run is under way. A disposal that returns drops the body. -/
theorem disposal_of_reached (reached : Reached machine) (effect : Nat) :
    (∀ newer moment older, machine.graph :: machine.world.seen = newer ++ moment :: older → moment.IsDisposed effect →
      effect ∉ moment.queue ∧
      (¬ Overstays effect (moment :: older) → moment.sources effect = [] ∧ ∀ cell, effect ∉ moment.subscribers cell) ∧
      (¬ Underway effect (moment :: older) → ∀ later ∈ newer, later.observer ≠ some effect ∧ Remains effect moment later)) ∧
    ¬ Underway effect (machine.graph :: machine.world.seen) ∧
    ∀ depth before after, Careful before → before.graph.IsLive effect →
      (Machine.dispose (Calls.upTo (Interpreter.procedural Memory) depth) effect).run before = (.done (), after) →
      after.graph.IsDisposed effect ∧ after.graph.IsVacant effect := by
  refine ⟨fun newer moment older moments disposed => ?_, reached.not_underway effect, fun depth before after => dropped_of_dispose⟩
  have suffix : moment :: older <:+ machine.graph :: machine.world.seen := ⟨newer, moments.symm⟩
  obtain ⟨consistent, _⟩ := reached.chronicle moment older suffix
  refine ⟨fun waits => disposed.not_isLive (consistent.waiting effect waits), fun left => ?_, fun resting later member => ?_⟩
  · have silent : moment.sources effect = [] :=
      (consistent.silent effect disposed).resolve_right fun ⟨earlier, member, rest⟩ => left ⟨earlier, List.mem_cons_of_mem _ member, rest⟩
    exact ⟨silent, (reached.symmetric (suffix.subset List.mem_cons_self)).not_mem_subscribers silent⟩
  · obtain ⟨front, back, rfl⟩ := List.append_of_mem member
    have behind : moment :: older <:+ back ++ moment :: older := List.suffix_append ..
    obtain ⟨consistentLater, running⟩ := reached.chronicle later (back ++ moment :: older) ⟨front, by simp [moments]⟩
    obtain ⟨ended, remains⟩ := consistentLater.ended effect moment older behind disposed resting
    refine ⟨fun observed => ?_, remains⟩
    obtain ⟨content, found, _⟩ := remains.disposed
    obtain ⟨_, ⟨_, live⟩ | ⟨_, underway⟩⟩ := running effect content found observed
    · exact remains.disposed.not_isLive live
    · exact ended underway

/-- An effect of a reading signal is disposed of from outside, and the signal is written. -/
private def forgotten : Procedure Unit :=
  .newSignal (.bool true) fun signal => .newEffect (.get signal .finish) fun effect =>
    .dispose effect (.set signal (.bool false) (.finish .undefined))

private def forgot : Machine (Host.procedural Unit) := ((forgotten.run (Calls.upTo (Interpreter.procedural Unit) 9)).run (Machine.procedural ())).2

theorem disposal_of_reached_forgotten : ∃ (machine : Machine (Host.procedural Unit)) (newer : List (Graph (Procedure Unit) (Task (Procedure Unit))))
    (moment : Graph (Procedure Unit) (Task (Procedure Unit))) (older : List (Graph (Procedure Unit) (Task (Procedure Unit)))),
    Reached machine ∧ machine.graph :: machine.world.seen = newer ++ moment :: older ∧ newer.length = 2 ∧ moment.IsDisposed 1 ∧
      moment.IsVacant 1 ∧ 1 ∉ moment.queue ∧ ∀ later ∈ newer, later.observer ≠ some 1 ∧ Remains 1 moment later := by
  have done : (forgotten.run (Calls.upTo (Interpreter.procedural Unit) 9)).run (Machine.procedural ()) =
      (.done (.undefined, none), forgot) := Step.run_of_ending (by cbv)
  have reached : Reached forgot := .run (.start ()) done
  obtain ⟨moment, older, behind⟩ : ∃ moment older, (forgot.graph :: forgot.world.seen).drop 2 = moment :: older := by
    have filled : ((forgot.graph :: forgot.world.seen).drop 2).isEmpty = false := by cbv
    exact List.exists_cons_of_ne_nil (List.isEmpty_eq_false_iff.1 filled)
  have third : (forgot.graph :: forgot.world.seen)[2]? = some moment := by
    rw [← List.head?_drop, behind]
    rfl
  have moments : forgot.graph :: forgot.world.seen = (forgot.graph :: forgot.world.seen).take 2 ++ moment :: older := by
    rw [← behind, List.take_append_drop]
  have isDisposed : (forgot.graph :: forgot.world.seen)[2]?.map (fun moment => (moment.effect? 1).map Effect.disposed) = some (some true) := by cbv
  have isVacant : (forgot.graph :: forgot.world.seen)[2]?.map (fun moment => (moment.effect? 1).map fun effect => effect.body.isNone) = some (some true) := by cbv
  have closed : (forgot.graph :: forgot.world.seen)[2]?.map Graph.depth = some 0 := by cbv
  rw [third, Option.map_some, Option.some_inj] at isDisposed isVacant closed
  obtain ⟨effect, found, gone⟩ := Option.map_eq_some_iff.1 isDisposed
  obtain ⟨other, again, missing⟩ := Option.map_eq_some_iff.1 isVacant
  have disposed : moment.IsDisposed 1 := ⟨effect, moment.effect?_eq_some.1 found, gone⟩
  obtain ⟨idle, _, resting⟩ := (disposal_of_reached reached 1).1 _ moment older moments disposed
  refine ⟨forgot, _, moment, older, reached, moments, by cbv, disposed, ?_, idle, resting fun engaged => absurd closed (Nat.ne_of_gt engaged.1)⟩
  exact ⟨other, moment.effect?_eq_some.1 again, Option.isNone_iff_eq_none.1 missing⟩

/-- Procedures that run one after the other, however each of them ends, lead from one machine to another. -/
inductive Leads (before : Machine (Host.procedural Memory)) : Machine (Host.procedural Memory) → Prop where
  | here : Leads before before
  | run {between after : Machine (Host.procedural Memory)} {procedure : Procedure Memory} {depth : Nat}
      {ending : Ending (Value × Option (Procedure Memory))} (leads : Leads before between)
      (ran : (procedure.run (Calls.upTo (Interpreter.procedural Memory) depth)).run between = (ending, after)) : Leads before after

/-- An effect that is inert and has no control never has it again. -/
theorem Leads.inert (leads : Leads before after) (careful : Careful before) (begun : Begun before) (apart : before.graph.observer ≠ some id)
    (inert : before.graph.Inert id) : Careful after ∧ Begun after ∧ after.graph.observer ≠ some id ∧ after.graph.Inert id ∧
      after.graph.sources id = before.graph.sources id ∧
      ∃ new, after.world.seen = new ++ before.world.seen ∧ ∀ moment ∈ new, moment.observer ≠ some id := by
  induction leads with
  | here => exact ⟨careful, begun, apart, inert, rfl, [], rfl, nofun⟩
  | @run _ _ procedure depth _ _ ran ih =>
    obtain ⟨carefulBetween, begunBetween, apartBetween, inertBetween, same, new, seen, others⟩ := ih
    obtain ⟨recorded, begunAfter⟩ := (conducts_run (keepsRecords_upTo depth) procedure carefulBetween begunBetween).of_run ran
    obtain ⟨still, sameLater⟩ := recorded.inert id not_false apartBetween inertBetween
    obtain ⟨later, seenLater, within⟩ := recorded.seen
    refine ⟨recorded.careful, begunAfter, recorded.steady.observer ▸ apartBetween, still, sameLater.trans same, later ++ new, ?_, fun moment member => ?_⟩
    · rw [seenLater, seen, List.append_assoc]
    · obtain member | member := List.mem_append.1 member
      · exact ((within moment member).inert id not_false apartBetween inertBetween).2
      · exact others moment member

/-- An effect whose creation panicked is there with its body, and just the cells that it reads list it. If it reads
none and does not wait, no cell ever lists it and it never has control again. -/
theorem creation_failed {depth : Nat} {body : Procedure Memory} {cause : Panic} (careful : Careful machine) (engaged : Engaged machine)
    (failed : (Machine.newEffect (Calls.upTo (Interpreter.procedural Memory) depth) (.host body)).run machine = (.panicked cause, after)) :
    (∃ effect, after.graph.content? machine.graph.vertices.size = some (.effect effect) ∧ (effect.disposed = false → effect.body = some (.host body))) ∧
    (∀ cell, machine.graph.vertices.size ∈ after.graph.subscribers cell ↔ cell ∈ after.graph.sources machine.graph.vertices.size) ∧
    (after.graph.sources machine.graph.vertices.size = [] → machine.graph.vertices.size ∉ after.graph.queue → ∀ later, Leads after later →
      (∀ cell, machine.graph.vertices.size ∉ later.graph.subscribers cell) ∧
        ∃ new, later.world.seen = new ++ after.world.seen ∧ ∀ moment ∈ new, moment.observer ≠ some machine.graph.vertices.size) := by
  have keeps : KeepsRecords (Calls.upTo (Interpreter.procedural Memory) depth) := keepsRecords_upTo depth
  have recorded := (records_newEffect keeps careful body).of_run failed
  have ran : Orders Hosted Calm (Machine.batch _ (runEffect _ machine.graph.vertices.size) >>= fun _ => Pure.pure machine.graph.vertices.size)
      (adding machine body) :=
    .bind (orders_batch keeps.order (orders_runEffect keeps.order (recorded_adding careful body).careful.orderly.enterBatch _))
      fun _ _ ordered => .pure ordered.orderly _
  obtain ⟨effect, foundAfter, kept⟩ := (ran.of_run failed).kept.steady.effects _ _ (content?_adding machine body)
  refine ⟨⟨effect, foundAfter, fun awake => (kept awake).2⟩, fun cell => recorded.careful.orderly.fit.symmetric cell _, fun silent idle later leads => ?_⟩
  have inert : after.graph.Inert machine.graph.vertices.size := by
    refine ⟨idle, ?_⟩
    cases gone : effect.disposed with
    | true => exact .inl ⟨effect, foundAfter, gone⟩
    | false => exact .inr ⟨⟨effect, foundAfter, gone⟩, silent⟩
  have apart : after.graph.observer ≠ some machine.graph.vertices.size := fun observed =>
    Nat.lt_irrefl _ (careful.orderly.fit.observing _ (recorded.steady.observer.symm.trans observed))
  obtain ⟨carefulLater, _, _, _, same, seen⟩ :=
    leads.inert recorded.careful (recorded.engaged careful.orderly.fit engaged).begun apart inert
  exact ⟨carefulLater.orderly.fit.symmetric.not_mem_subscribers (same.trans silent), seen⟩

/-- A signal is there, and an effect is made that looks at it unnoticed and panics. -/
private def signalled : Machine (Host.procedural Unit) :=
  (((Procedure.newSignal (.bool true) fun _ => .finish .undefined).run (Calls.upTo (Interpreter.procedural Unit) 9)).run (Machine.procedural ())).2

private def unborn : Procedure Unit := .peek 0 fun _ => .panic "no effect"

private def bereft : Machine (Host.procedural Unit) :=
  ((Machine.newEffect (Calls.upTo (Interpreter.procedural Unit) 9) (.host unborn)).run signalled).2

theorem creation_failed_unborn : ∃ machine after later : Machine (Host.procedural Unit), Careful machine ∧ Engaged machine ∧
    machine.graph.vertices.size = 1 ∧
    (Machine.newEffect (Calls.upTo (Interpreter.procedural Unit) 9) (.host unborn)).run machine = (.panicked (.host "no effect"), after) ∧
    Leads after later ∧ later.graph.value? 0 = some (.bool false) ∧ (∀ cell, 1 ∉ later.graph.subscribers cell) ∧
    ∃ new, later.world.seen = new ++ after.world.seen ∧ ∀ moment ∈ new, moment.observer ≠ some 1 := by
  have made : ((Procedure.newSignal (.bool true) fun _ => .finish .undefined).run (Calls.upTo (Interpreter.procedural Unit) 9)).run
      (Machine.procedural ()) = (.done (.undefined, none), signalled) := Step.run_of_ending (by cbv)
  have reached : Reached signalled := .run (.start ()) made
  have failed : (Machine.newEffect (Calls.upTo (Interpreter.procedural Unit) 9) (.host unborn)).run signalled =
      (.panicked (.host "no effect"), bereft) := Step.run_of_ending (by cbv)
  have one : signalled.graph.vertices.size = 1 := by cbv
  have engaged : Engaged signalled := fun _ _ _ observed => by cases reached.careful.2.2.symm.trans observed
  have leads : Leads bereft (((Procedure.set 0 (.bool false) (.finish .undefined)).run (Calls.upTo (Interpreter.procedural Unit) 9)).run bereft).2 :=
    .run .here rfl
  have silent : bereft.graph.sources 1 = [] := by cbv
  have idle : bereft.graph.queue = [] := by cbv
  have left := (creation_failed reached.careful.1 engaged failed).2.2
  rw [one] at left
  obtain ⟨unlisted, seen⟩ := left silent (by simp [idle]) _ leads
  exact ⟨signalled, bereft, _, reached.careful.1, engaged, one, failed, leads, by cbv, unlisted, seen⟩

end ReactiveMarkup.Procedure
