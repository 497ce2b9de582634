import ReactiveMarkup.Proofs.Journals

/-! All that procedures do leaves a record: effects run, end and begin, cells are read and written. -/

namespace ReactiveMarkup.Procedure

open ReactiveMarkup.Graph ReactiveMarkup.Step ReactiveMarkup.Machine

variable {Memory : Type} {α β : Type} {calls : Calls (Host.procedural Memory)} {odd dirty : Nat → Prop}
  {machine before middle after : Machine (Host.procedural Memory)} {id : Nat}

/-- The machine in which the body of an effect begins to run. -/
def beginning (machine : Machine (Host.procedural Memory)) (id : Nat) (parts : List Part) : Machine (Host.procedural Memory) :=
  { machine with
    graph := { machine.graph.modifyEffect id fun effect => { effect with body := none } with observer := some id }
    held := parts ++ machine.held }

/-- The machine in which the body of an effect has run and is back. -/
def resting (machine after : Machine (Host.procedural Memory)) (id : Nat) (body : Task (Procedure Memory)) : Machine (Host.procedural Memory) :=
  { after with
    graph := { after.graph with observer := machine.graph.observer }.modifyEffect id fun effect => { effect with body := some body }
    held := machine.held }

section

variable {effect : Effect (Procedure Memory) (Task (Procedure Memory))} {body : Task (Procedure Memory)} {parts : List Part}

theorem begun_beginning (found : machine.graph.content? id = some (.effect effect)) (awake : effect.disposed = false)
    (inBatch : 0 < machine.graph.depth) : Begun (beginning machine id parts) := by
  rintro _ _ _ ⟨⟩
  have taken := machine.graph.content?_modifyEffect_self (fun effect => { effect with body := none }) found
  exact ⟨inBatch, ⟨_, taken, rfl⟩, .inr ⟨_, taken, awake⟩⟩

theorem gentle_taken : Gentle (· = id) dirty machine.graph (machine.graph.modifyEffect id fun effect => { effect with body := none }) :=
  .modifyEffect id (fun _ => rfl) nofun fun _ _ same => same

theorem careful_beginning (careful : Careful machine) (found : machine.graph.content? id = some (.effect effect)) :
    Careful (beginning machine id parts) := by
  have taken : Fit Hosted (machine.graph.modifyEffect id fun effect => { effect with body := none }) := careful.orderly.fit.modifyEffect id _ nofun
  have gentle : Gentle (· = id) (fun _ => False) machine.graph (machine.graph.modifyEffect id fun effect => { effect with body := none }) := gentle_taken
  refine ⟨⟨taken.observe ?_, careful.orderly.calm⟩, (careful.consistent.gentle gentle).congr (fun _ member => member) _ _, careful.chronicle⟩
  rintro _ ⟨⟩
  simpa using machine.graph.lt_size_of_content? found

/-- An effect that ran is as vacant as before, and the others are as the run of its body left them. -/
theorem Recorded.rested (found : machine.graph.content? id = some (.effect effect)) (isBody : effect.body = some body)
    (inBatch : 0 < machine.graph.depth) (recorded : Recorded.plain (beginning machine id parts) after) (begun : Begun after)
    (ordered : machine.Ordered Hosted Calm (resting machine after id body)) :
    Recorded (· = id) (· = id) machine (resting machine after id body) := by
  have taken : Gentle (· = id) (· = id) machine.graph (machine.graph.modifyEffect id fun effect => { effect with body := none }) := gentle_taken
  have foundTaken := machine.graph.content?_modifyEffect_self (fun effect => { effect with body := none }) found
  obtain ⟨last, foundLast, _⟩ := recorded.steady.effects id _ foundTaken
  have foundRested : (resting machine after id body).graph.content? id = some (.effect { last with body := some body }) :=
    content?_modifyEffect_self _ _ foundLast
  have others {other : Nat} (apart : other ≠ id) : (resting machine after id body).graph.content? other = after.graph.content? other :=
    content?_modifyEffect_of_ne _ _ apart
  have sources (other : Nat) : (resting machine after id body).graph.sources other = after.graph.sources other := sources_modifyEffect ..
  have live (other : Nat) : (resting machine after id body).graph.IsLive other ↔ after.graph.IsLive other := by
    by_cases here : other = id
    · subst here
      simp [IsLive, foundRested, foundLast]
    · simp only [IsLive, others here]
  have disposed (other : Nat) : (resting machine after id body).graph.IsDisposed other ↔ after.graph.IsDisposed other := by
    by_cases here : other = id
    · subst here
      simp [IsDisposed, foundRested, foundLast]
    · simp only [IsDisposed, others here]
  have inert {other : Nat} (was : after.graph.Inert other) : (resting machine after id body).graph.Inert other :=
    ⟨was.idle, by simpa only [disposed, live, sources] using was.deaf⟩
  have consistent : Consistent after.world.seen (resting machine after id body).graph := by
    refine ⟨fun other waits => (live other).2 (recorded.careful.consistent.waiting other waits), fun other gone => ?_,
      fun other moment older suffix gone stopped => ?_⟩
    · rw [sources]
      exact recorded.careful.consistent.silent other ((disposed other).1 gone)
    · obtain ⟨ended, remains⟩ := recorded.careful.consistent.ended other moment older suffix gone stopped
      refine ⟨ended, (disposed other).2 remains.disposed, (sources other).trans remains.sources, fun vacant => ?_⟩
      -- The effect itself was running, so it cannot have ended before.
      by_cases here : other = id
      · subst here
        obtain ⟨_, _, underway | awake⟩ := begun other last foundLast recorded.steady.observer
        · exact absurd underway ended
        · exact absurd awake remains.disposed.not_isLive
      · obtain ⟨content, was, missing⟩ := remains.vacant vacant
        exact ⟨content, (others here).trans was, missing⟩
  obtain ⟨new, seen, within⟩ := recorded.seen
  refine ⟨⟨ordered.orderly, consistent, recorded.careful.chronicle⟩, ordered.kept.steady, fun other busy => ?_, fun other vacant => ?_,
    fun _ other apart was => ?_, fun other apart _ was => ?_, new, seen, fun moment member => ?_⟩
  · by_cases here : other = id
    · exact .inr here
    · obtain ⟨computed, isComputed, busy⟩ := busy
      exact taken.computing other ((recorded.computing other ⟨computed, (others here).symm.trans isComputed, busy⟩).resolve_right not_false)
  · obtain ⟨content, was, missing⟩ := recorded.vacant other (taken.vacant other vacant)
    by_cases here : other = id
    · subst here
      obtain ⟨earlier, again, none⟩ := vacant
      cases found.symm.trans again
      cases isBody.symm.trans none
    · exact ⟨content, (others here).trans was, missing⟩
  · obtain ⟨content, again, rest⟩ := recorded.clean inBatch other not_false (taken.clean other apart was)
    exact ⟨content, (others apart).trans again, rest⟩
  · obtain ⟨begins, same⟩ := taken.inert other was
    obtain ⟨still, sameLater⟩ := recorded.inert other not_false (fun same => apart (Option.some.inj same).symm) ⟨begins.idle, begins.deaf⟩
    exact ⟨inert still, (sources other).trans (sameLater.trans same)⟩
  · obtain ⟨depth, vacant, inert⟩ := within moment member
    refine ⟨depth, fun other was => vacant other (taken.vacant other was), fun other apart _ was => ?_⟩
    obtain ⟨begins, _⟩ := taken.inert other was
    exact inert other not_false (fun same => apart (Option.some.inj same).symm) ⟨begins.idle, begins.deaf⟩

end

section

variable (keeps : KeepsRecords calls) (careful : Careful machine)

include keeps careful

theorem records_body {effect : Effect (Procedure Memory) (Task (Procedure Memory))} {body : Task (Procedure Memory)}
    (found : machine.graph.content? id = some (.effect effect)) (awake : effect.disposed = false) (isBody : effect.body = some body)
    (inBatch : 0 < machine.graph.depth) :
    Records (· = id) (· = id) (modifyGraph (·.modifyEffect id fun effect => { effect with body := none }) >>= fun _ =>
      (observedBy (some id) (holding body.parts (calls.perform body))).after fun _ machine =>
        { machine with graph := machine.graph.modifyEffect id fun effect => { effect with body := some body } }) machine := by
  have ordered : machine.Ordered Hosted Calm (resting machine ((calls.perform body).run (beginning machine id body.parts)).2 id body) :=
    orders_body keeps.order careful.orderly found isBody
  obtain ⟨recorded, begun⟩ := keeps.perform body (careful.orderly.fit.bodies id effect body found isBody) _
    (careful_beginning careful found) (begun_beginning found awake inBatch)
  show Recorded (· = id) (· = id) machine (resting machine ((calls.perform body).run (beginning machine id body.parts)).2 id body)
  exact .rested found isBody inBatch recorded begun ordered

theorem records_runEffect (inBatch : 0 < machine.graph.depth) (id : Nat) : Records (· = id) (· = id) (runEffect calls id) machine := by
  refine (leaves_graph?_bind _ machine _).2 ?_
  split
  next => exact .refl careful
  next effect found =>
    split
    next => exact .refl careful
    next awake =>
      have live : machine.graph.IsLive id := ⟨effect, machine.graph.effect?_eq_some.1 found, by simpa using awake⟩
      have released : Recorded (· = id) (· = id) machine { machine with graph := machine.graph.release id } :=
        .gentle careful (.release careful.orderly.fit id) (.release live)
      have liveReleased : (machine.graph.release id).IsLive id := by simpa only [IsLive, content?_release] using live
      have inBatchReleased : 0 < (machine.graph.release id).depth := by rwa [depth_release]
      refine Records.modify released ?_
      refine Leaves.bind (records_runCleanup keeps released.careful id) (fun _ both => both.1.weaken) ?_
      rintro _ between - ⟨cleaned, clean⟩
      refine (leaves_graph?_bind _ between _).2 ?_
      split
      next => exact cleaned.weaken
      next body isBody =>
        obtain ⟨later, foundLater, stored⟩ := Option.bind_eq_some_iff.1 isBody
        replace foundLater := between.graph.effect?_eq_some.1 foundLater
        have stillAwake : later.disposed = false := by
          obtain ⟨content, again, _, dropped⟩ := clean liveReleased inBatchReleased
          cases foundLater.symm.trans again
          cases gone : later.disposed with
          | false => rfl
          | true => cases (dropped gone).symm.trans stored
        rw [← LawfulMonad.bind_assoc]
        have ran := Records.bind (records_body keeps cleaned.careful foundLater stillAwake stored (cleaned.steady.depth ▸ inBatchReleased))
          fun cleanup _ recorded => (records_settleCleanup keeps recorded.careful id cleanup).mono fun _ settled => settled.mono (fun _ => False.elim) fun _ same => same
        exact Leaves.mono ran fun _ recorded => cleaned.weaken.trans recorded

omit keeps in
/-- An effect is taken from the queue. -/
theorem recorded_pop {rest : List Nat} (fewer : rest ⊆ machine.graph.queue) :
    Recorded odd dirty machine { machine with graph := { machine.graph with queue := rest } } := by
  have fit := careful.orderly.fit
  have steady := Steady.refl machine.graph
  exact ⟨⟨⟨⟨fit.symmetric, fit.observing, fit.bodies⟩, careful.orderly.calm⟩, careful.consistent.congr fewer _ _, careful.chronicle⟩,
    ⟨steady.size, steady.depth, steady.observer, steady.effects, steady.created, steady.signals⟩, fun _ => .inl, fun _ was => was,
    fun _ _ _ was => was, fun _ _ _ was => ⟨⟨fun waits => was.idle (fewer waits), was.deaf⟩, rfl⟩, [], rfl, nofun⟩

/-- Running what waits is about what waits, which is not inert. -/
theorem records_drain (inBatch : 0 < machine.graph.depth) (bound : Nat) :
    Records (fun _ => False) (fun _ => True) (drain calls bound) machine := by
  induction bound generalizing machine with
  | zero => exact .refl careful
  | succ bound ih =>
    rw [drain, Records, leaves_graph?_bind]
    cases waiting : machine.graph.queue with
    | nil =>
      rw [pop?, waiting]
      exact .refl careful
    | cons id rest =>
      rw [pop?, waiting]
      dsimp only
      rw [leaves_modifyGraph_bind]
      have waits : id ∈ machine.graph.queue := waiting ▸ List.mem_cons_self
      have popped : Recorded (· = id) (· = id) machine { machine with graph := { machine.graph with queue := rest } } :=
        recorded_pop careful (waiting ▸ List.subset_cons_self id rest)
      obtain ⟨effect, found, _⟩ := careful.consistent.waiting id waits
      have first : Leaves (runEffect calls id) { machine with graph := { machine.graph with queue := rest } }
          (Recorded (fun _ => False) (fun _ => True) machine) := by
        refine (records_runEffect keeps popped.careful inBatch id).mono fun after ran => ?_
        refine ((popped.trans ran).close ?_ ?_).mono (fun _ => False.elim) fun _ _ => trivial
        · rintro _ rfl
          exact (popped.trans ran).steady.not_isComputing found
        · rintro _ rfl inert
          exact inert.idle waits
      refine first.bind (fun _ recorded => recorded) fun _ between _ recorded => ?_
      exact (ih recorded.careful (recorded.steady.depth ▸ inBatch)).mono fun _ later => recorded.trans later

theorem records_flush (bound : Nat) : Records.plain (flush calls bound) machine := by
  refine (leaves_graph?_bind _ machine _).2 ?_
  split
  next => exact .refl careful
  next closed =>
    have drained := records_drain keeps careful.enterBatch (Nat.succ_pos _) bound
    exact (leaves_withBatch ..).2 ((Recorded.batched drained _).neat fun inBatch => absurd inBatch closed)

omit careful in
theorem records_batch {step : ProcedureRun Memory α} (records : Records odd dirty step { machine with graph := machine.graph.enterBatch }) :
    Records odd dirty (Machine.batch calls step) machine := by
  have batched : Records odd dirty (withBatch step) machine := (leaves_withBatch ..).2 (Recorded.batched records _)
  exact batched.bind fun _ _ recorded => .bind (keeps.flush _ recorded.careful).weaken fun _ _ recorded => .pure recorded.careful _

omit keeps careful in
/-- The machine in which an effect has been made, which has not run yet. -/
def adding (machine : Machine (Host.procedural Memory)) (body : Procedure Memory) : Machine (Host.procedural Memory) :=
  { machine with graph := (machine.graph.add (.effect ⟨some (.host body), none, false⟩)).2 }

omit keeps careful in
theorem content?_adding (machine : Machine (Host.procedural Memory)) (body : Procedure Memory) :
    (adding machine body).graph.content? machine.graph.vertices.size = some (.effect ⟨some (.host body), none, false⟩) := by
  rw [adding, content?_add, if_pos rfl]

omit keeps in
theorem kept_adding (body : Procedure Memory) : machine.graph.Kept Hosted (adding machine body).graph := by
  refine .add careful.orderly.fit _ fun effect same => ?_
  cases same
  exact ⟨_, rfl, body, rfl⟩

omit keeps in
theorem recorded_adding (body : Procedure Memory) : Recorded.plain machine (adding machine body) := by
  refine .gentle careful (kept_adding careful body) (.add _ (fun effect same => ?_) nofun)
  cases same
  rfl

theorem records_newEffect (body : Procedure Memory) : Records.plain (Machine.newEffect calls (.host body)) machine := by
  have added := recorded_adding careful body
  have fresh {content : Content (Procedure Memory) (Task (Procedure Memory))} (was : machine.graph.content? machine.graph.vertices.size = some content) :
      False := Nat.lt_irrefl _ (machine.graph.lt_size_of_content? was)
  have ran : Leaves (Machine.batch calls (runEffect calls machine.graph.vertices.size)) (adding machine body) (Recorded.plain machine) := by
    refine (records_batch keeps (records_runEffect keeps added.careful.enterBatch (Nat.succ_pos _) _)).mono fun after batched => ?_
    refine ((added.weaken.trans batched).close ?_ ?_).neat ?_
    · rintro _ rfl
      exact batched.steady.not_isComputing (content?_adding machine body)
    · rintro _ rfl inert
      obtain ⟨effect, was⟩ := inert.exists_effect
      exact fresh was
    · rintro _ _ rfl ⟨effect, was, _⟩
      exact (fresh was).elim
  show Leaves (Machine.batch calls (runEffect calls machine.graph.vertices.size) >>= fun _ => Pure.pure machine.graph.vertices.size)
    (adding machine body) (Recorded.plain machine)
  exact ran.bind (fun _ recorded => recorded) fun _ _ _ recorded => recorded

omit keeps careful in
theorem run_dispose_of_not_isLive (dead : ¬ machine.graph.IsLive id) : (Machine.dispose calls id).run machine = (.done (), machine) := by
  rw [Machine.dispose, run_bind_of_done (run_graph? machine)]
  cases found : machine.graph.effect? id with
  | none => rfl
  | some effect =>
    have gone : effect.disposed = true := by
      cases awake : effect.disposed with
      | true => rfl
      | false => exact absurd ⟨effect, machine.graph.effect?_eq_some.1 found, awake⟩ dead
    simp only [gone, if_true]
    rfl

omit keeps careful in
/-- The end of an effect that leaves nothing to clean up runs no code. -/
theorem run_dispose_of_isClean (live : machine.graph.IsLive id) (clean : machine.graph.IsClean id) : (Machine.dispose calls id).run machine =
    (.done (), { machine with graph := (machine.graph.retire id).modifyEffect id fun effect => { effect with body := none } }) := by
  obtain ⟨effect, found, awake⟩ := live
  obtain ⟨other, again, none, _⟩ := clean
  cases found.symm.trans again
  have isEffect := machine.graph.effect?_eq_some.2 found
  have retired := (machine.graph.retire id).effect?_eq_some.2 (content?_retire_self found)
  rw [Machine.dispose, run_bind_of_done (run_graph? machine)]
  simp only [isEffect, awake]
  show ((runCleanup calls id >>= fun _ => modifyGraph _ : ProcedureRun Memory Unit)).run { machine with graph := machine.graph.retire id } = _
  have cleaned : (runCleanup calls id).run { machine with graph := machine.graph.retire id } = (.done (), { machine with graph := machine.graph.retire id }) := by
    rw [runCleanup, run_bind_of_done (run_graph? _)]
    simp only [retired, Option.bind_some, none]
    rfl
  rw [run_bind_of_done cleaned]
  rfl

theorem records_dispose (id : Nat) : Records.plain (Machine.dispose calls id) machine := by
  have ended : Records (fun _ => False) (· = id) (Machine.dispose calls id) machine := by
    refine (leaves_graph?_bind _ machine _).2 ?_
    split
    next => exact .refl careful
    next effect found =>
      split
      next => exact .refl careful
      next awake =>
        have live : machine.graph.IsLive id := ⟨effect, machine.graph.effect?_eq_some.1 found, by simpa using awake⟩
        have retired := recorded_retire careful live
        have gone : (machine.graph.retire id).IsDisposed id := ⟨_, content?_retire_self (machine.graph.effect?_eq_some.1 found), rfl⟩
        have cleaned : Records (fun _ => False) (· = id) (runCleanup calls id) { machine with graph := machine.graph.retire id } :=
          (records_runCleanup keeps retired.careful id).mono fun _ both => both.1.weaken
        refine Records.modify retired (Records.bind cleaned fun _ between recorded => ?_)
        have dead := (recorded.steady.isDisposed gone).not_isLive
        refine Recorded.gentle recorded.careful (.modifyEffect recorded.careful.orderly.fit id _ (fun later foundLater awake => ?_) nofun)
          (.modifyEffect id (fun _ => rfl) nofun fun _ _ same => same)
        exact absurd ⟨later, foundLater, awake⟩ dead
  have recorded : Recorded (fun _ => False) (· = id) machine ((Machine.dispose calls id).run machine).2 := ended
  refine recorded.neat ?_
  rintro _ other rfl clean
  by_cases live : machine.graph.IsLive other
  · rw [run_dispose_of_isClean live clean]
    obtain ⟨effect, found, none, _⟩ := clean
    exact ⟨_, content?_modifyEffect_self _ _ (content?_retire_self found), none, fun _ => rfl⟩
  · rw [run_dispose_of_not_isLive live]
    exact clean

omit keeps in
/-- An observer that has been seen reads a member. -/
theorem recorded_track (engaged : Engaged machine) (member : machine.graph ∈ machine.world.seen) {source : Nat}
    (inside : source < machine.graph.vertices.size) : Recorded odd dirty machine { machine with graph := machine.graph.track source } := by
  have kept := Kept.track careful.orderly.fit inside
  refine ⟨⟨⟨kept.fit, careful.orderly.calm⟩, careful.consistent.track member (fun id effect found observed => (engaged id effect found observed).2.2) source,
    careful.chronicle⟩, kept.steady, fun id busy => .inl ?_, fun id vacant => ?_, fun _ id _ clean => ?_, fun id _ apart inert => ?_, [], rfl, nofun⟩
  · simpa only [IsComputing, content?_track] using busy
  · simpa only [IsVacant, content?_track] using vacant
  · simpa only [IsClean, content?_track] using clean
  · have same : (machine.graph.track source).sources id = machine.graph.sources id := sources_track_of_ne machine.graph apart
    refine ⟨⟨by rw [queue_track]; exact inert.idle, ?_⟩, same⟩
    simpa only [IsDisposed, IsLive, content?_track, same] using inert.deaf

omit keeps careful in
/-- The machine in which the code of a computed value begins to run. -/
def computing (machine : Machine (Host.procedural Memory)) (cell : Nat) : Machine (Host.procedural Memory) :=
  { machine with
    graph := { machine.graph.modifyComputed cell fun computed => { computed with computing := true } with observer := some cell } }

omit keeps in
theorem recorded_busy (cell : Nat) : Recorded (· = cell) (fun _ => False) machine
    { machine with graph := machine.graph.modifyComputed cell fun computed => { computed with computing := true } } :=
  .gentle careful (.modifyComputed careful.orderly.fit cell fun computed => { computed with computing := true }) (.modifyComputed cell fun _ _ => .inr rfl)

omit keeps in
theorem careful_computing {cell : Nat} {computed : Computed (Procedure Memory)} (found : machine.graph.content? cell = some (.computed computed)) :
    Careful (computing machine cell) :=
  (recorded_busy careful cell).careful.observe (some cell) fun id same => by
    cases same
    simpa using machine.graph.lt_size_of_content? found

omit keeps careful in
theorem begun_computing {cell : Nat} {computed : Computed (Procedure Memory)} (found : machine.graph.content? cell = some (.computed computed)) :
    Begun (computing machine cell) := by
  rintro _ effect isEffect ⟨⟩
  have isCell : (computing machine cell).graph.content? cell = some (.computed { computed with computing := true }) :=
    content?_modifyComputed_self machine.graph _ found
  cases isCell.symm.trans isEffect

/-- A computed value is computed. -/
theorem records_compute {cell : Nat} {computed : Computed (Procedure Memory)} (found : machine.graph.content? cell = some (.computed computed)) :
    Leaves (modifyGraph (·.modifyComputed cell fun computed => { computed with computing := true }) >>= fun _ =>
      (observedBy (some cell) (calls.call computed.code [])).after fun _ machine =>
        { machine with graph := machine.graph.modifyComputed cell fun computed => { computed with computing := false } }) machine
      fun after => Recorded (· = cell) (fun _ => False) machine after ∧ ¬ after.graph.IsComputing cell := by
  have busy := recorded_busy careful cell
  have called : Records (· = cell) (fun _ => False) (observedBy (some cell) (calls.call computed.code []))
      { machine with graph := machine.graph.modifyComputed cell fun computed => { computed with computing := true } } := by
    refine .observed busy.careful (fun id same usual => absurd (Option.some.inj same).symm usual) ?_
    exact (keeps.call computed.code [] _ (careful_computing careful found) (begun_computing found)).weaken
  refine (leaves_modifyGraph_bind _ _ machine _).2 ((leaves_after ..).2 ?_)
  have ran := busy.trans called
  have rested : Recorded (· = cell) (fun _ => False) _ _ := .gentle ran.careful
    (.modifyComputed ran.careful.orderly.fit cell fun computed => { computed with computing := false }) (.modifyComputed cell fun _ => nofun)
  exact ⟨ran.trans rested, not_isComputing_modifyComputed fun _ => rfl⟩

theorem records_readComputed (engaged : Engaged machine) (member : machine.graph ∈ machine.world.seen) {cell : Nat}
    (inside : cell < machine.graph.vertices.size) : Records.plain (readComputed calls cell) machine := by
  have tracked : Recorded.plain machine _ := recorded_track careful engaged member inside
  refine Records.modify tracked ((leaves_graph?_bind _ _ _).2 ?_)
  split
  next => exact .refl tracked.careful
  next computed found =>
    split
    next => exact .refl tracked.careful
    split
    next => exact .refl tracked.careful
    have isComputed := (machine.graph.track cell).computed?_eq_some.1 found
    have alert : ∀ id, id = cell → ¬ (machine.graph.track cell).Inert id := by
      rintro _ rfl inert
      obtain ⟨effect, isEffect⟩ := inert.exists_effect
      cases isComputed.symm.trans isEffect
    rw [← LawfulMonad.bind_assoc]
    have ran := (records_compute keeps tracked.careful isComputed).mono fun after ⟨recorded, still⟩ =>
      show Recorded.plain { machine with graph := machine.graph.track cell } after from
        recorded.close (fun id same => same ▸ still) alert
    refine Leaves.bind ran (fun _ recorded => recorded) fun value between _ recorded => ?_
    have renewed : Recorded.plain between _ := .gentle recorded.careful
      (.modifyComputed recorded.careful.orderly.fit cell fun computed => { computed with value := some value, stale := false })
      (.modifyComputed cell fun _ busy => .inl busy)
    exact recorded.trans renewed

theorem records_readCell (engaged : Engaged machine) (member : machine.graph ∈ machine.world.seen) (cell : Nat) :
    Records.plain (readCell calls cell) machine := by
  refine (leaves_graph?_bind _ machine _).2 ?_
  split
  next found => exact recorded_track careful engaged member (machine.graph.lt_size_of_content? found)
  next found => exact records_readComputed keeps careful engaged member (machine.graph.lt_size_of_content? found)
  next => exact .refl careful

theorem records_updateSignal {cell : Nat} {held : Value} (signal : machine.graph.content? cell = some (.signal held)) (value : Value) :
    Records.plain (updateSignal calls cell value) machine := by
  have written : Recorded.plain machine { machine with graph := machine.graph.write cell value } :=
    .gentle careful (.write careful.orderly.fit signal value) (.write careful.orderly.fit.symmetric signal value)
  exact (keeps.flush _ written.careful).mono fun _ flushed => written.trans flushed

theorem records_writeSignal {cell : Nat} {held : Value} (signal : machine.graph.content? cell = some (.signal held)) (value : Value) :
    Records.plain (writeSignal calls cell value) machine := by
  show Records.plain (if ((machine.graph.value? cell).getD .undefined).same value then Pure.pure () else updateSignal calls cell value) machine
  split
  next => exact .pure careful _
  next => exact records_updateSignal keeps careful signal value

omit keeps in
theorem records_add {content : Content (Procedure Memory) (Task (Procedure Memory))} (cell : ∀ effect, content ≠ .effect effect)
    (still : ∀ computed, content = .computed computed → computed.computing = false) : Records.plain (addToGraph content) machine :=
  .gentle careful (.add careful.orderly.fit content fun effect same => absurd same (cell effect))
    (.add content (fun effect same => absurd same (cell effect)) still)

omit keeps in
theorem records_onSignal {cell : Nat} {act : ProcedureRun Memory Unit}
    (acting : ∀ held, machine.graph.content? cell = some (.signal held) → Records.plain act machine) : Records.plain (onSignal cell act) machine := by
  refine (leaves_graph?_bind _ machine _).2 ?_
  split
  next held signal => exact acting held signal
  next => exact .refl careful

end

/-! Procedures. -/

/-- A step that leaves a record, and control with whom it was. -/
def Conducts (step : ProcedureRun Memory α) (machine : Machine (Host.procedural Memory)) : Prop :=
  Leaves step machine fun after => Recorded.plain machine after ∧ Begun after

theorem Conducts.bind {step : ProcedureRun Memory α} {next : α → ProcedureRun Memory β} (careful : Careful machine) (engaged : Engaged machine)
    (first : Records.plain step machine) (rest : ∀ value between, Careful between → Begun between → Conducts (next value) between) :
    Conducts (step >>= next) machine := by
  have engages {between : Machine (Host.procedural Memory)} (recorded : Recorded.plain machine between) : Begun between :=
    (recorded.engaged careful.orderly.fit engaged).begun
  refine Leaves.bind first (fun _ recorded => ⟨recorded, engages recorded⟩) fun value between _ recorded => ?_
  exact (rest value between recorded.careful (engages recorded)).mono fun _ later => ⟨recorded.trans later.1, later.2⟩

/-- The machine in which a procedure has taken control. -/
def observing (machine : Machine (Host.procedural Memory)) : Machine (Host.procedural Memory) :=
  { machine with world := { machine.world with seen := machine.graph :: machine.world.seen } }

theorem engaged_observing (begun : Begun machine) : Engaged (observing machine) := by
  intro id effect found observed
  obtain ⟨inBatch, vacant, underway | live⟩ := begun id effect found observed
  · exact ⟨inBatch, vacant, inBatch, .inr ⟨vacant, underway⟩⟩
  · exact ⟨inBatch, vacant, inBatch, .inl ⟨observed, live⟩⟩

theorem recorded_observing (careful : Careful machine) (begun : Begun machine) : Recorded.plain machine (observing machine) := by
  obtain ⟨waiting, silent, ended⟩ := careful.consistent
  have calm : Calm (observing machine).document (observing machine).world := by
    intro graph member
    obtain rfl | member := List.mem_cons.1 member
    · exact careful.orderly.fit.symmetric
    · exact careful.orderly.calm graph member
  have chronicle : Chronicle (observing machine).world.seen := by
    intro moment older suffix
    obtain same | suffix := List.suffix_cons_iff.1 suffix
    · obtain ⟨rfl, rfl⟩ := List.cons.inj same
      exact ⟨careful.consistent, fun id effect found observed => (engaged_observing begun id effect found observed).2.2⟩
    · exact careful.chronicle moment older suffix
  have consistent : Consistent (observing machine).world.seen machine.graph := by
    refine ⟨waiting, fun id gone => (silent id gone).imp_right (·.cons machine.graph), fun id moment older suffix gone stopped => ?_⟩
    obtain same | suffix := List.suffix_cons_iff.1 suffix
    · obtain ⟨rfl, rfl⟩ := List.cons.inj same
      exact ⟨stopped, gone, rfl, fun vacant => vacant⟩
    · obtain ⟨resting, remains⟩ := ended id moment older suffix gone stopped
      refine ⟨?_, remains⟩
      rintro ⟨_, ⟨_, live⟩ | ⟨_, underway⟩⟩
      · exact remains.disposed.not_isLive live
      · exact resting underway
  refine ⟨⟨⟨careful.orderly.fit, calm⟩, consistent, chronicle⟩, .refl _, fun _ => .inl, fun _ was => was, fun _ _ _ was => was,
    fun _ _ _ was => ⟨was, rfl⟩, [machine.graph], rfl, fun moment member => ?_⟩
  obtain rfl := List.mem_singleton.1 member
  exact ⟨fun inBatch => inBatch, fun _ was => was, fun _ _ apart was => ⟨was, apart⟩⟩

/-- A procedure takes control and goes on. -/
theorem conducts_observe (careful : Careful machine) (begun : Begun machine) {next : ProcedureRun Memory β}
    (rest : Careful (observing machine) → Engaged (observing machine) → Conducts next (observing machine)) :
    Conducts (observe >>= fun _ => next) machine := by
  have observed := recorded_observing careful begun
  have rested := rest observed.careful (engaged_observing begun)
  exact ⟨observed.trans rested.1, rested.2⟩

/-- The memory is no matter. -/
theorem recorded_memory (careful : Careful machine) (memory : Memory) :
    Recorded.plain machine { machine with world := { machine.world with memory } } :=
  ⟨⟨⟨careful.orderly.fit, careful.orderly.calm⟩, careful.consistent, careful.chronicle⟩, .refl _, fun _ => .inl, fun _ was => was,
    fun _ _ _ was => was, fun _ _ _ was => ⟨was, rfl⟩, [], rfl, nofun⟩

theorem conducts_run (keeps : KeepsRecords calls) (procedure : Procedure Memory) (careful : Careful machine) (begun : Begun machine) :
    Conducts (procedure.run calls) machine := by
  induction procedure generalizing machine with
  | finish | leave | panic => exact conducts_observe careful begun fun careful engaged => ⟨.refl careful, engaged.begun⟩
  | newSignal value next ih =>
    refine conducts_observe careful begun fun careful engaged => ?_
    exact .bind careful engaged (records_add careful nofun nofun) fun id _ => ih id
  | newComputed body next _ ih =>
    refine conducts_observe careful begun fun careful engaged => ?_
    exact .bind careful engaged (records_add careful nofun fun computed same => by cases same; rfl) fun id _ => ih id
  | newEffect body next _ ih =>
    refine conducts_observe careful begun fun careful engaged => ?_
    exact .bind careful engaged (records_newEffect keeps careful body) fun id _ => ih id
  | get cell next ih =>
    refine conducts_observe careful begun fun careful engaged => ?_
    exact .bind careful engaged (records_readCell keeps careful engaged List.mem_cons_self cell) fun value _ => ih value
  | peek cell next ih => exact conducts_observe careful begun fun careful engaged => ih _ careful engaged.begun
  | set cell value next ih =>
    refine conducts_observe careful begun fun careful engaged => .bind careful engaged (records_onSignal careful fun held signal => ?_) fun _ _ => ih
    exact records_writeSignal keeps careful signal value
  | update cell value next ih =>
    refine conducts_observe careful begun fun careful engaged => .bind careful engaged (records_onSignal careful fun held signal => ?_) fun _ _ => ih
    exact records_updateSignal keeps careful signal value
  | batch body next ihBody ih =>
    refine conducts_observe careful begun fun careful engaged => .bind careful engaged (records_batch keeps ?_) fun result _ => ih result.1
    exact (ihBody careful.enterBatch engaged.begun.enterBatch).mono fun _ both => both.1
  | untrack body next ihBody ih =>
    refine conducts_observe careful begun fun careful engaged => .bind careful engaged (.observed careful nofun ?_) fun result _ => ih result.1
    exact (ihBody (careful.observe none nofun) nofun).mono fun _ both => both.1
  | attempt body next ihBody ih =>
    refine conducts_observe careful begun fun careful engaged => .bind careful engaged ?_ fun result _ => ih (result.map Prod.fst)
    exact (leaves_caught ..).2 ((ihBody careful engaged.begun).mono fun _ both => both.1)
  | dispose effect next ih =>
    refine conducts_observe careful begun fun careful engaged => ?_
    exact .bind careful engaged (records_dispose keeps careful effect) fun _ _ => ih
  | remember access next ih =>
    refine conducts_observe careful begun fun careful engaged => ?_
    have remembered := recorded_memory careful (access machine.world.memory).2
    have rested := ih (access machine.world.memory).1 remembered.careful engaged.begun
    exact ⟨remembered.trans rested.1, rested.2⟩

theorem keepsRecords_upTo (depth : Nat) : KeepsRecords (Calls.upTo (Interpreter.procedural Memory) depth) := by
  induction depth with
  | zero =>
    exact ⟨keepsOrder_upTo 0, fun _ _ _ careful _ => .refl careful, fun _ _ careful begun => ⟨.refl careful, begun⟩,
      fun _ _ _ careful begun => ⟨.refl careful, begun⟩, fun _ careful => .refl careful⟩
  | succ depth ih =>
    have runs (code : Procedure Memory) (machine : Machine (Host.procedural Memory)) (careful : Careful machine) (begun : Begun machine) :=
      conducts_run ih code careful begun
    refine ⟨keepsOrder_upTo (depth + 1), fun code _ machine careful begun => ?_, fun code machine careful begun => ?_, ?_,
      fun _ careful => records_flush ih careful depth⟩
    · exact (leaves_map ..).2 ((runs code machine careful begun).mono fun _ both => both.1)
    · exact (leaves_map ..).2 (runs code machine careful begun)
    · rintro _ ⟨code, rfl⟩ machine careful begun
      exact ih.react code machine careful begun

/-- Between procedures, code that takes control finds all as the moments tell, and nobody observes. -/
theorem Reached.careful (reached : Reached machine) : Careful machine ∧ machine.graph.depth = 0 ∧ machine.graph.observer = none := by
  induction reached with
  | start memory =>
    have none (id : Nat) : (Machine.procedural memory).graph.content? id = Option.none := by simp [Machine.procedural, content?]
    refine ⟨⟨(Reached.start memory).orderly, ⟨by simp [Machine.procedural], fun id gone => ?_, fun id moment older suffix => ?_⟩, fun moment older suffix => ?_⟩, rfl, rfl⟩
    · obtain ⟨effect, found, _⟩ := gone
      cases (none id).symm.trans found
    · cases List.suffix_nil.1 suffix
    · cases List.suffix_nil.1 suffix
  | @run before after procedure depth _ _ ran ih =>
    obtain ⟨careful, closed, unobserved⟩ := ih
    have begun : Begun before := fun id effect _ observed => by cases unobserved.symm.trans observed
    have recorded := ((conducts_run (keepsRecords_upTo depth) procedure careful begun).of_run ran).1
    exact ⟨recorded.careful, recorded.steady.depth.trans closed, recorded.steady.observer.trans unobserved⟩

end ReactiveMarkup.Procedure
