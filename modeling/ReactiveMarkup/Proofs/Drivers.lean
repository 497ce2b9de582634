import ReactiveMarkup.Proofs.ReaderSteps

/-! Machines that are driven from outside while computed values and effects do nothing but read. Whatever
is done to them, the notes on what is up to date, and on effects that do not wait, stay right. -/

namespace ReactiveMarkup

/-- Code that works with the runtime from outside. Computed values and effects do nothing but read. -/
inductive Driver where
  | finish
  | newSignal (value : Value) (next : Nat → Driver)
  | newComputed (query : Query) (next : Nat → Driver)
  | newEffect (query : Query) (next : Nat → Driver)
  | get (cell : Nat) (next : Value → Driver)
  | peek (cell : Nat) (next : Value → Driver)
  | set (cell : Nat) (value : Value) (next : Driver)
  | update (cell : Nat) (value : Value) (next : Driver)
  | batch (body next : Driver)
  | untrack (body next : Driver)
  | dispose (effect : Nat) (next : Driver)

namespace Driver

/-- Does something to a cell that has to be a signal. -/
def onSignal (cell : Nat) (act : Run Host.readers Unit) : Run Host.readers Unit := do
  match (← Machine.graph?).content? cell with
  | some (.signal _) => act
  | _ => Step.panic (.host "not a signal")

def run (calls : Calls Host.readers) : Driver → Run Host.readers Unit
  | .finish => return
  | .newSignal value next => do (next (← Machine.newSignal value)).run calls
  | .newComputed query next => do (next (← Machine.newComputed query)).run calls
  | .newEffect query next => do (next (← Machine.newEffect calls (.host query))).run calls
  | .get cell next => do (next (← Machine.readCell calls cell)).run calls
  | .peek cell next => do (next (← Machine.peek cell)).run calls
  | .set cell value next => do
    onSignal cell (Machine.writeSignal calls cell value)
    next.run calls
  | .update cell value next => do
    onSignal cell (Machine.updateSignal calls cell value)
    next.run calls
  | .batch body next => do
    Machine.batch calls (body.run calls)
    next.run calls
  | .untrack body next => do
    Machine.untrack (body.run calls)
    next.run calls
  | .dispose effect next => do
    Machine.dispose calls effect
    next.run calls

/-- The machines that drivers lead to, run one after the other, none of which breaks off. -/
inductive Reached : Machine Host.readers → Prop where
  | start : Reached Machine.readers
  | run {before after : Machine Host.readers} {driver : Driver} {depth : Nat} (reached : Reached before)
      (done : (driver.run (Calls.upTo Interpreter.readers depth)).run before = (.done (), after)) : Reached after

end Driver

namespace Machine

open ReactiveMarkup.Graph ReactiveMarkup.Step

variable {before after machine : Machine Host.readers}

theorem lucid_add (lucid : machine.Lucid) (content : Content Query (Task Query))
    (stale : ∀ computed, content = .computed computed → computed.stale = true) :
    Lucid { machine with graph := (machine.graph.add content).2 } := by
  have old {id : Nat} (inside : id ≠ machine.graph.vertices.size) :
      (machine.graph.add content).2.content? id = machine.graph.content? id := by rw [content?_add, if_neg inside]
  refine ⟨lucid.coherent.add content fun computed same => ⟨stale computed same, _, rfl⟩, fun id computed found fresh => ?_, fun id idle => ?_⟩
  · have inside : id ≠ machine.graph.vertices.size := by
      rintro rfl
      rw [content?_add, if_pos rfl] at found
      rw [stale computed (Option.some.inj found)] at fresh
      cases fresh
    refine (lucid.faithful id computed ((old inside).symm.trans found) fresh).mono (fun _ _ _ => current?_add content) rfl fun source => ?_
    rw [sources_add]
  · show (machine.graph.add content).2.sources id = []
    rw [sources_add]
    by_cases inside : id = machine.graph.vertices.size
    · simp [sources, inside]
    · obtain ⟨computed, found, rest⟩ := idle
      exact lucid.bare id ⟨computed, (old inside).symm.trans found, rest⟩

theorem sane_add (sane : Sane machine) (content : Content Query (Task Query))
    (stale : ∀ computed, content = .computed computed → computed.stale = true ∧ computed.computing = false)
    (hosted : ∀ effect, content = .effect effect → effect.cleanup = none ∧ effect.disposed = false ∧ ∃ query, effect.body = some (.host query)) :
    Sane { machine with graph := (machine.graph.add content).2 } := by
  have split {id : Nat} {found : Content Query (Task Query)} (here : (machine.graph.add content).2.content? id = some found) :
      found = content ∨ machine.graph.content? id = some found := by
    rw [content?_add] at here
    split at here
    · exact .inl (Option.some.inj here).symm
    · exact .inr here
  refine ⟨lucid_add sane.lucid content fun computed same => (stale computed same).1, ⟨.nil, fun id => iff_of_false List.not_mem_nil ?_⟩, sane.alone,
    fun id effect found => ?_, fun id effect found gone => ?_, sane.once, fun id member => ?_⟩
  · rintro ⟨computed, found, computing⟩
    obtain rfl | old := split found
    · rw [(stale computed rfl).2] at computing
      cases computing
    · exact List.not_mem_nil ((sane.idle.mem id).2 ⟨computed, old, computing⟩)
  · obtain rfl | old := split found
    · obtain ⟨cleanup, _, body⟩ := hosted effect rfl
      exact ⟨cleanup, fun _ => body⟩
    · exact sane.effects id effect old
  · show (machine.graph.add content).2.sources id = []
    rw [sources_add]
    obtain rfl | old := split found
    · rw [(hosted effect rfl).2.1] at gone
      cases gone
    · exact sane.spent id effect old gone
  · obtain ⟨effect, found, awake⟩ := sane.live id member
    have inside := machine.graph.lt_size_of_content? found
    exact ⟨effect, by rw [content?_add, if_neg (by omega), found], awake⟩

/-- What has right notes still has them when there is a new member. -/
theorem Faithful.add {id : Nat} {query : Query} (faithful : machine.Faithful id query) (content : Content Query (Task Query)) :
    Faithful { machine with graph := (machine.graph.add content).2 } id query :=
  faithful.mono (fun _ _ _ => current?_add content) rfl fun source => by rw [sources_add]

section

variable {graph : Graph Query (Task Query)} {id : Nat} {effect : Effect Query (Task Query)}

theorem tidy_ended (tidy : Tidy machine) (found : machine.graph.content? id = some (.effect effect)) :
    Tidy { machine with graph := ended machine.graph id } := by
  have self := content?_ended_self found
  have same : SameCells machine.graph (ended machine.graph id) := sameCells_of_ne found self fun _ => content?_ended_of_ne
  have old {other : Nat} {later : Effect Query (Task Query)} (again : (ended machine.graph id).content? other = some (.effect later))
      (awake : later.disposed = false) : other ≠ id := by
    rintro rfl
    cases self.symm.trans again
    cases awake
  refine ⟨⟨tidy.lucid.of_sameCells same (symmetric_ended tidy.lucid.coherent.symmetric) (fun other computed isComputed => ?_) fun _ _ _ => rfl,
    ⟨.nil, fun other => iff_of_false List.not_mem_nil ?_⟩, (observer_release ..).trans tidy.alone, fun other later again => ?_, fun other later again gone => ?_, ?_,
    fun other member => ?_⟩, fun other query hosts => ?_, fun closed => ?_⟩
  · refine (sources_ended other).trans (if_neg ?_)
    rintro rfl
    cases found.symm.trans isComputed
  · rintro ⟨computed, again, computing⟩
    exact List.not_mem_nil ((tidy.idle.mem other).2 ⟨computed, (same.content?_iff (by simp)).1 again, computing⟩)
  · by_cases here : other = id
    · subst here
      cases self.symm.trans again
      exact ⟨(tidy.effects other effect found).1, fun awake => by cases awake⟩
    · exact tidy.effects other later ((content?_ended_of_ne here).symm.trans again)
  · refine (sources_ended other).trans ?_
    split
    · rfl
    next apart => exact tidy.spent other later ((content?_ended_of_ne apart).symm.trans again) gone
  · rw [queue_ended]
    exact tidy.once.filter _
  · rw [queue_ended, List.mem_filter] at member
    exact (isLive_ended found).2 ⟨tidy.live other member.1, by simpa using member.2⟩
  · obtain ⟨later, again, awake, body⟩ := hosts
    have apart := old again awake
    refine (tidy.watched other query ⟨later, (content?_ended_of_ne apart).symm.trans again, awake, body⟩).imp (fun waits => ?_) fun faithful => ?_
    · rw [queue_ended]
      exact List.mem_filter.2 ⟨waits, by simpa using apart⟩
    · exact faithful.mono (fun cell _ _ holds => (same.current? cell).trans holds) rfl fun source => by rw [sources_ended, if_neg apart]
  · have empty := tidy.rested (depth_ended.symm.trans closed)
    rw [queue_ended, empty]
    rfl

end

/-- Effects other than a new member have right notes if they had before. -/
theorem watched_add (watched : machine.AllWatched) (content : Content Query (Task Query)) {id : Nat} {query : Query}
    (old : id ≠ machine.graph.vertices.size) (hosts : Hosts (machine.graph.add content).2 id query) :
    id ∈ machine.graph.queue ∨ Faithful { machine with graph := (machine.graph.add content).2 } id query := by
  obtain ⟨effect, found, rest⟩ := hosts
  rw [content?_add, if_neg old] at found
  exact (watched id query ⟨effect, found, rest⟩).imp_right (·.add content)

/-- A new signal or computed value. -/
theorem tidy_add (tidy : Tidy machine) (content : Content Query (Task Query))
    (stale : ∀ computed, content = .computed computed → computed.stale = true ∧ computed.computing = false)
    (cell : ∀ effect, content ≠ .effect effect) : Tidy { machine with graph := (machine.graph.add content).2 } := by
  refine ⟨sane_add tidy.toSane content stale fun effect same => absurd same (cell effect), fun id query hosts => ?_, tidy.rested⟩
  refine watched_add tidy.watched content ?_ hosts
  rintro rfl
  obtain ⟨effect, found, _⟩ := hosts
  rw [content?_add, if_pos rfl] at found
  exact cell effect (Option.some.inj found)

theorem Tidy.of_vertices (tidy : Tidy machine) {graph : Graph Query (Task Query)} (same : graph.vertices = machine.graph.vertices)
    (alone : graph.observer = none) (queue : graph.queue = machine.graph.queue) (closed : graph.depth = 0 → machine.graph.depth = 0) :
    Tidy { machine with graph } :=
  ⟨tidy.toSane.of_vertices same alone queue, tidy.watched.of_vertices same fun _ => (queue ▸ ·), fun outside => queue.trans (tidy.rested (closed outside))⟩

theorem Tidy.enterBatch (tidy : Tidy machine) : Tidy { machine with graph := machine.graph.enterBatch } :=
  tidy.of_vertices rfl tidy.alone rfl fun closed => absurd closed (Nat.succ_ne_zero _)

/-- Reads that nobody observes. -/
theorem Freshened.stirred (freshened : Freshened before after) (alone : before.graph.observer = none) : Stirred [] before after := by
  obtain ⟨new, runs, once, renewed⟩ := freshened.runs
  refine ⟨freshened.graph.size, freshened.graph.depth, freshened.graph.observer, freshened.lucid, fun _ member => absurd member List.not_mem_nil,
    freshened.graph.content, fun id _ kept => freshened.graph.sources id kept ?_, fun id _ => freshened.notes id, new, runs, once,
    List.nil_subset _, fun id member => .inr (renewed id member)⟩
  rw [alone]
  exact Option.some_ne_none _ ∘ Eq.symm

theorem Stirred.tidy (stirred : Stirred [] before after) (queue : after.graph.queue = before.graph.queue) (tidy : Tidy before) : Tidy after := by
  refine ⟨stirred.sane tidy.toSane (queue ▸ List.Sublist.refl _), ?_, fun closed => ?_⟩
  · exact stirred.watched (fun id query _ hosts => (tidy.watched id query hosts).imp_left (queue ▸ ·)) fun _ _ member => absurd member List.not_mem_nil
  · rw [queue, tidy.rested (stirred.depth.symm.trans closed)]

theorem Flushed.depth (flushed : Flushed before after) : after.graph.depth = before.graph.depth := by
  obtain outside | inBatch := Nat.eq_zero_or_pos before.graph.depth
  · exact (flushed.stirred outside).depth
  · rw [flushed.still inBatch]

/-- Code may be read for nobody whenever no other code is running. -/
theorem Sane.prepared (sane : Sane machine) (query : Query) : Prepared True [] query machine :=
  ⟨sane.lucid, fun _ observed => (by rw [sane.alone] at observed; cases observed), fun _ observed => (by rw [sane.alone] at observed; cases observed),
    sane.idle, .inl trivial⟩

end Machine

namespace Reader

open ReactiveMarkup.Graph ReactiveMarkup.Step ReactiveMarkup.Machine

variable {machine : Machine Host.readers} {depth : Nat} {calls : Calls Host.readers}

/-- Reading a cell for nobody brings computed values up to date and does nothing else. -/
theorem ensures_get (watches : CallsWatch True depth calls) (sane : Sane machine) (cell : Nat) :
    Ensures ⟨True, depth < machine.graph.vertices.size⟩ (readCell calls cell) machine fun value after =>
      (Stirred [] machine after ∧ after.graph.queue = machine.graph.queue) ∧ after.graph.current? cell = some value := by
  refine (ensures_traceCell watches (sane.prepared (.read cell .answer))).mono fun value after traced => ?_
  refine ⟨⟨traced.freshened.stirred sane.alone, traced.freshened.graph.queue⟩, ?_⟩
  exact traced.path.current? List.mem_cons_self

section

variable (flushes : Flushes depth calls)

include flushes

/-- A write tells all that the signal feeds, and then those that wait run. -/
theorem ensures_updateSignal (tidy : Tidy machine) {cell : Nat} {held : Value} (signal : machine.graph.content? cell = some (.signal held))
    (value : Value) : Ensures ⟨True, depth < machine.graph.vertices.size + 3⟩ (updateSignal calls cell value) machine fun _ after =>
      Flushed { machine with graph := machine.graph.write cell value } after := by
  simp only [updateSignal, changed, ensures_bind, ensures_modifyGraph]
  rw [← size_write tidy.lucid.coherent.symmetric cell value]
  exact flushes _ (sane_write value tidy.toSane signal) (watched_write value tidy.toSane tidy.watched signal)

theorem ensures_writeSignal (tidy : Tidy machine) {cell : Nat} {held : Value} (signal : machine.graph.content? cell = some (.signal held))
    (value : Value) : Ensures ⟨True, depth < machine.graph.vertices.size + 3⟩ (writeSignal calls cell value) machine fun _ after =>
      if held.same value then after = machine else Flushed { machine with graph := machine.graph.write cell value } after := by
  simp only [writeSignal, peek, ensures_bind, ensures_graph?, ensures_pure, value?, signal, Option.getD_some]
  split
  · rfl
  · exact ensures_updateSignal flushes tidy signal value

/-- A batch whose steps keep a machine tidy keeps it so. -/
theorem ensures_batch {α : Type} {step : Run Host.readers α}
    (keeps : Ensures .any step { machine with graph := machine.graph.enterBatch } fun _ after =>
      Tidy after ∧ after.graph.depth = machine.graph.depth + 1) :
    Ensures .any (batch calls step) machine fun _ after => Tidy after ∧ after.graph.depth = machine.graph.depth := by
  simp only [batch, ensures_bind, ensures_withBatch, ensures_pure]
  refine keeps.mono ?_
  rintro value between ⟨tidyBetween, deep⟩
  rw [leaveBatch_false]
  have left : Sane { between with graph := { between.graph with depth := between.graph.depth - 1 } } :=
    tidyBetween.toSane.of_vertices rfl tidyBetween.alone rfl
  refine (flushes _ left (tidyBetween.watched.of_vertices rfl fun _ => id)).relax id (fun _ => trivial)
    fun _ after flushed => ⟨flushed.tidy, flushed.depth.trans ?_⟩
  show between.graph.depth - 1 = machine.graph.depth
  rw [deep, Nat.add_sub_cancel]

end

/-- A new effect runs at once. -/
theorem ensures_newEffect (performs : Performs depth calls) {bound : Nat} (flushes : Flushes bound calls) (tidy : Tidy machine) (query : Query) :
    Ensures .any (newEffect calls (.host query)) machine fun _ after => Tidy after ∧ after.graph.depth = machine.graph.depth := by
  have hosts : Hosts (machine.graph.add (.effect ⟨some (.host query), none, false⟩)).2 machine.graph.vertices.size query :=
    ⟨⟨some (.host query), none, false⟩, by rw [content?_add, if_pos rfl], rfl, rfl⟩
  have sane : Sane { machine with graph := (machine.graph.add (.effect ⟨some (.host query), none, false⟩)).2 } :=
    sane_add tidy.toSane _ (fun _ same => by cases same) fun _ same => by cases same; exact ⟨rfl, rfl, query, rfl⟩
  have entered : Sane { machine with graph := (machine.graph.add (.effect ⟨some (.host query), none, false⟩)).2.enterBatch } :=
    sane.of_vertices rfl sane.alone rfl
  simp only [newEffect, batch, ensures_bind, ensures_addToGraph, ensures_withBatch, ensures_pure]
  refine (ensures_runEffect performs entered hosts).relax id (fun _ => trivial) ?_
  rintro _ between ⟨⟨stirred, faithful⟩, queue⟩
  have left : Stirred [machine.graph.vertices.size] { machine with graph := (machine.graph.add (.effect ⟨some (.host query), none, false⟩)).2 }
      { between with graph := between.graph.leaveBatch false } := Stirred.batched stirred
  have saneLeft := left.sane sane (by rw [leaveBatch_false]; exact queue ▸ List.Sublist.refl _)
  have watched : AllWatched { between with graph := between.graph.leaveBatch false } := by
    refine left.watched (fun id asked rests hosts => ?_) fun id asked member hostsToo => ?_
    · refine (watched_add tidy.watched _ (fun here => rests (List.mem_singleton.2 here)) hosts).imp_left fun waits => ?_
      rw [leaveBatch_false]
      exact queue ▸ waits
    · obtain rfl := List.mem_singleton.1 member
      obtain ⟨_, found, _, same⟩ := hosts
      obtain ⟨_, again, _, sameToo⟩ := hostsToo
      cases found.symm.trans again
      cases same.symm.trans sameToo
      rw [leaveBatch_false]
      exact faithful.mono (fun _ _ _ holds => holds) rfl fun _ => Iff.rfl
  exact (flushes _ saneLeft watched).relax id (fun _ => trivial) fun _ after flushed => ⟨flushed.tidy, flushed.depth.trans left.depth⟩

theorem ensures_dispose (tidy : Tidy machine) (id : Nat) :
    Ensures .any (dispose calls id) machine fun _ after => Tidy after ∧ after.graph.depth = machine.graph.depth := by
  simp only [dispose, ensures_bind, ensures_graph?]
  split
  next => exact ⟨tidy, rfl⟩
  next effect isEffect =>
    have found := machine.graph.effect?_eq_some.1 isEffect
    split
    next => exact ⟨tidy, rfl⟩
    next =>
      have marked : (((machine.graph.modifyEffect id fun effect => { effect with disposed := true }).dequeue id).release id).effect? id =
          some { effect with disposed := true } := by
        refine (effect?_eq_some _).2 ((content?_release ..).trans ?_)
        exact content?_modifyEffect_self _ _ found
      simp only [ensures_bind, ensures_modifyGraph, runCleanup, ensures_graph?, marked, Option.bind_some, (tidy.effects id effect found).1, ensures_pure]
      exact ⟨tidy_ended tidy found, depth_ended⟩

end Reader

namespace Driver

open ReactiveMarkup.Graph ReactiveMarkup.Step ReactiveMarkup.Machine

variable {machine : Machine Host.readers}

theorem ensures_onSignal {breaks : Breaks} {cell : Nat} {act : Run Host.readers Unit} {post : Unit → Machine Host.readers → Prop}
    (panics : breaks.panics) (acts : ∀ held, machine.graph.content? cell = some (.signal held) → Ensures breaks act machine post) :
    Ensures breaks (onSignal cell act) machine post := by
  simp only [onSignal, ensures_bind, Reader.ensures_graph?]
  split
  next held signal => exact acts held signal
  next => exact panics

theorem ensures_run (driver : Driver) (depth : Nat) (tidy : Tidy machine) :
    Ensures .any (driver.run (Calls.upTo Interpreter.readers depth)) machine fun _ after => Tidy after ∧ after.graph.depth = machine.graph.depth := by
  have flushes := Reader.flushes_upTo depth
  induction driver generalizing machine with
  | finish => exact ⟨tidy, rfl⟩
  | newSignal value next ih =>
    simp only [run, ensures_bind]
    exact ih _ (tidy_add tidy _ (fun _ same => by cases same) (by simp))
  | newComputed query next ih =>
    simp only [run, ensures_bind]
    exact ih _ (tidy_add tidy _ (fun _ same => by cases same; exact ⟨rfl, rfl⟩) (by simp))
  | newEffect query next ih =>
    simp only [run, ensures_bind]
    refine (Reader.ensures_newEffect (Reader.performs_upTo depth) flushes tidy query).mono ?_
    rintro id between ⟨tidyBetween, same⟩
    exact same ▸ ih id tidyBetween
  | get cell next ih =>
    simp only [run, ensures_bind]
    refine (Reader.ensures_get (Reader.callsWatch_upTo depth) tidy.toSane cell).relax id (fun _ => trivial) ?_
    rintro value between ⟨⟨stirred, queue⟩, _⟩
    exact stirred.depth ▸ ih value (stirred.tidy queue tidy)
  | peek cell next ih =>
    simp only [run, Machine.peek, ensures_bind, Reader.ensures_graph?, ensures_pure]
    exact ih _ tidy
  | set cell value next ih =>
    simp only [run, ensures_bind]
    refine ensures_onSignal trivial fun held signal => ?_
    refine (Reader.ensures_writeSignal flushes tidy signal value).relax id (fun _ => trivial) fun _ between written => ?_
    split at written
    next => exact written.symm ▸ ih (written.symm ▸ tidy)
    next => exact (written.depth.trans (Graph.depth_write tidy.lucid.coherent.symmetric cell value)) ▸ ih written.tidy
  | update cell value next ih =>
    simp only [run, ensures_bind]
    refine ensures_onSignal trivial fun held signal => ?_
    refine (Reader.ensures_updateSignal flushes tidy signal value).relax id (fun _ => trivial) fun _ between written => ?_
    exact (written.depth.trans (Graph.depth_write tidy.lucid.coherent.symmetric cell value)) ▸ ih written.tidy
  | batch body next ihBody ihNext =>
    simp only [run, ensures_bind]
    refine (Reader.ensures_batch flushes (ihBody tidy.enterBatch)).mono ?_
    rintro _ between ⟨tidyBetween, same⟩
    exact same ▸ ihNext tidyBetween
  | untrack body next ihBody ihNext =>
    simp only [run, Machine.untrack, ensures_bind, ensures_observedBy]
    have alone : Tidy { machine with graph := { machine.graph with observer := none } } := tidy.of_vertices rfl rfl rfl id
    refine (ihBody alone).mono ?_
    rintro _ between ⟨tidyBetween, same⟩
    exact same ▸ ihNext (tidyBetween.of_vertices rfl tidy.alone rfl id)
  | dispose effect next ih =>
    simp only [run, ensures_bind]
    refine (Reader.ensures_dispose tidy effect).mono ?_
    rintro _ between ⟨tidyBetween, same⟩
    exact same ▸ ih tidyBetween

theorem Reached.tidy (reached : Reached machine) : Tidy machine ∧ machine.graph.depth = 0 := by
  induction reached with
  | start =>
    have none (id : Nat) : Machine.readers.graph.content? id = none := by simp [Machine.readers, content?]
    have symmetric : Machine.readers.graph.Symmetric := fun source reader => by simp [Machine.readers, subscribers, sources]
    refine ⟨⟨⟨⟨⟨symmetric, by simp [none], by simp [none]⟩, by simp [none], fun id idle => ?_⟩, ⟨.nil, by simp [none]⟩, rfl,
      by simp [none], by simp [none], .nil, fun _ never => by cases never⟩, fun id query hosts => ?_, fun _ => rfl⟩, rfl⟩
    · obtain ⟨_, found, _⟩ := idle
      cases (none id).symm.trans found
    · obtain ⟨_, found, _⟩ := hosts
      cases (none id).symm.trans found
  | run _ done ih =>
    obtain ⟨tidy, same⟩ := (ensures_run _ _ ih.1).of_done done
    exact ⟨tidy, same.trans ih.2⟩

end Driver

end ReactiveMarkup
