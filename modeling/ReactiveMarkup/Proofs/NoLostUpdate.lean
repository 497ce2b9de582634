import Mathlib
import ReactiveMarkup.Proofs.ScriptEffects

/-! No update is lost. Whenever no script is running, no effect waits, and what each effect read
in its last run is what it would read now. -/

namespace ReactiveMarkup.Script

open ReactiveMarkup.Graph ReactiveMarkup.Step

variable {Memory : Type} {before middle after machine : Machine (Host.scripted Memory)}
  {calls : Calls (Host.scripted Memory)}

/-! Running the effects that wait. -/

private theorem sound_queue (sound : Sound machine) (queue : List Nat) :
    Sound { machine with graph := { machine.graph with queue } } :=
  sound.of_sameCells (fun _ => .inl rfl) (fun _ => rfl) (fun _ => rfl) sound.observing sound.scripted sound.bodied

/-- An effect that stops waiting is the exception. -/
private theorem advanced_queue (id : Nat) (queue : List Nat)
    (others : ∀ other, other ≠ id → other ∈ machine.graph.queue → other ∈ queue) :
    Advanced (· = id) machine { machine with graph := { machine.graph with queue } } := by
  refine ⟨Nat.le_refl _, rfl, rfl, fun other effect found => ⟨effect, found, fun awake => ⟨awake, fun _ => rfl⟩⟩,
    fun other effect found => .inl ⟨effect, found⟩, fun other apart live watched => ?_⟩
  obtain ⟨effect, found, _⟩ := live
  exact (watched (machine.graph.lt_size_of_content? found)).of_kept (others other apart) rfl rfl
    (fun _ _ _ holds => holds) fun _ _ => rfl

theorem ensures_drain (scripts : CallsScripts calls) (performs : PerformsScripts calls) (bound : Nat)
    (sound : Sound machine) (inBatch : 0 < machine.graph.depth) (bodied : Bodied machine) :
    Ensures .any (Machine.drain calls bound) machine fun _ after =>
      Sound after ∧ Advanced (fun _ => False) machine after ∧ after.graph.queue = [] := by
  induction bound generalizing machine with
  | zero => trivial
  | succ bound ih =>
    simp only [Machine.drain, ensures_bind, ensures_graph?, pop?]
    split
    next none =>
      refine ⟨sound, .refl machine, ?_⟩
      split at none
      next empty => exact empty
      next => cases none
    next id rest found =>
      split at found
      next => cases found
      next head tail waiting =>
        cases found
        simp only [ensures_bind, Machine.ensures_modifyGraph]
        have popped := sound_queue sound tail
        have advanced : Advanced (· = id) machine { machine with graph := { machine.graph with queue := tail } } := by
          refine advanced_queue id tail fun other apart member => ?_
          rw [waiting] at member
          exact (List.mem_cons.1 member).resolve_left apart
        refine (ensures_runEffect scripts performs popped inBatch (bodied id)).mono fun _ between rerun => ?_
        have advancedBoth : Advanced (fun _ => False) machine between := by
          refine (advanced.trans (rerun.advanced.mono fun _ => False.elim)).close ?_ ?_ rerun.watched
          · intro effect later found foundLater awake
            obtain ⟨other, again, kept⟩ := rerun.advanced.effects id effect found
            rw [foundLater] at again
            cases again
            exact (kept awake).2 not_false
          · intro new effect found awake
            exact rerun.advanced.bodied bodied id effect found awake
        refine (ih rerun.sound (advancedBoth.depth ▸ inBatch) (advancedBoth.bodied bodied)).mono ?_
        rintro _ after ⟨soundAfter, advancedAfter, empty⟩
        exact ⟨soundAfter, advancedBoth.trans advancedAfter, empty⟩

theorem ensures_flush (scripts : CallsScripts calls) (performs : PerformsScripts calls) (bound : Nat)
    (sound : Sound machine) : Ensures .any (Machine.flush calls bound) machine fun _ after => Flushed machine after := by
  simp only [Machine.flush, ensures_bind, ensures_graph?]
  split
  next inBatch => exact ⟨sound, .refl machine, fun _ => rfl, fun closed => absurd closed (by omega)⟩
  next outside =>
    have closed : machine.graph.depth = 0 := by omega
    rw [Machine.ensures_withBatch]
    refine (ensures_drain scripts performs bound sound.enterBatch (Nat.succ_pos _) (sound.bodied closed)).mono ?_
    rintro _ after ⟨soundAfter, advanced, empty⟩
    refine ⟨soundAfter.leaveBatch fun _ => advanced.bodied (sound.bodied closed), advanced.batched,
      fun inBatch => absurd inBatch outside, fun _ => ?_⟩
    simpa using empty

/-! Making and ending effects. -/

/-- A new effect and its first run, in a batch. -/
private theorem moved_newEffect {script : Script Memory} (sound : Sound machine)
    (rerun : Rerun machine.graph.vertices.size
      { machine with
        graph := (machine.graph.add (.effect ⟨some (.host (.script script)), none, false⟩)).2.enterBatch } after) :
    Moved machine { after with graph := after.graph.leaveBatch false } := by
  have found := machine.graph.content?_add (.effect ⟨some (.host (.script script)), none, false⟩)
    machine.graph.vertices.size
  rw [if_pos rfl] at found
  have advanced : Advanced (fun _ => False) machine { after with graph := after.graph.leaveBatch false } := by
    refine ((advanced_add _).trans (rerun.advanced.batched.mono fun _ => False.elim)).close ?_ ?_ ?_
    · intro effect later was
      exact absurd (machine.graph.lt_size_of_content? was) (Nat.lt_irrefl _)
    · intro _ later foundLater awake
      obtain ⟨other, again, kept⟩ := rerun.advanced.effects _ _ found
      rw [leaveBatch_false] at foundLater
      cases again.symm.trans foundLater
      rw [(kept awake).2 not_false]
      rfl
    · rw [leaveBatch_false]
      exact rerun.watched
  refine ⟨rerun.sound.leaveBatch fun closed => ?_, advanced, fun _ id effect was _ => ?_⟩
  · have depth : after.graph.depth = machine.graph.depth + 1 := rerun.advanced.depth
    have bodied := advanced.bodied (sound.bodied (by omega))
    rw [leaveBatch_false] at bodied
    exact bodied
  · have inside := machine.graph.lt_size_of_content? was
    have old := machine.graph.content?_add (.effect ⟨some (.host (.script script)), none, false⟩) id
    rw [if_neg (by omega), was] at old
    have fewer := rerun.quiet id effect old (by omega)
    rw [leaveBatch_false]
    exact fun source member => by simpa using (show source ∈ (machine.graph.add _).2.sources id from fewer member)

theorem ensures_newEffect (scripts : CallsScripts calls) (performs : PerformsScripts calls) (flushes : Flushes calls)
    (sound : Sound machine) (script : Script Memory) :
    Ensures .any (Machine.newEffect calls (.host (.script script))) machine fun _ after => Ran machine after := by
  simp only [Machine.newEffect, Machine.batch, ensures_bind, Machine.ensures_addToGraph, Machine.ensures_withBatch,
    ensures_pure]
  have added : Sound { machine with
      graph := (machine.graph.add (.effect ⟨some (.host (.script script)), none, false⟩)).2 } := by
    refine sound_add sound _ (by simp) ?_
    rintro _ ⟨⟩
    exact ⟨rfl, script, rfl⟩
  refine (ensures_runEffect scripts performs added.enterBatch (Nat.succ_pos _) ?_).mono fun _ between rerun => ?_
  · intro effect found _
    have found : (machine.graph.add _).2.content? machine.graph.vertices.size = some (.effect effect) := found
    rw [content?_add, if_pos rfl] at found
    cases found
    rfl
  · have moved := moved_newEffect sound rerun
    exact (flushes _ moved.sound).mono fun _ after flushed => moved.flushed flushed

/-- An effect that is marked as disposed, waits no more and reads nothing. -/
private theorem ran_disposed {id : Nat} {effect : Effect (ScriptCode Memory) (Task (ScriptCode Memory))}
    (sound : Sound machine) (found : machine.graph.content? id = some (.effect effect)) :
    Ran machine { machine with
      graph := ((machine.graph.modifyEffect id fun effect => { effect with disposed := true }).dequeue id).release id } := by
  let marked := machine.graph.modifyEffect id fun effect => { effect with disposed := true }
  have foundMarked : marked.content? id = some (.effect { effect with disposed := true }) :=
    content?_modifyEffect_self _ _ found
  have soundMarked : Sound { machine with graph := marked } :=
    sound_modifyEffect _ sound found (sound.scripted id effect found).1 (sound.scripted id effect found).2 (by simp)
  have soundDequeued : Sound { machine with graph := marked.dequeue id } := sound_queue soundMarked _
  have advanced : Advanced (· = id) machine { machine with graph := (marked.dequeue id).release id } := by
    have advancedMarked : Advanced (· = id) machine { machine with graph := marked } :=
      advanced_modifyEffect _ found (by simp)
    have advancedDequeued : Advanced (· = id) { machine with graph := marked } { machine with graph := marked.dequeue id } :=
      advanced_queue id _ fun other apart member => by simpa [apart] using member
    exact (advancedMarked.trans advancedDequeued).trans (advanced_release id)
  have dead {later : Effect (ScriptCode Memory) (Task (ScriptCode Memory))}
      (foundLater : ((marked.dequeue id).release id).content? id = some (.effect later)) : later.disposed ≠ false := by
    rw [content?_release] at foundLater
    cases foundMarked.symm.trans foundLater
    simp
  refine ⟨⟨sound_release soundDequeued foundMarked, advanced.close ?_ ?_ ?_, fun _ other _ _ _ source member => ?_⟩, ?_⟩
  · exact fun _ later _ foundLater awake => absurd awake (dead foundLater)
  · exact fun _ later foundLater awake => absurd awake (dead foundLater)
  · rintro ⟨later, foundLater, awake⟩
    exact absurd awake (dead foundLater)
  · rw [sources_release] at member
    split at member
    · cases member
    · simpa [dequeue] using (show source ∈ (machine.graph.modifyEffect id _).sources other from member)
  · intro _ empty
    show ((marked.dequeue id).release id).queue = []
    rw [queue_release]
    show machine.graph.queue.filter _ = []
    rw [empty]
    rfl

theorem ensures_dispose (scripts : CallsScripts calls) (sound : Sound machine) (id : Nat) :
    Ensures .any (Machine.dispose calls id) machine fun _ after => Ran machine after := by
  simp only [Machine.dispose, ensures_bind, ensures_graph?]
  split
  next => exact .refl sound
  next effect found =>
    replace found := machine.graph.effect?_eq_some.1 found
    split
    next => exact .refl sound
    next =>
      simp only [ensures_bind, Machine.ensures_modifyGraph]
      have first := ran_disposed sound found
      refine (ensures_runCleanup scripts first.sound id).mono fun _ cleaned second => ?_
      have both := first.trans second.toRan
      refine both.trans ?_
      obtain ⟨middle, foundMiddle, _⟩ := first.advanced.effects id effect found
      obtain ⟨later, foundLater, kept⟩ := second.advanced.effects id middle foundMiddle
      have dead : later.disposed ≠ false := by
        intro awake
        obtain ⟨awakeMiddle, _⟩ := kept awake
        rw [content?_release] at foundMiddle
        have foundMarked : (machine.graph.modifyEffect id _).content? id = _ := foundMiddle
        rw [content?_modifyEffect_self _ _ found] at foundMarked
        cases foundMarked
        cases awakeMiddle
      refine ⟨⟨sound_modifyEffect _ second.sound foundLater (by simp) (second.sound.scripted id later foundLater).2 ?_,
        advanced_modifyEffect _ foundLater (fun awake => absurd awake dead), fun _ => quiet_modifyEffect _⟩,
        fun _ empty => empty⟩
      exact fun _ awake => absurd awake dead

/-! Running scripts. -/

/-- What nested calls have to do for scripts to run as they should. -/
structure Lawful (calls : Calls (Host.scripted Memory)) : Prop where
  answers : Machine.Answers .any ScriptCode.query? calls
  scripts : CallsScripts calls
  reacts : ∀ script, RunsBody (calls.react (.script script))
  performs : PerformsScripts calls
  flushes : Flushes calls

/-- A change of notes and memory after which effects are still watched. -/
private theorem ran_world (sound : Sound machine) (world : ScriptWorld Memory)
    (watched : ∀ id, Watched machine id → Watched { machine with world } id) : Ran machine { machine with world } := by
  refine ⟨⟨⟨sound.coherent, sound.waiting, sound.observing, sound.scripted, sound.bodied⟩,
    ⟨Nat.le_refl _, rfl, rfl, ?_, ?_, ?_⟩, fun _ _ _ _ _ _ member => member⟩, fun _ empty => empty⟩
  · exact fun id effect found => ⟨effect, found, fun awake => ⟨awake, fun _ => rfl⟩⟩
  · exact fun id effect found => .inl ⟨effect, found⟩
  · rintro id _ ⟨effect, found, _⟩ old
    exact watched id (old (machine.graph.lt_size_of_content? found))

theorem ensures_script (lawful : Lawful calls) (script : Script Memory) (sound : Sound machine) :
    Ensures .any (script.run calls) machine fun _ after => Ran machine after := by
  induction script generalizing machine with
  | finish | leave => exact .refl sound
  | newSignal value next ih =>
    simp only [run, Machine.newSignal, ensures_bind, Machine.ensures_addToGraph]
    have added := ran_add sound (.signal value) (by simp) (by simp)
    exact (ih _ added.sound).mono fun _ _ rest => added.trans rest
  | newComputed query next ih =>
    simp only [run, Machine.newComputed, ensures_bind, Machine.ensures_addToGraph]
    have added := ran_add sound (.computed ⟨.query query, none, true, false⟩) (by simp) (by simp [ScriptCode.query?])
    exact (ih _ added.sound).mono fun _ _ rest => added.trans rest
  | newEffect body next _ ih =>
    simp only [run, ensures_bind]
    refine (ensures_newEffect lawful.scripts lawful.performs lawful.flushes sound body).mono fun id _ made => ?_
    exact (ih id made.sound).mono fun _ _ rest => made.trans rest
  | get cell next ih =>
    simp only [run, ensures_bind]
    refine (ensures_read lawful.answers sound cell).mono fun value _ read => ?_
    exact (ih value read.sound).mono fun _ _ rest => read.trans rest
  | peek cell next ih =>
    simp only [run, Machine.peek, ensures_bind, ensures_graph?, ensures_pure]
    exact ih _ sound
  | set cell value next ih =>
    simp only [run, ensures_bind]
    refine (ensures_write lawful.flushes sound cell value).mono fun _ _ written => ?_
    exact (ih written.sound).mono fun _ _ rest => written.trans rest
  | update cell value next ih =>
    simp only [run, ensures_bind]
    refine (ensures_rewrite lawful.flushes sound cell value).mono fun _ _ written => ?_
    exact (ih written.sound).mono fun _ _ rest => written.trans rest
  | batch body next ihBody ih =>
    simp only [run, Machine.batch, ensures_bind, Machine.ensures_withBatch, ensures_pure]
    refine (ihBody sound.enterBatch).mono fun result _ inner => ?_
    have moved := inner.toMoved.batched sound
    refine (lawful.flushes _ moved.sound).mono fun _ _ flushed => ?_
    have batched := moved.flushed flushed
    exact (ih result.1 batched.sound).mono fun _ _ rest => batched.trans rest
  | untrack body next ihBody ih =>
    simp only [run, Machine.untrack, ensures_bind, Machine.ensures_observedBy]
    refine (ihBody (sound.observe none (by simp))).mono fun result _ inner => ?_
    have untracked := inner.untracked sound
    exact (ih result.1 untracked.sound).mono fun _ _ rest => untracked.trans rest
  | dispose effect next ih =>
    simp only [run, ensures_bind]
    refine (ensures_dispose lawful.scripts sound effect).mono fun _ _ disposed => ?_
    exact (ih disposed.sound).mono fun _ _ rest => disposed.trans rest
  | remember access next ih =>
    simp only [run, ensures_bind, ensures_modifyGet]
    have remembered : Ran machine { machine with
        world := { machine.world with memory := (access machine.world.memory).2 } } :=
      ran_world sound _ fun id watched =>
        watched.of_kept (fun waits => waits) rfl rfl (fun _ _ _ holds => holds) fun _ _ => rfl
    exact (ih _ remembered.sound).mono fun _ _ rest => remembered.trans rest

theorem runsBody_react (lawful : Lawful calls) (script : Script Memory) : RunsBody (script.react calls) := by
  intro machine id sound observed _ released
  simp only [react, modifyWorld, ensures_bind, ensures_graph?, ensures_modify, ensures_pure, observed, Option.elim_some]
  have anew : Watched { machine with world := machine.world.forget id } id := by
    refine .inr ⟨?_, ?_⟩
    · simp [ScriptWorld.forget]
    · simp [released]
  have forgot : Ran machine { machine with world := machine.world.forget id } := by
    refine ran_world sound _ fun other watched => ?_
    by_cases here : other = id
    · exact here ▸ anew
    · exact watched.of_kept (fun waits => waits) (if_neg here) rfl (fun _ _ _ holds => holds) fun _ _ => rfl
  refine (ensures_script lawful script forgot.sound).mono fun result after rest => ⟨forgot.trans rest, fun live => ?_, ?_⟩
  · exact rest.advanced.watched id not_false live fun _ => anew
  · intro code left
    obtain ⟨cleanup, _, same⟩ := Option.map_eq_some_iff.1 left
    exact ⟨cleanup, same.symm⟩

theorem lawful_upTo (depth : Nat) : Lawful (Calls.upTo (Interpreter.scripted Memory) depth) := by
  have answers (depth : Nat) : Machine.Answers .any ScriptCode.query? (Calls.upTo (Interpreter.scripted Memory) depth) :=
    Machine.answers_upTo (fun calls code query means => by
      cases code with
      | query other =>
        cases means
        rfl
      | script => cases means) trivial depth
  induction depth with
  | zero =>
    exact ⟨answers 0, fun _ _ _ => trivial, fun _ _ _ _ _ _ _ => trivial, fun _ _ _ _ _ _ _ => trivial,
      fun _ _ => trivial⟩
  | succ depth ih =>
    refine ⟨answers (depth + 1), fun script machine sound => ?_, fun script => runsBody_react ih script, ih.reacts,
      fun machine sound => ensures_flush ih.scripts ih.performs depth sound⟩
    show Ensures .any (Prod.fst <$> script.run (Calls.upTo (Interpreter.scripted Memory) depth)) machine _
    rw [ensures_map]
    exact ensures_script ih script sound

/-! Between scripts. -/

/-- What holds whenever no script is running. -/
structure Settled (machine : Machine (Host.scripted Memory)) : Prop where
  /-- No effect waits. -/
  queue : machine.graph.queue = []
  /-- What is up to date is what its query returns now. -/
  fresh : ∀ id computed, machine.graph.content? id = some (.computed computed) → computed.stale = false →
    ∃ query value, computed.code = .query query ∧ computed.value = some value ∧
      query.Returns ScriptCode.query? machine.graph value
  /-- No live effect reads a computed value that is out of date. -/
  awake : ∀ id computed, machine.graph.content? id = some (.computed computed) → computed.stale = true →
    ∀ effect ∈ machine.graph.subscribers id, ¬ machine.graph.IsLive effect
  /-- The last run of a live effect has read its sources. -/
  noted : ∀ effect, machine.graph.IsLive effect → ∀ source ∈ machine.graph.sources effect,
    ∃ note ∈ machine.world.notes effect, note.cell = source
  /-- What the last run of a live effect has read is among its sources and was not changed since. -/
  unchanged : ∀ effect, machine.graph.IsLive effect → ∀ note ∈ machine.world.notes effect,
    note.cell ∈ machine.graph.sources effect ∧ machine.graph.current? note.cell = some note.value ∧
      machine.world.changes note.cell = note.changes

/-- What holds between scripts, in a form that scripts preserve. -/
private structure Resting (machine : Machine (Host.scripted Memory)) : Prop where
  sound : Sound machine
  closed : machine.graph.depth = 0
  queue : machine.graph.queue = []
  watched : ∀ id, machine.graph.IsLive id → Watched machine id

private theorem Reachable.resting (reachable : Reachable machine) : Resting machine := by
  induction reachable with
  | start memory =>
    have none (id : Nat) : (Machine.scripted memory).graph.content? id = none := by simp [Machine.scripted, content?]
    refine ⟨⟨⟨?_, by simp [none], by simp [none]⟩, ?_, ?_, by simp [none], by simp [none]⟩, rfl, rfl, ?_⟩
    · intro source reader
      simp [Machine.scripted, subscribers, sources]
    · intro id computed found
      rw [none] at found
      cases found
    · rintro _ ⟨⟩
    · rintro id ⟨effect, found, _⟩
      rw [none] at found
      cases found
  | @run before after script result depth _ done ih =>
    have ran := (ensures_script (lawful_upTo depth) script ih.sound).of_done done
    refine ⟨ran.sound, ran.advanced.depth.trans ih.closed, ran.settled ih.closed ih.queue, fun id live => ?_⟩
    exact ran.advanced.watched id not_false live fun inside => ih.watched id (ran.advanced.isLive live inside)

/-- No update is lost, whatever scripts have run. -/
theorem settled_of_reachable (reachable : Reachable machine) : Settled machine := by
  obtain ⟨sound, _, queue, watched⟩ := reachable.resting
  have kept {id : Nat} (live : machine.graph.IsLive id) := (watched id live).resolve_left (by simp [queue])
  refine ⟨queue, fun id computed found fresh => ?_, fun id computed found stale effect reads live => ?_,
    fun effect live => (kept live).2, fun effect live => (kept live).1⟩
  · obtain ⟨query, means⟩ := sound.coherent.meant id computed found
    obtain ⟨value, stored, _, returned⟩ := sound.coherent.fresh id computed query found fresh means
    refine ⟨query, value, ?_, stored, returned⟩
    cases code : computed.code with
    | query other =>
      rw [code] at means
      cases means
      rfl
    | script other =>
      rw [code] at means
      cases means
  · obtain ⟨note, known, rfl⟩ := (kept live).2 id ((sound.coherent.symmetric id effect).1 reads)
    have holds := ((kept live).1 note known).2.1
    simp [current?, found, stale] at holds

/-- An effect that reads a signal by way of a computed value, and a write of the signal. -/
private def mirrored : Script Unit :=
  .newSignal (.bool false) fun signal =>
    .newComputed (.read signal .answer) fun computed =>
      .newEffect (.get computed .finish) fun _ => .set signal (.bool true) (.finish .undefined)

theorem settled_of_reachable_mirrored : ∃ machine : Machine (Host.scripted Unit), Reachable machine ∧
    machine.world.notes 2 = [⟨1, .bool true, 0⟩] ∧ machine.graph.subscribers 1 = [2] ∧ Settled machine := by
  have reachable : Reachable
      ((mirrored.run (Calls.upTo (Interpreter.scripted Unit) 9)).run (Machine.scripted ())).2 :=
    @Reachable.run _ _ _ mirrored (.undefined, none) 9 (.start ()) (Step.run_of_ending (by cbv))
  exact ⟨_, reachable, by cbv, by cbv, settled_of_reachable reachable⟩

end ReactiveMarkup.Script
