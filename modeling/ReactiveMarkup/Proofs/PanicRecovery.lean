import ReactiveMarkup.Proofs.NoLostUpdate
import ReactiveMarkup.Proofs.SteadyEffects

/-! Recovery after panics. Whatever panics have happened, a write reaches every live effect that reads
the signal directly or by way of computed values that are up to date. -/

namespace ReactiveMarkup

namespace Machine

open ReactiveMarkup.Graph ReactiveMarkup.Step

variable {host : Host} {calls : Calls host} {machine after : Machine host}

/-- A machine from whose queue an effect was taken. -/
def taking (machine : Machine host) (rest : List Nat) : Machine host :=
  { machine with graph := { machine.graph with queue := rest } }

/-- How waiting effects run, first come first, up to the end or to a panic: each with the machine
that it found. -/
inductive Drained (calls : Calls host) : Machine host → List (Nat × Machine host) → Ending Unit → Machine host → Prop where
  | empty {machine : Machine host} (idle : machine.graph.queue = []) : Drained calls machine [] (.done ()) machine
  | next {machine between after : Machine host} {id : Nat} {rest : List Nat} {runs : List (Nat × Machine host)} {ending : Ending Unit}
    (waits : machine.graph.queue = id :: rest) (ran : (runEffect calls id).run (machine.taking rest) = (.done (), between))
    (others : Drained calls between runs ending after) : Drained calls machine ((id, machine.taking rest) :: runs) ending after
  | panicked {machine after : Machine host} {id : Nat} {rest : List Nat} {cause : Panic} (waits : machine.graph.queue = id :: rest)
    (ran : (runEffect calls id).run (machine.taking rest) = (.panicked cause, after)) :
    Drained calls machine [(id, machine.taking rest)] (.panicked cause) after

theorem run_drain_succ (bound : Nat) (machine : Machine host) : (drain calls (bound + 1)).run machine =
    match machine.graph.queue with
    | [] => (.done (), machine)
    | id :: rest => (runEffect calls id >>= fun _ => drain calls bound).run (machine.taking rest) := by
  cases waiting : machine.graph.queue with
  | nil =>
    have popped : machine.graph.pop? = none := by rw [pop?, waiting]
    rw [drain, run_bind_of_done (run_graph? machine)]
    simp only [popped]
    rfl
  | cons id rest =>
    have popped : machine.graph.pop? = some (id, { machine.graph with queue := rest }) := by rw [pop?, waiting]
    rw [drain, run_bind_of_done (run_graph? machine)]
    simp only [popped]
    rfl

theorem run_flush {bound : Nat} (closed : machine.graph.depth = 0) : (flush calls bound).run machine =
    (((drain calls bound).run { machine with graph := machine.graph.enterBatch }).1,
      { ((drain calls bound).run { machine with graph := machine.graph.enterBatch }).2 with
        graph := ((drain calls bound).run { machine with graph := machine.graph.enterBatch }).2.graph.leaveBatch
          ((drain calls bound).run { machine with graph := machine.graph.enterBatch }).1.isPanic }) := by
  show (if 0 < machine.graph.depth then pure () else withBatch (drain calls bound) : Run host Unit).run machine = _
  rw [if_neg (by omega)]
  rfl

/-- Running what waits comes to an end when the queue is empty, or with the first panic. -/
theorem drained_of_drain {bound : Nat} {ending : Ending Unit} (ran : (drain calls bound).run machine = (ending, after))
    (ended : ending ≠ .exhausted) : ∃ runs, Drained calls machine runs ending after := by
  induction bound generalizing machine with
  | zero =>
    cases ran
    exact absurd rfl ended
  | succ bound ih =>
    rw [run_drain_succ] at ran
    cases waiting : machine.graph.queue with
    | nil =>
      rw [waiting] at ran
      cases ran
      exact ⟨[], .empty waiting⟩
    | cons id rest =>
      rw [waiting] at ran
      change Step.bind (runEffect calls id) _ (machine.taking rest) = _ at ran
      rw [Step.bind] at ran
      cases first : (runEffect calls id).run (machine.taking rest) with
      | mk firstEnding between =>
        rw [show runEffect calls id (machine.taking rest) = (firstEnding, between) from first] at ran
        cases firstEnding with
        | done value =>
          obtain ⟨runs, others⟩ := ih ran
          exact ⟨_, .next waiting first others⟩
        | panicked cause =>
          cases ran
          exact ⟨_, .panicked waiting first⟩
        | exhausted =>
          cases ran
          exact absurd rfl ended

/-- An effect that has not been disposed and has its body, so that it can run. -/
def Runnable (machine : Machine host) (id : Nat) : Prop :=
  ∃ effect, machine.graph.content? id = some (.effect effect) ∧ effect.disposed = false ∧ effect.body.isSome

variable {hosted : Task host.Code → Prop} {runs : List (Nat × Machine host)} {ending : Ending Unit}

theorem fit_taking (fit : machine.graph.Fit hosted) (rest : List Nat) : (machine.taking rest).graph.Fit hosted :=
  ⟨fit.symmetric, fit.observing, fit.bodies⟩

theorem steady_of_taking {rest : List Nat} (steady : (machine.taking rest).graph.Steady after.graph) : machine.graph.Steady after.graph :=
  ⟨steady.size, steady.depth, steady.observer, steady.effects, steady.created, steady.signals⟩

/-- What the run of an effect taken from the queue keeps. -/
theorem kept_of_taken (keeps : KeepsEffects hosted calls) (fit : machine.graph.Fit hosted) {id : Nat} {rest : List Nat} {ending : Ending Unit}
    (ran : (runEffect calls id).run (machine.taking rest) = (ending, after)) :
    (machine.taking rest).graph.Kept hosted after.graph :=
  (keptBy_runEffect keeps (fit_taking fit rest) id).of_run ran

namespace Drained

theorem steady (keeps : KeepsEffects hosted calls) (drained : Drained calls machine runs ending after)
    (fit : machine.graph.Fit hosted) : machine.graph.Steady after.graph := by
  induction drained with
  | empty => exact .refl _
  | next _ ran _ ih =>
    have first := kept_of_taken keeps fit ran
    exact (steady_of_taking first.steady).trans (ih first.fit)
  | panicked _ ran => exact steady_of_taking (kept_of_taken keeps fit ran).steady

theorem runs_ne_nil {cause : Panic} (drained : Drained calls machine runs ending after) (panics : ending = .panicked cause) : runs ≠ [] := by
  cases drained with
  | empty => cases panics
  | next | panicked => exact List.cons_ne_nil _ _

/-- An effect that waits runs, unless it is disposed before or another one panics before. -/
theorem runs_waiting (keeps : KeepsEffects hosted calls) (drained : Drained calls machine runs ending after)
    (fit : machine.graph.Fit hosted) (inBatch : 0 < machine.graph.depth) {id : Nat} (waits : id ∈ machine.graph.queue)
    (runnable : machine.Runnable id) (live : after.graph.IsLive id)
    (calm : ∀ cause, ending = .panicked cause → ∃ moment, runs.getLast? = some (id, moment)) :
    ∃ moment, (id, moment) ∈ runs ∧ moment.Runnable id := by
  induction drained with
  | empty idle => simp [idle] at waits
  | @next machine between after first rest runs ending taken ran others ih =>
    by_cases here : id = first
    · subst here
      exact ⟨_, List.mem_cons_self, runnable⟩
    · have kept := kept_of_taken keeps fit ran
      obtain ⟨effect, found, awake, bodied⟩ := runnable
      obtain ⟨later, foundLater, keeping⟩ := kept.steady.effects id effect found
      have stillLive : between.graph.IsLive id :=
        kept.steady.isLive_between (others.steady keeps kept.fit) ⟨effect, found, awake⟩ live
      have stillAwake : later.disposed = false := by
        obtain ⟨again, foundAgain, awakeAgain⟩ := stillLive
        cases foundLater.symm.trans foundAgain
        exact awakeAgain
      have stillWaits : id ∈ between.graph.queue := by
        rw [taken] at waits
        exact kept.waits inBatch id ((List.mem_cons.1 waits).resolve_left here) ⟨effect, found, awake⟩ stillLive
      obtain ⟨moment, member, able⟩ := ih kept.fit (kept.steady.depth ▸ inBatch) stillWaits
        ⟨later, foundLater, stillAwake, (keeping stillAwake).2 ▸ bodied⟩ live fun cause panics => by
          obtain ⟨moment, last⟩ := calm cause panics
          rw [List.getLast?_cons_of_ne_nil (others.runs_ne_nil panics)] at last
          exact ⟨moment, last⟩
      exact ⟨moment, List.mem_cons_of_mem _ member, able⟩
  | @panicked machine after first rest cause taken ran =>
    obtain ⟨moment, last⟩ := calm cause rfl
    cases last
    exact ⟨_, List.mem_cons_self, runnable⟩

end Drained

end Machine

namespace Script

open ReactiveMarkup.Graph ReactiveMarkup.Step ReactiveMarkup.Machine

variable {Memory : Type} {machine : Machine (Host.scripted Memory)} {calls : Calls (Host.scripted Memory)}

/-! Scripts keep effects however they end. -/

/-- Bodies that scripts give to effects. -/
def Hosted (task : Task (ScriptCode Memory)) : Prop := ∃ code, task = .host code

theorem keptBy_query (keeps : KeepsEffects Hosted calls) (fit : machine.graph.Fit Hosted) (query : Query) :
    KeptBy Hosted (query.run calls) machine := by
  induction query generalizing machine with
  | answer value => exact .pure fit _
  | read cell next ih => exact .bind (keptBy_readCell keeps fit cell) fun value _ kept => ih value kept.fit

theorem keptBy_world (fit : machine.graph.Fit Hosted) (f : ScriptWorld Memory → ScriptWorld Memory) :
    KeptBy Hosted (modifyWorld f) machine := Kept.refl fit

theorem keptBy_add {content : Content (ScriptCode Memory) (Task (ScriptCode Memory))} (fit : machine.graph.Fit Hosted)
    (cell : ∀ effect, content ≠ .effect effect) : KeptBy Hosted (addToGraph content) machine :=
  Kept.add fit content fun effect same => absurd same (cell effect)

section

variable (keeps : KeepsEffects Hosted calls) (fit : machine.graph.Fit Hosted)

include keeps fit

theorem keptBy_read (cell : Nat) : KeptBy Hosted (read calls cell) machine :=
  .bind (keptBy_readCell keeps fit cell) fun _ _ kept =>
    keptBy_graph?.2 (.bind (keptBy_world kept.fit _) fun _ _ kept => .pure kept.fit _)

omit keeps fit

/-- The machine in which the readers of a signal have been told of a write. -/
def told (machine : Machine (Host.scripted Memory)) (cell : Nat) (value : Value) : Machine (Host.scripted Memory) :=
  { machine with graph := machine.graph.write cell value, world := machine.world.change cell }

/-- The step that is taken on the value of a signal. -/
theorem run_onSignal {cell : Nat} {held : Value} (signal : machine.graph.content? cell = some (.signal held))
    (act : Value → ScriptRun Memory Unit) : (onSignal cell act).run machine = (act held).run machine := by
  rw [onSignal, run_bind_of_done (run_graph? machine)]
  simp only [signal]

theorem keptBy_onSignal (fit : machine.graph.Fit Hosted) {cell : Nat} {act : Value → ScriptRun Memory Unit}
    (acting : ∀ held, machine.graph.content? cell = some (.signal held) → KeptBy Hosted (act held) machine) :
    KeptBy Hosted (onSignal cell act) machine := by
  refine keptBy_graph?.2 ?_
  split
  next held signal => exact acting held signal
  next => exact Kept.refl fit

theorem run_rewrite {cell : Nat} {held : Value} (signal : machine.graph.content? cell = some (.signal held)) (value : Value) :
    (rewrite calls cell value).run machine = calls.flush.run (told machine cell value) := by
  rw [rewrite, run_onSignal signal]
  rfl

theorem run_write {cell : Nat} {held : Value} (signal : machine.graph.content? cell = some (.signal held)) (value : Value) :
    (write calls cell value).run machine =
      if held.same value then (.done (), machine) else calls.flush.run (told machine cell value) := by
  have value? : machine.graph.value? cell = some held := by simp [Graph.value?, signal]
  rw [write, run_onSignal signal]
  cases same : held.same value with
  | true =>
    show (if ((machine.graph.value? cell).getD .undefined).same value then pure () else _ : ScriptRun Memory Unit).run machine = _
    rw [value?, Option.getD_some, same]
    rfl
  | false =>
    show (if ((machine.graph.value? cell).getD .undefined).same value then pure () else _ : ScriptRun Memory Unit).run
      { machine with world := machine.world.change cell } = _
    rw [value?, Option.getD_some, same]
    rfl

include keeps fit

theorem kept_told {cell : Nat} {held : Value} (signal : machine.graph.content? cell = some (.signal held)) (value : Value) :
    machine.graph.Kept Hosted (calls.flush.run (told machine cell value)).2.graph := by
  have written := Kept.write fit signal value
  exact written.trans (keeps.flush (told machine cell value) written.fit)

theorem keptBy_rewrite (cell : Nat) (value : Value) : KeptBy Hosted (rewrite calls cell value) machine := by
  by_cases isSignal : ∃ held, machine.graph.content? cell = some (.signal held)
  · obtain ⟨held, signal⟩ := isSignal
    rw [KeptBy, Leaves, run_rewrite signal]
    exact kept_told keeps fit signal value
  · exact keptBy_onSignal fit fun held signal => absurd ⟨held, signal⟩ isSignal

theorem keptBy_write (cell : Nat) (value : Value) : KeptBy Hosted (write calls cell value) machine := by
  by_cases isSignal : ∃ held, machine.graph.content? cell = some (.signal held)
  · obtain ⟨held, signal⟩ := isSignal
    rw [KeptBy, Leaves, run_write signal]
    split
    next => exact .refl fit
    next => exact kept_told keeps fit signal value
  · exact keptBy_onSignal fit fun held signal => absurd ⟨held, signal⟩ isSignal

theorem keptBy_script (script : Script Memory) : KeptBy Hosted (script.run calls) machine := by
  induction script generalizing machine with
  | finish | leave => exact .pure fit _
  | newSignal value next ih => exact .bind (keptBy_add fit nofun) fun id _ kept => ih id kept.fit
  | newComputed query next ih => exact .bind (keptBy_add fit nofun) fun id _ kept => ih id kept.fit
  | newEffect body next _ ih => exact .bind (keptBy_newEffect keeps fit ⟨_, rfl⟩) fun id _ kept => ih id kept.fit
  | get cell next ih => exact .bind (keptBy_read keeps fit cell) fun value _ kept => ih value kept.fit
  | peek cell next ih => exact ih _ fit
  | set cell value next ih => exact .bind (keptBy_write keeps fit cell value) fun _ _ kept => ih kept.fit
  | update cell value next ih => exact .bind (keptBy_rewrite keeps fit cell value) fun _ _ kept => ih kept.fit
  | batch body next ihBody ih =>
    refine .bind (keptBy_batch keeps (ihBody ?_)) fun result _ kept => ih result.1 kept.fit
    exact ⟨fit.symmetric, fit.observing, fit.bodies⟩
  | untrack body next ihBody ih =>
    exact .bind (.observed fit (ihBody (fit.observe nofun))) fun result _ kept => ih result.1 kept.fit
  | dispose effect next ih => exact .bind (keptBy_dispose keeps fit effect) fun _ _ kept => ih kept.fit
  | remember access next ih =>
    have rest : KeptBy Hosted ((next _).run calls)
        { machine with world := { machine.world with memory := (access machine.world.memory).2 } } := ih (access machine.world.memory).1 fit
    exact rest

theorem keptBy_react (script : Script Memory) : KeptBy Hosted (script.react calls) machine :=
  keptBy_graph?.2 (.bind (keptBy_world fit _) fun _ _ kept => .bind (keptBy_script keeps kept.fit script) fun _ _ kept => .pure kept.fit _)

end

theorem keepsEffects_upTo (depth : Nat) : KeepsEffects Hosted (Calls.upTo (Interpreter.scripted Memory) depth) := by
  induction depth with
  | zero =>
    exact ⟨fun _ _ _ fit => Kept.refl fit, fun _ _ fit => Kept.refl fit, fun _ _ _ fit => Kept.refl fit, fun _ fit => Kept.refl fit⟩
  | succ depth ih =>
    refine ⟨fun code arguments machine fit => ?_, fun code machine fit => ?_, ?_, fun machine fit => keptBy_flush ih fit depth⟩
    · cases code with
      | query query => exact keptBy_query ih fit query
      | script script => exact (leaves_map ..).2 (keptBy_script ih fit script)
    · cases code with
      | query query => exact .bind (.discard (keptBy_query ih fit query)) fun _ _ kept => .pure kept.fit _
      | script script => exact keptBy_react ih fit script
    · rintro _ ⟨code, rfl⟩ machine fit
      exact ih.react code machine fit

/-- The machines that scripts lead to, run one after the other from outside, each to its end or to a panic. -/
inductive Reached : Machine (Host.scripted Memory) → Prop where
  | start (memory : Memory) : Reached (Machine.scripted memory)
  | run {before after : Machine (Host.scripted Memory)} {script : Script Memory} {ending : Ending (Value × Option (Script Memory))}
    {depth : Nat} (reached : Reached before)
    (ran : (script.run (Calls.upTo (Interpreter.scripted Memory) depth)).run before = (ending, after)) (ended : ending ≠ .exhausted) :
    Reached after

/-- Between scripts no batch is open, and every live effect has its body. -/
structure Restored (machine : Machine (Host.scripted Memory)) : Prop where
  fit : machine.graph.Fit Hosted
  closed : machine.graph.depth = 0
  bodied : ∀ id effect, machine.graph.content? id = some (.effect effect) → effect.disposed = false → effect.body.isSome

theorem Reached.restored (reached : Reached machine) : Restored machine := by
  induction reached with
  | start memory =>
    have none (id : Nat) : (Machine.scripted memory).graph.content? id = none := by simp [Machine.scripted, content?]
    refine ⟨⟨fun source reader => ?_, (fun _ never => by cases never), by simp [none]⟩, rfl, by simp [none]⟩
    simp [Machine.scripted, subscribers, sources]
  | @run before after script ending depth _ ran _ ih =>
    have kept := (keptBy_script (keepsEffects_upTo depth) ih.fit script).of_run ran
    exact ⟨kept.fit, kept.steady.depth.trans ih.closed, kept.steady.bodied ih.bodied⟩

/-- The machine in which the effects that were told of a write wait in the batch in which they run. -/
def toldInBatch (machine : Machine (Host.scripted Memory)) (cell : Nat) (value : Value) : Machine (Host.scripted Memory) :=
  { told machine cell value with graph := (told machine cell value).graph.enterBatch }

/-- A step that changes a signal: it writes a value that differs, or any value and tells of it. -/
inductive Changes (calls : Calls (Host.scripted Memory)) (machine : Machine (Host.scripted Memory)) (cell : Nat) (value : Value) :
    ScriptRun Memory Unit → Prop where
  | write {held : Value} (signal : machine.graph.content? cell = some (.signal held)) (differs : held.same value = false) :
    Changes calls machine cell value (write calls cell value)
  | rewrite {held : Value} (signal : machine.graph.content? cell = some (.signal held)) :
    Changes calls machine cell value (rewrite calls cell value)

variable {cell : Nat} {value : Value} {step : ScriptRun Memory Unit}

theorem Changes.exists_signal (changes : Changes calls machine cell value step) :
    ∃ held, machine.graph.content? cell = some (.signal held) := by
  cases changes with
  | write signal | rewrite signal => exact ⟨_, signal⟩

theorem Changes.run_eq (changes : Changes calls machine cell value step) : step.run machine = calls.flush.run (told machine cell value) := by
  cases changes with
  | write signal differs => rw [run_write signal, differs, if_neg Bool.false_ne_true]
  | rewrite signal => rw [run_rewrite signal]

/-- A write from outside reaches all the live effects that the signal feeds, whatever panics there were before it.
Each of them runs, unless it is disposed of before or another effect panics before. -/
theorem rerun_of_feeds {depth : Nat} {ending : Ending Unit} {after : Machine (Host.scripted Memory)} (reached : Reached machine)
    (changes : Changes (Calls.upTo (Interpreter.scripted Memory) (depth + 1)) machine cell value step)
    (ran : step.run machine = (ending, after)) (ended : ending ≠ .exhausted) :
    ∃ runs last, Drained (Calls.upTo (Interpreter.scripted Memory) depth) (toldInBatch machine cell value) runs ending last ∧
      after = { last with graph := last.graph.leaveBatch ending.isPanic } ∧
      ∀ effect, machine.graph.IsLive effect → machine.graph.Feeds cell effect → after.graph.IsLive effect →
        (∀ cause, ending = .panicked cause → ∃ moment, runs.getLast? = some (effect, moment)) →
        ∃ moment, (effect, moment) ∈ runs ∧ moment.Runnable effect := by
  obtain ⟨fit, closed, bodied⟩ := reached.restored
  obtain ⟨held, signal⟩ := changes.exists_signal
  have written := Kept.write fit signal value
  have entered : (toldInBatch machine cell value).graph.Fit Hosted := ⟨written.fit.symmetric, written.fit.observing, written.fit.bodies⟩
  rw [changes.run_eq, show (Calls.upTo (Interpreter.scripted Memory) (depth + 1)).flush =
    flush (Calls.upTo (Interpreter.scripted Memory) depth) depth from rfl, run_flush (written.steady.depth.trans closed)] at ran
  cases drains : (drain (Calls.upTo (Interpreter.scripted Memory) depth) depth).run (toldInBatch machine cell value) with
  | mk final last =>
    rw [show { told machine cell value with graph := (told machine cell value).graph.enterBatch } = toldInBatch machine cell value from rfl,
      drains] at ran
    cases ran
    obtain ⟨runs, drained⟩ := drained_of_drain drains ended
    refine ⟨runs, last, drained, rfl, fun effect live feeds stillLive calm => ?_⟩
    obtain ⟨content, found, awake⟩ := live
    have stays : (toldInBatch machine cell value).graph.content? effect = some (.effect content) :=
      (effect_write fit.symmetric signal value).2 found
    have waits : effect ∈ (toldInBatch machine cell value).graph.queue :=
      (told_of_feeds fit.symmetric signal value feeds).2 ⟨content, stays, awake⟩
    refine drained.runs_waiting (keepsEffects_upTo depth) entered (Nat.succ_pos _) waits ⟨content, stays, awake, ?_⟩ ?_ calm
    · exact bodied effect content found awake
    · simpa [IsLive] using stillLive

/-- An effect that reads a computed value and panics when it is true, and a write that makes it so. -/
private def touchy : Script Unit :=
  .newSignal (.bool false) fun signal =>
    .newComputed (.read signal .answer) fun computed =>
      .newEffect (.get computed fun value => if value.isTruthy then .get 99 .finish else .finish value) fun _ =>
        .set signal (.bool true) (.finish .undefined)

/-- What the panic leaves behind. -/
private def touched : Machine (Host.scripted Unit) := ((touchy.run (Calls.upTo (Interpreter.scripted Unit) 9)).run (Machine.scripted ())).2

theorem rerun_of_feeds_touchy : ∃ (machine : Machine (Host.scripted Unit)) (cause : Panic) (runs : List (Nat × Machine (Host.scripted Unit)))
    (last moment : Machine (Host.scripted Unit)),
    (touchy.run (Calls.upTo (Interpreter.scripted Unit) 9)).run (Machine.scripted ()) = (.panicked cause, machine) ∧ Reached machine ∧
      machine.graph.Feeds 0 2 ∧ Drained (Calls.upTo (Interpreter.scripted Unit) 8) (toldInBatch machine 0 (.bool false)) runs (.done ()) last ∧
      (2, moment) ∈ runs ∧ moment.Runnable 2 := by
  have panics : (touchy.run (Calls.upTo (Interpreter.scripted Unit) 9)).run (Machine.scripted ()) =
      (.panicked (.host "not a cell"), touched) := Step.run_of_ending (by cbv)
  have reached : Reached touched := .run (.start ()) panics (fun never => by cases never)
  obtain ⟨first, second, fresh, signal⟩ : touched.graph.sources 1 = [0] ∧ touched.graph.sources 2 = [1] ∧
      touched.graph.isFresh 1 = true ∧ touched.graph.content? 0 = some (.signal (.bool true)) := by cbv
  have feeds : touched.graph.Feeds 0 2 := .through (.direct (first ▸ List.mem_cons_self)) fresh (second ▸ List.mem_cons_self)
  have changes : Changes (Calls.upTo (Interpreter.scripted Unit) 9) touched 0 (.bool false)
      (write (Calls.upTo (Interpreter.scripted Unit) 9) 0 (.bool false)) := .write signal rfl
  have done : ((write (Calls.upTo (Interpreter.scripted Unit) 9) 0 (.bool false)).run touched).1 = .done () := by cbv
  obtain ⟨runs, last, drained, _, rerun⟩ := rerun_of_feeds reached changes (Prod.ext done rfl) (fun never => by cases never)
  obtain ⟨moment, member, able⟩ := rerun 2 (isLive_of_effect? (by cbv)) feeds (isLive_of_effect? (by cbv)) (fun _ never => by cases never)
  exact ⟨touched, _, runs, last, moment, panics, reached, feeds, drained, member, able⟩

end Script

end ReactiveMarkup
