import Mathlib
import ReactiveMarkup.Interpreter
import ReactiveMarkup.Proofs.SteadyEffects

/-! Readers and sources match whenever code has control. The code may do anything that the runtime
offers, may panic and catch panics, and may dispose of the effect that is running it; computed
values and cleanups may do all that effects may do. -/

namespace ReactiveMarkup

/-- A step whose panics are caught. What it has done until then stays done. -/
def Step.caught {σ α : Type} (step : Step σ α) : Step σ (Option α) := fun state =>
  match step state with
  | (.done value, state) => (.done (some value), state)
  | (.panicked _, state) => (.done none, state)
  | (.exhausted, state) => (.exhausted, state)

theorem Step.leaves_caught {σ α : Type} (step : Step σ α) (before : σ) (post : σ → Prop) :
    Leaves step.caught before post ↔ Leaves step before post := by
  simp only [Leaves, run, caught]
  rcases step before with ⟨_ | _ | _, _⟩ <;> rfl

/-- Code that works with the runtime. It has a memory of its own, where it may leave what it knows
for other code, and goes on in a way that may depend on all it has seen. -/
inductive Procedure (Memory : Type) where
  | finish (value : Value)
  /-- Ends the run of an effect and leaves a cleanup behind. -/
  | leave (cleanup : Procedure Memory)
  | panic (message : String)
  | newSignal (value : Value) (next : Nat → Procedure Memory)
  | newComputed (body : Procedure Memory) (next : Nat → Procedure Memory)
  | newEffect (body : Procedure Memory) (next : Nat → Procedure Memory)
  | get (cell : Nat) (next : Value → Procedure Memory)
  | peek (cell : Nat) (next : Value → Procedure Memory)
  | set (cell : Nat) (value : Value) (next : Procedure Memory)
  | update (cell : Nat) (value : Value) (next : Procedure Memory)
  | batch (body : Procedure Memory) (next : Value → Procedure Memory)
  | untrack (body : Procedure Memory) (next : Value → Procedure Memory)
  /-- Goes on with the value of the body, or without one if it panics. -/
  | attempt (body : Procedure Memory) (next : Option Value → Procedure Memory)
  | dispose (effect : Nat) (next : Procedure Memory)
  | remember (access : Memory → Value × Memory) (next : Value → Procedure Memory)

structure ProcedureWorld (Memory : Type) where
  memory : Memory
  /-- The graph as it was at each moment at which a procedure had control. -/
  seen : List (Graph (Procedure Memory) (Task (Procedure Memory))) := []

abbrev Host.procedural (Memory : Type) : Host := ⟨Procedure Memory, ProcedureWorld Memory, fun _ => []⟩

variable {Memory : Type}

namespace Procedure

abbrev ProcedureRun (Memory : Type) := Run (Host.procedural Memory)

/-- Takes down the graph as it is. -/
def observe : ProcedureRun Memory Unit :=
  modify fun machine => { machine with world := { machine.world with seen := machine.graph :: machine.world.seen } }

/-- Does something to a cell that has to be a signal. -/
def onSignal (cell : Nat) (act : ProcedureRun Memory Unit) : ProcedureRun Memory Unit := do
  match (← Machine.graph?).content? cell with
  | some (.signal _) => act
  | _ => Step.panic (.host "not a signal")

/-- Runs a procedure, which has control before each of its operations and when it ends. It gives a
value and perhaps a cleanup. -/
def run (calls : Calls (Host.procedural Memory)) : Procedure Memory → ProcedureRun Memory (Value × Option (Procedure Memory))
  | .finish value => do
    observe
    return (value, none)
  | .leave cleanup => do
    observe
    return (.undefined, some cleanup)
  | .panic message => do
    observe
    Step.panic (.host message)
  | .newSignal value next => do
    observe
    (next (← Machine.newSignal value)).run calls
  | .newComputed body next => do
    observe
    (next (← Machine.newComputed body)).run calls
  | .newEffect body next => do
    observe
    (next (← Machine.newEffect calls (.host body))).run calls
  | .get cell next => do
    observe
    (next (← Machine.readCell calls cell)).run calls
  | .peek cell next => do
    observe
    (next (← Machine.peek cell)).run calls
  | .set cell value next => do
    observe
    onSignal cell (Machine.writeSignal calls cell value)
    next.run calls
  | .update cell value next => do
    observe
    onSignal cell (Machine.updateSignal calls cell value)
    next.run calls
  | .batch body next => do
    observe
    (next (← Machine.batch calls (body.run calls)).1).run calls
  | .untrack body next => do
    observe
    (next (← Machine.untrack (body.run calls)).1).run calls
  | .attempt body next => do
    observe
    (next ((← (body.run calls).caught).map Prod.fst)).run calls
  | .dispose effect next => do
    observe
    Machine.dispose calls effect
    next.run calls
  | .remember access next => do
    observe
    let value ← MonadState.modifyGet fun machine =>
      let (value, memory) := access machine.world.memory
      (value, { machine with world := { machine.world with memory } })
    (next value).run calls

end Procedure

/-- Whatever the runtime calls is a procedure; there is nothing to render. -/
def Interpreter.procedural (Memory : Type) : Interpreter (Host.procedural Memory) where
  call calls code _ := Prod.fst <$> code.run calls
  react calls code := Prod.snd <$> code.run calls
  build _ _ _ := Step.panic (.host "not a maker of nodes")
  control _ _ _ := Step.panic (.host "not a controller")
  view _ _ _ _ := Step.panic (.host "not a view")

def Machine.procedural (memory : Memory) : Machine (Host.procedural Memory) :=
  { registry := { runtimeModule := "" }, world := { memory } }

namespace Procedure

open ReactiveMarkup.Graph ReactiveMarkup.Step ReactiveMarkup.Machine

variable {calls : Calls (Host.procedural Memory)} {machine : Machine (Host.procedural Memory)}

/-- Bodies that procedures give to effects. -/
def Hosted (task : Task (Procedure Memory)) : Prop := ∃ code, task = .host code

/-- All that procedures have seen was symmetric. -/
def Calm (_ : Document (Listener (Procedure Memory))) (world : ProcedureWorld Memory) : Prop := ∀ graph ∈ world.seen, graph.Symmetric

/-- A procedure takes control and goes on. -/
theorem orders_observe {β : Type} (orderly : machine.Orderly Hosted Calm) {next : ProcedureRun Memory β}
    (rest : ∀ later : Machine (Host.procedural Memory), later.Orderly Hosted Calm → Orders Hosted Calm next later) :
    Orders Hosted Calm (observe >>= fun _ => next) machine := by
  have observed : machine.Ordered Hosted Calm { machine with world := { machine.world with seen := machine.graph :: machine.world.seen } } := by
    refine ⟨.refl orderly.fit, fun graph member => ?_⟩
    obtain rfl | member := List.mem_cons.1 member
    · exact orderly.fit.symmetric
    · exact orderly.calm graph member
  exact (rest _ observed.orderly).mono fun _ later => observed.trans later

theorem orders_add (orderly : machine.Orderly Hosted Calm) {content : Content (Procedure Memory) (Task (Procedure Memory))}
    (cell : ∀ effect, content ≠ .effect effect) : Orders Hosted Calm (addToGraph content) machine :=
  orderly.changed (.add orderly.fit content fun effect same => absurd same (cell effect))

theorem orders_onSignal (orderly : machine.Orderly Hosted Calm) {cell : Nat} {act : ProcedureRun Memory Unit}
    (acting : ∀ held, machine.graph.content? cell = some (.signal held) → Orders Hosted Calm act machine) :
    Orders Hosted Calm (onSignal cell act) machine := by
  refine orders_graph?.2 ?_
  split
  next held signal => exact acting held signal
  next => exact Ordered.refl orderly

theorem orders_run (keeps : KeepsOrder Hosted Calm calls) (procedure : Procedure Memory) (orderly : machine.Orderly Hosted Calm) :
    Orders Hosted Calm (procedure.run calls) machine := by
  induction procedure generalizing machine with
  | finish | leave => exact orders_observe orderly fun _ orderly => .pure orderly _
  | panic => exact orders_observe orderly fun _ orderly => Ordered.refl orderly
  | newSignal value next ih =>
    refine orders_observe orderly fun _ orderly => ?_
    exact .bind (orders_add orderly nofun) fun id _ ordered => ih id ordered.orderly
  | newComputed body next _ ih =>
    refine orders_observe orderly fun _ orderly => ?_
    exact .bind (orders_add orderly nofun) fun id _ ordered => ih id ordered.orderly
  | newEffect body next _ ih =>
    refine orders_observe orderly fun _ orderly => ?_
    exact .bind (orders_newEffect keeps orderly ⟨_, rfl⟩) fun id _ ordered => ih id ordered.orderly
  | get cell next ih =>
    refine orders_observe orderly fun _ orderly => ?_
    exact .bind (orders_readCell keeps orderly cell) fun value _ ordered => ih value ordered.orderly
  | peek cell next ih => exact orders_observe orderly fun _ orderly => ih _ orderly
  | set cell value next ih =>
    refine orders_observe orderly fun _ orderly => ?_
    refine .bind (orders_onSignal orderly fun held signal => ?_) fun _ _ ordered => ih ordered.orderly
    exact orders_writeSignal keeps orderly signal value
  | update cell value next ih =>
    refine orders_observe orderly fun _ orderly => ?_
    refine .bind (orders_onSignal orderly fun held signal => ?_) fun _ _ ordered => ih ordered.orderly
    exact orders_updateSignal keeps orderly signal value
  | batch body next ihBody ih =>
    refine orders_observe orderly fun _ orderly => ?_
    exact .bind (orders_batch keeps (ihBody orderly.enterBatch)) fun result _ ordered => ih result.1 ordered.orderly
  | untrack body next ihBody ih =>
    refine orders_observe orderly fun _ orderly => ?_
    exact .bind (.observed orderly (ihBody (orderly.observe none nofun))) fun result _ ordered => ih result.1 ordered.orderly
  | attempt body next ihBody ih =>
    refine orders_observe orderly fun _ orderly => ?_
    exact .bind ((leaves_caught ..).2 (ihBody orderly)) fun result _ ordered => ih (result.map Prod.fst) ordered.orderly
  | dispose effect next ih =>
    refine orders_observe orderly fun _ orderly => ?_
    exact .bind (orders_dispose keeps orderly effect) fun _ _ ordered => ih ordered.orderly
  | remember access next ih =>
    refine orders_observe orderly fun later orderly => ?_
    have remembered : later.Ordered Hosted Calm { later with world := { later.world with memory := (access later.world.memory).2 } } :=
      ⟨.refl orderly.fit, orderly.calm⟩
    exact (ih (access later.world.memory).1 remembered.orderly).mono fun _ last => remembered.trans last

theorem keepsOrder_upTo (depth : Nat) : KeepsOrder Hosted Calm (Calls.upTo (Interpreter.procedural Memory) depth) := by
  induction depth with
  | zero =>
    exact ⟨fun _ _ _ orderly => Ordered.refl orderly, fun _ _ orderly => Ordered.refl orderly, fun _ _ _ orderly => Ordered.refl orderly,
      fun _ orderly => Ordered.refl orderly⟩
  | succ depth ih =>
    refine ⟨fun code _ _ orderly => (leaves_map ..).2 (orders_run ih code orderly),
      fun code _ orderly => (leaves_map ..).2 (orders_run ih code orderly), ?_, fun _ orderly => orders_flush ih orderly depth⟩
    rintro _ ⟨code, rfl⟩ machine orderly
    exact ih.react code machine orderly

/-- The machines that procedures lead to, run one after the other from outside, however each of them ends. -/
inductive Reached : Machine (Host.procedural Memory) → Prop where
  | start (memory : Memory) : Reached (Machine.procedural memory)
  | run {before after : Machine (Host.procedural Memory)} {procedure : Procedure Memory} {depth : Nat}
      {ending : Ending (Value × Option (Procedure Memory))} (reached : Reached before)
      (ran : (procedure.run (Calls.upTo (Interpreter.procedural Memory) depth)).run before = (ending, after)) : Reached after

theorem Reached.orderly (reached : Reached machine) : machine.Orderly Hosted Calm := by
  induction reached with
  | start memory =>
    refine ⟨⟨fun source reader => ?_, (fun _ never => by cases never), ?_⟩, nofun⟩
    · simp [Machine.procedural, subscribers, sources]
    · simp [Machine.procedural, content?]
  | run _ ran ih => exact ((orders_run (keepsOrder_upTo _) _ ih).of_run ran).orderly

/-- Readers and sources match between procedures, and they did at each moment at which one had control. -/
theorem symmetric_of_reached (reached : Reached machine) :
    machine.graph.Symmetric ∧ ∀ graph ∈ machine.world.seen, graph.Symmetric :=
  ⟨reached.orderly.fit.symmetric, reached.orderly.calm⟩

/-- An effect that catches the panic of a computed value that it reads, disposes of itself, and reads on. -/
private def stubborn : Procedure Unit :=
  .newSignal (.bool true) fun signal =>
    .newComputed (.get signal fun _ => .panic "no value") fun computed =>
      .newEffect (.attempt (.get computed .finish) fun _ => .dispose 2 (.get signal .finish)) fun _ =>
        .set signal (.bool false) (.panic "over")

/-- What is left when it has run again and the procedure has panicked. -/
private def endured : Machine (Host.procedural Unit) := ((stubborn.run (Calls.upTo (Interpreter.procedural Unit) 9)).run (Machine.procedural ())).2

theorem symmetric_of_reached_stubborn : ∃ machine : Machine (Host.procedural Unit), Reached machine ∧
    machine.graph.subscribers 0 = [1, 2] ∧ machine.graph.sources 2 = [0] ∧ machine.world.seen.length = 12 ∧
    machine.graph.Symmetric ∧ ∀ graph ∈ machine.world.seen, graph.Symmetric := by
  have panics : (stubborn.run (Calls.upTo (Interpreter.procedural Unit) 9)).run (Machine.procedural ()) =
      (.panicked (.host "over"), endured) := Step.run_of_ending (by cbv)
  have readers : endured.graph.subscribers 0 = [1, 2] := by cbv
  have sources : endured.graph.sources 2 = [0] := by cbv
  have moments : endured.world.seen.length = 12 := by cbv
  exact ⟨endured, .run (.start ()) panics, readers, sources, moments, symmetric_of_reached (.run (.start ()) panics)⟩

end Procedure

end ReactiveMarkup
