import ReactiveMarkup.Proofs.Reading

/-! Code that makes cells and effects, reads, writes, batches and disposes, in any order and
nesting. Running it keeps notes of what each effect reads, so that one can tell whether
something an effect has read was changed since. -/

namespace ReactiveMarkup

/-- Code that works with cells and effects. It has a memory of its own, and goes on in a way
that may depend on all it has seen. -/
inductive Script (Memory : Type) where
  | finish (value : Value)
  /-- Ends the run of an effect and leaves a cleanup behind. -/
  | leave (cleanup : Script Memory)
  | newSignal (value : Value) (next : Nat → Script Memory)
  | newComputed (query : Query) (next : Nat → Script Memory)
  | newEffect (body : Script Memory) (next : Nat → Script Memory)
  | get (cell : Nat) (next : Value → Script Memory)
  | peek (cell : Nat) (next : Value → Script Memory)
  | set (cell : Nat) (value : Value) (next : Script Memory)
  | update (cell : Nat) (value : Value) (next : Script Memory)
  | batch (body : Script Memory) (next : Value → Script Memory)
  | untrack (body : Script Memory) (next : Value → Script Memory)
  | dispose (effect : Nat) (next : Script Memory)
  | remember (access : Memory → Value × Memory) (next : Value → Script Memory)

/-- Computed values run queries, and effects run scripts. -/
inductive ScriptCode (Memory : Type) where
  | query (query : Query)
  | script (script : Script Memory)

/-- What a cell held when it was read, and how often it had been changed by then. -/
structure Note where
  cell : Nat
  value : Value
  changes : Nat

structure ScriptWorld (Memory : Type) where
  memory : Memory
  /-- What the last run of each effect has read. -/
  notes : Nat → List Note := fun _ => []
  /-- How often each signal was changed. -/
  changes : Nat → Nat := fun _ => 0

variable {Memory : Type}

namespace ScriptWorld

def forget (world : ScriptWorld Memory) (effect : Nat) : ScriptWorld Memory :=
  { world with notes := fun other => if other = effect then [] else world.notes other }

def note (world : ScriptWorld Memory) (observer : Option Nat) (cell : Nat) (value : Value) : ScriptWorld Memory :=
  { world with
    notes := fun other =>
      if some other = observer then world.notes other ++ [⟨cell, value, world.changes cell⟩] else world.notes other }

def change (world : ScriptWorld Memory) (cell : Nat) : ScriptWorld Memory :=
  { world with changes := fun other => if other = cell then world.changes cell + 1 else world.changes other }

end ScriptWorld

abbrev Host.scripted (Memory : Type) : Host := ⟨ScriptCode Memory, ScriptWorld Memory, fun _ => []⟩

namespace Script

abbrev ScriptRun (Memory : Type) := Run (Host.scripted Memory)

def modifyWorld (f : ScriptWorld Memory → ScriptWorld Memory) : ScriptRun Memory Unit :=
  modify fun machine => { machine with world := f machine.world }

/-- Reads a cell and takes a note of it for the observer. -/
def read (calls : Calls (Host.scripted Memory)) (cell : Nat) : ScriptRun Memory Value := do
  let value ← Machine.readCell calls cell
  let observer := (← Machine.graph?).observer
  modifyWorld (·.note observer cell value)
  return value

/-- Does something to a cell that has to be a signal, given its value. -/
def onSignal (cell : Nat) (act : Value → ScriptRun Memory Unit) : ScriptRun Memory Unit := do
  match (← Machine.graph?).content? cell with
  | some (.signal value) => act value
  | _ => Step.panic (.host "not a signal")

/-- Writes a signal; this is a change unless the value is equal. -/
def write (calls : Calls (Host.scripted Memory)) (cell : Nat) (value : Value) : ScriptRun Memory Unit :=
  onSignal cell fun held => do
    if !held.same value then modifyWorld (·.change cell)
    Machine.writeSignal calls cell value

def rewrite (calls : Calls (Host.scripted Memory)) (cell : Nat) (value : Value) : ScriptRun Memory Unit :=
  onSignal cell fun _ => do
    modifyWorld (·.change cell)
    Machine.updateSignal calls cell value

/-- Runs a script. It gives a value and perhaps a cleanup. -/
def run (calls : Calls (Host.scripted Memory)) : Script Memory → ScriptRun Memory (Value × Option (Script Memory))
  | .finish value => return (value, none)
  | .leave cleanup => return (.undefined, some cleanup)
  | .newSignal value next => do (next (← Machine.newSignal value)).run calls
  | .newComputed query next => do (next (← Machine.newComputed (.query query))).run calls
  | .newEffect body next => do (next (← Machine.newEffect calls (.host (.script body)))).run calls
  | .get cell next => do (next (← read calls cell)).run calls
  | .peek cell next => do (next (← Machine.peek cell)).run calls
  | .set cell value next => do
    write calls cell value
    next.run calls
  | .update cell value next => do
    rewrite calls cell value
    next.run calls
  | .batch body next => do (next (← Machine.batch calls (body.run calls)).1).run calls
  | .untrack body next => do (next (← Machine.untrack (body.run calls)).1).run calls
  | .dispose effect next => do
    Machine.dispose calls effect
    next.run calls
  | .remember access next => do
    let value ← MonadState.modifyGet fun machine =>
      let (value, memory) := access machine.world.memory
      (value, { machine with world := { machine.world with memory } })
    (next value).run calls

/-- Runs a script as the body of the effect that observes: what its last run read is forgotten. -/
def react (calls : Calls (Host.scripted Memory)) (script : Script Memory) :
    ScriptRun Memory (Option (ScriptCode Memory)) := do
  let observer := (← Machine.graph?).observer
  modifyWorld fun world => observer.elim world world.forget
  return (← script.run calls).2.map .script

end Script

/-- Only queries and scripts are run; there is nothing to render. -/
def Interpreter.scripted (Memory : Type) : Interpreter (Host.scripted Memory) where
  call calls code _ :=
    match code with
    | .query query => query.run calls
    | .script script => Prod.fst <$> script.run calls
  react calls code :=
    match code with
    | .query query => do
      discard (query.run calls)
      return none
    | .script script => script.react calls
  build _ _ _ := Step.panic (.host "not a maker of nodes")
  control _ _ _ := Step.panic (.host "not a controller")
  view _ _ _ _ := Step.panic (.host "not a view")

def Machine.scripted (memory : Memory) : Machine (Host.scripted Memory) :=
  { registry := { runtimeModule := "" }, world := { memory } }

/-- The machines that scripts lead to, run one after the other from outside, none of which
breaks off. -/
inductive Script.Reachable : Machine (Host.scripted Memory) → Prop where
  | start (memory : Memory) : Reachable (Machine.scripted memory)
  | run {before after : Machine (Host.scripted Memory)} {script : Script Memory}
      {result : Value × Option (Script Memory)} {depth : Nat} (reachable : Reachable before)
      (done : (script.run (Calls.upTo (Interpreter.scripted Memory) depth)).run before = (.done result, after)) :
      Reachable after

/-- The queries that computed values run. -/
def ScriptCode.query? : ScriptCode Memory → Option Query
  | .query asked => some asked
  | .script _ => none

namespace Script

open ReactiveMarkup.Graph

/-- An effect waits to run, or all that its last run has read is among its sources and is as it
was then, and it has no other sources. -/
def Watched (machine : Machine (Host.scripted Memory)) (effect : Nat) : Prop :=
  effect ∈ machine.graph.queue ∨
    ((∀ note ∈ machine.world.notes effect, note.cell ∈ machine.graph.sources effect ∧
        machine.graph.current? note.cell = some note.value ∧ machine.world.changes note.cell = note.changes) ∧
      ∀ source ∈ machine.graph.sources effect, ∃ note ∈ machine.world.notes effect, note.cell = source)

/-- What holds whenever an operation of a script starts or ends. -/
structure Sound (machine : Machine (Host.scripted Memory)) : Prop where
  coherent : machine.graph.Coherent ScriptCode.query?
  /-- No computed value is being computed. -/
  waiting : machine.graph.BusyWithin []
  observing : ∀ observer, machine.graph.observer = some observer →
    ∃ effect, machine.graph.content? observer = some (.effect effect)
  scripted : ∀ id effect, machine.graph.content? id = some (.effect effect) →
    (∀ body, effect.body = some body → ∃ script, body = .host (.script script)) ∧
      ∀ code, effect.cleanup = some code → ∃ script, code = .script script
  /-- Outside of any batch, no effect is running. -/
  bodied : machine.graph.depth = 0 → ∀ id effect, machine.graph.content? id = some (.effect effect) →
    effect.disposed = false → effect.body.isSome

/-- What scripts do to the effects, with possible exceptions. -/
structure Advanced (except : Nat → Prop) (before after : Machine (Host.scripted Memory)) : Prop where
  size : before.graph.vertices.size ≤ after.graph.vertices.size
  depth : after.graph.depth = before.graph.depth
  observer : after.graph.observer = before.graph.observer
  effects : ∀ id effect, before.graph.content? id = some (.effect effect) →
    ∃ later, after.graph.content? id = some (.effect later) ∧
      (later.disposed = false → effect.disposed = false ∧ (¬ except id → later.body = effect.body))
  created : ∀ id effect, after.graph.content? id = some (.effect effect) →
    (∃ earlier, before.graph.content? id = some (.effect earlier)) ∨
      (before.graph.vertices.size ≤ id ∧ (¬ except id → effect.disposed = false → effect.body.isSome))
  watched : ∀ id, ¬ except id → after.graph.IsLive id →
    (id < before.graph.vertices.size → Watched before id) → Watched after id

/-- Effects come to read nothing new, with possible exceptions. -/
def Quiet (except : Nat → Prop) (before after : Machine (Host.scripted Memory)) : Prop :=
  ∀ id effect, before.graph.content? id = some (.effect effect) → ¬ except id →
    after.graph.sources id ⊆ before.graph.sources id

/-- What a part of a script's operation leaves behind. In a batch, only the observer reads
anything new. -/
structure Moved (before after : Machine (Host.scripted Memory)) : Prop where
  sound : Sound after
  advanced : Advanced (fun _ => False) before after
  quiet : 0 < before.graph.depth → Quiet (before.graph.observer = some ·) before after

/-- What a script leaves behind. Outside of any batch, no effect is left waiting. -/
structure Ran (before after : Machine (Host.scripted Memory)) : Prop extends Moved before after where
  settled : before.graph.depth = 0 → before.graph.queue = [] → after.graph.queue = []

/-- What running the effects that wait leaves behind. -/
structure Flushed (before after : Machine (Host.scripted Memory)) : Prop where
  sound : Sound after
  advanced : Advanced (fun _ => False) before after
  still : 0 < before.graph.depth → after = before
  emptied : before.graph.depth = 0 → after.graph.queue = []

variable {except : Nat → Prop} {before middle after machine : Machine (Host.scripted Memory)}

namespace Advanced

theorem refl (machine : Machine (Host.scripted Memory)) : Advanced except machine machine := by
  refine ⟨Nat.le_refl _, rfl, rfl, fun id effect found => ⟨effect, found, fun live => ⟨live, fun _ => rfl⟩⟩,
    fun id effect found => .inl ⟨effect, found⟩, fun id _ live watched => watched ?_⟩
  obtain ⟨effect, found, _⟩ := live
  exact machine.graph.lt_size_of_content? found

theorem isLive (advanced : Advanced except before after) {id : Nat} (live : after.graph.IsLive id)
    (old : id < before.graph.vertices.size) : before.graph.IsLive id := by
  obtain ⟨effect, found, awake⟩ := live
  rcases advanced.created id effect found with ⟨earlier, was⟩ | ⟨new, _⟩
  · obtain ⟨later, again, kept⟩ := advanced.effects id earlier was
    rw [found] at again
    cases again
    exact ⟨earlier, was, (kept awake).1⟩
  · omega

theorem trans (first : Advanced except before middle) (second : Advanced except middle after) :
    Advanced except before after := by
  refine ⟨Nat.le_trans first.size second.size, second.depth.trans first.depth, second.observer.trans first.observer,
    ?_, ?_, ?_⟩
  · intro id effect found
    obtain ⟨between, foundBetween, kept⟩ := first.effects id effect found
    obtain ⟨later, foundLater, keptToo⟩ := second.effects id between foundBetween
    refine ⟨later, foundLater, fun awake => ?_⟩
    obtain ⟨stillAwake, sameBody⟩ := keptToo awake
    obtain ⟨wasAwake, same⟩ := kept stillAwake
    exact ⟨wasAwake, fun usual => (sameBody usual).trans (same usual)⟩
  · intro id effect found
    rcases second.created id effect found with ⟨between, foundBetween⟩ | ⟨new, bodied⟩
    · refine (first.created id between foundBetween).imp_right fun ⟨new, bodied⟩ => ⟨new, fun usual awake => ?_⟩
      obtain ⟨later, again, kept⟩ := second.effects id between foundBetween
      rw [found] at again
      cases again
      obtain ⟨stillAwake, sameBody⟩ := kept awake
      rw [sameBody usual]
      exact bodied usual stillAwake
    · exact .inr ⟨Nat.le_trans first.size new, bodied⟩
  · intro id usual live watched
    exact second.watched id usual live fun old => first.watched id usual (second.isLive live old) watched

theorem mono {wider : Nat → Prop} (advanced : Advanced except before after) (includes : ∀ id, except id → wider id) :
    Advanced wider before after := by
  refine ⟨advanced.size, advanced.depth, advanced.observer, fun id effect found => ?_, fun id effect found => ?_,
    fun id usual => advanced.watched id fun odd => usual (includes id odd)⟩
  · obtain ⟨later, foundLater, kept⟩ := advanced.effects id effect found
    exact ⟨later, foundLater, fun awake => ⟨(kept awake).1, fun usual => (kept awake).2 fun odd => usual (includes id odd)⟩⟩
  · refine (advanced.created id effect found).imp_right fun ⟨new, bodied⟩ => ⟨new, fun usual => bodied fun odd => ?_⟩
    exact usual (includes id odd)

end Advanced

theorem Quiet.trans {odd : Nat → Prop} (first : Quiet except before middle) (second : Quiet except middle after)
    (advanced : Advanced odd before middle) : Quiet except before after := by
  intro id effect found usual source member
  obtain ⟨between, foundBetween, _⟩ := advanced.effects id effect found
  exact first id effect found usual (second id between foundBetween usual member)

theorem Moved.trans (first : Moved before middle) (second : Moved middle after) : Moved before after := by
  refine ⟨second.sound, first.advanced.trans second.advanced, fun inBatch => ?_⟩
  have quiet := second.quiet (first.advanced.depth ▸ inBatch)
  rw [first.advanced.observer] at quiet
  exact (first.quiet inBatch).trans quiet first.advanced

theorem Ran.refl (sound : Sound machine) : Ran machine machine :=
  ⟨⟨sound, .refl machine, fun _ _ _ _ _ _ member => member⟩, fun _ empty => empty⟩

theorem Ran.trans (first : Ran before middle) (second : Ran middle after) : Ran before after :=
  ⟨first.toMoved.trans second.toMoved, fun closed empty =>
    second.settled (first.advanced.depth ▸ closed) (first.settled closed empty)⟩

theorem Moved.flushed (moved : Moved before middle) (flushed : Flushed middle after) : Ran before after := by
  refine ⟨⟨flushed.sound, moved.advanced.trans flushed.advanced, fun inBatch => ?_⟩, fun closed _ => ?_⟩
  · rw [flushed.still (moved.advanced.depth ▸ inBatch)]
    exact moved.quiet inBatch
  · exact flushed.emptied (moved.advanced.depth ▸ closed)

end Script

end ReactiveMarkup
