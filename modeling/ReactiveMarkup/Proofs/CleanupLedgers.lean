import ReactiveMarkup.Proofs.RecordedRuns

/-! Procedures beside a ledger on which the runtime takes down when the body of an effect starts, when it leaves
a cleanup, and when that cleanup takes control. The procedures themselves neither see nor change the ledger. -/

namespace ReactiveMarkup.Procedure

open ReactiveMarkup.Graph ReactiveMarkup.Step ReactiveMarkup.Machine

variable {Memory : Type} {α : Type}

/-- What happens to the cleanups of effects. Each has a ticket, which it gets when it is left. -/
inductive Event where
  /-- The body of the effect that observes takes control. -/
  | started (effect : Option Nat)
  /-- A run of the body has ended and has left a cleanup. -/
  | left (effect : Option Nat) (ticket : Nat)
  /-- A cleanup takes control, and its reads are attributed to the observer. -/
  | cleaned (ticket : Nat) (observer : Option Nat)
  deriving DecidableEq

structure Ledger where
  /-- The ticket of the next cleanup. -/
  next : Nat := 0
  /-- Who observed when code was last called. -/
  observer : Option Nat := none
  /-- What has happened, the latest first. -/
  events : List Event := []

namespace Ledger

def note (ledger : Ledger) (event : Event) : Ledger := { ledger with events := event :: ledger.events }

/-- Gives out a ticket for a cleanup that an effect has left. -/
def issue (ledger : Ledger) (effect : Option Nat) : Nat × Ledger :=
  (ledger.next, { ledger with next := ledger.next + 1, events := .left effect ledger.next :: ledger.events })

end Ledger

/-- A procedure beside a ledger that it leaves alone. -/
def lift : Procedure Memory → Procedure (Ledger × Memory)
  | .finish value => .finish value
  | .leave cleanup => .leave cleanup.lift
  | .panic message => .panic message
  | .newSignal value next => .newSignal value fun id => (next id).lift
  | .newComputed body next => .newComputed body.lift fun id => (next id).lift
  | .newEffect body next => .newEffect body.lift fun id => (next id).lift
  | .get cell next => .get cell fun value => (next value).lift
  | .peek cell next => .peek cell fun value => (next value).lift
  | .set cell value next => .set cell value next.lift
  | .update cell value next => .update cell value next.lift
  | .batch body next => .batch body.lift fun value => (next value).lift
  | .untrack body next => .untrack body.lift fun value => (next value).lift
  | .attempt body next => .attempt body.lift fun value => (next value).lift
  | .dispose effect next => .dispose effect next.lift
  | .remember access next =>
    .remember (fun state => ((access state.2).1, (state.1, (access state.2).2))) fun value => (next value).lift

/-- A cleanup that takes itself down when it takes control. -/
def closing (ticket : Nat) (cleanup : Procedure (Ledger × Memory)) : Procedure (Ledger × Memory) :=
  .remember (fun state => (.undefined, (state.1.note (.cleaned ticket state.1.observer), state.2))) fun _ => cleanup

abbrev LedgerMachine (Memory : Type) := Machine (Host.procedural (Ledger × Memory))

abbrev LedgerRun (Memory α : Type) := ProcedureRun (Ledger × Memory) α

abbrev LedgerEffect (Memory : Type) := Effect (Procedure (Ledger × Memory)) (Task (Procedure (Ledger × Memory)))

abbrev LedgerGraph (Memory : Type) := Graph (Procedure (Ledger × Memory)) (Task (Procedure (Ledger × Memory)))

/-- The machine with another ledger. -/
def withLedger (machine : LedgerMachine Memory) (ledger : Ledger) : LedgerMachine Memory :=
  { machine with world := { machine.world with memory := (ledger, machine.world.memory.2) } }

/-- A step on the ledger. -/
def onLedger (access : Ledger → α × Ledger) : LedgerRun Memory α :=
  MonadState.modifyGet fun machine => ((access machine.world.memory.1).1, withLedger machine (access machine.world.memory.1).2)

end Procedure

open Procedure in
/-- Runs procedures as they are, and takes down what happens to the cleanups of effects. -/
def Interpreter.ledgered (Memory : Type) : Interpreter (Host.procedural (Ledger × Memory)) where
  call calls code _ := do
    let observer := (← Machine.graph?).observer
    onLedger fun ledger => ((), { ledger with observer })
    Prod.fst <$> code.run calls
  react calls code := do
    let effect := (← Machine.graph?).observer
    onLedger fun ledger => ((), ledger.note (.started effect))
    match (← code.run calls).2 with
    | none => return none
    | some cleanup => return some (closing (← onLedger (·.issue effect)) cleanup)
  build _ _ _ := Step.panic (.host "not a maker of nodes")
  control _ _ _ := Step.panic (.host "not a controller")
  view _ _ _ _ := Step.panic (.host "not a view")

namespace Procedure

open ReactiveMarkup.Graph ReactiveMarkup.Step ReactiveMarkup.Machine

variable {Memory : Type} {α β : Type} {calls : Calls (Host.procedural (Ledger × Memory))} {machine : LedgerMachine Memory}

theorem leaves_onLedger_bind (access : Ledger → α × Ledger) (next : α → LedgerRun Memory β)
    (machine : LedgerMachine Memory) (post : LedgerMachine Memory → Prop) :
    Leaves (onLedger access >>= next) machine post ↔
      Leaves (next (access machine.world.memory.1).1) (withLedger machine (access machine.world.memory.1).2) post := Iff.rfl

theorem ordered_withLedger (orderly : machine.Orderly Hosted Calm) (ledger : Ledger) : machine.Ordered Hosted Calm (withLedger machine ledger) :=
  ⟨.refl orderly.fit, orderly.calm⟩

theorem recorded_withLedger (careful : Careful machine) (ledger : Ledger) : Recorded.plain machine (withLedger machine ledger) :=
  recorded_memory careful _

theorem keepsOrder_ledgered (depth : Nat) : KeepsOrder Hosted Calm (Calls.upTo (Interpreter.ledgered Memory) depth) := by
  induction depth with
  | zero =>
    exact ⟨fun _ _ _ orderly => Ordered.refl orderly, fun _ _ orderly => Ordered.refl orderly, fun _ _ _ orderly => Ordered.refl orderly,
      fun _ orderly => Ordered.refl orderly⟩
  | succ depth ih =>
    refine ⟨fun code _ machine orderly => ?_, fun code machine orderly => ?_, ?_, fun _ orderly => orders_flush ih orderly depth⟩
    · refine (leaves_graph?_bind _ machine _).2 ((leaves_onLedger_bind ..).2 ?_)
      have noted := ordered_withLedger orderly { machine.world.memory.1 with observer := machine.graph.observer }
      exact (leaves_map ..).2 ((orders_run ih code noted.orderly).mono fun _ later => noted.trans later)
    · refine (leaves_graph?_bind _ machine _).2 ((leaves_onLedger_bind ..).2 ?_)
      have noted := ordered_withLedger orderly (machine.world.memory.1.note (.started machine.graph.observer))
      refine Leaves.bind ((orders_run ih code noted.orderly).mono fun _ later => noted.trans later) (fun _ ordered => ordered) ?_
      intro result between _ ordered
      cases result.2 with
      | none => exact ordered
      | some cleanup => exact ordered.trans (ordered_withLedger ordered.orderly _)
    · rintro _ ⟨code, rfl⟩ machine orderly
      exact ih.react code machine orderly

theorem keepsRecords_ledgered (depth : Nat) : KeepsRecords (Calls.upTo (Interpreter.ledgered Memory) depth) := by
  induction depth with
  | zero =>
    exact ⟨keepsOrder_ledgered 0, fun _ _ _ careful _ => .refl careful, fun _ _ careful begun => ⟨.refl careful, begun⟩,
      fun _ _ _ careful begun => ⟨.refl careful, begun⟩, fun _ careful => .refl careful⟩
  | succ depth ih =>
    refine ⟨keepsOrder_ledgered (depth + 1), fun code _ machine careful begun => ?_, fun code machine careful begun => ?_, ?_,
      fun _ careful => records_flush ih careful depth⟩
    · refine (leaves_graph?_bind _ machine _).2 ((leaves_onLedger_bind ..).2 ?_)
      have noted := recorded_withLedger careful { machine.world.memory.1 with observer := machine.graph.observer }
      exact (leaves_map ..).2 ((conducts_run ih code noted.careful begun).mono fun _ both => noted.trans both.1)
    · refine (leaves_graph?_bind _ machine _).2 ((leaves_onLedger_bind ..).2 ?_)
      have noted := recorded_withLedger careful (machine.world.memory.1.note (.started machine.graph.observer))
      refine Leaves.bind ((conducts_run ih code noted.careful begun).mono fun _ both => And.imp_left noted.trans both) (fun _ both => both) ?_
      intro result between _ both
      cases result.2 with
      | none => exact both
      | some cleanup => exact ⟨both.1.trans (recorded_withLedger both.1.careful _), both.2⟩
    · rintro _ ⟨code, rfl⟩ machine careful begun
      exact ih.react code machine careful begun

end ReactiveMarkup.Procedure
