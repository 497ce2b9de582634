import ReactiveMarkup.Proofs.ScenePlaces

/-! Scripts among effects of their own. Where no effect is there for a node, nothing that scripts do reaches the document,
however they end. -/

namespace ReactiveMarkup.Rendering

open ReactiveMarkup.Step ReactiveMarkup.Graph ReactiveMarkup.Machine

variable {Memory : Type} {calls : Calls (Host.rendering Memory)} {machine after : Stage Memory} {document : Document (Listener (Code Memory))}

/-- The body of an effect that is there for no node. -/
def Apart (task : Task (Code Memory)) : Prop := ¬ task.Renders

/-- A document that stays as it is. -/
def Unchanged (document : Document (Listener (Code Memory))) (current : Document (Listener (Code Memory))) (_ : World Memory) : Prop := current = document

section

variable (keeps : KeepsOrder Apart (Unchanged document) calls) (orderly : machine.Orderly Apart (Unchanged document))

include keeps orderly

theorem orders_query (query : Query) : Orders Apart (Unchanged document) (query.run calls) machine := by
  induction query generalizing machine with
  | answer => exact .pure orderly _
  | read cell next ih => exact .bind (orders_readCell keeps orderly cell) fun value _ ordered => ih value ordered.orderly

omit keeps in
theorem orders_add {content : Content (Code Memory) (Task (Code Memory))} (cell : ∀ effect, content ≠ .effect effect) :
    Orders Apart (Unchanged document) (addToGraph content) machine :=
  orderly.changed (.add orderly.fit content fun effect same => absurd same (cell effect))

omit keeps in
theorem orders_onSignal {cell : Nat} {act : Act Memory Unit}
    (acting : ∀ held, machine.graph.content? cell = some (.signal held) → Orders Apart (Unchanged document) act machine) :
    Orders Apart (Unchanged document) (onSignal cell act) machine := by
  refine orders_graph?.2 ?_
  split
  next held signal => exact acting held signal
  next => exact Ordered.refl orderly

theorem orders_run (script : Script Memory) : Orders Apart (Unchanged document) (run calls script) machine := by
  induction script generalizing machine with
  | finish | leave => exact .pure orderly _
  | newSignal value next ih => exact .bind (orders_add orderly nofun) fun id _ ordered => ih id ordered.orderly
  | newComputed query next ih => exact .bind (orders_add orderly nofun) fun id _ ordered => ih id ordered.orderly
  | newEffect body next _ ih =>
    refine .bind (orders_newEffect keeps orderly id) fun effect between ordered => ?_
    have adopted : between.Ordered Apart (Unchanged document) { between with world := { between.world with effects := effect :: between.world.effects } } :=
      ⟨.refl ordered.kept.fit, ordered.calm⟩
    exact (ih effect adopted.orderly).mono fun _ later => adopted.trans later
  | get cell next ih => exact .bind (orders_readCell keeps orderly cell) fun value _ ordered => ih value ordered.orderly
  | peek cell next ih => exact ih _ orderly
  | set cell value next ih =>
    refine .bind (orders_onSignal orderly fun held signal => ?_) fun _ _ ordered => ih ordered.orderly
    exact orders_writeSignal keeps orderly signal value
  | update cell value next ih =>
    refine .bind (orders_onSignal orderly fun held signal => ?_) fun _ _ ordered => ih ordered.orderly
    exact orders_updateSignal keeps orderly signal value
  | batch body next ihBody ih =>
    exact .bind (orders_batch keeps (ihBody orderly.enterBatch)) fun result _ ordered => ih result.1 ordered.orderly
  | untrack body next ihBody ih =>
    exact .bind (.observed orderly (ihBody (orderly.observe none nofun))) fun result _ ordered => ih result.1 ordered.orderly
  | dispose effect next ih =>
    refine (leaves_get_bind _ _ _).2 ?_
    dsimp only
    split
    next => exact Orders.bind (orders_dispose keeps orderly effect) fun _ _ ordered => ih ordered.orderly
    next => exact Ordered.refl orderly
  | remember access next ih =>
    have remembered : machine.Ordered Apart (Unchanged document) { machine with world := { machine.world with memory := (access machine.world.memory).2 } } :=
      ⟨.refl orderly.fit, orderly.calm⟩
    exact (ih (access machine.world.memory).1 remembered.orderly).mono fun _ last => remembered.trans last

end

theorem keepsOrder_upTo (document : Document (Listener (Code Memory))) (depth : Nat) :
    KeepsOrder Apart (Unchanged document) (Calls.upTo (Interpreter.rendering Memory) depth) := by
  induction depth with
  | zero =>
    exact ⟨fun _ _ _ orderly => Ordered.refl orderly, fun _ _ orderly => Ordered.refl orderly, fun _ _ _ orderly => Ordered.refl orderly,
      fun _ orderly => Ordered.refl orderly⟩
  | succ depth ih =>
    have reacts (code : Code Memory) (machine : Stage Memory) (orderly : machine.Orderly Apart (Unchanged document)) :
        Orders Apart (Unchanged document) ((Interpreter.rendering Memory).react (Calls.upTo (Interpreter.rendering Memory) depth) code) machine := by
      cases code with
      | script body => exact .bind (orders_run ih orderly (body .undefined)) fun _ _ ordered => .pure ordered.orderly _
      | query | item | view => exact Ordered.refl orderly
    refine ⟨fun code arguments machine orderly => ?_, reacts, fun task apart machine orderly => ?_, fun _ orderly => orders_flush ih orderly depth⟩
    · cases code with
      | query query => exact orders_query ih orderly query
      | script body => exact (leaves_map ..).2 (orders_run ih orderly (body (arguments.headD .undefined)))
      | item | view => exact Ordered.refl orderly
    · cases task with
      | host code => exact ih.react code machine orderly
      | property | classes | text | branches | items => exact absurd trivial apart

/-- Scripts that run one after the other from outside, however each of them ends. -/
inductive Followed : Stage Memory → Stage Memory → Prop where
  | refl (machine : Stage Memory) : Followed machine machine
  | run {machine between after : Stage Memory} {script : Script Memory} {depth : Nat} {ending : Ending (Value × Option (Script Memory))}
      (followed : Followed machine between)
      (ran : (run (Calls.upTo (Interpreter.rendering Memory) depth) script).run between = (ending, after)) : Followed machine after

theorem Followed.document_eq (followed : Followed machine after) (fit : machine.graph.Fit Apart) : after.document = machine.document := by
  have kept : after.Orderly Apart (Unchanged machine.document) := by
    induction followed with
    | refl => exact ⟨fit, rfl⟩
    | run _ ran ih => exact ((orders_run (keepsOrder_upTo _ _) ih _).of_run ran).orderly
  exact kept.calm

end ReactiveMarkup.Rendering
