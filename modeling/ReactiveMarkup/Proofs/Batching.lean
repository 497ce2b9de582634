import Mathlib
import ReactiveMarkup.Proofs.Drivers

/-! Writes in batches and without. Either way signals end with the same values, computed values give the same
when they are read next, and effects have read the same. Within a batch no effect runs twice. -/

namespace ReactiveMarkup

/-- Writes of signals, some of them together in batches. -/
inductive Writes where
  | done
  | set (cell : Nat) (value : Value) (next : Writes)
  | batch (body next : Writes)

namespace Writes

def driver : Writes → Driver
  | .done => .finish
  | .set cell value next => .set cell value next.driver
  | .batch body next => .batch body.driver next.driver

/-- The writes in their order, whatever batches they are in. -/
def sets : Writes → List (Nat × Value)
  | .done => []
  | .set cell value next => (cell, value) :: next.sets
  | .batch body next => body.sets ++ next.sets

/-- Writes without batches. -/
def plain : List (Nat × Value) → Writes
  | [] => .done
  | (cell, value) :: rest => .set cell value (plain rest)

@[simp]
theorem sets_plain (list : List (Nat × Value)) : (plain list).sets = list := by
  induction list with
  | nil => rfl
  | cons _ rest ih => rw [plain, sets, ih]

end Writes

/-- What signals hold when one was written. A value that is the same as the one before is not written. -/
def put (values : Nat → Option Value) (written : Nat × Value) : Nat → Option Value := fun id =>
  if id = written.1 then (values id).map fun held => if held.same written.2 then held else written.2 else values id

namespace Graph

variable {Code Body : Type} {graph other before after : Graph Code Body}

def code? (graph : Graph Code Body) (id : Nat) : Option Code := (graph.computed? id).map Computed.code

/-- Two graphs with the same signals, the same effects, and computed values with the same code. -/
structure Alike (graph other : Graph Code Body) : Prop where
  values : graph.value? = other.value?
  codes : graph.code? = other.code?
  effects : graph.effect? = other.effect?

theorem Alike.symm (alike : Alike graph other) : Alike other graph := ⟨alike.values.symm, alike.codes.symm, alike.effects.symm⟩

theorem value?_eq_some {id : Nat} {value : Value} : graph.value? id = some value ↔ graph.content? id = some (.signal value) := by
  unfold value?
  split <;> simp_all

theorem code?_eq_some {id : Nat} {code : Code} :
    graph.code? id = some code ↔ ∃ computed, graph.content? id = some (.computed computed) ∧ computed.code = code := by
  unfold code? computed?
  split <;> simp_all

theorem Alike.extends (alike : Alike graph other) : graph.Extends other := by
  refine ⟨fun {id value} found => ?_, fun {id computed} found => ?_⟩
  · rw [← value?_eq_some, ← alike.values, value?_eq_some, found]
  · rw [← code?_eq_some, ← alike.codes, code?_eq_some]
    exact ⟨computed, found, rfl⟩

/-- Bringing computed values up to date changes no signal, no effect and no code. -/
theorem alike_of_renewed (content : ∀ id, after.content? id = before.content? id ∨ before.Renewed after id) : Alike after before := by
  refine ⟨funext fun id => ?_, funext fun id => ?_, funext fun id => ?_⟩ <;>
  · obtain same | ⟨_, _, old, _, _, new⟩ := content id
    · simp only [value?, code?, computed?, effect?, same]
    · simp [value?, code?, computed?, effect?, old, new]

section

variable {meaning : Code → Option Query} {cell : Nat} {held : Value}

/-- A cell that holds something returns it. -/
theorem Coherent.returns_of_current? (coherent : graph.Coherent meaning) (holds : graph.current? cell = some held) :
    (Query.read cell .answer).Returns meaning graph held := by
  have reads : (Query.read cell .answer).Reads graph (fun _ => True) held := .read trivial holds (.answer held)
  exact coherent.returns_of_reads reads

/-- In graphs that are alike a query reads the same. -/
theorem Alike.reads_eq (alike : Alike graph other) (coherent : graph.Coherent meaning) (coherentOther : other.Coherent meaning) {query : Query}
    {reads others : List (Nat × Value)} {value result : Value} (path : query.Path graph reads value) (pathOther : query.Path other others result) :
    reads = others := by
  induction path generalizing others with
  | answer =>
    cases pathOther
    rfl
  | read holds _ ih =>
    cases pathOther with
    | read holdsOther rest =>
      cases ((coherent.returns_of_current? holds).transfer alike.extends).unique (coherentOther.returns_of_current? holdsOther)
      rw [ih rest]

theorem values_write (symmetric : graph.Symmetric) (signal : graph.content? cell = some (.signal held)) {value : Value}
    (differs : held.same value = false) : (graph.write cell value).value? = put graph.value? (cell, value) := by
  funext id
  by_cases here : id = cell
  · subst here
    have old : graph.value? id = some held := value?_eq_some.2 signal
    rw [put, if_pos rfl, old, Option.map_some, differs, if_neg Bool.false_ne_true]
    exact value?_eq_some.2 (content?_write_self symmetric (graph.lt_size_of_content? signal))
  · rw [put, if_neg here]
    obtain same | ⟨_, old, _, new⟩ : _ ∨ Expired graph (graph.write cell value) id := content?_write_of_ne symmetric here
    · simp only [value?, same]
    · simp [value?, old, new]

theorem members_write (symmetric : graph.Symmetric) (signal : graph.content? cell = some (.signal held)) (value : Value) :
    (graph.write cell value).code? = graph.code? ∧ (graph.write cell value).effect? = graph.effect? := by
  refine ⟨funext fun id => ?_, funext fun id => ?_⟩ <;>
  · by_cases here : id = cell
    · subst here
      simp [code?, computed?, effect?, signal, content?_write_self symmetric (graph.lt_size_of_content? signal)]
    · obtain same | ⟨_, old, _, new⟩ : _ ∨ Expired graph (graph.write cell value) id := content?_write_of_ne symmetric here
      · simp only [code?, computed?, effect?, same]
      · simp [code?, computed?, effect?, old, new]

theorem put_of_same {values : Nat → Option Value} (holds : values cell = some held) {value : Value} (same : held.same value = true) :
    put values (cell, value) = values := by
  funext id
  unfold put
  split
  next here =>
    cases here
    simp [holds, same]
  next => rfl

end

end Graph

namespace Writes

open ReactiveMarkup.Graph ReactiveMarkup.Step ReactiveMarkup.Machine

variable {before middle after machine : Machine Host.readers} {depth : Nat}

/-- What writes leave behind. While a batch is open nothing runs. -/
structure Written (sets : List (Nat × Value)) (before after : Machine Host.readers) : Prop where
  tidy : Tidy after
  depth : after.graph.depth = before.graph.depth
  size : after.graph.vertices.size = before.graph.vertices.size
  values : after.graph.value? = sets.foldl put before.graph.value?
  codes : after.graph.code? = before.graph.code?
  effects : after.graph.effect? = before.graph.effect?
  still : 0 < before.graph.depth → after.world = before.world

theorem Written.refl (tidy : Tidy machine) : Written [] machine machine := ⟨tidy, rfl, rfl, rfl, rfl, rfl, fun _ => rfl⟩

theorem Written.trans {sets more : List (Nat × Value)} (first : Written sets before middle) (second : Written more middle after) :
    Written (sets ++ more) before after := by
  refine ⟨second.tidy, second.depth.trans first.depth, second.size.trans first.size, ?_, second.codes.trans first.codes,
    second.effects.trans first.effects, fun inBatch => ?_⟩
  · rw [List.foldl_append, ← first.values, second.values]
  · rw [second.still (first.depth ▸ inBatch), first.still inBatch]

/-- Running what waits changes no signal, no effect and no code. -/
theorem alike_of_flushed (flushed : Flushed before after) :
    after.graph.Alike before.graph ∧ after.graph.vertices.size = before.graph.vertices.size := by
  obtain outside | inBatch := Nat.eq_zero_or_pos before.graph.depth
  · exact ⟨alike_of_renewed (flushed.stirred outside).content, (flushed.stirred outside).size⟩
  · rw [flushed.still inBatch]
    exact ⟨⟨rfl, rfl, rfl⟩, rfl⟩

theorem ensures_set (tidy : Tidy machine) {cell : Nat} {held : Value} (signal : machine.graph.content? cell = some (.signal held)) (value : Value) :
    Ensures ⟨True, depth < machine.graph.vertices.size + 3⟩ (writeSignal (Calls.upTo Interpreter.readers depth) cell value) machine
      fun _ after => Written [(cell, value)] machine after := by
  have symmetric := tidy.lucid.coherent.symmetric
  refine (Reader.ensures_writeSignal (Reader.flushes_upTo depth) tidy signal value).mono fun _ after written => ?_
  split at written
  next same =>
    subst written
    refine ⟨tidy, rfl, rfl, ?_, rfl, rfl, fun _ => rfl⟩
    exact (put_of_same (value?_eq_some.2 signal) same).symm
  next differs =>
    obtain ⟨alike, size⟩ := alike_of_flushed written
    obtain ⟨codes, effects⟩ := members_write symmetric signal value
    refine ⟨written.tidy, written.depth.trans (depth_write symmetric cell value), size.trans (size_write symmetric cell value), ?_,
      alike.codes.trans codes, alike.effects.trans effects, fun inBatch => ?_⟩
    · exact alike.values.trans (values_write symmetric signal (by simpa using differs))
    · rw [written.still (inBatch.trans_eq (depth_write symmetric cell value).symm)]

/-- When the outermost batch is left, what waits runs, and no effect runs twice. -/
theorem ensures_batch {sets : List (Nat × Value)} {step : Run Host.readers Unit}
    (writes : Ensures ⟨True, depth < machine.graph.vertices.size + 3⟩ step { machine with graph := machine.graph.enterBatch } fun _ after =>
      Written sets { machine with graph := machine.graph.enterBatch } after) :
    Ensures ⟨True, depth < machine.graph.vertices.size + 3⟩ (Machine.batch (Calls.upTo Interpreter.readers depth) step) machine fun _ after =>
      Written sets machine after ∧ ∃ new, after.world.runs = new ++ machine.world.runs ∧ new.Nodup := by
  simp only [Machine.batch, ensures_bind, ensures_withBatch, ensures_pure]
  refine writes.mono fun _ between written => ?_
  rw [leaveBatch_false]
  have left : Sane { between with graph := { between.graph with depth := between.graph.depth - 1 } } :=
    written.tidy.toSane.of_vertices rfl written.tidy.alone rfl
  have depth_left : between.graph.depth - 1 = machine.graph.depth := by
    rw [written.depth]
    exact Nat.add_sub_cancel ..
  have world := written.still (Nat.succ_pos _)
  have flushes := Reader.flushes_upTo depth _ left (written.tidy.watched.of_vertices rfl fun _ => id)
  refine flushes.relax id (fun (scarce : depth < between.graph.vertices.size + 3) => ?_) fun _ after flushed => ?_
  · exact (congrArg (depth < · + 3) written.size).mp scarce
  · obtain ⟨alike, size⟩ := alike_of_flushed flushed
    refine ⟨⟨flushed.tidy, flushed.depth.trans depth_left, size.trans written.size, alike.values.trans written.values, alike.codes.trans written.codes,
      alike.effects.trans written.effects, fun inBatch => ?_⟩, ?_⟩
    · rw [flushed.still (depth_left.symm ▸ inBatch)]
      exact world
    · obtain outside | inBatch := Nat.eq_zero_or_pos machine.graph.depth
      · obtain ⟨new, runs, once, _⟩ := (flushed.stirred (depth_left.trans outside)).runs
        exact ⟨new, runs.trans (by rw [world]), once⟩
      · rw [flushed.still (depth_left.symm ▸ inBatch)]
        exact ⟨[], by rw [world]; rfl, .nil⟩

theorem ensures_writes (writes : Writes) (tidy : Tidy machine) :
    Ensures ⟨True, depth < machine.graph.vertices.size + 3⟩ (writes.driver.run (Calls.upTo Interpreter.readers depth)) machine fun _ after =>
      Written writes.sets machine after := by
  induction writes generalizing machine with
  | done => exact .refl tidy
  | set cell value next ih =>
    simp only [driver, Driver.run, ensures_bind]
    refine Driver.ensures_onSignal trivial fun held signal => (ensures_set tidy signal value).mono fun _ between first => ?_
    rw [← first.size]
    exact (ih first.tidy).mono fun _ after second => first.trans second
  | batch body next ihBody ihNext =>
    simp only [driver, Driver.run, ensures_bind]
    refine (ensures_batch (ihBody tidy.enterBatch)).mono ?_
    rintro _ between ⟨first, _⟩
    rw [← first.size]
    exact (ihNext first.tidy).mono fun _ after second => first.trans second

/-- What reading a cell gives, if it gives something. -/
def Yields (depth : Nat) (machine : Machine Host.readers) (cell : Nat) (value : Value) : Prop :=
  ∃ after, (readCell (Calls.upTo Interpreter.readers depth) cell).run machine = (.done value, after)

theorem yields_iff (sane : Sane machine) (deep : machine.graph.vertices.size ≤ depth) {cell : Nat} {value : Value} :
    Yields depth machine cell value ↔ (Query.read cell .answer).Returns some machine.graph value := by
  have watches (panics : Prop) : Reader.CallsWatch panics depth (Calls.upTo Interpreter.readers depth) := Reader.callsWatch_upTo depth
  constructor
  · rintro ⟨after, done⟩
    obtain ⟨⟨stirred, _⟩, holds⟩ := (Reader.ensures_get (watches True) sane cell).of_done done
    exact (stirred.lucid.coherent.returns_of_current? holds).transfer (alike_of_renewed stirred.content).extends
  · intro returned
    obtain ⟨lucid, observing, running, isBusy, _⟩ := sane.prepared (.read cell .answer)
    have prepared : Prepared False [] (.read cell .answer) machine :=
      ⟨lucid, observing, running, isBusy, .inr (returned.ends fun _ member => by cases member)⟩
    have ensured : Ensures ⟨False, False⟩ (readCell (Calls.upTo Interpreter.readers depth) cell) machine fun held after =>
        Traced (.read cell .answer) machine held [(cell, held)] after :=
      (Reader.ensures_traceCell (watches False) prepared).relax id (fun (scarce : depth + 0 < _) => absurd scarce (Nat.not_lt.2 deep)) fun _ _ => id
    obtain ⟨held, after, done, traced⟩ := ensured.done
    have stirred := traced.freshened.stirred sane.alone
    have again := (stirred.lucid.coherent.returns_of_current? (traced.path.current? List.mem_cons_self)).transfer
      (alike_of_renewed stirred.content).extends
    exact ⟨after, returned.unique again ▸ done⟩

/-- The signals, what computed values give when they are read, and what effects read and have read. -/
structure SameOutcome (depth : Nat) (one other : Machine Host.readers) : Prop where
  values : one.graph.value? = other.graph.value?
  yields : ∀ cell value, Yields depth one cell value ↔ Yields depth other cell value
  effects : one.graph.effect? = other.graph.effect?
  sources : ∀ effect content, one.graph.content? effect = some (.effect content) →
    ∀ source, source ∈ one.graph.sources effect ↔ source ∈ other.graph.sources effect
  subscribers : ∀ effect content, one.graph.content? effect = some (.effect content) →
    ∀ source, effect ∈ one.graph.subscribers source ↔ effect ∈ other.graph.subscribers source
  notes : ∀ effect, one.graph.IsLive effect → one.world.notes effect = other.world.notes effect

/-- Outside of all batches nothing is left open by what signals hold. -/
theorem sameOutcome_of_alike {one other : Machine Host.readers} (tidy : Tidy one) (outside : one.graph.depth = 0) (tidyOther : Tidy other)
    (outsideOther : other.graph.depth = 0) (alike : one.graph.Alike other.graph) (deep : one.graph.vertices.size ≤ depth)
    (deepOther : other.graph.vertices.size ≤ depth) : SameOutcome depth one other := by
  have faithful {effect : Nat} {content : Effect Query (Task Query)} (found : one.graph.content? effect = some (.effect content))
      (awake : content.disposed = false) : ∃ query, one.Faithful effect query ∧ other.Faithful effect query := by
    obtain ⟨query, body⟩ := (tidy.effects effect content found).2 awake
    have foundOther : other.graph.content? effect = some (.effect content) := by
      rw [← effect?_eq_some, ← alike.effects, effect?_eq_some, found]
    refine ⟨query, (tidy.watched effect query ⟨content, found, awake, body⟩).resolve_left ?_,
      (tidyOther.watched effect query ⟨content, foundOther, awake, body⟩).resolve_left ?_⟩
    · rw [tidy.rested outside]
      exact List.not_mem_nil
    · rw [tidyOther.rested outsideOther]
      exact List.not_mem_nil
  have notes (effect : Nat) (live : one.graph.IsLive effect) : one.world.notes effect = other.world.notes effect := by
    obtain ⟨content, found, awake⟩ := live
    obtain ⟨query, ⟨⟨_, path⟩, _⟩, ⟨⟨_, pathOther⟩, _⟩⟩ := faithful found awake
    exact alike.reads_eq tidy.lucid.coherent tidyOther.lucid.coherent path pathOther
  have sources (effect : Nat) (content : Effect Query (Task Query)) (found : one.graph.content? effect = some (.effect content)) (source : Nat) :
      source ∈ one.graph.sources effect ↔ source ∈ other.graph.sources effect := by
    by_cases awake : content.disposed = false
    · obtain ⟨query, ⟨_, known⟩, ⟨_, knownOther⟩⟩ := faithful found awake
      rw [known, knownOther, notes effect ⟨content, found, awake⟩]
    · have foundOther : other.graph.content? effect = some (.effect content) := by
        rw [← effect?_eq_some, ← alike.effects, effect?_eq_some, found]
      have gone : content.disposed = true := by simpa using awake
      rw [tidy.spent effect content found gone, tidyOther.spent effect content foundOther gone]
  refine ⟨alike.values, fun cell value => ?_, alike.effects, sources, fun effect content found source => ?_, notes⟩
  · rw [yields_iff tidy.toSane deep, yields_iff tidyOther.toSane deepOther]
    exact ⟨fun returned => returned.transfer alike.extends, fun returned => returned.transfer alike.symm.extends⟩
  · rw [tidy.lucid.coherent.symmetric, tidyOther.lucid.coherent.symmetric, sources effect content found source]

/-- Writes have the same outcome in a batch, with whatever batches within, and one by one. In the batch no effect runs twice. -/
theorem batch_agrees_of_reached (reached : Driver.Reached machine) (writes : Writes) (deep : machine.graph.vertices.size + 3 ≤ depth)
    (calmBatch : ∀ cause after, ((batch writes .done).driver.run (Calls.upTo Interpreter.readers depth)).run machine ≠ (.panicked cause, after))
    (calmPlain : ∀ cause after, ((plain writes.sets).driver.run (Calls.upTo Interpreter.readers depth)).run machine ≠ (.panicked cause, after)) :
    ∃ batched single, ((batch writes .done).driver.run (Calls.upTo Interpreter.readers depth)).run machine = (.done (), batched) ∧
      ((plain writes.sets).driver.run (Calls.upTo Interpreter.readers depth)).run machine = (.done (), single) ∧
      SameOutcome depth batched single ∧
      ∃ new, batched.world.runs = new ++ machine.world.runs ∧ ∀ effect, new.count effect ≤ 1 := by
  obtain ⟨tidy, outside⟩ := reached.tidy
  have ample : ¬ depth < machine.graph.vertices.size + 3 := Nat.not_lt.2 deep
  have ensured : Ensures ⟨True, depth < machine.graph.vertices.size + 3⟩ ((batch writes .done).driver.run (Calls.upTo Interpreter.readers depth))
      machine fun _ after => Written writes.sets machine after ∧ ∃ new, after.world.runs = new ++ machine.world.runs ∧ new.Nodup := by
    simp only [driver, Driver.run, ensures_bind, ensures_pure]
    exact ensures_batch (ensures_writes writes tidy.enterBatch)
  obtain ⟨_, batched, doneBatch, written, new, runs, once⟩ := ensured.done_of_calm calmBatch ample
  obtain ⟨_, single, donePlain, plainly⟩ := (ensures_writes (plain writes.sets) tidy).done_of_calm calmPlain ample
  rw [sets_plain] at plainly
  refine ⟨batched, single, doneBatch, donePlain, ?_, new, runs, List.nodup_iff_count_le_one.1 once⟩
  have alike : batched.graph.Alike single.graph :=
    ⟨written.values.trans plainly.values.symm, written.codes.trans plainly.codes.symm, written.effects.trans plainly.effects.symm⟩
  have sizes := written.size
  have sizesPlain := plainly.size
  exact sameOutcome_of_alike written.tidy (written.depth.trans outside) plainly.tidy (plainly.depth.trans outside) alike (by omega) (by omega)

/-- Two signals, a computed value that reads the second one if the first is true, and an effect that reads it. -/
private def switched : Driver :=
  .newSignal (.bool true) fun first =>
    .newSignal (.bool true) fun second =>
      .newComputed (.read first fun value => if value.isTruthy then .read second .answer else .answer value) fun computed =>
        .newEffect (.read computed .answer) fun _ => .finish

private def rested : Machine Host.readers := ((switched.run (Calls.upTo Interpreter.readers 7)).run Machine.readers).2

/-- The first signal is false for a while, and the second one changes meanwhile. -/
private def detour : Writes := .set 0 (.bool false) (.batch (.set 1 (.bool false) .done) (.set 0 (.bool true) .done))

theorem batch_agrees_of_reached_detour : ∃ batched single, Driver.Reached rested ∧
    ((batch detour .done).driver.run (Calls.upTo Interpreter.readers 7)).run rested = (.done (), batched) ∧
      ((plain detour.sets).driver.run (Calls.upTo Interpreter.readers 7)).run rested = (.done (), single) ∧
      SameOutcome 7 batched single ∧ ∃ new, batched.world.runs = new ++ rested.world.runs ∧ ∀ effect, new.count effect ≤ 1 := by
  have done : (switched.run (Calls.upTo Interpreter.readers 7)).run Machine.readers = (.done (), rested) := Prod.ext (by cbv) (by rw [rested])
  have reached : Driver.Reached rested := .run .start done
  have size : rested.graph.vertices.size = 4 := by cbv
  have batches : (((batch detour .done).driver.run (Calls.upTo Interpreter.readers 7)).run rested).1 = .done () := by cbv
  have singles : (((plain detour.sets).driver.run (Calls.upTo Interpreter.readers 7)).run rested).1 = .done () := by cbv
  obtain ⟨batched, single, rest⟩ := batch_agrees_of_reached reached detour (Nat.le_of_eq (by rw [size]))
    (fun _ _ panicked => by rw [panicked] at batches; cases batches) fun _ _ panicked => by rw [panicked] at singles; cases singles
  exact ⟨batched, single, reached, rest⟩

end Writes

end ReactiveMarkup
