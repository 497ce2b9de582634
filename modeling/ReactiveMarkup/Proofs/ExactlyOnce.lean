import Mathlib
import ReactiveMarkup.Proofs.Drivers

/-! How often code runs when a signal is written outside of all batches. The effects whose last run has read
the signal, directly or by way of computed values, run once each, and no other effect runs. -/

namespace ReactiveMarkup.Driver

open ReactiveMarkup.Graph ReactiveMarkup.Step ReactiveMarkup.Machine

variable {machine : Machine Host.readers} {cell : Nat}

/-- Whether the last run of a reader has read a cell, directly or by way of computed values. -/
inductive HasRead (machine : Machine Host.readers) (cell : Nat) : Nat → Prop where
  | direct {reader : Nat} (noted : cell ∈ (machine.world.notes reader).map Prod.fst) : HasRead machine cell reader
  | through {middle reader : Nat} {computed : Computed Query} (hasRead : HasRead machine cell middle)
    (found : machine.graph.content? middle = some (.computed computed)) (noted : middle ∈ (machine.world.notes reader).map Prod.fst) :
    HasRead machine cell reader

/-- A step that changes a signal: it sets a value that differs, or updates the signal. -/
inductive Changes (calls : Calls Host.readers) (machine : Machine Host.readers) (cell : Nat) : Run Host.readers Unit → Prop where
  | set {held value : Value} (signal : machine.graph.content? cell = some (.signal held)) (differs : held.same value = false) :
    Changes calls machine cell (writeSignal calls cell value)
  | update {held value : Value} (signal : machine.graph.content? cell = some (.signal held)) :
    Changes calls machine cell (updateSignal calls cell value)

theorem Changes.ensures {calls : Calls Host.readers} {depth : Nat} {step : Run Host.readers Unit} (changes : Changes calls machine cell step)
    (flushes : Reader.Flushes depth calls) (tidy : Tidy machine) :
    ∃ held value, machine.graph.content? cell = some (.signal held) ∧ Ensures ⟨True, depth < machine.graph.vertices.size + 3⟩ step machine
      fun _ after => Flushed { machine with graph := machine.graph.write cell value } after := by
  cases changes with
  | @set held value signal differs =>
    refine ⟨held, value, signal, (Reader.ensures_writeSignal flushes tidy signal value).mono fun _ after written => ?_⟩
    rwa [if_neg (by simp [differs])] at written
  | @update held value signal => exact ⟨held, value, signal, Reader.ensures_updateSignal flushes tidy signal value⟩

section

variable {reader : Nat} {query : Query}

/-- What a reader with right notes reads is a signal or up to date, and is noted. -/
theorem feeds_of_hasRead (lucid : machine.Lucid) (hasRead : HasRead machine cell reader) (faithful : machine.Faithful reader query) :
    machine.graph.Feeds cell reader := by
  induction hasRead generalizing query with
  | direct noted => exact .direct ((faithful.2 cell).2 noted)
  | @through middle reader computed _ found noted ih =>
    obtain ⟨⟨_, held⟩, member, rfl⟩ := List.mem_map.1 noted
    obtain ⟨⟨_, path⟩, known⟩ := faithful
    have holds := path.current? member
    have fresh : computed.stale = false := by
      by_contra stale
      simp [current?, found, stale] at holds
    exact .through (ih (lucid.faithful _ computed found fresh)) (isFresh_iff.2 ⟨computed, found, fresh⟩) ((known _).2 noted)

theorem hasRead_of_feeds (lucid : machine.Lucid) (feeds : machine.graph.Feeds cell reader) (faithful : machine.Faithful reader query) :
    HasRead machine cell reader := by
  induction feeds generalizing query with
  | direct reads => exact .direct ((faithful.2 cell).1 reads)
  | @through middle reader _ fresh reads ih =>
    obtain ⟨computed, found, upToDate⟩ := isFresh_iff.1 fresh
    exact .through (ih (lucid.faithful middle computed found upToDate)) found ((faithful.2 middle).1 reads)

end

/-- A live effect of a machine on which nothing waits has right notes. -/
theorem Reached.faithful (reached : Reached machine) {effect : Nat} (live : machine.graph.IsLive effect) :
    ∃ query, machine.Faithful effect query := by
  obtain ⟨tidy, outside⟩ := reached.tidy
  obtain ⟨content, found, awake⟩ := live
  obtain ⟨query, body⟩ := (tidy.effects effect content found).2 awake
  refine ⟨query, (tidy.watched effect query ⟨content, found, awake, body⟩).resolve_left ?_⟩
  rw [tidy.rested outside]
  exact List.not_mem_nil

/-- A signal that is written outside of all batches makes the live effects wait that have read it. -/
theorem Reached.waits_iff (reached : Reached machine) {held : Value} (signal : machine.graph.content? cell = some (.signal held)) (value : Value)
    {effect : Nat} : effect ∈ (machine.graph.write cell value).queue ↔ machine.graph.IsLive effect ∧ HasRead machine cell effect := by
  obtain ⟨tidy, outside⟩ := reached.tidy
  have symmetric := tidy.lucid.coherent.symmetric
  constructor
  · intro waits
    obtain old | ⟨feeds, live⟩ := feeds_of_mem_queue_write symmetric signal waits
    · rw [tidy.rested outside] at old
      cases old
    · obtain ⟨query, faithful⟩ := reached.faithful live
      exact ⟨live, hasRead_of_feeds tidy.lucid feeds faithful⟩
  · rintro ⟨live, hasRead⟩
    obtain ⟨query, faithful⟩ := reached.faithful live
    obtain ⟨content, found, awake⟩ := live
    exact (told_of_feeds symmetric signal value (feeds_of_hasRead tidy.lucid hasRead faithful)).2
      ⟨content, (effect_write symmetric signal value).2 found, awake⟩

/-- A change of a signal runs the live effects that have read it once each, and no other effects, before it
returns; and no computed value is computed twice. -/
theorem runs_once_of_reached {depth : Nat} {step : Run Host.readers Unit} (reached : Reached machine)
    (changes : Changes (Calls.upTo Interpreter.readers depth) machine cell step) (deep : machine.graph.vertices.size + 3 ≤ depth)
    (calm : ∀ cause after, step.run machine ≠ (.panicked cause, after)) :
    ∃ after new, step.run machine = (.done (), after) ∧ after.world.runs = new ++ machine.world.runs ∧
      (∀ effect, machine.graph.IsLive effect → HasRead machine cell effect → new.count effect = 1) ∧
      (∀ effect content, machine.graph.content? effect = some (.effect content) →
        ¬ (machine.graph.IsLive effect ∧ HasRead machine cell effect) → new.count effect = 0) ∧
      ∀ computed, new.count computed ≤ 1 := by
  obtain ⟨tidy, outside⟩ := reached.tidy
  have symmetric := tidy.lucid.coherent.symmetric
  obtain ⟨held, value, signal, ensured⟩ := changes.ensures (Reader.flushes_upTo depth) tidy
  obtain ⟨_, after, done, flushed⟩ := ensured.done_of_calm calm (Nat.not_lt.2 deep)
  obtain ⟨new, runs, once, ran, known⟩ := (flushed.stirred ((depth_write symmetric cell value).trans outside)).runs
  refine ⟨after, new, done, runs, fun effect live hasRead => ?_, fun effect content found spared => ?_, List.nodup_iff_count_le_one.1 once⟩
  · exact List.count_eq_one_of_mem once (ran ((reached.waits_iff signal value).2 ⟨live, hasRead⟩))
  · refine List.count_eq_zero.2 fun member => ?_
    obtain waits | renewed := known effect member
    · exact spared ((reached.waits_iff signal value).1 waits)
    · exact not_renewed_of_effect ((effect_write symmetric signal value).2 found) renewed

/-- A signal with two computed values over it, an effect that reads both, and one that reads nothing. -/
private def diamond : Driver :=
  .newSignal (.bool true) fun signal =>
    .newComputed (.read signal .answer) fun left =>
      .newComputed (.read signal .answer) fun right =>
        .newEffect (.read left fun _ => .read right .answer) fun _ => .newEffect (.answer .undefined) fun _ => .finish

private def prepared : Machine Host.readers := ((diamond.run (Calls.upTo Interpreter.readers 8)).run Machine.readers).2

theorem runs_once_of_reached_diamond : ∃ after new, Reached prepared ∧
    (writeSignal (Calls.upTo Interpreter.readers 8) 0 (.bool false)).run prepared = (.done (), after) ∧
      after.world.runs = new ++ prepared.world.runs ∧ new.count 3 = 1 ∧ new.count 4 = 0 ∧ new.count 2 ≤ 1 := by
  have done : (diamond.run (Calls.upTo Interpreter.readers 8)).run Machine.readers = (.done (), prepared) := Prod.ext (by cbv) (by rw [prepared])
  have reached : Reached prepared := .run .start done
  have calm : ((writeSignal (Calls.upTo Interpreter.readers 8) 0 (.bool false)).run prepared).1 = .done () := by cbv
  have cells : prepared.graph.vertices.size = 5 ∧ prepared.graph.content? 0 = some (.signal (.bool true)) ∧
      prepared.graph.content? 1 = some (.computed ⟨.read 0 .answer, some (.bool true), false, false⟩) := by cbv
  have effects : (prepared.graph.effect? 3).map Effect.disposed = some false ∧
      prepared.graph.content? 4 = some (.effect ⟨some (.host (.answer .undefined)), none, false⟩) := by cbv
  have notes : (prepared.world.notes 1).map Prod.fst = [0] ∧ (prepared.world.notes 3).map Prod.fst = [1, 2] ∧ prepared.world.notes 4 = [] := by cbv
  obtain ⟨size, signal, left⟩ := cells
  obtain ⟨awake, idle⟩ := effects
  obtain ⟨leftReads, reads, none⟩ := notes
  obtain ⟨after, new, written, runs, once, never, atMost⟩ :=
    runs_once_of_reached reached (.set signal rfl) (Nat.le_of_eq (by rw [size])) fun cause after panicked => by rw [panicked] at calm; cases calm
  refine ⟨after, new, reached, written, runs, once 3 (isLive_of_effect? awake) ?_, never 4 _ idle ?_, atMost 2⟩
  · exact .through (.direct (leftReads ▸ List.mem_cons_self)) left (reads ▸ List.mem_cons_self)
  · rintro ⟨_, ⟨noted⟩ | ⟨_, _, noted⟩⟩ <;>
    · rw [none] at noted
      cases noted

end ReactiveMarkup.Driver
