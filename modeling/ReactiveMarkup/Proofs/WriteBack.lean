import Mathlib.Logic.Function.Iterate
import ReactiveMarkup.Interpreter
import ReactiveMarkup.Proofs.EffectRuns
import ReactiveMarkup.Proofs.FloatBits

/-! Effects that write back what they have read. An effect that reads a signal and then sets it to a fixed value comes to
rest within two runs, whatever else is in the graph, unless the value differs from itself. There is one value that does,
which is not a number; an effect that writes it back never comes to rest. -/

namespace ReactiveMarkup

/-! Values that are equal to themselves. -/

namespace Number

open Float.Model

theorem beq_self_eq_not_isNaN (n : Float) : (n == n) = !n.isNaN := by
  show UnpackedFloat.beq n.toModel.unpack n.toModel.unpack = !n.toModel.unpack.isNaN
  cases n.toModel.unpack with
  | notANumber => rfl
  | infinity sign => cases sign <;> rfl
  | zero sign => rfl
  | finite sign m e positive => cases sign <;> simp [UnpackedFloat.beq, UnpackedFloat.compare, UnpackedFloat.isNaN]

theorem beq_eq_false_of_isNaN (m : Float) {n : Float} (isNaN : n.isNaN = true) : (m == n) = false := by
  have unpacked : n.toModel.unpack.isNaN = true := isNaN
  show UnpackedFloat.beq m.toModel.unpack n.toModel.unpack = false
  cases isUnpacked : n.toModel.unpack with
  | notANumber => cases m.toModel.unpack <;> rfl
  | _ =>
    rw [isUnpacked] at unpacked
    cases unpacked

end Number

namespace Value

/-- Whether a value is not a number though it should be one. -/
def isNaN : Value → Bool
  | .number n => n.isNaN
  | _ => false

theorem same_self (value : Value) : value.same value = !value.isNaN := by
  cases value with
  | number n => exact Number.beq_self_eq_not_isNaN n
  | undefined => rfl
  | null => rfl
  | bool value => simp [same, isNaN]
  | string value => simp [same, isNaN]
  | array identity items => simp [same, isNaN]
  | object identity entries => simp [same, isNaN]
  | function id => simp [same, isNaN]

theorem same_eq_false_of_isNaN (held : Value) {value : Value} (isNaN : value.isNaN = true) : held.same value = false := by
  cases value with
  | number n => cases held <;> first | rfl | exact Number.beq_eq_false_of_isNaN _ isNaN
  | _ => cases isNaN

end Value

/-! The only effect that a signal feeds. -/

namespace Graph

variable {Code Body : Type} {before middle after graph : Graph Code Body} {cell id : Nat}

/-- No member but one reads more than before, and no computed value is up to date that was not before. -/
structure Narrows (id : Nat) (before after : Graph Code Body) : Prop where
  symmetric : after.Symmetric
  sources : ∀ reader, reader ≠ id → after.sources reader ⊆ before.sources reader
  fresh : ∀ member, after.isFresh member = true → before.isFresh member = true
  live : ∀ member, after.IsLive member ↔ before.IsLive member

theorem Narrows.trans (first : Narrows id before middle) (second : Narrows id middle after) : Narrows id before after :=
  ⟨second.symmetric, fun reader apart _ member => first.sources reader apart (second.sources reader apart member),
    fun member fresh => first.fresh member (second.fresh member fresh), fun member => (second.live member).trans (first.live member)⟩

/-- A graph in which a signal feeds no effect but one. -/
structure Sole (graph : Graph Code Body) (cell id : Nat) : Prop where
  symmetric : graph.Symmetric
  live : graph.IsLive id
  sole : ∀ reader, graph.Feeds cell reader → graph.IsLive reader → reader = id

theorem not_isFresh_of_isLive (live : graph.IsLive id) : graph.isFresh id = false := by
  obtain ⟨effect, found, _⟩ := live
  simp [isFresh, computed?, found]

theorem Sole.narrow (sole : before.Sole cell id) (narrows : Narrows id before after) : after.Sole cell id := by
  refine ⟨narrows.symmetric, (narrows.live id).2 sole.live, fun reader feeds live => ?_⟩
  have fed : ∀ reader, after.Feeds cell reader → reader ≠ id → before.Feeds cell reader := by
    intro reader feeds
    induction feeds with
    | direct reads => exact fun apart => .direct (narrows.sources _ apart reads)
    | @through middle reader _ fresh reads ih =>
      have isMiddle : middle ≠ id := by
        rintro rfl
        cases fresh.symm.trans (not_isFresh_of_isLive ((narrows.live middle).2 sole.live))
      exact fun apart => .through (ih isMiddle) (narrows.fresh _ fresh) (narrows.sources _ apart reads)
  by_cases here : reader = id
  · exact here
  · exact sole.sole reader (fed reader feeds here) ((narrows.live reader).1 live)

variable {effect : Effect Code Body} {held value : Value}

/-- All but one effect stays as it is, and that effect stays an effect. -/
theorem narrows_of_effect {later : Effect Code Body} (symmetric : after.Symmetric)
    (sources : ∀ reader, reader ≠ id → after.sources reader ⊆ before.sources reader)
    (rest : ∀ member, member ≠ id → after.content? member = before.content? member)
    (found : before.content? id = some (.effect effect)) (new : after.content? id = some (.effect later))
    (same : later.disposed = effect.disposed) : Narrows id before after := by
  refine ⟨symmetric, sources, fun member fresh => ?_, fun member => ?_⟩
  · by_cases here : member = id
    · subst here
      simp [isFresh, computed?, new] at fresh
    · exact (isFresh_congr (rest member here)).symm.trans fresh
  · by_cases here : member = id
    · subst here
      simp [IsLive, found, new, same]
    · simp [IsLive, rest member here]

theorem narrows_running (symmetric : before.Symmetric) (found : before.content? id = some (.effect effect)) :
    Narrows id before (running before id) := by
  refine narrows_of_effect (symmetric_running symmetric) (fun reader apart => ?_) (fun _ => content?_running_of_ne) found
    (content?_running_self found) rfl
  rw [sources_running, if_neg apart]
  exact List.Subset.refl _

theorem narrows_track (symmetric : before.Symmetric) (observes : before.observer = some id) (inside : cell < before.vertices.size)
    (member : id < before.vertices.size) : Narrows id before (before.track cell) := by
  refine ⟨symmetric_track symmetric inside fun observer observed => ?_, fun reader apart => ?_, fun _ fresh => ?_, fun _ => ?_⟩
  · cases observes.symm.trans observed
    exact member
  · rw [sources_track_of_ne]
    · exact List.Subset.refl _
    · rw [observes]
      exact fun same => apart (Option.some.inj same).symm
  · exact (isFresh_congr (content?_track ..)).symm.trans fresh
  · rw [IsLive, content?_track, ← IsLive]

theorem narrows_write (id : Nat) (symmetric : before.Symmetric) (signal : before.content? cell = some (.signal held)) (value : Value) :
    Narrows id before (before.write cell value) := by
  have notified := notified_write symmetric cell value
  refine ⟨notified.symmetric, fun reader _ => ?_, fun member fresh => ?_, fun member => ?_⟩
  · rcases notified.sources reader with same | ⟨_, none⟩
    · rw [same, sources_setSignal]
      exact List.Subset.refl _
    · rw [none]
      exact List.nil_subset _
  · obtain ⟨computed, found, upToDate⟩ := isFresh_iff.1 fresh
    obtain ⟨earlier, old, _, _, same⟩ := computed_write symmetric (before.lt_size_of_content? signal) found
    cases same upToDate
    exact isFresh_iff.2 ⟨_, old, upToDate⟩
  · exact exists_congr fun effect => and_congr_left' (effect_write symmetric signal value)

theorem narrows_rested (symmetric : before.Symmetric) (found : before.content? id = some (.effect effect)) (observer : Option Nat)
    (body : Body) : Narrows id before (rested before observer id body) := by
  refine narrows_of_effect (symmetric_rested symmetric) (fun reader _ => ?_) (fun _ => content?_rested_of_ne) found
    (content?_rested_self found) rfl
  rw [sources_rested]
  exact List.Subset.refl _

theorem queue_rested (observer : Option Nat) (body : Body) : (rested graph observer id body).queue = graph.queue := rfl

theorem depth_rested (observer : Option Nat) (body : Body) : (rested graph observer id body).depth = graph.depth := rfl

/-- A write makes no effect wait but the one that the signal feeds, and that one if it reads the signal. -/
theorem queue_write (sole : graph.Sole cell id) (signal : graph.content? cell = some (.signal held)) (idle : graph.queue = [])
    (value : Value) : (graph.write cell value).queue = [] ∨ (graph.write cell value).queue = [id] := by
  have only : ∀ reader ∈ (graph.write cell value).queue, reader = id := fun reader waits => by
    obtain member | ⟨feeds, live⟩ := feeds_of_mem_queue_write sole.symmetric signal waits
    · rw [idle] at member
      cases member
    · exact sole.sole reader feeds live
  have once : (graph.write cell value).queue.Nodup := nodup_queue_notify (show graph.queue.Nodup from idle ▸ List.nodup_nil)
  generalize (graph.write cell value).queue = queue at only once
  match queue with
  | [] => exact .inl rfl
  | [first] => exact .inr (by rw [only first (List.mem_singleton_self _)])
  | first :: second :: _ =>
    rw [only first (by simp), only second (by simp)] at once
    simp at once

theorem queue_write_of_reads (sole : graph.Sole cell id) (signal : graph.content? cell = some (.signal held)) (idle : graph.queue = [])
    (reads : cell ∈ graph.sources id) (value : Value) : (graph.write cell value).queue = [id] := by
  refine (queue_write sole signal idle value).resolve_left fun none => ?_
  have waits := (told_of_feeds sole.symmetric signal value (.direct reads)).2
    (((narrows_write id sole.symmetric signal value).live id).2 sole.live)
  rw [none] at waits
  cases waits

/-- The graph after the code of an effect has read a signal. -/
def reading (graph : Graph Code Body) (cell id : Nat) : Graph Code Body := (running graph id).track cell

/-- The graph after an effect has read a signal that holds something and has set it to a value. -/
def wroteBack (graph : Graph Code Body) (cell id : Nat) (held value : Value) (body : Body) : Graph Code Body :=
  rested (if held.same value then reading graph cell id else (reading graph cell id).write cell value) graph.observer id body

/-- A graph with an effect at rest that is the only one that a signal feeds. -/
structure Keeps (graph : Graph Code Body) (cell id : Nat) (body : Body) : Prop where
  sole : graph.Sole cell id
  effect : graph.content? id = some (.effect ⟨some body, none, false⟩)

/-- A graph in which a signal feeds no effect. -/
structure Unwatched (graph : Graph Code Body) (cell : Nat) : Prop where
  symmetric : graph.Symmetric
  signal : ∃ held, graph.content? cell = some (.signal held)
  unwatched : ∀ reader, graph.Feeds cell reader → ¬ graph.IsLive reader

section

variable {body : Body}

theorem Unwatched.add (unwatched : graph.Unwatched cell) (body : Body) :
    (graph.add (.effect ⟨some body, none, false⟩)).2.Keeps cell graph.vertices.size body := by
  have effect : (graph.add (.effect ⟨some body, none, false⟩)).2.content? graph.vertices.size = some (.effect ⟨some body, none, false⟩) := by
    rw [content?_add, if_pos rfl]
  have old {member : Nat} (apart : member ≠ graph.vertices.size) :
      (graph.add (.effect ⟨some body, none, false⟩)).2.content? member = graph.content? member := by rw [content?_add, if_neg apart]
  have fed {reader : Nat} (feeds : (graph.add (.effect ⟨some body, none, false⟩)).2.Feeds cell reader) : graph.Feeds cell reader := by
    induction feeds with
    | direct reads => exact .direct (by simpa using reads)
    | @through middle reader _ fresh reads ih =>
      have apart : middle ≠ graph.vertices.size := by
        rintro rfl
        simp [isFresh, computed?, effect] at fresh
      exact .through ih ((isFresh_congr (old apart)).symm.trans fresh) (by simpa using reads)
  refine ⟨⟨symmetric_of_same unwatched.symmetric (by simp) (by simp), ⟨_, effect, rfl⟩, fun reader feeds live => ?_⟩, effect⟩
  by_cases here : reader = graph.vertices.size
  · exact here
  · obtain ⟨found, isFound, awake⟩ := live
    exact absurd ⟨found, (old here).symm.trans isFound, awake⟩ (unwatched.unwatched reader (fed feeds))

theorem Narrows.of_vertices (symmetric : before.Symmetric) (same : after.vertices = before.vertices) : Narrows id before after := by
  have content : ∀ member, after.content? member = before.content? member := fun member => by rw [content?, same, ← content?]
  have sources : ∀ member, after.sources member = before.sources member := fun member => by rw [Graph.sources, same, ← Graph.sources]
  refine ⟨symmetric_of_same symmetric (fun member => by rw [subscribers, same, ← subscribers]) sources,
    fun reader _ => by rw [sources]; exact List.Subset.refl _, fun member fresh => (isFresh_congr (content member)).symm.trans fresh,
    fun member => by rw [IsLive, content, ← IsLive]⟩

theorem Keeps.of_vertices (keeps : before.Keeps cell id body) (same : after.vertices = before.vertices) : after.Keeps cell id body :=
  ⟨keeps.sole.narrow (.of_vertices keeps.sole.symmetric same), by rw [content?, same, ← content?, keeps.effect]⟩

theorem Keeps.apart (keeps : graph.Keeps cell id body) (signal : graph.content? cell = some (.signal held)) : cell ≠ id := by
  rintro rfl
  cases signal.symm.trans keeps.effect

/-- While the effect runs it reads the signal, which holds what it held. -/
theorem Keeps.reading (keeps : graph.Keeps cell id body) (signal : graph.content? cell = some (.signal held)) :
    Narrows id graph (graph.reading cell id) ∧ (graph.reading cell id).content? cell = some (.signal held) ∧
      (graph.reading cell id).content? id = some (.effect ⟨none, none, false⟩) ∧ cell ∈ (graph.reading cell id).sources id ∧
      (graph.reading cell id).queue = graph.queue ∧ (graph.reading cell id).depth = graph.depth := by
  have size : (running graph id).vertices.size = graph.vertices.size := by simp [running]
  have insideCell := size ▸ graph.lt_size_of_content? signal
  have inside := size ▸ graph.lt_size_of_content? keeps.effect
  refine ⟨(narrows_running keeps.sole.symmetric keeps.effect).trans
    (narrows_track (symmetric_running keeps.sole.symmetric) rfl insideCell inside), ?_, ?_, (mem_sources_track _).2 (.inr ⟨rfl, rfl, inside⟩), ?_, ?_⟩
  · rw [Graph.reading, content?_track, content?_running_of_ne (keeps.apart signal), signal]
  · rw [Graph.reading, content?_track, content?_running_self keeps.effect]
  · exact (queue_track ..).trans (queue_release ..)
  · exact (depth_track ..).trans (depth_release ..)

/-- What the effect that a signal feeds leaves behind: it waits once more just if the value is not the same as the one that it
has found, and the signal then holds the value. -/
def Left (graph : Graph Code Body) (cell id : Nat) (held value : Value) : Prop :=
  if held.same value then graph.queue = [] ∧ graph.content? cell = some (.signal held)
  else graph.queue = [id] ∧ graph.content? cell = some (.signal value)

theorem Keeps.wroteBack (keeps : graph.Keeps cell id body) (signal : graph.content? cell = some (.signal held)) (idle : graph.queue = []) :
    (graph.wroteBack cell id held value body).Keeps cell id body ∧ (graph.wroteBack cell id held value body).depth = graph.depth ∧
      (graph.wroteBack cell id held value body).Left cell id held value := by
  obtain ⟨narrows, signalRead, effectRead, reads, queue, depth⟩ := keeps.reading signal
  have soleRead := keeps.sole.narrow narrows
  have apart := keeps.apart signal
  have rest {before : Graph Code Body} (sole : before.Sole cell id) (effect : before.content? id = some (.effect ⟨none, none, false⟩)) :
      (rested before graph.observer id body).Keeps cell id body :=
    ⟨sole.narrow (narrows_rested sole.symmetric effect _ _), content?_rested_self effect⟩
  rw [Graph.wroteBack, Left]
  split
  next same =>
    rw [queue_rested, depth_rested, content?_rested_of_ne apart]
    exact ⟨rest soleRead effectRead, depth, queue.trans idle, signalRead⟩
  next differs =>
    have written := narrows_write id soleRead.symmetric signalRead value
    have effectWritten := (effect_write soleRead.symmetric signalRead value).2 effectRead
    rw [queue_rested, depth_rested, content?_rested_of_ne apart, depth_write soleRead.symmetric]
    exact ⟨rest (soleRead.narrow written) effectWritten, depth, queue_write_of_reads soleRead signalRead (queue.trans idle) reads value,
      content?_write_self soleRead.symmetric (lt_size_of_content? _ signalRead)⟩

end

end Graph

namespace Step

variable {σ α : Type} {step : Step σ α} {before : σ}

/-- A step that may only run out of calls comes to its end if it has enough. -/
theorem Ensures.done_of_ample {scarce : Prop} {post : α → σ → Prop} (ensured : Ensures ⟨False, scarce⟩ step before post) (ample : ¬ scarce) :
    ∃ value after, step.run before = (.done value, after) ∧ post value after := by
  have certain : Ensures ⟨False, False⟩ step before post := ensured.relax (fun may => may) ample fun _ _ holds => holds
  exact certain.done

theorem Ensures.exhausted {may : Prop} (ensured : Ensures ⟨False, may⟩ step before fun _ _ => False) : (step.run before).1 = .exhausted := by
  unfold Ensures at ensured
  split at ensured
  · exact ensured.elim
  · exact ensured.elim
  next same => rw [same]

end Step

namespace Machine

open ReactiveMarkup.Graph ReactiveMarkup.Step

variable {host : Host}

/-- Code of an effect that reads a signal and then sets it to a value. Its runs are counted. -/
def writeBack (count : host.World → host.World) (cell : Nat) (value : Value) (calls : Calls host) : Run host (Option host.Code) := do
  modify fun machine => { machine with world := count machine.world }
  discard (readSignal cell)
  writeSignal calls cell value
  return none

variable {interpreter : Interpreter host} {code : host.Code} {count : host.World → host.World} {cell id depth : Nat} {value held : Value}
  {machine : Machine host}

/-- While a batch is open, nothing runs by a write. -/
theorem ensures_writeSignal_in_batch (symmetric : machine.graph.Symmetric) (signal : machine.graph.content? cell = some (.signal held))
    (inBatch : 0 < machine.graph.depth) (value : Value) :
    Ensures ⟨False, depth = 0⟩ (writeSignal (Calls.upTo interpreter depth) cell value) machine fun _ after =>
      after = { machine with graph := if held.same value then machine.graph else machine.graph.write cell value } := by
  simp only [writeSignal, peek, ensures_bind, ensures_graph?, ensures_pure, value?, signal, Option.getD_some]
  split
  next same => rfl
  next differs =>
    simp only [changed, ensures_bind, ensures_modifyGraph]
    cases depth with
    | zero => exact rfl
    | succ depth =>
      show Ensures _ (flush (Calls.upTo interpreter depth) depth) _ _
      have busy : 0 < (machine.graph.write cell value).depth := (depth_write symmetric ..).symm ▸ inBatch
      simp only [flush, ensures_bind, ensures_graph?]
      rw [if_pos (show 0 < ((machine.graph.setSignal cell value).notifyReaders cell).depth from busy)]
      rfl

theorem ensures_writeBack (machine : Machine host) (symmetric : (machine.graph.track cell).Symmetric) (signal : machine.graph.content? cell = some (.signal held))
    (inBatch : 0 < machine.graph.depth) :
    Ensures ⟨False, depth = 0⟩ (writeBack count cell value (Calls.upTo interpreter depth)) machine fun cleanup after =>
      cleanup = none ∧ after = { machine with
        graph := if held.same value then machine.graph.track cell else (machine.graph.track cell).write cell value
        world := count machine.world } := by
  have read : (machine.graph.track cell).content? cell = some (.signal held) := (content?_track ..).trans signal
  simp only [writeBack, readSignal, peek, ensures_bind, ensures_modify, ensures_discard, ensures_modifyGraph, ensures_graph?, ensures_pure]
  refine (ensures_writeSignal_in_batch symmetric read (by rwa [← depth_track] at inBatch) value).mono ?_
  rintro _ _ rfl
  exact ⟨trivial, rfl⟩

theorem ensures_runEffect_writeBack (depth : Nat) (machine : Machine host) (react : ∀ calls, interpreter.react calls code = writeBack count cell value calls)
    (keeps : machine.graph.Keeps cell id (.host code)) (signal : machine.graph.content? cell = some (.signal held))
    (inBatch : 0 < machine.graph.depth) :
    Ensures ⟨False, depth < 3⟩ (runEffect (Calls.upTo interpreter depth) id) machine fun _ after =>
      after = { machine with
        graph := machine.graph.wroteBack cell id held value (.host code)
        world := count machine.world } := by
  have effect?_machine := machine.graph.effect?_eq_some.2 keeps.effect
  have effect?_released : (machine.graph.release id).effect? id = some ⟨some (.host code), none, false⟩ :=
    (effect?_eq_some _).2 ((content?_release ..).trans keeps.effect)
  simp only [runEffect, ensures_bind, ensures_graph?, effect?_machine, Bool.false_eq_true, if_false, ensures_modifyGraph, runCleanup,
    effect?_released, Option.bind_some, ensures_pure, ensures_after, ensures_observedBy, ensures_holding]
  rcases depth with _ | _ | depth
  case zero => exact Nat.succ_pos _
  case succ.zero => exact Nat.succ_lt_succ (Nat.succ_pos _)
  case succ.succ =>
    obtain ⟨between, isBetween⟩ : ∃ between : Machine host, between = { machine with
      graph := running machine.graph id, held := (Task.host code).parts ++ machine.held } := ⟨_, rfl⟩
    have isGraph : between.graph = running machine.graph id := by rw [isBetween]
    obtain ⟨narrows, signalRead, effectRead, -, -, depthRead⟩ := keeps.reading signal
    rw [Graph.reading, ← isGraph] at narrows signalRead effectRead depthRead
    show Ensures _ (interpreter.react (Calls.upTo interpreter depth) code) { machine with
      graph := running machine.graph id, held := (Task.host code).parts ++ machine.held } _
    rw [react, ← isBetween]
    rw [content?_track] at signalRead
    rw [depth_track] at depthRead
    refine (ensures_writeBack between narrows.symmetric signalRead (depthRead ▸ inBatch)).relax (fun may => may)
      (fun none => by simp [show depth = 0 from none]) ?_
    rintro _ _ ⟨rfl, rfl⟩
    rw [isGraph]
    have isWritten : (if held.same value then (running machine.graph id).track cell
        else ((running machine.graph id).track cell).write cell value).content? id = some (.effect ⟨none, none, false⟩) := by
      rw [isGraph] at effectRead narrows signalRead
      split
      next => exact effectRead
      next => exact (effect_write narrows.symmetric ((content?_track ..).trans signalRead) value).2 effectRead
    rw [wroteBack, Graph.reading]
    generalize (if held.same value then (running machine.graph id).track cell
        else ((running machine.graph id).track cell).write cell value) = written at isWritten ⊢
    have effect?_restored (observer : Option Nat) : ({ written with observer }.modifyEffect id fun effect =>
        { effect with body := some (.host code) }).effect? id = some ⟨some (.host code), none, false⟩ := by
      refine (effect?_eq_some _).2 ?_
      rw [content?_modifyEffect_self _ _ (show { written with observer }.content? id = _ from isWritten)]
    simp only [settleCleanup, ensures_bind, ensures_graph?, effect?_restored, Option.map_some, Option.getD_some, Bool.false_eq_true,
      if_false, ensures_modifyGraph]
    rw [← observer_release machine.graph id, isBetween]
    rfl

/-- What is left when the effects that wait have run: the effect is at rest, and it has run at most as often as given. -/
structure Calmed (count : host.World → host.World) (cell id : Nat) (code : host.Code) (runs : Nat) (before after : Machine host) : Prop where
  keeps : after.graph.Keeps cell id (.host code)
  signal : ∃ held, after.graph.content? cell = some (.signal held)
  idle : after.graph.queue = []
  depth : after.graph.depth = before.graph.depth
  few : ∃ k ≤ runs, after.world = count^[k] before.world

theorem Calmed.of_idle {runs : Nat} (keeps : machine.graph.Keeps cell id (.host code))
    (signal : machine.graph.content? cell = some (.signal held)) (idle : machine.graph.queue = []) :
    Calmed count cell id code runs machine machine :=
  ⟨keeps, ⟨held, signal⟩, idle, rfl, 0, Nat.zero_le _, rfl⟩

theorem Calmed.succ {between after : Machine host} {runs : Nat} (calmed : Calmed count cell id code runs between after)
    (depth : between.graph.depth = machine.graph.depth) (world : between.world = count machine.world) :
    Calmed count cell id code (runs + 1) machine after := by
  obtain ⟨k, few, same⟩ := calmed.few
  refine ⟨calmed.keeps, calmed.signal, calmed.idle, calmed.depth.trans depth, k + 1, Nat.succ_le_succ few, ?_⟩
  rw [same, world, Function.iterate_succ_apply]

/-- A machine in which nothing waits, with an effect that is the only one that a signal feeds. -/
structure Rests (machine : Machine host) (cell id : Nat) (code : host.Code) : Prop where
  keeps : machine.graph.Keeps cell id (.host code)
  signal : ∃ held, machine.graph.content? cell = some (.signal held)
  idle : machine.graph.queue = []
  outside : machine.graph.depth = 0

/-- How often the effect that a signal feeds has to run, if it waits: once if it finds the value that it writes, and else once
more. -/
def Few (graph : Graph host.Code (Task host.Code)) (id : Nat) (held value : Value) (runs : Nat) : Prop :=
  graph.queue = [] ∨ graph.queue = [id] ∧ (if held.same value then 1 else 2) ≤ runs

/-- If a run leaves the effect waiting, the signal holds the value, which was not there before. -/
theorem few_of_left {graph : Graph host.Code (Task host.Code)} (reflexive : value.same value = true) (left : graph.Left cell id held value) :
    ∃ later, graph.content? cell = some (.signal later) ∧
      ∀ runs, (if held.same value then 1 else 2) ≤ runs + 1 → Few graph id later value runs := by
  rw [Left] at left
  split at left
  next => exact ⟨held, left.2, fun _ _ => .inl left.1⟩
  next differs =>
    refine ⟨value, left.2, fun runs enough => .inr ⟨left.1, ?_⟩⟩
    rw [if_neg differs] at enough
    rw [if_pos reflexive]
    exact Nat.le_of_succ_le_succ enough

/-- Outside of batches, the effects that wait run in one. -/
theorem ensures_flush_of_drain {breaks : Breaks} {post : Unit → Machine host → Prop} (depth : Nat) (outside : machine.graph.depth = 0)
    (drains : Ensures breaks (drain (Calls.upTo interpreter depth) depth) { machine with graph := machine.graph.enterBatch } fun _ after =>
      post () { after with graph := { after.graph with depth := after.graph.depth - 1 } }) :
    Ensures breaks (Calls.upTo interpreter (depth + 1)).flush machine post := by
  show Ensures _ (flush (Calls.upTo interpreter depth) depth) machine _
  simp only [flush, ensures_bind, ensures_graph?, outside, Nat.lt_irrefl, if_false, ensures_withBatch, leaveBatch_false]
  exact drains

section

variable (react : ∀ calls, interpreter.react calls code = writeBack count cell value calls)

include react

/-- An effect that waits runs, and then those that wait after it. -/
theorem ensures_drain_of_waits {breaks : Breaks} {post : Unit → Machine host → Prop} (depth bound : Nat)
    (keeps : machine.graph.Keeps cell id (.host code)) (signal : machine.graph.content? cell = some (.signal held))
    (inBatch : 0 < machine.graph.depth) (waits : machine.graph.queue = [id]) (scarce : depth < 3 → breaks.exhausts)
    (rest : ∀ between : Machine host, between.graph.Keeps cell id (.host code) → between.graph.depth = machine.graph.depth →
      between.world = count machine.world → between.graph.Left cell id held value →
      Ensures breaks (drain (Calls.upTo interpreter depth) bound) between post) :
    Ensures breaks (drain (Calls.upTo interpreter depth) (bound + 1)) machine post := by
  simp only [drain, ensures_bind, ensures_graph?, pop?, waits, ensures_modifyGraph]
  have popped : ({ machine.graph with queue := [] } : Graph host.Code (Task host.Code)).Keeps cell id (.host code) := keeps.of_vertices rfl
  obtain ⟨keepsAfter, depthAfter, left⟩ := popped.wroteBack signal rfl
  have ran := ensures_runEffect_writeBack depth { machine with graph := { machine.graph with queue := [] } } react popped signal inBatch
  refine ran.relax False.elim scarce fun _ between same => ?_
  have isGraph := congrArg Machine.graph same
  dsimp only at isGraph
  rw [← isGraph] at keepsAfter depthAfter left
  exact rest between keepsAfter depthAfter (by rw [same]) left

/-- A new effect runs, and then those that wait after it. -/
theorem ensures_newEffect_of_flush {breaks : Breaks} {post : Nat → Machine host → Prop} (depth : Nat)
    (unwatched : machine.graph.Unwatched cell) (signal : machine.graph.content? cell = some (.signal held))
    (idle : machine.graph.queue = []) (outside : machine.graph.depth = 0) (scarce : depth < 3 → breaks.exhausts)
    (flushes : ∀ between : Machine host, between.graph.Keeps cell machine.graph.vertices.size (.host code) → between.graph.depth = 0 →
      between.world = count machine.world → between.graph.Left cell machine.graph.vertices.size held value →
      Ensures breaks (Calls.upTo interpreter depth).flush between fun _ => post machine.graph.vertices.size) :
    Ensures breaks (newEffect (Calls.upTo interpreter depth) (.host code)) machine post := by
  have apart : cell ≠ machine.graph.vertices.size := Nat.ne_of_lt (machine.graph.lt_size_of_content? signal)
  have added : (machine.graph.add (.effect ⟨some (.host code), none, false⟩)).2.enterBatch.Keeps cell machine.graph.vertices.size (.host code) :=
    (unwatched.add (.host code)).of_vertices rfl
  have holds : (machine.graph.add (.effect ⟨some (.host code), none, false⟩)).2.enterBatch.content? cell = some (.signal held) :=
    (content?_add ..).trans (by rw [if_neg apart, signal])
  obtain ⟨keepsAfter, depthAfter, left⟩ := added.wroteBack holds idle
  simp only [newEffect, batch, ensures_bind, ensures_addToGraph, ensures_withBatch, ensures_pure]
  have ran := ensures_runEffect_writeBack depth { machine with
    graph := (machine.graph.add (.effect ⟨some (.host code), none, false⟩)).2.enterBatch } react added holds (Nat.succ_pos _)
  refine ran.relax False.elim scarce fun _ between same => ?_
  have isGraph := congrArg Machine.graph same
  dsimp only at isGraph
  rw [← isGraph] at keepsAfter depthAfter left
  have isOutside : between.graph.depth - 1 = 0 := by
    rw [depthAfter]
    exact outside
  rw [leaveBatch_false]
  exact flushes _ (keepsAfter.of_vertices rfl) isOutside (by rw [same]) left

end

section

variable (react : ∀ calls, interpreter.react calls code = writeBack count cell value calls) (reflexive : value.same value = true)

include react reflexive

theorem ensures_drain_writeBack (machine : Machine host) (depth bound : Nat) {runs : Nat} (keeps : machine.graph.Keeps cell id (.host code))
    (signal : machine.graph.content? cell = some (.signal held)) (inBatch : 0 < machine.graph.depth)
    (few : Few machine.graph id held value runs) :
    Ensures ⟨False, depth < 3 ∨ bound ≤ runs⟩ (drain (Calls.upTo interpreter depth) bound) machine fun _ after =>
      Calmed count cell id code runs machine after := by
  induction bound generalizing machine runs held with
  | zero => exact .inr (Nat.zero_le _)
  | succ bound ih =>
    obtain idle | ⟨waits, enough⟩ := few
    · simp only [drain, ensures_bind, ensures_graph?, pop?, idle, ensures_pure]
      exact .of_idle keeps signal idle
    · obtain ⟨runs, rfl⟩ : ∃ fewer, runs = fewer + 1 := Nat.exists_eq_add_one.2 (Nat.lt_of_lt_of_le (by split <;> decide) enough)
      refine ensures_drain_of_waits react depth bound keeps signal inBatch waits .inl fun between keepsAfter same world left => ?_
      obtain ⟨later, signalAfter, fewAfter⟩ := few_of_left reflexive left
      exact (ih between keepsAfter signalAfter (same.symm ▸ inBatch) (fewAfter runs enough)).relax (fun may => may)
        (fun scarce => scarce.imp_right Nat.succ_le_succ) fun _ _ calmed => calmed.succ same world

/-- When the effects that wait have run, the effect is at rest. -/
theorem ensures_flush_writeBack (machine : Machine host) (depth : Nat) {runs : Nat} (keeps : machine.graph.Keeps cell id (.host code))
    (signal : machine.graph.content? cell = some (.signal held)) (outside : machine.graph.depth = 0)
    (few : Few machine.graph id held value runs) :
    Ensures ⟨False, depth < 4 ∨ depth ≤ runs + 1⟩ (Calls.upTo interpreter depth).flush machine fun _ after =>
      after.Rests cell id code ∧ ∃ k ≤ runs, after.world = count^[k] machine.world := by
  cases depth with
  | zero => exact .inl (Nat.succ_pos _)
  | succ depth =>
    have ran := ensures_drain_writeBack react reflexive { machine with graph := machine.graph.enterBatch } depth depth
      (keeps.of_vertices rfl) signal (Nat.succ_pos _) few
    refine ensures_flush_of_drain depth outside (ran.relax (fun may => may) (fun scarce => scarce.imp Nat.succ_lt_succ Nat.succ_le_succ)
      fun _ after calmed => ⟨⟨calmed.keeps.of_vertices rfl, calmed.signal, calmed.idle, ?_⟩, calmed.few⟩)
    show after.graph.depth - 1 = 0
    rw [calmed.depth]
    exact outside

/-- A write from outside makes the effect run at most twice. -/
theorem ensures_writeSignal_writeBack (machine : Machine host) (depth : Nat) (rests : machine.Rests cell id code) (written : Value) :
    Ensures ⟨False, depth < 4⟩ (writeSignal (Calls.upTo interpreter depth) cell written) machine fun _ after =>
      after.Rests cell id code ∧ ∃ k ≤ 2, after.world = count^[k] machine.world := by
  obtain ⟨held, signal⟩ := rests.signal
  have sole := rests.keeps.sole
  simp only [writeSignal, peek, ensures_bind, ensures_graph?, ensures_pure, value?, signal, Option.getD_some]
  split
  next same => exact ⟨rests, 0, Nat.zero_le _, rfl⟩
  next differs =>
    simp only [changed, ensures_bind, ensures_modifyGraph]
    have keeps : (machine.graph.write cell written).Keeps cell id (.host code) :=
      ⟨sole.narrow (narrows_write id sole.symmetric signal written), (effect_write sole.symmetric signal written).2 rests.keeps.effect⟩
    have holds : (machine.graph.write cell written).content? cell = some (.signal written) :=
      content?_write_self sole.symmetric (machine.graph.lt_size_of_content? signal)
    have outside : (machine.graph.write cell written).depth = 0 := (depth_write sole.symmetric cell written).trans rests.outside
    have few : Few (machine.graph.write cell written) id written value 2 :=
      (queue_write sole signal rests.idle written).imp_right fun waits => ⟨waits, by split <;> decide⟩
    have flushed := ensures_flush_writeBack react reflexive { machine with graph := machine.graph.write cell written } depth keeps holds
      outside few
    exact flushed.relax (fun may => may) (fun scarce => scarce.elim (fun low => low) Nat.lt_succ_of_le) fun _ _ rests => rests

/-- The effect runs at most twice when it is made. -/
theorem ensures_newEffect_writeBack (machine : Machine host) (depth : Nat) (unwatched : machine.graph.Unwatched cell)
    (idle : machine.graph.queue = []) (outside : machine.graph.depth = 0) :
    Ensures ⟨False, depth < 4⟩ (newEffect (Calls.upTo interpreter depth) (.host code)) machine fun id after =>
      after.Rests cell id code ∧ ∃ k ≤ 2, after.world = count^[k] machine.world := by
  obtain ⟨held, signal⟩ := unwatched.signal
  refine ensures_newEffect_of_flush react depth unwatched signal idle outside (fun low => Nat.lt_succ_of_lt low)
    fun between keeps outside world left => ?_
  obtain ⟨later, signalAfter, few⟩ := few_of_left reflexive left
  refine (ensures_flush_writeBack react reflexive between depth keeps signalAfter outside (few 1 (by split <;> decide))).relax
    (fun may => may) (fun scarce => ?_) fun _ after rests => ⟨rests.1, ?_⟩
  · exact scarce.elim (fun low => low) fun low => Nat.lt_of_le_of_lt low (by decide)
  · obtain ⟨k, fewer, same⟩ := rests.2
    exact ⟨k + 1, Nat.succ_le_succ fewer, by rw [same, world, Function.iterate_succ_apply]⟩

end

section

variable (react : ∀ calls, interpreter.react calls code = writeBack count cell value calls) (isNaN : value.isNaN = true)

include react isNaN

/-- An effect that writes a value that differs from itself waits again after each run. -/
theorem ensures_drain_of_isNaN (machine : Machine host) (depth bound : Nat) (keeps : machine.graph.Keeps cell id (.host code))
    (signal : machine.graph.content? cell = some (.signal held)) (inBatch : 0 < machine.graph.depth) (waits : machine.graph.queue = [id]) :
    Ensures ⟨False, True⟩ (drain (Calls.upTo interpreter depth) bound) machine fun _ _ => False := by
  induction bound generalizing machine held with
  | zero => exact trivial
  | succ bound ih =>
    refine ensures_drain_of_waits react depth bound keeps signal inBatch waits (fun _ => trivial) fun between keepsAfter same _ left => ?_
    rw [Left, Value.same_eq_false_of_isNaN held isNaN, if_neg Bool.false_ne_true] at left
    exact ih between keepsAfter left.2 (same.symm ▸ inBatch) left.1

theorem ensures_newEffect_of_isNaN (machine : Machine host) (depth : Nat) (unwatched : machine.graph.Unwatched cell)
    (idle : machine.graph.queue = []) (outside : machine.graph.depth = 0) :
    Ensures ⟨False, True⟩ (newEffect (Calls.upTo interpreter depth) (.host code)) machine fun _ _ => False := by
  obtain ⟨held, signal⟩ := unwatched.signal
  refine ensures_newEffect_of_flush react depth unwatched signal idle outside (fun _ => trivial) fun between keeps outside _ left => ?_
  rw [Left, Value.same_eq_false_of_isNaN held isNaN, if_neg Bool.false_ne_true] at left
  cases depth with
  | zero => exact trivial
  | succ depth =>
    exact ensures_flush_of_drain depth outside (ensures_drain_of_isNaN react isNaN _ depth depth (keeps.of_vertices rfl) left.2
      (Nat.succ_pos _) left.1)

end

/-- An effect that reads a signal and sets it to a value, in a machine at rest where nothing else depends on the signal, comes to
rest after at most two runs when it is made, and again after each later write of the signal, if the value is equal to itself. There
is one value that is not, and an effect that writes that one never comes to rest, however many runs are allowed. -/
theorem writeBack_settles_iff (react : ∀ calls, interpreter.react calls code = writeBack count cell value calls)
    (unwatched : machine.graph.Unwatched cell) (idle : machine.graph.queue = []) (outside : machine.graph.depth = 0) :
    (value.isNaN = false → ∀ depth, 4 ≤ depth →
      (∃ id after k, (newEffect (Calls.upTo interpreter depth) (.host code)).run machine = (.done id, after) ∧
        after.Rests cell id code ∧ k ≤ 2 ∧ after.world = count^[k] machine.world) ∧
      ∀ (id : Nat) (later : Machine host) (written : Value), later.Rests cell id code →
        ∃ after k, (writeSignal (Calls.upTo interpreter depth) cell written).run later = (.done (), after) ∧
          after.Rests cell id code ∧ k ≤ 2 ∧ after.world = count^[k] later.world) ∧
    (value.isNaN = true → ∀ depth, ((newEffect (Calls.upTo interpreter depth) (.host code)).run machine).1 = .exhausted) := by
  refine ⟨fun notNaN depth ample => ?_, fun isNaN depth => ?_⟩
  · have reflexive : value.same value = true := by rw [Value.same_self, notNaN, Bool.not_false]
    refine ⟨?_, fun id later written rests => ?_⟩
    · obtain ⟨id, after, done, rests, k, few, world⟩ :=
        (ensures_newEffect_writeBack react reflexive machine depth unwatched idle outside).done_of_ample (Nat.not_lt_of_le ample)
      exact ⟨id, after, k, done, rests, few, world⟩
    · obtain ⟨_, after, done, settled, k, few, world⟩ :=
        (ensures_writeSignal_writeBack react reflexive later depth rests written).done_of_ample (Nat.not_lt_of_le ample)
      exact ⟨after, k, done, settled, few, world⟩
  · exact Ensures.exhausted (ensures_newEffect_of_isNaN react isNaN machine depth unwatched idle outside)

end Machine

/-- A host whose code is values that are written back to the first signal. It counts the runs. -/
abbrev Host.writers : Host := ⟨Value, Nat, fun _ => []⟩

def Interpreter.writers : Interpreter Host.writers where
  call _ _ _ := return .undefined
  react calls value := Machine.writeBack (· + 1) 0 value calls
  build _ _ _ := Step.panic (.host "not a maker of nodes")
  control _ _ _ := Step.panic (.host "not a controller")
  view _ _ _ _ := Step.panic (.host "not a view")

def Machine.writers : Machine Host.writers where
  graph := { vertices := #[⟨.signal (.bool true), [], []⟩] }
  registry := { runtimeModule := "" }
  world := 0

theorem Machine.writeBack_settles_at_first :
    Machine.writers.graph.Unwatched 0 ∧
    (∃ id after k, (newEffect (Calls.upTo Interpreter.writers 8) (.host (.bool false))).run Machine.writers = (.done id, after) ∧
      k ≤ 2 ∧ after.world = (· + 1)^[k] 0) ∧
    ((newEffect (Calls.upTo Interpreter.writers 8) (.host (.number (0 / 0)))).run Machine.writers).1 = .exhausted := by
  have noEdges (member : Nat) : Machine.writers.graph.subscribers member = [] ∧ Machine.writers.graph.sources member = [] := by
    cases member <;> exact ⟨rfl, rfl⟩
  have unwatched : Machine.writers.graph.Unwatched 0 := by
    refine ⟨fun source reader => ?_, ⟨_, rfl⟩, fun reader feeds => ?_⟩
    · rw [(noEdges source).1, (noEdges reader).2]
      exact iff_of_false List.not_mem_nil List.not_mem_nil
    · cases feeds with
      | direct reads => cases (noEdges reader).2 ▸ reads
      | through _ _ reads => cases (noEdges reader).2 ▸ reads
  have react (value : Value) : ∀ calls, Interpreter.writers.react calls value = writeBack (· + 1) 0 value calls := fun _ => rfl
  obtain ⟨⟨id, after, k, done, -, few, world⟩, -⟩ := (writeBack_settles_iff (react (.bool false)) unwatched rfl rfl).1 rfl 8 (by decide)
  exact ⟨unwatched, ⟨id, after, k, done, few, world⟩, (writeBack_settles_iff (react (.number (0 / 0))) unwatched rfl rfl).2 (by decide) 8⟩

end ReactiveMarkup
