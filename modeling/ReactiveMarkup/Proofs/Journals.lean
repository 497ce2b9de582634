import ReactiveMarkup.Proofs.GentleChanges
import ReactiveMarkup.Proofs.SubscriptionSymmetry

/-! What the moments at which procedures had control tell of effects: whether one was running, whether it
read on after it was disposed of, and that it never runs again once it has ended. -/

namespace ReactiveMarkup

namespace Graph

variable {Code Body : Type} {odd dirty : Nat → Prop} {before after graph moment : Graph Code Body} {seen older : List (Graph Code Body)} {id : Nat}

/-- Whether a run of an effect is under way at the latest of some moments: a batch is open, and the effect
has had control since it last had its body. -/
def Underway (id : Nat) : List (Graph Code Body) → Prop
  | [] => False
  | moment :: older =>
    0 < moment.depth ∧ ((moment.observer = some id ∧ moment.IsLive id) ∨ (moment.IsVacant id ∧ Underway id older))

/-- Whether an effect had control when it was disposed of already. -/
def Overstays (id : Nat) (moments : List (Graph Code Body)) : Prop :=
  ∃ moment ∈ moments, moment.observer = some id ∧ moment.IsDisposed id

/-- An effect is as it was when it was disposed of. -/
structure Remains (id : Nat) (moment graph : Graph Code Body) : Prop where
  disposed : graph.IsDisposed id
  sources : graph.sources id = moment.sources id
  vacant : moment.IsVacant id → graph.IsVacant id

/-- What the moments before tell of a graph. -/
structure Consistent (seen : List (Graph Code Body)) (graph : Graph Code Body) : Prop where
  /-- Effects that wait are live. -/
  waiting : ∀ id ∈ graph.queue, graph.IsLive id
  /-- An effect that was disposed of reads nothing, unless it had control afterwards. -/
  silent : ∀ id, graph.IsDisposed id → graph.sources id = [] ∨ Overstays id seen
  /-- An effect that was disposed of and was not running has not run since. -/
  ended : ∀ id moment older, moment :: older <:+ seen → moment.IsDisposed id → ¬ Underway id (moment :: older) →
    ¬ Underway id seen ∧ Remains id moment graph

/-- Every moment is consistent with those before it, and an effect that has control is running. -/
def Chronicle (seen : List (Graph Code Body)) : Prop :=
  ∀ moment older, moment :: older <:+ seen → Consistent older moment ∧
    ∀ id effect, moment.content? id = some (.effect effect) → moment.observer = some id → Underway id (moment :: older)

theorem Overstays.cons (overstays : Overstays id seen) (moment : Graph Code Body) : Overstays id (moment :: seen) :=
  overstays.imp fun _ => And.imp_left (List.mem_cons_of_mem _)

namespace Consistent

theorem gentle (consistent : Consistent seen before) (gentle : Gentle odd dirty before after) : Consistent seen after := by
  refine ⟨gentle.waiting consistent.waiting, fun id gone => ?_, fun id moment older suffix gone resting => ?_⟩
  · obtain was | silent := gentle.ended id gone
    · rw [(gentle.disposed id was).2]
      exact consistent.silent id was
    · exact .inl silent
  · obtain ⟨rested, remains⟩ := consistent.ended id moment older suffix gone resting
    obtain ⟨disposed, same⟩ := gentle.disposed id remains.disposed
    exact ⟨rested, disposed, same.trans remains.sources, fun vacant => gentle.vacant id (remains.vacant vacant)⟩

/-- The observer and the open batches are no matter, and effects may wait no more. -/
theorem congr (consistent : Consistent seen graph) {queue : List Nat} (fewer : queue ⊆ graph.queue) (observer : Option Nat) (depth : Nat) :
    Consistent seen { graph with queue, observer, depth } :=
  ⟨fun id member => consistent.waiting id (fewer member), consistent.silent, fun id moment older suffix gone resting =>
    (consistent.ended id moment older suffix gone resting).imp_right fun ⟨disposed, sources, vacant⟩ => ⟨disposed, sources, vacant⟩⟩

/-- An observer that is running, and has been seen, reads a member. -/
theorem track (consistent : Consistent seen graph) (member : graph ∈ seen)
    (running : ∀ id effect, graph.content? id = some (.effect effect) → graph.observer = some id → Underway id seen) (source : Nat) :
    Consistent seen (graph.track source) := by
  refine ⟨fun id waits => ?_, fun id gone => ?_, fun id moment older suffix gone resting => ?_⟩
  · simpa only [IsLive, content?_track] using consistent.waiting id (queue_track graph source ▸ waits)
  · simp only [IsDisposed, content?_track] at gone
    by_cases here : graph.observer = some id
    · exact .inr ⟨graph, member, here, gone⟩
    · rw [sources_track_of_ne graph here]
      exact consistent.silent id gone
  · obtain ⟨rested, ⟨effect, found, isGone⟩, sources, vacant⟩ := consistent.ended id moment older suffix gone resting
    have apart : graph.observer ≠ some id := fun here => rested (running id effect found here)
    refine ⟨rested, ⟨effect, by rw [content?_track, found], isGone⟩, (sources_track_of_ne graph apart).trans sources, fun was => ?_⟩
    simpa only [IsVacant, content?_track] using vacant was

end Consistent

/-- What a moment within a step has to do with the graph before the step. -/
structure Within (odd : Nat → Prop) (graph moment : Graph Code Body) : Prop where
  depth : 0 < graph.depth → 0 < moment.depth
  vacant : ∀ id, graph.IsVacant id → moment.IsVacant id
  inert : ∀ id, ¬ odd id → graph.observer ≠ some id → graph.Inert id → moment.Inert id ∧ moment.observer ≠ some id

/-- What is running goes on running through the moments of a step. -/
theorem Underway.append {new : List (Graph Code Body)} (underway : Underway id seen) (inBatch : 0 < graph.depth) (vacant : graph.IsVacant id)
    (within : ∀ moment ∈ new, Within odd graph moment) : Underway id (new ++ seen) := by
  induction new with
  | nil => exact underway
  | cons moment new ih =>
    have here := within moment List.mem_cons_self
    exact ⟨here.depth inBatch, .inr ⟨here.vacant id vacant, ih fun moment member => within moment (List.mem_cons_of_mem _ member)⟩⟩

end Graph

namespace Procedure

open ReactiveMarkup.Graph ReactiveMarkup.Step ReactiveMarkup.Machine

variable {Memory : Type} {α β : Type} {calls : Calls (Host.procedural Memory)} {odd dirty : Nat → Prop}
  {machine before middle after : Machine (Host.procedural Memory)} {id : Nat}

/-- What holds whenever code has control, with what the moments before tell. -/
structure Careful (machine : Machine (Host.procedural Memory)) : Prop where
  orderly : machine.Orderly Hosted Calm
  consistent : Consistent machine.world.seen machine.graph
  chronicle : Chronicle machine.world.seen

/-- The effect that has control, if it is one, is running or begins to run. -/
def Begun (machine : Machine (Host.procedural Memory)) : Prop :=
  ∀ id effect, machine.graph.content? id = some (.effect effect) → machine.graph.observer = some id →
    0 < machine.graph.depth ∧ machine.graph.IsVacant id ∧ (Underway id machine.world.seen ∨ machine.graph.IsLive id)

/-- The effect that has control, if it is one, is running. -/
def Engaged (machine : Machine (Host.procedural Memory)) : Prop :=
  ∀ id effect, machine.graph.content? id = some (.effect effect) → machine.graph.observer = some id →
    0 < machine.graph.depth ∧ machine.graph.IsVacant id ∧ Underway id machine.world.seen

theorem Engaged.begun (engaged : Engaged machine) : Begun machine := fun id effect found observed =>
  (engaged id effect found observed).imp_right (And.imp_right .inl)

theorem Begun.enterBatch (begun : Begun machine) : Begun { machine with graph := machine.graph.enterBatch } := fun id effect found observed =>
  (begun id effect found observed).imp_left fun _ => Nat.succ_pos _

/-- What a step leaves alone, and what the moments within it tell. Odd members are those that it is about, and
dirty ones may come to have something to clean up. -/
structure Recorded (odd dirty : Nat → Prop) (before after : Machine (Host.procedural Memory)) : Prop where
  careful : Careful after
  steady : before.graph.Steady after.graph
  computing : ∀ id, after.graph.IsComputing id → before.graph.IsComputing id ∨ odd id
  vacant : ∀ id, before.graph.IsVacant id → after.graph.IsVacant id
  clean : 0 < before.graph.depth → ∀ id, ¬ dirty id → before.graph.IsClean id → after.graph.IsClean id
  inert : ∀ id, ¬ odd id → before.graph.observer ≠ some id → before.graph.Inert id →
    after.graph.Inert id ∧ after.graph.sources id = before.graph.sources id
  seen : ∃ new, after.world.seen = new ++ before.world.seen ∧ ∀ moment ∈ new, Within odd before.graph moment

/-- A step about no member in particular. -/
abbrev Recorded.plain (before after : Machine (Host.procedural Memory)) : Prop := Recorded (fun _ => False) (fun _ => False) before after

namespace Recorded

theorem refl (careful : Careful machine) : Recorded odd dirty machine machine :=
  ⟨careful, .refl _, fun _ => .inl, fun _ was => was, fun _ _ _ was => was, fun _ _ _ was => ⟨was, rfl⟩, [], rfl, nofun⟩

theorem trans (first : Recorded odd dirty before middle) (second : Recorded odd dirty middle after) : Recorded odd dirty before after := by
  obtain ⟨new, seen, within⟩ := first.seen
  obtain ⟨later, seenLater, withinLater⟩ := second.seen
  have observer := first.steady.observer
  refine ⟨second.careful, first.steady.trans second.steady, fun id busy => (second.computing id busy).elim (first.computing id) .inr,
    fun id was => second.vacant id (first.vacant id was), fun inBatch id neat was => ?_, fun id usual apart was => ?_, later ++ new, ?_, ?_⟩
  · exact second.clean (first.steady.depth ▸ inBatch) id neat (first.clean inBatch id neat was)
  · obtain ⟨still, same⟩ := first.inert id usual apart was
    exact (second.inert id usual (observer ▸ apart) still).imp_right (·.trans same)
  · rw [seenLater, seen, List.append_assoc]
  · intro moment member
    obtain member | member := List.mem_append.1 member
    · obtain ⟨depth, vacant, inert⟩ := withinLater moment member
      exact ⟨fun inBatch => depth (first.steady.depth ▸ inBatch), fun id was => vacant id (first.vacant id was),
        fun id usual apart was => inert id usual (observer ▸ apart) (first.inert id usual apart was).1⟩
    · exact within moment member

theorem mono {odder dirtier : Nat → Prop} (recorded : Recorded odd dirty before after) (implies : ∀ id, odd id → odder id)
    (dirties : ∀ id, dirty id → dirtier id) : Recorded odder dirtier before after := by
  obtain ⟨new, seen, within⟩ := recorded.seen
  refine ⟨recorded.careful, recorded.steady, fun id busy => (recorded.computing id busy).imp_right (implies id), recorded.vacant,
    fun inBatch id neat => recorded.clean inBatch id (mt (dirties id) neat), fun id usual => recorded.inert id (mt (implies id) usual), new, seen, ?_⟩
  intro moment member
  obtain ⟨depth, vacant, inert⟩ := within moment member
  exact ⟨depth, vacant, fun id usual => inert id (mt (implies id) usual)⟩

theorem weaken (recorded : Recorded.plain before after) : Recorded odd dirty before after := recorded.mono (fun _ => False.elim) fun _ => False.elim

/-- A step is not about members that were no inert effects before it and are not being computed after it. -/
theorem close (recorded : Recorded odd dirty before after) (still : ∀ id, odd id → ¬ after.graph.IsComputing id)
    (alert : ∀ id, odd id → ¬ before.graph.Inert id) : Recorded (fun _ => False) dirty before after := by
  obtain ⟨new, seen, within⟩ := recorded.seen
  have usual {id : Nat} (was : before.graph.Inert id) : ¬ odd id := fun isOdd => alert id isOdd was
  refine ⟨recorded.careful, recorded.steady, fun id busy => .inl ?_, recorded.vacant, recorded.clean,
    fun id _ apart was => recorded.inert id (usual was) apart was, new, seen, fun moment member => ?_⟩
  · exact (recorded.computing id busy).resolve_right fun isOdd => still id isOdd busy
  · obtain ⟨depth, vacant, inert⟩ := within moment member
    exact ⟨depth, vacant, fun id _ apart was => inert id (usual was) apart was⟩

/-- Members that were not clean before a step need not be clean after it. -/
theorem neat (recorded : Recorded odd dirty before after)
    (clean : 0 < before.graph.depth → ∀ id, dirty id → before.graph.IsClean id → after.graph.IsClean id) :
    Recorded odd (fun _ => False) before after := by
  refine ⟨recorded.careful, recorded.steady, recorded.computing, recorded.vacant, fun inBatch id _ was => ?_, recorded.inert, recorded.seen⟩
  by_cases soiled : dirty id
  · exact clean inBatch id soiled was
  · exact recorded.clean inBatch id soiled was

theorem engaged (recorded : Recorded odd dirty before after) (fit : before.graph.Fit Hosted) (engaged : Engaged before) : Engaged after := by
  intro id effect found observed
  have observedBefore := recorded.steady.observer.symm.trans observed
  obtain ⟨earlier, was⟩ | ⟨new, _⟩ := recorded.steady.created id effect found
  · obtain ⟨inBatch, vacant, underway⟩ := engaged id earlier was observedBefore
    obtain ⟨new, seen, within⟩ := recorded.seen
    exact ⟨recorded.steady.depth ▸ inBatch, recorded.vacant id vacant, seen ▸ underway.append inBatch vacant within⟩
  · exact absurd (fit.observing id observedBefore) (by omega)

/-- A change of the graph. -/
theorem gentle (careful : Careful machine) {graph : Graph (Procedure Memory) (Task (Procedure Memory))}
    (kept : machine.graph.Kept Hosted graph) (gentle : Gentle odd dirty machine.graph graph) : Recorded odd dirty machine { machine with graph } :=
  ⟨⟨⟨kept.fit, careful.orderly.calm⟩, careful.consistent.gentle gentle, careful.chronicle⟩, kept.steady, gentle.computing, gentle.vacant,
    fun _ => gentle.clean, fun id _ _ => gentle.inert id, [], rfl, nofun⟩

/-- What is done for an observer, who is put back afterwards. The observer is nobody, a cell, or what the step is about. -/
theorem observed {observer : Option Nat} (fit : machine.graph.Fit Hosted)
    (alert : ∀ id, observer = some id → ¬ odd id → ¬ machine.graph.Inert id)
    (recorded : Recorded odd dirty { machine with graph := { machine.graph with observer } } after) :
    Recorded odd dirty machine { after with graph := { after.graph with observer := machine.graph.observer } } := by
  obtain ⟨careful, ⟨size, depth, _, effects, created, signals⟩, computing, vacant, clean, inert, new, seen, within⟩ := recorded
  have apart {id : Nat} (usual : ¬ odd id) (was : machine.graph.Inert id) : observer ≠ some id := fun same => alert id same usual was
  have orderly := careful.orderly.observe machine.graph.observer fun id same => Nat.lt_of_lt_of_le (fit.observing id same) size
  refine ⟨⟨orderly, careful.consistent.congr (fun _ member => member) _ _, careful.chronicle⟩, ⟨size, depth, rfl, effects, created, signals⟩,
    computing, vacant, clean, fun id usual _ was => ?_, new, seen, fun moment member => ?_⟩
  · obtain ⟨still, same⟩ := inert id usual (apart usual was) ⟨was.idle, was.deaf⟩
    exact ⟨⟨still.idle, still.deaf⟩, same⟩
  · obtain ⟨inBatch, vacant, inert⟩ := within moment member
    exact ⟨inBatch, vacant, fun id usual _ was => inert id usual (apart usual was) ⟨was.idle, was.deaf⟩⟩

/-- What is done in a batch, however it is left. -/
theorem batched (recorded : Recorded odd dirty { machine with graph := machine.graph.enterBatch } after) (panicking : Bool) :
    Recorded odd dirty machine { after with graph := after.graph.leaveBatch panicking } := by
  obtain ⟨careful, ⟨size, depth, observer, effects, created, signals⟩, computing, vacant, clean, inert, new, seen, within⟩ := recorded
  obtain ⟨queue, fewer, same⟩ : ∃ queue ⊆ after.graph.queue,
      after.graph.leaveBatch panicking = { after.graph with depth := after.graph.depth - 1, queue } := by
    rw [leaveBatch]
    dsimp only
    split
    · exact ⟨[], List.nil_subset _, rfl⟩
    · exact ⟨_, List.Subset.refl _, rfl⟩
  have outside : after.graph.depth - 1 = machine.graph.depth := by
    rw [depth]
    exact Nat.add_sub_cancel ..
  rw [same]
  have fit := careful.orderly.fit
  refine ⟨⟨⟨⟨fit.symmetric, fit.observing, fit.bodies⟩, careful.orderly.calm⟩, careful.consistent.congr fewer _ _, careful.chronicle⟩,
    ⟨size, outside, observer, effects, created, signals⟩, computing, vacant, fun _ => clean (Nat.succ_pos _), fun id usual apart was => ?_,
    new, seen, fun moment member => ?_⟩
  · obtain ⟨still, same⟩ := inert id usual apart ⟨was.idle, was.deaf⟩
    exact ⟨⟨fun waits => still.idle (fewer waits), still.deaf⟩, same⟩
  · obtain ⟨inBatch, vacant, inert⟩ := within moment member
    exact ⟨fun _ => inBatch (Nat.succ_pos _), vacant, fun id usual apart was => inert id usual apart ⟨was.idle, was.deaf⟩⟩

end Recorded

theorem Careful.observe (careful : Careful machine) (observer : Option Nat) (inside : ∀ id, observer = some id → id < machine.graph.vertices.size) :
    Careful { machine with graph := { machine.graph with observer } } :=
  ⟨careful.orderly.observe observer inside, careful.consistent.congr (fun _ member => member) _ _, careful.chronicle⟩

theorem Careful.enterBatch (careful : Careful machine) : Careful { machine with graph := machine.graph.enterBatch } :=
  ⟨careful.orderly.enterBatch, careful.consistent.congr (fun _ member => member) _ _, careful.chronicle⟩

/-- A step leaves a record, however it ends. -/
def Records (odd dirty : Nat → Prop) (step : ProcedureRun Memory α) (machine : Machine (Host.procedural Memory)) : Prop :=
  Leaves step machine (Recorded odd dirty machine)

/-- A step that is about no member in particular. -/
abbrev Records.plain (step : ProcedureRun Memory α) (machine : Machine (Host.procedural Memory)) : Prop :=
  Records (fun _ => False) (fun _ => False) step machine

namespace Records

theorem bind {step : ProcedureRun Memory α} {next : α → ProcedureRun Memory β} (first : Records odd dirty step machine)
    (rest : ∀ value between, Recorded odd dirty machine between → Records odd dirty (next value) between) : Records odd dirty (step >>= next) machine :=
  Leaves.bind first (fun _ recorded => recorded) fun value between _ recorded =>
    (rest value between recorded).mono fun _ later => recorded.trans later

theorem modify {f : Graph (Procedure Memory) (Task (Procedure Memory)) → Graph (Procedure Memory) (Task (Procedure Memory))}
    {next : Unit → ProcedureRun Memory β} (recorded : Recorded odd dirty machine { machine with graph := f machine.graph })
    (rest : Records odd dirty (next ()) { machine with graph := f machine.graph }) : Records odd dirty (modifyGraph f >>= next) machine :=
  Leaves.mono rest fun _ later => recorded.trans later

theorem pure (careful : Careful machine) (value : α) : Records odd dirty (Pure.pure value) machine := Recorded.refl careful

theorem discard {step : ProcedureRun Memory α} (records : Records odd dirty step machine) : Records odd dirty (Functor.discard step) machine :=
  records.bind fun _ _ recorded => .pure recorded.careful _

theorem weaken {step : ProcedureRun Memory α} (records : Records.plain step machine) : Records odd dirty step machine :=
  Leaves.mono records fun _ recorded => recorded.weaken

theorem observed {observer : Option Nat} {step : ProcedureRun Memory α} (careful : Careful machine)
    (alert : ∀ id, observer = some id → ¬ odd id → ¬ machine.graph.Inert id)
    (records : Records odd dirty step { machine with graph := { machine.graph with observer } }) : Records odd dirty (observedBy observer step) machine :=
  (leaves_observedBy ..).2 (Leaves.mono records fun _ recorded => .observed careful.orderly.fit alert recorded)

end Records

/-- Calls that leave records. -/
structure KeepsRecords (calls : Calls (Host.procedural Memory)) : Prop where
  order : KeepsOrder Hosted Calm calls
  call : ∀ code arguments machine, Careful machine → Begun machine → Records.plain (calls.call code arguments) machine
  react : ∀ code machine, Careful machine → Begun machine →
    Leaves (calls.react code) machine fun after => Recorded.plain machine after ∧ Begun after
  perform : ∀ task, Hosted task → ∀ machine, Careful machine → Begun machine →
    Leaves (calls.perform task) machine fun after => Recorded.plain machine after ∧ Begun after
  flush : ∀ machine, Careful machine → Records.plain calls.flush machine

section

variable (careful : Careful machine)

include careful

/-- The end of a live effect. -/
theorem recorded_retire (live : machine.graph.IsLive id) :
    Recorded (fun _ => False) (· = id) machine { machine with graph := machine.graph.retire id } :=
  .gentle careful (.retire careful.orderly.fit live) (.retire live)

/-- The cleanup of an effect is taken away. -/
theorem recorded_forgetCleanup (id : Nat) : Recorded.plain machine
    { machine with graph := machine.graph.modifyEffect id fun effect => { effect with cleanup := none } } :=
  .gentle careful (.modifyEffect careful.orderly.fit id _ (fun _ _ awake => ⟨awake, rfl⟩) fun _ _ same => same)
    (.modifyEffect id (fun _ => rfl) (fun _ _ same => same) fun _ _ _ => rfl)

end

section

variable (keeps : KeepsRecords calls) (careful : Careful machine)

include keeps careful

theorem records_untracked_call (code : Procedure Memory) : Records.plain (Functor.discard (Machine.untrack (calls.call code []))) machine :=
  .discard (.observed careful nofun (keeps.call code [] _ (careful.observe none nofun) nofun))

/-- After its cleanup has run in a batch, an effect leaves nothing to clean up. -/
theorem records_runCleanup (id : Nat) : Leaves (runCleanup calls id) machine fun after => Recorded.plain machine after ∧
    (machine.graph.IsLive id → 0 < machine.graph.depth → after.graph.IsClean id) := by
  rw [runCleanup, leaves_graph?_bind]
  split
  next none =>
    refine ⟨.refl careful, fun live _ => ?_⟩
    obtain ⟨effect, found, awake⟩ := live
    refine ⟨effect, found, ?_, fun gone => ?_⟩
    · rwa [machine.graph.effect?_eq_some.2 found] at none
    · cases awake.symm.trans gone
  next code _ =>
    rw [leaves_modifyGraph_bind]
    have taken := recorded_forgetCleanup careful id
    refine (records_untracked_call keeps taken.careful code).mono fun after recorded => ⟨taken.trans recorded, fun live inBatch => ?_⟩
    obtain ⟨effect, found, awake⟩ := live
    refine recorded.clean inBatch id not_false ⟨_, content?_modifyEffect_self _ _ found, rfl, fun gone => ?_⟩
    cases awake.symm.trans gone

theorem records_settleCleanup (id : Nat) (cleanup : Option (Procedure Memory)) :
    Records (fun _ => False) (· = id) (settleCleanup calls id cleanup) machine := by
  refine (leaves_graph?_bind _ machine _).2 ?_
  split
  · cases cleanup with
    | none => exact Recorded.refl careful
    | some code => exact Records.weaken (records_untracked_call keeps careful code)
  · exact .gentle careful (.modifyEffect careful.orderly.fit id _ (fun _ _ awake => ⟨awake, rfl⟩) fun _ _ same => same)
      (.modifyEffect id (fun _ => rfl) (fun _ _ same => same) fun usual => absurd rfl usual)

end

end Procedure

end ReactiveMarkup
