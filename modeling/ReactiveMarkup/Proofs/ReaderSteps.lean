import ReactiveMarkup.Proofs.EffectRuns
import ReactiveMarkup.Proofs.Readers
import ReactiveMarkup.Proofs.Writing

/-! What the operations of the runtime do when computed values and effects do nothing but read. Each
effect that waits runs once, and nothing else happens than that computed values are brought up to date. -/

namespace ReactiveMarkup

namespace Machine

open ReactiveMarkup.Graph

variable {before middle after machine : Machine Host.readers}

/-- What is so whenever no code is running. Effects that are live have a query as their body, and those
that wait are live. -/
structure Sane (machine : Machine Host.readers) : Prop where
  lucid : machine.Lucid
  idle : Busy [] machine.graph
  alone : machine.graph.observer = none
  effects : ∀ id effect, machine.graph.content? id = some (.effect effect) →
    effect.cleanup = none ∧ (effect.disposed = false → ∃ query, effect.body = some (.host query))
  spent : ∀ id effect, machine.graph.content? id = some (.effect effect) → effect.disposed = true → machine.graph.sources id = []
  once : machine.graph.queue.Nodup
  live : ∀ id ∈ machine.graph.queue, machine.graph.IsLive id

/-- The body of an effect that is live. -/
def Hosts (graph : Graph Query (Task Query)) (id : Nat) (query : Query) : Prop :=
  ∃ effect, graph.content? id = some (.effect effect) ∧ effect.disposed = false ∧ effect.body = some (.host query)

/-- Effects that do not wait have right notes. -/
def AllWatched (machine : Machine Host.readers) : Prop :=
  ∀ id query, Hosts machine.graph id query → id ∈ machine.graph.queue ∨ machine.Faithful id query

/-- Some effects have run, and else nothing has happened but reading. -/
structure Stirred (ran : List Nat) (before after : Machine Host.readers) : Prop where
  size : after.graph.vertices.size = before.graph.vertices.size
  depth : after.graph.depth = before.graph.depth
  observer : after.graph.observer = before.graph.observer
  lucid : after.Lucid
  live : ∀ id ∈ ran, before.graph.IsLive id
  content : ∀ id, after.graph.content? id = before.graph.content? id ∨ before.graph.Renewed after.graph id
  sources : ∀ id, id ∉ ran → ¬ before.graph.Renewed after.graph id → after.graph.sources id = before.graph.sources id
  notes : ∀ id, id ∉ ran → ¬ before.graph.Renewed after.graph id → after.world.notes id = before.world.notes id
  runs : ∃ new, after.world.runs = new ++ before.world.runs ∧ new.Nodup ∧ ran ⊆ new ∧
    ∀ id ∈ new, id ∈ ran ∨ before.graph.Renewed after.graph id

theorem not_renewed_of_effect {graph later : Graph Query (Task Query)} {id : Nat} {effect : Effect Query (Task Query)}
    (found : graph.content? id = some (.effect effect)) : ¬ graph.Renewed later id := by
  rintro ⟨_, _, other, _⟩
  cases found.symm.trans other

namespace Stirred

variable {ran others : List Nat}

theorem refl (lucid : machine.Lucid) : Stirred [] machine machine :=
  ⟨rfl, rfl, rfl, lucid, by simp, fun _ => .inl rfl, fun _ _ _ => rfl, fun _ _ _ => rfl, [], rfl, .nil, by simp, by simp⟩

theorem effect_iff (stirred : Stirred ran before after) {id : Nat} {effect : Effect Query (Task Query)} :
    after.graph.content? id = some (.effect effect) ↔ before.graph.content? id = some (.effect effect) := by
  obtain same | ⟨_, _, old, _, _, new⟩ := stirred.content id
  · rw [same]
  · simp [old, new]

theorem hosts_iff (stirred : Stirred ran before after) {id : Nat} {query : Query} :
    Hosts after.graph id query ↔ Hosts before.graph id query := by
  simp only [Hosts, stirred.effect_iff]

theorem current? (stirred : Stirred ran before after) {id : Nat} {value : Value} (holds : before.graph.current? id = some value) :
    after.graph.current? id = some value := by
  obtain same | ⟨computed, _, found, stale, _, _⟩ := stirred.content id
  · rw [current?_congr same, holds]
  · simp [Graph.current?, found, stale] at holds

/-- Effects that have not run keep their notes. -/
theorem faithful (stirred : Stirred ran before after) {id : Nat} {query : Query} (hosts : Hosts before.graph id query) (rests : id ∉ ran)
    (faithful : before.Faithful id query) : after.Faithful id query := by
  obtain ⟨effect, found, _⟩ := hosts
  have kept : ¬ before.graph.Renewed after.graph id := not_renewed_of_effect found
  refine faithful.mono (fun _ _ _ => stirred.current?) (stirred.notes id rests kept) fun source => ?_
  rw [stirred.sources id rests kept]

theorem idle (stirred : Stirred ran before after) (idle : Busy [] before.graph) : Busy [] after.graph := by
  refine ⟨.nil, fun id => iff_of_false List.not_mem_nil ?_⟩
  rintro ⟨computed, found, computing⟩
  refine List.not_mem_nil ((idle.mem id).2 ?_)
  obtain same | ⟨earlier, _, old, _, _, new⟩ := stirred.content id
  · exact ⟨computed, same.symm.trans found, computing⟩
  · cases found.symm.trans new
    exact ⟨earlier, old, computing⟩

theorem sane (stirred : Stirred ran before after) (sane : Sane before) (queue : after.graph.queue.Sublist before.graph.queue) : Sane after := by
  refine ⟨stirred.lucid, stirred.idle sane.idle, stirred.observer.trans sane.alone, fun id effect found => ?_, fun id effect found gone => ?_,
    queue.nodup sane.once, fun id member => ?_⟩
  · exact sane.effects id effect (stirred.effect_iff.1 found)
  · have old := stirred.effect_iff.1 found
    have rests : id ∉ ran := by
      intro member
      obtain ⟨other, again, awake⟩ := stirred.live id member
      cases old.symm.trans again
      rw [gone] at awake
      cases awake
    rw [stirred.sources id rests (not_renewed_of_effect old), sane.spent id effect old gone]
  · obtain ⟨effect, found, awake⟩ := sane.live id (queue.subset member)
    exact ⟨effect, stirred.effect_iff.2 found, awake⟩

theorem isLive_iff (stirred : Stirred ran before after) {id : Nat} : after.graph.IsLive id ↔ before.graph.IsLive id := by
  simp only [IsLive, stirred.effect_iff]

theorem trans (first : Stirred ran before middle) (second : Stirred others middle after) (apart : ran.Disjoint others) :
    Stirred (ran ++ others) before after := by
  have renewed_first {id : Nat} (renewed : before.graph.Renewed middle.graph id) : before.graph.Renewed after.graph id := by
    obtain ⟨computed, value, found, stale, idle, new⟩ := renewed
    refine ⟨computed, value, found, stale, idle, ?_⟩
    obtain same | ⟨_, _, again, staleAgain, _⟩ := second.content id
    · exact same.trans new
    · cases new.symm.trans again
      cases staleAgain
  have renewed_second {id : Nat} (renewed : middle.graph.Renewed after.graph id) : before.graph.Renewed after.graph id := by
    obtain ⟨computed, value, found, stale, rest⟩ := renewed
    obtain same | ⟨_, _, _, _, _, new⟩ := first.content id
    · exact ⟨computed, value, same.symm.trans found, stale, rest⟩
    · cases found.symm.trans new
      cases stale
  have split {id : Nat} (rests : id ∉ ran ++ others) (kept : ¬ before.graph.Renewed after.graph id) :
      (id ∉ ran ∧ ¬ before.graph.Renewed middle.graph id) ∧ (id ∉ others ∧ ¬ middle.graph.Renewed after.graph id) := by
    rw [List.mem_append, not_or] at rests
    exact ⟨⟨rests.1, fun renewed => kept (renewed_first renewed)⟩, ⟨rests.2, fun renewed => kept (renewed_second renewed)⟩⟩
  obtain ⟨new, runs, once, ranNew, known⟩ := first.runs
  obtain ⟨later, runsLater, onceLater, ranLater, knownLater⟩ := second.runs
  refine ⟨second.size.trans first.size, second.depth.trans first.depth, second.observer.trans first.observer, second.lucid,
    fun id member => ?_, fun id => ?_, fun id rests kept => ?_, fun id rests kept => ?_, later ++ new, ?_, ?_, ?_, fun id member => ?_⟩
  · obtain member | member := List.mem_append.1 member
    · exact first.live id member
    · exact first.isLive_iff.1 (second.live id member)
  · obtain same | renewed := first.content id
    · exact (second.content id).imp (·.trans same) renewed_second
    · exact .inr (renewed_first renewed)
  · obtain ⟨old, late⟩ := split rests kept
    rw [second.sources id late.1 late.2, first.sources id old.1 old.2]
  · obtain ⟨old, late⟩ := split rests kept
    rw [second.notes id late.1 late.2, first.notes id old.1 old.2]
  · rw [runsLater, runs, List.append_assoc]
  · -- What runs in the second part has neither run in the first one nor been brought up to date there.
    refine List.nodup_append.2 ⟨onceLater, once, ?_⟩
    rintro id memberLater _ member rfl
    obtain ran | ⟨_, _, _, _, _, fresh⟩ := known id member
    · obtain ranToo | renewed := knownLater id memberLater
      · exact apart ran ranToo
      · obtain ⟨effect, found, _⟩ := first.isLive_iff.2 (first.live id ran)
        exact not_renewed_of_effect found renewed
    · obtain ranToo | ⟨_, _, again, stale, _⟩ := knownLater id memberLater
      · obtain ⟨effect, found, _⟩ := second.live id ranToo
        cases found.symm.trans fresh
      · cases fresh.symm.trans again
        cases stale
  · intro id member
    obtain member | member := List.mem_append.1 member
    · exact List.mem_append_right _ (ranNew member)
    · exact List.mem_append_left _ (ranLater member)
  · obtain member | member := List.mem_append.1 member
    · exact (knownLater id member).imp (List.mem_append_right _) renewed_second
    · exact (known id member).imp (List.mem_append_left _) renewed_first

end Stirred

/-- A change of effects and of what effects read. -/
theorem Lucid.of_sameCells (lucid : before.Lucid) (same : SameCells before.graph after.graph) (symmetric : after.graph.Symmetric)
    (sources : ∀ id computed, before.graph.content? id = some (.computed computed) → after.graph.sources id = before.graph.sources id)
    (notes : ∀ id computed, before.graph.content? id = some (.computed computed) → after.world.notes id = before.world.notes id) :
    after.Lucid := by
  refine ⟨lucid.coherent.of_sameCells same symmetric fun id fresh => ?_, fun id computed found fresh => ?_, fun id idle => ?_⟩
  · obtain ⟨computed, found, _⟩ := isFresh_iff.1 fresh
    rw [sources id computed ((same.content?_iff (by simp)).1 found)]
    exact fun _ member => member
  · have old := (same.content?_iff (by simp)).1 found
    refine (lucid.faithful id computed old fresh).mono (fun cell _ _ holds => (same.current? cell).trans holds) (notes id computed old) ?_
    rw [sources id computed old]
    exact fun _ => Iff.rfl
  · obtain ⟨computed, found, rest⟩ := idle
    have old := (same.content?_iff (by simp)).1 found
    rw [sources id computed old, lucid.bare id ⟨computed, old, rest⟩]

/-- A change of what waits, of who observes, or of the open batches. -/
theorem Lucid.of_vertices (lucid : machine.Lucid) {graph : Graph Query (Task Query)} (same : graph.vertices = machine.graph.vertices) :
    Lucid { machine with graph } := by
  obtain ⟨vertices, observer, queue, depth⟩ := graph
  cases same
  exact lucid.of_sameCells (fun _ => .inl rfl) lucid.coherent.symmetric (fun _ _ _ => rfl) fun _ _ _ => rfl

section

variable {graph : Graph Query (Task Query)} {id : Nat} {effect : Effect Query (Task Query)} {query : Query}

/-- An effect may run its query when no other code is running. -/
theorem prepared_running (sane : Sane machine) (found : machine.graph.content? id = some (.effect effect)) :
    Prepared True [] query { machine with graph := running machine.graph id } := by
  have self := content?_running_self found
  have symmetric : (running machine.graph id).Symmetric := symmetric_running sane.lucid.coherent.symmetric
  refine ⟨sane.lucid.of_sameCells (sameCells_of_ne found self fun _ => content?_running_of_ne) symmetric (fun other computed old => ?_) fun _ _ _ => rfl,
    ?_, ?_, ⟨.nil, fun other => iff_of_false List.not_mem_nil ?_⟩, .inl trivial⟩
  · have apart : other ≠ id := by
      rintro rfl
      cases found.symm.trans old
    exact (sources_running other).trans (if_neg apart)
  · rintro _ ⟨⟩
    refine ⟨(running machine.graph id).lt_size_of_content? self, ?_⟩
    rintro ⟨_, other, _⟩
    cases self.symm.trans other
  · rintro _ ⟨⟩
    simp [isFresh, Graph.computed?, self]
  · rintro ⟨computed, again, computing⟩
    have apart : other ≠ id := by
      rintro rfl
      cases self.symm.trans again
    exact List.not_mem_nil ((sane.idle.mem other).2 ⟨computed, (content?_running_of_ne apart).symm.trans again, computing⟩)

/-- An effect that has run its query. -/
theorem stirred_rested {value : Value} {held : List Part} (sane : Sane machine) (found : machine.graph.content? id = some (.effect effect))
    (awake : effect.disposed = false) (body : effect.body = some (.host query))
    (watched : Watched query id { machine with graph := running machine.graph id } value after) :
    Stirred [id] machine { after with graph := rested after.graph machine.graph.observer id (.host query), held } ∧
      Faithful { after with graph := rested after.graph machine.graph.observer id (.host query), held } id query := by
  have refreshed := watched.evaluated.refreshed
  have prepared : Prepared True [] query { machine with graph := running machine.graph id } := prepared_running sane found
  have self : after.graph.content? id = some (.effect { effect with body := none }) :=
    (refreshed.sources_observer prepared.observing rfl).2.trans (content?_running_self found)
  have final : (rested after.graph machine.graph.observer id (.host query)).content? id = some (.effect effect) := by
    rw [content?_rested_self self, ← body, ← (sane.effects id effect found).1]
  have renewed_iff {other : Nat} (apart : other ≠ id) :
      (running machine.graph id).Renewed after.graph other ↔ machine.graph.Renewed (rested after.graph machine.graph.observer id (.host query)) other := by
    simp only [Renewed, content?_running_of_ne apart, content?_rested_of_ne apart]
  have symmetric : (rested after.graph machine.graph.observer id (.host query)).Symmetric := symmetric_rested watched.lucid.coherent.symmetric
  have same : SameCells after.graph (rested after.graph machine.graph.observer id (.host query)) :=
    sameCells_of_ne self final fun _ => content?_rested_of_ne
  refine ⟨⟨?_, ?_, rfl, ?_, ?_, fun other => ?_, fun other rests kept => ?_, fun other rests kept => ?_, ?_⟩, ⟨value, ?_⟩, fun source => ?_⟩
  · simpa [rested, running] using refreshed.size
  · exact refreshed.depth.trans (depth_release ..)
  · exact watched.lucid.of_sameCells same symmetric (fun _ _ _ => sources_rested _) fun _ _ _ => rfl
  · rintro other single
    exact List.mem_singleton.1 single ▸ ⟨effect, found, awake⟩
  · by_cases here : other = id
    · exact .inl (here ▸ final.trans found.symm)
    · rw [← renewed_iff here, content?_rested_of_ne here, ← @content?_running_of_ne _ _ machine.graph id other here]
      exact refreshed.content other
  · have apart : other ≠ id := fun here => rests (List.mem_singleton.2 here)
    rw [sources_rested, refreshed.sources other (fun renewed => kept ((renewed_iff apart).1 renewed)) fun same => apart (Option.some.inj same).symm,
      sources_running, if_neg apart]
  · have apart : other ≠ id := fun here => rests (List.mem_singleton.2 here)
    exact watched.notes other apart fun renewed => kept ((renewed_iff apart).1 renewed)
  · obtain ⟨new, runs, once, renewed⟩ := watched.runs
    have apart {other : Nat} (member : other ∈ new) : other ≠ id := by
      rintro rfl
      exact not_renewed_of_effect (content?_running_self found) (renewed other member)
    refine ⟨new ++ [id], by rw [runs, List.append_assoc]; rfl, ?_, by simp, fun other member => ?_⟩
    · exact List.nodup_append.2 ⟨once, by simp, fun other member last single => List.mem_singleton.1 single ▸ apart member⟩
    · exact (List.mem_append.1 member).symm.imp_right fun inner => (renewed_iff (apart inner)).1 (renewed other inner)
  · exact watched.path.mono fun _ _ _ holds => (same.current? _).trans holds
  · rw [sources_rested, sources_of_evaluated watched.evaluated watched.path rfl, sources_running, if_pos rfl]
    simp

end

/-- The machine whose first waiting effect was taken. -/
theorem Sane.popped (sane : Sane machine) {id : Nat} {rest : List Nat} (waits : machine.graph.queue = id :: rest) :
    Sane { machine with graph := { machine.graph with queue := rest } } ∧ id ∉ rest ∧ machine.graph.IsLive id := by
  have once := sane.once
  rw [waits] at once
  refine ⟨⟨sane.lucid.of_vertices rfl, ⟨.nil, sane.idle.mem⟩, sane.alone, sane.effects, sane.spent, (List.nodup_cons.1 once).2, fun other member => sane.live other ?_⟩, (List.nodup_cons.1 once).1, sane.live id ?_⟩
  · exact waits ▸ List.mem_cons_of_mem _ member
  · exact waits ▸ List.mem_cons_self

theorem Stirred.of_popped {ran queue : List Nat} (stirred : Stirred ran { machine with graph := { machine.graph with queue } } after) :
    Stirred ran machine after := by
  obtain ⟨size, depth, observer, lucid, live, content, sources, notes, runs⟩ := stirred
  exact ⟨size, depth, observer, lucid, live, content, sources, notes, runs⟩

/-- What is so whenever an operation starts or ends. Outside of all batches no effect waits. -/
structure Tidy (machine : Machine Host.readers) : Prop extends Sane machine where
  watched : machine.AllWatched
  rested : machine.graph.depth = 0 → machine.graph.queue = []

/-- What running the effects that wait leaves behind. -/
structure Flushed (before after : Machine Host.readers) : Prop where
  still : 0 < before.graph.depth → after = before
  stirred : before.graph.depth = 0 → Stirred before.graph.queue before after
  tidy : after.Tidy

theorem Sane.length_queue_le (sane : Sane machine) : machine.graph.queue.length ≤ machine.graph.vertices.size := by
  have inside : machine.graph.queue ⊆ List.range machine.graph.vertices.size := by
    intro id member
    obtain ⟨effect, found, _⟩ := sane.live id member
    exact List.mem_range.2 (machine.graph.lt_size_of_content? found)
  simpa using (sane.once.subperm inside).length_le

/-- A change of what waits, of who observes, or of the open batches. -/
theorem AllWatched.of_vertices (watched : machine.AllWatched) {graph : Graph Query (Task Query)} (same : graph.vertices = machine.graph.vertices)
    (queue : machine.graph.queue ⊆ graph.queue) : AllWatched { machine with graph } := by
  obtain ⟨vertices, observer, pending, depth⟩ := graph
  cases same
  intro id query hosts
  exact (watched id query hosts).imp (queue ·) fun faithful => faithful.mono (fun _ _ _ holds => holds) rfl fun _ => Iff.rfl

theorem Sane.of_vertices (sane : Sane machine) {graph : Graph Query (Task Query)} (same : graph.vertices = machine.graph.vertices)
    (alone : graph.observer = none) (queue : graph.queue = machine.graph.queue) : Sane { machine with graph } := by
  obtain ⟨vertices, observer, pending, depth⟩ := graph
  cases same
  cases queue
  exact ⟨sane.lucid.of_vertices rfl, ⟨.nil, sane.idle.mem⟩, alone, sane.effects, sane.spent, sane.once, sane.live⟩

theorem Stirred.batched {ran : List Nat} (stirred : Stirred ran { machine with graph := machine.graph.enterBatch } after) :
    Stirred ran machine { after with graph := after.graph.leaveBatch false } := by
  rw [leaveBatch_false]
  obtain ⟨size, depth, observer, lucid, live, content, sources, notes, runs⟩ := stirred
  refine ⟨size, ?_, observer, lucid.of_vertices rfl, live, content, sources, notes, runs⟩
  show after.graph.depth - 1 = machine.graph.depth
  rw [depth]
  exact Nat.add_sub_cancel ..

/-- When what waited has run, all effects have right notes. -/
theorem Stirred.watched {ran : List Nat} (stirred : Stirred ran before after)
    (others : ∀ id query, id ∉ ran → Hosts before.graph id query → id ∈ after.graph.queue ∨ before.Faithful id query)
    (faithful : ∀ id query, id ∈ ran → Hosts before.graph id query → after.Faithful id query) : after.AllWatched := by
  intro id query hosts
  have old := stirred.hosts_iff.1 hosts
  by_cases member : id ∈ ran
  · exact .inr (faithful id query member old)
  · exact (others id query member old).imp_right (stirred.faithful old member)

/-! Writing. -/

section

variable {cell : Nat} {held : Value} (value : Value)

theorem lucid_write (lucid : machine.Lucid) (signal : machine.graph.content? cell = some (.signal held)) :
    Lucid { machine with graph := machine.graph.write cell value } := by
  have symmetric := lucid.coherent.symmetric
  have inside := machine.graph.lt_size_of_content? signal
  refine ⟨lucid.coherent.write inside, fun id computed found fresh => ?_, fun id idle => ?_⟩
  · obtain ⟨earlier, old, _, _, same⟩ := computed_write symmetric inside found
    cases same fresh
    have untold : ¬ (machine.graph.write cell value).Told id := by
      rintro ⟨stale, _⟩
      rw [isFresh_iff.2 ⟨computed, found, fresh⟩] at stale
      cases stale
    obtain ⟨sources, _, contents⟩ := untold_write symmetric untold
    have faithful := lucid.faithful id computed old fresh
    refine faithful.mono (fun source held member holds => ?_) rfl fun source => by rw [sources]
    rw [current?_congr (contents source ((faithful.2 source).2 (List.mem_map_of_mem member))), holds]
  · obtain ⟨computed, found, stale, waiting⟩ := idle
    have apart : id ≠ cell := by
      rintro rfl
      cases (content?_write_self symmetric inside).symm.trans found
    obtain same | expired : _ ∨ Expired machine.graph (machine.graph.write cell value) id := content?_write_of_ne symmetric apart
    · have notified := notified_write symmetric cell value
      obtain kept | ⟨_, gone⟩ := notified.sources id
      · rw [kept, sources_setSignal, lucid.bare id ⟨computed, same.symm.trans found, stale, waiting⟩]
      · exact gone
    · exact sources_write_of_expired symmetric signal expired

theorem sane_write (sane : Sane machine) (signal : machine.graph.content? cell = some (.signal held)) :
    Sane { machine with graph := machine.graph.write cell value } := by
  have symmetric := sane.lucid.coherent.symmetric
  have inside := machine.graph.lt_size_of_content? signal
  have notified := notified_write symmetric cell value
  refine ⟨lucid_write value sane.lucid signal, ⟨.nil, fun id => iff_of_false List.not_mem_nil ?_⟩, notified.observer.trans sane.alone,
    fun id effect found => sane.effects id effect ((effect_write symmetric signal value).1 found), fun id effect found gone => ?_,
    nodup_queue_notify sane.once, fun id member => ?_⟩
  · rintro ⟨computed, found, computing⟩
    obtain ⟨earlier, old, _, same, _⟩ := computed_write symmetric inside found
    exact List.not_mem_nil ((sane.idle.mem id).2 ⟨earlier, old, same.trans computing⟩)
  · have old := (effect_write symmetric signal value).1 found
    obtain kept | ⟨_, none⟩ := notified.sources id
    · rw [kept, sources_setSignal, sane.spent id effect old gone]
    · exact none
  · obtain old | ⟨_, live⟩ := feeds_of_mem_queue_write symmetric signal member
    · obtain ⟨effect, found, awake⟩ := sane.live id old
      exact ⟨effect, (effect_write symmetric signal value).2 found, awake⟩
    · obtain ⟨effect, found, awake⟩ := live
      exact ⟨effect, (effect_write symmetric signal value).2 found, awake⟩

theorem watched_write (sane : Sane machine) (watched : machine.AllWatched) (signal : machine.graph.content? cell = some (.signal held)) :
    AllWatched { machine with graph := machine.graph.write cell value } := by
  have symmetric := sane.lucid.coherent.symmetric
  rintro id query ⟨effect, found, awake, body⟩
  by_cases told : (machine.graph.write cell value).Told id
  · exact .inl (told.2 ⟨effect, found, awake⟩)
  · obtain ⟨sources, _, contents⟩ := untold_write symmetric told
    refine (watched id query ⟨effect, (effect_write symmetric signal value).1 found, awake, body⟩).imp (fun waits => ?_) fun faithful => ?_
    · exact (notified_write symmetric cell value).queue waits
    · refine faithful.mono (fun source held member holds => ?_) rfl fun source => by rw [sources]
      rw [current?_congr (contents source ((faithful.2 source).2 (List.mem_map_of_mem member))), holds]

end

end Machine

namespace Reader

open ReactiveMarkup.Graph ReactiveMarkup.Step ReactiveMarkup.Machine

variable {machine : Machine Host.readers} {depth : Nat} {calls : Calls Host.readers}

/-- Calls run the bodies of effects. -/
def Performs (depth : Nat) (calls : Calls Host.readers) : Prop :=
  ∀ query observer (machine : Machine Host.readers), Prepared True [] query machine → machine.graph.observer = some observer →
    Ensures ⟨True, depth < machine.graph.vertices.size + 2⟩ (calls.perform (.host query)) machine fun cleanup after =>
      cleanup = none ∧ ∃ value, Watched query observer machine value after

theorem performs_upTo (depth : Nat) : Performs depth (Calls.upTo Interpreter.readers depth) := by
  intro query observer machine prepared observed
  match depth with
  | 0 => exact Nat.succ_pos _
  | 1 => exact Nat.succ_lt_succ (Nat.succ_pos _)
  | depth + 2 =>
    show Ensures _ (discard (run (Calls.upTo Interpreter.readers depth) query) >>= fun _ => pure none) machine _
    simp only [ensures_bind, ensures_discard, ensures_pure]
    exact (ensures_run (callsWatch_upTo depth) prepared observed).relax id (fun (scarce : _ < _) => Nat.add_lt_add_right scarce 2)
      fun value after watched => ⟨trivial, value, watched⟩

theorem ensures_runEffect (performs : Performs depth calls) (sane : Sane machine) {id : Nat} {query : Query} (hosts : Hosts machine.graph id query) :
    Ensures ⟨True, depth < machine.graph.vertices.size + 2⟩ (runEffect calls id) machine fun _ after =>
      (Stirred [id] machine after ∧ after.Faithful id query) ∧ after.graph.queue = machine.graph.queue := by
  obtain ⟨effect, found, awake, body⟩ := hosts
  have effect?_machine := machine.graph.effect?_eq_some.2 found
  have effect?_released : (machine.graph.release id).effect? id = some effect :=
    (effect?_eq_some _).2 ((content?_release ..).trans found)
  simp only [runEffect, ensures_bind, ensures_graph?, effect?_machine, awake, Bool.false_eq_true, if_false, ensures_modifyGraph, runCleanup,
    effect?_released, Option.bind_some, (sane.effects id effect found).1, body, ensures_pure, ensures_after, ensures_observedBy, ensures_holding]
  have size : (running machine.graph id).vertices.size = machine.graph.vertices.size := by simp [running]
  have prepared : Prepared True [] query { machine with graph := running machine.graph id } := prepared_running sane found
  have performed := performs query id _ prepared rfl
  rw [size] at performed
  refine performed.mono ?_
  rintro _ after ⟨rfl, value, watched⟩
  have self : after.graph.content? id = some (.effect { effect with body := none }) :=
    (watched.evaluated.refreshed.sources_observer prepared.observing rfl).2.trans (content?_running_self found)
  have effect?_restored (observer : Option Nat) : ({ after.graph with observer }.modifyEffect id fun effect =>
      { effect with body := some (.host query) }).effect? id = some { effect with body := some (.host query) } := by
    refine (effect?_eq_some _).2 ?_
    rw [content?_modifyEffect_self _ _ (show { after.graph with observer }.content? id = _ from self)]
  simp only [settleCleanup, ensures_bind, ensures_graph?, effect?_restored, Option.map_some, Option.getD_some, awake, Bool.false_eq_true,
    if_false, ensures_modifyGraph]
  have stirred := @stirred_rested _ _ _ _ _ _ machine.held sane found awake body watched
  rw [← observer_release machine.graph id] at stirred
  exact ⟨stirred, watched.evaluated.refreshed.queue.trans (queue_release ..)⟩

/-- All effects that wait run, each of them once. -/
theorem ensures_drain (performs : Performs depth calls) (bound : Nat) (sane : Sane machine) :
    Ensures ⟨True, depth < machine.graph.vertices.size + 2 ∨ bound ≤ machine.graph.queue.length⟩ (drain calls bound) machine fun _ after =>
      (Stirred machine.graph.queue machine after ∧ after.graph.queue = []) ∧
        ∀ id query, id ∈ machine.graph.queue → Hosts machine.graph id query → after.Faithful id query := by
  induction bound generalizing machine with
  | zero => exact .inr (Nat.zero_le _)
  | succ bound ih =>
    cases waits : machine.graph.queue with
    | nil =>
      have popped : machine.graph.pop? = none := by rw [pop?, waits]
      simp only [drain, ensures_bind, ensures_graph?, popped, ensures_pure]
      exact ⟨⟨.refl sane.lucid, waits⟩, by simp⟩
    | cons id rest =>
      have popped : machine.graph.pop? = some (id, { machine.graph with queue := rest }) := by rw [pop?, waits]
      simp only [drain, ensures_bind, ensures_graph?, popped, ensures_modifyGraph]
      obtain ⟨saneRest, absent, effect, found, awake⟩ := sane.popped waits
      obtain ⟨query, body⟩ := (sane.effects id effect found).2 awake
      have hosts : Hosts machine.graph id query := ⟨effect, found, awake, body⟩
      refine (ensures_runEffect performs saneRest hosts).relax (fun may => may) .inl ?_
      rintro _ between ⟨⟨ran, faithful⟩, queue⟩
      refine (ih (ran.sane saneRest (queue ▸ List.Sublist.refl _))).relax (fun may => may) (fun (scarce : _ ∨ _) => ?_) ?_
      · rw [ran.size, queue] at scarce
        exact scarce.imp_right Nat.succ_le_succ
      rintro _ after ⟨⟨rest, empty⟩, faithfulRest⟩
      rw [queue] at rest faithfulRest
      have both := ran.trans rest (by simpa using absent)
      refine ⟨⟨both.of_popped, empty⟩, fun other asked member hostsOther => ?_⟩
      obtain rfl | member := List.mem_cons.1 member
      · obtain ⟨content, again, _, same⟩ := hostsOther
        cases found.symm.trans again
        cases body.symm.trans same
        exact rest.faithful (ran.hosts_iff.2 hosts) absent faithful
      · exact faithfulRest other asked member (ran.hosts_iff.2 hostsOther)

/-- Calls run the effects that wait. -/
def Flushes (depth : Nat) (calls : Calls Host.readers) : Prop :=
  ∀ machine : Machine Host.readers, Sane machine → machine.AllWatched →
    Ensures ⟨True, depth < machine.graph.vertices.size + 3⟩ calls.flush machine fun _ after => Flushed machine after

theorem ensures_flush (performs : Performs depth calls) (bound : Nat) (sane : Sane machine) (watched : machine.AllWatched) :
    Ensures ⟨True, depth < machine.graph.vertices.size + 2 ∨ bound ≤ machine.graph.queue.length⟩ (flush calls bound) machine
      fun _ after => Flushed machine after := by
  simp only [flush, ensures_bind, ensures_graph?]
  split
  next inBatch => exact ⟨fun _ => rfl, fun closed => absurd closed (by omega), sane, watched, fun closed => absurd closed (by omega)⟩
  next outside =>
    rw [ensures_withBatch]
    have entered : Sane { machine with graph := machine.graph.enterBatch } := sane.of_vertices rfl sane.alone rfl
    refine (ensures_drain performs bound entered).mono ?_
    rintro _ after ⟨⟨stirred, empty⟩, faithful⟩
    have batched : Stirred machine.graph.queue machine { after with graph := after.graph.leaveBatch false } := Stirred.batched stirred
    have done : (after.graph.leaveBatch false).queue = [] := by rw [leaveBatch_false, ← empty]
    refine ⟨fun inBatch => absurd inBatch outside, fun _ => batched, batched.sane sane (done ▸ List.nil_sublist _),
      batched.watched (fun id query rests hosts => .inr ((watched id query hosts).resolve_left rests)) fun id query member hosts => ?_, fun _ => done⟩
    rw [leaveBatch_false]
    exact (faithful id query member hosts).mono (fun _ _ _ holds => holds) rfl fun _ => Iff.rfl

theorem flushes_upTo (depth : Nat) : Flushes depth (Calls.upTo Interpreter.readers depth) := by
  intro machine sane watched
  cases depth with
  | zero => exact Nat.succ_pos _
  | succ depth =>
    refine (ensures_flush (performs_upTo depth) depth sane watched).relax id (fun (scarce : _ ∨ _) => ?_) fun _ _ flushed => flushed
    show depth + 1 < machine.graph.vertices.size + 3
    have waiting := sane.length_queue_le
    omega

end Reader

end ReactiveMarkup
