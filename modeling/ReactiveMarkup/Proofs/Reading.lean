import ReactiveMarkup.Interpreter
import ReactiveMarkup.Proofs.Query

/-! Running a query on the machine. It leaves a coherent graph in which the query reads the
value that came out, and it touches nothing but computed values that were out of date. A query
that ends does not break off. -/

namespace ReactiveMarkup

variable {Code Body : Type}

/-- A query comes to its end without asking for a busy cell or for what is not a cell. -/
inductive Query.Ends (meaning : Code → Option Query) (graph : Graph Code Body) : List Nat → Query → Prop where
  | answer (busy : List Nat) (value : Value) : Ends meaning graph busy (.answer value)
  | signal {busy : List Nat} {cell : Nat} {next : Value → Query} {value : Value}
      (found : graph.content? cell = some (.signal value)) (rest : Ends meaning graph busy (next value)) :
      Ends meaning graph busy (.read cell next)
  | computed {busy : List Nat} {cell : Nat} {next : Value → Query} {computed : Computed Code} {query : Query}
      (found : graph.content? cell = some (.computed computed)) (means : meaning computed.code = some query)
      (apart : cell ∉ busy) (inner : Ends meaning graph (cell :: busy) query)
      (rest : ∀ value, query.Returns meaning graph value → Ends meaning graph busy (next value)) :
      Ends meaning graph busy (.read cell next)

theorem Query.Ends.transfer {meaning : Code → Option Query} {graph other : Graph Code Body} {busy : List Nat}
    {query : Query} (ends : query.Ends meaning graph busy) (forth : graph.Extends other) (back : other.Extends graph) :
    query.Ends meaning other busy := by
  induction ends with
  | answer busy value => exact .answer busy value
  | signal found _ ih => exact .signal (forth.signals found) ih
  | computed found means apart _ _ inner rest =>
    obtain ⟨later, new, code⟩ := forth.computeds found
    exact .computed new (code ▸ means) apart inner fun value returned => rest value (returned.transfer back)

/-- A query that starts with a read may stop after it. -/
theorem Query.Ends.first {meaning : Code → Option Query} {graph : Graph Code Body} {busy : List Nat} {cell : Nat} {next : Value → Query}
    (ends : (Query.read cell next).Ends meaning graph busy) : (Query.read cell .answer).Ends meaning graph busy := by
  cases ends with
  | signal found _ => exact .signal found (.answer _ _)
  | computed found means apart inner _ => exact .computed found means apart inner fun value _ => .answer _ value

/-- A query that comes to its end does so after its first read. -/
theorem Query.Ends.next {meaning : Code → Option Query} {graph : Graph Code Body} {busy : List Nat} {cell : Nat} {next : Value → Query}
    {value : Value} (ends : (Query.read cell next).Ends meaning graph busy) (returned : (Query.read cell .answer).Returns meaning graph value) :
    (next value).Ends meaning graph busy := by
  cases ends with
  | signal found rest =>
    cases returned with
    | signal again last =>
      rw [found] at again
      cases again
      cases last
      exact rest
    | computed other _ _ _ =>
      rw [found] at other
      cases other
  | computed found means _ _ rest =>
    cases returned with
    | signal other _ =>
      rw [found] at other
      cases other
    | computed again meansToo returned last =>
      rw [found] at again
      cases again
      rw [means] at meansToo
      cases meansToo
      cases last
      exact rest _ returned

/-- Whether a query that returns asks for a cell, itself or by way of computed values. -/
inductive Query.Needs (meaning : Code → Option Query) (graph : Graph Code Body) (cell : Nat) : Query → Prop where
  | here (next : Value → Query) : Needs meaning graph cell (.read cell next)
  | inner {other : Nat} {next : Value → Query} {computed : Computed Code} {query : Query} (found : graph.content? other = some (.computed computed))
      (means : meaning computed.code = some query) (needs : Needs meaning graph cell query) : Needs meaning graph cell (.read other next)
  | rest {other : Nat} {next : Value → Query} {value : Value} (returned : (Query.read other .answer).Returns meaning graph value)
      (needs : Needs meaning graph cell (next value)) : Needs meaning graph cell (.read other next)

theorem Query.Needs.trans {meaning : Code → Option Query} {graph : Graph Code Body} {cell other : Nat} {query inner : Query} {computed : Computed Code}
    (needs : query.Needs meaning graph cell) (found : graph.content? cell = some (.computed computed)) (means : meaning computed.code = some inner)
    (needsInner : inner.Needs meaning graph other) : query.Needs meaning graph other := by
  induction needs with
  | here next => exact .inner found means needsInner
  | inner foundMiddle meansMiddle _ ih => exact .inner foundMiddle meansMiddle ih
  | rest returned _ ih => exact .rest returned ih

/-- A computed value that a query needs does not need itself if the query returns. -/
theorem Query.Returns.not_needs {meaning : Code → Option Query} {graph : Graph Code Body} {query inner : Query} {value : Value} {cell : Nat}
    {computed : Computed Code} (returned : query.Returns meaning graph value) (needs : query.Needs meaning graph cell)
    (found : graph.content? cell = some (.computed computed)) (means : meaning computed.code = some inner) : ¬ inner.Needs meaning graph cell := by
  induction returned with
  | answer value => cases needs
  | signal foundSignal _ ih =>
    cases needs with
    | here => cases found.symm.trans foundSignal
    | inner foundOther _ _ => cases foundOther.symm.trans foundSignal
    | rest single needs =>
      cases single.unique (.signal foundSignal (.answer _))
      exact ih needs
  | computed foundOther meansOther returned _ ihInner ihRest =>
    cases needs with
    | here =>
      cases found.symm.trans foundOther
      cases means.symm.trans meansOther
      exact fun again => ihInner again again
    | inner foundToo meansToo needs =>
      cases foundToo.symm.trans foundOther
      cases meansToo.symm.trans meansOther
      exact ihInner needs
    | rest single needs =>
      cases single.unique (.computed foundOther meansOther returned (.answer _))
      exact ihRest needs

/-- A query that returns comes to its end. -/
theorem Query.Returns.ends {meaning : Code → Option Query} {graph : Graph Code Body} {query : Query} {value : Value} {busy : List Nat}
    (returned : query.Returns meaning graph value) (spared : ∀ cell ∈ busy, ¬ query.Needs meaning graph cell) : query.Ends meaning graph busy := by
  induction returned generalizing busy with
  | answer value => exact .answer _ value
  | signal found _ ih =>
    exact .signal found (ih fun cell member needs => spared cell member (.rest (.signal found (.answer _)) needs))
  | @computed cell next value result computed query found means returned _ ihInner ihRest =>
    have single : (Query.read cell .answer).Returns meaning graph value := .computed found means returned (.answer _)
    refine .computed found means (fun member => spared cell member (.here _)) (ihInner fun other member => ?_) fun held again => ?_
    · obtain rfl | member := List.mem_cons.1 member
      · exact (Query.Returns.computed found means returned (.answer _)).not_needs (.here Query.answer) found means
      · exact fun needs => spared other member (.inner found means needs)
    · cases again.unique returned
      exact ihRest fun other member needs => spared other member (.rest single needs)

namespace Graph

variable {meaning : Code → Option Query} {before after : Graph Code Body}

theorem Refreshed.computed_before (refreshed : Refreshed before after) {id : Nat} {computed : Computed Code}
    (found : after.content? id = some (.computed computed)) :
    ∃ earlier, before.content? id = some (.computed earlier) ∧ earlier.code = computed.code ∧
      earlier.computing = computed.computing := by
  rcases refreshed.content id with same | ⟨earlier, _, old, _, _, new⟩
  · exact ⟨computed, same ▸ found, rfl, rfl⟩
  · rw [new] at found
    cases found
    exact ⟨earlier, old, rfl, rfl⟩

/-- Reading neither makes nor unmakes cells. -/
theorem Refreshed.extends (refreshed : Refreshed before after) : before.Extends after ∧ after.Extends before := by
  refine ⟨⟨fun {id _} found => ?_, fun {id computed} found => ?_⟩, ⟨fun {id _} found => ?_, fun found => ?_⟩⟩
  · rcases refreshed.content id with same | ⟨_, _, other, _⟩
    · rw [same, found]
    · rw [found] at other
      cases other
  · rcases refreshed.content id with same | ⟨_, _, other, _, _, new⟩
    · exact ⟨computed, same.trans found, rfl⟩
    · rw [found] at other
      cases other
      exact ⟨_, new, rfl⟩
  · rcases refreshed.content id with same | ⟨_, _, _, _, _, new⟩
    · exact same ▸ found
    · rw [new] at found
      cases found
  · obtain ⟨earlier, old, code, _⟩ := refreshed.computed_before found
    exact ⟨earlier, old, code⟩

/-- Only busy cells are being computed. -/
def BusyWithin (graph : Graph Code Body) (busy : List Nat) : Prop :=
  ∀ id computed, graph.content? id = some (.computed computed) → computed.computing = true → id ∈ busy

theorem Refreshed.busyWithin (refreshed : Refreshed before after) {busy : List Nat}
    (within : before.BusyWithin busy) : after.BusyWithin busy := by
  intro id computed found computing
  obtain ⟨earlier, old, _, same⟩ := refreshed.computed_before found
  exact within id earlier old (same.trans computing)

theorem Refreshed.track (graph : Graph Code Body) (source : Nat) : Refreshed graph (graph.track source) :=
  ⟨by simp, by simp, by simp, by simp, fun id => .inl (by simp), fun _ _ apart => graph.sources_track_of_ne apart,
    fun _ _ _ inside => (mem_sources_track graph).2 (.inl inside)⟩

/-- A computed value comes to hold what its code reads now. -/
theorem Coherent.renew (coherent : before.Coherent meaning) {id : Nat} {computed later : Computed Code}
    {query : Query} {value : Value} (found : before.content? id = some (.computed computed))
    (stale : computed.stale = true) (means : meaning computed.code = some query)
    (reads : query.Reads before (· ∈ before.sources id) value)
    (new : after.content? id = some (.computed later)) (code : later.code = computed.code)
    (holds : later.value = some value)
    (content : ∀ other, other ≠ id → after.content? other = before.content? other)
    (subscribers : ∀ other, after.subscribers other = before.subscribers other)
    (sources : ∀ other, after.sources other = before.sources other) : after.Coherent meaning := by
  have current (cell : Nat) (held : Value) (now : before.current? cell = some held) :
      after.current? cell = some held := by
    by_cases here : cell = id
    · subst here
      simp [Graph.current?, found, stale] at now
    · rw [current?_congr (content cell here), now]
  have transfer {query : Query} {value : Value} (returned : query.Returns meaning before value) :
      query.Returns meaning after value := by
    refine returned.transfer ⟨fun {cell _} foundHeld => ?_, fun {cell other} foundOther => ?_⟩
    · have apart : cell ≠ id := by
        rintro rfl
        rw [found] at foundHeld
        cases foundHeld
      rw [content cell apart, foundHeld]
    · by_cases here : cell = id
      · subst here
        rw [found] at foundOther
        cases foundOther
        exact ⟨later, new, code⟩
      · exact ⟨other, (content cell here).trans foundOther, rfl⟩
  refine ⟨symmetric_of_same coherent.symmetric subscribers sources, fun other found' => ?_, ?_⟩
  · intro foundOther
    by_cases here : other = id
    · subst here
      rw [new] at foundOther
      cases foundOther
      exact ⟨query, code ▸ means⟩
    · exact coherent.meant other found' ((content other here).symm.trans foundOther)
  · intro other found' asked foundOther upToDate meansAsked
    by_cases here : other = id
    · subst here
      rw [new] at foundOther
      cases foundOther
      rw [code, means] at meansAsked
      cases meansAsked
      refine ⟨value, holds, reads.mono ?_ fun cell _ => current cell, transfer (coherent.returns_of_reads reads)⟩
      intro cell member
      rw [sources]
      exact member
    · obtain ⟨held, stored, readsHeld, returned⟩ :=
        coherent.fresh other found' asked ((content other here).symm.trans foundOther) upToDate meansAsked
      refine ⟨held, stored, readsHeld.mono ?_ fun cell _ => current cell, transfer returned⟩
      intro cell member
      rw [sources]
      exact member

end Graph

namespace Machine

open ReactiveMarkup.Step

variable {host : Host} {breaks : Breaks} {meaning : host.Code → Option Query}

/-- What running a query amounts to. -/
structure Evaluated (meaning : host.Code → Option Query) (query : Query) (before : Machine host) (value : Value)
    (after : Machine host) : Prop where
  frame : after = { before with graph := after.graph }
  coherent : after.graph.Coherent meaning
  refreshed : before.graph.Refreshed after.graph
  reads : query.Reads after.graph
    (fun cell => ∀ observer, before.graph.observer = some observer → cell ∈ after.graph.sources observer) value
  /-- The observer has no new sources but the cells that the query reads. -/
  only : ∀ cells, query.Reads after.graph cells value → ∀ observer, before.graph.observer = some observer →
    ∀ source ∈ after.graph.sources observer, source ∈ before.graph.sources observer ∨ cells source

/-- Running a query is no matter for the world. -/
theorem Evaluated.withWorld {query : Query} {before after : Machine host} {value : Value} (evaluated : Evaluated meaning query before value after)
    (world : host.World) : Evaluated meaning query { before with world } value { after with world } := by
  refine ⟨?_, evaluated.coherent, evaluated.refreshed, evaluated.reads, evaluated.only⟩
  rw [evaluated.frame]

/-- Where a query may be run. -/
structure Ready (breaks : Breaks) (meaning : host.Code → Option Query) (query : Query) (machine : Machine host) : Prop where
  coherent : machine.graph.Coherent meaning
  observing : machine.graph.Observing
  ends : breaks.panics ∨ ∃ busy, machine.graph.BusyWithin busy ∧ query.Ends meaning machine.graph busy

theorem Evaluated.ends_next {cell : Nat} {next : Value → Query} {value : Value} {before after : Machine host} {busy : List Nat}
    (evaluated : Evaluated meaning (.read cell .answer) before value after) (ends : (Query.read cell next).Ends meaning before.graph busy) :
    (next value).Ends meaning after.graph busy := by
  obtain ⟨forth, back⟩ := evaluated.refreshed.extends
  exact (ends.next ((evaluated.coherent.returns_of_reads evaluated.reads).transfer back)).transfer forth back

private theorem mem_sources_of_read {graph after : Graph host.Code (Task host.Code)} {cell observer : Nat} {value : Value}
    (sources : after.sources observer = (graph.track cell).sources observer) {cells : Nat → Prop}
    (reads : (Query.read cell .answer).Reads after cells value) :
    ∀ source ∈ after.sources observer, source ∈ graph.sources observer ∨ cells source := by
  intro source member
  rw [sources, Graph.mem_sources_track] at member
  cases reads with
  | read inside _ _ => exact member.imp_right fun ⟨_, same, _⟩ => same ▸ inside

/-- Calls of code that means a query run it. -/
def Answers (breaks : Breaks) (meaning : host.Code → Option Query) (calls : Calls host) : Prop :=
  ∀ code query machine, meaning code = some query → Ready breaks meaning query machine →
    Ensures breaks (calls.call code []) machine fun value after => Evaluated meaning query machine value after

/-- A cell that holds something is read without running any code. -/
theorem evaluated_track {cell : Nat} {value : Value} {machine : Machine host} (coherent : machine.graph.Coherent meaning)
    (observing : machine.graph.Observing) (holds : machine.graph.current? cell = some value)
    (inside : cell < machine.graph.vertices.size) :
    Evaluated meaning (.read cell .answer) machine value { machine with graph := machine.graph.track cell } := by
  refine ⟨rfl, coherent.track inside observing, .track _ _, .read ?_ ?_ (.answer value),
    fun _ reads _ _ => mem_sources_of_read rfl reads⟩
  · intro observer observed
    exact (Graph.mem_sources_track _).2 (.inr ⟨observed, rfl, (observing observer observed).1⟩)
  · exact (Graph.current?_congr (Graph.content?_track ..)).trans holds

theorem ensures_readSignal {cell : Nat} {value : Value} {machine : Machine host}
    (coherent : machine.graph.Coherent meaning) (observing : machine.graph.Observing)
    (found : machine.graph.content? cell = some (.signal value)) :
    Ensures breaks (readSignal cell) machine (Evaluated meaning (.read cell .answer) machine) := by
  have foundAfter : (machine.graph.track cell).content? cell = some (.signal value) := by simpa using found
  simp only [readSignal, peek, ensures_bind, ensures_modifyGraph, ensures_graph?, ensures_pure, Graph.value?,
    foundAfter, Option.getD_some]
  exact evaluated_track coherent observing (by simp [Graph.current?, found]) (machine.graph.lt_size_of_content? found)

/-- The graph while a computed value runs its code. -/
def computing (graph : Graph host.Code (Task host.Code)) (cell : Nat) : Graph host.Code (Task host.Code) :=
  { (graph.track cell).modifyComputed cell fun computed => { computed with computing := true } with
    observer := some cell }

/-- The graph after a computed value has run its code. -/
def settled (graph : Graph host.Code (Task host.Code)) (observer : Option Nat) (cell : Nat) (value : Value) :
    Graph host.Code (Task host.Code) :=
  ({ graph with observer }.modifyComputed cell fun computed => { computed with computing := false }).modifyComputed
    cell fun computed => { computed with value := some value, stale := false }

theorem content?_computing_of_ne (graph : Graph host.Code (Task host.Code)) {cell other : Nat}
    (apart : other ≠ cell) : (computing graph cell).content? other = graph.content? other := by
  show ((graph.track cell).modifyComputed cell _).content? other = _
  rw [Graph.content?_modifyComputed_of_ne _ _ apart, Graph.content?_track]

theorem content?_computing_self {graph : Graph host.Code (Task host.Code)} {cell : Nat}
    {computed : Computed host.Code} (found : graph.content? cell = some (.computed computed)) :
    (computing graph cell).content? cell = some (.computed { computed with computing := true }) :=
  Graph.content?_modifyComputed_self _ _ (by simpa using found)

theorem content?_settled_of_ne (graph : Graph host.Code (Task host.Code)) (observer : Option Nat)
    (value : Value) {cell other : Nat} (apart : other ≠ cell) :
    (settled graph observer cell value).content? other = graph.content? other := by
  rw [settled, Graph.content?_modifyComputed_of_ne _ _ apart, Graph.content?_modifyComputed_of_ne _ _ apart]
  rfl

theorem content?_settled_self {graph : Graph host.Code (Task host.Code)} (observer : Option Nat)
    (value : Value) {cell : Nat} {computed : Computed host.Code}
    (found : graph.content? cell = some (.computed computed)) :
    (settled graph observer cell value).content? cell =
      some (.computed { computed with value := some value, stale := false, computing := false }) :=
  Graph.content?_modifyComputed_self _ _ (Graph.content?_modifyComputed_self _ _ found)

theorem sources_settled (graph : Graph host.Code (Task host.Code)) (observer : Option Nat) (value : Value)
    (cell other : Nat) : (settled graph observer cell value).sources other = graph.sources other := by
  simp only [settled, Graph.sources_modifyComputed]
  rfl

theorem sources_computing (graph : Graph host.Code (Task host.Code)) (cell other : Nat) :
    (computing graph cell).sources other = (graph.track cell).sources other := by
  show ((graph.track cell).modifyComputed cell _).sources other = _
  rw [Graph.sources_modifyComputed]

theorem extends_computing {graph : Graph host.Code (Task host.Code)} {cell : Nat}
    {computed : Computed host.Code} (found : graph.content? cell = some (.computed computed)) :
    graph.Extends (computing graph cell) ∧ (computing graph cell).Extends graph := by
  have self := content?_computing_self found
  refine ⟨⟨fun {id _} old => ?_, fun {id other} old => ?_⟩, ⟨fun {id _} new => ?_, fun {id other} new => ?_⟩⟩
  all_goals by_cases here : id = cell
  · rw [here, found] at old
    cases old
  · exact (content?_computing_of_ne _ here).trans old
  · rw [here, found] at old
    cases old
    exact ⟨{ computed with computing := true }, by rw [here, self], rfl⟩
  · exact ⟨other, (content?_computing_of_ne _ here).trans old, rfl⟩
  · rw [here, self] at new
    cases new
  · exact (content?_computing_of_ne _ here).symm.trans new
  · rw [here, self] at new
    cases new
    exact ⟨computed, by rw [here, found], rfl⟩
  · exact ⟨other, (content?_computing_of_ne _ here).symm.trans new, rfl⟩

private theorem coherent_computing {graph : Graph host.Code (Task host.Code)} {cell : Nat}
    {computed : Computed host.Code} (coherent : graph.Coherent meaning) (observing : graph.Observing)
    (found : graph.content? cell = some (.computed computed)) (stale : computed.stale = true) :
    (computing graph cell).Coherent meaning := by
  have tracked := coherent.track (graph.lt_size_of_content? found) observing
  refine coherent.of_kept ?_ (extends_computing found).1 ?_ ?_ ?_
  · refine Graph.symmetric_of_same tracked.symmetric (fun id => ?_) (fun id => sources_computing graph cell id)
    show ((graph.track cell).modifyComputed cell _).subscribers id = _
    rw [Graph.subscribers_modifyComputed]
  · intro id other new
    obtain ⟨earlier, old, code⟩ := (extends_computing found).2.computeds new
    exact code ▸ coherent.meant id earlier old
  · intro id other upToDate
    by_cases here : id = cell
    · subst here
      rw [content?_computing_self found, found]
      constructor <;>
      · intro same
        cases same
        rw [stale] at upToDate
        cases upToDate
    · rw [content?_computing_of_ne _ here]
  · intro id _ source member
    rw [sources_computing]
    exact (Graph.mem_sources_track _).2 (.inl member)

/-- A computed value may run its code where it is asked for while out of date. -/
theorem ready_computing {cell : Nat} {computed : Computed host.Code} {query : Query} {machine : Machine host}
    (ready : Ready breaks meaning (.read cell .answer) machine)
    (found : machine.graph.content? cell = some (.computed computed)) (stale : computed.stale = true)
    (means : meaning computed.code = some query) :
    Ready breaks meaning query { machine with graph := computing machine.graph cell } := by
  refine ⟨coherent_computing ready.coherent ready.observing found stale, ?_, ?_⟩
  · intro observer observed
    cases observed
    refine ⟨by simpa [computing] using machine.graph.lt_size_of_content? found, ?_⟩
    rintro ⟨other, foundOther, _, waiting⟩
    rw [content?_computing_self found] at foundOther
    cases foundOther
    cases waiting
  · refine ready.ends.imp_right ?_
    rintro ⟨busy, within, ends⟩
    refine ⟨cell :: busy, ?_, ?_⟩
    · intro id other foundOther running
      by_cases here : id = cell
      · exact here ▸ List.mem_cons_self ..
      · rw [content?_computing_of_ne _ here] at foundOther
        exact List.mem_cons_of_mem _ (within id other foundOther running)
    · cases ends with
      | signal other _ =>
        rw [found] at other
        cases other
      | computed again meansToo _ inner _ =>
        rw [found] at again
        cases again
        rw [means] at meansToo
        cases meansToo
        exact inner.transfer (extends_computing found).1 (extends_computing found).2

/-- What is brought up to date while a computed value runs its code stays so. -/
theorem renewed_settled {graph after : Graph host.Code (Task host.Code)} {cell id : Nat} {observer : Option Nat} {value : Value}
    (apart : id ≠ cell) (renewed : (computing graph cell).Renewed after id) : graph.Renewed (settled after observer cell value) id := by
  obtain ⟨other, held, old, rest, idle, new⟩ := renewed
  exact ⟨other, held, (content?_computing_of_ne _ apart).symm.trans old, rest, idle, (content?_settled_of_ne _ _ _ apart).trans new⟩

/-- What was done to a computed value that has run its code. -/
theorem evaluated_settled {cell : Nat} {computed : Computed host.Code} {query : Query} {value : Value}
    {machine after : Machine host} (ready : Ready breaks meaning (.read cell .answer) machine)
    (found : machine.graph.content? cell = some (.computed computed)) (stale : computed.stale = true)
    (waiting : computed.computing = false) (means : meaning computed.code = some query)
    (evaluated : Evaluated meaning query { machine with graph := computing machine.graph cell } value after) :
    Evaluated meaning (.read cell .answer) machine value
      { after with graph := settled after.graph machine.graph.observer cell value } := by
  have self : after.graph.content? cell = some (.computed { computed with computing := true }) := by
    rw [(evaluated.refreshed.sources_observer (ready_computing ready found stale means).observing rfl).2]
    exact content?_computing_self found
  have final := content?_settled_self machine.graph.observer value self
  have renewed : machine.graph.Renewed (settled after.graph machine.graph.observer cell value) cell := by
    refine ⟨computed, value, found, stale, waiting, ?_⟩
    rw [final, ← waiting]
  have renewed_inner {id : Nat} (apart : id ≠ cell) (inner : (computing machine.graph cell).Renewed after.graph id) :
      machine.graph.Renewed (settled after.graph machine.graph.observer cell value) id := renewed_settled apart inner
  have sources {id : Nat} (kept : ¬ machine.graph.Renewed (settled after.graph machine.graph.observer cell value) id) :
      (settled after.graph machine.graph.observer cell value).sources id = (machine.graph.track cell).sources id := by
    have apart : id ≠ cell := fun here => kept (here ▸ renewed)
    rw [sources_settled, evaluated.refreshed.sources id (fun inner => kept (renewed_inner apart inner)),
      sources_computing]
    exact fun same => apart (Option.some.inj same).symm
  have observer_kept {id : Nat} (observed : machine.graph.observer = some id) :
      ¬ machine.graph.Renewed (settled after.graph machine.graph.observer cell value) id := by
    rintro ⟨other, _, old, staleOther, idle, _⟩
    exact (ready.observing id observed).2 ⟨other, old, staleOther, idle⟩
  refine ⟨?_, ?_, ⟨?_, ?_, ?_, rfl, ?_, ?_, ?_⟩, .read ?_ ?_ (.answer value),
    fun _ reads _ observed => mem_sources_of_read (sources (observer_kept observed)) reads⟩
  · rw [evaluated.frame]
  · refine evaluated.coherent.renew self stale means (evaluated.reads.mono (fun source member => member cell rfl)
      fun _ _ _ => id) final rfl rfl (fun other apart => content?_settled_of_ne _ _ _ apart) (fun other => ?_)
      (fun other => sources_settled ..)
    simp only [settled, Graph.subscribers_modifyComputed]
    rfl
  · have size := evaluated.refreshed.size
    simpa [settled, computing] using size
  · exact evaluated.refreshed.queue.trans (Graph.queue_track ..)
  · exact evaluated.refreshed.depth.trans (Graph.depth_track ..)
  · intro id
    by_cases here : id = cell
    · exact .inr (here ▸ renewed)
    · refine (evaluated.refreshed.content id).imp (fun same => ?_) (renewed_inner here)
      rw [content?_settled_of_ne _ _ _ here, same, content?_computing_of_ne _ here]
  · intro id kept apart
    rw [sources kept, Graph.sources_track_of_ne _ apart]
  · intro id observed source member
    rw [sources (observer_kept observed)]
    exact (Graph.mem_sources_track _).2 (.inl member)
  · intro observer observed
    rw [sources (observer_kept observed)]
    exact (Graph.mem_sources_track _).2 (.inr ⟨observed, rfl, (ready.observing observer observed).1⟩)
  · simp [Graph.current?, final]

theorem ensures_readComputed {calls : Calls host} (answers : Answers breaks meaning calls) {cell : Nat}
    {computed : Computed host.Code} {machine : Machine host} (ready : Ready breaks meaning (.read cell .answer) machine)
    (found : machine.graph.content? cell = some (.computed computed)) :
    Ensures breaks (readComputed calls cell) machine (Evaluated meaning (.read cell .answer) machine) := by
  have inside := machine.graph.lt_size_of_content? found
  have foundAfter : (machine.graph.track cell).content? cell = some (.computed computed) := by simpa using found
  obtain ⟨query, means⟩ := ready.coherent.meant cell computed found
  simp only [readComputed, ensures_bind, ensures_modifyGraph, ensures_graph?, Graph.computed?, foundAfter]
  by_cases stale : computed.stale = true
  · simp only [stale, Bool.not_true, Bool.false_eq_true, if_false]
    by_cases waiting : computed.computing = false
    · simp only [waiting, Bool.false_eq_true, if_false, ensures_bind, ensures_modifyGraph, ensures_after,
        ensures_observedBy, ensures_pure]
      refine (answers computed.code query _ means (ready_computing ready found stale means)).mono ?_
      intro value after evaluated
      have result := evaluated_settled ready found stale waiting means evaluated
      rw [← Graph.observer_track machine.graph cell] at result
      exact result
    · have running : computed.computing = true := by simpa using waiting
      simp only [running, if_true, ensures_bind, ensures_panic]
      rcases ready.ends with allowed | ⟨busy, within, ends⟩
      · exact allowed
      · cases ends with
        | signal other _ =>
          rw [found] at other
          cases other
        | computed again _ apart _ _ =>
          rw [found] at again
          cases again
          exact absurd (within cell computed found running) apart
  · have upToDate : computed.stale = false := by simpa using stale
    obtain ⟨value, stored, _, _⟩ := ready.coherent.fresh cell computed query found upToDate means
    simp only [upToDate, Bool.not_false, if_true, ensures_pure, stored, Option.getD_some]
    exact evaluated_track ready.coherent ready.observing (by simp [Graph.current?, found, upToDate, stored]) inside

theorem ensures_readCell {calls : Calls host} (answers : Answers breaks meaning calls) {cell : Nat}
    {machine : Machine host} (ready : Ready breaks meaning (.read cell .answer) machine) :
    Ensures breaks (readCell calls cell) machine (Evaluated meaning (.read cell .answer) machine) := by
  simp only [readCell, ensures_bind, ensures_graph?]
  split
  next value found => exact ensures_readSignal ready.coherent ready.observing found
  next computed found => exact ensures_readComputed answers ready found
  next noSignal noComputed =>
    rcases ready.ends with allowed | ⟨busy, _, ends⟩
    · exact allowed
    · cases ends with
      | signal found _ => exact absurd found (noSignal _)
      | computed found _ _ _ _ => exact absurd found (noComputed _)

/-- A query may go on after its first read. -/
private theorem ready_next {cell : Nat} {next : Value → Query} {value : Value} {machine between : Machine host}
    (ready : Ready breaks meaning (.read cell next) machine)
    (evaluated : Evaluated meaning (.read cell .answer) machine value between) :
    Ready breaks meaning (next value) between := by
  refine ⟨evaluated.coherent, evaluated.refreshed.observing ready.observing, ready.ends.imp_right ?_⟩
  rintro ⟨busy, within, ends⟩
  exact ⟨busy, evaluated.refreshed.busyWithin within, evaluated.ends_next ends⟩

/-- A query that starts with a read may ask for the cell. -/
private theorem Ready.first {cell : Nat} {next : Value → Query} {machine : Machine host}
    (ready : Ready breaks meaning (.read cell next) machine) : Ready breaks meaning (.read cell .answer) machine :=
  ⟨ready.coherent, ready.observing, ready.ends.imp_right fun ⟨busy, within, ends⟩ => ⟨busy, within, ends.first⟩⟩

/-- A query goes on after its first read. -/
theorem Evaluated.read {cell : Nat} {next : Value → Query} {value result : Value} {before between after : Machine host}
    (first : Evaluated meaning (.read cell .answer) before value between) (second : Evaluated meaning (next value) between result after) :
    Evaluated meaning (.read cell next) before result after := by
  refine ⟨?_, second.coherent, first.refreshed.trans second.refreshed, ?_, ?_⟩
  · rw [second.frame, first.frame]
  · cases first.reads with
    | read inside holds last =>
      cases last
      refine .read (fun observer observed => ?_) (second.refreshed.current? holds) ?_
      · exact second.refreshed.observed observer (first.refreshed.observer ▸ observed) (inside observer observed)
      · refine second.reads.mono (fun source member observer observed => ?_) fun _ _ _ => id
        exact member observer (first.refreshed.observer ▸ observed)
  · intro cells reads observer observed source member
    cases first.reads with
    | read _ holds last =>
      cases last
      cases reads with
      | read inside holdsAfter rest =>
        rw [second.refreshed.current? holds] at holdsAfter
        cases holdsAfter
        refine (second.only cells rest observer (first.refreshed.observer ▸ observed) source member).elim ?_ .inr
        exact first.only cells (.read inside holds (.answer value)) observer observed source

theorem ensures_run {calls : Calls host} (answers : Answers breaks meaning calls) (query : Query)
    {machine : Machine host} (ready : Ready breaks meaning query machine) :
    Ensures breaks (query.run calls) machine (Evaluated meaning query machine) := by
  induction query generalizing machine with
  | answer value => exact ⟨rfl, ready.coherent, .refl _, .answer value, fun _ _ _ _ _ => .inl⟩
  | read cell next ih =>
    simp only [Query.run, ensures_bind]
    refine (ensures_readCell answers ready.first).mono fun value between first => ?_
    exact (ih value (ready_next ready first)).mono fun result after second => first.read second

/-- Calls of any depth answer queries if the interpreter runs them. -/
theorem answers_upTo {interpreter : Interpreter host}
    (interprets : ∀ calls code query, meaning code = some query → interpreter.call calls code [] = query.run calls)
    (exhausts : breaks.exhausts) (depth : Nat) : Answers breaks meaning (Calls.upTo interpreter depth) := by
  induction depth with
  | zero => exact fun _ _ _ _ _ => exhausts
  | succ depth ih =>
    intro code query machine means ready
    show Ensures breaks (interpreter.call (Calls.upTo interpreter depth) code []) machine _
    rw [interprets _ code query means]
    exact ensures_run ih query ready

end Machine

end ReactiveMarkup
