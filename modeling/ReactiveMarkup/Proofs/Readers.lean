import Mathlib.Data.List.Perm.Subperm
import ReactiveMarkup.Proofs.Reading

/-! Computed values and effects that do nothing but read. Each of their runs is counted, and what
it read is noted. A read brings computed values up to date, each of them once, and the notes on a
computed value that is up to date say what its code reads now. -/

namespace ReactiveMarkup

variable {Code Body : Type}

/-- What a query reads when each cell is taken as it stands, with what each cell holds, and the value
that comes out. -/
inductive Query.Path (graph : Graph Code Body) : Query → List (Nat × Value) → Value → Prop where
  | answer (value : Value) : Path graph (.answer value) [] value
  | read {cell : Nat} {next : Value → Query} {held result : Value} {reads : List (Nat × Value)}
      (holds : graph.current? cell = some held) (rest : Path graph (next held) reads result) :
      Path graph (.read cell next) ((cell, held) :: reads) result

namespace Query.Path

variable {graph other : Graph Code Body} {query : Query} {reads : List (Nat × Value)} {value : Value}

theorem mono (path : query.Path graph reads value)
    (kept : ∀ cell held, (cell, held) ∈ reads → graph.current? cell = some held → other.current? cell = some held) :
    query.Path other reads value := by
  induction path with
  | answer value => exact .answer value
  | @read cell _ held _ _ holds _ ih =>
    exact .read (kept cell held List.mem_cons_self holds) (ih fun cell held member => kept cell held (List.mem_cons_of_mem _ member))

theorem current? (path : query.Path graph reads value) {cell : Nat} {held : Value} (member : (cell, held) ∈ reads) :
    graph.current? cell = some held := by
  induction path with
  | answer => cases member
  | read holds _ ih =>
    obtain same | member := List.mem_cons.1 member
    · cases same
      exact holds
    · exact ih member

/-- What a query reads is settled. -/
theorem unique {others : List (Nat × Value)} {result : Value} (path : query.Path graph reads value)
    (again : query.Path graph others result) : reads = others ∧ value = result := by
  induction path generalizing others with
  | answer value =>
    cases again
    exact ⟨rfl, rfl⟩
  | read holds _ ih =>
    cases again with
    | read same rest =>
      cases holds.symm.trans same
      obtain ⟨rfl, rfl⟩ := ih rest
      exact ⟨rfl, rfl⟩

theorem toReads (path : query.Path graph reads value) : query.Reads graph (· ∈ reads.map Prod.fst) value := by
  induction path with
  | answer value => exact .answer value
  | read holds _ ih =>
    exact .read List.mem_cons_self holds (ih.mono (fun _ member => List.mem_cons_of_mem _ member) fun _ _ _ => id)

/-- A query reads no cells but those that it has to. -/
theorem within (path : query.Path graph reads value) {cells : Nat → Prop} {result : Value}
    (reading : query.Reads graph cells result) : ∀ cell ∈ reads.map Prod.fst, cells cell := by
  induction path with
  | answer => exact fun _ member => by cases member
  | read holds _ ih =>
    cases reading with
    | read inside same rest =>
      cases holds.symm.trans same
      intro cell member
      obtain rfl | member := List.mem_cons.1 member
      · exact inside
      · exact ih rest cell member

end Query.Path

/-- Runs a query and gives what it has read besides its value. -/
def Query.trace {host : Host} (calls : Calls host) : Query → Run host (Value × List (Nat × Value))
  | .answer value => return (value, [])
  | .read cell next => do
    let held ← Machine.readCell calls cell
    let (value, reads) ← (next held).trace calls
    return (value, (cell, held) :: reads)

structure ReaderWorld where
  /-- What the last run of each computed value and each effect has read. -/
  notes : Nat → List (Nat × Value) := fun _ => []
  /-- The computed values and effects in the order in which they were run, the last one first. -/
  runs : List Nat := []

namespace ReaderWorld

def count (world : ReaderWorld) (reader : Option Nat) : ReaderWorld := { world with runs := reader.toList ++ world.runs }

def note (world : ReaderWorld) (reader : Option Nat) (reads : List (Nat × Value)) : ReaderWorld :=
  { world with notes := fun other => if reader = some other then reads else world.notes other }

end ReaderWorld

abbrev Host.readers : Host := ⟨Query, ReaderWorld, fun _ => []⟩

namespace Reader

def modifyWorld (f : ReaderWorld → ReaderWorld) : Run Host.readers Unit :=
  modify fun machine => { machine with world := f machine.world }

/-- Runs a query as the code of whoever observes. -/
def run (calls : Calls Host.readers) (query : Query) : Run Host.readers Value := do
  let observer := (← Machine.graph?).observer
  modifyWorld (·.count observer)
  let (value, reads) ← query.trace calls
  modifyWorld (·.note observer reads)
  return value

end Reader

/-- All code is queries; there is nothing to render. -/
def Interpreter.readers : Interpreter Host.readers where
  call calls query _ := Reader.run calls query
  react calls query := do
    discard (Reader.run calls query)
    return none
  build _ _ _ := Step.panic (.host "not a maker of nodes")
  control _ _ _ := Step.panic (.host "not a controller")
  view _ _ _ _ := Step.panic (.host "not a view")

def Machine.readers : Machine Host.readers := { registry := { runtimeModule := "" }, world := {} }

namespace Machine

open ReactiveMarkup.Graph ReactiveMarkup.Step

variable {before middle after machine : Machine Host.readers}

/-- The notes on a reader say what its query reads now, and its sources are the cells in them. -/
def Faithful (machine : Machine Host.readers) (reader : Nat) (query : Query) : Prop :=
  (∃ value, query.Path machine.graph (machine.world.notes reader) value) ∧
    ∀ source, source ∈ machine.graph.sources reader ↔ source ∈ (machine.world.notes reader).map Prod.fst

theorem Faithful.mono {reader : Nat} {query : Query} (faithful : before.Faithful reader query)
    (current : ∀ cell held, (cell, held) ∈ before.world.notes reader → before.graph.current? cell = some held →
      after.graph.current? cell = some held)
    (notes : after.world.notes reader = before.world.notes reader)
    (sources : ∀ source, source ∈ after.graph.sources reader ↔ source ∈ before.graph.sources reader) : after.Faithful reader query := by
  obtain ⟨⟨value, path⟩, known⟩ := faithful
  refine ⟨⟨value, ?_⟩, fun source => ?_⟩
  · rw [notes]
    exact path.mono current
  · rw [notes, sources, known]

/-- The graph is coherent, the notes on computed values that are up to date are right, and the others read nothing. -/
structure Lucid (machine : Machine Host.readers) : Prop where
  coherent : machine.graph.Coherent some
  faithful : ∀ id computed, machine.graph.content? id = some (.computed computed) → computed.stale = false →
    machine.Faithful id computed.code
  bare : ∀ id, machine.graph.Idle id → machine.graph.sources id = []

/-- What reading leaves behind. Each run brings a computed value up to date. -/
structure Freshened (before after : Machine Host.readers) : Prop where
  graph : before.graph.Refreshed after.graph
  lucid : after.Lucid
  notes : ∀ id, ¬ before.graph.Renewed after.graph id → after.world.notes id = before.world.notes id
  runs : ∃ new, after.world.runs = new ++ before.world.runs ∧ new.Nodup ∧ ∀ id ∈ new, before.graph.Renewed after.graph id

theorem Freshened.refl (lucid : machine.Lucid) : Freshened machine machine :=
  ⟨.refl _, lucid, fun _ _ => rfl, [], rfl, .nil, by simp⟩

theorem Freshened.trans (first : Freshened before middle) (second : Freshened middle after) : Freshened before after := by
  obtain ⟨new, runs, once, renewed⟩ := first.runs
  obtain ⟨later, runsLater, onceLater, renewedLater⟩ := second.runs
  refine ⟨first.graph.trans second.graph, second.lucid, fun id kept => ?_, later ++ new, ?_, ?_, fun id member => ?_⟩
  · rw [second.notes id fun renewed => kept (first.graph.renewed renewed), first.notes id fun renewed => kept (renewed.refreshed second.graph)]
  · rw [runsLater, runs, List.append_assoc]
  · -- What the first part has brought up to date is not run in the second.
    refine List.nodup_append.2 ⟨onceLater, once, ?_⟩
    rintro id memberLater other member rfl
    obtain ⟨_, _, found, stale, _⟩ := renewedLater id memberLater
    obtain ⟨_, _, _, _, _, new⟩ := renewed id member
    cases found.symm.trans new
    cases stale
  · obtain member | member := List.mem_append.1 member
    · exact first.graph.renewed (renewedLater id member)
    · exact (renewed id member).refreshed second.graph

/-- What a reader of whom only coherence is known reads: what it had read before and what its query reads. -/
theorem sources_of_evaluated {query : Query} {value : Value} {reads : List (Nat × Value)} (evaluated : Evaluated some query before value after)
    (path : query.Path after.graph reads value) {observer : Nat} (observed : before.graph.observer = some observer) (source : Nat) :
    source ∈ after.graph.sources observer ↔ source ∈ before.graph.sources observer ∨ source ∈ reads.map Prod.fst := by
  constructor
  · exact evaluated.only (· ∈ reads.map Prod.fst) path.toReads observer observed source
  · rintro (old | new)
    · exact evaluated.refreshed.observed observer observed old
    · exact path.within evaluated.reads source new observer observed

theorem not_renewed_of_same {graph later : Graph Code Body} {id : Nat} (same : later.content? id = graph.content? id) :
    ¬ graph.Renewed later id := by
  rintro ⟨computed, _, found, stale, _, new⟩
  have kept := found.symm.trans (same.symm.trans new)
  have fresh : computed.stale = false := congrArg Computed.stale (Content.computed.inj (Option.some.inj kept))
  rw [stale] at fresh
  cases fresh

/-- Computed values that reading has brought up to date have right notes, if all that were up to date before had. -/
theorem Lucid.of_refreshed (lucid : before.Lucid) (refreshed : before.graph.Refreshed after.graph) (coherent : after.graph.Coherent some)
    (observing : before.graph.Observing) (running : ∀ observer, before.graph.observer = some observer → before.graph.isFresh observer = false)
    (notes : ∀ id, ¬ before.graph.Renewed after.graph id → after.world.notes id = before.world.notes id)
    (renewed : ∀ id computed, before.graph.Renewed after.graph id → after.graph.content? id = some (.computed computed) →
      after.Faithful id computed.code) : after.Lucid := by
  refine ⟨coherent, fun id computed found fresh => ?_, fun id idle => ?_⟩
  · by_cases isNew : before.graph.Renewed after.graph id
    · exact renewed id computed isNew found
    · have old := ((refreshed.content id).resolve_right isNew).symm.trans found
      have apart : before.graph.observer ≠ some id := by
        intro observed
        have stale := running id observed
        rw [isFresh_iff.2 ⟨computed, old, fresh⟩] at stale
        cases stale
      exact (lucid.faithful id computed old fresh).mono (fun _ _ _ => refreshed.current?) (notes id isNew) fun source => by
        rw [refreshed.sources id isNew apart]
  · have wasIdle := refreshed.idle_of_idle idle
    have kept : ¬ before.graph.Renewed after.graph id := by
      obtain ⟨computed, found, stale, _⟩ := idle
      rintro ⟨_, _, _, _, _, new⟩
      cases found.symm.trans new
      cases stale
    rw [refreshed.sources id kept fun observed => (observing id observed).2 wasIdle, lucid.bare id wasIdle]

/-- What running a query amounts to. The world before it is put back where the laws of graphs are applied. -/
structure Traced (query : Query) (before : Machine Host.readers) (value : Value) (reads : List (Nat × Value))
    (after : Machine Host.readers) : Prop where
  evaluated : Evaluated some query before value { after with world := before.world }
  path : query.Path after.graph reads value
  freshened : Freshened before after

/-- What running a query as the code of an observer amounts to. -/
structure Watched (query : Query) (observer : Nat) (before : Machine Host.readers) (value : Value) (after : Machine Host.readers) : Prop where
  evaluated : Evaluated some query before value { after with world := before.world }
  path : query.Path after.graph (after.world.notes observer) value
  lucid : after.Lucid
  notes : ∀ id, id ≠ observer → ¬ before.graph.Renewed after.graph id → after.world.notes id = before.world.notes id
  runs : ∃ new, after.world.runs = new ++ observer :: before.world.runs ∧ new.Nodup ∧ ∀ id ∈ new, before.graph.Renewed after.graph id

/-- The computed values that are being computed. -/
structure Busy (busy : List Nat) (graph : Graph Code Body) : Prop where
  once : busy.Nodup
  mem : ∀ id, id ∈ busy ↔ ∃ computed, graph.content? id = some (.computed computed) ∧ computed.computing = true

theorem Busy.length_le {busy : List Nat} {graph : Graph Code Body} (isBusy : Busy busy graph) : busy.length ≤ graph.vertices.size := by
  have inside : busy ⊆ List.range graph.vertices.size := by
    intro id member
    obtain ⟨computed, found, _⟩ := (isBusy.mem id).1 member
    exact List.mem_range.2 (graph.lt_size_of_content? found)
  simpa using (isBusy.once.subperm inside).length_le

theorem Busy.refreshed {busy : List Nat} {graph later : Graph Code Body} (isBusy : Busy busy graph) (refreshed : graph.Refreshed later) :
    Busy busy later := by
  refine ⟨isBusy.once, fun id => (isBusy.mem id).trans ⟨?_, ?_⟩⟩
  · rintro ⟨computed, found, computing⟩
    obtain same | ⟨other, _, again, _, idle, _⟩ := refreshed.content id
    · exact ⟨computed, same.trans found, computing⟩
    · cases found.symm.trans again
      rw [idle] at computing
      cases computing
  · rintro ⟨computed, found, computing⟩
    obtain ⟨earlier, old, _, same⟩ := refreshed.computed_before found
    exact ⟨earlier, old, same.trans computing⟩

/-- Where a query may be run. Whoever observes is running: it is neither up to date nor idle. -/
structure Prepared (panics : Prop) (busy : List Nat) (query : Query) (machine : Machine Host.readers) : Prop where
  lucid : machine.Lucid
  observing : machine.graph.Observing
  running : ∀ observer, machine.graph.observer = some observer → machine.graph.isFresh observer = false
  isBusy : Busy busy machine.graph
  ends : panics ∨ query.Ends some machine.graph busy

variable {panics exhausts : Prop} {depth : Nat} {busy : List Nat} {query : Query} {calls : Calls Host.readers}

theorem Prepared.ready (prepared : Prepared panics busy query machine) : Ready ⟨panics, exhausts⟩ some query machine :=
  ⟨prepared.lucid.coherent, prepared.observing, prepared.ends.imp_right fun ends =>
    ⟨busy, fun id computed found computing => (prepared.isBusy.mem id).2 ⟨computed, found, computing⟩, ends⟩⟩

theorem Prepared.first {cell : Nat} {next : Value → Query} (prepared : Prepared panics busy (.read cell next) machine) :
    Prepared panics busy (.read cell .answer) machine :=
  ⟨prepared.lucid, prepared.observing, prepared.running, prepared.isBusy, prepared.ends.imp_right Query.Ends.first⟩

theorem Prepared.next {cell : Nat} {next : Value → Query} {value : Value} {reads : List (Nat × Value)}
    (prepared : Prepared panics busy (.read cell next) machine) (traced : Traced (.read cell .answer) machine value reads after) :
    Prepared panics busy (next value) after := by
  have refreshed := traced.freshened.graph
  refine ⟨traced.freshened.lucid, refreshed.observing prepared.observing, fun observer observed => ?_, prepared.isBusy.refreshed refreshed,
    prepared.ends.imp_right traced.evaluated.ends_next⟩
  rw [refreshed.observer] at observed
  rw [isFresh_congr (refreshed.sources_observer prepared.observing observed).2]
  exact prepared.running observer observed

/-- A cell that holds something is read without running any code. -/
theorem traced_track {cell : Nat} {value : Value} (prepared : Prepared panics busy query machine)
    (holds : machine.graph.current? cell = some value) (inside : cell < machine.graph.vertices.size) :
    Traced (.read cell .answer) machine value [(cell, value)] { machine with graph := machine.graph.track cell } := by
  have evaluated := evaluated_track prepared.lucid.coherent prepared.observing holds inside
  have kept (id : Nat) : ¬ machine.graph.Renewed (machine.graph.track cell) id := not_renewed_of_same (content?_track ..)
  have lucid : Lucid { machine with graph := machine.graph.track cell } :=
    prepared.lucid.of_refreshed (.track _ _) evaluated.coherent prepared.observing prepared.running (fun _ _ => rfl)
      fun id _ renewed => absurd renewed (kept id)
  exact ⟨evaluated, .read ((current?_congr (content?_track ..)).trans holds) (.answer value), .track _ _, lucid, fun _ _ => rfl,
    [], rfl, .nil, by simp⟩

/-- A computed value that was out of date has run its code. -/
theorem traced_settled {cell : Nat} {computed : Computed Query} {value : Value} (prepared : Prepared panics busy (.read cell .answer) machine)
    (found : machine.graph.content? cell = some (.computed computed)) (stale : computed.stale = true) (waiting : computed.computing = false)
    (watched : Watched computed.code cell { machine with graph := computing machine.graph cell } value after) :
    Traced (.read cell .answer) machine value [(cell, value)]
      { after with graph := settled after.graph machine.graph.observer cell value } := by
  have ready : Ready ⟨panics, True⟩ some (.read cell .answer) machine := prepared.ready
  have evaluated := evaluated_settled ready found stale waiting rfl watched.evaluated
  have self : after.graph.content? cell = some (.computed { computed with computing := true }) := by
    rw [(watched.evaluated.refreshed.sources_observer (ready_computing ready found stale rfl).observing rfl).2]
    exact content?_computing_self found
  have idle : machine.graph.Idle cell := ⟨computed, found, stale, waiting⟩
  have renewed : machine.graph.Renewed (settled after.graph machine.graph.observer cell value) cell := by
    refine ⟨computed, value, found, stale, waiting, ?_⟩
    rw [content?_settled_self _ _ self, ← waiting]
  have apart_of_kept {id : Nat} (kept : ¬ machine.graph.Renewed (settled after.graph machine.graph.observer cell value) id) : id ≠ cell :=
    fun here => kept (here ▸ renewed)
  have current {other : Nat} {held : Value} (holds : after.graph.current? other = some held) :
      (settled after.graph machine.graph.observer cell value).current? other = some held := by
    by_cases here : other = cell
    · subst here
      simp [Graph.current?, self, stale] at holds
    · rw [current?_congr (content?_settled_of_ne _ _ _ here), holds]
  have bare (source : Nat) : source ∈ after.graph.sources cell ↔ source ∈ (after.world.notes cell).map Prod.fst := by
    have sources := sources_of_evaluated watched.evaluated watched.path rfl source
    rw [sources_computing, sources_track_of_ne, prepared.lucid.bare cell idle] at sources
    · simpa using sources
    · exact fun observed => (prepared.observing cell observed).2 idle
  refine ⟨evaluated, ?_, evaluated.refreshed, ?_, fun id kept => ?_, ?_⟩
  · cases evaluated.reads with
    | read _ holds rest =>
      cases rest
      exact .read holds (.answer value)
  · refine prepared.lucid.of_refreshed evaluated.refreshed evaluated.coherent prepared.observing prepared.running (fun id kept => ?_)
      fun id later isNew foundLater => ?_
    · exact watched.notes id (apart_of_kept kept) fun inner => kept (renewed_settled (apart_of_kept kept) inner)
    · by_cases here : id = cell
      · subst here
        cases (content?_settled_self _ _ self).symm.trans foundLater
        refine ⟨⟨value, watched.path.mono fun _ _ _ => current⟩, fun source => ?_⟩
        rw [sources_settled]
        exact bare source
      · have same := content?_settled_of_ne after.graph machine.graph.observer value here
        obtain ⟨_, _, _, _, _, new⟩ := isNew
        cases foundLater.symm.trans new
        refine (watched.lucid.faithful id _ (same.symm.trans foundLater) rfl).mono (fun _ _ _ => current) rfl fun source => ?_
        rw [sources_settled]
  · exact watched.notes id (apart_of_kept kept) fun inner => kept (renewed_settled (apart_of_kept kept) inner)
  · obtain ⟨new, runs, once, inner⟩ := watched.runs
    have apart {id : Nat} (member : id ∈ new) : id ≠ cell := by
      rintro rfl
      obtain ⟨_, _, again, _, still, _⟩ := inner id member
      cases (content?_computing_self found).symm.trans again
      cases still
    refine ⟨new ++ [cell], by rw [runs, List.append_assoc]; rfl, ?_, fun id member => ?_⟩
    · exact List.nodup_append.2 ⟨once, by simp, fun id member other single => List.mem_singleton.1 single ▸ apart member⟩
    · obtain member | single := List.mem_append.1 member
      · exact renewed_settled (apart member) (inner id member)
      · exact List.mem_singleton.1 single ▸ renewed

end Machine

namespace Reader

open ReactiveMarkup.Graph ReactiveMarkup.Step ReactiveMarkup.Machine

variable {before middle after machine : Machine Host.readers} {panics : Prop} {depth : Nat} {busy : List Nat} {query : Query}
  {calls : Calls Host.readers}

@[simp]
theorem ensures_graph? {breaks : Breaks} (machine : Machine Host.readers) (post : Graph Query (Task Query) → Machine Host.readers → Prop) :
    @Ensures _ (Graph Query (Task Query)) breaks Machine.graph? machine post ↔ post machine.graph machine := Iff.rfl

/-- Calls run code as queries. Calls may nest as deep as there are members, less those that are busy. -/
def CallsWatch (panics : Prop) (depth : Nat) (calls : Calls Host.readers) : Prop :=
  ∀ query busy observer machine, Prepared panics busy query machine → machine.graph.observer = some observer →
    Ensures ⟨panics, depth + busy.length ≤ machine.graph.vertices.size⟩ (calls.call query []) machine (Watched query observer machine)

/-- A computed value that runs its code is busy with it. -/
theorem prepared_computing {cell : Nat} {computed : Computed Query} (prepared : Prepared panics busy (.read cell .answer) machine)
    (found : machine.graph.content? cell = some (.computed computed)) (stale : computed.stale = true) (waiting : computed.computing = false) :
    Prepared panics (cell :: busy) computed.code { machine with graph := computing machine.graph cell } := by
  have started : Ready ⟨panics, True⟩ some (.read cell .answer) machine := prepared.ready
  have ready := ready_computing started found stale rfl
  have self := content?_computing_self found
  have other {id : Nat} (apart : id ≠ cell) := content?_computing_of_ne machine.graph apart
  have current {id : Nat} {held : Value} (holds : machine.graph.current? id = some held) :
      (computing machine.graph cell).current? id = some held := by
    by_cases here : id = cell
    · subst here
      simp [Graph.current?, found, stale] at holds
    · rw [current?_congr (other here), holds]
  have notFresh : (computing machine.graph cell).isFresh cell = false := by simp [isFresh, computed?, self, stale]
  refine ⟨⟨ready.coherent, fun id later foundLater fresh => ?_, fun id idle => ?_⟩, ready.observing, ?_, ⟨?_, fun id => ?_⟩, ?_⟩
  · have apart : id ≠ cell := by
      rintro rfl
      rw [isFresh_iff.2 ⟨later, foundLater, fresh⟩] at notFresh
      cases notFresh
    have old := (other apart).symm.trans foundLater
    refine (prepared.lucid.faithful id later old fresh).mono (fun _ _ _ => current) rfl fun source => ?_
    rw [sources_computing, sources_track_of_ne]
    intro observed
    have stillStale := prepared.running id observed
    rw [isFresh_iff.2 ⟨later, old, fresh⟩] at stillStale
    cases stillStale
  · have apart : id ≠ cell := by
      rintro rfl
      obtain ⟨later, foundLater, _, idle⟩ := idle
      cases self.symm.trans foundLater
      cases idle
    obtain ⟨later, foundLater, isStale, isIdle⟩ := idle
    have wasIdle : machine.graph.Idle id := ⟨later, (other apart).symm.trans foundLater, isStale, isIdle⟩
    rw [sources_computing, sources_track_of_ne, prepared.lucid.bare id wasIdle]
    exact fun observed => (prepared.observing id observed).2 wasIdle
  · rintro _ ⟨⟩
    exact notFresh
  · refine List.nodup_cons.2 ⟨fun member => ?_, prepared.isBusy.once⟩
    obtain ⟨later, again, running⟩ := (prepared.isBusy.mem cell).1 member
    cases found.symm.trans again
    rw [waiting] at running
    cases running
  · rw [List.mem_cons]
    by_cases here : id = cell
    · simp [here, self]
    · simp only [here, false_or, other here]
      exact prepared.isBusy.mem id
  · refine prepared.ends.imp_right fun ends => ?_
    cases ends with
    | signal again _ => cases found.symm.trans again
    | computed again means _ inner _ =>
      cases found.symm.trans again
      cases means
      exact inner.transfer (extends_computing found).1 (extends_computing found).2

section

variable (watches : CallsWatch panics depth calls)

include watches

theorem ensures_traceComputed {cell : Nat} {computed : Computed Query} (prepared : Prepared panics busy (.read cell .answer) machine)
    (found : machine.graph.content? cell = some (.computed computed)) :
    Ensures ⟨panics, depth + busy.length < machine.graph.vertices.size⟩ (readComputed calls cell) machine fun value after =>
      Traced (.read cell .answer) machine value [(cell, value)] after := by
  have foundAfter : (machine.graph.track cell).content? cell = some (.computed computed) := by simpa using found
  simp only [readComputed, ensures_bind, ensures_modifyGraph, ensures_graph?, computed?, foundAfter]
  by_cases stale : computed.stale = true
  · simp only [stale, Bool.not_true, Bool.false_eq_true, if_false]
    by_cases waiting : computed.computing = false
    · simp only [waiting, Bool.false_eq_true, if_false, ensures_bind, ensures_modifyGraph, ensures_after, ensures_observedBy, ensures_pure]
      refine (watches computed.code (cell :: busy) cell _ (prepared_computing prepared found stale waiting) rfl).relax id ?_ ?_
      · intro (scarce : depth + (cell :: busy).length ≤ (computing machine.graph cell).vertices.size)
        have same : (computing machine.graph cell).vertices.size = machine.graph.vertices.size := by simp [computing]
        rw [same, List.length_cons] at scarce
        exact scarce
      · intro value after watched
        have traced := traced_settled prepared found stale waiting watched
        rw [← observer_track machine.graph cell] at traced
        exact traced
    · have running : computed.computing = true := by simpa using waiting
      simp only [running, if_true, ensures_bind, ensures_panic]
      refine prepared.ends.resolve_right fun ends => ?_
      cases ends with
      | signal again _ => cases found.symm.trans again
      | computed _ _ apart _ _ => exact apart ((prepared.isBusy.mem cell).2 ⟨computed, found, running⟩)
  · have upToDate : computed.stale = false := by simpa using stale
    obtain ⟨value, stored, _, _⟩ := prepared.lucid.coherent.fresh cell computed _ found upToDate rfl
    simp only [upToDate, Bool.not_false, if_true, ensures_pure, stored, Option.getD_some]
    exact traced_track prepared (by simp [Graph.current?, found, upToDate, stored]) (machine.graph.lt_size_of_content? found)

theorem ensures_traceCell {cell : Nat} (prepared : Prepared panics busy (.read cell .answer) machine) :
    Ensures ⟨panics, depth + busy.length < machine.graph.vertices.size⟩ (readCell calls cell) machine fun value after =>
      Traced (.read cell .answer) machine value [(cell, value)] after := by
  simp only [readCell, ensures_bind, ensures_graph?]
  split
  next value found =>
    have foundAfter : (machine.graph.track cell).content? cell = some (.signal value) := by simpa using found
    simp only [readSignal, peek, ensures_bind, ensures_modifyGraph, ensures_graph?, ensures_pure, value?, foundAfter, Option.getD_some]
    exact traced_track prepared (by simp [Graph.current?, found]) (machine.graph.lt_size_of_content? found)
  next computed found => exact ensures_traceComputed watches prepared found
  next noSignal noComputed =>
    refine prepared.ends.resolve_right fun ends => ?_
    cases ends with
    | signal found _ => exact noSignal _ found
    | computed found _ _ _ _ => exact noComputed _ found

theorem ensures_trace (prepared : Prepared panics busy query machine) :
    Ensures ⟨panics, depth + busy.length < machine.graph.vertices.size⟩ (query.trace calls) machine fun result after =>
      Traced query machine result.1 result.2 after := by
  induction query generalizing machine with
  | answer value =>
    exact ⟨⟨rfl, prepared.lucid.coherent, .refl _, .answer value, fun _ _ _ _ _ => .inl⟩, .answer value, .refl prepared.lucid⟩
  | read cell next ih =>
    simp only [Query.trace, ensures_bind, ensures_pure]
    refine (ensures_traceCell watches prepared.first).mono fun held between first => ?_
    have rest : Ensures ⟨panics, depth + busy.length < machine.graph.vertices.size⟩ ((next held).trace calls) between fun result after =>
        Traced (next held) between result.1 result.2 after := by
      rw [← first.freshened.graph.size]
      exact ih held (prepared.next first)
    refine rest.mono fun result after second => ⟨first.evaluated.read (second.evaluated.withWorld machine.world), ?_, first.freshened.trans second.freshened⟩
    cases first.path with
    | read holds _ => exact .read (second.freshened.graph.current? holds) second.path

/-- Running a query for an observer counts as a run of the observer and leaves notes on it. -/
theorem ensures_run {observer : Nat} (prepared : Prepared panics busy query machine) (observed : machine.graph.observer = some observer) :
    Ensures ⟨panics, depth + busy.length < machine.graph.vertices.size⟩ (run calls query) machine (Watched query observer machine) := by
  simp only [run, modifyWorld, ensures_bind, ensures_graph?, ensures_modify, ensures_pure, observed]
  have counted : Prepared panics busy query { machine with world := machine.world.count (some observer) } :=
    ⟨⟨prepared.lucid.coherent, prepared.lucid.faithful, prepared.lucid.bare⟩, prepared.observing, prepared.running, prepared.isBusy, prepared.ends⟩
  refine (ensures_trace watches counted).mono fun result after traced => ?_
  have notFresh : after.graph.isFresh observer = false := by
    rw [isFresh_congr (traced.freshened.graph.sources_observer prepared.observing observed).2]
    exact prepared.running observer observed
  refine ⟨traced.evaluated.withWorld machine.world, ?_, ⟨traced.freshened.lucid.coherent, fun id computed found fresh => ?_,
    traced.freshened.lucid.bare⟩, fun id apart kept => ?_, ?_⟩
  · simpa [ReaderWorld.note] using traced.path
  · have apart : observer ≠ id := by
      rintro rfl
      rw [isFresh_iff.2 ⟨computed, found, fresh⟩] at notFresh
      cases notFresh
    exact (traced.freshened.lucid.faithful id computed found fresh).mono (fun _ _ _ holds => holds) (if_neg (by simpa using apart)) fun _ => Iff.rfl
  · exact (if_neg (by simpa using apart.symm)).trans (traced.freshened.notes id kept)
  · exact traced.freshened.runs

end

theorem callsWatch_upTo (depth : Nat) : CallsWatch panics depth (Calls.upTo Interpreter.readers depth) := by
  induction depth with
  | zero =>
    intro query busy observer machine prepared _
    exact (Nat.zero_add _).symm ▸ prepared.isBusy.length_le
  | succ depth ih =>
    intro query busy observer machine prepared observed
    refine (ensures_run ih prepared observed).relax id (fun (scarce : _ < _) => ?_) fun _ _ watched => watched
    show depth + 1 + busy.length ≤ machine.graph.vertices.size
    omega

end Reader

end ReactiveMarkup
