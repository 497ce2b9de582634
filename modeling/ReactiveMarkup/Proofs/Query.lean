import ReactiveMarkup.Proofs.Propagation
import ReactiveMarkup.Proofs.StepLogic

/-! Code that does nothing but read cells, and what running it does. A graph is coherent when
every computed value that is up to date is what its code would return now. Reading keeps a
graph coherent and only brings computed values up to date. -/

namespace ReactiveMarkup

/-- Code that reads cells. What it reads next may depend on what it has read. -/
inductive Query where
  | answer (value : Value)
  | read (cell : Nat) (next : Value → Query)

namespace Machine

variable {host : Host}

/-- Reads a signal or a computed value, as an observer does. There are no other cells. -/
def readCell (calls : Calls host) (cell : Nat) : Run host Value := do
  match (← graph?).content? cell with
  | some (.signal _) => readSignal cell
  | some (.computed _) => readComputed calls cell
  | _ => Step.panic (.host "not a cell")

end Machine

def Query.run {host : Host} (calls : Calls host) : Query → Run host Value
  | .answer value => return value
  | .read cell next => do
    let value ← Machine.readCell calls cell
    (next value).run calls

variable {Code Body : Type}

/-- The value of a query when each cell is taken as it stands, reading only some cells. -/
inductive Query.Reads (graph : Graph Code Body) (cells : Nat → Prop) : Query → Value → Prop where
  | answer (value : Value) : Reads graph cells (.answer value) value
  | read {cell : Nat} {next : Value → Query} {value result : Value} (inside : cells cell)
      (holds : graph.current? cell = some value) (rest : Reads graph cells (next value) result) :
      Reads graph cells (.read cell next) result

/-- The value that a query returns now. Computed values are computed anew, whatever they hold;
some codes have a query as their meaning. -/
inductive Query.Returns (meaning : Code → Option Query) (graph : Graph Code Body) : Query → Value → Prop where
  | answer (value : Value) : Returns meaning graph (.answer value) value
  | signal {cell : Nat} {next : Value → Query} {value result : Value}
      (found : graph.content? cell = some (.signal value)) (rest : Returns meaning graph (next value) result) :
      Returns meaning graph (.read cell next) result
  | computed {cell : Nat} {next : Value → Query} {value result : Value} {computed : Computed Code} {query : Query}
      (found : graph.content? cell = some (.computed computed)) (means : meaning computed.code = some query)
      (returned : Returns meaning graph query value) (rest : Returns meaning graph (next value) result) :
      Returns meaning graph (.read cell next) result

/-- The cells of a graph are there in another: signals with their values, and computed values
with their code. -/
structure Graph.Extends (graph other : Graph Code Body) : Prop where
  signals : ∀ {cell value}, graph.content? cell = some (.signal value) → other.content? cell = some (.signal value)
  computeds : ∀ {cell computed}, graph.content? cell = some (.computed computed) →
    ∃ later, other.content? cell = some (.computed later) ∧ later.code = computed.code

namespace Query

variable {meaning : Code → Option Query} {graph other : Graph Code Body}

theorem Reads.mono {cells more : Nat → Prop} {query : Query} {value : Value}
    (reads : query.Reads graph cells value) (inside : ∀ cell, cells cell → more cell)
    (kept : ∀ cell, cells cell → ∀ held, graph.current? cell = some held → other.current? cell = some held) :
    query.Reads other more value := by
  induction reads with
  | answer value => exact .answer value
  | read member holds _ ih => exact .read (inside _ member) (kept _ member _ holds) ih

/-- What a query returns is settled. -/
theorem Returns.unique {query : Query} {first second : Value} (one : query.Returns meaning graph first)
    (two : query.Returns meaning graph second) : first = second := by
  induction one generalizing second with
  | answer value => cases two; rfl
  | signal found _ ih =>
    cases two with
    | signal again rest =>
      rw [found] at again
      cases again
      exact ih rest
    | computed again _ _ _ =>
      rw [found] at again
      cases again
  | computed found means _ _ inner outer =>
    cases two with
    | signal again _ =>
      rw [found] at again
      cases again
    | computed again meansToo returned rest =>
      rw [found] at again
      cases again
      rw [means] at meansToo
      cases meansToo
      cases inner returned
      exact outer rest

/-- Cells that are still there return the same. -/
theorem Returns.transfer {query : Query} {value : Value} (returned : query.Returns meaning graph value)
    (kept : graph.Extends other) : query.Returns meaning other value := by
  induction returned with
  | answer value => exact .answer value
  | signal found _ ih => exact .signal (kept.signals found) ih
  | computed found means _ _ inner outer =>
    obtain ⟨later, foundLater, sameCode⟩ := kept.computeds found
    exact .computed foundLater (sameCode ▸ means) inner outer

end Query

/-- Readers and sources match, and a computed value that is up to date holds what its code
returns now, having read its sources only. -/
structure Graph.Coherent (meaning : Code → Option Query) (graph : Graph Code Body) : Prop where
  symmetric : graph.Symmetric
  meant : ∀ id computed, graph.content? id = some (.computed computed) → ∃ query, meaning computed.code = some query
  fresh : ∀ id computed query, graph.content? id = some (.computed computed) → computed.stale = false →
    meaning computed.code = some query →
    ∃ value, computed.value = some value ∧ query.Reads graph (· ∈ graph.sources id) value ∧
      query.Returns meaning graph value

namespace Graph.Coherent

variable {meaning : Code → Option Query} {graph : Graph Code Body}

/-- Cells taken as they stand give what a query returns. -/
theorem returns_of_reads (coherent : graph.Coherent meaning) {cells : Nat → Prop} {query : Query} {value : Value}
    (reads : query.Reads graph cells value) : query.Returns meaning graph value := by
  induction reads with
  | answer value => exact .answer value
  | @read cell next held result _ holds _ ih =>
    unfold Graph.current? at holds
    split at holds
    next found =>
      cases holds
      exact .signal found ih
    next computed found =>
      split at holds
      next => cases holds
      next upToDate =>
        obtain ⟨query, means⟩ := coherent.meant cell computed found
        obtain ⟨stored, same, _, returned⟩ := coherent.fresh cell computed query found (by simpa using upToDate) means
        rw [same] at holds
        cases holds
        exact .computed found means returned ih
    next => cases holds

end Graph.Coherent

namespace Graph

variable {meaning : Code → Option Query} {before after : Graph Code Body}

/-- Whether a computed value would run its code if it were asked for. -/
def Idle (graph : Graph Code Body) (id : Nat) : Prop :=
  ∃ computed, graph.content? id = some (.computed computed) ∧ computed.stale = true ∧ computed.computing = false

/-- The computed values that were brought up to date from one graph to another. -/
def Renewed (before after : Graph Code Body) (id : Nat) : Prop :=
  ∃ computed value, before.content? id = some (.computed computed) ∧ computed.stale = true ∧
    computed.computing = false ∧
    after.content? id = some (.computed { computed with value := some value, stale := false })

/-- What reading does to a graph: some computed values are brought up to date, and the
observer has more sources. -/
structure Refreshed (before after : Graph Code Body) : Prop where
  size : after.vertices.size = before.vertices.size
  queue : after.queue = before.queue
  depth : after.depth = before.depth
  observer : after.observer = before.observer
  content : ∀ id, after.content? id = before.content? id ∨ Renewed before after id
  sources : ∀ id, ¬ Renewed before after id → before.observer ≠ some id → after.sources id = before.sources id
  observed : ∀ id, before.observer = some id → before.sources id ⊆ after.sources id

/-- The observer, if there is one, is a member that reading does not bring up to date. -/
def Observing (graph : Graph Code Body) : Prop :=
  ∀ observer, graph.observer = some observer → observer < graph.vertices.size ∧ ¬ graph.Idle observer

theorem Refreshed.refl (graph : Graph Code Body) : Refreshed graph graph :=
  ⟨rfl, rfl, rfl, rfl, fun _ => .inl rfl, fun _ _ _ => rfl, fun _ _ _ member => member⟩

theorem Refreshed.current? (refreshed : Refreshed before after) {id : Nat} {value : Value}
    (holds : before.current? id = some value) : after.current? id = some value := by
  rcases refreshed.content id with same | ⟨computed, _, found, stale, _, _⟩
  · rw [current?_congr same, holds]
  · simp [Graph.current?, found, stale] at holds

theorem Renewed.refreshed {middle : Graph Code Body} {id : Nat} (renewed : Renewed before middle id) (later : Refreshed middle after) :
    Renewed before after id := by
  obtain ⟨computed, value, found, stale, idle, new⟩ := renewed
  refine ⟨computed, value, found, stale, idle, ?_⟩
  rcases later.content id with same | ⟨other, _, again, staleAgain, _⟩
  · rw [same, new]
  · rw [new] at again
    cases again
    cases staleAgain

theorem Refreshed.renewed {middle : Graph Code Body} {id : Nat} (earlier : Refreshed before middle) (renewed : Renewed middle after id) :
    Renewed before after id := by
  obtain ⟨computed, value, found, stale, rest⟩ := renewed
  rcases earlier.content id with same | ⟨_, _, _, _, _, new⟩
  · exact ⟨computed, value, same ▸ found, stale, rest⟩
  · rw [new] at found
    cases found
    cases stale

theorem Refreshed.trans {middle : Graph Code Body} (first : Refreshed before middle) (second : Refreshed middle after) :
    Refreshed before after := by
  have renewed_first {id : Nat} (renewed : Renewed before middle id) : Renewed before after id := renewed.refreshed second
  have renewed_second {id : Nat} (renewed : Renewed middle after id) : Renewed before after id := first.renewed renewed
  refine ⟨?_, ?_, ?_, ?_, ?_, ?_, ?_⟩
  · rw [second.size, first.size]
  · rw [second.queue, first.queue]
  · rw [second.depth, first.depth]
  · rw [second.observer, first.observer]
  · intro id
    rcases first.content id with same | renewed
    · rcases second.content id with again | renewed
      · exact .inl (again.trans same)
      · exact .inr (renewed_second renewed)
    · exact .inr (renewed_first renewed)
  · intro id kept apart
    have keptFirst : ¬ Renewed before middle id := fun renewed => kept (renewed_first renewed)
    rw [second.sources id (fun renewed => kept (renewed_second renewed)) (first.observer ▸ apart),
      first.sources id keptFirst apart]
  · intro id observed source member
    exact second.observed id (first.observer ▸ observed) (first.observed id observed member)

theorem Refreshed.idle_of_idle (refreshed : Refreshed before after) {id : Nat} (idle : after.Idle id) :
    before.Idle id := by
  obtain ⟨computed, found, stale, waiting⟩ := idle
  rcases refreshed.content id with same | ⟨other, _, _, _, _, new⟩
  · exact ⟨computed, same ▸ found, stale, waiting⟩
  · rw [new] at found
    cases found
    cases stale

theorem Refreshed.observing (refreshed : Refreshed before after) (observing : before.Observing) : after.Observing := by
  intro observer observed
  obtain ⟨inside, busy⟩ := observing observer (refreshed.observer ▸ observed)
  exact ⟨refreshed.size ▸ inside, fun idle => busy (refreshed.idle_of_idle idle)⟩

theorem Refreshed.sources_observer (refreshed : Refreshed before after) (observing : before.Observing)
    {observer : Nat} (observed : before.observer = some observer) :
    before.sources observer ⊆ after.sources observer ∧ after.content? observer = before.content? observer := by
  refine ⟨refreshed.observed observer observed, (refreshed.content observer).resolve_right ?_⟩
  rintro ⟨computed, _, found, stale, idle, _⟩
  exact (observing observer observed).2 ⟨computed, found, stale, idle⟩

/-- A change that makes nothing stale and keeps what is up to date as it is. -/
theorem Coherent.of_kept (coherent : before.Coherent meaning) (symmetric : after.Symmetric)
    (kept : before.Extends after)
    (meant : ∀ id computed, after.content? id = some (.computed computed) → ∃ query, meaning computed.code = some query)
    (fresh : ∀ id computed, computed.stale = false →
      (after.content? id = some (.computed computed) ↔ before.content? id = some (.computed computed)))
    (sources : ∀ id, after.isFresh id = true → before.sources id ⊆ after.sources id) : after.Coherent meaning := by
  refine ⟨symmetric, meant, fun id computed query found upToDate means => ?_⟩
  obtain ⟨value, stored, reads, returned⟩ :=
    coherent.fresh id computed query ((fresh id computed upToDate).1 found) upToDate means
  refine ⟨value, stored, ?_, returned.transfer kept⟩
  refine reads.mono (sources id (isFresh_iff.2 ⟨computed, found, upToDate⟩)) fun cell _ held holds => ?_
  unfold Graph.current? at holds ⊢
  split at holds
  next found => simpa [kept.signals found] using holds
  next computed found =>
    split at holds
    next => cases holds
    next upToDate =>
      rw [(fresh cell computed (by simpa using upToDate)).2 found]
      simpa [upToDate] using holds
  next => cases holds

/-- Two graphs that differ in effects only. -/
def SameCells (before after : Graph Code Body) : Prop :=
  ∀ id, after.content? id = before.content? id ∨
    ∃ effect later, before.content? id = some (.effect effect) ∧ after.content? id = some (.effect later)

theorem SameCells.content?_iff (same : SameCells before after) {id : Nat} {content : Content Code Body}
    (cell : ∀ effect, content ≠ .effect effect) :
    after.content? id = some content ↔ before.content? id = some content := by
  rcases same id with kept | ⟨effect, later, old, new⟩
  · rw [kept]
  · rw [old, new]
    simp only [Option.some.injEq]
    exact ⟨fun other => absurd other.symm (cell later), fun other => absurd other.symm (cell effect)⟩

theorem SameCells.extends (same : SameCells before after) : before.Extends after :=
  ⟨fun found => (same.content?_iff (by simp)).2 found, fun found => ⟨_, (same.content?_iff (by simp)).2 found, rfl⟩⟩

theorem SameCells.current? (same : SameCells before after) (id : Nat) : after.current? id = before.current? id := by
  rcases same id with kept | ⟨effect, later, old, new⟩
  · exact current?_congr kept
  · simp [Graph.current?, old, new]

theorem Coherent.of_sameCells (coherent : before.Coherent meaning) (same : SameCells before after)
    (symmetric : after.Symmetric)
    (sources : ∀ id, after.isFresh id = true → before.sources id ⊆ after.sources id) : after.Coherent meaning :=
  coherent.of_kept symmetric same.extends
    (fun id computed found => coherent.meant id computed ((same.content?_iff (by simp)).1 found))
    (fun _ _ _ => same.content?_iff (by simp)) sources

theorem Coherent.track (coherent : before.Coherent meaning) {source : Nat} (inside : source < before.vertices.size)
    (observing : before.Observing) : (before.track source).Coherent meaning :=
  coherent.of_sameCells (fun _ => .inl (content?_track ..))
    (symmetric_track coherent.symmetric inside fun observer observed => (observing observer observed).1)
    fun _ _ _ member => (mem_sources_track before).2 (.inl member)

theorem Coherent.add {graph : Graph Code Body} (coherent : graph.Coherent meaning)
    (content : Content Code Body)
    (meant : ∀ computed, content = .computed computed →
      computed.stale = true ∧ ∃ query, meaning computed.code = some query) :
    (graph.add content).2.Coherent meaning := by
  have old {id : Nat} {found : Content Code Body} (here : graph.content? id = some found) :
      (graph.add content).2.content? id = some found := by
    have inside := graph.lt_size_of_content? here
    rw [content?_add, if_neg (by omega), here]
  refine coherent.of_kept (symmetric_of_same coherent.symmetric (by simp) (by simp))
    ⟨old, fun found => ⟨_, old found, rfl⟩⟩ ?_ ?_ (by simp)
  · intro id computed found
    rw [content?_add] at found
    split at found
    · exact (meant computed (Option.some.inj found)).2
    · exact coherent.meant id computed found
  · intro id computed upToDate
    refine ⟨fun found => ?_, old⟩
    rw [content?_add] at found
    split at found
    · rw [(meant computed (Option.some.inj found)).1] at upToDate
      cases upToDate
    · exact found

theorem current?_add {graph : Graph Code Body} (content : Content Code Body) {id : Nat}
    {value : Value} (holds : graph.current? id = some value) : (graph.add content).2.current? id = some value := by
  rw [← holds]
  refine current?_congr ?_
  rw [content?_add, if_neg]
  rintro rfl
  have missing : graph.content? graph.vertices.size = none := by simp [content?]
  simp [Graph.current?, missing] at holds

end Graph

end ReactiveMarkup
