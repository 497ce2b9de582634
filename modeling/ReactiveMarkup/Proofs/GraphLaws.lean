import ReactiveMarkup.Reactive.Graph

/-! What each transition of the dependency graph does to contents, readers and sources. The
main statement is that all of them keep readers and sources symmetric. -/

namespace ReactiveMarkup

@[simp]
theorem mem_insertNew {members : List Nat} {member other : Nat} :
    other ∈ insertNew members member ↔ other ∈ members ∨ other = member := by
  unfold insertNew
  split
  next present =>
    have inside : member ∈ members := by simpa using present
    constructor
    · exact .inl
    · rintro (old | rfl)
      · exact old
      · exact inside
  next => simp

theorem nodup_insertNew {members : List Nat} (once : members.Nodup) (member : Nat) : (insertNew members member).Nodup := by
  unfold insertNew
  split
  next => exact once
  next absent =>
    refine List.nodup_append.2 ⟨once, by simp, fun other inside last same => ?_⟩
    rintro rfl
    exact absent (by simpa [List.mem_singleton.1 same] using inside)

namespace Graph

variable {Code Body : Type} (graph : Graph Code Body)

theorem subscribers_modify (id other : Nat) (f : Vertex Code Body → Vertex Code Body) :
    (graph.modify id f).subscribers other =
      if other = id then (graph.vertices[id]?).elim [] (fun vertex => (f vertex).subscribers)
      else graph.subscribers other := by
  simp only [subscribers, modify, Array.getElem?_modify]
  by_cases same : id = other
  · subst same
    cases graph.vertices[id]? <;> simp
  · simp [same, Ne.symm same]

theorem sources_modify (id other : Nat) (f : Vertex Code Body → Vertex Code Body) :
    (graph.modify id f).sources other =
      if other = id then (graph.vertices[id]?).elim [] (fun vertex => (f vertex).sources)
      else graph.sources other := by
  simp only [sources, modify, Array.getElem?_modify]
  by_cases same : id = other
  · subst same
    cases graph.vertices[id]? <;> simp
  · simp [same, Ne.symm same]

theorem lt_size_of_mem_subscribers {source reader : Nat} (reads : reader ∈ graph.subscribers source) :
    source < graph.vertices.size := by
  by_cases inside : source < graph.vertices.size
  · exact inside
  · simp [subscribers, Array.getElem?_eq_none (Nat.le_of_not_lt inside)] at reads

theorem lt_size_of_mem_sources {source reader : Nat} (reads : source ∈ graph.sources reader) :
    reader < graph.vertices.size := by
  by_cases inside : reader < graph.vertices.size
  · exact inside
  · simp [sources, Array.getElem?_eq_none (Nat.le_of_not_lt inside)] at reads

theorem lt_size_of_content? {id : Nat} {content : Content Code Body} (found : graph.content? id = some content) :
    id < graph.vertices.size := by
  by_cases inside : id < graph.vertices.size
  · exact inside
  · simp [content?, Array.getElem?_eq_none (Nat.le_of_not_lt inside)] at found

theorem effect?_eq_some {id : Nat} {effect : Effect Code Body} :
    graph.effect? id = some effect ↔ graph.content? id = some (.effect effect) := by
  unfold effect?
  split <;> simp_all

theorem computed?_eq_some {id : Nat} {computed : Computed Code} :
    graph.computed? id = some computed ↔ graph.content? id = some (.computed computed) := by
  unfold computed?
  split <;> simp_all

/-- A change that leaves readers and sources of every vertex alone. -/
private theorem subscribers_modify_of_same (id other : Nat) (f : Vertex Code Body → Vertex Code Body)
    (same : ∀ vertex, (f vertex).subscribers = vertex.subscribers) :
    (graph.modify id f).subscribers other = graph.subscribers other := by
  rw [subscribers_modify]
  split
  next here =>
    subst here
    simp only [subscribers, same]
  next => rfl

private theorem sources_modify_of_same (id other : Nat) (f : Vertex Code Body → Vertex Code Body)
    (same : ∀ vertex, (f vertex).sources = vertex.sources) :
    (graph.modify id f).sources other = graph.sources other := by
  rw [sources_modify]
  split
  next here =>
    subst here
    simp only [sources, same]
  next => rfl

private theorem content?_modify_of_same (id other : Nat) (f : Vertex Code Body → Vertex Code Body)
    (same : ∀ vertex, (f vertex).content = vertex.content) :
    (graph.modify id f).content? other = graph.content? other := by
  rw [content?_modify]
  split
  next here =>
    subst here
    simp only [content?, same]
  next => rfl

/-! Reading. -/

@[simp]
theorem content?_track (source other : Nat) : (graph.track source).content? other = graph.content? other := by
  unfold track
  split
  · rfl
  · rw [content?_modify_of_same, content?_modify_of_same] <;> exact fun _ => rfl

@[simp]
theorem size_track (source : Nat) : (graph.track source).vertices.size = graph.vertices.size := by
  unfold track
  split
  · rfl
  · rw [size_modify, size_modify]

@[simp]
theorem queue_track (source : Nat) : (graph.track source).queue = graph.queue := by
  unfold track
  split <;> rfl

@[simp]
theorem depth_track (source : Nat) : (graph.track source).depth = graph.depth := by
  unfold track
  split <;> rfl

@[simp]
theorem observer_track (source : Nat) : (graph.track source).observer = graph.observer := by
  unfold track
  split <;> rfl

theorem mem_subscribers_track {source other reader : Nat} :
    reader ∈ (graph.track source).subscribers other ↔
      reader ∈ graph.subscribers other ∨
        (graph.observer = some reader ∧ other = source ∧ source < graph.vertices.size) := by
  unfold track
  cases observed : graph.observer with
  | none => simp
  | some observer =>
    simp only
    rw [subscribers_modify_of_same _ _ _ _ ?_, subscribers_modify]
    rotate_left
    · exact fun _ => rfl
    by_cases here : other = source
    · subst here
      by_cases inside : other < graph.vertices.size
      · simp [subscribers, inside, eq_comm]
      · simp [subscribers, inside]
    · simp [here]

theorem mem_sources_track {source other reader : Nat} :
    other ∈ (graph.track source).sources reader ↔
      other ∈ graph.sources reader ∨
        (graph.observer = some reader ∧ other = source ∧ reader < graph.vertices.size) := by
  unfold track
  cases observed : graph.observer with
  | none => simp
  | some observer =>
    simp only
    rw [sources_modify]
    split
    next here =>
      subst here
      simp only [modify, sources, Array.getElem?_modify]
      by_cases inside : reader < graph.vertices.size
      · split <;> simp [inside]
      · simp [inside]
    next here =>
      rw [sources_modify_of_same]
      · simp [Ne.symm here]
      · exact fun _ => rfl

theorem sources_track_of_ne {source reader : Nat} (apart : graph.observer ≠ some reader) :
    (graph.track source).sources reader = graph.sources reader := by
  simp only [track]
  split
  next => rfl
  next observer observed =>
    have other : reader ≠ observer := fun same => apart (by rw [observed, same])
    rw [sources_modify, if_neg other, sources_modify_of_same]
    exact fun _ => rfl

/-! Forgetting what was read. -/

theorem mem_subscribers_unsubscribe {source subscriber other reader : Nat} :
    reader ∈ (graph.unsubscribe source subscriber).subscribers other ↔
      reader ∈ graph.subscribers other ∧ ¬(other = source ∧ reader = subscriber) := by
  rw [unsubscribe, subscribers_modify]
  split
  next here =>
    subst here
    simp only [subscribers]
    cases graph.vertices[other]? <;> simp
  next here => simp [here]

@[simp]
theorem sources_unsubscribe (source subscriber other : Nat) :
    (graph.unsubscribe source subscriber).sources other = graph.sources other := by
  rw [unsubscribe, sources_modify_of_same]
  exact fun _ => rfl

/-- Taking one reader away from several sources. -/
private theorem unsubscribeAll_facts (reader : Nat) (sources : List Nat) (start : Graph Code Body) :
    let final := sources.foldl (fun graph source => graph.unsubscribe source reader) start
    (∀ other, final.sources other = start.sources other) ∧
      (∀ other member, member ∈ final.subscribers other ↔
        member ∈ start.subscribers other ∧ ¬(other ∈ sources ∧ member = reader)) ∧
      final.queue = start.queue ∧ final.depth = start.depth ∧ final.observer = start.observer := by
  induction sources generalizing start with
  | nil => simp
  | cons source rest ih =>
    obtain ⟨sources_eq, subscribers_iff, queue_eq, depth_eq, observer_eq⟩ := ih (start.unsubscribe source reader)
    refine ⟨?_, ?_, queue_eq, depth_eq, observer_eq⟩
    · intro other
      rw [List.foldl_cons, sources_eq, sources_unsubscribe]
    · intro other member
      rw [List.foldl_cons, subscribers_iff, mem_subscribers_unsubscribe, List.mem_cons]
      grind

theorem sources_release (id other : Nat) :
    (graph.release id).sources other = if other = id then [] else graph.sources other := by
  rw [release, (unsubscribeAll_facts id _ _).1, sources_modify]
  split
  · cases graph.vertices[id]? <;> rfl
  · rfl

theorem mem_subscribers_release {id other reader : Nat} :
    reader ∈ (graph.release id).subscribers other ↔
      reader ∈ graph.subscribers other ∧ ¬(other ∈ graph.sources id ∧ reader = id) := by
  rw [release, (unsubscribeAll_facts id _ _).2.1, subscribers_modify_of_same]
  exact fun _ => rfl

@[simp]
theorem queue_release (id : Nat) : (graph.release id).queue = graph.queue :=
  (unsubscribeAll_facts id _ _).2.2.1

@[simp]
theorem depth_release (id : Nat) : (graph.release id).depth = graph.depth :=
  (unsubscribeAll_facts id _ _).2.2.2.1

@[simp]
theorem observer_release (id : Nat) : (graph.release id).observer = graph.observer :=
  (unsubscribeAll_facts id _ _).2.2.2.2

attribute [simp] content?_release size_release

/-! New contents. -/

@[simp]
theorem subscribers_setSignal (id other : Nat) (value : Value) :
    (graph.setSignal id value).subscribers other = graph.subscribers other := by
  rw [setSignal, subscribers_modify_of_same]
  exact fun _ => rfl

@[simp]
theorem sources_setSignal (id other : Nat) (value : Value) :
    (graph.setSignal id value).sources other = graph.sources other := by
  rw [setSignal, sources_modify_of_same]
  exact fun _ => rfl

theorem content?_setSignal (id other : Nat) (value : Value) :
    (graph.setSignal id value).content? other =
      if other = id ∧ id < graph.vertices.size then some (.signal value) else graph.content? other := by
  rw [setSignal, content?_modify]
  by_cases here : other = id
  · subst here
    by_cases inside : other < graph.vertices.size
    · simp [inside]
    · simp [inside, content?]
  · simp [here]

@[simp]
theorem size_setSignal (id : Nat) (value : Value) :
    (graph.setSignal id value).vertices.size = graph.vertices.size := by
  rw [setSignal, size_modify]

@[simp]
theorem subscribers_modifyComputed (id other : Nat) (f : Computed Code → Computed Code) :
    (graph.modifyComputed id f).subscribers other = graph.subscribers other := by
  rw [modifyComputed, subscribers_modify_of_same]
  intro vertex
  split <;> rfl

@[simp]
theorem sources_modifyComputed (id other : Nat) (f : Computed Code → Computed Code) :
    (graph.modifyComputed id f).sources other = graph.sources other := by
  rw [modifyComputed, sources_modify_of_same]
  intro vertex
  split <;> rfl

theorem content?_modifyComputed (id other : Nat) (f : Computed Code → Computed Code) :
    (graph.modifyComputed id f).content? other =
      if other = id then (match graph.content? id with
        | some (.computed computed) => some (.computed (f computed))
        | content => content)
      else graph.content? other := by
  rw [modifyComputed, content?_modify]
  split
  · simp only [content?]
    cases graph.vertices[id]? with
    | none => rfl
    | some vertex => cases kind : vertex.content <;> simp [kind]
  · rfl

theorem content?_modifyComputed_self {id : Nat} {computed : Computed Code} (f : Computed Code → Computed Code)
    (found : graph.content? id = some (.computed computed)) :
    (graph.modifyComputed id f).content? id = some (.computed (f computed)) := by
  rw [content?_modifyComputed, if_pos rfl, found]

theorem content?_modifyComputed_of_ne {id other : Nat} (f : Computed Code → Computed Code) (apart : other ≠ id) :
    (graph.modifyComputed id f).content? other = graph.content? other := by
  rw [content?_modifyComputed, if_neg apart]

@[simp]
theorem size_modifyComputed (id : Nat) (f : Computed Code → Computed Code) :
    (graph.modifyComputed id f).vertices.size = graph.vertices.size := by
  rw [modifyComputed, size_modify]

@[simp]
theorem subscribers_modifyEffect (id other : Nat) (f : Effect Code Body → Effect Code Body) :
    (graph.modifyEffect id f).subscribers other = graph.subscribers other := by
  rw [modifyEffect, subscribers_modify_of_same]
  intro vertex
  split <;> rfl

@[simp]
theorem sources_modifyEffect (id other : Nat) (f : Effect Code Body → Effect Code Body) :
    (graph.modifyEffect id f).sources other = graph.sources other := by
  rw [modifyEffect, sources_modify_of_same]
  intro vertex
  split <;> rfl

theorem content?_modifyEffect (id other : Nat) (f : Effect Code Body → Effect Code Body) :
    (graph.modifyEffect id f).content? other =
      if other = id then (match graph.content? id with
        | some (.effect effect) => some (.effect (f effect))
        | content => content)
      else graph.content? other := by
  rw [modifyEffect, content?_modify]
  split
  · simp only [content?]
    cases graph.vertices[id]? with
    | none => rfl
    | some vertex => cases kind : vertex.content <;> simp [kind]
  · rfl

theorem content?_modifyEffect_self {id : Nat} {effect : Effect Code Body} (f : Effect Code Body → Effect Code Body)
    (found : graph.content? id = some (.effect effect)) :
    (graph.modifyEffect id f).content? id = some (.effect (f effect)) := by
  rw [content?_modifyEffect, if_pos rfl, found]

theorem content?_modifyEffect_of_ne {id other : Nat} (f : Effect Code Body → Effect Code Body) (apart : other ≠ id) :
    (graph.modifyEffect id f).content? other = graph.content? other := by
  rw [content?_modifyEffect, if_neg apart]

@[simp]
theorem size_modifyEffect (id : Nat) (f : Effect Code Body → Effect Code Body) :
    (graph.modifyEffect id f).vertices.size = graph.vertices.size := by
  rw [modifyEffect, size_modify]

@[simp]
theorem leaveBatch_false : graph.leaveBatch false = { graph with depth := graph.depth - 1 } := by
  simp [leaveBatch]

@[simp]
theorem vertices_leaveBatch (panicking : Bool) : (graph.leaveBatch panicking).vertices = graph.vertices := by
  unfold leaveBatch
  dsimp only
  split <;> rfl

@[simp]
theorem content?_leaveBatch (panicking : Bool) (id : Nat) : (graph.leaveBatch panicking).content? id = graph.content? id := by
  rw [leaveBatch]
  dsimp only
  split <;> rfl

theorem content?_add (content : Content Code Body) (other : Nat) :
    (graph.add content).2.content? other =
      if other = graph.vertices.size then some content else graph.content? other := by
  simp only [add, content?, Array.getElem?_push]
  split <;> rfl

@[simp]
theorem subscribers_add (content : Content Code Body) (other : Nat) :
    (graph.add content).2.subscribers other = graph.subscribers other := by
  simp only [add, subscribers, Array.getElem?_push]
  split
  next here => simp [here]
  next => rfl

@[simp]
theorem sources_add (content : Content Code Body) (other : Nat) :
    (graph.add content).2.sources other = graph.sources other := by
  simp only [add, sources, Array.getElem?_push]
  split
  next here => simp [here]
  next => rfl

@[simp]
theorem size_add (content : Content Code Body) :
    (graph.add content).2.vertices.size = graph.vertices.size + 1 := by
  simp [add]

end Graph

end ReactiveMarkup
