import ReactiveMarkup.Proofs.GraphLaws

/-! Telling readers of a change. A reader that was not told, neither by going stale nor by
being made to wait, reads nothing that has changed. -/

namespace ReactiveMarkup.Graph

variable {Code Body : Type}

/-- Whoever is among the readers of a source has it among its sources, and the other way. -/
def Symmetric (graph : Graph Code Body) : Prop :=
  ∀ source reader, reader ∈ graph.subscribers source ↔ source ∈ graph.sources reader

/-- Whether a member is an effect that has not been disposed. -/
def IsLive (graph : Graph Code Body) (id : Nat) : Prop :=
  ∃ effect, graph.content? id = some (.effect effect) ∧ effect.disposed = false

theorem isLive_of_effect? {graph : Graph Code Body} {id : Nat} (awake : (graph.effect? id).map Effect.disposed = some false) : graph.IsLive id := by
  obtain ⟨effect, found, same⟩ := Option.map_eq_some_iff.1 awake
  exact ⟨effect, graph.effect?_eq_some.1 found, same⟩

/-- What a cell holds: a signal's value, or that of a computed value that is up to date. -/
def current? (graph : Graph Code Body) (id : Nat) : Option Value :=
  match graph.content? id with
  | some (.signal value) => some value
  | some (.computed computed) => if computed.stale then none else computed.value
  | _ => none

theorem isFresh_iff {graph : Graph Code Body} {id : Nat} :
    graph.isFresh id = true ↔ ∃ computed, graph.content? id = some (.computed computed) ∧ computed.stale = false := by
  unfold isFresh computed?
  split
  next found =>
    split at found
    next content => simp_all
    next => simp at found
  next missing =>
    split at missing
    next => simp at missing
    next other =>
      simp only [Bool.false_eq_true, false_iff]
      rintro ⟨computed, found, _⟩
      exact other computed found

theorem isFresh_congr {graph other : Graph Code Body} {id : Nat} (same : other.content? id = graph.content? id) :
    other.isFresh id = graph.isFresh id := by
  simp only [isFresh, computed?, same]

theorem current?_congr {graph other : Graph Code Body} {id : Nat} (same : other.content? id = graph.content? id) :
    other.current? id = graph.current? id := by
  simp only [current?, same]

theorem symmetric_of_same {graph other : Graph Code Body} (symmetric : graph.Symmetric)
    (subscribers : ∀ id, other.subscribers id = graph.subscribers id)
    (sources : ∀ id, other.sources id = graph.sources id) : other.Symmetric := by
  intro source reader
  rw [subscribers, sources]
  exact symmetric source reader

theorem symmetric_release {graph : Graph Code Body} (symmetric : graph.Symmetric) (id : Nat) :
    (graph.release id).Symmetric := by
  intro source reader
  rw [mem_subscribers_release, sources_release]
  by_cases here : reader = id
  · subst here
    have same := symmetric source reader
    simp only [if_true, List.not_mem_nil, iff_false]
    grind
  · simp only [here, and_false, not_false_eq_true, and_true, if_false]
    exact symmetric source reader

theorem symmetric_track {graph : Graph Code Body} (symmetric : graph.Symmetric) {source : Nat}
    (inside : source < graph.vertices.size)
    (observing : ∀ observer, graph.observer = some observer → observer < graph.vertices.size) :
    (graph.track source).Symmetric := by
  intro other reader
  rw [mem_subscribers_track, mem_sources_track, symmetric other reader]
  constructor
  · rintro (old | ⟨observed, rfl, _⟩)
    · exact .inl old
    · exact .inr ⟨observed, rfl, observing _ observed⟩
  · rintro (old | ⟨observed, rfl, _⟩)
    · exact .inl old
    · exact .inr ⟨observed, rfl, inside⟩

/-- A reader that has been told of a change is not up to date and, if it is a live effect,
waits to run. -/
def Told (graph : Graph Code Body) (id : Nat) : Prop :=
  graph.isFresh id = false ∧ (graph.IsLive id → id ∈ graph.queue)

/-- The computed values that went stale from one graph to another. -/
def Expired (before after : Graph Code Body) (id : Nat) : Prop :=
  ∃ computed, before.content? id = some (.computed computed) ∧ computed.stale = false ∧
    after.content? id = some (.computed { computed with stale := true })

/-- What telling some members amounts to. -/
structure Notified (before after : Graph Code Body) (pending : List Nat) : Prop where
  symmetric : after.Symmetric
  size : after.vertices.size = before.vertices.size
  observer : after.observer = before.observer
  depth : after.depth = before.depth
  content : ∀ id, after.content? id = before.content? id ∨ Expired before after id
  sources : ∀ id, after.sources id = before.sources id ∨ (Expired before after id ∧ after.sources id = [])
  queue : before.queue ⊆ after.queue
  told : ∀ id ∈ pending, after.Told id
  /-- The word is passed on by all that expire. -/
  spread : ∀ id, Expired before after id → ∀ reader ∈ before.subscribers id, after.Told reader

namespace Notified

variable {before after : Graph Code Body} {pending : List Nat}

theorem isLive_iff (notified : Notified before after pending) (id : Nat) : after.IsLive id ↔ before.IsLive id := by
  rcases notified.content id with same | ⟨computed, old, _, new⟩
  · simp only [IsLive, same]
  · simp [IsLive, old, new]

theorem not_fresh (notified : Notified before after pending) {id : Nat} (stale : before.isFresh id = false) :
    after.isFresh id = false := by
  rcases notified.content id with same | ⟨computed, old, fresh, _⟩
  · rw [isFresh_congr same, stale]
  · rw [isFresh_iff.2 ⟨computed, old, fresh⟩] at stale
    cases stale

end Notified

theorem content?_expire (graph : Graph Code Body) (id other : Nat) :
    (graph.expire id).content? other =
      if other = id then (match graph.content? id with
        | some (.computed computed) => some (.computed { computed with stale := true })
        | content => content)
      else graph.content? other :=
  (content?_release _ _ _).trans (content?_modifyComputed _ _ _ _)

theorem sources_expire (graph : Graph Code Body) (id other : Nat) :
    (graph.expire id).sources other = if other = id then [] else graph.sources other := by
  rw [expire, sources_release]
  simp

theorem mem_subscribers_expire {graph : Graph Code Body} {id other reader : Nat} :
    reader ∈ (graph.expire id).subscribers other ↔
      reader ∈ graph.subscribers other ∧ ¬(other ∈ graph.sources id ∧ reader = id) := by
  rw [expire, mem_subscribers_release]
  simp

theorem symmetric_expire {graph : Graph Code Body} (symmetric : graph.Symmetric) (id : Nat) :
    (graph.expire id).Symmetric :=
  symmetric_release (symmetric_of_same symmetric (by simp) (by simp)) id

private theorem not_isLive_of_isFresh {graph : Graph Code Body} {id : Nat} (fresh : graph.isFresh id = true) :
    ¬ graph.IsLive id := by
  obtain ⟨computed, found, _⟩ := isFresh_iff.1 fresh
  rintro ⟨effect, other, _⟩
  rw [found] at other
  cases other

/-- A member that was up to date and expires has been told as soon as its readers are. -/
private theorem notified_of_expire {graph after : Graph Code Body} {id : Nat} {rest : List Nat}
    (fresh : graph.isFresh id = true)
    (notified : Notified (graph.expire id) after ((graph.expire id).subscribers id ++ rest)) :
    Notified graph after (id :: rest) := by
  obtain ⟨computed, found, upToDate⟩ := isFresh_iff.1 fresh
  have expired_id : Expired graph after id := by
    rcases notified.content id with same | ⟨other, old, stillFresh, _⟩
    · refine ⟨computed, found, upToDate, ?_⟩
      rw [same, content?_expire, if_pos rfl, found]
    · rw [content?_expire, if_pos rfl, found] at old
      simp only [Option.some.injEq, Content.computed.injEq] at old
      subst old
      simp at stillFresh
  have told_id : after.Told id := by
    refine ⟨notified.not_fresh (by simp [isFresh_expire]), fun live => ?_⟩
    obtain ⟨_, _, _, new⟩ := expired_id
    obtain ⟨effect, other, _⟩ := live
    rw [new] at other
    cases other
  have expired_iff (other : Nat) (apart : other ≠ id) :
      Expired (graph.expire id) after other ↔ Expired graph after other := by
    simp only [Expired, content?_expire, if_neg apart]
  refine ⟨notified.symmetric, ?_, ?_, ?_, ?_, ?_, ?_, ?_, ?_⟩
  · rw [notified.size, size_expire]
  · rw [notified.observer]; simp [expire, modifyComputed, modify]
  · rw [notified.depth]; simp [expire, modifyComputed, modify]
  · intro other
    by_cases here : other = id
    · exact .inr (here ▸ expired_id)
    · refine (notified.content other).imp (fun same => ?_) (expired_iff other here).1
      rw [same, content?_expire, if_neg here]
  · intro other
    by_cases here : other = id
    · subst here
      refine .inr ⟨expired_id, ?_⟩
      rcases notified.sources other with same | ⟨_, gone⟩
      · rw [same, sources_expire, if_pos rfl]
      · exact gone
    · refine (notified.sources other).imp (fun same => ?_) (And.imp_left (expired_iff other here).1)
      rw [same, sources_expire, if_neg here]
  · intro other member
    refine notified.queue ?_
    simpa [expire, modifyComputed, modify] using member
  · intro other member
    rcases List.mem_cons.1 member with rfl | member
    · exact told_id
    · exact notified.told other (List.mem_append_right _ member)
  · intro other expired reader reads
    by_cases same : reader = id
    · exact same ▸ told_id
    have kept : reader ∈ (graph.expire id).subscribers other :=
      mem_subscribers_expire.2 ⟨reads, fun both => same both.2⟩
    by_cases here : other = id
    · subst here
      exact notified.told reader (List.mem_append_left _ kept)
    · exact notified.spread other ((expired_iff other here).2 expired) reader kept

private theorem content?_wake (graph : Graph Code Body) (id other : Nat) :
    (graph.wake id).content? other = graph.content? other := by
  unfold wake
  split
  · split <;> rfl
  · rfl

/-- A member that is not up to date has been told once it waits. -/
private theorem notified_of_wake {graph after : Graph Code Body} {id : Nat} {rest : List Nat}
    (stale : graph.isFresh id = false) (notified : Notified (graph.wake id) after rest) :
    Notified graph after (id :: rest) := by
  have same (other : Nat) : (graph.wake id).content? other = graph.content? other := content?_wake graph id other
  have expired_iff (other : Nat) : Expired (graph.wake id) after other ↔ Expired graph after other := by
    simp only [Expired, same]
  have parts : (graph.wake id).vertices = graph.vertices ∧ (graph.wake id).observer = graph.observer ∧
      (graph.wake id).depth = graph.depth ∧ graph.queue ⊆ (graph.wake id).queue := by
    unfold wake
    split
    · split
      · simp
      · refine ⟨rfl, rfl, rfl, fun other member => ?_⟩
        simp [enqueue, member]
    · simp
  have waits (live : graph.IsLive id) : id ∈ (graph.wake id).queue := by
    obtain ⟨effect, found, awake⟩ := live
    simp [wake, effect?, found, awake, enqueue]
  have subscribers (other : Nat) : (graph.wake id).subscribers other = graph.subscribers other := by
    simp only [Graph.subscribers, parts.1]
  refine ⟨notified.symmetric, ?_, ?_, ?_, ?_, ?_, ?_, ?_, ?_⟩
  · rw [notified.size, parts.1]
  · rw [notified.observer, parts.2.1]
  · rw [notified.depth, parts.2.2.1]
  · intro other
    exact (notified.content other).imp (·.trans (same other)) (expired_iff other).1
  · intro other
    refine (notified.sources other).imp (fun kept => ?_) (And.imp_left (expired_iff other).1)
    rw [kept]
    simp only [Graph.sources, parts.1]
  · exact fun other member => notified.queue (parts.2.2.2 member)
  · intro other member
    rcases List.mem_cons.1 member with rfl | member
    · refine ⟨notified.not_fresh ?_, fun live => notified.queue (waits ?_)⟩
      · rw [isFresh_congr (same _), stale]
      · obtain ⟨effect, found, awake⟩ := (notified.isLive_iff _).1 live
        exact ⟨effect, (same _).symm.trans found, awake⟩
    · exact notified.told other member
  · intro other expired reader reads
    exact notified.spread other ((expired_iff other).2 expired) reader ((subscribers other).symm ▸ reads)

private theorem symmetric_wake {graph : Graph Code Body} (symmetric : graph.Symmetric) (id : Nat) : (graph.wake id).Symmetric := by
  refine symmetric_of_same symmetric (fun other => ?_) (fun other => ?_) <;>
  · unfold wake
    split
    · split <;> rfl
    · rfl

theorem notified_notify (graph : Graph Code Body) (pending : List Nat) (symmetric : graph.Symmetric) :
    Notified graph (graph.notify pending) pending := by
  fun_induction notify graph pending with
  | case1 graph =>
    have none (id : Nat) : ¬ Expired graph graph id := by
      rintro ⟨computed, found, fresh, stale⟩
      rw [found] at stale
      simp only [Option.some.injEq, Content.computed.injEq] at stale
      rw [stale] at fresh
      cases fresh
    exact ⟨symmetric, rfl, rfl, rfl, fun _ => .inl rfl, fun _ => .inl rfl, fun _ member => member, by simp,
      fun id expired => absurd expired (none id)⟩
  | case2 graph id rest fresh ih => exact notified_of_expire fresh (ih (symmetric_expire symmetric id))
  | case3 graph id rest stale ih =>
    exact notified_of_wake (by simpa using stale) (ih (symmetric_wake symmetric id))

/-- A reader that was not told still has its sources, and none of them has changed. -/
theorem Notified.untold {before after : Graph Code Body} {pending : List Nat}
    (notified : Notified before after pending) (symmetric : before.Symmetric) {reader : Nat}
    (untold : ¬ after.Told reader) :
    after.sources reader = before.sources reader ∧
      ∀ source ∈ before.sources reader, after.content? source = before.content? source := by
  constructor
  · refine (notified.sources reader).resolve_right ?_
    rintro ⟨⟨computed, _, _, new⟩, _⟩
    refine untold ⟨?_, ?_⟩
    · rw [← Bool.not_eq_true, isFresh_iff]
      rintro ⟨other, found, fresh⟩
      rw [new] at found
      simp only [Option.some.injEq, Content.computed.injEq] at found
      rw [← found] at fresh
      cases fresh
    · rintro ⟨effect, found, _⟩
      rw [new] at found
      cases found
  · intro source reads
    refine (notified.content source).resolve_right fun expired => untold ?_
    exact notified.spread source expired reader ((symmetric source reader).2 reads)

/-- What expires reads nothing any more. -/
theorem sources_of_expired (graph : Graph Code Body) (pending : List Nat) (symmetric : graph.Symmetric) {id : Nat}
    (expired : Expired graph (graph.notify pending) id) : (graph.notify pending).sources id = [] := by
  fun_induction notify graph pending with
  | case1 graph =>
    obtain ⟨computed, found, fresh, stale⟩ := expired
    have same := congrArg Computed.stale (Content.computed.inj (Option.some.inj (found.symm.trans stale)))
    rw [fresh] at same
    cases same
  | case2 graph first rest fresh ih =>
    have notified := notified_notify (graph.expire first) ((graph.expire first).subscribers first ++ rest) (symmetric_expire symmetric first)
    by_cases here : id = first
    · subst here
      obtain same | ⟨_, gone⟩ := notified.sources id
      · rw [same, sources_expire, if_pos rfl]
      · exact gone
    · refine ih (symmetric_expire symmetric first) ?_
      simpa only [Expired, content?_expire, if_neg here] using expired
  | case3 graph first rest stale ih =>
    refine ih (symmetric_wake symmetric first) ?_
    simpa only [Expired, content?_wake] using expired

/-- Whoever is made to wait is live, and the word comes to it by way of what was up to date. -/
theorem mem_queue_notify {graph : Graph Code Body} {pending : List Nat} (reached : Nat → Prop) (first : ∀ id ∈ pending, reached id)
    (spread : ∀ middle reader, reached middle → graph.isFresh middle = true → reader ∈ graph.subscribers middle → reached reader)
    {id : Nat} (waits : id ∈ (graph.notify pending).queue) : id ∈ graph.queue ∨ (reached id ∧ graph.IsLive id) := by
  fun_induction notify graph pending with
  | case1 => exact .inl waits
  | case2 graph next rest fresh ih =>
    refine (ih (fun other member => ?_) (fun middle reader word stillFresh reads => ?_) waits).imp (fun old => ?_) fun ⟨word, effect, found, awake⟩ => ⟨word, ?_⟩
    · obtain reads | member := List.mem_append.1 member
      · exact spread next other (first next List.mem_cons_self) fresh (mem_subscribers_expire.1 reads).1
      · exact first other (List.mem_cons_of_mem _ member)
    · rw [isFresh_expire] at stillFresh
      exact spread middle reader word (Bool.and_eq_true_iff.1 stillFresh).1 (mem_subscribers_expire.1 reads).1
    · simpa [expire, modifyComputed, modify] using old
    · rw [content?_expire] at found
      split at found
      · cases kind : graph.content? next with
        | none => simp [kind] at found
        | some content => cases content <;> simp_all [IsLive]
      · exact ⟨effect, found, awake⟩
  | case3 graph next rest stale ih =>
    have subscribers (other : Nat) : (graph.wake next).subscribers other = graph.subscribers other := by
      unfold wake
      split
      · split <;> rfl
      · rfl
    have spreadWake (middle reader : Nat) (word : reached middle) (fresh : (graph.wake next).isFresh middle = true)
        (reads : reader ∈ (graph.wake next).subscribers middle) : reached reader :=
      spread middle reader word ((isFresh_congr (content?_wake ..)).symm.trans fresh) (subscribers middle ▸ reads)
    obtain old | ⟨word, effect, found, awake⟩ := ih (fun other member => first other (List.mem_cons_of_mem _ member)) spreadWake waits
    · unfold wake at old
      split at old
      next effect found =>
        split at old
        next => exact .inl old
        next awake =>
          obtain old | rfl := mem_insertNew.1 old
          · exact .inl old
          · exact .inr ⟨first id List.mem_cons_self, effect, graph.effect?_eq_some.1 found, by simpa using awake⟩
      next => exact .inl old
    · exact .inr ⟨word, effect, (content?_wake ..).symm.trans found, awake⟩

/-- Nobody waits twice. -/
theorem nodup_queue_notify {graph : Graph Code Body} {pending : List Nat} (once : graph.queue.Nodup) : (graph.notify pending).queue.Nodup := by
  fun_induction notify graph pending with
  | case1 => exact once
  | case2 graph next rest fresh ih => exact ih (by simpa [expire, modifyComputed, modify] using once)
  | case3 graph next rest stale ih =>
    refine ih ?_
    unfold wake
    split
    · split
      · exact once
      · exact nodup_insertNew once _
    · exact once

end ReactiveMarkup.Graph
