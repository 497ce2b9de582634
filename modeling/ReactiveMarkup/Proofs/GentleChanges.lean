import ReactiveMarkup.Proofs.SteadyEffects

/-! Changes of the graph that wake no effect without a reason. One that was disposed of, or that reads
nothing and does not wait, is left alone by all of them. -/

namespace ReactiveMarkup.Graph

variable {Code Body : Type} {hosted : Body → Prop} {odd dirty : Nat → Prop} {before middle after graph : Graph Code Body} {id other : Nat}

/-- Whether a member is an effect that was disposed of. -/
def IsDisposed (graph : Graph Code Body) (id : Nat) : Prop :=
  ∃ effect, graph.content? id = some (.effect effect) ∧ effect.disposed = true

/-- Whether a member is an effect without a body: it runs, or was disposed of. -/
def IsVacant (graph : Graph Code Body) (id : Nat) : Prop :=
  ∃ effect, graph.content? id = some (.effect effect) ∧ effect.body = none

/-- Whether a member is an effect that leaves nothing to clean up, and nothing at all once it is disposed of. -/
def IsClean (graph : Graph Code Body) (id : Nat) : Prop :=
  ∃ effect, graph.content? id = some (.effect effect) ∧ effect.cleanup = none ∧ (effect.disposed = true → effect.body = none)

/-- Whether a member is a computed value that is being computed. -/
def IsComputing (graph : Graph Code Body) (id : Nat) : Prop :=
  ∃ computed, graph.content? id = some (.computed computed) ∧ computed.computing = true

/-- An effect that no write wakes: it does not wait, and it was disposed of or reads nothing. -/
structure Inert (graph : Graph Code Body) (id : Nat) : Prop where
  idle : id ∉ graph.queue
  deaf : graph.IsDisposed id ∨ (graph.IsLive id ∧ graph.sources id = [])

theorem IsDisposed.not_isLive (disposed : graph.IsDisposed id) : ¬ graph.IsLive id := by
  rintro ⟨effect, found, awake⟩
  obtain ⟨other, again, gone⟩ := disposed
  cases found.symm.trans again
  cases awake.symm.trans gone

theorem Inert.exists_effect (inert : graph.Inert id) : ∃ effect, graph.content? id = some (.effect effect) := by
  obtain ⟨effect, found, _⟩ | ⟨⟨effect, found, _⟩, _⟩ := inert.deaf <;> exact ⟨effect, found⟩

theorem Steady.isDisposed (steady : before.Steady after) (disposed : before.IsDisposed id) : after.IsDisposed id := by
  obtain ⟨effect, found, gone⟩ := disposed
  obtain ⟨later, foundLater, kept⟩ := steady.effects id effect found
  refine ⟨later, foundLater, ?_⟩
  cases awake : later.disposed with
  | true => rfl
  | false => cases (kept awake).1.symm.trans gone

/-- Nobody lists an effect that reads nothing. -/
theorem Symmetric.not_mem_subscribers (symmetric : graph.Symmetric) (silent : graph.sources id = []) (cell : Nat) :
    id ∉ graph.subscribers cell := by
  rw [symmetric cell id, silent]
  exact List.not_mem_nil

/-- The graph once an effect was marked as disposed of, waits no more and reads nothing. -/
def retire (graph : Graph Code Body) (id : Nat) : Graph Code Body :=
  ((graph.modifyEffect id fun effect => { effect with disposed := true }).dequeue id).release id

theorem content?_retire_of_ne (apart : other ≠ id) : (graph.retire id).content? other = graph.content? other :=
  (content?_release ..).trans (content?_modifyEffect_of_ne graph _ apart)

theorem content?_retire_self {effect : Effect Code Body} (found : graph.content? id = some (.effect effect)) :
    (graph.retire id).content? id = some (.effect { effect with disposed := true }) :=
  (content?_release ..).trans (content?_modifyEffect_self graph _ found)

theorem sources_retire : (graph.retire id).sources other = if other = id then [] else graph.sources other := by
  rw [retire, sources_release]
  split
  · rfl
  · exact sources_modifyEffect ..

theorem queue_retire : (graph.retire id).queue = graph.queue.filter (· != id) := queue_release ..

theorem Kept.retire (fit : graph.Fit hosted) (live : graph.IsLive id) : graph.Kept hosted (graph.retire id) := by
  obtain ⟨effect, found, _⟩ := live
  have marked := Kept.modifyEffect fit id (fun effect => { effect with disposed := true }) nofun fun _ _ same => same
  have foundMarked : (graph.modifyEffect id fun effect => { effect with disposed := true }).content? id =
      some (.effect { effect with disposed := true }) := content?_modifyEffect_self _ _ found
  have dead : ¬ (graph.modifyEffect id fun effect => { effect with disposed := true }).IsLive id := by
    rintro ⟨later, again, awake⟩
    cases foundMarked.symm.trans again
    cases awake
  exact (marked.trans (.dequeue marked.fit dead)).trans (.release (Kept.dequeue marked.fit dead).fit id)

theorem not_isComputing_modifyComputed {f : Computed Code → Computed Code} (still : ∀ computed, (f computed).computing = false) :
    ¬ (graph.modifyComputed id f).IsComputing id := by
  rintro ⟨computed, found, busy⟩
  rw [content?_modifyComputed, if_pos rfl] at found
  split at found
  next earlier _ =>
    cases found
    cases (still earlier).symm.trans busy
  next noComputed => exact noComputed computed found

/-- An effect is not computed, before a step or after it. -/
theorem Steady.not_isComputing (steady : before.Steady after) {effect : Effect Code Body} (found : before.content? id = some (.effect effect)) :
    ¬ after.IsComputing id := by
  rintro ⟨computed, isComputed, _⟩
  obtain ⟨later, foundLater, _⟩ := steady.effects id effect found
  cases isComputed.symm.trans foundLater

/-- What a change leaves alone. An odd member may come to be computed, and a dirty one to have something to clean up. -/
structure Gentle (odd dirty : Nat → Prop) (before after : Graph Code Body) : Prop where
  computing : ∀ id, after.IsComputing id → before.IsComputing id ∨ odd id
  waiting : (∀ id ∈ before.queue, before.IsLive id) → ∀ id ∈ after.queue, after.IsLive id
  vacant : ∀ id, before.IsVacant id → after.IsVacant id
  /-- What was disposed of reads what it has read. -/
  disposed : ∀ id, before.IsDisposed id → after.IsDisposed id ∧ after.sources id = before.sources id
  ended : ∀ id, after.IsDisposed id → before.IsDisposed id ∨ after.sources id = []
  inert : ∀ id, before.Inert id → after.Inert id ∧ after.sources id = before.sources id
  clean : ∀ id, ¬ dirty id → before.IsClean id → after.IsClean id

namespace Gentle

/-- A change of cells, by which only effects that read something may come to wait. -/
theorem of_effects
    (effects : ∀ id effect, after.content? id = some (.effect effect) ↔ before.content? id = some (.effect effect))
    (sources : ∀ id effect, before.content? id = some (.effect effect) → after.sources id = before.sources id)
    (queue : ∀ id ∈ after.queue, id ∈ before.queue ∨ (before.IsLive id ∧ before.sources id ≠ []))
    (computing : ∀ id, after.IsComputing id → before.IsComputing id ∨ odd id) : Gentle odd dirty before after := by
  have live (id : Nat) : after.IsLive id ↔ before.IsLive id := by simp only [IsLive, effects]
  have disposed (id : Nat) : after.IsDisposed id ↔ before.IsDisposed id := by simp only [IsDisposed, effects]
  refine ⟨computing, fun all id member => (live id).2 ?_, fun id => ?_, fun id gone => ?_, fun id gone => .inl ((disposed id).1 gone),
    fun id inert => ?_, fun id _ => ?_⟩
  · exact (queue id member).elim (all id) And.left
  · simp only [IsVacant, effects, imp_self]
  · obtain ⟨effect, found, isGone⟩ := gone
    exact ⟨(disposed id).2 ⟨effect, found, isGone⟩, sources id effect found⟩
  · obtain ⟨effect, found⟩ := inert.exists_effect
    have same := sources id effect found
    refine ⟨⟨fun member => ?_, ?_⟩, same⟩
    · obtain old | ⟨awake, reads⟩ := queue id member
      · exact inert.idle old
      · obtain gone | ⟨_, silent⟩ := inert.deaf
        · exact gone.not_isLive awake
        · exact reads silent
    · rw [disposed, live, same]
      exact inert.deaf
  · simp only [IsClean, effects, imp_self]

theorem modifyComputed (id : Nat) {f : Computed Code → Computed Code}
    (calm : ∀ computed, (f computed).computing = true → computed.computing = true ∨ odd id) :
    Gentle odd dirty graph (graph.modifyComputed id f) := by
  refine .of_effects (fun other effect => ?_) (fun _ _ _ => by simp) (fun _ member => .inl member) fun other busy => ?_
  · rw [content?_modifyComputed]
    split
    next same =>
      subst same
      cases graph.content? other with
      | none => rfl
      | some content => cases content <;> simp
    next => rfl
  · obtain ⟨computed, found, isBusy⟩ := busy
    rw [content?_modifyComputed] at found
    split at found
    next same =>
      subst same
      split at found
      next earlier was =>
        cases found
        exact (calm earlier isBusy).imp_left fun wasBusy => ⟨earlier, was, wasBusy⟩
      next noComputed => exact absurd found (noComputed computed)
    next => exact .inl ⟨computed, found, isBusy⟩

theorem write (symmetric : graph.Symmetric) {cell : Nat} {held : Value} (signal : graph.content? cell = some (.signal held)) (value : Value) :
    Gentle odd dirty graph (graph.write cell value) := by
  refine .of_effects (fun id effect => effect_write symmetric signal value) (fun id effect found => ?_)
    (fun id member => ?_) fun id busy => ?_
  · obtain same | ⟨⟨computed, was, _⟩, _⟩ := (notified_write symmetric cell value).sources id
    · rw [same, sources_setSignal]
    · rw [content?_setSignal, if_neg, found] at was
      · cases was
      · rintro ⟨rfl, _⟩
        cases signal.symm.trans found
  · refine (feeds_of_mem_queue_write symmetric signal member).imp_right fun ⟨feeds, live⟩ => ⟨live, ?_⟩
    cases feeds with
    | direct reads | through _ _ reads => exact List.ne_nil_of_mem reads
  · obtain ⟨computed, found, isBusy⟩ := busy
    obtain ⟨earlier, was, _, same, _⟩ := computed_write symmetric (graph.lt_size_of_content? signal) found
    exact .inl ⟨earlier, was, same ▸ isBusy⟩

/-- An effect that is live forgets what it has read. -/
theorem release (live : graph.IsLive id) : Gentle odd dirty graph (graph.release id) := by
  have same {other : Nat} (apart : other ≠ id) : (graph.release id).sources other = graph.sources other := by
    rw [sources_release, if_neg apart]
  refine ⟨fun other busy => .inl ?_, fun all other => ?_, fun other => ?_, fun other gone => ⟨?_, same ?_⟩, fun other gone => ?_,
    fun other inert => ?_, fun other _ => ?_⟩
  · simpa only [IsComputing, content?_release] using busy
  · simpa only [queue_release, IsLive, content?_release] using all other
  · simp only [IsVacant, content?_release, imp_self]
  · simpa only [IsDisposed, content?_release] using gone
  · rintro rfl
    exact gone.not_isLive live
  · simp only [IsDisposed, content?_release] at gone
    exact .inl gone
  · have silent : (graph.release id).sources other = graph.sources other := by
      by_cases here : other = id
      · subst here
        rw [sources_release, if_pos rfl, (inert.deaf.resolve_left fun gone => gone.not_isLive live).2]
      · exact same here
    refine ⟨⟨by rw [queue_release]; exact inert.idle, ?_⟩, silent⟩
    simpa only [IsDisposed, IsLive, content?_release, silent] using inert.deaf
  · simp only [IsClean, content?_release, imp_self]

/-- A change of one effect that is neither ended by it nor given a body. -/
theorem modifyEffect (id : Nat) {f : Effect Code Body → Effect Code Body} (disposed : ∀ effect, (f effect).disposed = effect.disposed)
    (bodies : ∀ effect body, (f effect).body = some body → effect.body = some body)
    (clean : ¬ dirty id → ∀ effect, effect.cleanup = none → (f effect).cleanup = none) :
    Gentle odd dirty graph (graph.modifyEffect id f) := by
  have contents {other : Nat} {effect : Effect Code Body} (found : graph.content? other = some (.effect effect)) :
      (graph.modifyEffect id f).content? other = some (.effect (if other = id then f effect else effect)) := by
    split
    next here =>
      subst here
      exact content?_modifyEffect_self _ f found
    next apart => exact (content?_modifyEffect_of_ne _ f apart).trans found
  have live {other : Nat} (was : graph.IsLive other) : (graph.modifyEffect id f).IsLive other := by
    obtain ⟨effect, found, awake⟩ := was
    refine ⟨_, contents found, ?_⟩
    split
    · exact (disposed effect).trans awake
    · exact awake
  have dead {other : Nat} (was : graph.IsDisposed other) : (graph.modifyEffect id f).IsDisposed other := by
    obtain ⟨effect, found, gone⟩ := was
    refine ⟨_, contents found, ?_⟩
    split
    · exact (disposed effect).trans gone
    · exact gone
  refine ⟨fun other busy => .inl ?_, fun all other member => live (all other member), fun other vacant => ?_, fun other gone => ⟨dead gone, by simp⟩,
    fun other gone => .inl ?_, fun other inert => ?_, fun other usual was => ?_⟩
  · obtain ⟨computed, found, isBusy⟩ := busy
    by_cases here : other = id
    · subst here
      rw [content?_modifyEffect, if_pos rfl] at found
      split at found
      next => cases found
      next => exact ⟨computed, found, isBusy⟩
    · exact ⟨computed, (content?_modifyEffect_of_ne _ f here).symm.trans found, isBusy⟩
  · obtain ⟨effect, found, missing⟩ := vacant
    refine ⟨_, contents found, ?_⟩
    split
    · cases isBody : (f effect).body with
      | none => rfl
      | some body => cases missing.symm.trans (bodies effect body isBody)
    · exact missing
  · obtain ⟨later, found, isGone⟩ := gone
    obtain ⟨effect, was, rfl | rfl⟩ := exists_of_modifyEffect found
    · exact ⟨_, was, isGone⟩
    · exact ⟨effect, was, (disposed effect).symm.trans isGone⟩
  · refine ⟨⟨inert.idle, ?_⟩, sources_modifyEffect ..⟩
    rw [sources_modifyEffect]
    exact inert.deaf.imp dead (And.imp_left live)
  · obtain ⟨effect, found, noCleanup, dropped⟩ := was
    by_cases here : other = id
    · subst here
      refine ⟨f effect, content?_modifyEffect_self _ f found, clean usual effect noCleanup, fun gone => ?_⟩
      cases isBody : (f effect).body with
      | none => rfl
      | some body => cases (dropped ((disposed effect).symm.trans gone)).symm.trans (bodies effect body isBody)
    · exact ⟨effect, (content?_modifyEffect_of_ne _ f here).trans found, noCleanup, dropped⟩

/-- A new member is a cell, or an effect that is live. -/
theorem add (content : Content Code Body) (awake : ∀ effect, content = .effect effect → effect.disposed = false)
    (still : ∀ computed, content = .computed computed → computed.computing = false) :
    Gentle odd dirty graph (graph.add content).2 := by
  have old {other : Nat} {content' : Content Code Body} (found : graph.content? other = some content') :
      (graph.add content).2.content? other = some content' := by
    have inside := graph.lt_size_of_content? found
    rw [content?_add, if_neg (by omega), found]
  refine ⟨fun other busy => .inl ?_, fun all other member => ?_, fun other vacant => ?_,
    fun other ⟨effect, found, gone⟩ => ⟨⟨effect, old found, gone⟩, by simp⟩, fun other gone => ?_, fun other inert => ?_, fun other _ was => ?_⟩
  · obtain ⟨computed, found, isBusy⟩ := busy
    rw [content?_add] at found
    split at found
    · cases (still computed (Option.some.inj found)).symm.trans isBusy
    · exact ⟨computed, found, isBusy⟩
  · obtain ⟨effect, found, rest⟩ := all other member
    exact ⟨effect, old found, rest⟩
  · obtain ⟨effect, found, missing⟩ := vacant
    exact ⟨effect, old found, missing⟩
  · obtain ⟨effect, found, isGone⟩ := gone
    rw [content?_add] at found
    split at found
    · cases (awake effect (Option.some.inj found)).symm.trans isGone
    · exact .inl ⟨effect, found, isGone⟩
  · refine ⟨⟨inert.idle, ?_⟩, sources_add ..⟩
    rw [sources_add]
    exact inert.deaf.imp (fun ⟨effect, found, gone⟩ => ⟨effect, old found, gone⟩)
      (And.imp_left fun ⟨effect, found, awake⟩ => ⟨effect, old found, awake⟩)
  · obtain ⟨effect, found, rest⟩ := was
    exact ⟨effect, old found, rest⟩

theorem retire (live : graph.IsLive id) : Gentle odd (· = id) graph (graph.retire id) := by
  obtain ⟨effect, found, awake⟩ := live
  have here := content?_retire_self found
  have others {other : Nat} (apart : other ≠ id) : (graph.retire id).content? other = graph.content? other := content?_retire_of_ne apart
  refine ⟨fun other busy => .inl ?_, fun all other member => ?_, fun other vacant => ?_, fun other gone => ?_, fun other gone => ?_, fun other inert => ?_, fun other apart was => ?_⟩
  · obtain ⟨computed, again, isBusy⟩ := busy
    by_cases same : other = id
    · subst same
      cases here.symm.trans again
    · exact ⟨computed, (others same).symm.trans again, isBusy⟩
  · rw [queue_retire, List.mem_filter] at member
    have apart : other ≠ id := by simpa using member.2
    obtain ⟨content, again, stillAwake⟩ := all other member.1
    exact ⟨content, (others apart).trans again, stillAwake⟩
  · obtain ⟨content, again, missing⟩ := vacant
    by_cases same : other = id
    · subst same
      cases found.symm.trans again
      exact ⟨_, here, missing⟩
    · exact ⟨content, (others same).trans again, missing⟩
  · have apart : other ≠ id := by
      rintro rfl
      exact gone.not_isLive ⟨effect, found, awake⟩
    exact ⟨by simpa only [IsDisposed, others apart] using gone, by rw [sources_retire, if_neg apart]⟩
  · obtain ⟨content, again, isGone⟩ := gone
    by_cases same : other = id
    · exact .inr (by rw [sources_retire, if_pos same])
    · exact .inl ⟨content, (others same).symm.trans again, isGone⟩
  · have idle : other ∉ (graph.retire id).queue := fun member => inert.idle (List.mem_filter.1 (queue_retire ▸ member)).1
    by_cases same : other = id
    · subst same
      have silent := (inert.deaf.resolve_left fun gone => gone.not_isLive ⟨effect, found, awake⟩).2
      exact ⟨⟨idle, .inl ⟨_, here, rfl⟩⟩, by rw [sources_retire, if_pos rfl, silent]⟩
    · have silent : (graph.retire id).sources other = graph.sources other := by rw [sources_retire, if_neg same]
      refine ⟨⟨idle, ?_⟩, silent⟩
      simpa only [IsDisposed, IsLive, others same, silent] using inert.deaf
  · obtain ⟨content, again, rest⟩ := was
    exact ⟨content, (others apart).trans again, rest⟩

end Gentle

end ReactiveMarkup.Graph
