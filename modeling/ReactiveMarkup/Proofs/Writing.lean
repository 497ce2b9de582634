import ReactiveMarkup.Proofs.Query

/-! Writing a signal and telling its readers. Whatever is still up to date, or was not made to
wait, has read nothing that depends on the signal; so the graph stays coherent. -/

namespace ReactiveMarkup

variable {Code Body : Type} {meaning : Code → Option Query}

/-- A value that was read from intact cells is returned still. Intact cells are as they were,
and if they are computed values that were up to date, so are their sources. -/
theorem Query.Returns.of_intact {before after : Graph Code Body} (coherent : before.Coherent meaning)
    (intact : Nat → Prop) (same : ∀ cell, intact cell → after.content? cell = before.content? cell)
    (closed : ∀ cell, intact cell → before.isFresh cell = true → ∀ source ∈ before.sources cell, intact source)
    {query : Query} {value : Value} (returned : query.Returns meaning before value) {cells : Nat → Prop}
    (reads : query.Reads before cells value) (within : ∀ cell, cells cell → intact cell) :
    query.Returns meaning after value := by
  induction returned generalizing cells with
  | answer value => exact .answer value
  | signal found _ ih =>
    cases reads with
    | read inside holds rest =>
      simp only [Graph.current?, found, Option.some.injEq] at holds
      subst holds
      exact .signal ((same _ (within _ inside)).trans found) (ih rest within)
  | @computed cell next held result computed query found means returned _ inner outer =>
    cases reads with
    | read inside holds rest =>
      simp only [Graph.current?, found] at holds
      split at holds
      next => cases holds
      next upToDate =>
        have fresh : computed.stale = false := by simpa using upToDate
        obtain ⟨stored, sameValue, readsInner, returnedInner⟩ := coherent.fresh cell computed query found fresh means
        rw [sameValue] at holds
        cases holds
        cases returnedInner.unique returned
        have isFresh : before.isFresh cell = true := Graph.isFresh_iff.2 ⟨computed, found, fresh⟩
        exact .computed ((same _ (within _ inside)).trans found) means
          (inner readsInner (closed cell (within _ inside) isFresh)) (outer rest within)

namespace Graph

/-- The graph after a signal was written and its readers were told. -/
def write (graph : Graph Code Body) (cell : Nat) (value : Value) : Graph Code Body :=
  (graph.setSignal cell value).notifyReaders cell

variable {graph : Graph Code Body} {cell : Nat} {value : Value}

theorem notified_write (symmetric : graph.Symmetric) (cell : Nat) (value : Value) :
    Notified (graph.setSignal cell value) (graph.write cell value) (graph.subscribers cell) := by
  have notified := notified_notify (graph.setSignal cell value) ((graph.setSignal cell value).subscribers cell)
    (symmetric_of_same symmetric (by simp) (by simp))
  simpa [write, notifyReaders] using notified

theorem size_write (symmetric : graph.Symmetric) (cell : Nat) (value : Value) : (graph.write cell value).vertices.size = graph.vertices.size :=
  (notified_write symmetric cell value).size.trans (size_setSignal ..)

theorem depth_write (symmetric : graph.Symmetric) (cell : Nat) (value : Value) : (graph.write cell value).depth = graph.depth :=
  (notified_write symmetric cell value).depth

/-- What was not told of a write does not read the signal, nor anything else that has changed. -/
theorem untold_write (symmetric : graph.Symmetric) {reader : Nat} (untold : ¬ (graph.write cell value).Told reader) :
    (graph.write cell value).sources reader = graph.sources reader ∧ cell ∉ graph.sources reader ∧
      ∀ source ∈ graph.sources reader, (graph.write cell value).content? source = graph.content? source := by
  have notified := notified_write symmetric cell value
  have setSymmetric : (graph.setSignal cell value).Symmetric := symmetric_of_same symmetric (by simp) (by simp)
  obtain ⟨sources, contents⟩ := notified.untold setSymmetric untold
  simp only [sources_setSignal] at sources contents
  have apart : cell ∉ graph.sources reader := fun member =>
    untold (notified.told reader ((symmetric cell reader).2 member))
  refine ⟨sources, apart, fun source member => ?_⟩
  rw [contents source member, content?_setSignal, if_neg]
  rintro ⟨rfl, _⟩
  exact apart member

theorem content?_write_of_ne (symmetric : graph.Symmetric) {other : Nat} (apart : other ≠ cell) :
    (graph.write cell value).content? other = graph.content? other ∨
      Expired graph (graph.write cell value) other := by
  have notified := notified_write symmetric cell value
  have same : (graph.setSignal cell value).content? other = graph.content? other := by
    rw [content?_setSignal, if_neg fun both => apart both.1]
  refine (notified.content other).imp (fun kept => kept.trans same) ?_
  rintro ⟨computed, old, rest⟩
  exact ⟨computed, same ▸ old, rest⟩

theorem content?_write_self (symmetric : graph.Symmetric) (inside : cell < graph.vertices.size) :
    (graph.write cell value).content? cell = some (.signal value) := by
  have notified := notified_write symmetric cell value
  have found : (graph.setSignal cell value).content? cell = some (.signal value) := by
    rw [content?_setSignal, if_pos ⟨rfl, inside⟩]
  rcases notified.content cell with kept | ⟨computed, old, _⟩
  · rw [kept, found]
  · rw [found] at old
    cases old

/-- A write changes no effect. -/
theorem effect_write {held : Value} (symmetric : graph.Symmetric) (signal : graph.content? cell = some (.signal held)) (value : Value)
    {id : Nat} {effect : Effect Code Body} :
    (graph.write cell value).content? id = some (.effect effect) ↔ graph.content? id = some (.effect effect) := by
  by_cases here : id = cell
  · subst here
    simp [signal, content?_write_self symmetric (graph.lt_size_of_content? signal)]
  · rcases content?_write_of_ne symmetric here with same | ⟨_, old, _, new⟩
    · rw [same]
    · simp [old, new]

/-- A computed value after a write is one from before, perhaps out of date now. -/
theorem computed_write (symmetric : graph.Symmetric) (inside : cell < graph.vertices.size) {id : Nat}
    {computed : Computed Code} (found : (graph.write cell value).content? id = some (.computed computed)) :
    ∃ earlier, graph.content? id = some (.computed earlier) ∧ earlier.code = computed.code ∧
      earlier.computing = computed.computing ∧ (computed.stale = false → earlier = computed) := by
  have apart : id ≠ cell := by
    rintro rfl
    rw [content?_write_self symmetric inside] at found
    cases found
  rcases content?_write_of_ne symmetric apart with same | ⟨earlier, old, _, new⟩
  · exact ⟨computed, same ▸ found, rfl, rfl, fun _ => rfl⟩
  · rw [new] at found
    cases found
    exact ⟨earlier, old, rfl, rfl, fun fresh => by cases fresh⟩

theorem Coherent.write (coherent : graph.Coherent meaning) (inside : cell < graph.vertices.size) :
    (graph.write cell value).Coherent meaning := by
  have symmetric := coherent.symmetric
  have untold {id : Nat} (fresh : (graph.write cell value).isFresh id = true) :
      ¬ (graph.write cell value).Told id := by
    rintro ⟨stale, _⟩
    rw [fresh] at stale
    cases stale
  refine ⟨(notified_write symmetric cell value).symmetric, ?_, ?_⟩
  · intro id computed found
    obtain ⟨earlier, old, code, _⟩ := computed_write symmetric inside found
    exact code ▸ coherent.meant id earlier old
  · intro id computed query found fresh means
    obtain ⟨earlier, old, _, _, same⟩ := computed_write symmetric inside found
    cases same fresh
    obtain ⟨held, stored, reads, returned⟩ := coherent.fresh id computed query old fresh means
    obtain ⟨sources, _, contents⟩ := untold_write symmetric (untold (isFresh_iff.2 ⟨computed, found, fresh⟩))
    refine ⟨held, stored, reads.mono (fun source member => ?_) fun source member value holds => ?_, ?_⟩
    · rw [sources]
      exact member
    · rw [current?_congr (contents source member), holds]
    · refine returned.of_intact coherent (fun other => (graph.write cell value).content? other = graph.content? other)
        (fun _ same => same) ?_ reads contents
      intro other same freshOther source member
      exact (untold_write symmetric (untold ((isFresh_congr same).trans freshOther))).2.2 source member

/-- Whether the word of a change comes from a cell to a reader: it reads the cell, or a computed value
that is up to date and that the word comes to. One that is out of date passes nothing on. -/
inductive Feeds (graph : Graph Code Body) (cell : Nat) : Nat → Prop where
  | direct {reader : Nat} (reads : cell ∈ graph.sources reader) : Feeds graph cell reader
  | through {middle reader : Nat} (feeds : Feeds graph cell middle) (fresh : graph.isFresh middle = true)
    (reads : middle ∈ graph.sources reader) : Feeds graph cell reader

/-- All that a signal feeds are told of a write. -/
theorem told_of_feeds (symmetric : graph.Symmetric) {held : Value} (signal : graph.content? cell = some (.signal held)) (value : Value)
    {reader : Nat} (feeds : graph.Feeds cell reader) : (graph.write cell value).Told reader := by
  have notified := notified_write symmetric cell value
  induction feeds with
  | direct reads => exact notified.told _ ((symmetric ..).2 reads)
  | @through middle reader _ fresh reads ih =>
    have apart : middle ≠ cell := by
      rintro rfl
      obtain ⟨computed, found, _⟩ := isFresh_iff.1 fresh
      cases found.symm.trans signal
    have expired : Expired (graph.setSignal cell value) (graph.write cell value) middle := by
      refine (notified.content middle).resolve_left fun same => ?_
      rw [content?_setSignal, if_neg fun both => apart both.1] at same
      exact absurd ((isFresh_congr same).trans fresh) (by simp [ih.1])
    refine notified.spread middle expired reader ?_
    rw [subscribers_setSignal]
    exact (symmetric ..).2 reads

/-- Only what a signal feeds is made to wait by a write. -/
theorem feeds_of_mem_queue_write (symmetric : graph.Symmetric) {held : Value} (signal : graph.content? cell = some (.signal held))
    {reader : Nat} (waits : reader ∈ (graph.write cell value).queue) :
    reader ∈ graph.queue ∨ (graph.Feeds cell reader ∧ graph.IsLive reader) := by
  have apart {middle : Nat} (fresh : (graph.setSignal cell value).isFresh middle = true) : middle ≠ cell := by
    rintro rfl
    obtain ⟨computed, found, _⟩ := isFresh_iff.1 fresh
    rw [content?_setSignal, if_pos ⟨rfl, graph.lt_size_of_content? signal⟩] at found
    cases found
  have same {other : Nat} (distinct : other ≠ cell) : (graph.setSignal cell value).content? other = graph.content? other := by
    rw [content?_setSignal, if_neg fun both => distinct both.1]
  have first (reader : Nat) (reads : reader ∈ (graph.setSignal cell value).subscribers cell) : graph.Feeds cell reader := by
    rw [subscribers_setSignal] at reads
    exact .direct ((symmetric ..).1 reads)
  have spread (middle reader : Nat) (feeds : graph.Feeds cell middle) (fresh : (graph.setSignal cell value).isFresh middle = true)
      (reads : reader ∈ (graph.setSignal cell value).subscribers middle) : graph.Feeds cell reader := by
    rw [subscribers_setSignal] at reads
    exact .through feeds ((isFresh_congr (same (apart fresh))).symm.trans fresh) ((symmetric ..).1 reads)
  refine (mem_queue_notify (graph.Feeds cell) first spread waits).imp_right fun ⟨feeds, effect, found, awake⟩ => ⟨feeds, effect, ?_, awake⟩
  have distinct : reader ≠ cell := by
    rintro rfl
    rw [content?_setSignal, if_pos ⟨rfl, graph.lt_size_of_content? signal⟩] at found
    cases found
  exact (same distinct).symm.trans found

/-- A computed value that goes out of date by a write reads nothing any more. -/
theorem sources_write_of_expired (symmetric : graph.Symmetric) {held : Value} (signal : graph.content? cell = some (.signal held)) {id : Nat}
    (expired : Expired graph (graph.write cell value) id) : (graph.write cell value).sources id = [] := by
  refine sources_of_expired _ _ (symmetric_of_same symmetric (by simp) (by simp)) ?_
  obtain ⟨computed, found, rest⟩ := expired
  refine ⟨computed, ?_, rest⟩
  rw [content?_setSignal, if_neg, found]
  rintro ⟨rfl, _⟩
  cases found.symm.trans signal

end Graph

end ReactiveMarkup
