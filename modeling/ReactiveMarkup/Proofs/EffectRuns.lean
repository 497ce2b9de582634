import ReactiveMarkup.Proofs.Reading
import ReactiveMarkup.Proofs.Writing

/-! What a graph goes through when an effect runs, rests and ends. -/

namespace ReactiveMarkup.Graph

variable {Code Body : Type} {meaning : Code → Option Query} {graph before middle after : Graph Code Body} {id : Nat}
  {effect : Effect Code Body}

/-- The graph while an effect runs. -/
def running (graph : Graph Code Body) (id : Nat) : Graph Code Body :=
  { (graph.release id).modifyEffect id fun effect => { effect with body := none } with observer := some id }

/-- The graph after an effect has run and left no cleanup. -/
def rested (graph : Graph Code Body) (observer : Option Nat) (id : Nat) (body : Body) : Graph Code Body :=
  ({ graph with observer }.modifyEffect id fun effect => { effect with body := some body }).modifyEffect id
    fun effect => { effect with cleanup := none }

/-- The graph after an effect was disposed of: it waits no more and reads nothing. -/
def ended (graph : Graph Code Body) (id : Nat) : Graph Code Body :=
  (((graph.modifyEffect id fun effect => { effect with disposed := true }).dequeue id).release id).modifyEffect id
    fun effect => { effect with body := none }

theorem content?_running_of_ne {other : Nat} (apart : other ≠ id) : (running graph id).content? other = graph.content? other :=
  (content?_modifyEffect_of_ne _ _ apart).trans (content?_release ..)

theorem content?_running_self (found : graph.content? id = some (.effect effect)) :
    (running graph id).content? id = some (.effect { effect with body := none }) :=
  content?_modifyEffect_self _ _ ((content?_release ..).trans found)

theorem sources_running (other : Nat) : (running graph id).sources other = if other = id then [] else graph.sources other := by
  rw [← sources_release]
  exact sources_modifyEffect ..

theorem symmetric_running (symmetric : graph.Symmetric) : (running graph id).Symmetric :=
  symmetric_of_same (symmetric_release symmetric id) (fun _ => subscribers_modifyEffect ..) fun _ => sources_modifyEffect ..

theorem content?_rested_of_ne {observer : Option Nat} {body : Body} {other : Nat} (apart : other ≠ id) :
    (rested graph observer id body).content? other = graph.content? other :=
  (content?_modifyEffect_of_ne _ _ apart).trans (content?_modifyEffect_of_ne _ _ apart)

theorem content?_rested_self {observer : Option Nat} {body : Body} (found : graph.content? id = some (.effect effect)) :
    (rested graph observer id body).content? id = some (.effect { effect with body := some body, cleanup := none }) :=
  content?_modifyEffect_self _ _ (content?_modifyEffect_self _ _ found)

theorem sources_rested {observer : Option Nat} {body : Body} (other : Nat) : (rested graph observer id body).sources other = graph.sources other :=
  (sources_modifyEffect ..).trans (sources_modifyEffect ..)

theorem symmetric_rested {observer : Option Nat} {body : Body} (symmetric : graph.Symmetric) : (rested graph observer id body).Symmetric :=
  symmetric_of_same (symmetric_of_same symmetric (fun _ => subscribers_modifyEffect ..) fun _ => sources_modifyEffect ..)
    (fun _ => subscribers_modifyEffect ..) fun _ => sources_modifyEffect ..

theorem content?_ended_of_ne {other : Nat} (apart : other ≠ id) : (ended graph id).content? other = graph.content? other := by
  rw [ended, content?_modifyEffect_of_ne _ _ apart, content?_release]
  exact content?_modifyEffect_of_ne _ _ apart

theorem content?_ended_self (found : graph.content? id = some (.effect effect)) :
    (ended graph id).content? id = some (.effect { effect with body := none, disposed := true }) := by
  have marked : (graph.modifyEffect id fun effect => { effect with disposed := true }).content? id =
      some (.effect { effect with disposed := true }) := content?_modifyEffect_self _ _ found
  have released : (((graph.modifyEffect id fun effect => { effect with disposed := true }).dequeue id).release id).content? id =
      some (.effect { effect with disposed := true }) := (content?_release ..).trans marked
  rw [ended, content?_modifyEffect_self _ _ released]

theorem sources_ended (other : Nat) : (ended graph id).sources other = if other = id then [] else graph.sources other := by
  rw [ended, sources_modifyEffect, sources_release]
  split
  · rfl
  · exact sources_modifyEffect ..

theorem queue_ended : (ended graph id).queue = graph.queue.filter (· != id) := queue_release ..

theorem depth_ended : (ended graph id).depth = graph.depth := depth_release ..

theorem symmetric_ended (symmetric : graph.Symmetric) : (ended graph id).Symmetric := by
  refine symmetric_of_same (symmetric_release ?_ id) (fun _ => subscribers_modifyEffect ..)
    fun _ => sources_modifyEffect ..
  exact symmetric_of_same symmetric (fun _ => subscribers_modifyEffect ..) fun _ => sources_modifyEffect ..

theorem isLive_ended (found : graph.content? id = some (.effect effect)) {other : Nat} :
    (ended graph id).IsLive other ↔ graph.IsLive other ∧ other ≠ id := by
  by_cases here : other = id
  · subst here
    simp [IsLive, content?_ended_self found]
  · simp [IsLive, content?_ended_of_ne here, here]

/-- One effect is not as it was. -/
theorem sameCells_of_ne {other : Graph Code Body} {later : Effect Code Body} (found : graph.content? id = some (.effect effect))
    (new : other.content? id = some (.effect later)) (rest : ∀ member, member ≠ id → other.content? member = graph.content? member) :
    SameCells graph other := by
  intro member
  by_cases here : member = id
  · exact .inr ⟨effect, later, here ▸ found, here ▸ new⟩
  · exact .inl (rest member here)

end ReactiveMarkup.Graph
