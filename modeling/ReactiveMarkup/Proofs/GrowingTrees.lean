import ReactiveMarkup.Proofs.TreeShapes
import ReactiveMarkup.Proofs.ListPass
import ReactiveMarkup.Proofs.Looking

/-! What steps on trees keep however they end. Trees grow at new nodes only and stay trees, a step in a batch
changes nothing but what is below the nodes that it is about, and a conditional shows the branch that it has
selected or none. Only a step that breaks off leaves a conditional with a selected branch that it does not show. -/

namespace ReactiveMarkup.Rendering

open ReactiveMarkup.Step ReactiveMarkup.Graph ReactiveMarkup.Machine

variable {Memory : Type} {α β : Type} {before middle after start machine : Stage Memory} {id : NodeId}

/-- A node as it was made. -/
def blank : Node (Code Memory) → Node (Code Memory)
  | .element node => .element { node with handle := none, disposables := [] }
  | .text node => .text { node with handle := none, disposables := [] }
  | .fragment node => .fragment { node with mounted := false }
  | .conditional node => .conditional { node with selected := none, active := none, mounted := false, disposables := [] }
  | .list node => .list { node with anchor := .front, keys := [], entries := [], emptyMounted := false, mounted := false, disposables := [] }
  | .component node => .component { node with child := none, mounted := false }

/-- Nodes stay what they were made as. Old ones get new kids only, and so do new ones. -/
structure Grows (before after : Stage Memory) : Prop where
  size : before.nodes.size ≤ after.nodes.size
  blank : ∀ id < before.nodes.size, after.nodes[id]?.map Rendering.blank = before.nodes[id]?.map Rendering.blank
  kids : ∀ id, ∀ kid ∈ kids after id, kid ∈ kids before id ∨ before.nodes.size ≤ kid

namespace Grows

theorem refl (machine : Stage Memory) : Grows machine machine := ⟨Nat.le_refl _, fun _ _ => rfl, fun _ _ => .inl⟩

theorem trans (first : Grows before middle) (second : Grows middle after) : Grows before after := by
  refine ⟨Nat.le_trans first.size second.size, fun id old => ?_, fun id kid member => ?_⟩
  · exact (second.blank id (Nat.lt_of_lt_of_le old first.size)).trans (first.blank id old)
  obtain member | new := second.kids id kid member
  · exact first.kids id kid member
  · exact .inr (Nat.le_trans first.size new)

/-- What a node was made as is there still. -/
theorem exists_blank (grows : Grows before after) {node : Node (Code Memory)} (found : before.nodes[id]? = some node) :
    ∃ later, after.nodes[id]? = some later ∧ Rendering.blank later = Rendering.blank node := by
  have same := grows.blank id (Array.getElem?_eq_some_iff.1 found).1
  rw [found, Option.map_some] at same
  exact Option.map_eq_some_iff.1 same

/-- Below a new node there are new nodes only. -/
theorem new_of_below (grows : Grows before after) {root other : NodeId} (new : before.nodes.size ≤ root) (below : Below after root other) :
    before.nodes.size ≤ other := by
  induction below with
  | refl => exact new
  | tail _ member ih =>
    refine (grows.kids _ _ member).resolve_left fun inKids => ?_
    exact absurd (lt_size_of_mem_kids inKids) (Nat.not_lt.2 ih)

/-- An old node that is below another was so before. -/
theorem below_of_old (grows : Grows before after) {root other : NodeId} (below : Below after root other) (old : other < before.nodes.size) :
    Below before root other := by
  induction below with
  | refl => exact .refl
  | tail _ member ih =>
    obtain member | new := grows.kids _ _ member
    · exact (ih (lt_size_of_mem_kids member)).tail member
    · exact absurd old (Nat.not_lt.2 new)

end Grows

/-- Whether a node is below some others, or new. -/
def Owned (roots : NodeId → Prop) (start : Stage Memory) (id : NodeId) : Prop := (∃ root, roots root ∧ Below start root id) ∨ start.nodes.size ≤ id

variable {roots more : NodeId → Prop} {whole : Prop}

theorem Owned.root (isRoot : roots id) : Owned roots start id := .inl ⟨id, isRoot, .refl⟩

theorem Owned.below {other : NodeId} (owned : Owned roots start id) (grows : Grows start machine) (below : Below machine id other) :
    Owned roots start other := by
  by_cases old : other < start.nodes.size
  · obtain ⟨root, isRoot, above⟩ | new := owned
    · exact .inl ⟨root, isRoot, above.trans (grows.below_of_old below old)⟩
    · exact .inr (grows.new_of_below new below)
  · exact .inr (Nat.le_of_not_lt old)

theorem Owned.kid {kid : NodeId} (owned : Owned roots start id) (grows : Grows start machine) (member : kid ∈ kids machine id) :
    Owned roots start kid := owned.below grows (.single member)

theorem Owned.weaken (owned : Owned (fun _ => False) start id) : Owned roots start id := owned.imp_left fun ⟨_, never, _⟩ => never.elim

/-- No node is below a node that is below it. -/
def Acyclic (machine : Stage Memory) : Prop := ∀ id, ∀ kid ∈ kids machine id, ¬ Below machine kid id

/-- A path leads along edges that were there before, or to the node that has new kids and on from there. -/
private theorem below_or_through {other target : NodeId} (rest : ∀ other, other ≠ id → kids after other = kids before other) (below : Below after other target) :
    Below before other target ∨ (Below before other id ∧ Below after id target) := by
  induction below using Relation.ReflTransGen.head_induction_on with
  | refl => exact .inl .refl
  | @head first second member later ih =>
    by_cases here : first = id
    · subst here
      exact .inr ⟨.refl, .head member later⟩
    · rw [rest first here] at member
      exact ih.imp (.head member) (And.imp_left (.head member))

/-- A tree stays one if the new kids of a node are not above it. -/
theorem Acyclic.of_kids (acyclic : Acyclic before) (rest : ∀ other, other ≠ id → kids after other = kids before other)
    (new : ∀ kid ∈ kids after id, kid ∈ kids before id ∨ ¬ Below before kid id) : Acyclic after := by
  have apart {kid : NodeId} (member : kid ∈ kids after id) : ¬ Below before kid id := (new kid member).elim (acyclic id kid) fun apart => apart
  have never {kid : NodeId} (member : kid ∈ kids after id) : ¬ Below after kid id := fun below =>
    apart member ((below_or_through rest below).elim (fun below => below) And.left)
  intro other kid member below
  by_cases here : other = id
  · subst here
    exact never member below
  · have old := rest other here ▸ member
    obtain below | ⟨toId, fromId⟩ := below_or_through rest below
    · exact acyclic other kid old below
    · obtain rfl | ⟨first, inKids, later⟩ := Relation.ReflTransGen.cases_head fromId
      · exact here rfl
      · obtain below | ⟨again, _⟩ := below_or_through rest later
        · exact apart inKids (below.trans (.head old toId))
        · exact apart inKids again

/-- A conditional shows a branch of its own or none, and none but the one that it has selected. Each item of a list has a signal. -/
def Fair (graph : Graph (Code Memory) (Task (Code Memory))) : Node (Code Memory) → Prop
  | .conditional node =>
    ∃ selection, (node.selected = none ∨ node.selected = some selection) ∧ (node.active = none ∨ node.active = choice node selection)
  | .list node => ∀ entry ∈ node.entries, ∃ value, graph.content? entry.2.signal = some (.signal value)
  | _ => True

theorem Fair.mono {graph later : Graph (Code Memory) (Task (Code Memory))} {node : Node (Code Memory)} (fair : Fair graph node)
    (signals : ∀ cell value, graph.content? cell = some (.signal value) → ∃ new, later.content? cell = some (.signal new)) : Fair later node := by
  cases node with
  | list node =>
    intro entry member
    obtain ⟨value, found⟩ := fair entry member
    exact signals _ value found
  | _ => exact fair

/-- A conditional does not show the branch that it has selected. -/
def Stuck (selection : Selection) : Node (Code Memory) → Prop
  | .conditional node => node.selected = some selection ∧ node.active = none ∧ choice node selection ≠ none
  | _ => False

def Stalled (machine : Stage Memory) (id : NodeId) (selection : Selection) : Prop := ∃ node, machine.nodes[id]? = some node ∧ Stuck selection node

/-- What holds of trees and effects whenever code has control. -/
structure Upright (machine : Stage Memory) : Prop where
  fit : machine.graph.Fit Task.Formed
  coherent : machine.graph.Coherent Code.query?
  observing : ∀ observer, machine.graph.observer = some observer → ∃ effect, machine.graph.content? observer = some (.effect effect)
  formed : ∀ (id : NodeId) (node : Node (Code Memory)), machine.nodes[id]? = some node → Formed node
  known : ∀ id, ∀ kid ∈ kids machine id, kid < machine.nodes.size
  acyclic : Acyclic machine
  fair : ∀ (id : NodeId) (node : Node (Code Memory)), machine.nodes[id]? = some node → Fair machine.graph node

/-- Only the graph and the nodes matter. -/
theorem Upright.carry (upright : Upright machine) (graph : after.graph = machine.graph) (nodes : after.nodes = machine.nodes) : Upright after := by
  obtain ⟨_, _, _, _, _, _, _, _, _⟩ := after
  cases graph
  cases nodes
  exact ⟨upright.fit, upright.coherent, upright.observing, upright.formed, upright.known, upright.acyclic, upright.fair⟩

/-- Trees are the same whatever is done to the graph. -/
theorem Upright.regraph {first last : Stage Memory} (upright : Upright first) (later : Upright after) (nodes : last.nodes = after.nodes)
    (kept : first.graph.Kept Task.Formed last.graph) (coherent : last.graph.Coherent Code.query?)
    (signals : ∀ cell value, after.graph.content? cell = some (.signal value) → ∃ later, last.graph.content? cell = some (.signal later)) : Upright last := by
  have same : kids last = kids after := funext fun id => by rw [kids, nodes, kids]
  have below : Below last = Below after := by
    funext parent kid
    rw [Below, Below, same]
  refine ⟨kept.fit, coherent, fun observer observed => ?_, nodes ▸ later.formed, ?_, ?_, fun id node found => ?_⟩
  · obtain ⟨effect, found⟩ := upright.observing observer (kept.steady.observer ▸ observed)
    obtain ⟨later, foundLater, _⟩ := kept.steady.effects observer effect found
    exact ⟨later, foundLater⟩
  · rw [same, nodes]
    exact later.known
  · rw [Acyclic, same, below]
    exact later.acyclic
  · exact (later.fair id node (nodes ▸ found)).mono signals

theorem Upright.graph_observing (upright : Upright machine) : machine.graph.Observing := by
  intro observer observed
  obtain ⟨effect, found⟩ := upright.observing observer observed
  refine ⟨machine.graph.lt_size_of_content? found, fun ⟨_, isCell, _⟩ => ?_⟩
  cases found.symm.trans isCell

theorem Upright.enterBatch (upright : Upright machine) : Upright { machine with graph := machine.graph.enterBatch } := by
  have fit := upright.fit
  exact ⟨⟨fit.symmetric, fit.observing, fit.bodies⟩, upright.coherent.of_vertices rfl, upright.observing, upright.formed, upright.known, upright.acyclic, upright.fair⟩

theorem Upright.unobserved (upright : Upright machine) : Upright { machine with graph := { machine.graph with observer := none } } :=
  ⟨upright.fit.observe nofun, upright.coherent.of_vertices rfl, nofun, upright.formed, upright.known, upright.acyclic, upright.fair⟩

/-- What a step about some nodes does, be it broken off or not. -/
structure Alters (roots : NodeId → Prop) (whole : Prop) (before after : Stage Memory) : Prop where
  kept : before.graph.Kept Task.Formed after.graph
  upright : Upright after
  grows : Grows before after
  others : 0 < before.graph.depth → ∀ id < before.nodes.size, ¬ Owned roots before id → after.nodes[id]? = before.nodes[id]?
  spared : whole → ∀ id selection, Stalled after id selection → Stalled before id selection

namespace Alters

theorem refl (upright : Upright machine) : Alters roots whole machine machine :=
  ⟨.refl upright.fit, upright, .refl machine, fun _ _ _ _ => rfl, fun _ _ _ stalled => stalled⟩

theorem broken (alters : Alters roots whole before after) : Alters roots False before after := { alters with spared := False.elim }

theorem mono (alters : Alters roots whole before after) (includes : ∀ root, roots root → Owned more before root) : Alters more whole before after :=
  { alters with others := fun inBatch id old apart => alters.others inBatch id old fun owned => apart (by
      obtain ⟨root, isRoot, below⟩ | new := owned
      · exact (includes root isRoot).below (.refl before) below
      · exact .inr new) }

/-- One step after another. What it leaves a conditional showing may be known only in the end. -/
theorem join (first : Alters roots False before middle) (second : Alters more whole middle after) (inside : ∀ root, more root → Owned roots before root)
    (spared : whole → ∀ id selection, Stalled after id selection → Stalled before id selection) : Alters roots whole before after := by
  refine ⟨first.kept.trans second.kept, second.upright, first.grows.trans second.grows, fun inBatch id old apart => ?_, spared⟩
  refine (second.others (first.kept.steady.depth ▸ inBatch) id (Nat.lt_of_lt_of_le old first.grows.size) fun owned => ?_).trans
    (first.others inBatch id old apart)
  obtain ⟨root, isRoot, below⟩ | new := owned
  · exact apart ((inside root isRoot).below first.grows below)
  · exact absurd (Nat.lt_of_lt_of_le old first.grows.size) (Nat.not_lt.2 new)

theorem trans (first : Alters roots True before middle) (second : Alters more whole middle after) (inside : ∀ root, more root → Owned roots before root) :
    Alters roots whole before after :=
  first.broken.join second inside fun isWhole id selection stalled => first.spared trivial id selection (second.spared isWhole id selection stalled)

/-- What is done to nodes is the same whatever is done to the graph. -/
theorem regraph {first last : Stage Memory} (alters : Alters roots whole before after) (upright : Upright first) (nodes : first.nodes = before.nodes)
    (nodesLast : last.nodes = after.nodes) (deep : 0 < first.graph.depth → 0 < before.graph.depth)
    (kept : first.graph.Kept Task.Formed last.graph) (coherent : last.graph.Coherent Code.query?)
    (signals : ∀ cell value, after.graph.content? cell = some (.signal value) → ∃ later, last.graph.content? cell = some (.signal later)) :
    Alters roots whole first last := by
  have sameFirst : kids first = kids before := funext fun id => by rw [kids, nodes, kids]
  have sameLast : kids last = kids after := funext fun id => by rw [kids, nodesLast, kids]
  have belowFirst : Below first = Below before := by
    funext parent kid
    rw [Below, Below, sameFirst]
  refine ⟨kept, upright.regraph alters.upright nodesLast kept coherent signals, ⟨?_, ?_, ?_⟩, ?_, ?_⟩
  · rw [nodes, nodesLast]
    exact alters.grows.size
  · rw [nodes, nodesLast]
    exact alters.grows.blank
  · rw [sameFirst, sameLast, nodes]
    exact alters.grows.kids
  · simp only [Owned, belowFirst, nodes, nodesLast]
    exact fun inBatch => alters.others (deep inBatch)
  · simp only [Stalled, nodes, nodesLast]
    exact alters.spared

/-- The nodes stay as they are. -/
theorem of_nodes (upright : Upright machine) (nodes : after.nodes = machine.nodes) (kept : machine.graph.Kept Task.Formed after.graph)
    (coherent : after.graph.Coherent Code.query?) : Alters roots whole machine after :=
  (refl upright).regraph upright rfl nodes (fun inBatch => inBatch) kept coherent kept.steady.signals

theorem changed {graph : Graph (Code Memory) (Task (Code Memory))} (upright : Upright machine) (kept : machine.graph.Kept Task.Formed graph)
    (coherent : graph.Coherent Code.query?) : Alters roots whole machine { machine with graph } := of_nodes upright rfl kept coherent

/-- Nothing but the graph and the nodes matters. -/
theorem carry {later : Stage Memory} (alters : Alters roots True start machine) (graph : later.graph = machine.graph) (nodes : later.nodes = machine.nodes) :
    Alters roots whole start later := by
  refine alters.trans (of_nodes alters.upright nodes ?_ ?_) fun _ => .root
  · rw [graph]
    exact .refl alters.upright.fit
  · rw [graph]
    exact alters.upright.coherent

theorem of_looked (upright : Upright machine) (looked : Looked Code.query? machine after) : Alters roots whole machine after :=
  of_nodes upright (by rw [looked.frame]) (looked.kept upright.fit) looked.coherent

end Alters

section

variable {old new : Node (Code Memory)} (found : machine.nodes[id]? = some old)

include found

theorem node_of_set {other : NodeId} {node : Node (Code Memory)} (foundLater : (machine.nodes.set! id new)[other]? = some node) :
    (other = id ∧ node = new) ∨ machine.nodes[other]? = some node := by
  by_cases here : other = id
  · subst here
    exact .inl ⟨rfl, (Option.some.inj ((getElem?_setNode found new).symm.trans foundLater)).symm⟩
  · exact .inr ((@getElem?_setNode_of_ne (Host.rendering Memory) machine id other here new).symm.trans foundLater)

theorem kids_set (other : NodeId) : kids { machine with nodes := machine.nodes.set! id new } other = if other = id then new.kids else kids machine other := by
  split
  next here => rw [kids, here, getElem?_setNode found new, Option.elim_some]
  next apart => rw [kids, @getElem?_setNode_of_ne (Host.rendering Memory) machine id other apart new, kids]

/-- Trees stay trees if a node gets another record whose new kids are not above it. -/
theorem Upright.set (upright : Upright machine) (formed : Formed new)
    (grown : ∀ kid ∈ new.kids, kid ∈ old.kids ∨ (kid < machine.nodes.size ∧ ¬ Below machine kid id)) (fair : Fair machine.graph new) :
    Upright { machine with nodes := machine.nodes.set! id new } := by
  have size : (machine.nodes.set! id new).size = machine.nodes.size := by rw [Array.set!_eq_setIfInBounds, Array.size_setIfInBounds]
  have rest (other : NodeId) (apart : other ≠ id) : kids { machine with nodes := machine.nodes.set! id new } other = kids machine other := by
    rw [kids_set found, if_neg apart]
  have new_kids {kid : NodeId} (member : kid ∈ kids { machine with nodes := machine.nodes.set! id new } id) :
      kid ∈ kids machine id ∨ (kid < machine.nodes.size ∧ ¬ Below machine kid id) := by
    rw [kids_set found, if_pos rfl] at member
    exact (grown kid member).imp_left (mem_kids found).2
  refine ⟨upright.fit, upright.coherent, upright.observing, fun other node foundLater => ?_, fun other kid member => ?_, ?_, fun other node foundLater => ?_⟩
  · obtain ⟨_, rfl⟩ | foundBefore := node_of_set found foundLater
    · exact formed
    · exact upright.formed other node foundBefore
  · show kid < (machine.nodes.set! id new).size
    rw [size]
    by_cases here : other = id
    · subst here
      exact (new_kids member).elim (upright.known other kid) And.left
    · exact upright.known other kid (rest other here ▸ member)
  · exact upright.acyclic.of_kids rest fun kid member => (new_kids member).imp_right And.right
  · obtain ⟨_, rfl⟩ | foundBefore := node_of_set found foundLater
    · exact fair
    · exact upright.fair other node foundBefore

theorem Grows.set (grows : Grows start machine) (same : Rendering.blank new = Rendering.blank old)
    (grown : ∀ kid ∈ new.kids, kid ∈ old.kids ∨ start.nodes.size ≤ kid) : Grows start { machine with nodes := machine.nodes.set! id new } := by
  refine ⟨?_, fun other isOld => Eq.trans ?_ (grows.blank other isOld), fun other kid member => ?_⟩
  · show start.nodes.size ≤ (machine.nodes.set! id new).size
    rw [Array.set!_eq_setIfInBounds, Array.size_setIfInBounds]
    exact grows.size
  · by_cases here : other = id
    · subst here
      show (machine.nodes.set! other new)[other]?.map Rendering.blank = _
      rw [getElem?_setNode found new, found, Option.map_some, Option.map_some, same]
    · show (machine.nodes.set! id new)[other]?.map Rendering.blank = _
      rw [@getElem?_setNode_of_ne (Host.rendering Memory) machine id other here new]
  · rw [kids_set found] at member
    split at member
    next here =>
      subst here
      exact (grown kid member).elim (fun inOld => grows.kids other kid ((mem_kids found).2 inOld)) .inr
    next => exact grows.kids other kid member

end

/-- A node that a step is about gets another record. Its new kids are not above it. -/
theorem Alters.set {old new : Node (Code Memory)} (alters : Alters roots True start machine) (found : machine.nodes[id]? = some old)
    (owned : Owned roots start id) (same : blank new = blank old) (formed : Formed new)
    (grown : ∀ kid ∈ new.kids, kid ∈ old.kids ∨ (start.nodes.size ≤ kid ∧ kid < machine.nodes.size ∧ ¬ Below machine kid id))
    (fair : Fair machine.graph new) (spared : whole → ∀ selection, Stuck selection new → Stuck selection old) :
    Alters roots whole start { machine with nodes := machine.nodes.set! id new } := by
  refine ⟨alters.kept, alters.upright.set found formed (fun kid member => (grown kid member).imp_right And.right) fair,
    alters.grows.set found same fun kid member => (grown kid member).imp_right And.left, fun inBatch other isOld apart => ?_, fun isWhole other selection stalled => ?_⟩
  · have here : other ≠ id := fun same => apart (same ▸ owned)
    exact (@getElem?_setNode_of_ne (Host.rendering Memory) machine id other here new).trans (alters.others inBatch other isOld apart)
  · refine alters.spared trivial other selection ?_
    obtain ⟨node, foundLater, stuck⟩ := stalled
    obtain ⟨rfl, rfl⟩ | foundBefore := node_of_set found foundLater
    · exact ⟨old, found, spared isWhole selection stuck⟩
    · exact ⟨node, foundBefore, stuck⟩

/-- A node is made of nodes that are there. -/
theorem Alters.push {new : Node (Code Memory)} (alters : Alters roots True start machine) (formed : Formed new)
    (known : ∀ kid ∈ new.kids, kid < machine.nodes.size) (fresh : ∀ kid ∈ new.kids, start.nodes.size ≤ kid) (fair : Fair machine.graph new)
    (moving : ∀ selection, ¬ Stuck selection new) :
    Alters roots whole start { machine with nodes := machine.nodes.push new } := by
  have self : (machine.nodes.push new)[machine.nodes.size]? = some new := Array.getElem?_push_size
  have none : machine.nodes[machine.nodes.size]? = Option.none := Array.getElem?_eq_none (Nat.le_refl _)
  have node_of {other : NodeId} {node : Node (Code Memory)} (foundLater : (machine.nodes.push new)[other]? = some node) :
      (other = machine.nodes.size ∧ node = new) ∨ machine.nodes[other]? = some node := by
    rw [Array.getElem?_push] at foundLater
    split at foundLater
    next here => exact .inl ⟨here, (Option.some.inj foundLater).symm⟩
    next => exact .inr foundLater
  have rest (other : NodeId) (apart : other ≠ machine.nodes.size) : kids { machine with nodes := machine.nodes.push new } other = kids machine other := by
    simp only [kids, Array.getElem?_push, if_neg apart]
  have new_kids {kid : NodeId} (member : kid ∈ kids { machine with nodes := machine.nodes.push new } machine.nodes.size) : kid ∈ new.kids :=
    (mem_kids self).1 member
  have upright := alters.upright
  have below_lt {root other : NodeId} (below : Below machine root other) (inside : root < machine.nodes.size) : other < machine.nodes.size := by
    obtain same | ⟨_, _, member⟩ := Relation.ReflTransGen.cases_tail below
    · exact same ▸ inside
    · exact upright.known _ _ member
  refine ⟨alters.kept, ⟨upright.fit, upright.coherent, upright.observing, fun other node foundLater => ?_, fun other kid member => ?_, ?_, fun other node foundLater => ?_⟩,
    ⟨?_, fun other isOld => ?_, fun other kid member => ?_⟩, fun inBatch other isOld apart => ?_, fun _ other selection stalled => ?_⟩
  · obtain ⟨_, rfl⟩ | foundBefore := node_of foundLater
    · exact formed
    · exact upright.formed other node foundBefore
  · rw [Array.size_push]
    by_cases here : other = machine.nodes.size
    · subst here
      exact Nat.lt_succ_of_lt (known kid (new_kids member))
    · exact Nat.lt_succ_of_lt (upright.known other kid (rest other here ▸ member))
  · refine upright.acyclic.of_kids rest fun kid member => .inr fun below => ?_
    exact absurd (below_lt below (known kid (new_kids member))) (Nat.lt_irrefl _)
  · obtain ⟨_, rfl⟩ | foundBefore := node_of foundLater
    · exact fair
    · exact upright.fair other node foundBefore
  · rw [Array.size_push]
    exact Nat.le_succ_of_le alters.grows.size
  · have inside := Nat.lt_of_lt_of_le isOld alters.grows.size
    refine Eq.trans ?_ (alters.grows.blank other isOld)
    show (machine.nodes.push new)[other]?.map blank = _
    rw [Array.getElem?_push, if_neg (Nat.ne_of_lt inside)]
  · by_cases here : other = machine.nodes.size
    · subst here
      exact .inr (fresh kid (new_kids member))
    · exact alters.grows.kids other kid (rest other here ▸ member)
  · have inside := Nat.lt_of_lt_of_le isOld alters.grows.size
    refine Eq.trans ?_ (alters.others inBatch other isOld apart)
    rw [Array.getElem?_push, if_neg (Nat.ne_of_lt inside)]
  · refine alters.spared trivial other selection ?_
    obtain ⟨node, foundLater, stuck⟩ := stalled
    obtain ⟨_, rfl⟩ | foundBefore := node_of foundLater
    · exact absurd stuck (moving selection)
    · exact ⟨node, foundBefore, stuck⟩

end ReactiveMarkup.Rendering
