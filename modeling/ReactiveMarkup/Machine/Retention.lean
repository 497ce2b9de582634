import ReactiveMarkup.Machine.Basic

/-!
What is still there. Something is kept by the host, by a step under way, or by something else
that is kept; an effect that reads anything is kept by what it reads. What nothing keeps is
gone for good, but things that keep one another stay. Main statement: what a kept thing
holds is kept.
-/

namespace ReactiveMarkup

variable {Code : Type}

/-- The nodes that an anchor keeps. -/
def Anchor.nodes : Anchor → List NodeId
  | .afterNode node previous => node :: previous.nodes
  | .front | .fixed _ | .item .. => []

def Disposable.body? : Disposable → Option Part
  | .effect id => some (.body id)
  | .subscription _ => none

/-- What a node itself holds. -/
def Node.parts (id : NodeId) : Node Code → List Part
  | .element node => node.child.toList.map .node
  | .text _ => []
  | .fragment node => node.children.map .node
  | .conditional node => .state id :: node.disposables.filterMap Disposable.body?
  | .list node => .state id :: node.disposables.filterMap Disposable.body?
  | .component node => node.child.toList.map .node

/-- What the state of a node holds. -/
def Node.stateParts : Node Code → List Part
  | .conditional node =>
    (node.branches.filterMap Prod.snd ++ node.otherwise.toList ++ node.active.toList).map .node
  | .list node =>
    (List.map (fun entry => entry.2.node) node.entries ++ node.empty.toList ++ node.anchor.nodes).map .node
  | _ => []

/-- What the body of an effect holds. -/
def Task.parts : Task Code → List Part
  | .branches node _ anchor => .state node :: anchor.nodes.map .node
  | .items node _ => [.state node]
  | _ => []

namespace Machine

variable {host : Host} {α : Type}

def partsOf (machine : Machine host) : Part → List Part
  | .node id => (machine.nodes[id]?).elim [] (Node.parts id)
  | .state id => (machine.nodes[id]?).elim [] Node.stateParts
  | .body id => ((machine.graph.effect? id).bind Effect.body).elim [] Task.parts

def allParts (machine : Machine host) : List Part :=
  (List.range machine.nodes.size).flatMap (fun id => [.node id, .state id]) ++
    (List.range machine.graph.vertices.size).map .body

/-- Whether a part is kept whatever other parts there are. -/
def isRoot (machine : Machine host) (part : Part) : Bool :=
  machine.held.contains part ||
    match part with
    | .node id => (host.kept machine.world).contains id
    | .state _ => false
    | .body id => !(machine.graph.sources id).isEmpty

/-- The parts that hold any of the given ones. -/
def holders (machine : Machine host) (parts : List Part) : List Part :=
  machine.allParts.filter fun holder => (machine.partsOf holder).any parts.contains

/-- Goes from parts to their holders until it finds a root, for so many steps. A walk that
does not end runs in a circle. -/
def isKeptWithin (machine : Machine host) : Nat → List Part → Bool
  | _, [] => false
  | 0, _ :: _ => true
  | steps + 1, part :: rest =>
    (part :: rest).any machine.isRoot || machine.isKeptWithin steps (machine.holders (part :: rest))

/-- Whether a part is kept. No walk without a circle is longer than there are parts. -/
def isKept (machine : Machine host) (part : Part) : Bool :=
  machine.isKeptWithin machine.allParts.length [part]

theorem mem_holders {machine : Machine host} {parts : List Part} {holder : Part} :
    holder ∈ machine.holders parts ↔
      holder ∈ machine.allParts ∧ ∃ part ∈ machine.partsOf holder, part ∈ parts := by
  simp [holders]

theorem holders_subset {machine : Machine host} {few many : List Part} (subset : few ⊆ many) :
    machine.holders few ⊆ machine.holders many := by
  intro holder member
  obtain ⟨inside, part, held, known⟩ := mem_holders.1 member
  exact mem_holders.2 ⟨inside, part, held, subset known⟩

theorem isKeptWithin_succ (machine : Machine host) (steps : Nat) (part : Part) (rest : List Part) :
    machine.isKeptWithin (steps + 1) (part :: rest) =
      ((part :: rest).any machine.isRoot || machine.isKeptWithin steps (machine.holders (part :: rest))) := rfl

/-- If one of some parts is kept, so is one of more parts. -/
theorem isKeptWithin_of_subset {machine : Machine host} {steps : Nat} {few many : List Part}
    (subset : few ⊆ many) (kept : machine.isKeptWithin steps few = true) :
    machine.isKeptWithin steps many = true := by
  induction steps generalizing few many with
  | zero =>
    match few, many with
    | [], _ => simp [isKeptWithin] at kept
    | part :: _, [] => exact absurd (subset (List.mem_cons_self ..)) (List.not_mem_nil)
    | _ :: _, _ :: _ => rfl
  | succ steps ih =>
    match few, many with
    | [], _ => simp [isKeptWithin] at kept
    | part :: _, [] => exact absurd (subset (List.mem_cons_self ..)) (List.not_mem_nil)
    | part :: rest, other :: others =>
      rw [isKeptWithin_succ, Bool.or_eq_true] at kept ⊢
      rcases kept with root | held
      · obtain ⟨found, member, isRoot⟩ := List.any_eq_true.1 root
        exact .inl (List.any_eq_true.2 ⟨found, subset member, isRoot⟩)
      · exact .inr (ih (holders_subset subset) held)

/-- A walk that goes well goes well up to any step before its last. -/
theorem isKeptWithin_of_succ {machine : Machine host} {steps : Nat} {parts : List Part}
    (kept : machine.isKeptWithin (steps + 1) parts = true) : machine.isKeptWithin steps parts = true := by
  induction steps generalizing parts with
  | zero =>
    match parts with
    | [] => simp [isKeptWithin] at kept
    | _ :: _ => rfl
  | succ steps ih =>
    match parts with
    | [] => simp [isKeptWithin] at kept
    | part :: rest =>
      rw [isKeptWithin_succ, Bool.or_eq_true] at kept ⊢
      exact kept.imp_right ih

theorem isKept_of_isRoot {machine : Machine host} {part : Part} (root : machine.isRoot part = true) :
    machine.isKept part = true := by
  unfold isKept
  cases machine.allParts.length with
  | zero => rfl
  | succ steps => rw [isKeptWithin_succ]; simp [root]

/-- What a kept part holds is kept. -/
theorem isKept_of_mem_partsOf {machine : Machine host} {holder part : Part}
    (inside : holder ∈ machine.allParts) (held : part ∈ machine.partsOf holder)
    (kept : machine.isKept holder = true) : machine.isKept part = true := by
  unfold isKept at kept ⊢
  cases bound : machine.allParts.length with
  | zero => rfl
  | succ steps =>
    rw [isKeptWithin_succ, Bool.or_eq_true]
    refine .inr (isKeptWithin_of_subset ?_ (isKeptWithin_of_succ (bound ▸ kept)))
    intro found member
    rw [List.mem_singleton.1 member]
    exact mem_holders.2 ⟨inside, part, held, List.mem_singleton.2 rfl⟩

/-- Holds on to parts until the step around it ends. -/
def hold (parts : List Part) : Run host Unit :=
  modify fun machine => { machine with held := parts ++ machine.held }

/-- Runs a step that holds on to parts, and then lets go of all that it came to hold. -/
def holding (parts : List Part) (step : Run host α) : Run host α := do
  let before := (← get).held
  hold parts
  step.after fun _ machine => { machine with held := before }

end Machine

end ReactiveMarkup
