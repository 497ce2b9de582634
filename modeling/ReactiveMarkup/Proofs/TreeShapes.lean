import Mathlib.Logic.Relation
import ReactiveMarkup.Proofs.RenderedTrees

/-! The shapes of trees as a machine holds them: what is right below a node and what is below it, what trees are made
of, and which branch a conditional is to show. -/

namespace ReactiveMarkup

section

variable {Code : Type}

/-- The nodes right below a node. -/
def Node.kids : Node Code → List NodeId
  | .element node => node.child.toList
  | .text _ => []
  | .fragment node => node.children
  | .conditional node => node.branches.filterMap Prod.snd ++ node.otherwise.toList
  | .list node => List.map (fun entry => entry.2.node) node.entries ++ node.empty.toList
  | .component node => node.child.toList

/-- The node that the body of an effect brings up to date. -/
def Task.subject? : Task Code → Option NodeId
  | .text node _ => some node
  | .branches node _ _ => some node
  | .items node _ => some node
  | .property _ _ _ | .classes _ _ | .host _ => none

/-- An accessor that is not a plan. -/
def Accessor.Hosted : Accessor Code → Prop
  | .constant _ | .host _ => True
  | .plan _ _ => False

def ClassSource.binding : ClassSource Code → Binding Code
  | .names binding => binding
  | .toggle _ binding => binding

def Task.Formed : Task Code → Prop
  | .property _ accessor _ => accessor.Hosted
  | .classes sources _ => ∀ source ∈ sources, source.binding.accessor.Hosted
  | .text _ accessor => accessor.Hosted
  | .branches _ _ _ | .items _ _ | .host _ => True

/-- The first of some tests that gives a true value, if there is one, counted from an index. -/
inductive FirstTrue {α : Type} (gives : α → Value → Prop) : Nat → List α → Selection → Prop where
  | otherwise (index : Nat) : FirstTrue gives index [] .otherwise
  | here {index : Nat} {test : α} {rest : List α} {value : Value} (given : gives test value) (holds : value.isTruthy = true) :
    FirstTrue gives index (test :: rest) (.branch index)
  | later {index : Nat} {test : α} {rest : List α} {value : Value} {selection : Selection} (given : gives test value)
    (fails : value.isTruthy = false) (first : FirstTrue gives (index + 1) rest selection) :
    FirstTrue gives index (test :: rest) selection

theorem FirstTrue.mono {α : Type} {gives more : α → Value → Prop} {index : Nat} {tests : List α} {selection : Selection}
    (first : FirstTrue gives index tests selection) (implies : ∀ test value, gives test value → more test value) :
    FirstTrue more index tests selection := by
  induction first with
  | otherwise index => exact .otherwise index
  | here given holds => exact .here (implies _ _ given) holds
  | later given fails _ ih => exact .later (implies _ _ given) fails ih

end

namespace Rendering

variable {Memory : Type}

abbrev Stage (Memory : Type) := Machine (Host.rendering Memory)

/-- What trees are made of: no plans, and queries as the tests of conditionals. -/
def Formed : Node (Code Memory) → Prop
  | .element node => ∀ property ∈ node.properties, property.2.accessor.Hosted
  | .text node => node.source.accessor.Hosted
  | .fragment _ => True
  | .conditional node => ∀ branch ∈ node.branches, ∃ query, branch.1 = .host (.query query)
  | .list node =>
    node.items.accessor.Hosted ∧ (∃ code, node.tracker = .host code) ∧ (∃ code, node.builder = .host code) ∧
      (Entries.names node.entries).Nodup
  | .component node => ∃ code, node.component.view = .host code

variable {machine : Stage Memory}

def kids (machine : Stage Memory) (id : NodeId) : List NodeId := (machine.nodes[id]?).elim [] Node.kids

/-- Whether one node is another or above it. -/
def Below (machine : Stage Memory) : NodeId → NodeId → Prop := Relation.ReflTransGen fun parent child => child ∈ kids machine parent

/-- The node that a selection shows. -/
abbrev choice (node : ConditionalNode (Code Memory)) (selection : Selection) : Option NodeId :=
  @Machine.ConditionalNode.shown (Host.rendering Memory) node selection

theorem mem_kids {id : NodeId} {node : Node (Code Memory)} (found : machine.nodes[id]? = some node) {kid : NodeId} :
    kid ∈ kids machine id ↔ kid ∈ node.kids := by
  rw [kids, found, Option.elim_some]

theorem lt_size_of_mem_kids {id kid : NodeId} (member : kid ∈ kids machine id) : id < machine.nodes.size := by
  refine Decidable.byContradiction fun outside => ?_
  rw [kids, Array.getElem?_eq_none (Nat.le_of_not_lt outside), Option.elim_none] at member
  cases member

end Rendering

end ReactiveMarkup
