import ReactiveMarkup.Counting
import ReactiveMarkup.Value.Basic

/-!
The dependency graph: signals, computed values and effects, who reads whom, the observer
that reads are attributed to, and the effects that wait to run again. All transitions here
are plain functions; running code is left to others.
-/

namespace ReactiveMarkup

/-- A value computed by code and remembered until something it read changes. -/
structure Computed (Code : Type) where
  code : Code
  value : Option Value
  stale : Bool
  computing : Bool

/-- Code that runs again when something it read changes. The body is missing while it
runs, and once the effect is disposed. -/
structure Effect (Code Body : Type) where
  body : Option Body
  cleanup : Option Code
  disposed : Bool

inductive Content (Code Body : Type) where
  | signal (value : Value)
  | computed (computed : Computed Code)
  | effect (effect : Effect Code Body)

/-- A member of the graph with those that read it and those that it reads, each in the
order in which they came. -/
structure Vertex (Code Body : Type) where
  content : Content Code Body
  subscribers : List Nat
  sources : List Nat

structure Graph (Code Body : Type) where
  vertices : Array (Vertex Code Body) := #[]
  observer : Option Nat := none
  /-- The effects that wait to run, first come first. -/
  queue : List Nat := []
  /-- The number of open batches. -/
  depth : Nat := 0

/-- Adds a member at the end unless it is there already. -/
def insertNew (members : List Nat) (member : Nat) : List Nat :=
  if members.contains member then members else members ++ [member]

namespace Graph

variable {Code Body : Type}

def modify (graph : Graph Code Body) (id : Nat) (f : Vertex Code Body → Vertex Code Body) : Graph Code Body :=
  { graph with vertices := graph.vertices.modify id f }

def content? (graph : Graph Code Body) (id : Nat) : Option (Content Code Body) :=
  (graph.vertices[id]?).map Vertex.content

def subscribers (graph : Graph Code Body) (id : Nat) : List Nat :=
  (graph.vertices[id]?).elim [] Vertex.subscribers

def sources (graph : Graph Code Body) (id : Nat) : List Nat :=
  (graph.vertices[id]?).elim [] Vertex.sources

/-- A new member that nobody reads. -/
def add (graph : Graph Code Body) (content : Content Code Body) : Nat × Graph Code Body :=
  (graph.vertices.size, { graph with vertices := graph.vertices.push ⟨content, [], []⟩ })

def value? (graph : Graph Code Body) (id : Nat) : Option Value :=
  match graph.content? id with
  | some (.signal value) => some value
  | _ => none

def computed? (graph : Graph Code Body) (id : Nat) : Option (Computed Code) :=
  match graph.content? id with
  | some (.computed computed) => some computed
  | _ => none

def effect? (graph : Graph Code Body) (id : Nat) : Option (Effect Code Body) :=
  match graph.content? id with
  | some (.effect effect) => some effect
  | _ => none

def setSignal (graph : Graph Code Body) (id : Nat) (value : Value) : Graph Code Body :=
  graph.modify id fun vertex => { vertex with content := .signal value }

def modifyComputed (graph : Graph Code Body) (id : Nat) (f : Computed Code → Computed Code) : Graph Code Body :=
  graph.modify id fun vertex =>
    match vertex.content with
    | .computed computed => { vertex with content := .computed (f computed) }
    | _ => vertex

def modifyEffect (graph : Graph Code Body) (id : Nat) (f : Effect Code Body → Effect Code Body) : Graph Code Body :=
  graph.modify id fun vertex =>
    match vertex.content with
    | .effect effect => { vertex with content := .effect (f effect) }
    | _ => vertex

/-- Notes that the observer, if there is one, reads a member. -/
def track (graph : Graph Code Body) (source : Nat) : Graph Code Body :=
  match graph.observer with
  | none => graph
  | some observer =>
    (graph.modify source fun vertex => { vertex with subscribers := insertNew vertex.subscribers observer }).modify
      observer fun vertex => { vertex with sources := insertNew vertex.sources source }

def unsubscribe (graph : Graph Code Body) (source subscriber : Nat) : Graph Code Body :=
  graph.modify source fun vertex => { vertex with subscribers := vertex.subscribers.filter (· != subscriber) }

/-- Forgets all that a member reads. -/
def release (graph : Graph Code Body) (id : Nat) : Graph Code Body :=
  let sources := graph.sources id
  let graph := graph.modify id fun vertex => { vertex with sources := [] }
  sources.foldl (fun graph source => graph.unsubscribe source id) graph

def enqueue (graph : Graph Code Body) (id : Nat) : Graph Code Body :=
  { graph with queue := insertNew graph.queue id }

def dequeue (graph : Graph Code Body) (id : Nat) : Graph Code Body :=
  { graph with queue := graph.queue.filter (· != id) }

/-- Whether a member is a computed value that is up to date. -/
def isFresh (graph : Graph Code Body) (id : Nat) : Bool :=
  match graph.computed? id with
  | some computed => !computed.stale
  | none => false

def freshCount (graph : Graph Code Body) : Nat := (List.range graph.vertices.size).countP graph.isFresh

/-- A computed value goes stale and forgets what it read; it will read again when asked. -/
def expire (graph : Graph Code Body) (id : Nat) : Graph Code Body :=
  (graph.modifyComputed id fun computed => { computed with stale := true }).release id

theorem size_modify (graph : Graph Code Body) (id : Nat) (f : Vertex Code Body → Vertex Code Body) :
    (graph.modify id f).vertices.size = graph.vertices.size := by
  simp [modify]

theorem content?_modify (graph : Graph Code Body) (id other : Nat) (f : Vertex Code Body → Vertex Code Body) :
    (graph.modify id f).content? other =
      if other = id then (graph.vertices[id]?).map (fun vertex => (f vertex).content)
      else graph.content? other := by
  simp only [content?, modify, Array.getElem?_modify]
  by_cases same : id = other
  · subst same; simp [Function.comp_def]
  · simp [same, Ne.symm same]

theorem content?_unsubscribe (graph : Graph Code Body) (source subscriber other : Nat) :
    (graph.unsubscribe source subscriber).content? other = graph.content? other := by
  rw [unsubscribe, content?_modify]
  split
  · next same => subst same; simp [content?]
  · rfl

theorem content?_release (graph : Graph Code Body) (id other : Nat) :
    (graph.release id).content? other = graph.content? other := by
  have folded (sources : List Nat) : ∀ start : Graph Code Body,
      (sources.foldl (fun graph source => graph.unsubscribe source id) start).content? other =
        start.content? other := by
    induction sources with
    | nil => intro start; rfl
    | cons source rest ih =>
      intro start
      rw [List.foldl_cons, ih, content?_unsubscribe]
  rw [release, folded, content?_modify]
  split
  · next same => subst same; simp [content?]
  · rfl

theorem size_release (graph : Graph Code Body) (id : Nat) :
    (graph.release id).vertices.size = graph.vertices.size := by
  have folded (sources : List Nat) : ∀ start : Graph Code Body,
      (sources.foldl (fun graph source => graph.unsubscribe source id) start).vertices.size =
        start.vertices.size := by
    induction sources with
    | nil => intro start; rfl
    | cons source rest ih =>
      intro start
      rw [List.foldl_cons, ih, unsubscribe, size_modify]
  rw [release, folded, size_modify]

theorem size_expire (graph : Graph Code Body) (id : Nat) :
    (graph.expire id).vertices.size = graph.vertices.size := by
  rw [expire, size_release, modifyComputed, size_modify]

theorem isFresh_expire (graph : Graph Code Body) (id other : Nat) :
    (graph.expire id).isFresh other = (graph.isFresh other && other != id) := by
  by_cases same : other = id
  · subst same
    simp only [isFresh, computed?, expire, content?_release, modifyComputed, content?_modify, if_true]
    cases found : graph.vertices[other]? with
    | none => simp
    | some vertex => cases kind : vertex.content <;> simp [kind]
  · simp [isFresh, computed?, expire, content?_release, modifyComputed, content?_modify, same]

theorem freshCount_expire (graph : Graph Code Body) (id : Nat) (fresh : graph.isFresh id = true) :
    (graph.expire id).freshCount < graph.freshCount := by
  have inside : id < graph.vertices.size := by
    by_cases inside : id < graph.vertices.size
    · exact inside
    · simp [isFresh, computed?, content?, Array.getElem?_eq_none (Nat.le_of_not_lt inside)] at fresh
  rw [freshCount, freshCount, size_expire]
  refine countP_lt _ _ _ (fun a holds => ?_) id (List.mem_range.2 inside) fresh ?_
  · rw [isFresh_expire] at holds
    exact (Bool.and_eq_true_iff.1 holds).1
  · simp [isFresh_expire]

/-- An effect that is told of a change waits to run again. -/
def wake (graph : Graph Code Body) (id : Nat) : Graph Code Body :=
  match graph.effect? id with
  | some effect => if effect.disposed then graph else graph.enqueue id
  | none => graph

theorem freshCount_wake (graph : Graph Code Body) (id : Nat) : (graph.wake id).freshCount = graph.freshCount := by
  unfold wake
  split
  · split <;> rfl
  · rfl

/-- Tells the pending members that something they read has changed. A computed value that
was up to date expires and passes the word on; it expires once, which bounds the walk. -/
def notify (graph : Graph Code Body) (pending : List Nat) : Graph Code Body :=
  match pending with
  | [] => graph
  | id :: rest =>
    if _fresh : graph.isFresh id = true then
      notify (graph.expire id) ((graph.expire id).subscribers id ++ rest)
    else notify (graph.wake id) rest
termination_by (graph.freshCount, pending.length)
decreasing_by
  · simp only [Prod.lex_def]
    exact .inl (freshCount_expire graph id _fresh)
  · simp only [Prod.lex_def, freshCount_wake]
    exact .inr ⟨trivial, Nat.lt_succ_self _⟩

/-- Tells all that read a member. -/
def notifyReaders (graph : Graph Code Body) (id : Nat) : Graph Code Body := graph.notify (graph.subscribers id)

/-- Takes the first effect that waits. -/
def pop? (graph : Graph Code Body) : Option (Nat × Graph Code Body) :=
  match graph.queue with
  | [] => none
  | id :: rest => some (id, { graph with queue := rest })

def enterBatch (graph : Graph Code Body) : Graph Code Body := { graph with depth := graph.depth + 1 }

/-- Leaves a batch. When a panic leaves the outermost one, nothing waits any more. -/
def leaveBatch (panicking : Bool) (graph : Graph Code Body) : Graph Code Body :=
  let graph := { graph with depth := graph.depth - 1 }
  if graph.depth = 0 && panicking then { graph with queue := [] } else graph

end Graph

end ReactiveMarkup
