import ReactiveMarkup.Interpreter
import ReactiveMarkup.Proofs.DocumentLaws
import ReactiveMarkup.Proofs.Writing

/-! One pass over a keyed list. Nothing is assumed of the nodes of items but that each shows a
block of handles, which is put in behind its anchor when the node is mounted, and taken out when
it is unmounted. -/

namespace ReactiveMarkup.Machine

open ReactiveMarkup.Step

variable {host : Host} {breaks : Breaks}

/-- A mounted node and the handles that it shows. -/
structure Block where
  node : NodeId
  handles : List Handle

/-- An item of a list, with the handles that its node shows. -/
structure Row where
  key : String
  entry : ListEntry
  handles : List Handle

def Row.block (row : Row) : Block := ⟨row.entry.node, row.handles⟩

/-- The handles of some items, one after another. -/
def shownBy (rows : List Row) : List Handle := rows.flatMap Row.handles

/-- What is done to single nodes in a pass. -/
inductive ItemEvent where
  | unmounted (node : NodeId)
  | mounted (key : String) (node : NodeId)
  deriving DecidableEq

def Row.unmounted (row : Row) : ItemEvent := .unmounted row.entry.node

def Row.mounted (row : Row) : ItemEvent := .mounted row.key row.entry.node

/-- A journal after some events. -/
def entriesOf {τ : Type} (entered : ItemEvent → τ → τ) (events : List ItemEvent) (journal : τ) : τ :=
  events.foldl (fun journal event => entered event journal) journal

theorem entriesOf_append (events journal : List ItemEvent) :
    entriesOf (fun event events => events ++ [event]) events journal = journal ++ events := by
  induction events generalizing journal with
  | nil => simp [entriesOf]
  | cons event rest ih => simpa [entriesOf] using ih (journal ++ [event])

/-- What a step on the node of one item leaves alone: the list, and what signals hold. -/
structure Spared (id : NodeId) (before after : Machine host) : Prop where
  list : after.nodes[id]? = before.nodes[id]?
  signals : ∀ cell value, before.graph.content? cell = some (.signal value) →
    after.graph.content? cell = some (.signal value)

/-- The node of a new item, made and mounted. -/
def renderItem (calls : Calls host) (id : NodeId) (target : Handle) (builder : ItemBuilder host.Code)
    (key : String) (signal : Nat) : Run host NodeId := do
  let child ← holding [] (buildItem calls builder signal)
  holding [.node child] (calls.mount child target (.item id key))
  return child

/-- How the places of nodes are found. Mounted nodes show their handles, and an anchor stays
where it is. -/
structure Outlook (breaks : Breaks) (calls : Calls host) (anchor : Anchor) (place : Option Handle)
    (Holds : Machine host → List Block → Prop) : Prop where
  isMounted : ∀ {machine blocks block}, Holds machine blocks → block ∈ blocks →
    Ensures breaks (isMounted block.node) machine fun mounted after => mounted = true ∧ after = machine
  elements : ∀ {machine blocks block}, Holds machine blocks → block ∈ blocks →
    Ensures breaks (calls.elements block.node) machine fun handles after => handles = block.handles ∧ after = machine
  resolve : ∀ {machine blocks}, Holds machine blocks →
    Ensures breaks (calls.resolve anchor) machine fun found after => found = place ∧ after = machine

/-- How the nodes of a list behave. Some machines are in order, with some nodes mounted in the
target; the steps of a pass lead from one to another. A journal may be kept of what is done to
single nodes. -/
structure Upkeep {τ : Type} (breaks : Breaks) (calls : Calls host) (id : NodeId) (target : Handle) (anchor : Anchor)
    (place : Option Handle) (journal : Machine host → τ) (entered : ItemEvent → τ → τ)
    (Holds : Machine host → List Block → Prop) : Prop extends Outlook breaks calls anchor place Holds where
  symmetric : ∀ {machine blocks}, Holds machine blocks → machine.graph.Symmetric
  distinct : ∀ {machine blocks}, Holds machine blocks → (blocks.map Block.node).Nodup
  perm : ∀ {machine blocks others}, Holds machine blocks → blocks.Perm others → Holds machine others
  /-- A pass is part of a batch: no effect runs until its end. -/
  flush : ∀ {machine blocks}, Holds machine blocks →
    Ensures breaks calls.flush machine fun _ after => after = machine
  /-- The list is free to take down its items. -/
  listed : ∀ {machine blocks list}, Holds machine blocks → machine.nodes[id]? = some (.list list) →
    ∀ keys entries emptyMounted, let after := { machine with
      nodes := machine.nodes.set! id (.list { list with keys, entries, emptyMounted }) }
    Holds after blocks ∧ journal after = journal machine
  /-- The list is free to rearrange the children of its target. -/
  regrouped : ∀ {machine blocks document children}, Holds machine blocks →
    Document.Regrouped machine.document document target children [] none →
    Holds { machine with document } blocks ∧ journal { machine with document } = journal machine
  /-- The list is free to make signals and to write those of its items. -/
  added : ∀ {machine blocks}, Holds machine blocks → ∀ value,
    let after := { machine with graph := (machine.graph.add (.signal value)).2 }
    Holds after blocks ∧ journal after = journal machine
  written : ∀ {machine blocks cell old}, Holds machine blocks → machine.graph.content? cell = some (.signal old) →
    ∀ value, let after := { machine with graph := machine.graph.write cell value }
    Holds after blocks ∧ journal after = journal machine
  /-- Unmounting a node takes out its handles. -/
  unmount : ∀ {machine block blocks children}, Holds machine (block :: blocks) →
    machine.document.Stands target children → block.handles ⊆ children →
    Ensures breaks (calls.unmount block.node target) machine fun _ after =>
      Holds after blocks ∧ Spared id machine after ∧
        after.document.Stands target (children.filter (· ∉ block.handles)) ∧
        journal after = entered (.unmounted block.node) (journal machine)
  /-- A new node puts in its handles behind those of the items before it. -/
  render : ∀ {machine blocks list rows key later front back signal item}, Holds machine blocks →
    machine.nodes[id]? = some (.list list) → list.keys = rows.map Row.key ++ key :: later → list.keys.Nodup →
    (∀ row ∈ rows, Entries.get? list.entries row.key = some row.entry ∧ row.block ∈ blocks) →
    front.getLast? = (shownBy rows).getLast?.or place → machine.document.Stands target (front ++ back) →
    machine.graph.content? signal = some (.signal item) →
    Ensures breaks (renderItem calls id target list.builder key signal) machine fun child after =>
      ∃ handles, Holds after (⟨child, handles⟩ :: blocks) ∧ Spared id machine after ∧
        after.document.Stands target (front ++ handles ++ back) ∧
        journal after = entered (.mounted key child) (journal machine)

theorem ensures_list? {machine : Machine host} {id : NodeId} {list : ListNode host.Code}
    (found : machine.nodes[id]? = some (.list list)) (post : Option (ListNode host.Code) → Machine host → Prop) :
    Ensures breaks (list? id) machine post ↔ post (some list) machine := by
  simp only [list?, node?, ensures_bind, ensures_get, ensures_pure, found]

theorem ensures_modifyList {machine : Machine host} {id : NodeId} {list : ListNode host.Code}
    (found : machine.nodes[id]? = some (.list list)) (f : ListNode host.Code → ListNode host.Code)
    (post : Unit → Machine host → Prop) :
    Ensures breaks (modifyList id f) machine post ↔
      post () { machine with nodes := machine.nodes.set! id (.list (f list)) } := by
  simp only [modifyList, ensures_bind, ensures_list? found, setNode, ensures_modify]

theorem getElem?_setNode {machine : Machine host} {id : NodeId} {old : Node host.Code}
    (found : machine.nodes[id]? = some old) (new : Node host.Code) :
    (machine.nodes.set! id new)[id]? = some new := by
  have inside : id < machine.nodes.size := (Array.getElem?_eq_some_iff.1 found).1
  simp [Array.set!_eq_setIfInBounds, inside]

theorem getElem?_setNode_of_ne {machine : Machine host} {id other : NodeId} (apart : other ≠ id) (new : Node host.Code) :
    (machine.nodes.set! id new)[other]? = machine.nodes[other]? := by
  rw [Array.set!_eq_setIfInBounds, Array.getElem?_setIfInBounds_ne (Ne.symm apart)]

private theorem ensures_editInPlace {machine : Machine host} {target first : Handle} {rest front back : List Handle}
    (place : Option Handle) (stands : machine.document.Stands target (front ++ first :: back)) (next : Bool → Run host Unit)
    (post : Unit → Machine host → Prop) (ensured : Ensures breaks (next (front.getLast? == place)) machine post) :
    Ensures breaks (match place with
      | some anchor => do
        let inPlace ← edit (Document.isAfter (first :: rest) anchor)
        next inPlace
      | none => do
        let inPlace ← edit (Document.isFirst (first :: rest) target)
        next inPlace) machine post := by
  cases place with
  | some anchor =>
    rw [ensures_bind, ensures_edit]
    exact (Document.ensures_inPlace (some anchor) stands _).2 ensured
  | none =>
    rw [ensures_bind, ensures_edit]
    exact (Document.ensures_inPlace none stands _).2 ensured

private theorem getLast?_append_eq_iff {front middle : List Handle} (distinct : (front ++ middle).Nodup) :
    (front ++ middle).getLast? = front.getLast? ↔ middle = [] := by
  cases last : middle.getLast? with
  | none => simp [List.getLast?_eq_none_iff.1 last]
  | some handle =>
    obtain ⟨start, rfl⟩ := List.getLast?_eq_some_iff.1 last
    rw [List.getLast?_append, last, Option.some_or]
    constructor
    · intro same
      have member : handle ∈ front := List.mem_of_getLast? same.symm
      exact absurd rfl ((List.nodup_append.1 distinct).2.2 handle member handle (by simp))
    · simp

theorem eq_of_nodup_map {α β : Type} {f : α → β} {members : List α} (distinct : (members.map f).Nodup) {a b : α}
    (first : a ∈ members) (second : b ∈ members) (same : f a = f b) : a = b := by
  induction members with
  | nil => cases first
  | cons head tail ih =>
    obtain ⟨fresh, distinctTail⟩ := List.nodup_cons.1 distinct
    rcases List.mem_cons.1 first with rfl | inFirst <;> rcases List.mem_cons.1 second with rfl | inSecond
    · rfl
    · exact absurd (same ▸ List.mem_map_of_mem inSecond) fresh
    · exact absurd (same ▸ List.mem_map_of_mem inFirst) fresh
    · exact ih distinctTail inFirst inSecond

/-- A list that has an entry for each of some items, each with a signal of its own. -/
structure Keeps (Holds : Machine host → List Block → Prop) (id : NodeId) (anchor : Anchor) (machine : Machine host)
    (list : ListNode host.Code) (rows : List Row) : Prop where
  found : machine.nodes[id]? = some (.list list)
  standing : list.anchor = anchor
  entries : ∀ key entry, Entries.get? list.entries key = some entry ↔ ∃ row ∈ rows, row.key = key ∧ row.entry = entry
  distinct : (rows.map Row.key).Nodup
  holds : Holds machine (rows.map Row.block)
  signals : (rows.map fun row => row.entry.signal).Nodup
  cells : ∀ row ∈ rows, ∃ value, machine.graph.content? row.entry.signal = some (.signal value)

/-- What a list shows: its items in order, or what it has for an empty list instead. -/
inductive Shows (Holds : Machine host → List Block → Prop) (id : NodeId) (anchor : Anchor) (machine : Machine host)
    (list : ListNode host.Code) : List Row → List Block → Prop where
  | items {rows : List Row} : Keeps Holds id anchor machine list rows → list.emptyMounted = false →
      list.keys = rows.map Row.key → Shows Holds id anchor machine list rows []
  | empty {block : Block} : machine.nodes[id]? = some (.list list) → list.anchor = anchor → list.emptyMounted = true →
      list.empty = some block.node → list.keys = [] → list.entries = [] → Holds machine [block] →
      Shows Holds id anchor machine list [] [block]

private theorem Shows.known {Holds : Machine host → List Block → Prop} {id : NodeId} {anchor : Anchor}
    {machine : Machine host} {list : ListNode host.Code} {rows : List Row} {instead : List Block}
    (shows : Shows Holds id anchor machine list rows instead) :
    machine.nodes[id]? = some (.list list) ∧ list.keys = rows.map Row.key ∧ (instead ≠ [] → list.keys = []) := by
  cases shows with
  | items keeps _ keys => exact ⟨keeps.found, keys, fun some => absurd rfl some⟩
  | empty found _ _ _ keys => exact ⟨found, keys, fun _ => keys⟩

section

variable {calls : Calls host} {anchor : Anchor} {place : Option Handle} {Holds : Machine host → List Block → Prop}
  (outlook : Outlook breaks calls anchor place Holds) {machine : Machine host} {list : ListNode host.Code}

include outlook

/-! Where an item belongs. -/

theorem ensures_lastElement {blocks : List Block} {block : Block} (holds : Holds machine blocks)
    (member : block ∈ blocks) :
    Ensures breaks (lastElement calls block.node) machine fun found after =>
      found = block.handles.getLast? ∧ after = machine := by
  rw [lastElement, ensures_bind]
  refine (outlook.isMounted holds member).mono ?_
  rintro _ _ ⟨rfl, rfl⟩
  simp only [if_true, ensures_bind, ensures_pure]
  refine (outlook.elements holds member).mono ?_
  rintro _ _ ⟨rfl, rfl⟩
  exact ⟨rfl, rfl⟩

theorem ensures_lastElementOf {blocks : List Block} (holds : Holds machine blocks) (rows : List Row)
    (known : ∀ row ∈ rows, Entries.get? list.entries row.key = some row.entry ∧ row.block ∈ blocks) :
    Ensures breaks (lastElementOf calls list.entries (rows.map Row.key)) machine fun found after =>
      found = (shownBy rows.reverse).getLast? ∧ after = machine := by
  induction rows with
  | nil => exact ⟨rfl, rfl⟩
  | cons row rest ih =>
    obtain ⟨entry, member⟩ := known row (List.mem_cons_self ..)
    have shown : shownBy (row :: rest).reverse = shownBy rest.reverse ++ row.handles := by simp [shownBy]
    simp only [List.map_cons, lastElementOf, entry, ensures_bind]
    refine (ensures_lastElement outlook holds member).mono ?_
    rintro _ _ ⟨rfl, rfl⟩
    rw [shown, List.getLast?_append]
    cases last : row.block.handles.getLast? with
    | some handle =>
      have same : row.handles.getLast? = some handle := last
      simp [same]
    | none =>
      have same : row.handles.getLast? = none := last
      simp only [same, Option.none_or]
      exact ih fun other inside => known other (List.mem_cons_of_mem _ inside)

/-- What comes before an item, when the items before it stand in order behind the anchor. -/
theorem ensures_anchorBefore {blocks : List Block} (holds : Holds machine blocks) (standing : list.anchor = anchor)
    {rows : List Row} {later : List String} (keys : list.keys = rows.map Row.key ++ later)
    (known : ∀ row ∈ rows, Entries.get? list.entries row.key = some row.entry ∧ row.block ∈ blocks) :
    Ensures breaks (anchorBefore calls list rows.length) machine fun found after =>
      found = (shownBy rows).getLast?.or place ∧ after = machine := by
  have before : (list.keys.take rows.length).reverse = rows.reverse.map Row.key := by
    rw [keys, ← List.length_map Row.key, List.take_left', List.map_reverse]
    rfl
  rw [anchorBefore, ensures_bind, before]
  refine (ensures_lastElementOf outlook holds rows.reverse fun row member => known row (List.mem_reverse.1 member)).mono ?_
  rintro _ _ ⟨rfl, rfl⟩
  rw [List.reverse_reverse]
  cases (shownBy rows).getLast? with
  | some handle => exact ⟨rfl, rfl⟩
  | none =>
    simp only [Option.none_or, standing]
    exact outlook.resolve holds

/-- An item finds its place through the list, as long as the list is there. -/
theorem ensures_resolve_item {id : NodeId} {blocks : List Block} (holds : Holds machine blocks)
    (kept : machine.isKept (.state id) = true) (found : machine.nodes[id]? = some (.list list))
    (standing : list.anchor = anchor) {rows : List Row} {key : String} {later : List String}
    (keys : list.keys = rows.map Row.key ++ key :: later) (distinct : list.keys.Nodup)
    (known : ∀ row ∈ rows, Entries.get? list.entries row.key = some row.entry ∧ row.block ∈ blocks) :
    Ensures breaks (resolve calls (.item id key)) machine fun found after =>
      found = (shownBy rows).getLast?.or place ∧ after = machine := by
  have index : list.keys.idxOf? key = some rows.length := by
    rw [keys] at distinct ⊢
    have fresh : key ∉ rows.map Row.key := fun member =>
      (List.nodup_append.1 distinct).2.2 key member key (List.mem_cons_self ..) rfl
    rw [idxOf?_append_cons fresh, List.length_map]
  simp only [resolve, ensures_bind, ensures_get, kept, Bool.not_true, Bool.false_eq_true, if_false, node?, found,
    ensures_pure, index]
  exact ensures_anchorBefore outlook holds standing keys known

end

section

variable {τ : Type} {calls : Calls host} {id : NodeId} {target : Handle} {anchor : Anchor} {place : Option Handle}
  {journal : Machine host → τ} {entered : ItemEvent → τ → τ} {Holds : Machine host → List Block → Prop}
  (upkeep : Upkeep breaks calls id target anchor place journal entered Holds)
  {machine : Machine host} {list : ListNode host.Code}

include upkeep

/-- An item comes to stand behind those that are in place, which costs nothing if it stands
there already. -/
theorem ensures_moveIntoPlace {rows placed : List Row} {row : Row} {later : List String}
    {front middle back : List Handle} (keeps : Keeps Holds id anchor machine list rows) (member : row ∈ rows)
    (inside : placed ⊆ rows) (keys : list.keys = placed.map Row.key ++ later) (behind : place = front.getLast?)
    (stands : machine.document.Stands target (front ++ shownBy placed ++ middle ++ row.handles ++ back)) :
    Ensures breaks (moveIntoPlace calls id target placed.length row.entry.node) machine fun _ after =>
      ∃ document, after = { machine with document } ∧
        document.Stands target (front ++ shownBy placed ++ row.handles ++ (middle ++ back)) ∧
        Holds after (rows.map Row.block) ∧ journal after = journal machine ∧
        (middle = [] → document = machine.document) := by
  have block : row.block ∈ rows.map Row.block := List.mem_map_of_mem member
  have known : ∀ row ∈ placed, Entries.get? list.entries row.key = some row.entry ∧ row.block ∈ rows.map Row.block :=
    fun other placedOther => ⟨(keeps.entries _ _).2 ⟨other, inside placedOther, rfl, rfl⟩,
      List.mem_map_of_mem (inside placedOther)⟩
  rw [moveIntoPlace, ensures_bind]
  refine (upkeep.elements keeps.holds block).mono ?_
  rintro _ machine ⟨rfl, rfl⟩
  show Ensures breaks (if row.handles.isEmpty then _ else _) _ _
  cases shape : row.handles with
  | nil =>
    rw [shape] at stands
    refine ⟨_, rfl, ?_, keeps.holds, rfl, fun _ => rfl⟩
    simpa using stands
  | cons first rest =>
    rw [shape] at stands
    simp only [List.isEmpty_cons, Bool.false_eq_true, if_false, ensures_bind, ensures_list? keeps.found]
    refine (ensures_anchorBefore upkeep.toOutlook keeps.holds keeps.standing keys known).mono ?_
    rintro _ machine ⟨rfl, rfl⟩
    have anchored : (shownBy placed).getLast?.or place = (front ++ shownBy placed).getLast? := by
      rw [List.getLast?_append, behind]
    have standsFirst : machine.document.Stands target (front ++ shownBy placed ++ middle ++ first :: (rest ++ back)) := by
      simpa using stands
    have distinct : (front ++ shownBy placed ++ middle).Nodup := (List.nodup_append.1 standsFirst.distinct).1
    have handles : row.block.handles = first :: rest := shape
    rw [anchored, handles]
    refine ensures_editInPlace _ standsFirst (fun inPlace => if inPlace = true then pure () else do
      edit (Document.unmount (first :: rest) target)
      edit (Document.mount (first :: rest) target (front ++ shownBy placed).getLast?)) _ ?_
    by_cases still : middle = []
    · subst still
      rw [if_pos (by simp)]
      refine ⟨_, rfl, ?_, keeps.holds, rfl, fun _ => rfl⟩
      simpa using stands
    · have moves : ((front ++ shownBy placed ++ middle).getLast? == (front ++ shownBy placed).getLast?) = false := by
        rw [beq_eq_false_iff_ne]
        exact fun same => still ((getLast?_append_eq_iff distinct).1 same)
      simp only [moves, Bool.false_eq_true, if_false, ensures_bind, ensures_edit]
      have moved := @Document.ensures_move _ breaks _ _ _ _ _ _ stands
      rw [ensures_bind] at moved
      refine moved.mono fun _ between first => first.mono fun _ document moves => ?_
      obtain ⟨regrouped, standsNow⟩ := moves
      obtain ⟨holds, same⟩ := upkeep.regrouped keeps.holds regrouped
      exact ⟨document, rfl, standsNow, holds, same, fun none => absurd none still⟩

/-- A cell holds an item if it holds an equal value. -/
def HoldsItem (machine : Machine host) (cell : Nat) (item : Value) : Prop :=
  ∃ held, machine.graph.content? cell = some (.signal held) ∧ (held = item ∨ held.same item = true)

omit upkeep in
private theorem signal_write {cell other : Nat} {value held : Value} (symmetric : machine.graph.Symmetric)
    (apart : other ≠ cell) (found : machine.graph.content? other = some (.signal held)) :
    (machine.graph.write cell value).content? other = some (.signal held) := by
  rcases Graph.content?_write_of_ne symmetric apart with same | ⟨_, old, _⟩
  · exact same.trans found
  · rw [found] at old
    cases old

theorem ensures_writeItem {blocks : List Block} {cell : Nat} {old : Value} (holds : Holds machine blocks)
    (found : machine.graph.content? cell = some (.signal old)) (item : Value) :
    Ensures breaks (writeSignal calls cell item) machine fun _ after =>
      ∃ graph, after = { machine with graph } ∧ Holds after blocks ∧ journal after = journal machine ∧
        HoldsItem after cell item ∧ ∀ other value, other ≠ cell →
          machine.graph.content? other = some (.signal value) → graph.content? other = some (.signal value) := by
  have value? : machine.graph.value? cell = some old := by simp [Graph.value?, found]
  simp only [writeSignal, peek, ensures_bind, ensures_graph?, ensures_pure, value?, Option.getD_some]
  by_cases same : old.same item = true
  · rw [if_pos same]
    exact ⟨machine.graph, rfl, holds, rfl, ⟨old, found, .inr same⟩, fun _ _ _ kept => kept⟩
  · simp only [same, Bool.false_eq_true, if_false, changed, ensures_bind, ensures_modifyGraph]
    have symmetric := upkeep.symmetric holds
    obtain ⟨holdsNow, journalNow⟩ := upkeep.written holds found item
    refine (upkeep.flush holdsNow).mono ?_
    rintro _ _ rfl
    refine ⟨_, rfl, holdsNow, journalNow, ⟨item, ?_, .inl rfl⟩, fun other value apart kept => ?_⟩
    · exact Graph.content?_write_self symmetric (machine.graph.lt_size_of_content? found)
    · exact signal_write symmetric apart kept

/-- A new item, put in behind those that are in place. -/
theorem ensures_addItem {rows placed : List Row} {key : String} {later : List String} {front back : List Handle}
    (keeps : Keeps Holds id anchor machine list rows) (inside : placed ⊆ rows)
    (keys : list.keys = placed.map Row.key ++ key :: later) (distinct : list.keys.Nodup)
    (new : key ∉ rows.map Row.key) (behind : place = front.getLast?)
    (stands : machine.document.Stands target (front ++ shownBy placed ++ back)) (item : Value) :
    Ensures breaks (addItem calls id target list.builder key item) machine fun _ after =>
      ∃ row list', row.key = key ∧ list' = { list with entries := Entries.put list.entries key row.entry } ∧
        Keeps Holds id anchor after list' (row :: rows) ∧
        after.document.Stands target (front ++ shownBy placed ++ row.handles ++ back) ∧
        HoldsItem after row.entry.signal item ∧
        (∀ cell value, machine.graph.content? cell = some (.signal value) →
          after.graph.content? cell = some (.signal value)) ∧
        journal after = entered (.mounted key row.entry.node) (journal machine) := by
  obtain ⟨holdsAdded, journalAdded⟩ := upkeep.added keeps.holds item
  have known : ∀ row ∈ placed, Entries.get? list.entries row.key = some row.entry ∧ row.block ∈ rows.map Row.block :=
    fun other placedOther => ⟨(keeps.entries _ _).2 ⟨other, inside placedOther, rfl, rfl⟩,
      List.mem_map_of_mem (inside placedOther)⟩
  have anchored : (front ++ shownBy placed).getLast? = (shownBy placed).getLast?.or place := by
    rw [List.getLast?_append, behind]
  have content := machine.graph.content?_add (.signal item) machine.graph.vertices.size
  rw [if_pos rfl] at content
  have rendered := upkeep.render holdsAdded keeps.found keys distinct known anchored stands content
  have old {cell : Nat} {value : Value} (found : machine.graph.content? cell = some (.signal value)) :
      cell < machine.graph.vertices.size ∧
        (machine.graph.add (.signal item)).2.content? cell = some (.signal value) := by
    have inside := machine.graph.lt_size_of_content? found
    exact ⟨inside, by rw [Graph.content?_add, if_neg (by omega), found]⟩
  simp only [renderItem, ensures_bind, ensures_pure] at rendered
  simp only [addItem, newSignal, ensures_bind, ensures_addToGraph]
  refine rendered.mono fun child _ mounted => mounted.mono fun _ after result => ?_
  obtain ⟨handles, holds, spared, standsNow, journalNow⟩ := result
  have found : after.nodes[id]? = some (.list list) := spared.list.trans keeps.found
  rw [ensures_modifyList found]
  obtain ⟨holdsListed, journalListed⟩ := upkeep.listed holds found list.keys
    (Entries.put list.entries key ⟨machine.graph.vertices.size, child⟩) list.emptyMounted
  refine ⟨⟨key, ⟨machine.graph.vertices.size, child⟩, handles⟩, _, rfl, rfl,
    ⟨getElem?_setNode found _, keeps.standing, fun other entry => ?_, List.nodup_cons.2 ⟨new, keeps.distinct⟩, holdsListed,
      List.nodup_cons.2 ⟨?_, keeps.signals⟩, ?_⟩,
    standsNow, ⟨item, spared.signals _ _ content, .inl rfl⟩, fun cell value kept => spared.signals _ _ (old kept).2, ?_⟩
  · simp only [Entries.get?_put, List.mem_cons, exists_eq_or_imp]
    by_cases here : other = key
    · subst here
      simp only [if_true, Option.some.injEq, true_and]
      refine ⟨.inl, fun either => either.resolve_right ?_⟩
      rintro ⟨row, member, same, _⟩
      exact new (same ▸ List.mem_map_of_mem member)
    · simp [here, Ne.symm here, keeps.entries]
  · intro member
    obtain ⟨row, inRows, same⟩ := List.mem_map.1 member
    obtain ⟨value, kept⟩ := keeps.cells row inRows
    have inside := (old kept).1
    have taken : row.entry.signal = machine.graph.vertices.size := same
    omega
  · intro row member
    rcases List.mem_cons.1 member with rfl | inRows
    · exact ⟨item, spared.signals _ _ content⟩
    · obtain ⟨value, kept⟩ := keeps.cells row inRows
      exact ⟨value, spared.signals _ _ (old kept).2⟩
  · rw [journalListed, journalNow, journalAdded]

theorem Keeps.perm {rows others : List Row} (keeps : Keeps Holds id anchor machine list rows)
    (perm : rows.Perm others) : Keeps Holds id anchor machine list others := by
  refine ⟨keeps.found, keeps.standing, fun key entry => ?_, (perm.map _).nodup_iff.1 keeps.distinct,
    upkeep.perm keeps.holds (perm.map _), (perm.map _).nodup_iff.1 keeps.signals,
    fun row member => keeps.cells row (perm.mem_iff.2 member)⟩
  rw [keeps.entries]
  simp only [perm.mem_iff]

omit upkeep in
/-- What a step leaves of a list whose node it does not touch. -/
private theorem Keeps.kept {after : Machine host} {rows : List Row} (keeps : Keeps Holds id anchor machine list rows)
    (holds : Holds after (rows.map Row.block)) (nodes : after.nodes = machine.nodes)
    (cells : ∀ row ∈ rows, ∃ value, after.graph.content? row.entry.signal = some (.signal value)) :
    Keeps Holds id anchor after list rows :=
  ⟨nodes ▸ keeps.found, keeps.standing, keeps.entries, keeps.distinct, holds, keeps.signals, cells⟩

omit upkeep in
/-- One item less. -/
private theorem Keeps.dropped {after : Machine host} {row : Row} {rows : List Row}
    (keeps : Keeps Holds id anchor machine list (row :: rows))
    (found : after.nodes[id]? = some (.list { list with entries := Entries.erase list.entries row.key }))
    (holds : Holds after (rows.map Row.block))
    (cells : ∀ cell value, machine.graph.content? cell = some (.signal value) →
      after.graph.content? cell = some (.signal value)) :
    Keeps Holds id anchor after { list with entries := Entries.erase list.entries row.key } rows := by
  obtain ⟨fresh, distinct⟩ := List.nodup_cons.1 keeps.distinct
  refine ⟨found, keeps.standing, fun key entry => ?_, distinct, holds, (List.nodup_cons.1 keeps.signals).2,
    fun other inside => ?_⟩
  · simp only [Entries.get?_erase]
    by_cases here : key = row.key
    · subst here
      simp only [if_true, reduceCtorEq, false_iff]
      rintro ⟨other, inside, same, _⟩
      exact fresh (same ▸ List.mem_map_of_mem inside)
    · simp [here, Ne.symm here, keeps.entries]
  · obtain ⟨value, held⟩ := keeps.cells other (List.mem_cons_of_mem _ inside)
    exact ⟨value, cells _ _ held⟩

/-- An item that is there comes to its place and takes its new value. -/
private theorem ensures_keepItem {rows placed : List Row} {row : Row} {later : List String}
    {front middle back : List Handle} (keeps : Keeps Holds id anchor machine list rows) (member : row ∈ rows)
    (inside : placed ⊆ rows) (keys : list.keys = placed.map Row.key ++ later) (behind : place = front.getLast?)
    (stands : machine.document.Stands target (front ++ shownBy placed ++ middle ++ row.handles ++ back)) (item : Value) :
    Ensures breaks (do
        moveIntoPlace calls id target placed.length row.entry.node
        writeSignal calls row.entry.signal item) machine fun _ after =>
      Keeps Holds id anchor after list rows ∧
        after.document.Stands target (front ++ shownBy placed ++ row.handles ++ (middle ++ back)) ∧
        HoldsItem after row.entry.signal item ∧
        (∀ other ∈ rows, other ≠ row → ∀ value, machine.graph.content? other.entry.signal = some (.signal value) →
          after.graph.content? other.entry.signal = some (.signal value)) ∧
        journal after = journal machine ∧ (middle = [] → after.document = machine.document) := by
  rw [ensures_bind]
  refine (ensures_moveIntoPlace upkeep keeps member inside keys behind stands).mono ?_
  rintro _ _ ⟨document, rfl, standsNow, holds, journalMoved, still⟩
  obtain ⟨old, found⟩ := keeps.cells row member
  refine (ensures_writeItem upkeep holds found item).mono ?_
  rintro _ _ ⟨graph, rfl, holdsWritten, journalWritten, held, others⟩
  have apart {other : Row} (inRows : other ∈ rows) (different : other ≠ row) : other.entry.signal ≠ row.entry.signal :=
    fun same => different (eq_of_nodup_map keeps.signals inRows member same)
  refine ⟨keeps.kept holdsWritten rfl fun other inRows => ?_, standsNow, held, ?_, journalWritten.trans journalMoved,
    still⟩
  · by_cases same : other = row
    · subst same
      obtain ⟨value, now, _⟩ := held
      exact ⟨value, now⟩
    · obtain ⟨value, kept⟩ := keeps.cells other inRows
      exact ⟨value, others _ _ (apart inRows same) kept⟩
  · exact fun other inRows different value kept => others _ _ (apart inRows different) kept

/-- What placing some items leads to, when some others are in place and some of them are there. -/
structure Placed (upkeep : Upkeep breaks calls id target anchor place journal entered Holds) (before after : Machine host)
    (list : ListNode host.Code) (placed remaining : List Row) (pairs : List (String × Value)) (front back : List Handle)
    (later : ListNode host.Code) (rows : List Row) : Prop where
  list : later = { list with entries := later.entries }
  keeps : Keeps Holds id anchor after later (placed ++ rows)
  keys : rows.map Row.key = pairs.map Prod.fst
  survive : remaining ⊆ rows
  stands : after.document.Stands target (front ++ shownBy (placed ++ rows) ++ back)
  filled : ∀ filled ∈ rows.zip (pairs.map Prod.snd), HoldsItem after filled.1.entry.signal filled.2
  spared : ∀ row ∈ placed, ∀ value, before.graph.content? row.entry.signal = some (.signal value) →
    after.graph.content? row.entry.signal = some (.signal value)
  journal : journal after =
    entriesOf entered ((rows.filter (·.key ∉ remaining.map Row.key)).map Row.mounted) (journal before)
  still : remaining.map Row.key = pairs.map Prod.fst → after.document = before.document

theorem ensures_placeItems (pairs : List (String × Value)) {placed remaining : List Row} {front back : List Handle}
    (keeps : Keeps Holds id anchor machine list (placed ++ remaining))
    (keys : list.keys = placed.map Row.key ++ pairs.map Prod.fst) (distinct : list.keys.Nodup)
    (wanted : ∀ row ∈ remaining, row.key ∈ pairs.map Prod.fst) (behind : place = front.getLast?)
    (stands : machine.document.Stands target (front ++ shownBy placed ++ (shownBy remaining ++ back))) :
    Ensures breaks (placeItems calls id target placed.length pairs) machine fun _ after =>
      ∃ later rows, Placed upkeep machine after list placed remaining pairs front back later rows := by
  induction pairs generalizing machine list placed remaining with
  | nil =>
    have none : remaining = [] := List.eq_nil_iff_forall_not_mem.2 fun row member => by simpa using wanted row member
    subst none
    refine ⟨list, [], rfl, keeps, rfl, fun _ member => member, by simpa [shownBy] using stands, by simp, fun _ _ _ kept => kept,
      rfl, fun _ => rfl⟩
  | cons pair rest ih =>
    obtain ⟨key, item⟩ := pair
    simp only [placeItems, ensures_bind, ensures_list? keeps.found]
    have grown (row : Row) : (placed ++ [row]).length = placed.length + 1 := by simp
    cases found : Entries.get? list.entries key with
    | some entry =>
      obtain ⟨row, member, rfl, rfl⟩ := (keeps.entries key entry).1 found
      have unplaced : row ∉ placed := by
        intro inside
        rw [keys] at distinct
        exact (List.nodup_append.1 distinct).2.2 row.key (List.mem_map_of_mem inside) row.key (by simp) rfl
      obtain ⟨passed, ahead, rfl⟩ := List.append_of_mem ((List.mem_append.1 member).resolve_left unplaced)
      have standsRow : machine.document.Stands target
          (front ++ shownBy placed ++ shownBy passed ++ row.handles ++ (shownBy ahead ++ back)) := by
        simpa [shownBy] using stands
      have kept := ensures_keepItem upkeep keeps member (List.subset_append_left ..) keys behind standsRow item
      rw [ensures_bind] at kept
      simp only [ensures_bind]
      refine kept.mono fun _ _ step => step.mono fun _ between result => ?_
      obtain ⟨keepsNow, standsNow, held, others, journalNow, still⟩ := result
      have perm : (placed ++ (passed ++ row :: ahead)).Perm (placed ++ [row] ++ (passed ++ ahead)) := by
        simpa using List.perm_middle.append_left placed
      have keysNow := (perm.map Row.key).nodup_iff.1 keeps.distinct
      have otherKey {other : Row} (inside : other ∈ passed ++ ahead) : other.key ≠ row.key := by
        intro same
        rw [List.map_append] at keysNow
        exact (List.nodup_append.1 keysNow).2.2 row.key (by simp) other.key (List.mem_map_of_mem inside) same.symm
      have wantedRest : ∀ other ∈ passed ++ ahead, other.key ∈ rest.map Prod.fst := by
        intro other inside
        have either := wanted other (by simp only [List.mem_append, List.mem_cons] at inside ⊢; grind)
        exact (List.mem_cons.1 either).resolve_left (otherKey inside)
      rw [← grown row]
      refine (ih (keepsNow.perm upkeep perm) (by simpa using keys) distinct wantedRest
        (by simpa [shownBy] using standsNow)).mono ?_
      rintro _ after ⟨later, rows, placedRest⟩
      refine ⟨later, row :: rows, placedRest.list, by simpa using placedRest.keeps, by simp [placedRest.keys], ?_,
        by simpa using placedRest.stands, ?_, fun other inside value kept => ?_, ?_, fun same => ?_⟩
      · intro other inside
        have survive := placedRest.survive
        simp only [List.mem_append, List.mem_cons] at inside ⊢
        grind
      · intro filled inside
        rcases List.mem_cons.1 inside with rfl | inside
        · obtain ⟨value, now, equal⟩ := held
          exact ⟨value, placedRest.spared row (by simp) value now, equal⟩
        · exact placedRest.filled filled inside
      · refine placedRest.spared other (List.mem_append_left _ inside) value (others other ?_ ?_ value kept)
        · exact List.mem_append_left _ inside
        · exact fun same => unplaced (same ▸ inside)
      · rw [placedRest.journal, journalNow]
        congr 2
        rw [List.filter_cons_of_neg (by simp)]
        refine List.filter_congr fun other inside => ?_
        have apart : other.key ≠ row.key := by
          intro same
          have inRest : other.key ∈ rest.map Prod.fst := placedRest.keys ▸ List.mem_map_of_mem inside
          rw [keys] at distinct
          exact (List.nodup_cons.1 (List.nodup_append.1 distinct).2.1).1 (same ▸ inRest)
        simp [apart]
      · cases passed with
        | nil =>
          rw [placedRest.still (by simpa using same), still rfl]
        | cons first others =>
          simp only [List.cons_append, List.map_cons, List.cons.injEq] at same
          exact absurd same.1 (otherKey (by simp))
    | none =>
      have new : key ∉ (placed ++ remaining).map Row.key := by
        intro member
        obtain ⟨row, inRows, same⟩ := List.mem_map.1 member
        rw [(keeps.entries key row.entry).2 ⟨row, inRows, same, rfl⟩] at found
        cases found
      simp only [ensures_bind]
      refine (ensures_addItem upkeep keeps (List.subset_append_left ..) keys distinct new behind stands item).mono ?_
      rintro _ between ⟨row, _, rfl, rfl, keepsNow, standsNow, held, spared, journalNow⟩
      have perm : (row :: (placed ++ remaining)).Perm (placed ++ [row] ++ remaining) := by
        simpa using List.perm_middle.symm
      have wantedRest : ∀ other ∈ remaining, other.key ∈ rest.map Prod.fst := by
        intro other inside
        refine (List.mem_cons.1 (wanted other inside)).resolve_left fun same => new ?_
        exact List.mem_map.2 ⟨other, List.mem_append_right _ inside, same⟩
      rw [← grown row]
      refine (ih (keepsNow.perm upkeep perm) (by simpa using keys) distinct wantedRest
        (by simpa [shownBy] using standsNow)).mono ?_
      rintro _ after ⟨later, rows, placedRest⟩
      have fresh : row.key ∉ remaining.map Row.key := fun inside => new (by simp at inside ⊢; grind)
      refine ⟨later, row :: rows, placedRest.list, by simpa using placedRest.keeps, by simp [placedRest.keys],
        fun other inside => List.mem_cons_of_mem _ (placedRest.survive inside), by simpa using placedRest.stands, ?_,
        fun other inside value kept => placedRest.spared other (List.mem_append_left _ inside) value (spared _ _ kept), ?_,
        fun same => ?_⟩
      · intro filled inside
        rcases List.mem_cons.1 inside with rfl | inside
        · obtain ⟨value, now, equal⟩ := held
          exact ⟨value, placedRest.spared row (by simp) value now, equal⟩
        · exact placedRest.filled filled inside
      · rw [placedRest.journal, journalNow, List.filter_cons_of_pos (by simpa using fresh)]
        rfl
      · exact absurd (by rw [same]; simp) fresh

/-! Items that are not wanted any more. -/

/-- What removing items leads to. -/
structure Removed (upkeep : Upkeep breaks calls id target anchor place journal entered Holds) (before after : Machine host)
    (list : ListNode host.Code) (kept rows : List Row) (wanted : List String) (front back : List Handle)
    (later : ListNode host.Code) : Prop where
  list : later = { list with entries := later.entries }
  keeps : Keeps Holds id anchor after later (kept ++ rows.filter (·.key ∈ wanted))
  stands : after.document.Stands target (front ++ shownBy (kept ++ rows.filter (·.key ∈ wanted)) ++ back)
  journal : journal after = entriesOf entered ((rows.filter (·.key ∉ wanted)).map Row.unmounted) (journal before)
  still : (∀ row ∈ rows, row.key ∈ wanted) → after.document = before.document

theorem ensures_removeVanished (rows : List Row) {kept : List Row} {wanted : List String} {front back : List Handle}
    (keeps : Keeps Holds id anchor machine list (kept ++ rows))
    (stands : machine.document.Stands target (front ++ shownBy (kept ++ rows) ++ back)) :
    Ensures breaks (removeVanished calls id target wanted (rows.map Row.key)) machine fun _ after =>
      ∃ later, Removed upkeep machine after list kept rows wanted front back later := by
  induction rows generalizing machine list kept with
  | nil => exact ⟨list, rfl, by simpa using keeps, by simpa using stands, rfl, fun _ => rfl⟩
  | cons row rest ih =>
    simp only [List.map_cons, removeVanished]
    by_cases stays : row.key ∈ wanted
    · have noMatch : (!wanted.contains row.key) = false := by simpa using stays
      simp only [noMatch, Bool.false_eq_true, if_false]
      have keepsRow : Keeps Holds id anchor machine list ((kept ++ [row]) ++ rest) := by simpa using keeps
      refine (ih keepsRow (by simpa using stands)).mono ?_
      rintro _ after ⟨later, removed⟩
      have same : (row :: rest).filter (·.key ∈ wanted) = row :: rest.filter (·.key ∈ wanted) :=
        List.filter_cons_of_pos (by simpa using stays)
      have gone : (row :: rest).filter (·.key ∉ wanted) = rest.filter (·.key ∉ wanted) :=
        List.filter_cons_of_neg (by simpa using stays)
      refine ⟨later, removed.list, ?_, ?_, ?_, fun all => removed.still fun other inside => all other (by simp [inside])⟩
      · rw [same]
        simpa using removed.keeps
      · rw [same]
        simpa using removed.stands
      · rw [gone]
        exact removed.journal
    · have noMatch : (!wanted.contains row.key) = true := by simpa using stays
      have entry : Entries.get? list.entries row.key = some row.entry :=
        (keeps.entries _ _).2 ⟨row, by simp, rfl, rfl⟩
      simp only [noMatch, if_true, ensures_bind, ensures_list? keeps.found, ensures_modifyList keeps.found, entry]
      obtain ⟨holds, journalListed⟩ := upkeep.listed keeps.holds keeps.found list.keys
        (Entries.erase list.entries row.key) list.emptyMounted
      have perm : (kept ++ row :: rest).Perm (row :: (kept ++ rest)) := List.perm_middle
      have inside : row.block.handles ⊆ front ++ shownBy (kept ++ row :: rest) ++ back := by
        intro handle member
        simp only [shownBy, List.flatMap_append, List.flatMap_cons, List.mem_append]
        exact .inl (.inr (.inr (.inl member)))
      refine (upkeep.unmount (upkeep.perm holds (perm.map Row.block)) stands inside).mono ?_
      rintro _ between ⟨holdsNow, spared, standsNow, journalNow⟩
      have around : front ++ shownBy (kept ++ row :: rest) ++ back =
          (front ++ shownBy kept) ++ row.block.handles ++ (shownBy rest ++ back) := by
        simp [shownBy, Row.block]
      rw [around] at stands standsNow
      rw [stands.filter_block] at standsNow
      have keepsNow : Keeps Holds id anchor between { list with entries := Entries.erase list.entries row.key }
          (kept ++ rest) := by
        refine (keeps.perm upkeep perm).dropped (spared.list.trans (getElem?_setNode keeps.found _)) holdsNow ?_
        exact fun cell value known => spared.signals cell value known
      refine (ih keepsNow (by simpa [shownBy] using standsNow)).mono ?_
      rintro _ after ⟨later, removed⟩
      have same : (row :: rest).filter (·.key ∈ wanted) = rest.filter (·.key ∈ wanted) :=
        List.filter_cons_of_neg (by simpa using stays)
      have gone : (row :: rest).filter (·.key ∉ wanted) = row :: rest.filter (·.key ∉ wanted) :=
        List.filter_cons_of_pos (by simpa using stays)
      refine ⟨later, removed.list, ?_, ?_, ?_, fun all => absurd (all row (by simp)) stays⟩
      · rw [same]
        exact removed.keeps
      · rw [same]
        exact removed.stands
      · rw [gone, removed.journal, journalNow, journalListed]
        rfl

theorem ensures_hideEmpty {rows : List Row} {instead : List Block} {front back : List Handle}
    (shows : Shows Holds id anchor machine list rows instead)
    (stands : machine.document.Stands target (front ++ (shownBy rows ++ instead.flatMap Block.handles) ++ back)) :
    Ensures breaks (hideEmpty calls id target) machine fun _ after =>
      Keeps Holds id anchor after { list with emptyMounted := false } rows ∧
        after.document.Stands target (front ++ shownBy rows ++ back) ∧
        journal after = entriesOf entered (instead.map fun block => .unmounted block.node) (journal machine) ∧
        (instead = [] → after.document = machine.document) := by
  cases shows with
  | items keeps hidden keys =>
    rw [hideEmpty, ensures_bind, ensures_list? keeps.found]
    have same : { list with emptyMounted := false } = list := by rw [← hidden]
    rw [same]
    show Ensures breaks (if (!list.emptyMounted) = true then _ else _) _ _
    rw [if_pos (by simp [hidden])]
    exact ⟨keeps, by simpa using stands, rfl, fun _ => rfl⟩
  | @empty block found standing shown empty keys entries holds =>
    have nodes : list.empty.toList = [block.node] := by rw [empty, Option.toList_some]
    rw [hideEmpty, ensures_bind, ensures_list? found]
    show Ensures breaks (if (!list.emptyMounted) = true then _ else _) _ _
    rw [if_neg (by simp [shown]), nodes]
    simp only [ensures_bind, ensures_forM_cons, ensures_forM_nil]
    have around : front ++ (shownBy [] ++ [block].flatMap Block.handles) ++ back = front ++ block.handles ++ back := by
      simp [shownBy]
    rw [around] at stands
    refine (upkeep.unmount holds stands fun handle member => by simp [member]).mono ?_
    rintro _ between ⟨holdsNow, spared, standsNow, journalNow⟩
    rw [stands.filter_block] at standsNow
    have foundNow := spared.list.trans found
    rw [ensures_modifyList foundNow]
    obtain ⟨holdsListed, journalListed⟩ := upkeep.listed holdsNow foundNow list.keys list.entries false
    refine ⟨⟨getElem?_setNode foundNow _, standing, ?_, by simp, holdsListed, by simp, by simp⟩,
      by simpa [shownBy] using standsNow, journalListed.trans journalNow, fun none => by simp at none⟩
    simp [entries]

omit upkeep in
theorem firstRepeated?_eq_none {seen keys : List String} (distinct : (seen ++ keys).Nodup) :
    firstRepeated? seen keys = none := by
  induction keys generalizing seen with
  | nil => rfl
  | cons key rest ih =>
    have fresh : key ∉ seen := fun member => (List.nodup_append.1 distinct).2.2 key member key (by simp) rfl
    have unseen : seen.contains key = false := by simpa using fresh
    rw [firstRepeated?, unseen, if_neg Bool.false_ne_true]
    exact ih ((List.perm_middle.symm.nodup_iff).2 distinct)

omit upkeep in
private theorem mem_keys_filter {rows : List Row} {wanted : List String} {key : String} (known : key ∈ wanted) :
    key ∈ (rows.filter (·.key ∈ wanted)).map Row.key ↔ key ∈ rows.map Row.key := by
  constructor
  · intro member
    obtain ⟨row, inside, rfl⟩ := List.mem_map.1 member
    exact List.mem_map_of_mem (List.mem_filter.1 inside).1
  · intro member
    obtain ⟨row, inside, rfl⟩ := List.mem_map.1 member
    exact List.mem_map_of_mem (List.mem_filter.2 ⟨inside, by simpa using known⟩)

/-- What happens to single nodes in a pass: what was shown for an empty list and the nodes of
vanished keys are unmounted, the nodes of new keys are mounted, and that is all. -/
def passEvents (before : List Row) (instead : List Block) (after : List Row) : List ItemEvent :=
  (instead.map fun block => .unmounted block.node) ++
    (before.filter (·.key ∉ after.map Row.key)).map Row.unmounted ++
    (after.filter (·.key ∉ before.map Row.key)).map Row.mounted

/-- What one pass leads to. -/
structure Reconciled (upkeep : Upkeep breaks calls id target anchor place journal entered Holds)
    (before after : Machine host) (list : ListNode host.Code) (rows : List Row) (instead : List Block)
    (items : List Value) (wanted : List String) (front back : List Handle) (later : ListNode host.Code)
    (shown : List Row) : Prop where
  others : later = { list with keys := wanted, entries := later.entries, emptyMounted := false }
  /-- The list has the new keys and an entry for each of them, and only for them. -/
  keys : shown.map Row.key = wanted
  keeps : Keeps Holds id anchor after later shown
  /-- Items that stay keep their node, their signal and their handles. -/
  survive : ∀ row ∈ rows, row.key ∈ wanted → row ∈ shown
  filled : ∀ filled ∈ shown.zip items, HoldsItem after filled.1.entry.signal filled.2
  /-- Only what vanishes is unmounted, and only what is new is mounted. -/
  journal : journal after = entriesOf entered (passEvents rows instead shown) (journal before)
  /-- The blocks stand in the order of the keys, and what stood around them still does. -/
  stands : after.document.Stands target (front ++ shownBy shown ++ back)
  still : wanted = list.keys → after.document = before.document

/-- The items of a list that shows nothing else. -/
private theorem ensures_showItems {rows : List Row} {front back : List Handle}
    (keeps : Keeps Holds id anchor machine list rows) (shown : list.keys = rows.map Row.key)
    (hidden : list.emptyMounted = false) (behind : place = front.getLast?)
    (stands : machine.document.Stands target (front ++ shownBy rows ++ back)) {items : List Value} {keys : List String}
    (length : keys.length = items.length) (distinct : keys.Nodup) :
    Ensures breaks (showItems calls id target items keys) machine fun _ after =>
      ∃ later fresh, Reconciled upkeep machine after list rows [] items keys front back later fresh := by
  have noRepeat : firstRepeated? [] keys = none := firstRepeated?_eq_none distinct
  simp only [showItems, noRepeat, ensures_bind, ensures_list? keeps.found, ensures_modifyList keeps.found]
  rw [shown]
  obtain ⟨holds, journalListed⟩ := upkeep.listed keeps.holds keeps.found keys list.entries list.emptyMounted
  have keepsListed : Keeps Holds id anchor _ { list with keys } ([] ++ rows) :=
    ⟨getElem?_setNode keeps.found _, keeps.standing, keeps.entries, keeps.distinct, holds, keeps.signals, keeps.cells⟩
  refine (ensures_removeVanished upkeep rows keepsListed stands).mono ?_
  rintro _ between ⟨middle, removed⟩
  have first : (keys.zip items).map Prod.fst = keys := List.map_fst_zip (by omega)
  have second : (keys.zip items).map Prod.snd = items := List.map_snd_zip (by omega)
  have keysMiddle : middle.keys = keys := by rw [removed.list]
  have standsMiddle : between.document.Stands target
      (front ++ shownBy [] ++ (shownBy (rows.filter (·.key ∈ keys)) ++ back)) := by
    simpa [shownBy] using removed.stands
  refine (ensures_placeItems upkeep (keys.zip items) removed.keeps (by simpa [first] using keysMiddle)
    (keysMiddle ▸ distinct) (fun row member => ?_) behind standsMiddle).mono ?_
  · rw [first]
    simpa using (List.mem_filter.1 member).2
  rintro _ after ⟨later, fresh, placed⟩
  have keysFresh : fresh.map Row.key = keys := placed.keys.trans first
  refine ⟨later, fresh, ?_, keysFresh, placed.keeps, fun row member wanted => placed.survive ?_, ?_, ?_, placed.stands,
    fun same => ?_⟩
  · rw [placed.list, removed.list, hidden]
  · exact List.mem_filter.2 ⟨member, by simpa using wanted⟩
  · simpa only [second] using placed.filled
  · rw [placed.journal, removed.journal, journalListed]
    simp only [passEvents, entriesOf, List.map_nil, List.nil_append, List.foldl_append, keysFresh]
    congr 2
    refine List.filter_congr fun row member => ?_
    have wanted : row.key ∈ keys := keysFresh ▸ List.mem_map_of_mem member
    simp only [mem_keys_filter wanted]
  · have all : rows.filter (·.key ∈ keys) = rows := by
      rw [List.filter_eq_self]
      intro row member
      simpa [same, shown] using ⟨row, member, rfl⟩
    rw [placed.still (by rw [all, first, same, shown]), removed.still]
    intro row member
    rw [same, shown]
    exact List.mem_map_of_mem member

theorem ensures_reconcile {rows : List Row} {instead : List Block} {front back : List Handle}
    (shows : Shows Holds id anchor machine list rows instead) (behind : place = front.getLast?)
    (stands : machine.document.Stands target (front ++ (shownBy rows ++ instead.flatMap Block.handles) ++ back))
    {items : List Value} {keys : List String} (some : items ≠ []) (length : keys.length = items.length)
    (distinct : keys.Nodup) :
    Ensures breaks (reconcile calls id target items keys) machine fun _ after =>
      ∃ later shown, Reconciled upkeep machine after list rows instead items keys front back later shown := by
  obtain ⟨found, shown, noKeys⟩ := shows.known
  obtain ⟨item, rest, rfl⟩ := List.exists_cons_of_ne_nil some
  simp only [reconcile, ensures_bind, ensures_list? found]
  refine (ensures_hideEmpty upkeep shows stands).mono ?_
  rintro _ between ⟨keeps, standsNow, journalNow, still⟩
  refine (ensures_showItems upkeep keeps shown rfl behind standsNow length distinct).mono ?_
  rintro _ after ⟨later, fresh, passed⟩
  refine ⟨later, fresh, passed.others, passed.keys, passed.keeps, passed.survive, passed.filled, ?_, passed.stands,
    fun same => ?_⟩
  · rw [passed.journal, journalNow]
    simp [passEvents, entriesOf, List.foldl_append]
  · rw [passed.still same]
    refine still (Decidable.byContradiction fun other => ?_)
    rw [same, noKeys other] at length
    simp at length

end

end ReactiveMarkup.Machine
