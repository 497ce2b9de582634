import ReactiveMarkup.Proofs.ListPass

/-! A pass over a keyed list, as a whole. Nodes are unmounted once if their key vanishes, made
and mounted once if their key is new, and left alone if their key stays. -/

namespace ReactiveMarkup.Machine

open ReactiveMarkup.Step

variable {host : Host}

private theorem nodup_unmounted {rows : List Row} (nodes : (rows.map fun row => row.entry.node).Nodup) :
    (rows.map Row.unmounted).Nodup := by
  rw [List.Nodup, List.pairwise_map] at nodes ⊢
  exact nodes.imp fun apart same => apart (ItemEvent.unmounted.inj same)

private theorem nodup_mounted {rows : List Row} (keys : (rows.map Row.key).Nodup) : (rows.map Row.mounted).Nodup := by
  rw [List.Nodup, List.pairwise_map] at keys ⊢
  exact keys.imp fun apart same => apart (ItemEvent.mounted.inj same).1

/-- How often single nodes are unmounted and mounted in a pass. -/
structure OnceEach (rows shown : List Row) (events : List ItemEvent) : Prop where
  vanished : ∀ row ∈ rows, row.key ∉ shown.map Row.key → events.count row.unmounted = 1
  new : ∀ row ∈ shown, row.key ∉ rows.map Row.key → events.count row.mounted = 1
  kept : ∀ row ∈ rows, row.key ∈ shown.map Row.key → row.unmounted ∉ events ∧ ∀ node, .mounted row.key node ∉ events

theorem onceEach_passEvents {rows shown : List Row} {instead : List Block}
    (nodes : (rows.map fun row => row.entry.node).Nodup) (keys : (shown.map Row.key).Nodup)
    (either : instead ≠ [] → rows = []) : OnceEach rows shown (passEvents rows instead shown) := by
  have instead_nil {row : Row} (member : row ∈ rows) : instead = [] :=
    Decidable.byContradiction fun other => by simp [either other] at member
  have unmounts : ((rows.filter (·.key ∉ shown.map Row.key)).map Row.unmounted).Nodup :=
    (nodup_unmounted nodes).sublist (List.filter_sublist.map _)
  have mounts : ((shown.filter (·.key ∉ rows.map Row.key)).map Row.mounted).Nodup :=
    (nodup_mounted keys).sublist (List.filter_sublist.map _)
  refine ⟨fun row member gone => ?_, fun row member new => ?_, fun row member stays => ⟨fun inside => ?_, fun node inside => ?_⟩⟩
  · have inside : row.unmounted ∈ (rows.filter (·.key ∉ shown.map Row.key)).map Row.unmounted :=
      List.mem_map_of_mem (List.mem_filter.2 ⟨member, by simpa using gone⟩)
    have notMounted : row.unmounted ∉ (shown.filter (·.key ∉ rows.map Row.key)).map Row.mounted := by
      simp [Row.unmounted, Row.mounted]
    simp only [passEvents, instead_nil member, List.map_nil, List.nil_append, List.count_append, unmounts.count,
      if_pos inside, List.count_eq_zero_of_not_mem notMounted]
  · have inside : row.mounted ∈ (shown.filter (·.key ∉ rows.map Row.key)).map Row.mounted :=
      List.mem_map_of_mem (List.mem_filter.2 ⟨member, by simpa using new⟩)
    have notUnmounted : row.mounted ∉ (instead.map fun block => .unmounted block.node) ++
        (rows.filter (·.key ∉ shown.map Row.key)).map Row.unmounted := by
      simp [Row.unmounted, Row.mounted]
    rw [passEvents, List.count_append, mounts.count, if_pos inside, List.count_eq_zero_of_not_mem notUnmounted]
  · rw [passEvents, instead_nil member, List.map_nil, List.nil_append] at inside
    rcases List.mem_append.1 inside with unmounted | mounted
    · obtain ⟨other, gone, same⟩ := List.mem_map.1 unmounted
      obtain ⟨inRows, vanished⟩ := List.mem_filter.1 gone
      cases eq_of_nodup_map nodes inRows member (ItemEvent.unmounted.inj same)
      exact of_decide_eq_true vanished stays
    · obtain ⟨other, _, same⟩ := List.mem_map.1 mounted
      cases same
  · rw [passEvents, instead_nil member, List.map_nil, List.nil_append] at inside
    rcases List.mem_append.1 inside with unmounted | mounted
    · obtain ⟨other, _, same⟩ := List.mem_map.1 unmounted
      cases same
    · obtain ⟨other, new, same⟩ := List.mem_map.1 mounted
      have fresh := of_decide_eq_true (List.mem_filter.1 new).2
      rw [(ItemEvent.mounted.inj same).1] at fresh
      exact fresh (List.mem_map_of_mem member)

def journaled : Host := ⟨Unit, List ItemEvent, fun _ => []⟩

def textInterpreter : Interpreter journaled where
  call _ _ _ := pure .undefined
  react _ _ := pure none
  build _ _ _ := newNode (.text { source := .fixed (.string "item") })
  control _ _ _ := pure .undefined
  view _ _ _ _ := pure none

def journalOf (machine : Machine journaled) : List ItemEvent := machine.world

def enter (event : ItemEvent) : Run journaled Unit :=
  modify fun machine => { machine with world := journalOf machine ++ [event] }

def textCalls : Calls journaled :=
  let calls := Calls.upTo textInterpreter 4
  { calls with
    mount := fun id target anchor => do
      calls.mount id target anchor
      match anchor with
      | .item _ key => enter (.mounted key id)
      | _ => pure ()
    unmount := fun id target => do
      calls.unmount id target
      enter (.unmounted id) }

/-- A text with its handle. -/
def shownText (handle : Handle) : Node journaled.Code :=
  .text { source := .fixed (.string "item"), handle := some handle }

structure ShowsTexts (id : NodeId) (machine : Machine journaled) (blocks : List Block) : Prop where
  list : ∃ list, machine.nodes[id]? = some (.list list) ∧ list.anchor = .front ∧ list.builder = .host ()
  held : .state id ∈ machine.held
  inBatch : 0 < machine.graph.depth
  symmetric : machine.graph.Symmetric
  distinct : (blocks.map Block.node).Nodup
  texts : ∀ block ∈ blocks, ∃ handle, block.handles = [handle] ∧ machine.nodes[block.node]? = some (shownText handle)

theorem ShowsTexts.apart {id : NodeId} {machine : Machine journaled} {blocks : List Block} {block : Block}
    (shows : ShowsTexts id machine blocks) (member : block ∈ blocks) : block.node ≠ id := by
  intro same
  obtain ⟨_, _, text⟩ := shows.texts block member
  obtain ⟨_, list, _⟩ := shows.list
  rw [same, list] at text
  cases text

theorem outlook_texts (id : NodeId) (depth : Nat) :
    Outlook ⟨False, False⟩ (Calls.upTo textInterpreter (depth + 1)) .front none (ShowsTexts id) where
  isMounted shows member := by
    obtain ⟨handle, _, text⟩ := shows.texts _ member
    simp [isMounted, node?, text, shownText]
  elements shows member := by
    obtain ⟨handle, same, text⟩ := shows.texts _ member
    show Ensures _ (elements (Calls.upTo textInterpreter depth) _) _ _
    simp [elements, node?, text, shownText, same]
  resolve _ := by
    show Ensures _ (resolve (Calls.upTo textInterpreter depth) .front) _ _
    simp [resolve]

private theorem ensures_modifyText {breaks : Breaks} {machine : Machine host} {id : NodeId} {text : TextNode host.Code}
    {f : TextNode host.Code → TextNode host.Code} {post : Unit → Machine host → Prop}
    (found : machine.nodes[id]? = some (.text text))
    (ensured : post () { machine with nodes := machine.nodes.set! id (.text (f text)) }) :
    Ensures breaks (modifyText id f) machine post := by
  simpa only [modifyText, node?, ensures_bind, ensures_get, ensures_pure, found, setNode, ensures_modify] using ensured

/-- What a change of one other node leaves of a list and its texts. -/
private theorem ShowsTexts.of_nodes {id : NodeId} {machine after : Machine journaled} {blocks : List Block}
    (shows : ShowsTexts id machine blocks) (graph : after.graph = machine.graph) (held : after.held = machine.held)
    (list : after.nodes[id]? = machine.nodes[id]?)
    (nodes : ∀ block ∈ blocks, after.nodes[block.node]? = machine.nodes[block.node]?) : ShowsTexts id after blocks := by
  refine ⟨list ▸ shows.list, held ▸ shows.held, graph ▸ shows.inBatch, graph ▸ shows.symmetric, shows.distinct, ?_⟩
  intro block member
  rw [nodes block member]
  exact shows.texts block member

private theorem ensures_unmount_text {id : NodeId} {target : Handle} {machine : Machine journaled} {block : Block}
    {blocks : List Block} {children : List Handle} (shows : ShowsTexts id machine (block :: blocks))
    (stands : machine.document.Stands target children) (inside : block.handles ⊆ children) :
    Ensures ⟨False, False⟩ (textCalls.unmount block.node target) machine fun _ after =>
      ShowsTexts id after blocks ∧ Spared id machine after ∧
        after.document.Stands target (children.filter (· ∉ block.handles)) ∧
        journalOf after = journalOf machine ++ [.unmounted block.node] := by
  obtain ⟨handle, same, text⟩ := shows.texts block (List.mem_cons_self ..)
  have apart := shows.apart (List.mem_cons_self ..)
  obtain ⟨fresh, distinct⟩ := List.nodup_cons.1 shows.distinct
  rw [same] at inside ⊢
  show Ensures _ (do
    unmount (Calls.upTo textInterpreter 3) block.node target
    enter (.unmounted block.node)) _ _
  simp only [unmount, unmountText, node?, shownText, ensures_bind, ensures_get, text, ensures_pure, ensures_edit]
  refine (Document.ensures_unmount stands inside (by simp)).mono ?_
  rintro _ document ⟨regrouped, _⟩
  obtain ⟨standsNow, _⟩ := stands.removed inside regrouped
  refine ensures_modifyText text ?_
  simp only [disposeAll, ensures_pure]
  refine ensures_modifyText (getElem?_setNode text _) ?_
  have nodes {other : NodeId} (different : other ≠ block.node) (first last : Node journaled.Code) :
      ((machine.nodes.set! block.node first).set! block.node last)[other]? = machine.nodes[other]? := by
    simp [Array.set!_eq_setIfInBounds, Array.getElem?_setIfInBounds_ne (Ne.symm different)]
  have showsRest : ShowsTexts id machine blocks :=
    { shows with distinct, texts := fun other member => shows.texts other (List.mem_cons_of_mem _ member) }
  refine ⟨showsRest.of_nodes rfl rfl (nodes (Ne.symm apart) _ _) fun other member => nodes ?_ _ _,
    ⟨nodes (Ne.symm apart) _ _, fun _ _ kept => kept⟩, standsNow, rfl⟩
  exact fun here => fresh (here ▸ List.mem_map_of_mem member)

/-- The new handle of a text stands nowhere, and is not among those that do. -/
private theorem standing_push {Listener : Type} {document : Document Listener} {target : Handle} {children : List Handle}
    (stands : document.Stands target children) (kind : Document.Kind) (operation : Operation) :
    ((document.push kind).2.note operation).Stands target children ∧
      ((document.push kind).2.note operation).Loose [document.items.size] ∧ document.items.size ∉ children ∧
      target ≠ document.items.size := by
  have old {handle : Handle} {item : Document.Item} (found : document.items[handle]? = some item) :
      handle ≠ document.items.size ∧ ((document.push kind).2.note operation).items[handle]? = some item := by
    have inside : handle < document.items.size := (Array.getElem?_eq_some_iff.1 found).1
    refine ⟨Nat.ne_of_lt inside, ?_⟩
    simp only [Document.push, Document.note]
    rw [Array.getElem?_push_lt inside, ← found, Array.getElem?_eq_getElem inside]
  obtain ⟨item, found, same⟩ := stands.here
  refine ⟨⟨⟨item, (old found).2, same⟩, stands.distinct, fun child member => ?_, stands.apart⟩, ?_, fun member => ?_,
    (old found).1⟩
  · obtain ⟨item, found, parent⟩ := stands.inside child member
    exact ⟨item, (old found).2, parent⟩
  · intro handle member
    rw [List.mem_singleton.1 member]
    exact ⟨_, Array.getElem?_push_size .., rfl⟩
  · obtain ⟨item, found, _⟩ := stands.inside _ member
    exact (old found).1 rfl

/-- A fixed text comes to stand where its anchor says. -/
private theorem ensures_mountText {breaks : Breaks} {calls : Calls host} {id : NodeId} {target : Handle} {anchor : Anchor}
    {machine : Machine host} {value : Value} {front back : List Handle} {text : TextNode host.Code}
    (found : machine.nodes[id]? = some (.text text)) (source : text.source = .fixed value)
    (stands : machine.document.Stands target (front ++ back))
    (resolves : ∀ document, let between := { machine with
        document, nodes := machine.nodes.set! id (.text { text with handle := some machine.document.items.size }) }
      Ensures breaks (calls.resolve anchor) between fun place after => place = front.getLast? ∧ after = between) :
    Ensures breaks (mountText calls id text target anchor) machine fun _ after =>
      ∃ document, after = { machine with
          document, nodes := machine.nodes.set! id (.text { text with handle := some machine.document.items.size }) } ∧
        document.Stands target (front ++ [machine.document.items.size] ++ back) := by
  obtain ⟨standsPushed, loose, fresh, apart⟩ := standing_push stands (.text value.text)
    (.createText machine.document.items.size value.text)
  obtain ⟨_, _, _⟩ := text
  subst source
  simp only [mountText, ensures_bind, ensures_edit, Document.createText, ensures_modifyGet,
    Document.ensures_record, ensures_pure]
  refine ensures_modifyText found ?_
  simp only [node?, ensures_bind, ensures_get, ensures_pure, getElem?_setNode found]
  refine (resolves _).mono ?_
  rintro _ _ ⟨rfl, rfl⟩
  rw [ensures_edit]
  refine (Document.ensures_mount standsPushed loose (by simp) (by simpa using apart)).mono ?_
  rintro _ document ⟨regrouped, _⟩
  refine ⟨document, rfl, standsPushed.inserted ?_ (by simpa using apart) ?_ regrouped⟩
  · intro handle member
    obtain ⟨item, known, _⟩ := loose handle member
    exact ⟨item, known⟩
  · have distinct := List.nodup_cons.2 ⟨fresh, stands.distinct⟩
    simpa using List.perm_middle.nodup_iff.2 distinct

private theorem ensures_render_text {id : NodeId} {target : Handle} {machine : Machine journaled} {blocks : List Block}
    {list : ListNode journaled.Code} {rows : List Row} {key : String} {later : List String} {front back : List Handle}
    {signal : Nat} (shows : ShowsTexts id machine blocks) (found : machine.nodes[id]? = some (.list list))
    (keys : list.keys = rows.map Row.key ++ key :: later) (distinct : list.keys.Nodup)
    (known : ∀ row ∈ rows, Entries.get? list.entries row.key = some row.entry ∧ row.block ∈ blocks)
    (behind : front.getLast? = (shownBy rows).getLast?.or none)
    (stands : machine.document.Stands target (front ++ back)) :
    Ensures ⟨False, False⟩ (renderItem textCalls id target list.builder key signal) machine fun child after =>
      ∃ handles, ShowsTexts id after (⟨child, handles⟩ :: blocks) ∧ Spared id machine after ∧
        after.document.Stands target (front ++ handles ++ back) ∧
        journalOf after = journalOf machine ++ [.mounted key child] := by
  obtain ⟨_, same, standing, builder⟩ := shows.list
  cases same.symm.trans found
  simp only [renderItem, builder, ensures_bind, ensures_holding, buildItem, function, ensures_modifyGet, peek,
    ensures_graph?, ensures_pure, List.nil_append]
  show Ensures _ (newNode _) _ _
  rw [newNode, ensures_modifyGet]
  show Ensures _ (do
    mount (Calls.upTo textInterpreter 3) machine.nodes.size target (.item id key)
    enter (.mounted key machine.nodes.size)) _ _
  have foundNew : (machine.nodes.push (.text { source := .fixed (.string "item") }))[machine.nodes.size]? =
      some (.text { source := .fixed (.string "item") } : Node journaled.Code) := Array.getElem?_push_size ..
  have old {other : NodeId} (inside : other < machine.nodes.size) (first last : Node journaled.Code) :
      ((machine.nodes.push first).set! machine.nodes.size last)[other]? = machine.nodes[other]? := by
    rw [Array.set!_eq_setIfInBounds, Array.getElem?_setIfInBounds_ne (Nat.ne_of_gt inside), Array.getElem?_push_lt inside,
      Array.getElem?_eq_getElem inside]
  have listInside : id < machine.nodes.size := (Array.getElem?_eq_some_iff.1 found).1
  have blocksInside {block : Block} (member : block ∈ blocks) : block.node < machine.nodes.size := by
    obtain ⟨_, _, text⟩ := shows.texts block member
    exact (Array.getElem?_eq_some_iff.1 text).1
  simp only [mount, node?, ensures_bind, ensures_get, ensures_pure, foundNew]
  have source : (TextNode.mk (.fixed (.string "item")) none [] : TextNode journaled.Code).source = .fixed (.string "item") := rfl
  refine Ensures.mono (ensures_mountText foundNew source stands fun document => ?_) ?_
  · show Ensures _ (resolve (Calls.upTo textInterpreter 2) (.item id key)) _ _
    rw [behind]
    refine ensures_resolve_item (outlook_texts id 1) ?_ ?_ ?_ standing keys distinct known
    · exact { shows with
        list := ⟨list, (old listInside _ _).trans found, standing, builder⟩
        held := List.mem_cons_of_mem _ shows.held
        texts := fun block member => by
          obtain ⟨handle, same, text⟩ := shows.texts block member
          exact ⟨handle, same, (old (blocksInside member) _ _).trans text⟩ }
    · exact isKept_of_isRoot (by simp [isRoot, shows.held])
    · exact (old listInside _ _).trans found
  · rintro _ _ ⟨document, rfl, standsNow⟩
    refine ⟨[machine.document.items.size], ?_, ?_, standsNow, rfl⟩
    · have fresh : machine.nodes.size ∉ blocks.map Block.node := fun member => by
        obtain ⟨block, inside, same⟩ := List.mem_map.1 member
        exact absurd same (Nat.ne_of_lt (blocksInside inside))
      refine ⟨⟨list, (old listInside _ _).trans found, standing, builder⟩, shows.held, shows.inBatch, shows.symmetric,
        List.nodup_cons.2 ⟨fresh, shows.distinct⟩, fun block member => ?_⟩
      rcases List.mem_cons.1 member with rfl | inside
      · exact ⟨_, rfl, by simp [Array.set!_eq_setIfInBounds, shownText]⟩
      · obtain ⟨handle, same, text⟩ := shows.texts block inside
        exact ⟨handle, same, (old (blocksInside inside) _ _).trans text⟩
    · exact ⟨old listInside _ _, fun _ _ kept => kept⟩

theorem upkeep_textCalls (id : NodeId) (target : Handle) :
    Upkeep ⟨False, False⟩ textCalls id target .front none journalOf (fun event events => events ++ [event])
      (ShowsTexts id) where
  isMounted := (outlook_texts id 3).isMounted
  elements := (outlook_texts id 3).elements
  resolve := (outlook_texts id 3).resolve
  symmetric shows := shows.symmetric
  distinct shows := shows.distinct
  perm shows perm := { shows with
    distinct := (perm.map _).nodup_iff.1 shows.distinct
    texts := fun block member => shows.texts block (perm.mem_iff.2 member) }
  flush shows := by
    show Ensures _ (flush (Calls.upTo textInterpreter 3) 3) _ _
    simp [flush, shows.inBatch]
  listed shows found keys entries emptyMounted := by
    obtain ⟨list, same, front, builder⟩ := shows.list
    cases found.symm.trans same
    refine ⟨{ shows with list := ⟨_, getElem?_setNode found _, front, builder⟩, texts := fun block member => ?_ }, rfl⟩
    obtain ⟨handle, shown, text⟩ := shows.texts block member
    exact ⟨handle, shown, by rw [getElem?_setNode_of_ne (shows.apart member), text]⟩
  regrouped shows _ := ⟨{ shows with }, rfl⟩
  added shows value := by
    refine ⟨{ shows with symmetric := Graph.symmetric_of_same shows.symmetric ?_ ?_ }, rfl⟩
    · exact fun cell => by simp
    · exact fun cell => by simp
  written {machine blocks cell old} shows _ value := by
    have notified := Graph.notified_write shows.symmetric cell value
    exact ⟨{ shows with symmetric := notified.symmetric, inBatch := by rw [notified.depth]; exact shows.inBatch }, rfl⟩
  unmount shows stands inside := ensures_unmount_text shows stands inside
  render shows found keys distinct known behind stands _ := by
    exact ensures_render_text shows found keys distinct known behind stands

/-- A list of two texts, in front of a third. -/
def textList : ListNode journaled.Code where
  items := ⟨.constant .undefined, false⟩
  tracker := .host ()
  builder := .host ()
  empty := none
  keys := ["a", "b"]
  entries := [("a", ⟨0, 1⟩), ("b", ⟨1, 2⟩)]
  mounted := true

def textRows : List Row := [⟨"a", ⟨0, 1⟩, [1]⟩, ⟨"b", ⟨1, 2⟩, [2]⟩]

def textMachine : Machine journaled where
  graph := ((Graph.add { depth := 1 } (.signal (.string "first"))).2.add (.signal (.string "second"))).2
  nodes := #[.list textList, shownText 1, shownText 2]
  document := { items := #[⟨.element "div" [], none, [1, 2, 3]⟩, ⟨.text "item", some 0, []⟩, ⟨.text "item", some 0, []⟩,
    ⟨.text "after", some 0, []⟩] }
  held := [.state 0]
  registry := { runtimeModule := "" }
  world := []

theorem showsTexts_textMachine : ShowsTexts 0 textMachine (textRows.map Row.block) := by
  refine ⟨⟨textList, rfl, rfl, rfl⟩, by decide, by decide, fun source reader => ?_, by decide, ?_⟩
  · simp only [textMachine, Graph.subscribers_add, Graph.sources_add]
    simp [Graph.subscribers, Graph.sources]
  · intro block member
    simp only [textRows, List.map_cons, List.map_nil, List.mem_cons, List.not_mem_nil, or_false] at member
    rcases member with rfl | rfl
    · exact ⟨1, rfl, rfl⟩
    · exact ⟨2, rfl, rfl⟩

theorem shows_textMachine : Shows (ShowsTexts 0) 0 .front textMachine textList textRows [] := by
  refine .items ⟨rfl, rfl, fun key entry => ?_, by decide, showsTexts_textMachine, by decide, ?_⟩ rfl rfl
  · simp only [textList, textRows, Entries.get?_cons, Entries.get?_nil, List.mem_cons, List.not_mem_nil, or_false,
      exists_eq_or_imp, exists_eq_left]
    by_cases first : key = "a"
    · simp [first]
    · by_cases second : key = "b"
      · simp [second]
      · simp [first, second, Ne.symm first, Ne.symm second]
  · intro row member
    simp only [textRows, List.mem_cons, List.not_mem_nil, or_false] at member
    rcases member with rfl | rfl
    · exact ⟨_, rfl⟩
    · exact ⟨_, rfl⟩

theorem stands_textMachine : textMachine.document.Stands 0 [1, 2, 3] := by
  refine ⟨⟨_, rfl, rfl⟩, by decide, fun child member => ?_, by decide⟩
  simp only [List.mem_cons, List.not_mem_nil, or_false] at member
  rcases member with rfl | rfl | rfl <;> exact ⟨_, rfl, rfl⟩

end ReactiveMarkup.Machine
