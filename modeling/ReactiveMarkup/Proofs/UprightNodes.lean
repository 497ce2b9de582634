import ReactiveMarkup.Proofs.UprightScripts

/-! What mounting a node, unmounting it and bringing it up to date does to trees, however it ends: it is about the
node and those below it. -/

namespace ReactiveMarkup

open ReactiveMarkup.Step

namespace Machine

variable {host : Host} {α β : Type}

/-- A step that only looks. -/
def Silent (step : Run host α) : Prop := ∀ machine, (step.run machine).2 = machine

namespace Silent

theorem pure (value : α) : Silent (pure value : Run host α) := fun _ => rfl

theorem panic (cause : Panic) : Silent (Step.panic cause : Run host α) := fun _ => rfl

theorem node? (id : NodeId) : Silent (node? id : Run host _) := fun _ => rfl

theorem bind {step : Run host α} {next : α → Run host β} (first : Silent step) (rest : ∀ value, Silent (next value)) : Silent (step >>= next) := by
  intro machine
  show (Step.bind step next machine).2 = machine
  rw [Step.bind]
  have same := first machine
  cases ran : step.run machine with
  | mk ending between =>
    rw [ran] at same
    cases same
    rw [show step between = (ending, between) from ran]
    cases ending with
    | done value => exact rest value between
    | panicked cause => rfl
    | exhausted => rfl

end Silent

variable {calls : Calls host} (resolving : ∀ anchor, Silent (calls.resolve anchor)) (looking : ∀ id, Silent (calls.elements id))

theorem silent_isMounted (id : NodeId) : Silent (isMounted id : Run host Bool) := .bind (.node? id) fun node => by
  split <;> exact .pure _

include looking

theorem silent_allElements (nodes : List NodeId) : Silent (allElements calls nodes) := by
  induction nodes with
  | nil => exact .pure _
  | cons first rest ih => exact .bind (looking first) fun _ => .bind ih fun _ => .pure _

theorem silent_itemElements (entries : Entries ListEntry) (keys : List String) : Silent (itemElements calls entries keys) := by
  induction keys with
  | nil => exact .pure _
  | cons key rest ih =>
    unfold itemElements
    split
    · exact .panic _
    · exact .bind (looking _) fun _ => .bind ih fun _ => .pure _

theorem silent_elements (id : NodeId) : Silent (elements calls id) := .bind (.node? id) fun node => by
  split
  · exact .pure _
  · split
    · exact .pure _
    · exact .panic _
  · split
    · exact .pure _
    · exact .panic _
  · split
    · exact silent_allElements looking _
    · exact .panic _
  · split
    · exact silent_allElements looking _
    · exact .panic _
  · split
    · exact .panic _
    · split
      · exact looking _
      · exact silent_itemElements looking _ _
  · split
    · exact silent_allElements looking _
    · exact .panic _

theorem silent_lastElement (id : NodeId) : Silent (lastElement calls id) := .bind (silent_isMounted id) fun mounted => by
  split
  · exact .bind (looking id) fun _ => .pure _
  · exact .pure _

theorem silent_lastElementOf (entries : Entries ListEntry) (keys : List String) : Silent (lastElementOf calls entries keys) := by
  induction keys with
  | nil => exact .pure _
  | cons key rest ih =>
    unfold lastElementOf
    split
    · exact ih
    · refine .bind (silent_lastElement looking _) fun handle => ?_
      split
      · exact .pure _
      · exact ih

include resolving

theorem silent_anchorBefore (list : ListNode host.Code) (index : Nat) : Silent (anchorBefore calls list index) :=
  .bind (silent_lastElementOf looking _ _) fun handle => by
    split
    · exact .pure _
    · exact resolving _

theorem silent_resolve (anchor : Anchor) : Silent (resolve calls anchor) := by
  induction anchor with
  | front | fixed handle => exact .pure _
  | afterNode node previous ih =>
    refine .bind (silent_lastElement looking node) fun handle => ?_
    split
    · exact .pure _
    · exact ih
  | item list key =>
    refine .bind (fun _ => rfl) fun machine => ?_
    split
    · exact .pure _
    · refine .bind (.node? list) fun node => ?_
      split
      · split
        · exact silent_anchorBefore resolving looking _ _
        · exact resolving _
      · exact .pure _

end Machine

namespace Rendering

open ReactiveMarkup.Graph ReactiveMarkup.Machine

variable {Memory : Type} {α β : Type} {start machine before middle after : Stage Memory} {roots more : NodeId → Prop} {whole : Prop} {id : NodeId}
  {calls : Calls (Host.rendering Memory)}

theorem tends_node? {next : Option (Node (Code Memory)) → Act Memory β} :
    Tends roots start (node? id >>= next) machine ↔ Tends roots start (next machine.nodes[id]?) machine := Iff.rfl

theorem tends_list? {next : Option (ListNode (Code Memory)) → Act Memory β} (gone : Tends roots start (next none) machine)
    (there : ∀ list, machine.nodes[id]? = some (.list list) → Tends roots start (next (some list)) machine) :
    Tends roots start (list? id >>= next) machine := by
  rw [list?, LawfulMonad.bind_assoc]
  refine tends_node?.2 ?_
  split
  next list found => exact there list found
  next => exact gone

namespace Tends

/-- A step that comes to its end wherever it does not break off. -/
theorem of_alters {step : Act Memory α} (alters : Alters roots True start (step.run machine).2) : Tends roots start step machine :=
  { alters with spared := fun _ => alters.spared trivial }

theorem edit (alters : Alters roots True start machine) (step : Document.Edit (Listener (Code Memory)) α) :
    Tends roots start (Machine.edit step) machine := of_alters (alters.carry rfl rfl)

theorem forM {τ : Type} {members : List τ} {f : τ → Act Memory PUnit} (alters : Alters roots True start machine)
    (each : ∀ member ∈ members, ∀ machine, Alters roots True start machine → Tends roots start (f member) machine) :
    Tends roots start (members.forM f) machine := by
  induction members generalizing machine with
  | nil => exact pure alters _
  | cons first rest ih =>
    exact bind (each first List.mem_cons_self machine alters) fun _ _ _ alters =>
      ih alters fun member inRest => each member (List.mem_cons_of_mem _ inRest)

/-- A node that a step is about gets another record. -/
theorem set {old new : Node (Code Memory)} (alters : Alters roots True start machine) (found : machine.nodes[id]? = some old)
    (owned : Owned roots start id) (same : blank new = blank old) (formed : Formed new)
    (grown : ∀ kid ∈ new.kids, kid ∈ old.kids ∨ (start.nodes.size ≤ kid ∧ kid < machine.nodes.size ∧ ¬ Below machine kid id))
    (fair : Fair machine.graph new) (spared : ∀ selection, Stuck selection new → Stuck selection old) :
    Tends roots start (setNode id new) machine := of_alters (alters.set found owned same formed grown fair fun _ => spared)

/-- What a step leaves behind when it comes to its end. -/
theorem ensures {step : Act Memory α} (tends : Tends roots start step machine) :
    Ensures .any step machine fun _ after => Alters roots True start after := by
  unfold Ensures
  split
  next ran => exact tends.of_done ran
  · trivial
  · trivial

end Tends

theorem Owned.self : Owned (· = id) machine id := .root rfl

theorem owned_kid {node : Node (Code Memory)} (alters : Alters roots True start machine) (owned : Owned roots start id)
    (found : machine.nodes[id]? = some node) {kid : NodeId} (member : kid ∈ node.kids) : Owned roots start kid :=
  owned.kid alters.grows ((mem_kids found).2 member)

section

variable (alters : Alters roots True start machine) (owned : Owned roots start id)

include alters owned

theorem tends_modifyElement {f : ElementNode (Code Memory) → ElementNode (Code Memory)}
    (changes : ∀ node, ∃ handle disposables, f node = { node with handle, disposables }) : Tends roots start (modifyElement id f) machine := by
  refine tends_node?.2 ?_
  split
  next node found =>
    obtain ⟨handle, disposables, same⟩ := changes node
    have formed := alters.upright.formed id _ found
    rw [same]
    exact .set alters found owned rfl formed (fun _ member => .inl member) trivial fun _ stuck => stuck
  next => exact .pure alters _

theorem tends_modifyText {f : TextNode (Code Memory) → TextNode (Code Memory)}
    (changes : ∀ node, ∃ handle disposables, f node = { node with handle, disposables }) : Tends roots start (modifyText id f) machine := by
  refine tends_node?.2 ?_
  split
  next node found =>
    obtain ⟨handle, disposables, same⟩ := changes node
    have formed := alters.upright.formed id _ found
    rw [same]
    exact .set alters found owned rfl formed (fun _ member => .inl member) trivial fun _ stuck => stuck
  next => exact .pure alters _

/-- What a conditional shows stays as it is. -/
theorem tends_modifyConditional {f : ConditionalNode (Code Memory) → ConditionalNode (Code Memory)}
    (changes : ∀ node, ∃ mounted disposables, f node = { node with mounted, disposables }) : Tends roots start (modifyConditional id f) machine := by
  refine tends_node?.2 ?_
  split
  next node found =>
    obtain ⟨mounted, disposables, same⟩ := changes node
    have formed := alters.upright.formed id _ found
    have fair := alters.upright.fair id _ found
    rw [same]
    exact .set alters found owned rfl formed (fun _ member => .inl member) fair fun _ stuck => stuck
  next => exact .pure alters _

/-- A list loses entries, if any. -/
theorem tends_modifyList {f : ListNode (Code Memory) → ListNode (Code Memory)}
    (changes : ∀ node, ∃ anchor keys entries emptyMounted mounted disposables, f node = { node with anchor, keys, entries, emptyMounted, mounted, disposables } ∧
      List.Sublist entries node.entries) : Tends roots start (modifyList id f) machine := by
  refine tends_list? (.pure alters _) fun node found => ?_
  obtain ⟨anchor, keys, entries, emptyMounted, mounted, disposables, same, fewer⟩ := changes node
  obtain ⟨items, tracker, builder, apart⟩ := alters.upright.formed id _ found
  have fair := alters.upright.fair id _ found
  show Tends roots start (setNode id (.list (f node))) machine
  rw [same]
  refine .set alters found owned rfl ⟨items, tracker, builder, apart.sublist (fewer.map _)⟩ (fun kid member => .inl ?_)
    (fun entry member => fair entry (fewer.subset member)) fun _ stuck => stuck
  exact (List.Sublist.append (fewer.map fun entry => entry.2.node) (.refl _)).subset member

end

section

variable (keeps : KeepsTrees calls) (upright : Upright machine)

include keeps upright

theorem off_access {accessor : Accessor (Code Memory)} (hosted : accessor.Hosted) : Tends.off (access calls accessor) machine := by
  cases accessor with
  | constant value => exact .pure (.refl upright) _
  | plan => exact hosted.elim
  | host code => exact keeps.call code [] machine upright

theorem off_activeClasses {sources : List (ClassSource (Code Memory))} (hosted : ∀ source ∈ sources, source.binding.accessor.Hosted) :
    Tends.off (activeClasses calls sources) machine := by
  induction sources generalizing machine with
  | nil => exact .pure (.refl upright) _
  | cons first rest ih =>
    have hostedFirst := hosted first List.mem_cons_self
    have later {between : Stage Memory} (alters : Alters (fun _ => False) True machine between) : Tends (fun _ => False) machine (activeClasses calls rest) between :=
      .idle alters (ih alters.upright fun source inRest => hosted source (List.mem_cons_of_mem _ inRest))
    cases first with
    | names binding =>
      exact .bind (off_access keeps upright hostedFirst) fun _ _ _ alters => .bind (later alters) fun _ _ _ alters => .pure alters _
    | toggle name binding =>
      exact .bind (off_access keeps upright hostedFirst) fun _ _ _ alters => .bind (later alters) fun _ _ _ alters => .pure alters _

theorem off_refreshClasses {sources : List (ClassSource (Code Memory))} (hosted : ∀ source ∈ sources, source.binding.accessor.Hosted) (handle : Handle) :
    Tends.off (refreshClasses calls sources handle) machine := by
  refine .bind (off_activeClasses keeps upright hosted) fun names _ _ alters => ?_
  exact .bind (.of_alters (alters.carry rfl rfl)) fun _ _ _ alters => .edit alters _

theorem off_disposeAll (disposables : List Disposable) : Tends.off (disposeAll calls disposables) machine := by
  induction disposables generalizing machine with
  | nil => exact .pure (.refl upright) _
  | cons first rest ih =>
    cases first with
    | effect effect => exact .bind (off_dispose keeps upright effect) fun _ _ _ alters => .idle alters (ih alters.upright)
    | subscription subscription => exact .bind (.edit (.refl upright) _) fun _ _ _ alters => .idle alters (ih alters.upright)

end

/-- An effect of a node, which its body may bring up to date. -/
theorem tends_ownEffect (keeps : KeepsTrees calls) (alters : Alters roots True start machine) (owned : Owned roots start id) {body : Task (Code Memory)}
    (formed : body.Formed) (subject : ∀ other, body.subject? = some other → other = id) : Tends roots start (newEffect calls body) machine :=
  .call alters (tends_newEffect keeps alters.upright formed) fun other isSubject => subject other isSubject ▸ owned

section

variable (keeps : KeepsTrees calls) (alters : Alters roots True start machine) (owned : Owned roots start id)

include keeps alters owned

omit keeps in
theorem tends_keepForElement (disposable : Disposable) : Tends roots start (keepForElement id disposable : Act Memory Unit) machine :=
  tends_modifyElement alters owned fun _ => ⟨_, _, rfl⟩

theorem tends_bindProperty (handle : Handle) {property : String × Binding (Code Memory)} (hosted : property.2.accessor.Hosted) :
    Tends roots start (bindProperty calls id handle property) machine := by
  obtain ⟨name, value | accessor⟩ := property
  · exact .edit alters _
  · have formed : (Task.property name accessor handle : Task (Code Memory)).Formed := hosted
    refine .bind (tends_ownEffect keeps alters owned formed nofun) fun effect _ _ alters => ?_
    exact tends_keepForElement alters owned _

theorem tends_bindProperties (handle : Handle) {properties : Entries (Binding (Code Memory))}
    (hosted : ∀ property ∈ properties, property.2.accessor.Hosted) : Tends roots start (bindProperties calls id handle properties) machine := by
  have classes : ∀ source ∈ List.filterMap (@classSource? (Host.rendering Memory)) properties, source.binding.accessor.Hosted := by
    intro source member
    obtain ⟨property, inside, isSource⟩ := List.mem_filterMap.1 member
    have same : source.binding = property.2 := by
      unfold classSource? at isSource
      split at isSource
      · cases isSource
        rfl
      split at isSource
      · cases isSource
        rfl
      · cases isSource
    exact same ▸ hosted property inside
  refine .bind (.forM alters fun property member machine alters => ?_) fun _ _ _ alters => ?_
  · exact tends_bindProperty keeps alters owned handle (hosted property (List.mem_of_mem_filter member))
  · dsimp only
    split
    · have formed : (Task.classes (List.filterMap (@classSource? (Host.rendering Memory)) properties) handle : Task (Code Memory)).Formed := classes
      refine .bind (tends_ownEffect keeps alters owned formed nofun) fun effect _ _ alters => ?_
      exact tends_keepForElement alters owned _
    · exact .pure alters _

omit owned in
/-- A node is mounted, or unmounted, by one that is above it. -/
theorem tends_mountKid {child : NodeId} (below : Owned roots start child) (target : Handle) (anchor : Anchor) :
    Tends roots start (calls.mount child target anchor) machine :=
  .call alters (keeps.mount child target anchor machine alters.upright) fun _ same => same ▸ below

omit owned in
theorem tends_unmountKid {child : NodeId} (below : Owned roots start child) (target : Handle) :
    Tends roots start (calls.unmount child target) machine :=
  .call alters (keeps.unmount child target machine alters.upright) fun _ same => same ▸ below

theorem tends_mountElement {node : ElementNode (Code Memory)} (found : machine.nodes[id]? = some (.element node)) (target : Handle) (anchor : Anchor) :
    Tends roots start (mountElement calls id node target anchor) machine := by
  have hosted := alters.upright.formed id _ found
  have below : ∀ child ∈ node.child.toList, Owned roots start child := fun child member => owned_kid alters owned found member
  refine .bind (.edit alters _) fun handle _ _ alters => .bind (tends_modifyElement alters owned fun _ => ⟨_, _, rfl⟩) fun _ _ _ alters => ?_
  refine .bind (.forM alters fun _ _ machine alters => .edit alters _) fun _ _ _ alters => ?_
  refine .bind (tends_bindProperties keeps alters owned handle hosted) fun _ _ _ alters => ?_
  refine .bind (.forM alters fun _ _ machine alters => .bind (.edit alters _) fun _ _ _ alters => tends_keepForElement alters owned _) fun _ _ _ alters => ?_
  refine .bind (.forM alters fun child member machine alters => tends_mountKid keeps alters (below child member) handle .front) fun _ _ _ alters => ?_
  exact .seen_bind alters (keeps.resolve anchor _) fun _ _ => .edit alters _

theorem tends_unmountElement {node : ElementNode (Code Memory)} (found : machine.nodes[id]? = some (.element node)) (target : Handle) :
    Tends roots start (unmountElement calls id node target) machine := by
  have below : ∀ child ∈ node.child.toList, Owned roots start child := fun child member => owned_kid alters owned found member
  unfold unmountElement
  split
  next => exact .pure alters _
  next handle _ =>
    refine .bind (.forM alters fun child member machine alters => tends_unmountKid keeps alters (below child member) handle) fun _ _ _ alters => ?_
    refine .bind (.edit alters _) fun _ between _ alters => tends_node?.2 ?_
    split
    next current foundCurrent =>
      have formed : Formed (.element current) := alters.upright.formed id _ foundCurrent
      have cleared : Tends roots start (setNode id (.element { current with disposables := [] })) between :=
        .set alters foundCurrent owned rfl formed (fun _ member => .inl member) trivial fun _ stuck => stuck
      refine .bind cleared fun _ _ _ alters => .bind (.idle alters (off_disposeAll keeps alters.upright _)) fun _ _ _ alters => ?_
      exact tends_modifyElement alters owned fun _ => ⟨_, _, rfl⟩
    next => exact .pure alters _

theorem tends_refreshText {accessor : Accessor (Code Memory)} (hosted : accessor.Hosted) : Tends roots start (refreshText calls id accessor) machine := by
  refine .bind (.idle alters (off_access keeps alters.upright hosted)) fun value _ _ alters => tends_node?.2 ?_
  split
  next node found =>
    split
    next => exact .edit alters _
    next => exact .bind (.edit alters _) fun _ _ _ alters => tends_modifyText alters owned fun _ => ⟨_, _, rfl⟩
  next => exact .pure alters _

theorem tends_mountText {node : TextNode (Code Memory)} (found : machine.nodes[id]? = some (.text node)) (target : Handle) (anchor : Anchor) :
    Tends roots start (mountText calls id node target anchor) machine := by
  have hosted : node.source.accessor.Hosted := alters.upright.formed id _ found
  unfold mountText
  split
  next value _ =>
    refine .bind (.edit alters _) fun handle _ _ alters => .bind (tends_modifyText alters owned fun _ => ⟨_, _, rfl⟩) fun _ _ _ alters => tends_node?.2 ?_
    split
    next => exact .seen_bind alters (keeps.resolve anchor _) fun _ _ => .edit alters _
    next => exact .pure alters _
  next accessor isDynamic =>
    rw [isDynamic] at hosted
    have formed : (Task.text id accessor : Task (Code Memory)).Formed := hosted
    refine .bind (tends_ownEffect keeps alters owned formed fun _ same => (Option.some.inj same).symm) fun effect _ _ alters => ?_
    refine .bind (tends_modifyText alters owned fun _ => ⟨_, _, rfl⟩) fun _ _ _ alters => tends_node?.2 ?_
    split
    next => exact .seen_bind alters (keeps.resolve anchor _) fun _ _ => .edit alters _
    next => exact .pure alters _

theorem tends_unmountText (node : TextNode (Code Memory)) (target : Handle) : Tends roots start (unmountText calls id node target) machine := by
  unfold unmountText
  split
  next => exact .pure alters _
  next handle _ =>
    refine .bind (.edit alters _) fun _ _ _ alters => .bind (tends_modifyText alters owned fun _ => ⟨_, _, rfl⟩) fun _ _ _ alters => ?_
    exact .bind (.idle alters (off_disposeAll keeps alters.upright _)) fun _ _ _ alters => tends_modifyText alters owned fun _ => ⟨_, _, rfl⟩

omit owned in
theorem tends_mountChain (target : Handle) (anchor : Anchor) {children : List NodeId} (below : ∀ child ∈ children, Owned roots start child) :
    Tends roots start (mountChain calls target anchor children) machine := by
  induction children generalizing machine anchor with
  | nil => exact .pure alters _
  | cons child rest ih =>
    refine .bind (tends_mountKid keeps alters (below child List.mem_cons_self) target anchor) fun _ _ _ alters => ?_
    exact ih alters _ fun kid member => below kid (List.mem_cons_of_mem _ member)

end

section

variable (keeps : KeepsTrees calls) (upright : Upright machine)

include keeps upright

omit keeps upright in
/-- A fragment is marked as mounted or not. -/
theorem tends_markFragment {node : FragmentNode} (found : machine.nodes[id]? = some (.fragment node)) (alters : Alters (· = id) True machine after) (mounted : Bool) :
    Tends (· = id) machine (setNode id (.fragment { node with mounted })) after := by
  obtain ⟨later, foundLater, same⟩ := alters.grows.exists_blank found
  obtain ⟨current, rfl, kids⟩ : ∃ current, later = .fragment current ∧ current.children = node.children := by
    cases later with
    | fragment current =>
      injection same with same
      injection same with children
      exact ⟨current, rfl, children⟩
    | _ => cases same
  refine .set alters foundLater .self ?_ trivial (fun kid member => .inl ?_) trivial fun _ stuck => stuck
  · rw [same]
    rfl
  · rw [Node.kids] at member ⊢
    exact kids ▸ member

theorem tends_mountFragment {node : FragmentNode} (found : machine.nodes[id]? = some (.fragment node)) (target : Handle) (anchor : Anchor) :
    Tends (· = id) machine (mountFragment calls id node target anchor) machine := by
  have below : ∀ child ∈ node.children, Owned (· = id) machine child := fun child member => owned_kid (.refl upright) .self found member
  exact .bind (tends_mountChain keeps (.refl upright) target anchor below) fun _ _ _ alters => tends_markFragment found alters true

theorem tends_unmountFragment {node : FragmentNode} (found : machine.nodes[id]? = some (.fragment node)) (target : Handle) :
    Tends (· = id) machine (unmountFragment calls id node target) machine := by
  have below : ∀ child ∈ node.children, Owned (· = id) machine child := fun child member => owned_kid (.refl upright) .self found member
  unfold unmountFragment
  split
  next => exact .pure (.refl upright) _
  next =>
    refine .bind (.forM (.refl upright) fun child member machine alters => ?_) fun _ _ _ alters => tends_markFragment found alters false
    exact tends_unmountKid keeps alters (below child (List.mem_reverse.1 member)) target

end

end Rendering

end ReactiveMarkup
